import LightTree.Proofs.Budget
import LightTree.Proofs.Requirements

/-!
# No operation runs out of steps

Every cascade begins in a sound tree, with steps for a whole layout for each of its fields, and the
levels on which nodes are built never go deeper than those that are given. Whatever an operation is
asked, it is therefore never cut off because its steps are used up: the bounds of the recursion show
nowhere.
-/

namespace LightTree

open Edit

/-! ## Faults of checks -/

theorem bind_ne_error {α β ε : Type} {result : Except ε α} {next : α → Except ε β} {fault : ε}
    (h : result ≠ .error fault) (hnext : ∀ a, next a ≠ .error fault) :
    (result >>= next) ≠ .error fault := by
  cases result with
  | error other =>
      intro heq
      cases heq
      exact h rfl
  | ok a => exact hnext a

namespace FieldDecl

theorem checkSource_ne_exhausted (scope : List String) (decl : FieldDecl) :
    checkSource scope decl ≠ .error .exhausted := by
  unfold checkSource
  split
  · split <;> nofun
  · nofun

mutual

theorem check_ne_exhausted (outer declared : List String) :
    ∀ decl : FieldDecl, check outer declared decl ≠ .error .exhausted
  | scalar .. => by
    rw [check]
    nofun
  | choice name options => by
    rw [check]
    split <;> nofun
  | list name rule element => by
    rw [check]
    exact bind_ne_error (checkSource_ne_exhausted _ _) fun _ ↦ checkGroup_ne_exhausted _ _ element
  | gated name source condition inner => by
    rw [check]
    exact bind_ne_error (checkSource_ne_exhausted _ _) fun _ ↦ check_ne_exhausted _ _ inner

theorem checkGroup_ne_exhausted (outer declared : List String) :
    ∀ decls : List FieldDecl, checkGroup outer declared decls ≠ .error .exhausted
  | [] => by
    rw [checkGroup]
    nofun
  | decl :: rest => by
    rw [checkGroup]
    split
    · exact bind_ne_error nofun fun _ ↦
        bind_ne_error (check_ne_exhausted _ _ decl) fun _ ↦ checkGroup_ne_exhausted _ _ rest
    · exact bind_ne_error (check_ne_exhausted _ _ decl) fun _ ↦ checkGroup_ne_exhausted _ _ rest

end

end FieldDecl

theorem NodeKind.check_ne_exhausted (kind : NodeKind) : kind.check ≠ .error .exhausted := by
  have hbounds : kind.checkBounds ≠ .error .exhausted := by
    unfold checkBounds
    split
    · split <;> nofun
    · nofun
  have hfields := FieldDecl.checkGroup_ne_exhausted [] [] kind.fields
  unfold NodeKind.check
  refine bind_ne_error hbounds fun _ ↦ ?_
  by_cases hmatch : ((kind.maxChildren == some 0) != (kind.childCategory == .nothing)) = true
  · simp only [hmatch]
    nofun
  · by_cases hcategory : (kind.category == .nothing) = true
    · simp only [hmatch, hcategory]
      nofun
    · simp only [hmatch, hcategory]
      exact hfields

namespace Field

variable (field : Field)

theorem setInteger_ne_exhausted (n : Int64) : field.setInteger n ≠ .error .exhausted := by
  unfold setInteger
  split <;> nofun

theorem setBoolean_ne_exhausted (b : Bool) : field.setBoolean b ≠ .error .exhausted := by
  unfold setBoolean
  split <;> nofun

theorem choose_ne_exhausted (option : String) : field.choose option ≠ .error .exhausted := by
  unfold choose
  split
  · split <;> nofun
  · nofun

theorem setText_ne_exhausted (text : String) : field.setText text ≠ .error .exhausted := by
  unfold setText
  split
  · nofun
  · split <;> nofun

theorem setColor_ne_exhausted (text : String) : field.setColor text ≠ .error .exhausted := by
  unfold setColor
  split
  · split <;> nofun
  · nofun

end Field

/-- An edit of a sound tree leaves a sound tree, or fails before its steps are used up. -/
def Edit.Finishes {α : Type} (edit : Edit α) : Prop :=
  edit.Carries Tree.Sound fun fault _ ↦ fault ≠ .exhausted

namespace Tree

variable {tree : Tree}

/-! ## Cascades -/

theorem enter_finishes (refresh : Bool) (id : FieldId) : (enter refresh id).Finishes := by
  intro tree h
  rw [enter, meets_bind, meets_get]
  have hvisit := Thrifty.notify tree _ refresh [] ∅ _ tree id h.laidOut (.start tree id _)
  refine hvisit.imp ?_ fun _ _ hf ↦ hf
  rintro _ _ ⟨_, ha⟩
  exact ha.laidOut.toSound

theorem spread_finishes (refresh : Bool) (ids : List FieldId) :
    (spread (enter refresh) ids).Finishes := by
  induction ids with
  | nil => exact fun _ h ↦ h
  | cons id outer ih =>
      intro tree h
      rw [meets_spread_cons]
      refine ⟨fun _ ↦ ?_, fun _ ↦ h⟩
      exact (carries_forM (fun d _ ↦ enter_finishes refresh d) tree h).imp (fun _ mid ↦ ih mid)
        fun _ _ hf ↦ hf

theorem propagate_finishes (refresh : Bool) (source : Source) :
    (propagate (enter refresh) source).Finishes := by
  intro tree h
  cases source with
  | children id =>
      rw [meets_propagate_children]
      exact carries_forM (fun d _ ↦ enter_finishes refresh d) tree h
  | field id =>
      rw [meets_propagate_field]
      exact spread_finishes refresh _ tree h

theorem settle_finishes (source : Source) : (settle source).Finishes := by
  intro tree h
  rw [meets_settle]
  exact (propagate_finishes true source tree h).imp (fun _ _ ha ↦ ha.refresh) fun _ _ hf ↦ hf

theorem childrenChanged_finishes (parent : NodeId) (refresh : Bool) :
    (childrenChanged parent refresh).Finishes := by
  rw [childrenChanged]
  split
  · exact settle_finishes (.children parent)
  · exact propagate_finishes false (.children parent)

/-! ## Building fields -/

theorem Sound.rebindWith_finishes (h : tree.Sound) (dependent : FieldId) {source : Source}
    (hissued : tree.Issued source) :
    (rebindWith (enter false) dependent source).Meets tree (fun _ ↦ Sound)
      fun fault _ ↦ fault ≠ .exhausted := by
  rw [meets_rebindWith]
  refine ⟨fun field hf ↦ ⟨fun _ ↦ nofun, fun hc ↦
    ⟨fun _ hfault ↦ h.rehearseEntry_ne_exhausted hfault, fun _ ↦ ?_⟩⟩, fun _ ↦ nofun⟩
  have hs := h.relink_of_not_closesCycle (live_of_some hf) hissued hc
  refine (enter_finishes false dependent _ hs).imp (fun _ _ ha ↦ ha) fun fault after hfault ↦ ?_
  rw [meets_relink]
  exact ⟨fun _ ↦ hfault, fun _ ↦ nofun⟩

section

variable {owner : NodeId} {container : Option FieldId}

theorem Sound.plant_finishes (h : tree.Sound) (hhost : tree.whole.Hosts tree owner container)
    (group : List FieldId) (decl : FieldDecl) {value : Value} (hnodup : value.parts.Nodup)
    (hparts : ∀ c ∈ value.parts, tree.Loose c) :
    (plant (enter false) owner group container decl value).Meets tree (fun _ _ ↦ True)
      fun fault _ ↦ fault ≠ .exhausted := by
  rw [meets_plant]
  set field : Field := { name := decl.name, owner, value, container }
  have hs : (tree.insertField field).Sound := h.insertField rfl rfl
    (fun c hc ↦ (hhost.container c hc).2) hhost.owner hnodup hparts
  refine (meets_resolve owner group decl).imp ?_ ?_
  · rintro source _ ⟨rfl, hsource⟩
    refine ⟨fun _ ↦ trivial, fun s hss ↦ ?_⟩
    refine (hs.rebindWith_finishes _ ?_).imp (fun _ _ _ ↦ trivial) fun _ _ hf ↦ hf
    rcases hsource s hss with rfl | ⟨_, id, _, rfl, hfirst⟩
    · exact hhost.owner
    · exact (live_of_firstNamed?_eq_some hfirst).lt_size
  · rintro fault _ ⟨_, _, _, rfl, _⟩
    nofun

theorem Sound.instantiate_finishes (h : tree.Sound)
    (hhost : tree.whole.Hosts tree owner container) (group : List FieldId) :
    ∀ decl : FieldDecl, (instantiate (enter false) owner group container decl).Meets tree
      (fun _ _ ↦ True) fun fault _ ↦ fault ≠ .exhausted
  | .scalar _ _ => h.plant_finishes hhost group _ List.nodup_nil (fun _ hc ↦ nomatch hc)
  | .choice name options => by
    rw [meets_instantiate_choice]
    exact ⟨fun _ ↦ nofun, fun _ ↦
      h.plant_finishes hhost group _ List.nodup_nil (fun _ hc ↦ nomatch hc)⟩
  | .list _ _ _ => h.plant_finishes hhost group _ List.nodup_nil (fun _ hc ↦ nomatch hc)
  | .gated name source condition inner => by
    rw [meets_instantiate_gated]
    have hbuilds := (Confined.enter false).instantiate h.governs hhost
      (fun x (_ : x ∈ group) ↦ trivial) inner
    refine (hbuilds.and (h.instantiate_finishes hhost group inner)).imp ?_ fun _ _ hf ↦ hf.2
    rintro id mid ⟨⟨hlead, hloose, _⟩, _⟩
    exact (h.of_leads hlead).plant_finishes (h.hosts_of_leads hhost hlead) group _
      (List.nodup_singleton id) fun c hc ↦ List.mem_singleton.1 hc ▸ hloose

theorem Sound.instantiateGroup_finishes (h : tree.Sound)
    (hhost : tree.whole.Hosts tree owner container) (group : List FieldId)
    (decls : List FieldDecl) :
    (instantiateGroup (enter false) owner container group decls).Meets tree (fun _ _ ↦ True)
      fun fault _ ↦ fault ≠ .exhausted := by
  induction decls generalizing tree group with
  | nil => trivial
  | cons decl rest ih =>
      rw [meets_instantiateGroup_cons]
      have hbuilds := (Confined.enter false).instantiate h.governs hhost
        (fun x (_ : x ∈ group) ↦ trivial) decl
      refine (hbuilds.and (h.instantiate_finishes hhost group decl)).imp ?_ fun _ _ hf ↦ hf.2
      rintro id mid ⟨⟨hlead, _⟩, _⟩
      exact ih (h.of_leads hlead) (h.hosts_of_leads hhost hlead) (group ++ [id])

end

/-! ## Attaching and building -/

theorem attach_finishes (parent child : NodeId) (refresh : Bool) :
    (attach parent child refresh).Finishes := by
  intro tree h
  rw [meets_attach]
  exact ⟨fun _ ↦ h, fun _ ↦ ⟨fun _ hfault ↦ h.rehearse_ne_exhausted hfault, fun _ ↦
    childrenChanged_finishes parent refresh _ (h.adopt parent child)⟩⟩

theorem furnish_finishes (id : NodeId) (decls : List FieldDecl) (h : tree.Sound)
    (hid : tree.LiveNode id) :
    (furnish id decls).Meets tree (fun _ ↦ Sound) fun fault _ ↦ fault ≠ .exhausted := by
  induction decls generalizing tree with
  | nil => exact h
  | cons decl rest ih =>
      rw [meets_furnish_cons]
      have hhost := hosts_whole hid.lt_size
      have hbuilds := (Confined.enter false).instantiate h.governs hhost
        (fun x (_ : x ∈ []) ↦ trivial) decl
      refine (hbuilds.and (h.instantiate_finishes hhost [] decl)).imp ?_ fun _ _ hf ↦ hf.2
      rintro field mid ⟨⟨hlead, hloose, _⟩, _⟩
      have hnode : mid.LiveNode id := ((hlead.framed h.governs).nodes.liveNode id).2 hid
      exact ih ((h.of_leads hlead).addTop hnode hloose) ((liveNode_updateNode _ _ _ _).2 hnode)

section

variable {make : NodeKind → Edit NodeId} (hmake : ∀ kind, (make kind).Finishes)

include hmake

theorem populateOne_finishes (id : NodeId) (kind childKind : NodeKind) :
    (populateOne make id kind childKind).Finishes := by
  intro tree h
  rw [meets_populateOne]
  refine (hmake childKind tree h).imp (fun child mid hmid ↦ ?_) fun _ _ hf ↦ hf
  exact (attach_finishes id child false mid hmid).imp
    (fun _ _ ha ↦ ⟨fun _ ↦ nofun, fun _ ↦ ha⟩) fun _ _ hf ↦ hf

theorem populate_finishes (id : NodeId) (kind : NodeKind) (childKind? : Option NodeKind)
    (count : Nat) : (populate make id kind childKind? count).Finishes := by
  induction count with
  | zero => exact fun _ h ↦ h
  | succ count ih =>
      intro tree h
      rw [meets_populate_succ]
      exact ⟨fun _ ↦ nofun, fun childKind _ ↦
        (populateOne_finishes hmake id kind childKind tree h).imp (fun _ ↦ ih) fun _ _ hf ↦ hf⟩

theorem build_finishes (id : NodeId) (kind : NodeKind) (h : tree.Sound) (hid : tree.LiveNode id) :
    (build make id kind).Meets tree (fun _ ↦ Sound) fun fault _ ↦ fault ≠ .exhausted := by
  rw [meets_build]
  refine (furnish_finishes id kind.fields h hid).imp ?_ fun _ _ hf ↦ hf
  exact fun _ after ha ↦ ⟨fun _ ↦ populate_finishes hmake id kind _ _ after ha, fun _ ↦ ha⟩

theorem createWith_finishes (kind : NodeKind) : (createWith make kind).Finishes := by
  intro tree h
  simp only [createWith, meets_bind, meets_check_unit, meets_addNode, meets_orElseUndo,
    meets_release, meets_pure]
  have hlive : (tree.insertNode { kind }).LiveNode tree.nextNode :=
    (liveNode_insertNode _ _ _).2 (.inl rfl)
  refine ⟨fun fault hfault ↦ ?_, fun _ ↦ build_finishes hmake _ kind (h.insertNode rfl rfl) hlive⟩
  rintro rfl
  exact kind.check_ne_exhausted hfault

end

/-- No node is built below the last level, so it does not matter what would be done there. -/
theorem create_finishes (kind : NodeKind) : (create kind).Finishes := by
  have hlevels : ∀ levels kind, (createWith^[levels] (fun _ ↦ throw .unreadableFile) kind).Finishes := by
    intro levels
    induction levels with
    | zero => exact fun _ _ _ ↦ nofun
    | succ levels ih =>
        intro kind
        rw [Function.iterate_succ_apply']
        exact createWith_finishes ih kind
  intro tree h
  have hmeets := hlevels 5 kind tree h
  unfold Meets at hmeets ⊢
  rwa [create_eq_iterate] at hmeets

/-! ## Operations -/

theorem addChild_finishes (parent child : NodeId) : (addChild parent child).Finishes := by
  intro tree h
  rw [meets_addChild]
  exact (attach_finishes parent child true tree h).imp
    (fun _ _ ha ↦ ⟨fun _ ↦ ha.giveUp child, fun _ ↦ ha⟩) fun _ _ hf ↦ hf

theorem addByCategory_finishes (parent : NodeId) (category : Category) :
    (addByCategory parent category).Finishes := by
  intro tree h
  rw [meets_addByCategory]
  exact ⟨fun _ ↦ h, fun kind _ _ ↦ (create_finishes kind tree h).imp
    (fun child mid ↦ addChild_finishes parent child mid) fun _ _ hf ↦ hf⟩

theorem removeChild_finishes (parent child : NodeId) : (removeChild parent child).Finishes := by
  intro tree h
  rw [meets_removeChild]
  exact ⟨fun _ ↦ h, fun _ ↦ ⟨fun _ hfault ↦ h.rehearse_ne_exhausted hfault, fun _ ↦
    childrenChanged_finishes parent true _ ((h.disown parent child).releaseNode child)⟩⟩

theorem detach_finishes (id : NodeId) : (detach id).Finishes := by
  intro tree h
  rw [meets_detach]
  exact ⟨fun _ ↦ h, fun parent _ ↦ removeChild_finishes parent id tree h⟩

theorem retype_finishes (id : NodeId) (symbol : String) : (retype id symbol).Finishes := by
  intro tree h
  refine meets_retype h fun node parent kind _ _ _ ↦
    ⟨fun _ hfault ↦ h.rehearse_ne_exhausted hfault, fun _ ↦ ?_⟩
  refine (create_finishes kind tree h).imp (fun new mid hmid ↦ ?_) fun _ _ hf ↦ hf
  exact ⟨fun _ ↦ hmid.releaseNode new, fun _ ↦
    childrenChanged_finishes parent true _ ((hmid.supplant parent id new).releaseNode id)⟩

/-- The field that a change addresses is found, or the change is refused. -/
theorem Sound.target_finishes (h : tree.Sound) (id : FieldId) :
    (target id).Meets tree (fun found after ↦ after = tree ∧ tree.field? found.1 = some found.2)
      fun fault _ ↦ fault ≠ .exhausted := by
  rw [meets_target]
  exact ⟨fun _ hfault ↦ h.rehearse_ne_exhausted hfault, fun _ ↦
    ⟨fun _ hf ↦ ⟨rfl, hf⟩, fun _ ↦ nofun⟩⟩

theorem mutate_finishes (id : FieldId) {change : Field → Except Fault Value}
    (hchange : Leafy change) (hfault : ∀ field, change field ≠ .error .exhausted) :
    (mutate id change).Finishes := by
  intro tree h
  unfold mutate
  rw [meets_bind]
  refine (h.target_finishes id).imp ?_ fun _ _ hf ↦ hf
  rintro ⟨x, field⟩ _ ⟨rfl, hf⟩
  simp only [meets_bind, meets_check, meets_setValue]
  refine ⟨fun value hv ↦ ?_, fun fault hv ↦ ?_⟩
  · obtain ⟨hold, hnew⟩ := hchange field value hv
    exact settle_finishes _ _ (h.setValue hf hold hnew)
  · rintro rfl
    exact hfault field hv

theorem appendElement_finishes (id : FieldId) : (appendElement id).Finishes := by
  intro tree h
  unfold appendElement
  rw [meets_bind]
  refine (h.target_finishes id).imp ?_ fun _ _ hf ↦ hf
  rintro ⟨x, field⟩ _ ⟨rfl, hf⟩
  cases hvalue : field.value with
  | scalar | choice | gated =>
      simp only [hvalue, meets_throw]
      intro hexhausted
      cases hexhausted
  | list linked template elements =>
      cases linked with
      | true =>
          simp only [hvalue, meets_throw]
          intro hexhausted
          cases hexhausted
      | false =>
          simp only [hvalue, meets_bind, meets_discard_field, meets_mapElements, meets_pure]
          have hhost := h.governs.hosts hf trivial
          refine (((Confined.enter false).instantiateGroup h.governs hhost .nil template).and
            (h.instantiateGroup_finishes hhost [] template)).imp ?_ fun _ _ hf ↦ hf.2
          rintro group mid ⟨⟨hlead, hgroup⟩, _⟩
          constructor
          · intro _
            have hpush := (h.of_leads hlead).push x hgroup.nodup fun y hy ↦ (hgroup.loose y hy).1
            exact settle_finishes _ _ hpush
          · intro _ hexhausted
            cases hexhausted

theorem removeElement_finishes (id : FieldId) (index : Nat) :
    (removeElement id index).Finishes := by
  intro tree h
  unfold removeElement
  rw [meets_bind]
  refine (h.target_finishes id).imp ?_ fun _ _ hf ↦ hf
  rintro ⟨x, field⟩ _ ⟨rfl, hf⟩
  cases hvalue : field.value with
  | scalar | choice | gated =>
      simp only [hvalue, meets_throw]
      intro hexhausted
      cases hexhausted
  | list linked template elements =>
      cases linked with
      | true =>
          simp only [hvalue, meets_throw]
          intro hexhausted
          cases hexhausted
      | false =>
          cases helement : elements[index]? with
          | none =>
              simp only [hvalue, helement, meets_pure]
              exact h
          | some element =>
              simp only [hvalue, helement, meets_bind, meets_mapElements, meets_modify, meets_pure]
              exact settle_finishes _ _ (h.drop hf (hvalue ▸ splits_eraseIdx helement))

/-- An operation of a sound tree is not cut off, as long as a rebind names a live source. -/
theorem Sound.edit_finishes (h : tree.Sound) {operation : Operation}
    (hl : operation.NamesLive tree) :
    operation.edit.Meets tree (fun _ ↦ Sound) fun fault _ ↦ fault ≠ .exhausted := by
  cases operation with
  | create kind => exact (meets_bind ..).2 (create_finishes kind tree h)
  | addChild parent child => exact (meets_bind ..).2 (addChild_finishes parent child tree h)
  | addByCategory parent category =>
      exact (meets_bind ..).2 (addByCategory_finishes parent category tree h)
  | removeChild parent child => exact (meets_bind ..).2 (removeChild_finishes parent child tree h)
  | detach id => exact (meets_bind ..).2 (detach_finishes id tree h)
  | retype id symbol => exact (meets_bind ..).2 (retype_finishes id symbol tree h)
  | setInteger id n =>
      exact (meets_bind ..).2
        (mutate_finishes id (leafy_setInteger n) (·.setInteger_ne_exhausted n) tree h)
  | setBoolean id b =>
      exact (meets_bind ..).2
        (mutate_finishes id (leafy_setBoolean b) (·.setBoolean_ne_exhausted b) tree h)
  | choose id option =>
      exact (meets_bind ..).2
        (mutate_finishes id (leafy_choose option) (·.choose_ne_exhausted option) tree h)
  | setText id text =>
      exact (meets_bind ..).2
        (mutate_finishes id (leafy_setText text) (·.setText_ne_exhausted text) tree h)
  | setColor id text =>
      exact (meets_bind ..).2
        (mutate_finishes id (leafy_setColor text) (·.setColor_ne_exhausted text) tree h)
  | appendElement id => exact (meets_bind ..).2 (appendElement_finishes id tree h)
  | removeElement id index => exact (meets_bind ..).2 (removeElement_finishes id index tree h)
  | rebind dependent source =>
      exact (meets_bind ..).2 (h.rebindWith_finishes dependent hl.issued)

/-! ## Histories -/

/-- The first tree of a catalog is built or refused for a reason of its own. -/
theorem start_ne_exhausted (catalog : Catalog) (settings : Settings) :
    start catalog settings ≠ .error .exhausted := by
  have hroot : (({ catalog, settings } : Tree).insertNode { kind := catalog.root }).Sound :=
    (sound_empty catalog settings).insertNode rfl rfl
  have hlive : (({ catalog, settings } : Tree).insertNode { kind := catalog.root }).LiveNode ⟨0⟩ :=
    (liveNode_insertNode _ _ _).2 (.inl rfl)
  have hrun : (do
      let id ← Edit.addNode { kind := catalog.root }
      build create id catalog.root : Edit Unit).Meets { catalog, settings } (fun _ ↦ Sound)
        fun fault _ ↦ fault ≠ .exhausted :=
    (meets_bind ..).2 (build_finishes create_finishes ⟨0⟩ catalog.root hroot hlive)
  unfold Meets at hrun
  unfold start
  simp only
  split
  · nofun
  · next hr =>
      rw [hr] at hrun
      exact fun h ↦ hrun (Except.error.inj h)

/-- No history that names live sources in its rebinds is ever answered that the steps of a cascade
are used up, however its linked lists grow. -/
theorem exhausted_notMem_run {catalog : Catalog} {settings : Settings} {tree : Tree}
    (hstart : start catalog settings = .ok tree) {operations : List Operation}
    (hlive : tree.RebindsLive operations) : .error .exhausted ∉ (tree.run operations).1 := by
  have h := sound_start hstart
  clear hstart
  induction operations generalizing tree with
  | nil => exact List.not_mem_nil
  | cons operation rest ih =>
      rw [run_cons, List.mem_cons, not_or]
      refine ⟨fun hfirst ↦ ?_, ih hlive.2 (h.perform hlive.1)⟩
      exact (meets_iff.1 (h.edit_finishes hlive.1)).2 _ _ (Prod.ext hfirst.symm rfl) rfl

end Tree

end LightTree
