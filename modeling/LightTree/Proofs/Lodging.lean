import LightTree.Proofs.Housing

/-!
# Cascades house what they build

A visit leaves a homed tree homed, however it ends. If it ends without a fault, it leaves no field
loose that it did not find loose. A function that builds fields hands on what is loose because of
it, with the home that it was asked for.
-/

namespace LightTree

open Relation Edit LightTree.Tree

/-- Visits house what they build, or leave it loose with a fault. -/
def Housing (visit : FieldId → Edit Unit) : Prop :=
  ∀ (tree : Tree) (id : FieldId), tree.Sound → tree.Homed →
    (visit id).Meets tree (fun _ ↦ tree.Houses) fun _ ↦ Homed

namespace Tree

theorem Sound.hosts_of_leads {tree mid : Tree} (h : tree.Sound) {owner : NodeId}
    {container : Option FieldId} (hhost : tree.whole.Hosts tree owner container)
    (hl : tree.whole.Leads tree mid) : mid.whole.Hosts mid owner container :=
  have hmid := hhost.of_framed (hl.framed h.governs)
  ⟨⟨trivial, fun _ _ ↦ trivial⟩, hmid.owner, hmid.container⟩

/-- The tree after an edit that was to build fields for a home. Nothing else is loose because of
it. -/
structure Equips (tree : Tree) (home : NodeId × Option FieldId) (given : List FieldId)
    (after : Tree) : Prop where
  abides : tree.Abides after
  homed : after.Homed
  home : ∀ x ∈ given, after.Live x → after.home? x = some home
  loose : ∀ x, after.Loose x → x ∈ given ∨ tree.Loose x

/-- A list takes over the group that has been built for it. -/
theorem Equips.push {tree mid : Tree} {id : FieldId} {owner : NodeId} {group : List FieldId}
    (he : tree.Equips (owner, some id) group mid)
    (hshelter : tree.shelter? id = some (owner, some id)) (hm : mid.Sound) (hlive : mid.Live id)
    (hnodup : group.Nodup) (hgroup : ∀ x ∈ group, mid.Loose x) :
    tree.Houses (mid.push id group) := by
  have hpush : (mid.push id group).Sound := hm.push id hnodup hgroup
  have hold : tree.Live id := live_of_shelter?_eq_some hshelter
  have hshelter' := (he.abides.shelter? hold hlive).trans hshelter
  obtain ⟨new, hn, _, hlist⟩ := hm.list_of_shelter? hshelter'
  have hhomed : (mid.push id group).Homed := he.homed.push hm.owned hpush.owned fun x hx ↦ by
    rw [he.home x hx (hgroup x hx).live, hshelter']
  refine ⟨he.abides.trans (.mapElements mid id (· ++ [group])), hhomed, fun x hx ↦ ?_⟩
  obtain ⟨hx, hnot⟩ := loose_of_push hn hlist hx
  exact (he.loose x hx).resolve_left hnot

end Tree

namespace Housing

variable {tree : Tree} {visit : FieldId → Edit Unit} {owner : NodeId} {container : Option FieldId}
  {id : FieldId}

theorem rebindWith (hh : Housing visit) (h : tree.Sound) (hm : tree.Homed) {dependent : FieldId}
    {source : Source} (hissued : tree.Issued source) :
    (rebindWith visit dependent source).Meets tree (fun _ ↦ tree.Houses) fun _ ↦ Homed := by
  rw [meets_rebindWith]
  refine ⟨fun field hf ↦ ⟨fun _ ↦ hm, fun hc ↦ ⟨fun _ _ ↦ hm, fun _ ↦ ?_⟩⟩, fun _ ↦ hm⟩
  have hs := h.relink_of_not_closesCycle (live_of_some hf) hissued hc
  have hhoused : tree.Houses (tree.relink dependent (some source)) :=
    ⟨.relink tree dependent _, hm.relink dependent _, fun _ hx ↦ loose_of_relink hx⟩
  refine (hh _ dependent hs hhoused.homed).imp (fun _ _ ha ↦ hhoused.trans ha) ?_
  intro fault after ha
  rw [meets_relink]
  exact ⟨fun _ ↦ ha.relink dependent _, fun _ ↦ ha⟩

theorem plant (hh : Housing visit) (h : tree.Sound) (hm : tree.Homed)
    (hhost : tree.whole.Hosts tree owner container) (group : List FieldId) (decl : FieldDecl)
    {value : Value} (hnodup : value.parts.Nodup) (hparts : ∀ c ∈ value.parts, tree.Loose c)
    (hhomes : ∀ c ∈ value.parts, value.elements? = none ∧ tree.home? c = some (owner, container)) :
    (plant visit owner group container decl value).Meets tree
      (fun id after ↦ tree.Equips (owner, container) [id] after ∧
        ∀ c ∈ value.parts, ¬after.Loose c) fun _ ↦ Homed := by
  rw [meets_plant]
  set field : Field := { name := decl.name, owner, value, container } with hfield
  have hs : (tree.insertField field).Sound := h.insertField rfl rfl
    (fun c hc ↦ (hhost.container c hc).2) hhost.owner hnodup hparts
  have hmi : (tree.insertField field).Homed := by
    refine hm.insertField h.owned hs.owned fun c hc ↦ ?_
    obtain ⟨hnone, hhome⟩ := hhomes c hc
    simp [hhome, Field.shelter, hfield, hnone]
  have hhome : (tree.insertField field).home? tree.nextField = some (owner, container) :=
    home?_insertField tree field
  have hequips : ∀ after, (tree.insertField field).Houses after →
      tree.Equips (owner, container) [tree.nextField] after ∧
        ∀ c ∈ field.value.parts, ¬after.Loose c := by
    intro after ha
    have hloose : ∀ x, after.Loose x →
        x = tree.nextField ∨ tree.Loose x ∧ x ∉ field.value.parts :=
      fun x hx ↦ loose_of_insertField (ha.loose x hx)
    refine ⟨⟨(Abides.insertField tree field).trans ha.abides, ha.homed, ?_, ?_⟩, ?_⟩
    · intro x hx hl
      rw [List.mem_singleton.1 hx] at hl ⊢
      rw [ha.abides.home? (live_of_home?_eq_some hhome) hl]
      exact hhome
    · exact fun x hx ↦ (hloose x hx).imp List.mem_singleton.2 And.left
    · intro c hc hlc
      rcases hloose c hlc with rfl | ⟨_, hnot⟩
      · exact tree.not_live_nextField (hparts _ hc).live
      · exact hnot hc
  refine (meets_resolve owner group decl).imp ?_ fun _ _ ha ↦ ha.1 ▸ hmi
  rintro source after ⟨rfl, hsource⟩
  refine ⟨fun _ ↦ hequips _ (.refl hmi), fun s hss ↦ ?_⟩
  have hissued : (tree.insertField field).Issued s := by
    rcases hsource s hss with rfl | ⟨name, id, _, rfl, hfirst⟩
    · exact hhost.owner
    · exact (live_of_firstNamed?_eq_some hfirst).lt_size
  exact (hh.rebindWith hs hmi hissued).imp (fun _ after ha ↦ hequips after ha) fun _ _ ha ↦ ha

theorem plant_of_no_parts (hh : Housing visit) (h : tree.Sound) (hm : tree.Homed)
    (hhost : tree.whole.Hosts tree owner container) (group : List FieldId) (decl : FieldDecl)
    {value : Value} (hvalue : value.parts = []) :
    (LightTree.plant visit owner group container decl value).Meets tree
      (fun id ↦ tree.Equips (owner, container) [id]) fun _ ↦ Homed := by
  have hnone : ∀ c, c ∉ value.parts := fun c ↦ hvalue ▸ List.not_mem_nil
  exact (hh.plant h hm hhost group decl (hvalue ▸ List.nodup_nil) (fun c hc ↦ absurd hc (hnone c))
    fun c hc ↦ absurd hc (hnone c)).imp (fun _ _ ha ↦ ha.1) fun _ _ ha ↦ ha

theorem instantiate (hv : Confined visit) (hh : Housing visit) (h : tree.Sound) (hm : tree.Homed)
    (hhost : tree.whole.Hosts tree owner container) (group : List FieldId) :
    ∀ decl : FieldDecl, (instantiate visit owner group container decl).Meets tree
      (fun id ↦ tree.Equips (owner, container) [id]) fun _ ↦ Homed
  | .scalar _ _ => hh.plant_of_no_parts h hm hhost group _ (by rfl)
  | .choice name options => by
    rw [meets_instantiate_choice]
    exact ⟨fun _ ↦ hm, fun _ ↦ hh.plant_of_no_parts h hm hhost group _ (by rfl)⟩
  | .list _ _ _ => hh.plant_of_no_parts h hm hhost group _ (by rfl)
  | .gated name source condition inner => by
    rw [meets_instantiate_gated]
    refine ((hv.instantiate h.governs hhost (fun _ _ ↦ trivial) inner).and
      (instantiate hv hh h hm hhost group inner)).imp ?_ fun _ _ ha ↦ ha.2
    rintro id mid ⟨⟨hlead, hloose, _⟩, hmid⟩
    have hnodup : (Value.gated condition id).parts.Nodup := List.nodup_singleton id
    refine (hh.plant (h.of_leads hlead) hmid.homed (h.hosts_of_leads hhost hlead) group _ hnodup
      (fun c hc ↦ ?_) fun c hc ↦ ⟨rfl, ?_⟩).imp ?_ fun _ _ ha ↦ ha
    · rw [List.mem_singleton.1 hc]
      exact hloose
    · rw [List.mem_singleton.1 hc]
      exact hmid.home id (List.mem_singleton.2 rfl) hloose.live
    · rintro gate after ⟨ha, hnot⟩
      refine ⟨hmid.abides.trans ha.abides, ha.homed, ha.home, fun x hx ↦ ?_⟩
      refine (ha.loose x hx).imp_right fun hxm ↦ (hmid.loose x hxm).resolve_left fun hxi ↦ ?_
      exact hnot x hxi hx

theorem instantiateGroup (hv : Confined visit) (hh : Housing visit) (h : tree.Sound)
    (hm : tree.Homed) (hhost : tree.whole.Hosts tree owner container) {group : List FieldId}
    (hgroup : ∀ x ∈ group, tree.Loose x ∧ tree.home? x = some (owner, container))
    (decls : List FieldDecl) :
    (instantiateGroup visit owner container group decls).Meets tree
      (fun all after ↦ tree.Equips (owner, container) all after ∧ ∀ x ∈ group, x ∈ all)
      fun _ ↦ Homed := by
  induction decls generalizing tree group with
  | nil =>
      exact ⟨⟨.refl tree, hm, fun x hx _ ↦ (hgroup x hx).2, fun _ hx ↦ .inr hx⟩, fun _ hx ↦ hx⟩
  | cons decl rest ih =>
      rw [meets_instantiateGroup_cons]
      refine ((hv.instantiate h.governs hhost (fun _ _ ↦ trivial) decl).and
        (hh.instantiate hv h hm hhost group decl)).imp ?_ fun _ _ ha ↦ ha.2
      rintro id mid ⟨⟨hlead, hloose, _⟩, hmid⟩
      refine (ih (h.of_leads hlead) hmid.homed (h.hosts_of_leads hhost hlead)
        fun x hx ↦ ?_).imp ?_ fun _ _ ha ↦ ha
      · rcases List.mem_append.1 hx with hx | hx
        · obtain ⟨hxl, hxh⟩ := hgroup x hx
          have hxl' := (hlead.framed h.governs).loose x hxl.live.lt_size hxl
          exact ⟨hxl', (hmid.abides.home? hxl.live hxl'.live).trans hxh⟩
        · rw [List.mem_singleton.1 hx]
          exact ⟨hloose, hmid.home id (List.mem_singleton.2 rfl) hloose.live⟩
      · rintro all after ⟨ha, hall⟩
        refine ⟨⟨hmid.abides.trans ha.abides, ha.homed, ha.home, fun x hx ↦ ?_⟩,
          fun x hx ↦ hall x (List.mem_append_left _ hx)⟩
        rcases ha.loose x hx with hx | hx
        · exact .inl hx
        · refine (hmid.loose x hx).imp_left fun hxi ↦ hall x (List.mem_append_right _ hxi)

/-! ### Linked lists -/

theorem grow (hv : Confined visit) (hh : Housing visit) (h : tree.Sound) (hm : tree.Homed)
    (template : List FieldDecl) (count : Nat)
    (hshelter : tree.shelter? id = some (owner, some id)) :
    (grow visit owner template id count).Meets tree (fun _ ↦ tree.Houses) fun _ ↦ Homed := by
  induction count generalizing tree with
  | zero => exact .refl hm
  | succ count ih =>
      rw [meets_grow_succ]
      obtain ⟨field, hf, rfl, _⟩ := h.list_of_shelter? hshelter
      have hid := live_of_some hf
      have hhost := h.governs.hosts hf trivial
      refine ((hv.instantiateGroup h.governs hhost .nil template).and
        (hh.instantiateGroup hv h hm hhost (fun _ hx ↦ absurd hx List.not_mem_nil)
          template)).imp ?_ fun _ _ ha ↦ ha.2
      rintro group mid ⟨⟨hlead, hgroup⟩, hmid, _⟩
      refine ⟨fun hlive ↦ ?_, fun _ ↦ hmid.homed⟩
      have hloose : ∀ x ∈ group, mid.Loose x := fun x hx ↦ (hgroup.loose x hx).1
      have hms := h.of_leads hlead
      have hhouses := hmid.push hshelter hms hlive hgroup.nodup hloose
      have hlive' : (mid.push id group).Live id := (live_updateField mid id _ id).2 hlive
      refine (ih (hms.push id hgroup.nodup hloose) hhouses.homed ?_).imp
        (fun _ _ ha ↦ hhouses.trans ha) fun _ _ ha ↦ ha
      exact (hhouses.abides.shelter? hid hlive').trans hshelter

theorem shrink (h : tree.Sound) (hm : tree.Homed) (id : FieldId) (count : Nat) :
    (shrink id count).Meets tree (fun _ ↦ tree.Houses) fun _ ↦ Homed := by
  induction count generalizing tree with
  | zero => exact .refl hm
  | succ count ih =>
      rw [meets_shrink_succ]
      refine ⟨fun field hf ↦ ?_, fun _ ↦ hm⟩
      have hsplit := splits_dropLast field.value
      have hhouses := Houses.drop h hm hf hsplit
      exact (ih (h.drop hf hsplit) hhouses.homed).imp (fun _ _ ha ↦ hhouses.trans ha)
        fun _ _ ha ↦ ha

theorem resize (hv : Confined visit) (hh : Housing visit) (h : tree.Sound) (hm : tree.Homed)
    (id : FieldId) (length : Nat) :
    (resize visit id length).Meets tree (fun _ ↦ tree.Houses) fun _ ↦ Homed := by
  rw [meets_resize]
  refine ⟨fun field hf ↦ ⟨fun linked template elements hvalue ↦ ?_, fun _ ↦ hm⟩,
    fun _ ↦ hm⟩
  have hshelter := shelter?_of_list hf hvalue
  refine ((hv.grow h.governs trivial (h.governs.hosts hf trivial) template _).and
    (hh.grow hv h hm template _ hshelter)).imp ?_ fun _ _ ha ↦ ha.2
  rintro _ mid ⟨hlead, hmid⟩
  exact (shrink (h.of_leads hlead) hmid.homed id _).imp (fun _ _ ha ↦ hmid.trans ha)
    fun _ _ ha ↦ ha

/-! ### Deriving and notifying -/

theorem recompute (hv : Confined visit) (hh : Housing visit) (h : tree.Sound) (hm : tree.Homed)
    (id : FieldId) : (recompute visit id).Meets tree (fun _ ↦ tree.Houses) fun _ ↦ Homed := by
  rw [meets_recompute]
  refine ⟨fun field _ ↦ ⟨fun source condition _ _ _ ↦ ?_, fun source _ _ _ _ ↦ ?_,
    fun _ ↦ .refl hm⟩, fun _ ↦ hm⟩
  · exact .setActive h hm id _
  · exact hh.resize hv h hm id _

theorem forM (hv : Confined visit) (hh : Housing visit) (h : tree.Sound) (hm : tree.Homed)
    (ids : List FieldId) :
    (ids.forM visit).Meets tree (fun _ ↦ tree.Houses) fun _ ↦ Homed := by
  refine (meets_forM (fun _ mid ↦ mid.Sound ∧ tree.Houses mid) (fun _ hmid ↦ hmid.2) ?_ ids tree
    ⟨h, .refl hm⟩)
  rintro b rest mid ⟨hms, hmid⟩
  refine ((hv mid.whole mid b hms.governs trivial).and (hh mid b hms hmid.homed)).imp ?_
    fun _ _ ha ↦ ha.2
  exact fun _ after ⟨hlead, ha⟩ ↦ ⟨hms.of_leads hlead, hmid.trans ha⟩

theorem spread (hv : Confined visit) (hh : Housing visit) (h : tree.Sound) (hm : tree.Homed)
    (ids : List FieldId) :
    (spread visit ids).Meets tree (fun _ ↦ tree.Houses) fun _ ↦ Homed := by
  induction ids generalizing tree with
  | nil => exact .refl hm
  | cons id outer ih =>
      rw [meets_spread_cons]
      refine ⟨fun _ ↦ ?_, fun _ ↦ .refl hm⟩
      refine ((hv.forM h.governs fun _ _ ↦ trivial).and (hh.forM hv h hm _)).imp ?_
        fun _ _ ha ↦ ha.2
      rintro _ mid ⟨hlead, hmid⟩
      exact (ih (h.of_leads hlead) hmid.homed).imp (fun _ _ ha ↦ hmid.trans ha) fun _ _ ha ↦ ha

theorem propagate (hv : Confined visit) (hh : Housing visit) (h : tree.Sound) (hm : tree.Homed)
    (source : Source) :
    (propagate visit source).Meets tree (fun _ ↦ tree.Houses) fun _ ↦ Homed := by
  cases source with
  | children id =>
      rw [meets_propagate_children]
      exact hh.forM hv h hm _
  | field id =>
      rw [meets_propagate_field]
      exact hh.spread hv h hm _

theorem notify (fuel : Nat) :
    ∀ (refresh : Bool) (path : List FieldId), Housing (notify fuel refresh path) := by
  induction fuel with
  | zero => exact fun _ _ _ _ _ hm ↦ hm
  | succ fuel ih =>
      intro refresh path tree id h hm
      rw [meets_notify_succ]
      refine ⟨fun field _ ↦ ⟨fun _ _ ↦ hm, fun _ ↦ ?_⟩, fun _ ↦ .refl hm⟩
      have hv := Confined.notify fuel false []
      refine ((hv.recompute h.governs trivial).and ((ih false []).recompute hv h hm id)).imp ?_
        fun _ _ ha ↦ ha.2
      rintro _ mid ⟨hlead, hmid⟩
      have hms := h.of_leads hlead
      have hrest : ∀ last : Tree, last.Sound → tree.Houses last →
          (LightTree.propagate (LightTree.notify fuel refresh (id :: path)) (.field id)).Meets
            last (fun _ ↦ tree.Houses) fun _ ↦ Homed := fun last hls hlast ↦
        ((ih refresh (id :: path)).propagate (Confined.notify fuel refresh (id :: path)) hls
          hlast.homed (.field id)).imp (fun _ _ ha ↦ hlast.trans ha) fun _ _ ha ↦ ha
      split
      · exact hrest _ hms.refresh (hmid.trans (.refresh hmid.homed))
      · exact hrest mid hms hmid

theorem enter (refresh : Bool) : Housing (enter refresh) := by
  intro tree id h hm
  rw [LightTree.enter, meets_bind, meets_get]
  exact notify _ refresh [] tree id h hm

end Housing

end LightTree
