import LightTree.Proofs.Furnished

/-!
# Trees in which everything is as declared

Where elements of lists are plain, each operation that neither rebinds a field nor brings in a kind
of its own leaves lists and nodes as declared and everything up to date, also when it fails: a
refused change changes nothing, and what a failed creation leaves behind was never linked.
-/

namespace LightTree

open Edit

namespace Tree

/-- A plain tree in which everything is up to date and as declared. -/
structure Standing (catalog : Catalog) (tree : Tree) : Prop
    extends tree.Plain, Shaped catalog (fun _ ↦ False) tree where
  upToDate : ∀ id, tree.UpToDate id

variable {catalog : Catalog} {exempt : NodeId → Prop} {tree mid after : Tree} {owner node : NodeId}
  {container : Option FieldId} {id : FieldId}

namespace Standing

theorem plain (h : tree.Standing catalog) : tree.Plain :=
  h.toPlain

theorem settled (h : tree.Standing catalog) : tree.Settled :=
  ⟨h.sound, h.upToDate⟩

theorem fits (h : tree.Standing catalog) {kind : NodeKind} (hk : kind ∈ catalog.kinds) :
    kind.Fits PlainGroup :=
  h.stock.kinds kind (h.catalog_eq ▸ hk)

theorem releaseNode (h : tree.Standing catalog) (id : NodeId) :
    (tree.releaseNode id).Standing catalog where
  toPlain := ⟨(h.toHoused.releaseNode id).housed, h.stock.releaseNode id⟩
  toShaped := h.toShaped.releaseNode id
  upToDate := (h.settled.releaseNode id).upToDate

theorem giveUp (h : tree.Standing catalog) (child : NodeId) :
    (tree.giveUp child).Standing catalog := by
  rw [Tree.giveUp]
  split
  · exact h.releaseNode child
  · exact h

theorem refused (h : tree.Standing catalog) {α : Type} {edit : Edit α}
    (hedit : edit.AllOrNothing tree) :
    edit.Meets tree (fun _ _ ↦ True) fun _ ↦ Standing catalog := by
  apply Meets.imp hedit fun _ _ ha ↦ ha
  rintro _ _ rfl
  exact h

end Standing

theorem keeps_standing {α : Type} {edit : Edit α} (hlodges : edit.Lodges)
    (hstock : edit.KeepsStock PlainGroup) (hsettled : edit.KeepsSettled)
    (hshape : ∀ tree, tree.Standing catalog →
      edit.Meets tree (fun _ ↦ Shaped catalog fun _ ↦ False) fun _ _ ↦ True)
    (hfails : ∀ tree, tree.Standing catalog →
      edit.Meets tree (fun _ _ ↦ True) fun _ ↦ Standing catalog) :
    edit.Keeps (Standing catalog) := by
  intro tree h
  have hplain := (hlodges tree h.toHoused).and (hstock tree h.stock)
  have hderived := (hsettled tree h.settled).and (hshape tree h)
  apply ((hplain.and hderived).and (hfails tree h)).imp
  · rintro _ after ⟨⟨⟨hu, hs⟩, hset, hsh⟩, _⟩
    exact { toPlain := ⟨hu.housed, hs⟩, toShaped := hsh, upToDate := hset.upToDate }
  · exact fun _ after ⟨_, ha⟩ ↦ ha

/-! ## Making nodes -/

/-- A new field is built or left behind without a link; the rest stays as declared. -/
theorem Plain.plant_shaped (h : tree.Plain) (hset : tree.Settled)
    (hs : tree.Shaped catalog exempt) {value : Value} (hr : tree.Ready owner container value)
    (group : List FieldId) (decl : FieldDecl) :
    (plant (enter false) owner group container decl value).Meets tree
      (fun _ after ↦ after.Settled ∧ after.Shaped catalog exempt)
      fun _ after ↦ after.Settled ∧ after.Shaped catalog exempt := by
  have hv := Confined.enter false
  have hg := h.sound.governs
  have hbuilt := ((Refreshing.enter false).plant hg hr.hosts group decl hr.nodup hr.loose).and
    ((Grouping.enter durable_formsElement false).plant durable_formsElement hs.toGroupedBy hr.hosts
      group decl hr.nodup hr.loose hr.empty)
  have hkept := (hv.plant_endures h.sound hr.hosts group decl value hr.nodup hr.loose).and
    (harmless_sameNodes.plant (harmless_sameNodes.enter false) group container decl value tree)
  apply ((hbuilt.and hkept).and (plant_refused h hr group decl)).imp
  · rintro id after ⟨⟨⟨hkeeps, hgrouped⟩, ⟨hendures, _⟩, hnodes⟩, _⟩
    exact ⟨hset.of_keeps hgrouped.toSound hkeeps,
      hs.step hgrouped hendures (.of_sameNodes hnodes)⟩
  · rintro fault _ ⟨_, rfl⟩
    have hnew := (h.insertField hr decl.name).sound
    exact ⟨hset.of_keeps hnew (keeps_insertField h.sound rfl hnew),
      hs.step (hs.toGroupedBy.insertField durable_formsElement hnew hr.empty) (.insertField tree _)
        (.of_sameNodes (.insertField tree _))⟩

/-- A node that is exempt may be handed any field. -/
theorem Shaped.addTop (h : tree.Shaped catalog (· = node)) (hnode : tree.LiveNode node)
    (hid : tree.Loose id) : (tree.addTop node id).Shaped catalog (· = node) where
  toGroupedBy := Grouped.of_field? h.toGroupedBy (h.toSound.addTop hnode hid) rfl rfl
  catalog_eq := h.catalog_eq
  furnished x n hn hx := by
    rw [Tree.addTop, node?_updateNode, if_neg (Ne.symm hx)] at hn
    obtain ⟨hkind, hfurnished⟩ := h.furnished x n hn hx
    refine ⟨hkind, hfurnished.of_endures (.of_field? rfl rfl) h.owned (h.owned.addTop hnode hid) ?_⟩
    rw [topFields_addTop tree hnode, if_neg hx]

/-- A node that is exempt is furnished with the rest of its fields. -/
theorem furnish_shaped (h : tree.Plain) (hset : tree.Settled)
    (hs : tree.Shaped catalog (· = node)) (hnode : tree.LiveNode node) {done : List FieldDecl}
    (hdone : tree.Furnished node done) {decls : List FieldDecl}
    (hplain : ∀ decl ∈ decls, decl.template?.all FieldDecl.groupIsPlain = true) :
    (furnish node decls).Meets tree
      (fun _ after ↦ after.Settled ∧ after.Shaped catalog (· = node) ∧
        after.Furnished node (done ++ decls))
      fun _ after ↦ after.Settled ∧ after.Shaped catalog (· = node) := by
  induction decls generalizing tree done with
  | nil => exact ⟨hset, hs, (List.append_nil done).symm ▸ hdone⟩
  | cons decl rest ih =>
      obtain ⟨hplainFirst, hplainRest⟩ := List.forall_mem_cons.1 hplain
      have hhost := hosts_whole hnode.lt_size
      have hv := Confined.enter false
      have hnone : ∀ x ∈ ([] : List FieldId), tree.Loose x := fun _ hx ↦ nomatch hx
      have hdeclares : tree.Declares [] [] := rfl
      have hkept := h.instantiate_keeps (fun _ ↦ True) (fun _ _ _ _ _ ↦ trivial)
        (fun _ _ hmid _ ↦ hmid) (fun mid decl value hp hmid hr _ ↦
          hp.plant_shaped hmid.1 hmid.2 hr [] decl) ⟨hset, hs⟩ hhost decl trivial hplainFirst
      have hdeclared := (hv.instantiate_formed h.sound hhost [] decl).and
        (hv.instantiate_wires h.sound hhost hnone hdeclares decl)
      rw [meets_furnish_cons]
      apply ((hkept.and (h.instantiate hhost [] decl hplainFirst)).and hdeclared).imp
      · rintro id mid ⟨⟨⟨hset, hshaped⟩, hmid, hlead, hloose, hhome⟩, hformed, hwired⟩
        have hnodes := (hlead.framed h.sound.governs).nodes
        have hlive : mid.LiveNode node := (hnodes.liveNode node).2 hnode
        have hendures : tree.Endures mid := .of_leads h.sound hlead
        have htops : mid.Wired (mid.Tops node) decl id := by
          apply hwired.imp
          rintro name target (⟨i, hi, _⟩ | ⟨_, hmem, hname⟩)
          · exact absurd hi nofun
          · have hmem' : target ∈ mid.topFields node := hnodes.topFields ▸ hmem
            have htarget := hmid.sound.owned.tops_live node target hmem'
            exact ⟨hmem', (hendures.name? (h.sound.owned.tops_live node target hmem) htarget).trans
              hname⟩
        have hdone' := (hdone.of_endures hendures h.sound.owned hmid.sound.owned
          (congrFun hnodes.topFields node)).addTop hmid.sound.owned hlive hloose hformed htops
        rw [List.append_cons]
        exact ih (hmid.addTop hlive hloose hhome) (hset.addTop hlive hloose)
          (hshaped.addTop hlive hloose) ((liveNode_updateNode ..).2 hlive) hdone' hplainRest
      · exact fun _ _ hb ↦ hb.1.1

namespace Shaped

theorem insertNode (h : Shaped catalog (fun _ ↦ False) tree) (kind : NodeKind) :
    (tree.insertNode { kind }).Shaped catalog (· = tree.nextNode) where
  toGroupedBy := Grouped.of_field? h.toGroupedBy (h.toSound.insertNode rfl rfl) rfl rfl
  catalog_eq := h.catalog_eq
  furnished x n hn hx := by
    rw [node?_insertNode_of_ne tree _ hx] at hn
    obtain ⟨hkind, hfurnished⟩ := h.furnished x n hn not_false
    refine ⟨hkind, hfurnished.of_endures (.of_field? rfl rfl) h.owned
      (h.toSound.insertNode rfl rfl).owned ?_⟩
    rw [topFields_insertNode_of_nil rfl]

/-- A node need not be exempt once it has the fields of its kind. -/
theorem of_furnished (h : tree.Shaped catalog (· = node))
    (hnode : ∀ n, tree.node? node = some n →
      n.kind ∈ catalog.kinds ∧ tree.Furnished node n.kind.fields) :
    Shaped catalog (fun _ ↦ False) tree where
  toGroupedBy := h.toGroupedBy
  catalog_eq := h.catalog_eq
  furnished x n hn _ := by
    by_cases hx : x = node
    · subst hx
      exact hnode n hn
    · exact h.furnished x n hn hx

theorem releaseNode_exempt (h : tree.Shaped catalog (· = node)) :
    Shaped catalog (fun _ ↦ False) (tree.releaseNode node) := by
  apply (h.releaseNode node).of_furnished
  intro n hn
  exact absurd .refl (liveNode_releaseNode_iff.1 (liveNode_of_some hn)).2

end Shaped

theorem attach_keeps_standing (parent child : NodeId) (refresh : Bool) :
    (attach parent child refresh).Keeps (Standing catalog) :=
  keeps_standing (attach_lodges parent child refresh)
    (Nested.attach nested_plainGroup parent child refresh)
    (attach_keepsSettled parent child refresh)
    (fun tree h ↦ attach_keepsShape parent child refresh tree h.toShaped)
    fun _ h ↦ h.refused (attach_refused h.plain parent child refresh)

theorem founding_standing : Founding (Standing catalog) (· ∈ catalog.kinds) where
  catalog _ h _ hk := h.catalog_eq ▸ hk
  furnish tree kind h hk _ := by
    have hplain : (tree.insertNode { kind }).Plain :=
      ⟨(h.toHoused.insertNode kind).housed, h.stock.of_nodes rfl rfl⟩
    have hlive : (tree.insertNode { kind }).LiveNode tree.nextNode :=
      (liveNode_insertNode tree { kind } _).2 (.inl rfl)
    have hnone : (tree.insertNode { kind }).Furnished tree.nextNode [] := by
      rw [Furnished, topFields_insertNode, if_pos rfl]
      exact .nil
    have hfields : ∀ decl ∈ kind.fields, decl.template?.all FieldDecl.groupIsPlain = true := by
      intro decl hd
      rw [Option.all_eq_true]
      exact fun element ↦ h.fits hk tree.nextNode decl hd element
    have hretains := (steady_retains fun _ ↦ True).toQuiet.furnish
      (steady_retains fun _ ↦ True).addTop tree.nextNode kind.fields (tree.insertNode { kind })
    have hkept := (furnish_lodges tree.nextNode kind.fields hplain.toHoused hlive).and
      (Nested.furnish nested_plainGroup tree.nextNode (h.fits hk) _ hplain.stock)
    have hbuilt := furnish_shaped hplain (h.settled.insertNode kind) (h.toShaped.insertNode kind)
      hlive hnone hfields
    apply ((hbuilt.and hkept).and hretains).imp
    · rintro _ after ⟨⟨⟨hset, hshaped, hfurnished⟩, hu, hstock⟩, hretained⟩
      have hkind : after.kind? tree.nextNode = some kind := by
        rw [hretained.kind? trivial, Tree.kind?, readNode_insertNode, if_pos rfl]
      refine { toPlain := ⟨hu.housed, hstock⟩, toShaped := hshaped.of_furnished fun n hn ↦ ?_,
               upToDate := hset.upToDate }
      rw [Tree.kind?, readNode_of_some hn, Option.some.injEq] at hkind
      exact hkind.symm ▸ ⟨hk, hfurnished⟩
    · rintro _ after ⟨⟨⟨hset, hshaped⟩, hhoused, hstock⟩, _⟩
      exact
        { toPlain := ⟨(hhoused.releaseNode _).housed, hstock.releaseNode _⟩
          toShaped := hshaped.releaseNode_exempt
          upToDate := (hset.releaseNode _).upToDate }
  attach parent child := attach_keeps_standing parent child false
  releaseNode _ id h := h.releaseNode id

/-! ## Operations -/

theorem addChild_keeps_standing (parent child : NodeId) :
    (addChild parent child).Keeps (Standing catalog) := by
  intro tree h
  rw [meets_addChild]
  apply (attach_keeps_standing parent child true tree h).imp
  · exact fun _ after ha ↦ ⟨fun _ ↦ ha.giveUp child, fun _ ↦ ha⟩
  · exact fun _ after ha ↦ ha.giveUp child

theorem addByCategory_keeps_standing (parent : NodeId) (category : Category) :
    (addByCategory parent category).Keeps (Standing catalog) := by
  intro tree h
  rw [meets_addByCategory]
  refine ⟨fun _ ↦ h, fun kind _ hk ↦ ?_⟩
  have hkind : kind ∈ catalog.kinds := h.catalog_eq ▸ List.mem_of_find?_eq_some hk
  exact (founding_standing.create hkind tree h).imp
    (fun child mid hm ↦ addChild_keeps_standing parent child mid hm) fun _ _ ha ↦ ha

theorem removeChild_keeps_standing (parent child : NodeId) :
    (removeChild parent child).Keeps (Standing catalog) :=
  keeps_standing (removeChild_lodges parent child)
    (Nested.removeChild nested_plainGroup parent child) (removeChild_keepsSettled parent child)
    (fun tree h ↦ removeChild_keepsShape parent child tree h.toShaped)
    fun _ h ↦ h.refused (removeChild_refused h.plain parent child)

theorem detach_keeps_standing (id : NodeId) : (detach id).Keeps (Standing catalog) := by
  intro tree h
  rw [meets_detach]
  exact ⟨fun _ ↦ h, fun parent _ ↦ removeChild_keeps_standing parent id tree h⟩

theorem retype_keeps_standing (id : NodeId) (symbol : String) :
    (retype id symbol).Keeps (Standing catalog) := by
  refine keeps_standing (retype_lodges id symbol) (Nested.retype nested_plainGroup id symbol)
    (retype_keepsSettled id symbol) (fun tree h ↦ ?_) fun tree h ↦ ?_
  · refine h.toShaped.retype (fun kind hk ↦ ?_) id symbol
    exact (founding_standing.create hk tree h).imp (fun _ _ ha ↦ ha.toShaped) fun _ _ _ ↦ trivial
  · refine retype_refused h.plain id symbol (fun _ ↦ h) fun kind hk ↦ ?_
    exact (founding_standing.create (h.catalog_eq ▸ hk) tree h).imp (fun _ _ _ ↦ trivial)
      fun _ _ ha ↦ ha

theorem mutate_keeps_standing (id : FieldId) {change : Field → Except Fault Value}
    (hchange : Faithful change) : (mutate id change).Keeps (Standing catalog) :=
  keeps_standing (mutate_lodges id hchange.leafy) (Nested.mutate nested_plainGroup id hchange.leafy)
    (mutate_keepsSettled id hchange.leafy)
    (fun tree h ↦ mutate_keepsShape id hchange tree h.toShaped)
    fun _ h ↦ h.refused (mutate_refused h.plain id hchange.leafy)

theorem appendElement_keeps_standing (id : FieldId) :
    (appendElement id).Keeps (Standing catalog) :=
  keeps_standing (appendElement_lodges id) (Nested.appendElement nested_plainGroup id)
    (appendElement_keepsSettled id) (fun tree h ↦ appendElement_keepsShape id tree h.toShaped)
    fun _ h ↦ h.refused (appendElement_refused h.plain id)

theorem removeElement_keeps_standing (id : FieldId) (index : Nat) :
    (removeElement id index).Keeps (Standing catalog) :=
  keeps_standing (removeElement_lodges id index) (Nested.removeElement nested_plainGroup id index)
    (removeElement_keepsSettled id index)
    (fun tree h ↦ removeElement_keepsShape id index tree h.toShaped)
    fun _ h ↦ h.refused (removeElement_refused h.plain id index)

end Tree

/-- Whether an operation brings in no kind of its own and rebinds no field. -/
def Operation.IsNative (operation : Operation) (catalog : Catalog) : Prop :=
  match operation with
  | .create kind => kind ∈ catalog.kinds
  | .rebind .. => False
  | _ => True

namespace Tree

variable {catalog : Catalog} {tree : Tree}

theorem Standing.perform (h : tree.Standing catalog) {operation : Operation}
    (hnative : operation.IsNative catalog) : (tree.perform operation).2.Standing catalog := by
  have hanswer : ∀ {α : Type} {edit : Edit α} (answer : α → Answer), edit.Keeps (Standing catalog) →
      (edit >>= fun a ↦ pure (answer a) : Edit Answer).Meets tree (fun _ ↦ Standing catalog)
        fun _ ↦ Standing catalog :=
    fun answer hedit ↦ (meets_bind ..).2 (hedit tree h)
  apply meets_const_iff.1
  cases operation with
  | create kind => exact hanswer .created (founding_standing.create hnative)
  | addChild parent child => exact hanswer .outcome (addChild_keeps_standing parent child)
  | addByCategory parent category =>
      exact hanswer .outcome (addByCategory_keeps_standing parent category)
  | removeChild parent child => exact hanswer .outcome (removeChild_keeps_standing parent child)
  | detach id => exact hanswer .outcome (detach_keeps_standing id)
  | retype id symbol => exact hanswer .outcome (retype_keeps_standing id symbol)
  | setInteger id n =>
      exact hanswer (fun _ ↦ .done) (mutate_keeps_standing id (faithful_setInteger n))
  | setBoolean id b =>
      exact hanswer (fun _ ↦ .done) (mutate_keeps_standing id (faithful_setBoolean b))
  | choose id value =>
      exact hanswer (fun _ ↦ .done) (mutate_keeps_standing id (faithful_choose value))
  | setText id text =>
      exact hanswer (fun _ ↦ .done) (mutate_keeps_standing id (faithful_setText text))
  | setColor id text =>
      exact hanswer (fun _ ↦ .done) (mutate_keeps_standing id (faithful_setColor text))
  | appendElement id => exact hanswer .element (appendElement_keeps_standing id)
  | removeElement id index => exact hanswer .outcome (removeElement_keeps_standing id index)
  | rebind => exact hnative.elim

theorem Standing.run (h : tree.Standing catalog) {operations : List Operation}
    (hnative : ∀ operation ∈ operations, operation.IsNative catalog) :
    (tree.run operations).2.Standing catalog := by
  induction operations generalizing tree with
  | nil => exact h
  | cons operation rest ih =>
      obtain ⟨hfirst, hrest⟩ := List.forall_mem_cons.1 hnative
      exact ih (h.perform hfirst) hrest

theorem standing_empty {settings : Settings}
    (hkinds : ∀ kind ∈ catalog.kinds, kind.isPlain = true) :
    ({ catalog, settings } : Tree).Standing catalog := by
  have hnone := field?_empty catalog settings
  have hsound := sound_empty catalog settings
  have hlive : ∀ {id}, ¬({ catalog, settings } : Tree).Live id := not_live_iff.2 (hnone _)
  constructor
  · refine ⟨⟨hsound, homed_empty catalog settings⟩, ?_⟩
    refine ⟨fun id _ _ ht ↦ absurd (live_of_template?_eq_some ht) hlive, fun kind hk ↦ ?_⟩
    exact NodeKind.fits_of_isPlain (hkinds kind hk)
  · refine { toSound := hsound, catalog_eq := rfl, furnished := fun id node hn ↦ ?_,
             element := fun id _ _ ht ↦ absurd (live_of_template?_eq_some ht) hlive }
    rw [node?_empty] at hn
    cases hn
  · exact fun id ↦ upToDate_of_not_live hlive

/-- The first tree is built of declared kinds, whatever its settings. -/
theorem standing_start {settings : Settings}
    (hkinds : ∀ kind ∈ catalog.kinds, kind.isPlain = true)
    (h : start catalog settings = .ok tree) : tree.Standing catalog := by
  refine @of_start catalog settings tree (Standing catalog) ?_ h
  apply (founding_standing.build (standing_empty hkinds) catalog.root_mem
    (catalog.check_of_mem catalog.root_mem) fun kind hk ↦ founding_standing.create hk).imp
  · exact fun _ _ ha ↦ ha
  · exact fun _ _ _ ↦ trivial

end Tree

end LightTree
