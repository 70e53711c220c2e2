import LightTree.Proofs.Atomicity

/-!
# Plain trees refuse as a whole

In a plain tree an operation that is refused has changed nothing, unless it makes nodes. This needs
no history without faults: where linked lists have fallen behind their sources, a cascade builds the
missing elements and does not fail.
-/

namespace LightTree

open Edit

namespace Tree

variable {tree : Tree} {id : FieldId}

/-! ## Changing values -/

theorem Plain.mild_setValue (h : tree.Plain) {field : Field} {value : Value}
    (hf : tree.field? id = some field) (hold : field.value.IsLeaf) (hnew : value.IsLeaf) :
    tree.Mild (·.index < tree.fields.size) (tree.updateField id ({ · with value })) where
  toEchoes := .of_thins (.setValue hf hold hnew)
  toHoused := (h.setValue hf hold hnew).housed
  suits := h.stock.suits.of_abides (.setValue hf hold hnew) (size_updateField tree id _)

theorem mutate_refused (h : tree.Plain) (id : FieldId) {change : Field → Except Fault Value}
    (hchange : Leafy change) : (mutate id change).AllOrNothing tree := by
  refine meets_mutate (fun _ ↦ rfl) fun hr field value hf hv ↦ ?_
  obtain ⟨hold, hnew⟩ := hchange field value hv
  exact (h.mild_setValue hf hold hnew).settle h.sound (live_of_some hf) hr

theorem Plain.mild_drop (h : tree.Plain) {field : Field} {template : List FieldDecl}
    {elements : List (List FieldId)} (hf : tree.field? id = some field)
    (hv : field.value = .list false template elements) {index : Nat} {element : List FieldId}
    (he : elements[index]? = some element) :
    tree.Mild (·.index < tree.fields.size) (tree.drop id (·.eraseIdx index) element) := by
  have hsplit : Splits (·.eraseIdx index) element field.value := hv ▸ splits_eraseIdx he
  have hshorter : ∀ list : List (List FieldId), (list.eraseIdx index).length ≤ list.length :=
    fun list ↦ List.length_eraseIdx_le list index
  exact { toEchoes := .of_thins (.drop tree id hshorter element)
          toHoused := ⟨h.sound.drop hf hsplit, h.homed.drop h.sound hf hsplit⟩
          suits := h.stock.suits.of_abides (.drop tree id _ element) (Region.fields_size_drop ..) }

theorem removeElement_refused (h : tree.Plain) (id : FieldId) (index : Nat) :
    (removeElement id index).AllOrNothing tree :=
  meets_removeElement (fun _ ↦ rfl) trivial fun hr _ _ _ _ hf hv he ↦
    (h.mild_drop hf hv he).settle h.sound (live_of_some hf) hr

/-! ## Removing children -/

theorem Plain.mild_remove (h : tree.Plain) (parent child : NodeId) :
    tree.Mild (·.index < tree.fields.size) ((tree.disown parent child).releaseNode child) := by
  have hs := releaseNode_shrinks (tree.disown parent child) child
  have hstock : (tree.disown parent child).Stocked PlainGroup := h.stock.of_nodes rfl rfl
  exact { toEchoes := .of_thins ((Thins.disown tree parent child).trans (.of_shrinks hs))
          toHoused := ((h.disown parent child).housed.releaseNode child).housed
          suits := (hstock.releaseNode child).suits }

theorem removeChild_refused (h : tree.Plain) (parent child : NodeId) :
    (removeChild parent child).AllOrNothing tree := by
  unfold AllOrNothing
  rw [meets_removeChild]
  refine ⟨fun _ ↦ trivial, fun _ ↦ ⟨fun _ _ ↦ rfl, fun hr ↦ ?_⟩⟩
  have hmild := h.mild_remove parent child
  have hlisteners : ((tree.disown parent child).releaseNode child).nodeListeners parent ⊆
      tree.nodeListeners parent :=
    ((Thins.disown tree parent child).trans
      (.of_shrinks (releaseNode_shrinks _ child))).nodeListeners parent
  exact hmild.childrenChanged h.sound hlisteners hr true

/-! ## New fields -/

/-- A new field at a node may hold a value: its parts are at hand and its elements are plain. -/
structure Ready (tree : Tree) (owner : NodeId) (container : Option FieldId) (value : Value) : Prop
    where
  hosts : tree.whole.Hosts tree owner container
  nodup : value.parts.Nodup
  loose : ∀ c ∈ value.parts, tree.Loose c
  homes : ∀ c ∈ value.parts, value.elements? = none ∧ tree.home? c = some (owner, container)
  empty : value.elements?.getD [] = []
  suits : ∀ template, value.template? = some template → PlainGroup owner template

variable {owner : NodeId} {container : Option FieldId} {value : Value} {group : List FieldId}
  {decl : FieldDecl} {inv : Tree → Prop} {bad : Fault → Tree → Prop}

theorem Ready.of_no_parts (hhost : tree.whole.Hosts tree owner container)
    (hparts : value.parts = []) (hempty : value.elements?.getD [] = [])
    (hsuits : ∀ template, value.template? = some template → PlainGroup owner template) :
    tree.Ready owner container value := by
  have hnone : ∀ c, c ∉ value.parts := fun c ↦ hparts ▸ List.not_mem_nil
  constructor
  · exact hhost
  · exact hparts ▸ List.nodup_nil
  · exact fun c hc ↦ absurd hc (hnone c)
  · exact fun c hc ↦ absurd hc (hnone c)
  · exact hempty
  · exact hsuits

theorem Plain.insertField (h : tree.Plain) (hr : tree.Ready owner container value) (name : String) :
    (tree.insertField { name, owner, value, container }).Plain := by
  have hs : (tree.insertField { name, owner, value, container }).Sound :=
    h.sound.insertField rfl rfl (fun c hc ↦ (hr.hosts.container c hc).2) hr.hosts.owner hr.nodup
      hr.loose
  constructor
  · refine ⟨hs, h.homed.insertField h.sound.owned hs.owned fun c hc ↦ ?_⟩
    obtain ⟨hnone, hhome⟩ := hr.homes c hc
    simp [hhome, Field.shelter, hnone]
  · exact ⟨h.stock.suits.insertField hr.suits, h.stock.kinds⟩

/-- A field whose wiring is refused stays behind without a link. -/
theorem plant_refused (h : tree.Plain) (hr : tree.Ready owner container value)
    (group : List FieldId) (decl : FieldDecl) :
    (plant (enter false) owner group container decl value).Meets tree (fun _ _ ↦ True)
      fun _ after ↦ after = tree.insertField { name := decl.name, owner, value, container } := by
  rw [meets_plant]
  apply (meets_resolve owner group decl).imp
  · rintro source after ⟨rfl, hsource⟩
    refine ⟨fun _ ↦ trivial, fun s hs ↦ rebind_refused (h.insertField hr decl.name) _ ?_⟩
    rcases hsource s hs with rfl | ⟨_, id, _, rfl, hfirst⟩
    · exact hr.hosts.owner
    · exact (live_of_firstNamed?_eq_some hfirst).lt_size
  · exact fun _ _ ha ↦ ha.1

theorem Plain.instantiate (h : tree.Plain) (hhost : tree.whole.Hosts tree owner container)
    (group : List FieldId) (decl : FieldDecl)
    (hplain : decl.template?.all FieldDecl.groupIsPlain = true) :
    (instantiate (enter false) owner group container decl).Meets tree
      (fun id after ↦ after.Plain ∧ tree.whole.Leads tree after ∧ after.Loose id ∧
        after.home? id = some (owner, container)) fun _ _ ↦ True := by
  have hv := Confined.enter false
  have hsuits : ∀ element, decl.template? = some element → PlainGroup owner element := by
    intro element he
    rwa [he] at hplain
  refine (((hv.instantiate h.sound.governs hhost (fun _ _ ↦ trivial) decl).and
    ((Housing.enter false).instantiate hv h.sound h.homed hhost group decl)).and
    ((nested_plainGroup.instantiate (nested_plainGroup.enter false) group container hsuits
      tree h.stock.suits).and
    (lasting_catalog.toHarmless.instantiate (lasting_catalog.enter false) group container decl
      tree))).imp ?_ fun _ _ _ ↦ trivial
  rintro id after ⟨⟨⟨hlead, hloose, _⟩, hequips⟩, hstock, hcatalog⟩
  have hafter : after.Plain :=
    ⟨⟨h.sound.of_leads hlead, hequips.homed⟩, hstock, hcatalog ▸ h.stock.kinds⟩
  exact ⟨hafter, hlead, hloose, hequips.home id (List.mem_singleton.2 rfl) hloose.live⟩

/-- What the wiring of one new field keeps, the building of a declaration keeps. The recursion is on
the gates around a field. -/
theorem Plain.instantiate_keeps (allowed : FieldDecl → Prop)
    (hgated : ∀ name source condition inner,
      allowed (.gated name source condition inner) → allowed inner)
    (hempty : ∀ mid name, inv mid → allowed (.choice name []) →
      bad (.schema (.noOptions name)) mid)
    (hplant : ∀ (mid : Tree) decl value, mid.Plain → inv mid → mid.Ready owner container value →
      allowed decl → (plant (enter false) owner group container decl value).Meets mid
        (fun _ ↦ inv) bad)
    (h : tree.Plain) (hinv : inv tree) (hhost : tree.whole.Hosts tree owner container) :
    ∀ decl : FieldDecl, allowed decl → decl.template?.all FieldDecl.groupIsPlain = true →
      (LightTree.instantiate (enter false) owner group container decl).Meets tree
        (fun _ ↦ inv) bad
  | .scalar name initial, ha, _ => by
    exact hplant tree _ _ h hinv (.of_no_parts hhost rfl rfl fun _ ht ↦ by cases ht) ha
  | .choice name options, ha, _ => by
    rw [meets_instantiate_choice]
    refine ⟨fun hnone ↦ hempty tree name hinv (hnone ▸ ha), fun _ ↦ ?_⟩
    exact hplant tree _ _ h hinv (.of_no_parts hhost rfl rfl fun _ ht ↦ by cases ht) ha
  | .list name rule element, ha, hplain => by
    refine hplant tree _ _ h hinv (.of_no_parts hhost rfl rfl fun template ht ↦ ?_) ha
    cases ht
    exact hplain
  | .gated name source condition inner, ha, hplain => by
    rw [meets_instantiate_gated]
    refine ((instantiate_keeps allowed hgated hempty hplant h hinv hhost inner
      (hgated name source condition inner ha) hplain).and
      (h.instantiate hhost group inner hplain)).imp ?_ fun _ _ hb ↦ hb.1
    rintro id mid ⟨hmid, hplainMid, hlead, hloose, hhome⟩
    refine hplant mid _ _ hplainMid hmid ?_ ha
    constructor
    · exact h.sound.hosts_of_leads hhost hlead
    · exact List.nodup_singleton id
    · exact fun c hc ↦ List.mem_singleton.1 hc ▸ hloose
    · exact fun c hc ↦ ⟨rfl, List.mem_singleton.1 hc ▸ hhome⟩
    · rfl
    · exact fun _ ht ↦ by cases ht

/-- A tree that stays plain when a new field is handed to a node. -/
theorem Plain.addTop (h : tree.Plain) {node : NodeId} (hnode : tree.LiveNode node)
    (hloose : tree.Loose id) (hhome : tree.home? id = some (node, none)) :
    (tree.addTop node id).Plain := by
  have ha := h.sound.addTop hnode hloose
  exact ⟨⟨ha, h.homed.addTop h.sound.owned hnode ha.owned hhome⟩, h.stock.of_nodes rfl rfl⟩

end Tree

/-! ## Making nodes -/

/-- An invariant that the steps of making nodes of some kinds keep, however they end. A node whose
fields cannot be built is released at once. -/
structure Founding (inv : Tree → Prop) (admitted : NodeKind → Prop) : Prop where
  catalog : ∀ tree, inv tree → ∀ kind ∈ tree.catalog.kinds, admitted kind
  furnish : ∀ tree kind, inv tree → admitted kind → kind.check = .ok () →
    (furnish tree.nextNode kind.fields).Meets (tree.insertNode { kind }) (fun _ ↦ inv)
      fun _ after ↦ inv (after.releaseNode tree.nextNode)
  attach : ∀ parent child, (attach parent child false).Keeps inv
  releaseNode : ∀ tree id, inv tree → inv (tree.releaseNode id)

namespace Founding

variable {inv : Tree → Prop} {admitted : NodeKind → Prop} {make : NodeKind → Edit NodeId}

theorem populateOne (h : Founding inv admitted) (id : NodeId) (kind : NodeKind)
    {childKind : NodeKind} (hmake : (make childKind).Keeps inv) :
    (populateOne make id kind childKind).Keeps inv := by
  intro tree ht
  rw [meets_populateOne]
  refine (hmake tree ht).imp (fun child mid hmid ↦ ?_) fun _ _ ha ↦ ha
  apply (h.attach id child mid hmid).imp
  · exact fun _ after ha ↦ ⟨fun _ ↦ h.releaseNode after child ha, fun _ ↦ ha⟩
  · exact fun _ after ha ↦ h.releaseNode after child ha

theorem populate (h : Founding inv admitted) (id : NodeId) (kind : NodeKind)
    {childKind? : Option NodeKind}
    (hmake : ∀ childKind, childKind? = some childKind → (make childKind).Keeps inv) (count : Nat) :
    (populate make id kind childKind? count).Keeps inv := by
  induction count with
  | zero => exact fun _ ht ↦ ht
  | succ count ih =>
      intro tree ht
      rw [meets_populate_succ]
      exact ⟨fun _ ↦ ht, fun childKind hk ↦
        (h.populateOne id kind (hmake childKind hk) tree ht).imp (fun _ ↦ ih) fun _ _ ha ↦ ha⟩

theorem build (h : Founding inv admitted) {tree : Tree} (ht : inv tree) {kind : NodeKind}
    (hkind : admitted kind) (hcheck : kind.check = .ok ())
    (hmake : ∀ childKind, admitted childKind → (make childKind).Keeps inv) :
    (build make tree.nextNode kind).Meets (tree.insertNode { kind }) (fun _ ↦ inv)
      fun _ after ↦ inv (after.releaseNode tree.nextNode) := by
  rw [meets_build]
  refine (h.furnish tree kind ht hkind hcheck).imp (fun _ mid hmid ↦ ?_) fun _ _ ha ↦ ha
  refine ⟨fun _ ↦ ?_, fun _ ↦ hmid⟩
  refine (h.populate _ kind (fun childKind hk ↦ hmake childKind ?_) _ mid hmid).imp
    (fun _ _ ha ↦ ha) fun _ after ha ↦ h.releaseNode after _ ha
  exact h.catalog mid hmid childKind (List.mem_of_find?_eq_some hk)

theorem createWithin (h : Founding inv admitted) (depth : Nat) {kind : NodeKind}
    (hkind : admitted kind) : (createWithin depth kind).Keeps inv := by
  induction depth generalizing kind with
  | zero => exact fun _ ht ↦ ht
  | succ depth ih =>
      intro tree ht
      rw [meets_createWithin_succ]
      exact ⟨fun _ _ ↦ ht, fun hcheck ↦ h.build ht hkind hcheck fun _ hk ↦ ih hk⟩

theorem create (h : Founding inv admitted) {kind : NodeKind} (hkind : admitted kind) :
    (create kind).Keeps inv :=
  h.createWithin 5 hkind

end Founding

end LightTree
