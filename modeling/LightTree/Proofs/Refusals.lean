import LightTree.Proofs.Rehearsed

/-!
# Refused operations

An operation that does not grow the tree is refused, if it is refused at all, before it stores
anything: what it names is checked, then its cascade is rehearsed, and after that it does not fail.
This holds of settled trees. Where a linked list is shorter than its source, a cascade may have to
build elements, which can fail halfway.
-/

namespace LightTree

open Edit

/-- Whether an operation may build fields or move links. -/
def Operation.grows : Operation → Bool
  | .create .. | .addChild .. | .addByCategory .. | .retype .. | .appendElement .. | .rebind .. =>
    true
  | .removeChild .. | .detach .. | .setInteger .. | .setBoolean .. | .choose .. | .setText ..
  | .setColor .. | .removeElement .. => false

/-- An edit of a tree succeeds or leaves it as it is. -/
def Edit.AllOrNothing {α : Type} (edit : Edit α) (tree : Tree) : Prop :=
  edit.Meets tree (fun _ _ ↦ True) fun _ after ↦ after = tree

namespace Tree

variable {tree : Tree}

/-- The cascade of a stored change ends well if it was rehearsed on the tree before the change. -/
theorem Calm.settle {base : Tree} {source : Source} (h : base.Calm tree) (hb : base.Sound)
    (hbegin : base.Begins (·.index < base.fields.size) tree source)
    (hr : base.rehearse source = .ok ()) :
    (settle source).Meets tree (fun _ _ ↦ True) fun _ after ↦ after = base :=
  (hb.rehearses_calm.settle hbegin hr h).imp (fun _ _ _ ↦ trivial) fun _ _ hf ↦ hf.elim

/-! ## Changing values -/

theorem Settled.ample_of_thins (h : tree.Settled) {after : Tree} (ht : tree.Thins after)
    (hsame : ∀ id, after.isLinked id = true → after.elements id = tree.elements id) :
    after.Ample :=
  (ample_of_upToDate h.upToDate).of_elements ht hsame

theorem Settled.ample_setValue (h : tree.Settled) {id : FieldId} {field : Field} {value : Value}
    (hf : tree.field? id = some field) (hold : field.value.IsLeaf) (hnew : value.IsLeaf) :
    (tree.updateField id ({ · with value })).Ample := by
  have hthins := Thins.setValue hf hold hnew
  rw [updateField_value hf hold] at hthins ⊢
  refine h.ample_of_thins hthins fun x _ ↦ ?_
  rw [Tree.elements, read_updateField_of_keeps]
  · rfl
  · exact fun field ↦ by rw [Value.elements?_replaceLeaf hnew]

theorem Settled.calm_setValue (h : tree.Settled) (ht : tree.Tenured) {id : FieldId} {field : Field}
    {value : Value} (hf : tree.field? id = some field) (hold : field.value.IsLeaf)
    (hnew : value.IsLeaf) : tree.Calm (tree.updateField id ({ · with value })) :=
  have hup := ht.setValue hf hold hnew
  ⟨.setValue hf hold hnew, hup.sound, hup.homed, h.ample_setValue hf hold hnew⟩

theorem mutate_allOrNothing (h : tree.Settled) (ht : tree.Tenured) (id : FieldId)
    {change : Field → Except Fault Value} (hchange : Leafy change) :
    (mutate id change).AllOrNothing tree := by
  refine meets_mutate (fun _ ↦ rfl) fun hr field value hf hv ↦ ?_
  obtain ⟨hold, hnew⟩ := hchange field value hv
  exact (h.calm_setValue ht hf hold hnew).settle h.sound (live_of_some hf).lt_size hr

/-- A list that its user sets may lose any element. -/
theorem Settled.ample_drop (h : tree.Settled) {id : FieldId} {field : Field}
    {template : List FieldDecl} {elements : List (List FieldId)}
    (hf : tree.field? id = some field) (hv : field.value = .list false template elements)
    (index : Nat) (element : List FieldId) :
    (tree.drop id (·.eraseIdx index) element).Ample := by
  have hthins : tree.Thins (tree.drop id (·.eraseIdx index) element) :=
    .drop tree id (fun list ↦ List.length_eraseIdx_le list index) element
  refine h.ample_of_thins hthins fun x hx ↦ ?_
  have hlive := live_of_isLinked hx
  refine elements_drop_of_ne ?_ hlive
  rintro rfl
  rw [hthins.isLinked hlive, isLinked_of_some hf, hv] at hx
  exact Bool.false_ne_true hx

theorem Settled.calm_drop (h : tree.Settled) (ht : tree.Tenured) {id : FieldId} {field : Field}
    {template : List FieldDecl} {elements : List (List FieldId)}
    (hf : tree.field? id = some field) (hv : field.value = .list false template elements)
    {index : Nat} {element : List FieldId} (he : elements[index]? = some element) :
    tree.Calm (tree.drop id (·.eraseIdx index) element) := by
  have hsplit : Splits (·.eraseIdx index) element field.value := hv ▸ splits_eraseIdx he
  exact ⟨.drop tree id (fun list ↦ List.length_eraseIdx_le list index) element,
    h.sound.drop hf hsplit, ht.homed.drop h.sound hf hsplit, h.ample_drop hf hv index element⟩

theorem removeElement_allOrNothing (h : tree.Settled) (ht : tree.Tenured) (id : FieldId)
    (index : Nat) : (removeElement id index).AllOrNothing tree :=
  meets_removeElement (fun _ ↦ rfl) trivial fun hr _ _ _ _ hf hv he ↦
    (h.calm_drop ht hf hv he).settle h.sound (live_of_some hf).lt_size hr

/-! ## Removing children -/

/-- What leaves the values of all fields alone but takes some nodes away leaves the lists that are
left long enough. -/
theorem Settled.ample_releaseNode (h : tree.Settled) {mid : Tree} (hthins : tree.Thins mid)
    (hsame : mid.elements = tree.elements) (id : NodeId) : (mid.releaseNode id).Ample := by
  have hs := releaseNode_shrinks mid id
  refine h.ample_of_thins (hthins.trans (.of_shrinks hs)) fun x hx ↦ ?_
  rw [elements_of_shrinks hs (live_of_isLinked hx), hsame]

theorem Settled.calm_remove (h : tree.Settled) (ht : tree.Tenured) (parent child : NodeId) :
    tree.Calm ((tree.disown parent child).releaseNode child) := by
  have hthins := Thins.disown tree parent child
  have hafter := ((ht.disown parent child).housed.releaseNode child).housed
  exact ⟨hthins.trans (.of_shrinks (releaseNode_shrinks _ child)), hafter.sound, hafter.homed,
    h.ample_releaseNode hthins rfl child⟩

theorem removeChild_allOrNothing (h : tree.Settled) (ht : tree.Tenured) (parent child : NodeId) :
    (removeChild parent child).AllOrNothing tree := by
  unfold AllOrNothing
  rw [meets_removeChild]
  refine ⟨fun _ ↦ trivial, fun _ ↦ ⟨fun _ _ ↦ rfl, fun hr ↦ ?_⟩⟩
  have hcalm := h.calm_remove ht parent child
  exact hcalm.settle h.sound (h.sound.begins_children (hcalm.thins.nodeListeners parent)) hr

theorem detach_allOrNothing (h : tree.Settled) (ht : tree.Tenured) (id : NodeId) :
    (detach id).AllOrNothing tree := by
  unfold AllOrNothing
  rw [meets_detach]
  exact ⟨fun _ ↦ trivial, fun parent _ ↦ removeChild_allOrNothing h ht parent id⟩

/-! ## Histories -/

theorem edit_allOrNothing (h : tree.Settled) (ht : tree.Tenured) {operation : Operation}
    (hgrows : operation.grows = false) : operation.edit.AllOrNothing tree := by
  have hanswer : ∀ {α : Type} {edit : Edit α} (answer : α → Answer), edit.AllOrNothing tree →
      (edit >>= fun a ↦ pure (answer a) : Edit Answer).AllOrNothing tree := by
    intro α edit answer hedit
    unfold AllOrNothing
    rw [meets_bind]
    exact hedit.imp (fun _ _ _ ↦ trivial) fun _ _ heq ↦ heq
  cases operation with
  | removeChild parent child => exact hanswer .outcome (removeChild_allOrNothing h ht parent child)
  | detach node => exact hanswer .outcome (detach_allOrNothing h ht node)
  | setInteger id n =>
      exact hanswer (fun _ ↦ .done) (mutate_allOrNothing h ht id (leafy_setInteger n))
  | setBoolean id b =>
      exact hanswer (fun _ ↦ .done) (mutate_allOrNothing h ht id (leafy_setBoolean b))
  | choose id option =>
      exact hanswer (fun _ ↦ .done) (mutate_allOrNothing h ht id (leafy_choose option))
  | setText id text =>
      exact hanswer (fun _ ↦ .done) (mutate_allOrNothing h ht id (leafy_setText text))
  | setColor id text =>
      exact hanswer (fun _ ↦ .done) (mutate_allOrNothing h ht id (leafy_setColor text))
  | removeElement id index => exact hanswer .outcome (removeElement_allOrNothing h ht id index)
  | create | addChild | addByCategory | retype | appendElement | rebind => cases hgrows

/-- After a history without faults, an operation that does not grow the tree and fails leaves the
whole tree as it was, and the view has been told of nothing. -/
theorem unchanged_run {catalog : Catalog} {settings : Settings} {tree : Tree}
    {operations : List Operation} (hstart : start catalog settings = .ok tree)
    (hlive : tree.RebindsLive operations)
    (hok : ∀ answer ∈ (tree.run operations).1, ∃ a, answer = .ok a) {final : Tree}
    (hfinal : (tree.run operations).2 = final) {operation : Operation}
    (hgrows : operation.grows = false) {fault : Fault}
    (herror : (final.perform operation).1 = .error fault) :
    (final.perform operation).2 = final := by
  subst hfinal
  have h := (settled_start hstart).run hlive hok
  have ht := (tenured_start hstart).run hlive hok
  exact (meets_iff.1 (edit_allOrNothing h ht hgrows)).2 fault _ (Prod.ext herror rfl)

/-- The first tree of the standard catalog where a cascade may be one field long. -/
def shallowTree : Tree :=
  { standardTree with settings := { maxDepth := 1 } }

/-- Where the length of an object follows its colours, which follow its choice, a choice has a
cascade of two fields. If a cascade may be one field long, it is refused and changes nothing. -/
theorem unchanged_run_shallow :
    let final := (shallowTree.run
      [.addByCategory ⟨0⟩ .object, .rebind ⟨4⟩ (.field ⟨6⟩)]).2
    (final.perform (.choose ⟨2⟩ "c")).1 = .error (.tooDeep 1) ∧
      (final.perform (.choose ⟨2⟩ "c")).2 = final := by
  intro final
  have hlive : shallowTree.RebindsLive [.addByCategory ⟨0⟩ .object, .rebind ⟨4⟩ (.field ⟨6⟩)] := by
    refine ⟨trivial, ?_, trivial⟩
    show (shallowTree.perform (.addByCategory ⟨0⟩ .object)).2.Live ⟨6⟩
    decide +kernel
  have hok : ∀ answer ∈ (shallowTree.run
      [.addByCategory ⟨0⟩ .object, .rebind ⟨4⟩ (.field ⟨6⟩)]).1, ∃ a, answer = .ok a := by
    have hanswers : (shallowTree.run [.addByCategory ⟨0⟩ .object, .rebind ⟨4⟩ (.field ⟨6⟩)]).1 =
        [.ok (.outcome .applied), .ok .done] := by
      decide +kernel
    simp only [hanswers, List.forall_mem_cons]
    exact ⟨⟨_, rfl⟩, ⟨_, rfl⟩, fun _ h ↦ absurd h List.not_mem_nil⟩
  have herror : (final.perform (.choose ⟨2⟩ "c")).1 = .error (.tooDeep 1) := by
    decide +kernel
  have hstart : start .standard { maxDepth := 1 } = .ok shallowTree := rfl
  exact ⟨herror, unchanged_run hstart hlive hok rfl rfl herror⟩

end Tree

end LightTree
