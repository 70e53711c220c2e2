import LightTree.Tree.Edit

/-!
# Contracts of edits

`edit.Meets tree good bad` says what an edit of one tree leads to: `good` of the value and the tree
after it, or `bad` of the fault and the tree after it. The rules below open an edit step by step.
-/

namespace LightTree

namespace Edit

variable {α β : Type}

/-- What an edit of a tree leads to, with a value or with a fault. -/
def Meets (edit : Edit α) (tree : Tree) (good : α → Tree → Prop) (bad : Fault → Tree → Prop) :
    Prop :=
  match edit.runOn tree with
  | (.ok a, tree) => good a tree
  | (.error fault, tree) => bad fault tree

/-- An edit leads from an invariant to the same invariant, or to `bad` with a fault. -/
def Carries (edit : Edit α) (inv : Tree → Prop) (bad : Fault → Tree → Prop) : Prop :=
  ∀ tree, inv tree → edit.Meets tree (fun _ ↦ inv) bad

/-- An edit keeps an invariant, however it ends. -/
def Keeps (edit : Edit α) (inv : Tree → Prop) : Prop :=
  edit.Carries inv fun _ ↦ inv

section

variable {tree : Tree} {good good' : α → Tree → Prop} {bad bad' : Fault → Tree → Prop}
  {edit : Edit α}

theorem meets_iff : edit.Meets tree good bad ↔
    (∀ a after, edit.runOn tree = (.ok a, after) → good a after) ∧
      ∀ fault after, edit.runOn tree = (.error fault, after) → bad fault after := by
  unfold Meets
  rcases h : edit.runOn tree with ⟨fault | a, after⟩ <;> simp

theorem Meets.imp (h : edit.Meets tree good bad) (hgood : ∀ a after, good a after → good' a after)
    (hbad : ∀ fault after, bad fault after → bad' fault after) : edit.Meets tree good' bad' := by
  unfold Meets at h ⊢
  rcases hr : edit.runOn tree with ⟨fault | a, after⟩ <;> rw [hr] at h
  · exact hbad fault after h
  · exact hgood a after h

/-- Whatever a failure leaves can be left out. -/
theorem Meets.imp_good (h : edit.Meets tree good bad)
    (hgood : ∀ a after, good a after → good' a after) :
    edit.Meets tree good' fun _ _ ↦ True :=
  h.imp hgood fun _ _ _ ↦ trivial

theorem Meets.and (h : edit.Meets tree good bad) (h' : edit.Meets tree good' bad') :
    edit.Meets tree (fun a after ↦ good a after ∧ good' a after)
      fun fault after ↦ bad fault after ∧ bad' fault after := by
  unfold Meets at h h' ⊢
  rcases hr : edit.runOn tree with ⟨fault | a, after⟩ <;> rw [hr] at h h' <;> exact ⟨h, h'⟩

/-- A contract that does not look at the outcome is one on the tree after the edit. -/
theorem meets_const_iff {post : Tree → Prop} :
    edit.Meets tree (fun _ ↦ post) (fun _ ↦ post) ↔ post (edit.runOn tree).2 := by
  unfold Meets
  rcases edit.runOn tree with ⟨fault | a, after⟩ <;> rfl

theorem Meets.of_runOn_ok (h : edit.Meets tree good bad) {a : α} {after : Tree}
    (hr : edit.runOn tree = (.ok a, after)) : good a after :=
  (meets_iff.1 h).1 a after hr

end

section

variable (tree : Tree) (good : α → Tree → Prop) (bad : Fault → Tree → Prop)

@[simp] theorem meets_pure (a : α) : (pure a : Edit α).Meets tree good bad ↔ good a tree := Iff.rfl

@[simp] theorem meets_throw (fault : Fault) :
    (throw fault : Edit α).Meets tree good bad ↔ bad fault tree := Iff.rfl

@[simp] theorem meets_bind (edit : Edit β) (next : β → Edit α) :
    (edit >>= next).Meets tree good bad ↔
      edit.Meets tree (fun b after ↦ (next b).Meets after good bad) bad := by
  unfold Meets
  rw [runOn_bind]
  rcases edit.runOn tree with ⟨fault | b, after⟩ <;> rfl

@[simp] theorem meets_get (good : Tree → Tree → Prop) :
    (get : Edit Tree).Meets tree good bad ↔ good tree tree := Iff.rfl

@[simp] theorem meets_modify (f : Tree → Tree) (good : Unit → Tree → Prop) :
    (modify f : Edit Unit).Meets tree good bad ↔ good () (f tree) := Iff.rfl

@[simp] theorem meets_discard (edit : Edit α) (good : Unit → Tree → Prop) :
    (discard edit).Meets tree good bad ↔ edit.Meets tree (fun _ after ↦ good () after) bad := by
  show (edit >>= fun _ ↦ (pure () : Edit Unit)).Meets tree good bad ↔ _
  rw [meets_bind]
  rfl

theorem meets_check (f : Tree → Except Fault α) :
    (check f).Meets tree good bad ↔
      (∀ a, f tree = .ok a → good a tree) ∧ ∀ fault, f tree = .error fault → bad fault tree := by
  rw [meets_iff, runOn_check]
  simp only [Prod.mk.injEq]
  constructor
  · exact fun ⟨hgood, hbad⟩ ↦
      ⟨fun a ha ↦ hgood a tree ⟨ha, rfl⟩, fun fault hf ↦ hbad fault tree ⟨hf, rfl⟩⟩
  · rintro ⟨hgood, hbad⟩
    exact ⟨fun a after ⟨ha, h⟩ ↦ h ▸ hgood a ha, fun fault after ⟨hf, h⟩ ↦ h ▸ hbad fault hf⟩

theorem meets_check_unit (f : Tree → Except Fault Unit) (good : Unit → Tree → Prop) :
    (check f).Meets tree good bad ↔
      (∀ fault, f tree = .error fault → bad fault tree) ∧ (f tree = .ok () → good () tree) := by
  rw [meets_check, and_comm]
  constructor
  · intro h
    exact ⟨h.1, h.2 ()⟩
  · intro h
    exact ⟨h.1, fun _ ↦ h.2⟩

theorem meets_field (id : FieldId) (good : Field → Tree → Prop) :
    (field id).Meets tree good bad ↔
      (∀ field, tree.field? id = some field → good field tree) ∧
        (tree.field? id = none → bad (.unknownField id) tree) := by
  unfold Meets
  rw [runOn_field]
  cases tree.field? id <;> simp

@[simp] theorem meets_addField (field : Field) (good : FieldId → Tree → Prop) :
    (addField field).Meets tree good bad ↔ good tree.nextField (tree.insertField field) := Iff.rfl

@[simp] theorem meets_addNode (node : Node) (good : NodeId → Tree → Prop) :
    (addNode node).Meets tree good bad ↔ good tree.nextNode (tree.insertNode node) := Iff.rfl

@[simp] theorem meets_setActive (id : FieldId) (active : Bool) (good : Unit → Tree → Prop) :
    (setActive id active).Meets tree good bad ↔
      good () (tree.updateField id ({ · with active })) := Iff.rfl

@[simp] theorem meets_setValue (id : FieldId) (value : Value) (good : Unit → Tree → Prop) :
    (setValue id value).Meets tree good bad ↔
      good () (tree.updateField id ({ · with value })) := Iff.rfl

@[simp] theorem meets_mapElements (id : FieldId) (f : List (List FieldId) → List (List FieldId))
    (good : Unit → Tree → Prop) :
    (mapElements id f).Meets tree good bad ↔
      good () (tree.updateField id fun field ↦ { field with value := field.value.mapElements f }) :=
  Iff.rfl

@[simp] theorem meets_refresh (good : Unit → Tree → Prop) :
    refresh.Meets tree good bad ↔ good () { tree with refreshes := tree.refreshes + 1 } := Iff.rfl

@[simp] theorem meets_orElseUndo (edit : Edit α) (undo : Edit Unit) :
    (edit.orElseUndo undo).Meets tree good bad ↔
      edit.Meets tree good fun fault after ↦ undo.Meets after (fun _ ↦ bad fault) bad := by
  unfold Meets
  rw [runOn_orElseUndo]
  rcases edit.runOn tree with ⟨fault | a, after⟩
  · simp only
    rcases undo.runOn after with ⟨other | u, last⟩ <;> rfl
  · rfl

end

/-- A loop keeps what each of its turns keeps; `inv` may depend on the turns still to come. -/
theorem meets_forM {visit : β → Edit Unit} {bad : Fault → Tree → Prop} {good : Unit → Tree → Prop}
    (inv : List β → Tree → Prop) (hdone : ∀ tree, inv [] tree → good () tree)
    (hturn : ∀ b rest tree, inv (b :: rest) tree →
      (visit b).Meets tree (fun _ after ↦ inv rest after) bad) :
    ∀ (list : List β) (tree : Tree), inv list tree → (list.forM visit).Meets tree good bad
  | [], tree, h => hdone tree h
  | b :: rest, tree, h => by
    show (visit b >>= fun _ ↦ rest.forM visit).Meets tree good bad
    rw [meets_bind]
    exact (hturn b rest tree h).imp (fun _ after h ↦ meets_forM inv hdone hturn rest after h)
      fun _ _ h ↦ h

theorem carries_forM {visit : β → Edit Unit} {inv : Tree → Prop} {bad : Fault → Tree → Prop}
    {list : List β} (hv : ∀ b ∈ list, (visit b).Carries inv bad) :
    (list.forM visit).Carries inv bad := fun tree h ↦
  meets_forM (fun rest mid ↦ inv mid ∧ ∀ b ∈ rest, b ∈ list) (fun _ hm ↦ hm.1)
    (fun b _ mid ⟨hmid, hrest⟩ ↦ (hv b (hrest b List.mem_cons_self) mid hmid).imp
      (fun _ _ ha ↦ ⟨ha, fun x hx ↦ hrest x (List.mem_cons_of_mem b hx)⟩) fun _ _ hf ↦ hf)
    list tree ⟨h, fun _ hb ↦ hb⟩

end Edit

/-! ## Checks along lists -/

theorem eq_ok_of_forM_eq_ok {α ε : Type} {visit : α → Except ε Unit} {list : List α}
    (h : list.forM visit = .ok ()) : ∀ a ∈ list, visit a = .ok () := by
  induction list with
  | nil => exact fun _ ha ↦ absurd ha List.not_mem_nil
  | cons a list ih =>
      change (visit a >>= fun _ ↦ list.forM visit) = .ok () at h
      cases ha : visit a with
      | error e =>
          rw [ha] at h
          cases h
      | ok u =>
          rw [ha] at h
          exact List.forall_mem_cons.2 ⟨ha, ih h⟩

theorem exists_of_forM_eq_error {α ε : Type} {visit : α → Except ε Unit} {list : List α} {e : ε}
    (h : list.forM visit = .error e) : ∃ a ∈ list, visit a = .error e := by
  induction list with
  | nil => cases h
  | cons a list ih =>
      change (visit a >>= fun _ ↦ list.forM visit) = .error e at h
      cases ha : visit a with
      | error e' =>
          rw [ha] at h
          exact ⟨a, List.mem_cons_self, ha.trans h⟩
      | ok u =>
          rw [ha] at h
          obtain ⟨b, hb, hbe⟩ := ih h
          exact ⟨b, List.mem_cons_of_mem a hb, hbe⟩

end LightTree
