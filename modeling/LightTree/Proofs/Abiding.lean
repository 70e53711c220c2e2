import LightTree.Proofs.Lasting
import LightTree.Proofs.Region

/-!
# What lasts of a field

The outline of a field is its name, its place, and of its value what it wraps or what its elements
are built from. No operation changes the outline of a field, whatever it is asked and however it
ends. A field that is not alive stays so.
-/

namespace LightTree

/-- What of a value does not change: a gate stays the gate of one field, and a list keeps its
declarations. -/
def Value.frame : Value → Value
  | list linked template _ => list linked template []
  | gated condition inner => gated condition inner
  | _ => choice [] 0

namespace Field

def outline (field : Field) : Field :=
  { name := field.name, owner := field.owner, value := field.value.frame,
    container := field.container }

theorem Becomes.outline {old new : Field} (h : old.Becomes new) : new.outline = old.outline := by
  obtain ⟨f, hf⟩ := h
  rw [hf]
  cases hv : old.value <;> simp [Field.outline, Value.mapElements, Value.frame, hv]

end Field

namespace Tree

/-- What is alive of the fields that were there before has kept its outline. -/
structure Abides (tree after : Tree) : Prop where
  fields_size : tree.fields.size ≤ after.fields.size
  field : ∀ id new, id.index < tree.fields.size → after.field? id = some new →
    ∃ old, tree.field? id = some old ∧ new.outline = old.outline

variable {α : Type} {tree after last : Tree}

namespace Abides

theorem refl (tree : Tree) : tree.Abides tree :=
  ⟨Nat.le_refl _, fun _ new _ hn ↦ ⟨new, hn, rfl⟩⟩

theorem trans (h : tree.Abides after) (h' : after.Abides last) : tree.Abides last where
  fields_size := h.fields_size.trans h'.fields_size
  field id new hid hn := by
    obtain ⟨mid, hm, hnew⟩ := h'.field id new (Nat.lt_of_lt_of_le hid h.fields_size) hn
    obtain ⟨old, ho, hmid⟩ := h.field id mid hid hm
    exact ⟨old, ho, hnew.trans hmid⟩

theorem live (h : tree.Abides after) {id : FieldId} (hid : id.index < tree.fields.size)
    (hl : after.Live id) : tree.Live id := by
  obtain ⟨new, hn⟩ := live_iff.1 hl
  obtain ⟨old, ho, _⟩ := h.field id new hid hn
  exact live_of_some ho

theorem read (h : tree.Abides after) {part : Field → α}
    (hpart : ∀ field, part field.outline = part field) {id : FieldId}
    (hid : id.index < tree.fields.size) (hl : after.Live id) (default : α) :
    after.read part default id = tree.read part default id := by
  obtain ⟨new, hn⟩ := live_iff.1 hl
  obtain ⟨old, ho, hnew⟩ := h.field id new hid hn
  rw [read_of_some hn, read_of_some ho, ← hpart new, hnew, hpart]

/-! ### Steps -/

theorem of_field? (hfields : after.field? = tree.field?)
    (hsize : after.fields.size = tree.fields.size) : tree.Abides after :=
  ⟨hsize.ge, fun _ new _ hn ↦ ⟨new, hfields ▸ hn, rfl⟩⟩

theorem of_framed {region : Region} (h : region.Framed tree after)
    (hbase : region.base = tree.fields.size) : tree.Abides after where
  fields_size := h.fields_size
  field id new hid hn := by
    obtain ⟨old, ho, hnew, _⟩ := h.field id new (hbase ▸ hid) hn
    exact ⟨old, ho, hnew.outline⟩

theorem of_shrinks (h : tree.Shrinks after) : tree.Abides after where
  fields_size := h.fields_size.ge
  field id new _ hn := by
    obtain ⟨old, ho, hnew, _⟩ := h.field id new hn
    exact ⟨old, ho, (Field.Becomes.of_listeners hnew).outline⟩

theorem updateField (tree : Tree) (id : FieldId) {f : Field → Field}
    (hf : ∀ field, (f field).outline = field.outline) : tree.Abides (tree.updateField id f) where
  fields_size := (size_updateField tree id f).ge
  field x new _ hn := by
    rw [field?_updateField] at hn
    split at hn
    · obtain ⟨old, ho, rfl⟩ := Option.map_eq_some_iff.1 hn
      exact ⟨old, ho, hf old⟩
    · exact ⟨new, hn, rfl⟩

theorem insertField (tree : Tree) (field : Field) : tree.Abides (tree.insertField field) where
  fields_size := (Nat.le_succ _).trans_eq (size_insertField tree field).symm
  field id new hid hn := by
    rw [tree.field?_insertField_of_ne field (ne_nextField_of_lt_size hid)] at hn
    exact ⟨new, hn, rfl⟩

theorem relink (tree : Tree) (dependent : FieldId) (source : Option Source) :
    tree.Abides (tree.relink dependent source) where
  fields_size := (fields_size_relink dependent source).ge
  field id new _ hn := by
    obtain ⟨old, ho⟩ := live_iff.1 ((live_relink dependent source id).1 (live_of_some hn))
    have houtline : (tree.relink dependent source).read Field.outline new id =
        tree.read Field.outline new id :=
      congrFun (read_relink dependent source (fun _ _ _ ↦ rfl) new) id
    rw [read_of_some hn, read_of_some ho] at houtline
    exact ⟨old, ho, houtline⟩

theorem mapElements (tree : Tree) (id : FieldId) (f : List (List FieldId) → List (List FieldId)) :
    tree.Abides (tree.updateField id fun field ↦
      { field with value := field.value.mapElements f }) :=
  updateField tree id fun field ↦ (Region.becomes_mapElements f field).outline

theorem setActive (tree : Tree) (id : FieldId) (active : Bool) :
    tree.Abides (tree.updateField id ({ · with active })) :=
  updateField tree id fun _ ↦ rfl

theorem drop (tree : Tree) (id : FieldId) (f : List (List FieldId) → List (List FieldId))
    (group : List FieldId) : tree.Abides (tree.drop id f group) :=
  (mapElements tree id f).trans (.of_shrinks (releaseFields_shrinks _ group))

theorem setValue {id : FieldId} {field : Field} {value : Value} (hf : tree.field? id = some field)
    (hold : field.value.IsLeaf) (hnew : value.IsLeaf) :
    tree.Abides (tree.updateField id ({ · with value })) := by
  rw [updateField_value hf hold]
  refine updateField tree id fun old ↦ ?_
  have hframe : (value.replaceLeaf old.value).frame = old.value.frame := by
    cases value with
    | scalar | choice => cases old.value <;> rfl
    | list | gated => exact hnew.elim
  simp only [Field.outline, hframe]

end Abides

/-- No operation changes the outline of a field. -/
theorem lasting_abides : Lasting Abides where
  refl := .refl
  trans := .trans
  insertField tree field _ := .insertField tree field
  relink := .relink
  setActive tree id active _ := .setActive tree id active
  push tree id group := .mapElements tree id (· ++ [group])
  drop := .drop
  refresh _ := .of_field? rfl rfl
  insertNode _ _ := .of_field? rfl rfl
  addTop _ _ _ := .of_field? rfl rfl
  adopt _ _ _ := .of_field? rfl rfl
  disown _ _ _ := .of_field? rfl rfl
  supplant _ _ _ _ := .of_field? rfl rfl
  releaseNode tree id := .of_shrinks (releaseNode_shrinks tree id)
  setValue _ _ _ _ hf hold hnew := .setValue hf hold hnew

end Tree

end LightTree
