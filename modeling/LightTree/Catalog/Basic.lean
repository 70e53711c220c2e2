import LightTree.Schema.Check

/-!
# Catalogs of node kinds

A catalog holds kinds in order; of several kinds of a category the first is the one built when only
the category is given. Every kind of a catalog is sound, one is a system, and no kind requires a
child that in the end requires that same child again.
-/

namespace LightTree

namespace Catalog

/-- The position of the kind that the required children of a kind are built from, if it requires
any. -/
def requiredChild? (kinds : List NodeKind) (position : Nat) : Option Nat :=
  match kinds[position]? with
  | some kind =>
    if kind.minChildren = 0 then none
    else kinds.findIdx? (·.category == kind.childCategory)
  | none => none

def nameAt (kinds : List NodeKind) (position : Nat) : String :=
  match kinds[position]? with
  | some kind => kind.name
  | none => ""

/-- Follows required children from `position` after the positions `seen`, which began at `start`.
There are no more positions to see than kinds. -/
def followRequired (kinds : List NodeKind) (start : Nat) :
    Nat → List Nat → Nat → Except Fault Unit
  | 0, _, _ => .ok ()
  | fuel + 1, seen, position =>
    match requiredChild? kinds position with
    | none => .ok ()
    | some next =>
      if next ∈ seen then
        .error (.schema (.endlessChildren (nameAt kinds start) (nameAt kinds next)))
      else followRequired kinds start fuel (next :: seen) next

def checkRequired (kinds : List NodeKind) : Except Fault Unit :=
  (List.range kinds.length).forM fun start ↦
    followRequired kinds start (kinds.length + 1) [start] start

def check (kinds : List NodeKind) : Except Fault Unit := do
  kinds.forM NodeKind.check
  if !kinds.any (·.category == .system) then throw (.schema .noRoot)
  checkRequired kinds

theorem any_system_of_check {kinds : List NodeKind} (h : check kinds = .ok ()) :
    kinds.any (·.category == .system) = true := by
  cases hs : kinds.any (·.category == .system) with
  | true => rfl
  | false =>
      rw [check, hs] at h
      cases hk : kinds.forM NodeKind.check <;> rw [hk] at h <;> cases h

instance (kinds : List NodeKind) : Decidable (check kinds = .ok ()) :=
  match check kinds with
  | .ok () => .isTrue rfl
  | .error _ => .isFalse nofun

end Catalog

structure Catalog where
  kinds : List NodeKind
  checked : Catalog.check kinds = .ok ()

namespace Catalog

def ofKinds (kinds : List NodeKind) : Except Fault Catalog :=
  match h : check kinds with
  | .ok () => .ok ⟨kinds, h⟩
  | .error fault => .error fault

theorem ofKinds_eq_ok_iff {kinds : List NodeKind} {catalog : Catalog} :
    ofKinds kinds = .ok catalog ↔ catalog.kinds = kinds := by
  constructor
  · intro h
    unfold ofKinds at h
    split at h
    · injection h with h
      rw [← h]
    · cases h
  · rintro rfl
    unfold ofKinds
    split
    · rfl
    · next h => rw [catalog.checked] at h; cases h

def first? (catalog : Catalog) (category : Category) : Option NodeKind :=
  catalog.kinds.find? (·.category == category)

def find? (catalog : Catalog) (category : Category) (symbol : String) : Option NodeKind :=
  catalog.kinds.find? fun kind ↦ kind.category == category && kind.symbol == symbol

def ofCategory (catalog : Catalog) (category : Category) : List NodeKind :=
  catalog.kinds.filter (·.category == category)

theorem isSome_first?_system (catalog : Catalog) : (catalog.first? .system).isSome = true := by
  have h := any_system_of_check catalog.checked
  simpa [first?, List.find?_isSome] using h

def root (catalog : Catalog) : NodeKind :=
  (catalog.first? .system).get catalog.isSome_first?_system

end Catalog

end LightTree
