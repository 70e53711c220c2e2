import LightTree.Proofs.Tidiness

/-!
# Fields within fields

A list keeps its elements and a gate the field inside it. What is kept lies in one more list than
its keeper, or in the same list and is older. So no live field is kept within itself, and a walk
down from a field comes to an end. For this a tree has to be tidy only, so it holds after any
history.
-/

namespace LightTree

open Relation

namespace Tree

variable {tree : Tree} {x y : FieldId}

/-- One more than the number of the list around a field, if there is one. -/
def level (tree : Tree) (x : FieldId) : Nat :=
  (tree.container? x).elim 0 (·.index + 1)

theorem ContainerOlder.level_le (h : tree.ContainerOlder) (x : FieldId) :
    tree.level x ≤ x.index := by
  unfold level
  cases hc : tree.container? x with
  | none => exact Nat.zero_le _
  | some c => exact h x c hc

/-- The second field is alive and an element of the first one, or the field inside it. -/
def Shelters (tree : Tree) (x y : FieldId) : Prop :=
  y ∈ tree.parts x ∧ tree.Live y

/-- Fields are older than the gates around them and newer than the lists around them, and what a
field keeps is where its keeper keeps things. -/
structure Tiered (tree : Tree) : Prop where
  inner_older : tree.InnerOlder
  container_older : tree.ContainerOlder
  home : ∀ x y, tree.Shelters x y → tree.home? y = tree.shelter? x

theorem Tidy.tiered (h : tree.Tidy) : tree.Tiered where
  inner_older := h.inner_older
  container_older := h.container_older
  home x y hy := by
    obtain ⟨keeper, hx⟩ := live_iff.1 (live_of_mem_parts hy.1)
    obtain ⟨field, hf⟩ := live_iff.1 hy.2
    have hshelter : tree.shelter? x = some (keeper.shelter x) := read_of_some hx ..
    have hhome : tree.home? y = some (field.owner, field.container) := read_of_some hf ..
    rw [hshelter, hhome, (h.part x y _ hshelter hy.1).at_home _ hhome]

theorem Homed.tiered (h : tree.Homed) (ho : tree.Ordered) : tree.Tiered :=
  ⟨ho.inner_lt, ho.container_lt, fun x y hy ↦ h.part x y hy.1⟩

namespace Tiered

/-- Elements are a level further down than their list, and a gate comes after the field inside. -/
theorem level_of_shelters (h : tree.Tiered) (hy : tree.Shelters x y) :
    tree.level x < tree.level y ∨ tree.level x = tree.level y ∧ y.index < x.index := by
  obtain ⟨field, hf⟩ := live_iff.1 (live_of_mem_parts hy.1)
  have hhome := h.home x y hy
  have hpart := hy.1
  rw [parts, read_of_some hf] at hpart
  cases hv : field.value with
  | scalar | choice => simp [hv, Value.parts] at hpart
  | list linked template elements =>
      have hc : tree.container? y = some x :=
        container?_of_home? (hhome.trans (shelter?_of_list hf hv))
      refine .inl ((Nat.lt_succ_of_le (h.container_older.level_le x)).trans_eq ?_)
      rw [level, hc, Option.elim_some]
  | gated condition inner =>
      have hshelter : tree.shelter? x = some (field.owner, field.container) := by
        rw [shelter?, read_of_some hf, Field.shelter, hv]
        rfl
      have hc : tree.container? y = field.container :=
        container?_of_home? (hhome.trans hshelter)
      refine .inr ⟨by rw [level, level, hc, container?_eq_read, read_of_some hf], ?_⟩
      rw [hv, Value.parts, List.mem_singleton] at hpart
      refine h.inner_older x y ?_
      rw [inner?_eq_read, read_of_some hf, hv, hpart]
      rfl

/-- No field is kept within itself. -/
theorem acyclic_shelters (h : tree.Tiered) (x : FieldId) : ¬TransGen tree.Shelters x x := by
  have hdown : ∀ {a b}, TransGen tree.Shelters a b →
      tree.level a < tree.level b ∨ tree.level a = tree.level b ∧ b.index < a.index := by
    intro a b hab
    induction hab with
    | single hstep => exact h.level_of_shelters hstep
    | tail _ hstep ih =>
        have hlast := h.level_of_shelters hstep
        omega
  intro hx
  have hself := hdown hx
  omega

end Tiered

/-- The numbers of the fields that a field is kept in. -/
noncomputable def keepers (tree : Tree) (x : FieldId) : Finset Nat :=
  leading tree.Shelters FieldId.mk tree.fields.size x

theorem card_keepers_le (tree : Tree) (x : FieldId) : (tree.keepers x).card ≤ tree.fields.size :=
  card_leading_le ..

theorem Tiered.card_keepers_lt (h : tree.Tiered) (hy : tree.Shelters x y) :
    (tree.keepers x).card < (tree.keepers y).card :=
  card_leading_lt h.acyclic_shelters (live_of_mem_parts hy.1).lt_size hy

end Tree

end LightTree
