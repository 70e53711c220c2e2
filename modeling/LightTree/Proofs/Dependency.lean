import LightTree.Proofs.View
import LightTree.Tree.Reach
import Mathlib.Data.Finset.Card
import Mathlib.Data.Finset.Range

/-!
# The dependency graph

A field feeds its listeners and the list around it. The search for what a field reaches stops after
boundedly many rounds, and by then it has found exactly what the field feeds in any number of steps.
-/

namespace LightTree

open Relation

/-! ## Cycles -/

section

variable {α : Type} {r r' : α → α → Prop} {sources : α → Prop} {target : α}

/-- A path over old edges and new ones from `sources` to `target` has only old edges, or it splits
into old edges before the first new one and after the last. -/
theorem transGen_split_of_new_edges (hr : ∀ a b, r' a b → r a b ∨ sources a ∧ b = target) {a b : α}
    (h : TransGen r' a b) :
    TransGen r a b ∨ (∃ x, sources x ∧ ReflTransGen r a x) ∧ ReflTransGen r target b := by
  induction h with
  | single hab =>
      rcases hr _ _ hab with h | ⟨hs, rfl⟩
      · exact .inl (.single h)
      · exact .inr ⟨⟨_, hs, .refl⟩, .refl⟩
  | tail _ hbc ih =>
      rcases hr _ _ hbc with h | ⟨hs, rfl⟩
      · rcases ih with ih | ⟨hx, hb⟩
        · exact .inl (.tail ih h)
        · exact .inr ⟨hx, hb.tail h⟩
      · rcases ih with ih | ⟨hx, _⟩
        · exact .inr ⟨⟨_, hs, ih.to_reflTransGen⟩, .refl⟩
        · exact .inr ⟨hx, .refl⟩

/-- New edges into a target close no cycle if the target reaches none of their sources. -/
theorem acyclic_of_new_edges (hr : ∀ a b, r' a b → r a b ∨ sources a ∧ b = target)
    (hreach : ∀ x, sources x → ¬ReflTransGen r target x) (hacyclic : ∀ a, ¬TransGen r a a) (a : α) :
    ¬TransGen r' a a := by
  intro h
  rcases transGen_split_of_new_edges hr h with h | ⟨⟨x, hx, hax⟩, hta⟩
  · exact hacyclic a h
  · exact hreach x hx (hta.trans hax)

open Classical in
/-- The numbers below a size of what leads to something in one step or more. -/
noncomputable def leading (r : α → α → Prop) (of : Nat → α) (size : Nat) (a : α) : Finset Nat :=
  (Finset.range size).filter fun i ↦ TransGen r (of i) a

theorem mem_leading {of : Nat → α} {size i : Nat} {a : α} :
    i ∈ leading r of size a ↔ i < size ∧ TransGen r (of i) a := by
  simp [leading]

theorem card_leading_le (r : α → α → Prop) (of : Nat → α) (size : Nat) (a : α) :
    (leading r of size a).card ≤ size := by
  have hsub : leading r of size a ⊆ Finset.range size := fun i hi ↦
    Finset.mem_range.2 (mem_leading.1 hi).1
  exact (Finset.card_le_card hsub).trans_eq (Finset.card_range _)

/-- Without cycles, each step is led to by more than the step before. -/
theorem card_leading_lt (hacyclic : ∀ a, ¬TransGen r a a) {of : Nat → α} {size i : Nat} {b : α}
    (hi : i < size) (h : r (of i) b) :
    (leading r of size (of i)).card < (leading r of size b).card := by
  refine Finset.card_lt_card ((Finset.ssubset_iff_of_subset fun j hj ↦ ?_).2 ⟨i, ?_, ?_⟩)
  · obtain ⟨hlt, hj⟩ := mem_leading.1 hj
    exact mem_leading.2 ⟨hlt, hj.tail h⟩
  · exact mem_leading.2 ⟨hi, .single h⟩
  · exact fun hi ↦ hacyclic _ (mem_leading.1 hi).2

end

namespace Tree

/-- A change of the first field reaches the second one in one step. -/
def Feeds (tree : Tree) (a b : FieldId) : Prop :=
  b ∈ tree.outward a

/-- No change comes back to the field it began with. -/
def Acyclic (tree : Tree) : Prop :=
  ∀ id, ¬TransGen tree.Feeds id id

variable {tree : Tree}

theorem feeds_iff {a b : FieldId} :
    tree.Feeds a b ↔ b ∈ tree.listeners a ∨ tree.container? a = some b := by
  unfold Feeds outward listeners container?
  cases tree.field? a with
  | none => simp
  | some field => simp

theorem live_of_feeds {a b : FieldId} (h : tree.Feeds a b) : tree.Live a := by
  rcases feeds_iff.1 h with h | h
  · exact live_of_mem_listeners h
  · exact live_of_container?_eq_some h

theorem Acyclic.mono {tree' : Tree} (h : tree.Acyclic)
    (hle : ∀ a b, tree'.Feeds a b → tree.Feeds a b) : tree'.Acyclic :=
  fun id hc ↦ h id (TransGen.mono hle _ _ hc)

/-! ## What the search finds -/

@[simp] theorem explore_nil (tree : Tree) (fuel : Nat) (seen : List FieldId) :
    tree.explore fuel seen [] = seen := by
  cases fuel <;> simp [explore]

theorem explore_succ (tree : Tree) (fuel : Nat) (seen frontier : List FieldId) :
    tree.explore (fuel + 1) seen frontier =
      tree.explore fuel (seen ++ frontier)
        ((frontier.flatMap tree.outward).eraseDups.filter (· ∉ seen ++ frontier)) := by
  cases frontier with
  | nil => simp [explore]
  | cons id frontier => simp [explore]

theorem mem_next_iff {seen frontier : List FieldId} {y : FieldId} :
    y ∈ (frontier.flatMap tree.outward).eraseDups.filter (· ∉ seen ++ frontier) ↔
      (∃ x ∈ frontier, tree.Feeds x y) ∧ y ∉ seen ++ frontier := by
  rw [List.mem_filter, List.mem_eraseDups, List.mem_flatMap, decide_eq_true_iff]
  rfl

/-- A round that sees no live field is the last one. -/
theorem next_eq_nil {seen frontier : List FieldId} (h : ∀ x ∈ frontier, ¬tree.Live x) :
    (frontier.flatMap tree.outward).eraseDups.filter (· ∉ seen ++ frontier) = [] := by
  rw [List.eq_nil_iff_forall_not_mem]
  intro y hy
  obtain ⟨⟨x, hx, hxy⟩, _⟩ := mem_next_iff.1 hy
  exact h x hx (live_of_feeds hxy)

theorem reflTransGen_of_mem_explore {id x : FieldId} {fuel : Nat} {seen frontier : List FieldId}
    (h : ∀ y ∈ seen ++ frontier, ReflTransGen tree.Feeds id y)
    (hx : x ∈ tree.explore fuel seen frontier) : ReflTransGen tree.Feeds id x := by
  induction fuel generalizing seen frontier with
  | zero => exact h x hx
  | succ fuel ih =>
      rw [explore_succ] at hx
      refine ih (fun y hy ↦ ?_) hx
      rcases List.mem_append.1 hy with hy | hy
      · exact h y hy
      · obtain ⟨⟨z, hz, hzy⟩, _⟩ := mem_next_iff.1 hy
        exact (h z (List.mem_append_right seen hz)).tail hzy

/-- The fields that have been handed out and are not among some others. -/
def unseen (tree : Tree) (seen : List FieldId) : Finset Nat :=
  (Finset.range tree.fields.size).filter fun i ↦ (⟨i⟩ : FieldId) ∉ seen

theorem card_unseen_le_size (tree : Tree) (seen : List FieldId) :
    (tree.unseen seen).card ≤ tree.fields.size := by
  have hle := Finset.card_filter_le (Finset.range tree.fields.size)
    fun i ↦ (⟨i⟩ : FieldId) ∉ seen
  rwa [Finset.card_range] at hle

theorem card_unseen_lt {seen frontier : List FieldId} {x : FieldId} (hx : x ∈ frontier)
    (hlive : tree.Live x) (hnew : x ∉ seen) :
    (tree.unseen (seen ++ frontier)).card < (tree.unseen seen).card := by
  apply Finset.card_lt_card
  rw [Finset.ssubset_iff_of_subset]
  · refine ⟨x.index, ?_, ?_⟩
    · simp [unseen, hlive.lt_size, hnew]
    · simp [unseen, hx]
  · intro i hi
    simp only [unseen, Finset.mem_filter, Finset.mem_range, List.mem_append, not_or] at hi ⊢
    exact ⟨hi.1, hi.2.1⟩

/-- With a round to spare for every unseen field, the search ends with a set that nothing leaves. -/
theorem explore_closed {fuel : Nat} {seen frontier : List FieldId}
    (hfuel : (tree.unseen seen).card < fuel) (hnew : ∀ x ∈ frontier, x ∉ seen)
    (hseen : ∀ x ∈ seen, ∀ y, tree.Feeds x y → y ∈ seen ++ frontier) :
    (∀ x ∈ seen ++ frontier, x ∈ tree.explore fuel seen frontier) ∧
      ∀ x ∈ tree.explore fuel seen frontier, ∀ y, tree.Feeds x y →
        y ∈ tree.explore fuel seen frontier := by
  induction fuel generalizing seen frontier with
  | zero => omega
  | succ fuel ih =>
      rw [explore_succ]
      set next := (frontier.flatMap tree.outward).eraseDups.filter (· ∉ seen ++ frontier) with hnext
      have hclosed : ∀ x ∈ seen ++ frontier, ∀ y, tree.Feeds x y →
          y ∈ seen ++ frontier ++ next := by
        intro x hx y hxy
        by_cases hy : y ∈ seen ++ frontier
        · exact List.mem_append_left next hy
        · rcases List.mem_append.1 hx with hx | hx
          · exact absurd (hseen x hx y hxy) hy
          · exact List.mem_append_right _ (mem_next_iff.2 ⟨⟨x, hx, hxy⟩, hy⟩)
      by_cases hlive : ∃ x ∈ frontier, tree.Live x
      · obtain ⟨x, hx, hxl⟩ := hlive
        have hlt := card_unseen_lt hx hxl (hnew x hx)
        have hfresh : ∀ y ∈ next, y ∉ seen ++ frontier := fun y hy ↦ (mem_next_iff.1 hy).2
        obtain ⟨hsub, hstep⟩ := ih (by omega) hfresh hclosed
        exact ⟨fun y hy ↦ hsub y (List.mem_append_left next hy), hstep⟩
      · have hempty : next = [] := next_eq_nil fun x hx hxl ↦ hlive ⟨x, hx, hxl⟩
        rw [hempty, explore_nil]
        rw [hempty, List.append_nil] at hclosed
        exact ⟨fun _ h ↦ h, hclosed⟩

theorem mem_reached_iff {id x : FieldId} :
    x ∈ tree.reached id ↔ ReflTransGen tree.Feeds id x := by
  constructor
  · exact reflTransGen_of_mem_explore (by simp [ReflTransGen.refl])
  · intro h
    have hcard : (tree.unseen []).card < tree.fields.size + 1 :=
      Nat.lt_succ_of_le (tree.card_unseen_le_size [])
    have hnew : ∀ y ∈ [id], y ∉ ([] : List FieldId) := by simp
    obtain ⟨hsub, hstep⟩ := explore_closed hcard hnew (by simp)
    induction h with
    | refl => exact hsub id (by simp)
    | tail _ hxy ih => exact hstep _ ih _ hxy

/-- A dependent may be linked to a source if it reaches no live layer of it. -/
def Admits (tree : Tree) (dependent : FieldId) : Source → Prop
  | .children _ => True
  | .field id => ∀ x ∈ tree.layers id, tree.Live x → ¬ReflTransGen tree.Feeds dependent x

theorem closesCycle_field {dependent id : FieldId} :
    tree.closesCycle dependent (.field id) = true ↔
      ∃ x ∈ tree.layers id, ReflTransGen tree.Feeds dependent x := by
  simp only [closesCycle, List.any_eq_true, List.contains_iff_mem, mem_reached_iff]
  constructor
  · exact fun ⟨x, hx, hl⟩ ↦ ⟨x, hl, hx⟩
  · exact fun ⟨x, hl, hx⟩ ↦ ⟨x, hx, hl⟩

theorem admits_of_not_closesCycle {dependent : FieldId} {source : Source}
    (h : tree.closesCycle dependent source = false) : tree.Admits dependent source := by
  cases source with
  | children id => trivial
  | field id =>
      intro x hx _ hr
      have := closesCycle_field.2 ⟨x, hx, hr⟩
      rw [h] at this
      exact Bool.false_ne_true this

end Tree

end LightTree
