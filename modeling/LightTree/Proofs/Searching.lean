import LightTree.Proofs.Reachable
import Mathlib.Order.WellFounded

/-!
# Searching for cycles

The test for cycles follows a change in rounds. A search that takes up one pending field at a time,
stops at the first one it looks for and passes over what it has seen gives the same answer. What
carries it is that nothing leads out of the seen fields but to pending ones. Neither search needs a
tree without cycles, only gates that do not stand inside themselves.
-/

namespace LightTree

open Relation

namespace Tree

variable {tree : Tree}

/-! ## Gates inside gates -/

/-- No row of fields each of which wraps the next goes on without an end. -/
def LayersEnd (tree : Tree) : Prop :=
  ∀ row : Nat → FieldId, ¬∀ n, tree.Wraps (row n) (row (n + 1))

theorem LayersEnd.not_wraps_self (h : tree.LayersEnd) (id : FieldId) :
    ¬TransGen tree.Wraps id id := by
  have hwf : WellFounded (Function.swap tree.Wraps) :=
    wellFounded_iff_isEmpty_descending_chain.2 ⟨fun row ↦ h row.1 row.2⟩
  intro hcycle
  exact hwf.transGen.irrefl.irrefl id (transGen_swap.2 hcycle)

theorem InnerOlder.layersEnd (h : tree.InnerOlder) : tree.LayersEnd := by
  intro row hrow
  have hfall : ∀ n, (row n).index + n ≤ (row 0).index := by
    intro n
    induction n with
    | zero => exact Nat.le_refl _
    | succ n ih =>
        have := h _ _ (hrow n)
        omega
  have := hfall ((row 0).index + 1)
  omega

theorem LayersEnd.updateField (h : tree.LayersEnd) {f : Field → Field}
    (hf : ∀ field, (f field).value.inner? = field.value.inner?) (id : FieldId) :
    (tree.updateField id f).LayersEnd := by
  intro row hrow
  refine h row fun n ↦ ?_
  have hn := hrow n
  rwa [Wraps, inner?_updateField hf] at hn

/-- How many more layers a field can have: the fields that do not lead to it. -/
noncomputable def layerRank (tree : Tree) (id : FieldId) : Nat :=
  tree.fields.size - (leading tree.Wraps FieldId.mk tree.fields.size id).card

theorem LayersEnd.layerRank_lt (h : tree.LayersEnd) (a b : FieldId)
    (hab : tree.inner? a = some b) : tree.layerRank b < tree.layerRank a := by
  have hlive := live_of_inner?_eq_some hab
  have hlt : (leading tree.Wraps FieldId.mk tree.fields.size a).card <
      (leading tree.Wraps FieldId.mk tree.fields.size b).card :=
    card_leading_lt h.not_wraps_self hlive.lt_size hab
  have := card_leading_le tree.Wraps FieldId.mk tree.fields.size b
  unfold layerRank
  omega

theorem LayersEnd.mem_layers_iff (h : tree.LayersEnd) {id x : FieldId} :
    x ∈ tree.layers id ↔ ReflTransGen tree.Wraps id x :=
  ⟨reflTransGen_of_mem_chain,
    mem_chain_of_reflTransGen tree.layerRank h.layerRank_lt (Nat.sub_le _ _)⟩

/-- More steps lead to no more layers. -/
theorem LayersEnd.chain_eq_layers (h : tree.LayersEnd) {fuel : Nat}
    (hfuel : tree.fields.size ≤ fuel) (id : FieldId) :
    chain tree.inner? fuel id = tree.layers id :=
  chain_congr hfuel (fun _ _ ↦ rfl)
    (next_getLast_chain tree.layerRank h.layerRank_lt (Nat.sub_le _ _))

/-! ## Rounds -/

theorem explore_eq_of_le {fuel more : Nat} {seen frontier : List FieldId}
    (hfuel : (tree.unseen seen).card < fuel) (hle : fuel ≤ more)
    (hnew : ∀ x ∈ frontier, x ∉ seen) :
    tree.explore more seen frontier = tree.explore fuel seen frontier := by
  induction fuel generalizing more seen frontier with
  | zero => omega
  | succ fuel ih =>
      obtain ⟨more, rfl⟩ := Nat.exists_eq_add_of_le' hle
      rw [← Nat.add_assoc, explore_succ, explore_succ]
      by_cases hlive : ∃ x ∈ frontier, tree.Live x
      · obtain ⟨x, hx, hxl⟩ := hlive
        have hlt := card_unseen_lt hx hxl (hnew x hx)
        exact ih (by omega) (Nat.le_add_left _ _) fun y hy ↦ (mem_next_iff.1 hy).2
      · rw [next_eq_nil fun x hx hxl ↦ hlive ⟨x, hx, hxl⟩, explore_nil, explore_nil]

/-- More rounds reach no more fields. -/
theorem explore_eq_reached {fuel : Nat} (hfuel : tree.fields.size < fuel) (id : FieldId) :
    tree.explore fuel [] [id] = tree.reached id :=
  explore_eq_of_le (Nat.lt_succ_of_le (tree.card_unseen_le_size [])) hfuel (by simp)

/-! ## One field at a time -/

theorem card_unseen_append_le (seen frontier : List FieldId) :
    (tree.unseen (seen ++ frontier)).card ≤ (tree.unseen seen).card := by
  refine Finset.card_le_card fun i hi ↦ ?_
  simp only [unseen, Finset.mem_filter, List.mem_append, not_or] at hi ⊢
  exact ⟨hi.1, hi.2.1⟩

theorem outward_eq_nil {id : FieldId} (h : ¬tree.Live id) : tree.outward id = [] := by
  rw [outward, not_live_iff.1 h]

/-- Whether one of `targets` is among the pending fields or is reached from one of them. The field
that was noted last is taken up first, and one that has been seen is passed over. -/
def finds (tree : Tree) (targets : List FieldId) : List FieldId → List FieldId → Bool
  | _, [] => false
  | seen, id :: pending =>
    if id ∈ targets then true
    else if id ∈ seen then tree.finds targets seen pending
    else tree.finds targets (seen ++ [id]) ((tree.outward id).reverse ++ pending)
termination_by seen pending => ((tree.unseen seen).card, pending.length)
decreasing_by
  · exact Prod.Lex.right _ (Nat.lt_succ_self _)
  · next hnew =>
      by_cases hlive : tree.Live id
      · exact Prod.Lex.left _ _ (card_unseen_lt (List.mem_singleton.2 rfl) hlive hnew)
      · rw [outward_eq_nil hlive]
        exact Prod.Lex.right' _ (card_unseen_append_le seen [id]) (Nat.lt_succ_self _)

/-- What is reached from a seen field and has not been seen is reached from a pending one. -/
theorem exists_pending_of_seen {seen pending : List FieldId}
    (hseen : ∀ x ∈ seen, ∀ y, tree.Feeds x y → y ∈ seen ++ pending) {id x : FieldId}
    (hid : id ∈ seen) (hx : x ∉ seen) (h : ReflTransGen tree.Feeds id x) :
    ∃ p ∈ pending, ReflTransGen tree.Feeds p x := by
  induction h using ReflTransGen.head_induction_on with
  | refl => exact absurd hid hx
  | head hab hbx ih =>
      rcases List.mem_append.1 (hseen _ hid _ hab) with hb | hb
      · exact ih hb
      · exact ⟨_, hb, hbx⟩

theorem finds_iff {targets seen pending : List FieldId} (htargets : ∀ x ∈ seen, x ∉ targets)
    (hseen : ∀ x ∈ seen, ∀ y, tree.Feeds x y → y ∈ seen ++ pending) :
    tree.finds targets seen pending = true ↔
      ∃ x ∈ targets, ∃ p ∈ pending, ReflTransGen tree.Feeds p x := by
  fun_induction finds tree targets seen pending with
  | case1 => simp
  | case2 seen id pending hid =>
      exact ⟨fun _ ↦ ⟨id, hid, id, List.mem_cons_self, .refl⟩, fun _ ↦ rfl⟩
  | case3 seen id pending hid hold ih =>
      have hclosed : ∀ x ∈ seen, ∀ y, tree.Feeds x y → y ∈ seen ++ pending := by
        intro x hx y hxy
        have := hseen x hx y hxy
        simp only [List.mem_append, List.mem_cons] at this ⊢
        rcases this with hy | rfl | hy
        · exact .inl hy
        · exact .inl hold
        · exact .inr hy
      rw [ih htargets hclosed]
      constructor
      · rintro ⟨x, hx, p, hp, h⟩
        exact ⟨x, hx, p, List.mem_cons_of_mem id hp, h⟩
      · rintro ⟨x, hx, p, hp, h⟩
        refine ⟨x, hx, ?_⟩
        rcases List.mem_cons.1 hp with rfl | hp
        · exact exists_pending_of_seen hclosed hold (fun hmem ↦ htargets x hmem hx) h
        · exact ⟨p, hp, h⟩
  | case4 seen id pending hid hnew ih =>
      rw [ih ?_ ?_]
      · constructor
        · rintro ⟨x, hx, p, hp, h⟩
          rcases List.mem_append.1 hp with hp | hp
          · exact ⟨x, hx, id, List.mem_cons_self, .head (List.mem_reverse.1 hp) h⟩
          · exact ⟨x, hx, p, List.mem_cons_of_mem id hp, h⟩
        · rintro ⟨x, hx, p, hp, h⟩
          refine ⟨x, hx, ?_⟩
          rcases List.mem_cons.1 hp with rfl | hp
          · obtain rfl | ⟨y, hpy, hyx⟩ := h.cases_head
            · exact absurd hx hid
            · exact ⟨y, List.mem_append_left _ (List.mem_reverse.2 hpy), hyx⟩
          · exact ⟨p, List.mem_append_right _ hp, h⟩
      · intro x hx
        rcases List.mem_append.1 hx with hx | hx
        · exact htargets x hx
        · exact List.mem_singleton.1 hx ▸ hid
      · intro x hx y hxy
        simp only [List.mem_append, List.mem_singleton, List.mem_reverse] at hx ⊢
        rcases hx with hx | rfl
        · have := hseen x hx y hxy
          simp only [List.mem_append, List.mem_cons] at this
          rcases this with hy | rfl | hy
          · exact .inl (.inl hy)
          · exact .inl (.inr rfl)
          · exact .inr (.inr hy)
        · exact .inr (.inl hxy)

theorem finds_eq_closesCycle (dependent source : FieldId) :
    tree.finds (tree.layers source) [] [dependent] =
      tree.closesCycle dependent (.field source) := by
  rw [Bool.eq_iff_iff, closesCycle_field, finds_iff (by simp) (by simp)]
  simp

/-- Where no gate stands inside itself, cycles or not, the test for cycles says exactly whether a
change of the dependent reaches the source or a field inside it. The search that takes up one field
at a time comes to the same answer, and neither walk of the test is cut short: with more steps there
are no more layers, and with more rounds no more fields. -/
theorem closesCycle_iff_reaches (h : tree.LayersEnd) (dependent source : FieldId) :
    (tree.closesCycle dependent (.field source) = true ↔
      ∃ x, ReflTransGen tree.Wraps source x ∧ ReflTransGen tree.Feeds dependent x) ∧
    tree.finds (tree.layers source) [] [dependent] =
      tree.closesCycle dependent (.field source) ∧
    (∀ fuel, tree.fields.size ≤ fuel → chain tree.inner? fuel source = tree.layers source) ∧
    ∀ fuel, tree.fields.size < fuel →
      tree.explore fuel [] [dependent] = tree.reached dependent := by
  refine ⟨?_, finds_eq_closesCycle dependent source, fun _ hfuel ↦ h.chain_eq_layers hfuel source,
    fun _ hfuel ↦ explore_eq_reached hfuel dependent⟩
  simp only [closesCycle_field, h.mem_layers_iff]

/-- A choice that the colours it gates feed in turn, along with the length inside a gate: the choice
comes back to itself, and it may not listen for that gate. -/
theorem closesCycle_iff_reaches_tangled :
    let tree := ((standardTree.run standardHistory).2.updateField ⟨6⟩
      (·.addListener ⟨2⟩)).updateField ⟨6⟩ (·.addListener ⟨3⟩)
    tree.LayersEnd ∧ TransGen tree.Feeds ⟨2⟩ ⟨2⟩ ∧
      (∃ x, ReflTransGen tree.Wraps ⟨4⟩ x ∧ ReflTransGen tree.Feeds ⟨2⟩ x) ∧
      tree.finds (tree.layers ⟨4⟩) [] [⟨2⟩] = true := by
  intro tree
  have hstandard : (standardTree.run standardHistory).2.LayersEnd :=
    ((sound_start start_standard).run rebindsLive_standardHistory).ordered.innerOlder.layersEnd
  have hfirst := hstandard.updateField (f := (·.addListener ⟨2⟩)) (fun _ ↦ rfl) ⟨6⟩
  have hend : tree.LayersEnd :=
    hfirst.updateField (f := (·.addListener ⟨3⟩)) (fun _ ↦ rfl) ⟨6⟩
  have hcycle : tree.Feeds ⟨2⟩ ⟨6⟩ ∧ tree.Feeds ⟨6⟩ ⟨2⟩ := by
    unfold Feeds
    decide +kernel
  have hcloses : tree.closesCycle ⟨2⟩ (.field ⟨4⟩) = true := by decide +kernel
  obtain ⟨hiff, hfinds, _⟩ := closesCycle_iff_reaches hend ⟨2⟩ ⟨4⟩
  exact ⟨hend, .tail (.single hcycle.1) hcycle.2, hiff.1 hcloses,
    hfinds.trans hcloses⟩

end Tree

end LightTree
