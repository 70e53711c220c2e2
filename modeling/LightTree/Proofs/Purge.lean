import Mathlib.Data.Finset.Card
import Mathlib.Data.Finset.Range
import Mathlib.Logic.Relation

/-!
# Removing what hangs together

Fields and nodes are removed by the same recursion: a live element goes first, and then, one after
another, the elements that were below it go the same way. With more fuel than live elements the
recursion removes exactly what it can reach downwards.
-/

namespace LightTree

open Relation

/-- What is alive in a state, what is below it there, and how much of it there is. -/
structure Purge (σ α : Type) where
  live : σ → α → Prop
  below : σ → α → List α
  count : σ → Nat
  live_of_below : ∀ s p c, c ∈ below s p → live s p
  count_le : ∀ s t, (∀ x, live t x → live s x) → count t ≤ count s
  count_lt : ∀ s t a, (∀ x, live t x → live s x) → live s a → ¬live t a → count t < count s

namespace Purge

variable {σ α : Type} {view : Purge σ α} {s t u : σ}

/-! ## Counting by numbers -/

section

variable (live : σ → α → Prop) (below : σ → α → List α)
  (live_of_below : ∀ s p c, c ∈ below s p → live s p) (number : α → Nat)
  (hnumber : Function.Injective number) (size : σ → Nat)
  (hlt : ∀ s a, live s a → number a < size s)

open Classical in
/-- The numbers of what is alive, all of them below the size of the state. -/
noncomputable def liveNumbers (s : σ) : Finset Nat :=
  (Finset.range (size s)).filter fun i ↦ ∃ a, live s a ∧ number a = i

include hlt hnumber in
theorem mem_liveNumbers {a : α} : number a ∈ liveNumbers live number size s ↔ live s a := by
  simp only [liveNumbers, Finset.mem_filter, Finset.mem_range]
  constructor
  · rintro ⟨_, b, hb, heq⟩
    exact hnumber heq ▸ hb
  · exact fun ha ↦ ⟨hlt s a ha, a, ha, rfl⟩

include hlt hnumber in
theorem liveNumbers_subset (h : ∀ x, live t x → live s x) :
    liveNumbers live number size t ⊆ liveNumbers live number size s := by
  intro i hi
  simp only [liveNumbers, Finset.mem_filter] at hi
  obtain ⟨_, a, ha, rfl⟩ := hi
  exact (mem_liveNumbers live number hnumber size hlt).2 (h a ha)

/-- Elements that are numbered below a size can be counted. -/
noncomputable def ofNumbers : Purge σ α where
  live := live
  below := below
  count s := (liveNumbers live number size s).card
  live_of_below := live_of_below
  count_le s t h := Finset.card_le_card (liveNumbers_subset live number hnumber size hlt h)
  count_lt s t a h ha hn := by
    refine Finset.card_lt_card ((Finset.ssubset_iff_of_subset
      (liveNumbers_subset live number hnumber size hlt h)).2 ⟨number a, ?_, ?_⟩)
    · exact (mem_liveNumbers live number hnumber size hlt).2 ha
    · exact fun hm ↦ hn ((mem_liveNumbers live number hnumber size hlt).1 hm)

theorem count_ofNumbers_lt (s : σ) :
    (ofNumbers live below live_of_below number hnumber size hlt).count s < size s + 1 := by
  have hsub : liveNumbers live number size s ⊆ Finset.range (size s) := by
    intro i hi
    simp only [liveNumbers, Finset.mem_filter] at hi
    exact hi.1
  exact Nat.lt_succ_of_le ((Finset.card_le_card hsub).trans_eq (Finset.card_range _))

end

/-! ## Losing elements -/

/-- The second state is the first one without some elements. -/
def Loses (view : Purge σ α) (s t : σ) : Prop :=
  ∀ x, view.live t x → view.live s x ∧ view.below t x = view.below s x

theorem Loses.refl (s : σ) : view.Loses s s :=
  fun _ h ↦ ⟨h, rfl⟩

theorem Loses.trans (h : view.Loses s t) (h' : view.Loses t u) : view.Loses s u := by
  intro x hx
  obtain ⟨ht, hb⟩ := h' x hx
  obtain ⟨hs, hb'⟩ := h x ht
  exact ⟨hs, hb.trans hb'⟩

theorem Loses.foldl {f : σ → α → σ} (hf : ∀ s a, view.Loses s (f s a)) (list : List α) (s : σ) :
    view.Loses s (list.foldl f s) := by
  induction list generalizing s with
  | nil => exact .refl s
  | cons a list ih => exact (hf s a).trans (ih (f s a))

theorem Loses.mem_below (h : view.Loses s t) {p c : α} (hc : c ∈ view.below t p) :
    c ∈ view.below s p :=
  (h p (view.live_of_below t p c hc)).2 ▸ hc

/-- Whatever went took along what was below it. -/
def LosesWhole (view : Purge σ α) (s t : σ) : Prop :=
  ∀ p c, view.live s p → ¬view.live t p → c ∈ view.below s p → ¬view.live t c

theorem LosesWhole.refl (s : σ) : view.LosesWhole s s :=
  fun _ _ hl hn ↦ absurd hl hn

theorem LosesWhole.trans (h : view.LosesWhole s t) (h' : view.LosesWhole t u)
    (hst : view.Loses s t) (htu : view.Loses t u) : view.LosesWhole s u := by
  intro p c hl hn hc
  by_cases hp : view.live t p
  · exact h' p c hp hn (by rwa [(hst p hp).2])
  · exact fun hu ↦ h p c hl hp hc (htu c hu).1

/-! ## The recursion -/

/-- A recursion that removes an element and then what was below it, `fuel` levels deep. -/
structure Carried (view : Purge σ α) (purge : Nat → σ → α → σ) : Prop where
  zero : ∀ s a, purge 0 s a = s
  dead : ∀ fuel s a, ¬view.live s a → purge fuel s a = s
  succ : ∀ fuel s a, view.live s a → ∃ t, (∀ x, view.live t x ↔ x ≠ a ∧ view.live s x) ∧
    view.Loses s t ∧ view.Loses ((view.below s a).foldl (purge fuel) t) (purge (fuel + 1) s a) ∧
      ∀ x, view.live ((view.below s a).foldl (purge fuel) t) x → view.live (purge (fuel + 1) s a) x

variable {purge : Nat → σ → α → σ}

theorem Carried.loses (h : view.Carried purge) (fuel : Nat) (s : σ) (a : α) :
    view.Loses s (purge fuel s a) := by
  induction fuel generalizing s a with
  | zero =>
      rw [h.zero]
      exact .refl s
  | succ fuel ih =>
      by_cases ha : view.live s a
      · obtain ⟨t, _, hst, hlast, _⟩ := h.succ fuel s a ha
        exact (hst.trans (.foldl ih _ t)).trans hlast
      · rw [h.dead _ s a ha]
        exact .refl s

/-- What is outside a set that nothing below it leaves survives the removal of a member. -/
theorem Carried.survives (h : view.Carried purge) {set : α → Prop} {fuel : Nat} {a : α}
    (hclosed : ∀ p c, set p → c ∈ view.below s p → set c) (ha : set a) {x : α} (hx : ¬set x)
    (hl : view.live s x) : view.live (purge fuel s a) x := by
  induction fuel generalizing s a with
  | zero => rwa [h.zero]
  | succ fuel ih =>
      by_cases hla : view.live s a
      · obtain ⟨t, ht, hst, _, hlast⟩ := h.succ fuel s a hla
        refine hlast x (List.foldlRecOn (motive := fun u ↦ view.Loses s u ∧ view.live u x) _ _
          ⟨hst, (ht x).2 ⟨fun he ↦ hx (he ▸ ha), hl⟩⟩ ?_).2
        rintro u ⟨hsu, hux⟩ c hc
        exact ⟨hsu.trans (h.loses fuel u c),
          ih (fun p d hp hd ↦ hclosed p d hp (hsu.mem_below hd)) (hclosed a c ha hc) hux⟩
      · rwa [h.dead _ s a hla]

theorem foldl_complete {purge : σ → α → σ} {bound : Nat}
    (hloses : ∀ s a, view.Loses s (purge s a))
    (hone : ∀ s a, view.count s < bound →
      ¬view.live (purge s a) a ∧ view.LosesWhole s (purge s a))
    (list : List α) (hbound : view.count s < bound) :
    (∀ a ∈ list, ¬view.live (list.foldl purge s) a) ∧
      view.LosesWhole s (list.foldl purge s) := by
  induction list generalizing s with
  | nil => exact ⟨by simp, .refl s⟩
  | cons c list ih =>
      have hrest : view.Loses (purge s c) (list.foldl purge (purge s c)) := .foldl hloses list _
      have hle := view.count_le s (purge s c) fun x hx ↦ (hloses s c x hx).1
      obtain ⟨hgone, hwhole⟩ := hone s c hbound
      obtain ⟨hgones, hwholes⟩ := ih (s := purge s c) (by omega)
      refine ⟨fun a ha ↦ ?_, hwhole.trans hwholes (hloses s c) hrest⟩
      rcases List.mem_cons.1 ha with rfl | ha
      · exact fun hl ↦ hgone (hrest a hl).1
      · exact hgones a ha

/-- With more fuel than live elements, the element is gone, and so is all that was below something
that went. -/
theorem Carried.complete (h : view.Carried purge) {fuel : Nat} (s : σ) (a : α)
    (hfuel : view.count s < fuel) :
    ¬view.live (purge fuel s a) a ∧ view.LosesWhole s (purge fuel s a) := by
  induction fuel generalizing s a with
  | zero => omega
  | succ fuel ih =>
      by_cases hla : view.live s a
      · obtain ⟨t, ht, hst, hlast, hkept⟩ := h.succ fuel s a hla
        have hfold : view.Loses t ((view.below s a).foldl (purge fuel) t) :=
          .foldl (h.loses fuel) _ t
        have hgone : ¬view.live t a := fun ha ↦ ((ht a).1 ha).1 rfl
        have hlt := view.count_lt s t a (fun x hx ↦ (hst x hx).1) hla hgone
        obtain ⟨hgones, hwhole⟩ := foldl_complete (s := t) (h.loses fuel)
          (fun s a hs ↦ ih s a hs) (view.below s a) (by omega)
        refine ⟨fun hl ↦ hgone (hfold a (hlast a hl).1).1, fun p c hp hnp hc hl ↦ ?_⟩
        have hfc := (hlast c hl).1
        by_cases hpa : p = a
        · exact hgones c (hpa ▸ hc) hfc
        · have hpt : view.live t p := (ht p).2 ⟨hpa, hp⟩
          exact hwhole p c hpt (fun hpf ↦ hnp (hkept p hpf)) (by rwa [(hst p hpt).2]) hfc
      · rw [h.dead _ s a hla]
        exact ⟨hla, .refl s⟩

/-- Exactly what the recursion reaches downwards is removed. -/
theorem Carried.live_iff (h : view.Carried purge) {fuel : Nat} {a x : α}
    (hfuel : view.count s < fuel) : view.live (purge fuel s a) x ↔
      view.live s x ∧ ¬ReflTransGen (fun p c ↦ c ∈ view.below s p) a x := by
  obtain ⟨hgone, hwhole⟩ := h.complete s a hfuel
  constructor
  · refine fun hx ↦ ⟨(h.loses fuel s a x hx).1, fun hreach ↦ ?_⟩
    have hdead : ¬view.live (purge fuel s a) x := by
      clear hx
      induction hreach with
      | refl => exact hgone
      | @tail p c _ hpc ih => exact hwhole p c (view.live_of_below s p c hpc) ih hpc
    exact hdead hx
  · exact fun ⟨hl, hx⟩ ↦ h.survives (fun _ _ ↦ ReflTransGen.tail) .refl hx hl

end Purge

end LightTree
