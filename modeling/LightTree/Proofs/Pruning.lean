import LightTree.Proofs.Thinning

/-!
# Cascades that prune

Where every linked list is long enough for its source, a cascade builds nothing. Linked lists lose
elements from their ends, gates go on and off, and all other values stay as they are. That a list is
told several times makes no difference: its source gets shorter each time or stays as it is, so no
list has to get back an element that it has lost. Links and the order of the fields play no part in
this, so it holds of any tree.
-/

namespace LightTree

open Edit

/-- An invariant that deriving the state of a live field leads back to, whatever the field tells,
unless it fails. -/
structure CascadeInvariant (inv : Tree → Prop) : Prop where
  refreshed : ∀ tree, inv tree → inv tree.refreshed
  recompute : ∀ visit id tree, inv tree → tree.Live id →
    (recompute visit id).Meets tree (fun _ ↦ inv) fun _ _ ↦ True

namespace CascadeInvariant

variable {inv : Tree → Prop} {visit : FieldId → Edit Unit}

theorem spread (hv : ∀ id, (visit id).Carries inv fun _ _ ↦ True) (ids : List FieldId) :
    (spread visit ids).Carries inv fun _ _ ↦ True := by
  induction ids with
  | nil => exact fun _ h ↦ h
  | cons id outer ih =>
      intro tree h
      rw [meets_spread_cons]
      exact ⟨fun _ ↦ (carries_forM (fun d _ ↦ hv d) tree h).imp (fun _ ↦ ih) fun _ _ _ ↦ trivial,
        fun _ ↦ h⟩

theorem propagate (hv : ∀ id, (visit id).Carries inv fun _ _ ↦ True) (source : Source) :
    (propagate visit source).Carries inv fun _ _ ↦ True := by
  intro tree h
  cases source with
  | children node =>
      rw [meets_propagate_children]
      exact carries_forM (fun d _ ↦ hv d) tree h
  | field id =>
      rw [meets_propagate_field]
      exact spread hv _ tree h

variable (hinv : CascadeInvariant inv)

include hinv

theorem notify (fuel : Nat) (refresh : Bool) (path : List FieldId) (id : FieldId) :
    (notify fuel refresh path id).Carries inv fun _ _ ↦ True := by
  induction fuel generalizing path id with
  | zero => exact fun _ _ ↦ trivial
  | succ fuel ih =>
      intro tree h
      rw [meets_notify_succ]
      refine ⟨fun field hf ↦ ⟨fun _ _ ↦ trivial, fun _ ↦ ?_⟩, fun _ ↦ h⟩
      refine (hinv.recompute _ id tree h (Tree.live_of_some hf)).imp (fun _ mid hmid ↦ ?_)
        fun _ _ _ ↦ trivial
      refine propagate (ih (id :: path)) (.field id) _ ?_
      split
      · exact hinv.refreshed mid hmid
      · exact hmid

theorem enter (refresh : Bool) (id : FieldId) :
    (enter refresh id).Carries inv fun _ _ ↦ True := by
  intro tree h
  rw [LightTree.enter, meets_bind, meets_get]
  exact hinv.notify _ refresh [] id tree h

theorem settle (source : Source) : (settle source).Carries inv fun _ _ ↦ True := by
  intro tree h
  rw [meets_settle]
  exact (propagate (hinv.enter true) source tree h).imp
    (fun _ after ha ↦ hinv.refreshed after ha) fun _ _ _ ↦ trivial

end CascadeInvariant

/-! ## Values that lose elements -/

/-- The second value is the first one, or a linked list that has lost elements from its end. -/
inductive Value.Pruned : Value → Value → Prop
  | same (value : Value) : Pruned value value
  | shorter (template : List FieldDecl) {elements kept : List (List FieldId)}
      (hkept : kept <+: elements) :
    Pruned (.list true template elements) (.list true template kept)

theorem Value.Pruned.trans {old mid new : Value} (h : old.Pruned mid) (h' : mid.Pruned new) :
    old.Pruned new := by
  cases h with
  | same => exact h'
  | shorter template hkept =>
      cases h' with
      | same => exact .shorter template hkept
      | shorter _ hkept' => exact .shorter template (hkept'.trans hkept)

namespace Tree

/-- The second tree is the first one thinned out, and what is left of its fields has the values that
it had, apart from linked lists that have lost elements from their ends. -/
structure Prunes (tree after : Tree) : Prop extends tree.Thins after where
  value : ∀ id new, after.field? id = some new →
    ∃ old, tree.field? id = some old ∧ old.value.Pruned new.value

variable {tree after last : Tree} {id : FieldId} {visit : FieldId → Edit Unit}

namespace Prunes

theorem of_values (h : tree.Thins after) (hvalue : ∀ id new, after.field? id = some new →
    ∃ old, tree.field? id = some old ∧ new.value = old.value) : tree.Prunes after := by
  refine ⟨h, fun id new hn ↦ ?_⟩
  obtain ⟨old, ho, heq⟩ := hvalue id new hn
  exact ⟨old, ho, heq ▸ .same _⟩

theorem refl (tree : Tree) : tree.Prunes tree :=
  of_values (.refl tree) fun _ new hn ↦ ⟨new, hn, rfl⟩

theorem trans (h : tree.Prunes after) (h' : after.Prunes last) : tree.Prunes last := by
  refine ⟨h.toThins.trans h'.toThins, fun id new hn ↦ ?_⟩
  obtain ⟨mid, hm, hmid⟩ := h'.value id new hn
  obtain ⟨old, ho, hold⟩ := h.value id mid hm
  exact ⟨old, ho, hold.trans hmid⟩

theorem of_shrinks (h : tree.Shrinks after) : tree.Prunes after := by
  refine of_values (.of_shrinks h) fun id new hn ↦ ?_
  obtain ⟨old, ho, hvalue, -⟩ := h.sameAt id new hn
  exact ⟨old, ho, hvalue⟩

theorem refreshed (tree : Tree) : tree.Prunes tree.refreshed :=
  of_values (.refreshed tree) fun _ new hn ↦ ⟨new, hn, rfl⟩

theorem setActive (tree : Tree) (id : FieldId) (active : Bool) :
    tree.Prunes (tree.updateField id ({ · with active })) := by
  refine of_values (.setActive tree id active) fun x new hn ↦ ?_
  rw [field?_updateField] at hn
  split at hn
  · obtain ⟨old, ho, rfl⟩ := Option.map_eq_some_iff.1 hn
    exact ⟨old, ho, rfl⟩
  · exact ⟨new, hn, rfl⟩

/-- A linked list loses its last element. -/
theorem dropLast (hlinked : tree.Live id → tree.isLinked id = true) (group : List FieldId) :
    tree.Prunes (tree.drop id (·.dropLast) group) := by
  refine ⟨.drop tree id (fun list ↦ by simp) group, fun x new hn ↦ ?_⟩
  obtain ⟨mid, hm, hvalue, -⟩ := (releaseFields_shrinks _ group).sameAt x new hn
  rw [hvalue]
  rw [field?_updateField] at hm
  split at hm
  · next hid =>
      subst hid
      obtain ⟨old, ho, rfl⟩ := Option.map_eq_some_iff.1 hm
      obtain ⟨template, elements, hv⟩ := list_of_isLinked (hlinked (live_of_some ho)) ho
      refine ⟨old, ho, ?_⟩
      simp only [hv, Value.mapElements]
      exact .shorter template (List.dropLast_prefix elements)
  · exact ⟨mid, hm, .same _⟩

end Prunes

/-! ## Deriving lengths -/

/-- A list that is left gives up as many elements as it is asked to, and no other list loses any. -/
theorem shrink_prunes (hlinked : tree.Live id → tree.isLinked id = true) (count : Nat) :
    (shrink id count).Meets tree
      (fun _ after ↦ tree.Prunes after ∧
        (after.Live id → (after.elements id).length = (tree.elements id).length - count) ∧
        ∀ x, x ≠ id → after.Live x → after.elements x = tree.elements x) fun _ _ ↦ True := by
  induction count generalizing tree with
  | zero => exact ⟨.refl tree, fun _ ↦ rfl, fun _ _ _ ↦ rfl⟩
  | succ count ih =>
      rw [meets_shrink_succ]
      refine ⟨fun field hf ↦ ?_, fun _ ↦ trivial⟩
      have hlinked' := hlinked (live_of_some hf)
      obtain ⟨elements, hv⟩ := elements?_of_isLinked hlinked' hf
      have hp : tree.Prunes (tree.drop id (·.dropLast)
          ((field.value.elements?.bind (·.getLast?)).getD [])) := .dropLast hlinked _
      refine (ih fun hl ↦ (hp.isLinked hl).trans hlinked').imp ?_ fun _ _ _ ↦ trivial
      rintro _ after ⟨hafter, hlength, hothers⟩
      refine ⟨hp.trans hafter, fun hl ↦ ?_, fun x hx hl ↦ ?_⟩
      · have hdropped := elements_drop_self (f := (·.dropLast)) hf hv (hafter.live hl)
        rw [hlength hl, elements_of_some hf hv, hdropped, List.length_dropLast]
        omega
      · exact (hothers x hx hl).trans (elements_drop_of_ne hx (hafter.live hl))

namespace Ample

/-- A list that is long enough takes the length of its source and builds nothing. -/
theorem resize (h : tree.Ample) {source : Source} (hlinked : tree.isLinked id = true)
    (hlink : tree.link? id = some source) :
    (resize visit id (tree.sourceLength source)).Meets tree
      (fun _ after ↦ tree.Prunes after ∧ after.Ample) fun _ _ ↦ True := by
  rw [meets_resize]
  refine ⟨fun field hf ↦ ⟨fun linked template elements hv ↦ ?_, fun _ ↦ trivial⟩, fun _ ↦ trivial⟩
  have hhad := elements_of_some hf (congrArg Value.elements? hv)
  have henough := h id source hlinked hlink
  rw [hhad] at henough
  rw [Nat.sub_eq_zero_of_le henough]
  refine (shrink_prunes (fun _ ↦ hlinked) _).imp ?_ fun _ _ _ ↦ trivial
  rintro _ after ⟨hp, hlength, hothers⟩
  refine ⟨hp, hp.ample fun x s hx hs ↦ ?_⟩
  have hl := live_of_isLinked hx
  by_cases he : x = id
  · subst he
    cases hlink.symm.trans hs
    rw [hlength hl, hhad]
    omega
  · rw [hothers x he hl]
    exact h x s (hp.isLinked hl ▸ hx) hs

theorem recompute (h : tree.Ample) :
    (recompute visit id).Meets tree (fun _ after ↦ tree.Prunes after ∧ after.Ample)
      fun _ _ ↦ True := by
  rw [meets_recompute]
  refine ⟨fun field hf ↦ ⟨fun source condition _ _ _ ↦ ?_,
    fun source template elements hlink hv ↦ ?_, fun _ ↦ ⟨.refl tree, h⟩⟩, fun _ ↦ trivial⟩
  · have hp := Prunes.setActive tree id (tree.holds source condition)
    refine ⟨hp, h.of_elements hp.toThins fun x _ ↦ ?_⟩
    rw [Tree.elements, read_updateField_of_keeps]
    · rfl
    · exact fun _ ↦ rfl
  · refine h.resize (isLinked_of_list hf hv) ?_
    rw [link?, read_of_some hf, hlink]

/-! ## Cascades -/

theorem cascadeInvariant (tree : Tree) :
    CascadeInvariant fun after ↦ tree.Prunes after ∧ after.Ample where
  refreshed after h :=
    ⟨h.1.trans (.refreshed after), h.2.of_elements (.refreshed after) fun _ _ ↦ rfl⟩
  recompute _ _ _ h _ := h.2.recompute.imp (fun _ _ ha ↦ ⟨h.1.trans ha.1, ha.2⟩)
    fun _ _ _ ↦ trivial

variable (h : tree.Ample)

include h

theorem enter_prunes (refresh : Bool) (id : FieldId) :
    (enter refresh id).Meets tree (fun _ ↦ tree.Prunes) fun _ _ ↦ True :=
  ((cascadeInvariant tree).enter refresh id tree ⟨.refl tree, h⟩).imp (fun _ _ ha ↦ ha.1)
    fun _ _ _ ↦ trivial

theorem settle_prunes (source : Source) :
    (settle source).Meets tree (fun _ ↦ tree.Prunes) fun _ _ ↦ True :=
  ((cascadeInvariant tree).settle source tree ⟨.refl tree, h⟩).imp (fun _ _ ha ↦ ha.1)
    fun _ _ _ ↦ trivial

end Ample

end Tree

end LightTree
