import LightTree.Proofs.Settlement
import LightTree.Proofs.Sprouting

/-!
# Cascades let trees sprout

In a tree whose linked lists are not longer than their sources, a cascade that is set off by an
addition finds every source at least as long as it was. So no list falls below the elements that it
had at first: what the cascade builds is new, and what it takes away it or the addition has built.
-/

namespace LightTree

open Relation Edit

namespace Tree

/-- The linked lists that follow a live source have its length. -/
def Fitted (tree : Tree) : Prop :=
  ∀ id source, tree.isLinked id = true → tree.link? id = some source → tree.SourceLive source →
    (tree.elements id).length = tree.sourceLength source

/-- The linked lists that follow a live source are not longer than it. -/
def Short (tree : Tree) : Prop :=
  ∀ id source, tree.isLinked id = true → tree.link? id = some source → tree.SourceLive source →
    (tree.elements id).length ≤ tree.sourceLength source

theorem Fitted.short {tree : Tree} (h : tree.Fitted) : tree.Short :=
  fun id source hlinked hlink hlive ↦ (h id source hlinked hlink hlive).le

theorem Settled.fitted {tree : Tree} (h : tree.Settled) : tree.Fitted := by
  intro id source hlinked hlink hlive
  exact (h.upToDate id).length_eq hlinked hlink hlive

end Tree

open LightTree.Tree

/-- Visits of what may be told in a tree that has sprouted let it sprout. -/
def Sprouting (base : Tree) (added : Additions) (visit : FieldId → Edit Unit) : Prop :=
  ∀ d, base.Later (.field d) ∨ base.Steered d →
    (visit d).Carries (base.Sprouts added) fun _ _ ↦ True

namespace Sprouting

variable {base tree : Tree} {added : Additions} {visit : FieldId → Edit Unit} {id : FieldId}
  (hv : Sprouting base added visit) (hb : base.Sound)

include hv hb

/-! ## Building fields -/

theorem rebindWith (hid : base.Later (.field id)) (source : Source) :
    (rebindWith visit id source).Carries (base.Sprouts added) fun _ _ ↦ True := by
  intro tree h
  rw [meets_rebindWith]
  refine ⟨fun field _ ↦ ⟨fun _ ↦ trivial, fun _ ↦ ⟨fun _ _ ↦ trivial, fun _ ↦ ?_⟩⟩,
    fun _ ↦ trivial⟩
  refine (hv id (.inl hid) _ (h.relink hb.mirrored hid _)).imp (fun _ _ ha ↦ ha) fun _ _ _ ↦ ?_
  rw [meets_relink]
  exact ⟨fun _ ↦ trivial, fun _ ↦ trivial⟩

theorem plant (owner : NodeId) (group : List FieldId) (container : Option FieldId)
    (decl : FieldDecl) {value : Value} (hparts : ∀ x ∈ value.parts, base.Later (.field x))
    (h : base.Sprouts added tree) :
    (plant visit owner group container decl value).Meets tree
      (fun id after ↦ base.Sprouts added after ∧ base.Later (.field id)) fun _ _ ↦ True := by
  rw [meets_plant]
  have hnew : base.Sprouts added
      (tree.insertField { name := decl.name, owner, value, container }) := h.insertField hparts rfl
  have hnext : base.Later (.field tree.nextField) := h.fields_size
  refine (meets_resolve owner group decl).imp ?_ fun _ _ _ ↦ trivial
  rintro source after ⟨rfl, _⟩
  refine ⟨fun _ ↦ ⟨hnew, hnext⟩, fun s _ ↦ ?_⟩
  exact (hv.rebindWith hb hnext s _ hnew).imp (fun _ _ ha ↦ ⟨ha, hnext⟩) fun _ _ _ ↦ trivial

theorem instantiate (owner : NodeId) (group : List FieldId) (container : Option FieldId) :
    ∀ (decl : FieldDecl) {tree : Tree}, base.Sprouts added tree →
      (instantiate visit owner group container decl).Meets tree
        (fun id after ↦ base.Sprouts added after ∧ base.Later (.field id)) fun _ _ ↦ True
  | .scalar _ _, _, h => hv.plant hb owner group container _ nofun h
  | .choice _ _, _, h => by
    rw [meets_instantiate_choice]
    exact ⟨fun _ ↦ trivial, fun _ ↦ hv.plant hb owner group container _ nofun h⟩
  | .list _ _ _, _, h => hv.plant hb owner group container _ nofun h
  | .gated _ _ _ inner, _, h => by
    rw [meets_instantiate_gated]
    refine (instantiate owner group container inner h).imp ?_ fun _ _ _ ↦ trivial
    rintro id mid ⟨hmid, hid⟩
    exact hv.plant hb owner group container _ (List.forall_mem_singleton.2 hid) hmid

theorem instantiateGroup (owner : NodeId) (container : Option FieldId) {group : List FieldId}
    (hgroup : ∀ x ∈ group, base.Later (.field x)) (decls : List FieldDecl)
    (h : base.Sprouts added tree) :
    (instantiateGroup visit owner container group decls).Meets tree
      (fun built after ↦ base.Sprouts added after ∧ ∀ x ∈ built, base.Later (.field x))
      fun _ _ ↦ True := by
  induction decls generalizing group tree with
  | nil => exact ⟨h, hgroup⟩
  | cons decl rest ih =>
      rw [meets_instantiateGroup_cons]
      refine (hv.instantiate hb owner group container decl h).imp ?_ fun _ _ _ ↦ trivial
      rintro id mid ⟨hmid, hid⟩
      refine ih (fun x hx ↦ ?_) hmid
      rcases List.mem_append.1 hx with hx | hx
      · exact hgroup x hx
      · exact List.mem_singleton.1 hx ▸ hid

/-! ## Linked lists -/

theorem grow (owner : NodeId) (template : List FieldDecl)
    (hid : base.Later (.field id) ∨ base.isLinked id = true ∧ base.Steered id) (count : Nat) :
    (grow visit owner template id count).Carries (base.Sprouts added) fun _ _ ↦ True := by
  induction count with
  | zero => exact fun _ h ↦ h
  | succ count ih =>
      intro tree h
      rw [meets_grow_succ]
      have hnone : ∀ x ∈ ([] : List FieldId), base.Later (.field x) := fun _ hx ↦ nomatch hx
      refine (hv.instantiateGroup hb owner (some id) hnone template h).imp ?_ fun _ _ _ ↦ trivial
      rintro group mid ⟨hmid, hgroup⟩
      exact ⟨fun _ ↦ ih _ (hmid.push hid hgroup), fun _ ↦ trivial⟩

omit hv

/-- A list gives up as many elements as it has got since at most. -/
theorem shrink (count : Nat) (h : base.Sprouts added tree)
    (hid : base.Later (.field id) ∨ base.isLinked id = true ∧ base.Steered id ∧
      (base.elements id).length + count ≤ (tree.elements id).length) :
    (shrink id count).Meets tree (fun _ ↦ base.Sprouts added) fun _ _ ↦ True := by
  induction count generalizing tree with
  | zero => exact h
  | succ count ih =>
      rw [meets_shrink_succ]
      refine ⟨fun field hf ↦ ?_, fun _ ↦ trivial⟩
      have hlast : (field.value.elements?.bind (·.getLast?)).getD [] =
          ((tree.elements id).getLast?).getD [] := by
        rw [elements, read_of_some hf]
        cases field.value.elements? <;> rfl
      have hdrop : base.Sprouts added (tree.drop id (·.dropLast)
          ((field.value.elements?.bind (·.getLast?)).getD [])) := by
        rw [hlast]
        refine h.dropLast hb.mirrored rfl (hid.imp_right ?_)
        rintro ⟨hlinked, hsteered, hlength⟩
        exact ⟨hlinked, hsteered, by omega⟩
      refine ih hdrop (hid.imp_right ?_)
      rintro ⟨hlinked, hsteered, hlength⟩
      refine ⟨hlinked, hsteered, ?_⟩
      have hlive := live_of_isLinked hlinked
      obtain ⟨template, elements, hvalue⟩ :=
        list_of_isLinked ((h.isLinked_eq hlive).trans hlinked) hf
      have helements : field.value.elements? = some elements := by rw [hvalue]; rfl
      have hleft := elements_drop_self (f := (·.dropLast)) hf helements (hdrop.live_old hlive)
      rw [elements_of_some hf helements] at hlength
      rw [Tree.drop] at hleft
      rw [hleft, List.length_dropLast]
      omega

variable (hshort : base.Short)

include hv hshort

/-- A list that follows a live source is not made shorter than it was at first. -/
theorem resize {source : Source} (h : base.Sprouts added tree)
    (hid : base.Later (.field id) ∨ base.isLinked id = true ∧ base.link? id = some source ∧
      base.SourceLive source) :
    (resize visit id (tree.sourceLength source)).Meets tree (fun _ ↦ base.Sprouts added)
      fun _ _ ↦ True := by
  rw [meets_resize]
  refine ⟨fun field hf ↦ ⟨fun linked template elements hvalue ↦ ?_, fun _ ↦ trivial⟩,
    fun _ ↦ trivial⟩
  have hroom : base.Later (.field id) ∨ base.isLinked id = true ∧ base.Steered id :=
    hid.imp_right fun ⟨hlinked, hlink, hlive⟩ ↦ ⟨hlinked, source, hlink, hlive⟩
  have helements : tree.elements id = elements := elements_of_some hf (by rw [hvalue]; rfl)
  have hlength : base.Later (.field id) ∨ (base.elements id).length ≤ tree.sourceLength source :=
    hid.imp_right fun ⟨hlinked, hlink, hlive⟩ ↦
      (hshort id source hlinked hlink hlive).trans (h.sourceLength_le hb hlive)
  rcases Nat.le_total elements.length (tree.sourceLength source) with hle | hle
  · -- The list grows, so there is nothing to take away.
    refine (hv.grow hb field.owner template hroom _ tree h).imp (fun _ mid hmid ↦ ?_)
      fun _ _ _ ↦ trivial
    rw [Nat.sub_eq_zero_of_le hle]
    exact hmid
  · -- The list shrinks, and nothing is built before.
    rw [Nat.sub_eq_zero_of_le hle]
    refine shrink hb _ h ?_
    rcases hroom with hlater | ⟨hlinked, hsteered⟩
    · exact .inl hlater
    · refine hlength.imp_right fun hlength ↦ ⟨hlinked, hsteered, ?_⟩
      rw [helements]
      omega

theorem recompute (hid : base.Later (.field id) ∨ base.Steered id) :
    (recompute visit id).Carries (base.Sprouts added) fun _ _ ↦ True := by
  intro tree h
  rw [meets_recompute]
  refine ⟨fun field hf ↦ ⟨fun source condition inner hlink hvalue ↦ ?_,
    fun source template elements hlink hvalue ↦ ?_, fun _ ↦ h⟩, fun _ ↦ trivial⟩
  · refine h.setActive (hid.imp_right fun hsteered ↦ ⟨?_, hsteered⟩) _
    obtain ⟨s, hs, _⟩ := hsteered
    rw [← h.inner?_eq (live_of_link?_eq_some hs), inner?_eq_read, read_of_some hf, hvalue]
    rfl
  · refine hv.resize hb hshort h (hid.imp_right fun ⟨s, hs, hlive⟩ ↦ ?_)
    have hold := live_of_link?_eq_some hs
    have hsource : base.link? id = some source := by
      rw [← h.link?_eq hold, link?, read_of_some hf, hlink]
    cases Option.some.inj (hs.symm.trans hsource)
    refine ⟨?_, hsource, hlive⟩
    rw [← h.isLinked_eq hold, isLinked_of_some hf, hvalue]
    rfl

omit hshort

/-! ## Telling dependents -/

omit hb in
theorem forM {ids : List FieldId} (hids : ∀ d ∈ ids, base.Later (.field d) ∨ base.Steered d) :
    (ids.forM visit).Carries (base.Sprouts added) fun _ _ ↦ True :=
  carries_forM fun d hd ↦ hv d (hids d hd)

theorem spread (ids : List FieldId) :
    (spread visit ids).Carries (base.Sprouts added) fun _ _ ↦ True := by
  induction ids with
  | nil => exact fun _ h ↦ h
  | cons id outer ih =>
      intro tree h
      rw [meets_spread_cons]
      refine ⟨fun _ ↦ ?_, fun _ ↦ h⟩
      exact (hv.forM (fun d hd ↦ h.steered_of_mem_listeners hb.mirrored hd) tree h).imp
        (fun _ mid hmid ↦ ih mid hmid) fun _ _ _ ↦ trivial

theorem propagate (source : Source) :
    (propagate visit source).Carries (base.Sprouts added) fun _ _ ↦ True := by
  intro tree h
  cases source with
  | children node =>
      rw [meets_propagate_children]
      exact hv.forM (fun d hd ↦ h.steered_of_mem_nodeListeners hb.mirrored hd) tree h
  | field id =>
      rw [meets_propagate_field]
      exact hv.spread hb _ tree h

omit hv

variable (hshort : base.Short)

include hshort

theorem notify (fuel : Nat) : ∀ (refresh : Bool) (path : List FieldId),
    Sprouting base added (notify fuel refresh path) := by
  induction fuel with
  | zero => exact fun _ _ _ _ _ _ ↦ trivial
  | succ fuel ih =>
      intro refresh path id hid tree h
      rw [meets_notify_succ]
      refine ⟨fun field _ ↦ ⟨fun _ _ ↦ trivial, fun _ ↦ ?_⟩, fun _ ↦ h⟩
      refine ((ih false []).recompute hb hshort hid tree h).imp (fun _ mid hmid ↦ ?_)
        fun _ _ _ ↦ trivial
      refine (ih refresh (id :: path)).propagate hb (.field id) _ ?_
      split
      · exact hmid.refreshed
      · exact hmid

theorem enter (refresh : Bool) : Sprouting base added (enter refresh) := by
  intro id hid tree h
  rw [LightTree.enter, meets_bind, meets_get]
  exact notify hb hshort _ refresh [] id hid tree h

/-- The cascade of any source lets the tree sprout. -/
theorem settle (source : Source) :
    (settle source).Carries (base.Sprouts added) fun _ _ ↦ True := by
  intro tree h
  rw [meets_settle]
  exact ((enter hb hshort true).propagate hb source tree h).imp (fun _ _ ha ↦ ha.refreshed)
    fun _ _ _ ↦ trivial

end Sprouting

end LightTree
