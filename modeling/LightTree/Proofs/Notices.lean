import LightTree.Proofs.Annex
import LightTree.Proofs.Clearance
import LightTree.Proofs.Commutation
import Mathlib.Algebra.GroupWithZero.Nat

/-!
# How often the view is refreshed

Where refreshes are coalesced, an operation that succeeds refreshes the view once or, if it is
ignored or only builds or wires, not at all. Otherwise a change of a value also refreshes it at each
visit of its cascade. Such a cascade finds every list as long as its source, so it makes the visits
that the listeners and lists before the change lead to, one for each way to a dependent.
-/

namespace LightTree

open Relation Edit

/-- The refreshes of the view that come with an outcome if they are coalesced. -/
def Outcome.refreshes : Outcome → Nat
  | .applied => 1
  | .ignored => 0

/-- The refreshes of the view that an operation makes, by its answer, if they are coalesced. -/
def Operation.refreshes : Operation → Answer → Nat
  | .create _, _ => 0
  | .rebind _ _, _ => 0
  | _, .outcome outcome => outcome.refreshes
  | _, _ => 1

namespace Tree

variable {base tree mid after : Tree} {visit : FieldId → Edit Unit} {id : FieldId}

/-! ## What is announced -/

/-- The settings are the same, and if refreshes are coalesced there have been so many. -/
structure Announces (tree : Tree) (count : Nat) (after : Tree) : Prop where
  settings : after.settings = tree.settings
  refreshes : tree.settings.coalesce = true → after.refreshes = tree.refreshes + count

theorem Announces.trans {first second : Nat} (h : tree.Announces first mid)
    (h' : mid.Announces second after) : tree.Announces (first + second) after where
  settings := h'.settings.trans h.settings
  refreshes hc := by
    rw [h'.refreshes (h.settings ▸ hc), h.refreshes hc, Nat.add_assoc]

theorem growing_announces : Growing (Announces · 0 ·) where
  refl _ := ⟨rfl, fun _ ↦ rfl⟩
  trans h h' := h.trans h'
  insertField _ _ _ := ⟨rfl, fun _ ↦ rfl⟩
  relink tree dependent source := ⟨lasting_settings.relink tree dependent source,
    fun _ ↦ growing_refreshes.relink tree dependent source⟩
  setActive _ _ _ _ := ⟨rfl, fun _ ↦ rfl⟩
  push _ _ _ := ⟨rfl, fun _ ↦ rfl⟩
  drop tree id f group := ⟨lasting_settings.drop tree id f group,
    fun _ ↦ growing_refreshes.drop tree id f group⟩
  addTop _ _ _ := ⟨rfl, fun _ ↦ rfl⟩
  insertNode _ _ := ⟨rfl, fun _ ↦ rfl⟩
  adopt _ _ _ := ⟨rfl, fun _ ↦ rfl⟩
  releaseNode tree id := ⟨lasting_settings.releaseNode tree id,
    fun _ ↦ growing_refreshes.releaseNode tree id⟩

/-! ## Counting visits beforehand -/

/-- The visits that a change of a field leads to, in so many steps at most. -/
def visitsWithin (tree : Tree) : Nat → FieldId → Nat
  | 0, _ => 0
  | fuel + 1, id =>
    ((tree.listeners id).map fun d ↦ 1 + tree.visitsWithin fuel d).sum +
      (tree.container? id).elim 0 (tree.visitsWithin fuel)

/-- The visits that a change of a field leads to. Without cycles no way is longer than there are
fields. -/
def visits (tree : Tree) : FieldId → Nat :=
  tree.visitsWithin (tree.fields.size + 1)

/-- How many fields a change can have come from when it reaches a field. -/
noncomputable def depthOf (tree : Tree) (id : FieldId) : Nat :=
  (leading tree.Feeds FieldId.mk tree.fields.size id).card

theorem Acyclic.depthOf_lt (h : tree.Acyclic) {x : FieldId} (hx : tree.Feeds id x) :
    tree.depthOf id < tree.depthOf x :=
  card_leading_lt h (live_of_feeds hx).lt_size hx

/-- What a change of a field leads to depends on the fields that it reaches at once. -/
theorem sum_visits_congr {f g : FieldId → Nat} (h : ∀ x, tree.Feeds id x → f x = g x) :
    ((tree.listeners id).map fun d ↦ 1 + f d).sum + (tree.container? id).elim 0 f =
      ((tree.listeners id).map fun d ↦ 1 + g d).sum + (tree.container? id).elim 0 g := by
  have hlisteners : (tree.listeners id).map (fun d ↦ 1 + f d) =
      (tree.listeners id).map fun d ↦ 1 + g d :=
    List.map_congr_left fun d hd ↦ by rw [h d (feeds_iff.2 (.inl hd))]
  rw [hlisteners]
  cases hc : tree.container? id with
  | none => rfl
  | some c => rw [Option.elim_some, Option.elim_some, h c (feeds_iff.2 (.inr hc))]

theorem Acyclic.visitsWithin_eq (h : tree.Acyclic) {fuel fuel' : Nat}
    (hfuel : tree.fields.size < fuel + tree.depthOf id)
    (hfuel' : tree.fields.size < fuel' + tree.depthOf id) :
    tree.visitsWithin fuel id = tree.visitsWithin fuel' id := by
  have hle : tree.depthOf id ≤ tree.fields.size := card_leading_le ..
  induction fuel generalizing fuel' id with
  | zero => omega
  | succ fuel ih =>
      obtain ⟨fuel', rfl⟩ : ∃ n, fuel' = n + 1 := ⟨fuel' - 1, by omega⟩
      rw [visitsWithin, visitsWithin]
      refine sum_visits_congr fun x hx ↦ ?_
      have hlt := h.depthOf_lt hx
      exact ih (by omega) (by omega) (card_leading_le ..)

/-- A change leads to a visit of each listener with what a change of that leads to, and to what a
change of the list around the field leads to. -/
theorem Acyclic.visits_eq (h : tree.Acyclic) (id : FieldId) :
    tree.visits id = ((tree.listeners id).map fun d ↦ 1 + tree.visits d).sum +
      (tree.container? id).elim 0 tree.visits := by
  conv_lhs => rw [visits, visitsWithin]
  refine sum_visits_congr fun x hx ↦ ?_
  have hlt := h.depthOf_lt hx
  exact h.visitsWithin_eq (by omega) (by omega)

theorem Alike.visits (h : tree.Alike after) : after.visits = tree.visits := by
  have hwithin : ∀ fuel, after.visitsWithin fuel = tree.visitsWithin fuel := by
    intro fuel
    induction fuel with
    | zero => rfl
    | succ fuel ih =>
        funext id
        rw [visitsWithin, visitsWithin, h.listeners, h.container?, ih]
  rw [Tree.visits, Tree.visits, h.fields_size, hwithin]

/-! ## Coalesced refreshes -/

/-- Coalesced, a cascade leaves the refresh to what has set it off. -/
theorem enter_announces (refresh : Bool) (id : FieldId) :
    (enter refresh id).Respects (Announces · 0 ·) := by
  intro tree
  rw [enter, meets_bind, meets_get]
  refine growing_announces.notify (fun _ tree hloud ↦ ⟨rfl, fun hc ↦ ?_⟩) _ [] id tree
  exact absurd (hc.symm.trans hloud) Bool.noConfusion

theorem settle_announces (source : Source) :
    (settle source).Meets tree (fun _ ↦ tree.Announces 1) fun _ _ ↦ True := by
  rw [meets_settle]
  have hcascade := growing_announces.propagate (enter_announces true) source tree
  exact hcascade.imp_good fun _ _ h ↦ ⟨h.settings, fun hc ↦ congrArg (· + 1) (h.refreshes hc)⟩

/-- What announces a change after quiet steps announces it once over all of them. -/
theorem Announces.followedBy {α : Type} {edit : Edit α} {count : α → Nat} (h : tree.Announces 0 mid)
    (hedit : edit.Meets mid (fun a ↦ mid.Announces (count a)) fun _ _ ↦ True) :
    edit.Meets mid (fun a ↦ tree.Announces (count a)) fun _ _ ↦ True :=
  hedit.imp_good fun a _ ha ↦ by simpa using h.trans ha

theorem Announces.settle (h : tree.Announces 0 mid) (source : Source) :
    (settle source).Meets mid (fun _ ↦ tree.Announces 1) fun _ _ ↦ True :=
  h.followedBy (settle_announces source)

theorem create_announces (kind : NodeKind) :
    (create kind).Meets tree (fun _ ↦ tree.Announces 0) fun _ _ ↦ True :=
  (growing_announces.create kind tree).imp_good fun _ _ h ↦ h

theorem addChild_announces (parent child : NodeId) :
    (addChild parent child).Meets tree (fun outcome ↦ tree.Announces outcome.refreshes)
      fun _ _ ↦ True := by
  rw [meets_addChild, meets_attach]
  refine ⟨fun _ ↦ ⟨fun _ ↦ growing_announces.giveUp tree child, nofun⟩,
    fun _ ↦ ⟨fun _ _ ↦ trivial, fun _ ↦ ?_⟩⟩
  exact ((growing_announces.adopt tree parent child).settle _).imp_good
    fun _ _ h ↦ ⟨nofun, fun _ ↦ h⟩

theorem addByCategory_announces (parent : NodeId) (category : Category) :
    (addByCategory parent category).Meets tree (fun outcome ↦ tree.Announces outcome.refreshes)
      fun _ _ ↦ True := by
  rw [meets_addByCategory]
  refine ⟨fun _ ↦ growing_announces.refl tree, fun kind _ _ ↦ ?_⟩
  exact (create_announces kind).imp_good
    fun child _ h ↦ h.followedBy (addChild_announces parent child)

theorem removeChild_announces (parent child : NodeId) :
    (removeChild parent child).Meets tree (fun outcome ↦ tree.Announces outcome.refreshes)
      fun _ _ ↦ True := by
  rw [meets_removeChild]
  refine ⟨fun _ ↦ growing_announces.refl tree, fun _ ↦ ⟨fun _ _ ↦ trivial, fun _ ↦ ?_⟩⟩
  have hdisown : tree.Announces 0 (tree.disown parent child) := ⟨rfl, fun _ ↦ rfl⟩
  exact (hdisown.trans (growing_announces.releaseNode _ child)).settle _

theorem detach_announces (node : NodeId) :
    (detach node).Meets tree (fun outcome ↦ tree.Announces outcome.refreshes)
      fun _ _ ↦ True := by
  rw [meets_detach]
  exact ⟨fun _ ↦ growing_announces.refl tree, fun parent _ ↦ removeChild_announces parent node⟩

theorem retype_announces (node : NodeId) (symbol : String) :
    (retype node symbol).Meets tree (fun outcome ↦ tree.Announces outcome.refreshes)
      fun _ _ ↦ True := by
  refine meets_retype (growing_announces.refl tree) fun _ parent kind _ _ _ ↦
    ⟨fun _ _ ↦ trivial, fun _ ↦ ?_⟩
  refine (create_announces kind).imp_good fun new mid h ↦ ⟨fun _ ↦ ?_, fun _ ↦ ?_⟩
  · exact h.trans (growing_announces.releaseNode mid new)
  · have hsupplant : mid.Announces 0 (mid.supplant parent node new) := ⟨rfl, fun _ ↦ rfl⟩
    exact (h.trans (hsupplant.trans (growing_announces.releaseNode _ node))).settle _

theorem mutate_announces (id : FieldId) (change : Field → Except Fault Value) :
    (mutate id change).Meets tree (fun _ ↦ tree.Announces 1) fun _ _ ↦ True := by
  rw [meets_mutate_iff]
  have hstore : ∀ value, tree.Announces 0 (tree.store id value) := fun _ ↦ ⟨rfl, fun _ ↦ rfl⟩
  exact ⟨fun _ _ ↦ trivial, fun value _ ↦ (hstore value).settle _⟩

theorem appendElement_announces (id : FieldId) :
    (appendElement id).Meets tree (fun _ ↦ tree.Announces 1) fun _ _ ↦ True := by
  refine meets_appendElement (fun _ ↦ trivial) fun _ _ template _ _ _ ↦ ?_
  refine (growing_announces.instantiateGroup (enter_announces false) _ [] template tree).imp_good
    fun group mid h ↦ ⟨fun _ ↦ ?_, fun _ ↦ trivial⟩
  exact (h.trans (growing_announces.push mid _ group)).settle _

theorem removeElement_announces (id : FieldId) (index : Nat) :
    (removeElement id index).Meets tree (fun outcome ↦ tree.Announces outcome.refreshes)
      fun _ _ ↦ True := by
  refine meets_removeElement (fun _ ↦ trivial) (growing_announces.refl tree) ?_
  exact fun _ _ _ _ element _ _ _ ↦ (growing_announces.drop tree _ _ element).settle _

theorem rebind_announces (dependent : FieldId) (source : Source) :
    (rebind dependent source).Meets tree (fun _ ↦ tree.Announces 0) fun _ _ ↦ True :=
  (growing_announces.rebindWith (enter_announces false) dependent source tree).imp_good
    fun _ _ h ↦ h

theorem edit_announces (operation : Operation) :
    operation.edit.Meets tree (fun answer ↦ tree.Announces (operation.refreshes answer))
      fun _ _ ↦ True := by
  cases operation with
  | create kind => exact (meets_bind ..).2 (create_announces kind)
  | addChild parent child => exact (meets_bind ..).2 (addChild_announces parent child)
  | addByCategory parent category =>
      exact (meets_bind ..).2 (addByCategory_announces parent category)
  | removeChild parent child => exact (meets_bind ..).2 (removeChild_announces parent child)
  | detach node => exact (meets_bind ..).2 (detach_announces node)
  | retype node symbol => exact (meets_bind ..).2 (retype_announces node symbol)
  | setInteger id _ | setBoolean id _ | choose id _ | setText id _ | setColor id _ =>
      exact (meets_bind ..).2 (mutate_announces id _)
  | appendElement id => exact (meets_bind ..).2 (appendElement_announces id)
  | removeElement id index => exact (meets_bind ..).2 (removeElement_announces id index)
  | rebind dependent source => exact (meets_bind ..).2 (rebind_announces dependent source)

/-! ## Cascades that find nothing to build -/

/-- The tree of a cascade that has only turned gates on or off so far. -/
structure Wavers (base tree : Tree) : Prop extends base.Flickers tree, base.Alike tree

namespace Wavers

theorem refl (base : Tree) : base.Wavers base :=
  ⟨.refl base, (Flickers.refl base).alike rfl rfl⟩

theorem refreshed (h : base.Wavers tree) : base.Wavers tree.refreshed :=
  ⟨⟨h.node, h.field⟩, ⟨h.fields_size, h.settings, h.inner?, h.husk⟩⟩

theorem setActive (h : base.Wavers tree) (hgate : (base.inner? id).isSome = true)
    (hsteered : base.Steered id) (active : Bool) :
    base.Wavers (tree.updateField id ({ · with active })) := by
  have hflickers : base.Flickers (tree.updateField id ({ · with active })) := by
    refine h.toFlickers.trans ⟨rfl, fun x ↦ ?_⟩
    rw [field?_updateField]
    split
    · next hx =>
        obtain ⟨source, hlink, hlive⟩ := hsteered
        subst hx
        refine .inr ⟨⟨?_, source, ?_, (h.sourceLive_iff source).2 hlive⟩, active, rfl⟩
        · rwa [h.inner?_eq]
        · rwa [h.link?_eq]
    · exact .inl rfl
  exact ⟨hflickers, hflickers.alike ((size_updateField ..).trans h.fields_size) h.settings⟩

theorem fitted (h : base.Wavers tree) (hfit : base.Fitted) : tree.Fitted :=
  h.toAlike.fitted h.node (h.read_eq (fun _ _ ↦ rfl) _) (h.read_eq (fun _ _ ↦ rfl) _) hfit

end Wavers

/-- From a tree that wavers an edit leads to another one, with so many refreshes. -/
def Counts (base : Tree) (count : Nat) (edit : Edit Unit) : Prop :=
  ∀ tree, base.Wavers tree → edit.Meets tree
    (fun _ after ↦ base.Wavers after ∧ after.refreshes = tree.refreshes + count) fun _ _ ↦ True

namespace Counts

/-- Two edits one after the other make the refreshes of both. -/
theorem followedBy {first second : Edit Unit} {m n : Nat} (hfirst : base.Counts m first)
    (hsecond : base.Counts n second) (h : base.Wavers tree) :
    first.Meets tree
      (fun _ mid ↦ second.Meets mid
        (fun _ after ↦ base.Wavers after ∧ after.refreshes = tree.refreshes + (m + n))
        fun _ _ ↦ True)
      fun _ _ ↦ True := by
  refine (hfirst tree h).imp_good fun _ mid ⟨hmid, hcount⟩ ↦ ?_
  refine (hsecond mid hmid).imp_good fun _ after ⟨hafter, hcount'⟩ ↦ ⟨hafter, ?_⟩
  rw [hcount', hcount, Nat.add_assoc]

theorem forM {count : FieldId → Nat} {ids : List FieldId}
    (hv : ∀ d ∈ ids, base.Counts (count d) (visit d)) :
    base.Counts (ids.map count).sum (ids.forM visit) := by
  induction ids with
  | nil => exact fun _ h ↦ ⟨h, rfl⟩
  | cons d rest ih =>
      intro tree h
      obtain ⟨hfirst, hrest⟩ := List.forall_mem_cons.1 hv
      change (visit d >>= fun _ ↦ rest.forM visit).Meets tree _ _
      rw [meets_bind]
      rw [List.map_cons, List.sum_cons]
      exact hfirst.followedBy (ih hrest) h

section

variable (hb : base.Sound)
  (hv : ∀ d, base.Steered d → base.Counts (1 + base.visits d) (visit d))

include hb hv

theorem spread_cons {outer : List FieldId}
    (houter : base.Counts ((base.container? id).elim 0 base.visits) (spread visit outer)) :
    base.Counts (base.visits id) (spread visit (id :: outer)) := by
  intro tree h
  rw [meets_spread_cons, h.live_iff, h.listeners, hb.acyclic.visits_eq]
  refine ⟨fun _ ↦ ?_, fun hgone ↦ ⟨h, ?_⟩⟩
  · have hlisteners : base.Counts ((base.listeners id).map fun d ↦ 1 + base.visits d).sum
        ((base.listeners id).forM visit) :=
      forM fun d hd ↦ hv d (hb.mirrored.steered_of_mem_listeners hd)
    exact hlisteners.followedBy houter h
  · have hlisteners : base.listeners id = [] := List.eq_nil_iff_forall_not_mem.2 fun d hd ↦
      hgone (live_of_mem_listeners hd)
    have hcontainer : base.container? id = none := Option.eq_none_iff_forall_ne_some.2 fun c hc ↦
      hgone (live_of_container?_eq_some hc)
    rw [hlisteners, hcontainer]
    rfl

/-- The chain of the lists around a field is never cut short. -/
theorem spread {fuel : Nat} (hfuel : id.index ≤ fuel) :
    base.Counts (base.visits id) (spread visit (chain base.container? fuel id)) := by
  induction fuel generalizing id with
  | zero =>
      refine spread_cons hb hv ?_
      cases hc : base.container? id with
      | none => exact fun _ h ↦ ⟨h, rfl⟩
      | some c =>
          have hlt := hb.ordered.container_lt id c hc
          omega
  | succ fuel ih =>
      cases hc : base.container? id with
      | none =>
          rw [chain_of_none hc]
          refine spread_cons hb hv ?_
          rw [hc]
          exact fun _ h ↦ ⟨h, rfl⟩
      | some c =>
          rw [chain_of_some hc]
          refine spread_cons hb hv ?_
          have hlt := hb.ordered.container_lt id c hc
          rw [hc]
          exact ih (by omega)

theorem propagate (hid : base.Live id) :
    base.Counts (base.visits id) (propagate visit (.field id)) := by
  intro tree h
  rw [meets_propagate_field, h.enclosing]
  exact spread hb hv (Nat.le_of_lt hid.lt_size) tree h

end

/-- Deriving the state of a field turns a gate on or off at most. -/
theorem recompute (hfit : base.Fitted) (hid : base.Steered id) :
    base.Counts 0 (recompute visit id) := by
  intro tree h
  obtain ⟨source, hlink, hlive⟩ := hid
  rw [meets_recompute]
  refine ⟨fun field hf ↦ ⟨fun _ condition inner _ hvalue ↦ ⟨?_, rfl⟩,
    fun source' template elements hlink' hvalue ↦ ?_, fun _ ↦ ⟨h, rfl⟩⟩, fun _ ↦ trivial⟩
  · refine h.setActive ?_ ⟨source, hlink, hlive⟩ _
    rw [← h.inner?_eq, inner?_eq_read, read_of_some hf, hvalue]
    rfl
  · rw [← h.link?_eq, link?, read_of_some hf, hlink'] at hlink
    cases hlink
    have hlength : elements.length = tree.sourceLength source := by
      have hfits := h.fitted hfit id source (isLinked_of_list hf hvalue)
        (by rw [link?, read_of_some hf, hlink']) ((h.sourceLive_iff source).2 hlive)
      rwa [elements_of_some hf (congrArg Value.elements? hvalue)] at hfits
    rw [meets_resize]
    refine ⟨fun field' hf' ↦ ⟨fun linked' template' elements' hvalue' ↦ ?_, fun _ ↦ trivial⟩,
      fun _ ↦ trivial⟩
    cases Option.some.inj (hf.symm.trans hf')
    cases hvalue.symm.trans hvalue'
    rw [← hlength, Nat.sub_self]
    exact ⟨h, rfl⟩

theorem notify (hb : base.Sound) (hfit : base.Fitted) (hloud : base.settings.coalesce = false)
    (fuel : Nat) (path : List FieldId) (hid : base.Steered id) :
    base.Counts (1 + base.visits id) (notify fuel true path id) := by
  induction fuel generalizing path id with
  | zero => exact fun _ _ ↦ trivial
  | succ fuel ih =>
      intro tree h
      have hlive : base.Live id := by
        obtain ⟨_, hlink, _⟩ := hid
        exact live_of_link?_eq_some hlink
      rw [meets_notify_succ]
      refine ⟨fun field _ ↦ ⟨fun _ _ ↦ trivial, fun _ ↦ ?_⟩,
        fun hnone ↦ absurd ((h.live_iff id).2 hlive) (not_live_iff.2 hnone)⟩
      refine (recompute hfit hid tree h).imp_good fun _ mid ⟨hmid, hcount⟩ ↦ ?_
      rw [if_pos (by rw [hmid.settings, hloud]; rfl)]
      refine (propagate hb (fun d hd ↦ ih (id :: path) hd) hlive _ hmid.refreshed).imp_good ?_
      rintro _ after ⟨hafter, hcount'⟩
      refine ⟨hafter, hcount'.trans ?_⟩
      rw [refreshed, hcount, Nat.add_zero, Nat.add_assoc]

theorem enter (hb : base.Sound) (hfit : base.Fitted) (hloud : base.settings.coalesce = false)
    (hid : base.Steered id) : base.Counts (1 + base.visits id) (enter true id) := by
  intro tree h
  rw [LightTree.enter, meets_bind, meets_get]
  exact notify hb hfit hloud _ [] hid tree h

end Counts

/-- A change of a value refreshes the view for itself and for each visit of its cascade. -/
theorem Settled.setter_refreshes (h : tree.Settled) (hloud : tree.settings.coalesce = false)
    (setter : Setter) (id : FieldId) :
    (setter.on id).edit.Meets tree
      (fun _ after ↦ after.refreshes = tree.refreshes + (1 + tree.visits (tree.unwrap id)))
      fun _ _ ↦ True := by
  rw [Setter.edit_on, meets_bind, meets_mutate_iff]
  refine ⟨fun _ _ ↦ trivial, fun value hv ↦ ?_⟩
  obtain ⟨_, field, hf, hchange⟩ := verdict_eq_ok hv
  obtain ⟨hold, hnew⟩ := setter.leafy_change field value hchange
  have halike := Alike.store hf hold hnew
  have hs : (tree.store id value).Sound := h.sound.setValue hf hold hnew
  have hfit := Fitted.store hf hold hnew h.fitted
  have hlive : (tree.store id value).Live (tree.unwrap id) :=
    (live_updateField ..).2 (live_of_some hf)
  rw [meets_settle, ← halike.visits]
  refine (Counts.propagate hs (fun _ ↦ Counts.enter hs hfit hloud) hlive _ (.refl _)).imp_good ?_
  rintro _ after ⟨-, hcount⟩
  change after.refreshes + 1 = _
  rw [hcount, Nat.add_assoc, Nat.add_comm _ 1]
  rfl

/-! ## Histories -/

/-- After a history without faults, an operation that succeeds refreshes the view once or not at
all, by its answer, if refreshes are coalesced. Otherwise a change of a value refreshes it once for
itself and once for each visit of its cascade. The visits are counted in the tree before the change:
one for each listener, with those of the listener, and those of the list around the field. -/
theorem refreshes_run {catalog : Catalog} {settings : Settings} {tree : Tree}
    {operations : List Operation} (hstart : start catalog settings = .ok tree)
    (hlive : tree.RebindsLive operations)
    (hok : ∀ answer ∈ (tree.run operations).1, ∃ a, answer = .ok a) {final : Tree}
    (hfinal : (tree.run operations).2 = final) {operation : Operation} {answer : Answer}
    {after : Tree} (hperform : final.perform operation = (.ok answer, after)) :
    (settings.coalesce = true →
      after.refreshes = final.refreshes + operation.refreshes answer) ∧
    (settings.coalesce = false → ∀ (setter : Setter) (id : FieldId), operation = setter.on id →
      after.refreshes = final.refreshes + (1 + final.visits (final.unwrap id))) ∧
    ∀ id, final.visits id = ((final.listeners id).map fun d ↦ 1 + final.visits d).sum +
      (final.container? id).elim 0 final.visits := by
  have h : final.Settled := hfinal ▸ (settled_start hstart).run hlive hok
  have hsettings : final.settings = settings := by
    rw [← hfinal, lasting_settings.run tree operations, settings_start hstart]
  rw [← hsettings]
  refine ⟨fun hcoalesce ↦ ?_, fun hloud setter id hoperation ↦ ?_, h.sound.acyclic.visits_eq⟩
  · exact ((edit_announces operation).of_runOn_ok hperform).refreshes hcoalesce
  · subst hoperation
    exact (h.setter_refreshes hloud setter id).of_runOn_ok hperform

/-- The first tree of the standard catalog where refreshes are not coalesced. -/
def loudTree : Tree :=
  { standardTree with settings := { coalesce := false } }

/-- The position of an object is made the source of the choice of its definition, which gates its
length and its colours. A change of the position visits all three. -/
theorem refreshes_run_standard :
    let final := (loudTree.run [.addByCategory ⟨0⟩ .object, .rebind ⟨2⟩ (.field ⟨0⟩)]).2
    (final.perform (.setInteger ⟨0⟩ 3)).2.refreshes = final.refreshes + (1 + 3) := by
  intro final
  have hstart : start .standard { coalesce := false } = .ok loudTree := rfl
  have hsource : (loudTree.perform (.addByCategory ⟨0⟩ .object)).2.Live ⟨0⟩ := by decide +kernel
  have hlive : loudTree.RebindsLive [.addByCategory ⟨0⟩ .object, .rebind ⟨2⟩ (.field ⟨0⟩)] :=
    ⟨trivial, hsource, trivial⟩
  have hanswers : (loudTree.run [.addByCategory ⟨0⟩ .object, .rebind ⟨2⟩ (.field ⟨0⟩)]).1 =
      [.ok (.outcome .applied), .ok .done] := by
    decide +kernel
  have hok : ∀ answer ∈ (loudTree.run [.addByCategory ⟨0⟩ .object, .rebind ⟨2⟩ (.field ⟨0⟩)]).1,
      ∃ a, answer = .ok a := by
    rw [hanswers]
    simp
  have hdone : (final.perform (.setInteger ⟨0⟩ 3)).1 = .ok .done := by decide +kernel
  have hperform : final.perform (.setInteger ⟨0⟩ 3) =
      (.ok .done, (final.perform (.setInteger ⟨0⟩ 3)).2) := by
    rw [← hdone]
  have hvisits : final.visits (final.unwrap ⟨0⟩) = 3 := by decide +kernel
  have hrun := refreshes_run hstart hlive hok (rfl : _ = final) hperform
  rw [hrun.2.1 rfl (.integer 3) ⟨0⟩ rfl, hvisits]

end Tree

end LightTree
