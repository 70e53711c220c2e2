import LightTree.Proofs.Purge
import LightTree.Proofs.Shrink

/-!
# Releasing fields

A field holds what it owns, what that owns, and so on. Releasing a field removes exactly what it
holds. The subscriptions of a mirrored tree stay mirrored: halfway through they may be wrong only
for fields that are going to be removed.
-/

namespace LightTree

open Relation

namespace Tree

def Holds (tree : Tree) : FieldId → FieldId → Prop :=
  ReflTransGen fun a b ↦ b ∈ tree.parts a

def OwnsClosed (tree : Tree) (set : FieldId → Prop) : Prop :=
  ∀ id part, set id → part ∈ tree.parts id → set part

variable {tree after : Tree} {set : FieldId → Prop}

theorem ownsClosed_holds (tree : Tree) (id : FieldId) : tree.OwnsClosed (tree.Holds id) :=
  fun _ _ ↦ ReflTransGen.tail

theorem Shrinks.ownsClosed (h : tree.Shrinks after) (hc : tree.OwnsClosed set) :
    after.OwnsClosed set :=
  fun id part hid hp ↦ hc id part hid (h.mem_parts hp)

theorem OwnsClosed.of_wraps (hc : tree.OwnsClosed set) {a x : FieldId}
    (h : ReflTransGen tree.Wraps a x) (ha : set a) : set x := by
  induction h with
  | refl => exact ha
  | tail _ hxy ih => exact hc _ _ ih (mem_parts_of_inner? hxy)

/-! ## Retiring one field -/

/-- Removes one field and takes it from the listeners of its source. -/
def retire (tree : Tree) (id : FieldId) : Tree :=
  (tree.quit id).removeField id

theorem retire_shrinks (tree : Tree) (id : FieldId) : tree.Shrinks (tree.retire id) :=
  (Shrinks.quit tree id).trans (Shrinks.removeField _ id)

theorem live_retire (tree : Tree) (id x : FieldId) :
    (tree.retire id).Live x ↔ x ≠ id ∧ tree.Live x := by
  simp [retire, live_removeField, quit]

@[simp] theorem liveNode_retire (tree : Tree) (id : FieldId) (x : NodeId) :
    (tree.retire id).LiveNode x ↔ tree.LiveNode x := by
  show (tree.quit id).LiveNode x ↔ _
  simp [quit]

theorem mem_listeners_retire (ho : tree.InnerOlder) {id x d : FieldId} (hx : x ≠ id)
    (hl : tree.Live x) : d ∈ (tree.retire id).listeners x ↔
      d ∈ tree.listeners x ∧ ¬(d = id ∧ tree.Follows id x) := by
  rw [← mem_listeners_quit ho hl, retire, listeners_eq_read, read_removeField, if_neg hx,
    ← listeners_eq_read]

theorem link?_retire (tree : Tree) (id d : FieldId) :
    (tree.retire id).link? d = if d = id then none else tree.link? d := by
  rw [retire, link?, read_removeField]
  split
  · rfl
  · exact congrFun (link?_mapListeners _ _) d

/-- What wraps a field outside a closed set stays when members of the set go. -/
theorem Shrinks.wraps_iff (h : tree.Shrinks after) (hc : tree.OwnsClosed set)
    (hkeep : ∀ x, ¬set x → tree.Live x → after.Live x) {a x : FieldId} (hx : ¬set x) :
    ReflTransGen after.Wraps a x ↔ ReflTransGen tree.Wraps a x := by
  constructor
  · exact fun hw ↦ ReflTransGen.mono (fun _ _ ↦ h.wraps) _ _ hw
  · intro hw
    induction hw using ReflTransGen.head_induction_on with
    | refl => exact .refl
    | @head a b hab hbx ih =>
        have ha : ¬set a := fun ha ↦ hx (hc.of_wraps (hbx.head hab) ha)
        have hl : after.Live a := hkeep a ha (live_of_inner?_eq_some hab)
        exact ih.head ((h.inner? hl).trans hab)

/-- Who listens to a field outside a closed set goes on to follow it when a member goes. -/
theorem AttendedOutside.retire (ho : tree.InnerOlder) (h : tree.AttendedOutside set)
    (hc : tree.OwnsClosed set) {id : FieldId} (hid : set id) :
    (tree.retire id).AttendedOutside set := by
  have hs := retire_shrinks tree id
  have hkeep : ∀ x, ¬set x → tree.Live x → (tree.retire id).Live x := by
    intro x hx hl
    rw [live_retire]
    exact ⟨fun he ↦ hx (he ▸ hid), hl⟩
  refine ⟨fun x hx ↦ (hs.listeners x).nodup (h.nodup x hx), fun x d hx hd ↦ ?_,
    fun x ↦ (hs.nodeListeners x).nodup (h.node_nodup x), fun x d hd ↦ ?_⟩
  · obtain ⟨hne, hl⟩ := (live_retire tree id x).1 (live_of_mem_listeners hd)
    obtain ⟨hold, hnot⟩ := (mem_listeners_retire ho hne hl).1 hd
    have hf := h.follows x d hx hold
    have hd : d ≠ id := fun he ↦ hnot ⟨he, he ▸ hf⟩
    obtain ⟨s, hlink, hw⟩ := hf
    exact ⟨s, by rw [link?_retire, if_neg hd, hlink], (hs.wraps_iff hc hkeep hx).2 hw⟩
  · have hl : tree.LiveNode x := (liveNode_retire tree id x).1
      (liveNode_of_readNode_ne (List.ne_nil_of_mem hd))
    obtain ⟨hold, hnot⟩ := (mem_nodeListeners_quit hl).1 hd
    have hlink := h.node_linked x d hold
    rw [link?_retire, if_neg fun he ↦ hnot ⟨he, he ▸ hlink⟩, hlink]

theorem MirroredOutside.retire (ho : tree.Ordered) (h : tree.MirroredOutside set)
    (hc : tree.OwnsClosed set) {id : FieldId} (hid : set id) :
    (tree.retire id).MirroredOutside set := by
  have hattended := h.attended.retire ho.innerOlder hc hid
  refine ⟨hattended.nodup, fun x d hx hl ↦ ⟨hattended.follows x d hx, ?_⟩, hattended.node_nodup,
    fun x d hl ↦ ⟨hattended.node_linked x d, ?_⟩⟩
  · rintro ⟨s, hlink, hw⟩
    obtain ⟨hne, hl⟩ := (live_retire tree id x).1 hl
    rw [link?_retire] at hlink
    split at hlink
    · cases hlink
    · next hd =>
        have hf : tree.Follows d x :=
          ⟨s, hlink, ReflTransGen.mono (fun _ _ ↦ (retire_shrinks tree id).wraps) _ _ hw⟩
        exact (mem_listeners_retire ho.innerOlder hne hl).2
          ⟨(h.mem_iff x d hx hl).2 hf, fun he ↦ hd he.1⟩
  · intro hlink
    have hl : tree.LiveNode x := (liveNode_retire tree id x).1 hl
    rw [link?_retire] at hlink
    split at hlink
    · cases hlink
    · next hd =>
        exact (mem_nodeListeners_quit hl).2 ⟨(h.node_mem_iff x d hl).2 hlink, fun he ↦ hd he.1⟩

/-! ## Releasing a field -/

theorem releaseFieldWithin_of_not_live {id : FieldId} (h : ¬tree.Live id) (fuel : Nat) :
    releaseFieldWithin fuel tree id = tree := by
  cases fuel with
  | zero => rfl
  | succ fuel => simp [releaseFieldWithin, not_live_iff.1 h]

theorem releaseFieldWithin_of_live {id : FieldId} (h : tree.Live id) (fuel : Nat) :
    releaseFieldWithin (fuel + 1) tree id =
      (tree.parts id).foldl (releaseFieldWithin fuel) (tree.retire id) := by
  obtain ⟨field, hf⟩ := live_iff.1 h
  have hlink : tree.link? id = field.link := read_of_some hf _ _
  have hparts : tree.parts id = field.value.parts := read_of_some hf _ _
  simp [releaseFieldWithin, hf, retire, quit, hlink, hparts, withSource_unsubscribe]

theorem releaseFieldWithin_shrinks (fuel : Nat) (tree : Tree) (id : FieldId) :
    tree.Shrinks (releaseFieldWithin fuel tree id) := by
  induction fuel generalizing tree id with
  | zero => exact .refl tree
  | succ fuel ih =>
      by_cases hl : tree.Live id
      · rw [releaseFieldWithin_of_live hl]
        exact (retire_shrinks tree id).trans (.foldl ih _ _)
      · rw [releaseFieldWithin_of_not_live hl]
        exact .refl tree

/-- What survives the retirement of members of a closed set survives the release of one. -/
theorem releaseFieldWithin_of_retire {motive : Tree → Prop} (hc : tree.OwnsClosed set)
    (hretire : ∀ t x, tree.Shrinks t → motive t → set x → motive (t.retire x)) {id : FieldId}
    (hid : set id) (h : motive tree) (fuel : Nat) : motive (releaseFieldWithin fuel tree id) := by
  induction fuel generalizing tree id with
  | zero => exact h
  | succ fuel ih =>
      by_cases hl : tree.Live id
      · rw [releaseFieldWithin_of_live hl]
        have hret := retire_shrinks tree id
        refine (List.foldlRecOn (motive := fun t ↦ (tree.retire id).Shrinks t ∧ motive t) _ _
          ⟨.refl _, hretire tree id (.refl tree) h hid⟩ ?_).2
        intro t ⟨ht, hm⟩ part hp
        have hts := hret.trans ht
        exact ⟨ht.trans (releaseFieldWithin_shrinks fuel t part),
          ih (hts.ownsClosed hc) (fun u x hu ↦ hretire u x (hts.trans hu)) (hc id part hid hp) hm⟩
      · rwa [releaseFieldWithin_of_not_live hl]

theorem MirroredOutside.releaseFieldWithin (ho : tree.Ordered) (h : tree.MirroredOutside set)
    (hc : tree.OwnsClosed set) {id : FieldId} (hid : set id) (fuel : Nat) :
    (releaseFieldWithin fuel tree id).MirroredOutside set :=
  releaseFieldWithin_of_retire hc
    (fun _ _ hs hm hx ↦ hm.retire (hs.ordered ho) (hs.ownsClosed hc) hx) hid h fuel

/-! ## What releasing a field does -/

/-- Fields are below the field that owns them. -/
noncomputable def fieldPurge : Purge Tree FieldId :=
  .ofNumbers Live parts (fun _ _ _ ↦ live_of_mem_parts) FieldId.index
    (fun _ _ h ↦ congrArg FieldId.mk h) (·.fields.size) fun _ _ ↦ Live.lt_size

theorem Shrinks.loses_fields (h : tree.Shrinks after) : fieldPurge.Loses tree after :=
  fun _ hl ↦ ⟨h.live hl, h.parts hl⟩

theorem carried_releaseFieldWithin : fieldPurge.Carried releaseFieldWithin where
  zero _ _ := rfl
  dead fuel _ _ h := releaseFieldWithin_of_not_live h fuel
  succ fuel s a h := by
    refine ⟨s.retire a, live_retire s a, (retire_shrinks s a).loses_fields, ?_, ?_⟩
    · rw [releaseFieldWithin_of_live h]
      exact .refl _
    · rw [releaseFieldWithin_of_live h]
      exact fun _ hx ↦ hx

theorem releaseField_shrinks (tree : Tree) (id : FieldId) : tree.Shrinks (tree.releaseField id) :=
  releaseFieldWithin_shrinks _ tree id

/-- Exactly what a field holds goes with it. -/
theorem live_releaseField_iff {id x : FieldId} :
    (tree.releaseField id).Live x ↔ tree.Live x ∧ ¬tree.Holds id x :=
  carried_releaseFieldWithin.live_iff (Purge.count_ofNumbers_lt ..)

theorem listeners_releaseField_of_holds {id x : FieldId} (h : tree.Holds id x) :
    (tree.releaseField id).listeners x = [] := by
  have hdead : ¬(tree.releaseField id).Live x := fun hl ↦ (live_releaseField_iff.1 hl).2 h
  rw [listeners_eq_read, read_of_none (not_live_iff.1 hdead)]

theorem Attended.releaseField (ho : tree.InnerOlder) (h : tree.Attended) (id : FieldId) :
    (tree.releaseField id).Attended := by
  have ha : (tree.releaseField id).AttendedOutside (tree.Holds id) :=
    releaseFieldWithin_of_retire (ownsClosed_holds tree id)
      (fun _ _ hs hm hx ↦ hm.retire (hs.innerOlder ho) (hs.ownsClosed (ownsClosed_holds tree id)) hx)
      .refl (h.mono fun _ hf ↦ hf.elim) _
  refine ⟨fun x _ ↦ ?_, fun x d _ hd ↦ ?_, ha.node_nodup, ha.node_linked⟩
  · by_cases hx : tree.Holds id x
    · rw [listeners_releaseField_of_holds hx]
      exact List.nodup_nil
    · exact ha.nodup x hx
  · exact ha.follows x d (live_releaseField_iff.1 (live_of_mem_listeners hd)).2 hd

theorem Mirrored.releaseField (ho : tree.Ordered) (h : tree.Mirrored) (id : FieldId) :
    (tree.releaseField id).Mirrored := by
  have hm : (tree.releaseField id).MirroredOutside (tree.Holds id) :=
    (h.mono fun _ hf ↦ hf.elim).releaseFieldWithin ho (ownsClosed_holds tree id) .refl _
  exact ⟨(Attended.releaseField ho.innerOlder h.attended id).nodup,
    fun x d _ hl ↦ hm.mem_iff x d (live_releaseField_iff.1 hl).2 hl, hm.node_nodup,
    hm.node_mem_iff⟩

end Tree

end LightTree
