import LightTree.Proofs.Pruning
import LightTree.Proofs.Settlement
import LightTree.Proofs.Tenure

/-!
# Rehearsed cascades do not fail

A cascade ends as its rehearsal does if its fields tell, on the way, no dependent that they did not
tell when it was rehearsed, and if no state that it derives can fail. The linked lists of a settled
tree are as long as their sources, so after a change that makes no source longer the cascade builds
nothing and only thins the tree out. An operation that does not grow the tree and fails has
therefore changed nothing at all.
-/

namespace LightTree

open Relation Edit

namespace Tree

variable {base tree after : Tree} {within : FieldId → Prop} {inv : Tree → Prop}
  {visit : FieldId → Edit Unit} {id : FieldId}

/-! ## Following a rehearsal -/

/-- The fields of a set tell no dependent that they did not tell in the first tree. -/
structure Echoes (base : Tree) (within : FieldId → Prop) (tree : Tree) : Prop
    extends base.Abides tree where
  settings : tree.settings = base.settings
  listeners : ∀ id, within id → tree.listeners id ⊆ base.listeners id

/-- An invariant of the cascades among the fields of a set that have been rehearsed in a tree: no
change leads out of the set, and deriving the state of a field does not fail. -/
structure Rehearses (base : Tree) (within : FieldId → Prop) (inv : Tree → Prop) : Prop where
  ordered : base.Ordered
  issued : ∀ x, within x → x.index < base.fields.size
  closed : ∀ x y, within x → base.Feeds x y → within y
  echoes : ∀ tree, inv tree → base.Echoes within tree
  refreshed : ∀ tree, inv tree → inv tree.refreshed
  recompute : ∀ tree fuel id, inv tree → within id → tree.Live id →
    (recompute (notify fuel false []) id).Meets tree (fun _ ↦ inv) fun _ _ ↦ False

/-- Where the cascade of a source begins: at a field of the set, or at listeners of a node that are
in the set and were told before. -/
def Begins (base : Tree) (within : FieldId → Prop) (tree : Tree) : Source → Prop
  | .field id => within id
  | .children node => ∀ d ∈ tree.nodeListeners node, d ∈ base.nodeListeners node ∧ within d

theorem audience_children (tree : Tree) (node : NodeId) :
    tree.audience (.children node) = tree.nodeListeners node := by
  simp only [audience, nodeListeners, readNode]
  cases tree.node? node <;> rfl

theorem Sound.begins_children (h : base.Sound) {node : NodeId}
    (hsub : tree.nodeListeners node ⊆ base.nodeListeners node) :
    base.Begins (·.index < base.fields.size) tree (.children node) := by
  intro d hd
  have hd := hsub hd
  have hlive : base.LiveNode node := liveNode_of_readNode_ne (List.ne_nil_of_mem hd)
  exact ⟨hd, (live_of_link?_eq_some ((h.mirrored.node_mem_iff node d hlive).1 hd)).lt_size⟩

/-- A rehearsal that ends well has passed the guard and ends well for all that it tells. -/
theorem rehearseWithin_succ_eq_ok {fuel : Nat} {path : List FieldId} {field : Field}
    (hf : tree.field? id = some field) (h : tree.rehearseWithin (fuel + 1) path id = .ok ()) :
    tree.guard path id field = .ok () ∧
      ∀ d ∈ tree.audience (.field id), tree.rehearseWithin fuel (id :: path) d = .ok () := by
  rw [rehearseWithin, hf] at h
  cases hg : tree.guard path id field with
  | error fault =>
      simp only [hg] at h
      cases h
  | ok u =>
      simp only [hg] at h
      exact ⟨rfl, eq_ok_of_forM_eq_ok h⟩

theorem Echoes.guard_eq (h : base.Echoes within tree) (path : List FieldId) {field old : Field}
    (hf : tree.field? id = some field) (ho : base.field? id = some old) :
    tree.guard path id field = base.guard path id old := by
  obtain ⟨old', ho', houtline⟩ := h.field id field (live_of_some ho).lt_size hf
  rw [ho] at ho'
  cases ho'
  have hname : field.outline.name = old.outline.name := by rw [houtline]
  change field.name = old.name at hname
  unfold guard
  rw [h.settings, hname]

namespace Rehearses

/-- The lists around a field of the set were around it before. -/
theorem mem_enclosing (h : base.Rehearses within inv) (ht : inv tree) (hid : within id)
    {c : FieldId} (hc : c ∈ tree.enclosing id) : within c ∧ c ∈ base.enclosing id := by
  have hreach : ReflTransGen (fun a b ↦ tree.container? a = some b) id c :=
    reflTransGen_of_mem_chain hc
  have hbase : within c ∧ ReflTransGen (fun a b ↦ base.container? a = some b) id c := by
    clear hc
    induction hreach with
    | refl => exact ⟨hid, .refl⟩
    | @tail a b _ hab ih =>
        obtain ⟨ha, hreach⟩ := ih
        have hold : base.container? a = some b := by
          rw [← hab, container?_eq_read, container?_eq_read]
          exact ((h.echoes tree ht).read (fun _ ↦ rfl) (h.issued a ha)
            (live_of_container?_eq_some hab) none).symm
        exact ⟨h.closed a b ha (feeds_iff.2 (.inr hold)), hreach.tail hold⟩
  exact ⟨hbase.1, mem_chain_of_reflTransGen FieldId.index h.ordered.container_lt
    (Nat.le_of_lt (h.issued id hid)) hbase.2⟩

theorem spread (h : base.Rehearses within inv) {ids : List FieldId} (hids : ∀ c ∈ ids, within c)
    (hv : ∀ c ∈ ids, ∀ d ∈ base.listeners c, (visit d).Carries inv fun _ _ ↦ False)
    (ht : inv tree) : (spread visit ids).Meets tree (fun _ ↦ inv) fun _ _ ↦ False := by
  induction ids generalizing tree with
  | nil => exact ht
  | cons c outer ih =>
      rw [meets_spread_cons]
      have hc := List.forall_mem_cons.1 hv
      have hin := List.forall_mem_cons.1 hids
      refine ⟨fun _ ↦ ?_, fun _ ↦ ht⟩
      have hlisteners : ((tree.listeners c).forM visit).Carries inv fun _ _ ↦ False :=
        carries_forM fun d hd ↦ hc.1 d ((h.echoes tree ht).listeners c hin.1 hd)
      exact (hlisteners tree ht).imp (fun _ _ ha ↦ ih hin.2 hc.2 ha) fun _ _ hf ↦ hf

/-- A cascade tells no dependent that its rehearsal has not told. -/
theorem propagate (h : base.Rehearses within inv) {source : Source}
    (hbegin : base.Begins within tree source)
    (hv : ∀ d ∈ base.audience source, within d → (visit d).Carries inv fun _ _ ↦ False)
    (ht : inv tree) : (propagate visit source).Meets tree (fun _ ↦ inv) fun _ _ ↦ False := by
  cases source with
  | children node =>
      rw [meets_propagate_children]
      rw [audience_children] at hv
      exact carries_forM (fun d hd ↦ hv d (hbegin d hd).1 (hbegin d hd).2) tree ht
  | field id =>
      rw [meets_propagate_field]
      refine h.spread (fun c hc ↦ (h.mem_enclosing ht hbegin hc).1) (fun c hc d hd ↦ ?_) ht
      obtain ⟨hin, hbase⟩ := h.mem_enclosing ht hbegin hc
      exact hv d (List.mem_flatMap.2 ⟨c, hbase, hd⟩) (h.closed c d hin (feeds_iff.2 (.inl hd)))

/-- A visit that was rehearsed does not fail. The induction is on the fuel of the rehearsal, so the
cascade needs no more fuel than that. -/
theorem notify (h : base.Rehearses within inv) {rounds fuel : Nat} (hfuel : rounds ≤ fuel)
    (refresh : Bool) {path : List FieldId} (hid : within id)
    (hr : base.rehearseWithin rounds path id = .ok ()) :
    (notify fuel refresh path id).Carries inv fun _ _ ↦ False := by
  induction rounds generalizing fuel path id with
  | zero => cases hr
  | succ rounds ih =>
      obtain ⟨fuel, rfl⟩ := Nat.exists_eq_add_of_lt hfuel
      intro tree ht
      rw [meets_notify_succ]
      refine ⟨fun field hf ↦ ?_, fun _ ↦ ht⟩
      have hechoes := h.echoes tree ht
      have hlive := live_of_some hf
      obtain ⟨old, ho⟩ := live_iff.1 (hechoes.live (h.issued id hid) hlive)
      obtain ⟨hguard, haudience⟩ := rehearseWithin_succ_eq_ok ho hr
      rw [← hechoes.guard_eq path hf ho] at hguard
      refine ⟨fun fault hfault ↦ ?_, fun _ ↦ ?_⟩
      · rw [hguard] at hfault
        cases hfault
      · refine (h.recompute tree _ id ht hid hlive).imp (fun _ mid hmid ↦ ?_) fun _ _ hf ↦ hf
        have hrest : ∀ last, inv last →
            (LightTree.propagate (LightTree.notify (rounds + fuel) refresh (id :: path))
              (.field id)).Meets last (fun _ ↦ inv) fun _ _ ↦ False := fun last hlast ↦
          h.propagate hid (fun d hd hin ↦ ih (Nat.le_add_right rounds fuel) hin (haudience d hd))
            hlast
        split
        · exact hrest _ (h.refreshed mid hmid)
        · exact hrest mid hmid

theorem enter (h : base.Rehearses within inv) (refresh : Bool) (hid : within id)
    (hr : base.rehearseEntry id = .ok ()) :
    (enter refresh id).Carries inv fun _ _ ↦ False := by
  intro tree ht
  rw [LightTree.enter, meets_bind, meets_get]
  refine h.notify ?_ refresh hid hr tree ht
  have hbudget : (tree.fields.size + 1) * 2 ≤ (tree.fields.size + 1) * (tree.templateWeight + 2) :=
    Nat.mul_le_mul_left _ (Nat.le_add_left 2 _)
  have hsize := (h.echoes tree ht).fields_size
  unfold cascadeBudget
  omega

section

variable (h : base.Rehearses within inv) {source : Source}
  (hbegin : base.Begins within tree source) (hr : base.rehearse source = .ok ()) (ht : inv tree)

include h hbegin hr ht

theorem cascade (refresh : Bool) :
    (LightTree.propagate (LightTree.enter refresh) source).Meets tree (fun _ ↦ inv)
      fun _ _ ↦ False :=
  h.propagate hbegin (fun d hd hin ↦ h.enter refresh hin (eq_ok_of_forM_eq_ok hr d hd)) ht

theorem settle : (settle source).Meets tree (fun _ ↦ inv) fun _ _ ↦ False := by
  rw [meets_settle]
  exact (h.cascade hbegin hr ht true).imp (fun _ after ha ↦ h.refreshed after ha) fun _ _ hf ↦ hf

end

theorem childrenChanged (h : base.Rehearses within inv) {parent : NodeId} (refresh : Bool)
    (hbegin : base.Begins within tree (.children parent))
    (hr : base.rehearse (.children parent) = .ok ()) (ht : inv tree) :
    (childrenChanged parent refresh).Meets tree (fun _ ↦ inv) fun _ _ ↦ False := by
  unfold LightTree.childrenChanged
  split
  · exact h.settle hbegin hr ht
  · exact h.cascade hbegin hr ht false

end Rehearses

/-! ## Trees that only thin out -/

/-- A tree that has thinned out since a rehearsal and whose linked lists are long enough. -/
structure Calm (base tree : Tree) : Prop where
  thins : base.Thins tree
  sound : tree.Sound
  homed : tree.Homed
  ample : tree.Ample

theorem Calm.refreshed (h : base.Calm tree) : base.Calm tree.refreshed :=
  ⟨h.thins.trans (.refreshed tree), h.sound.refresh, (Houses.refresh h.homed).homed,
    h.ample.of_elements (.refreshed tree) fun _ _ ↦ rfl⟩

/-- A list outlives the elements that it gives up, so it can give up as many as it is asked to. -/
theorem shrink_housed (h : tree.Sound) (hm : tree.Homed) (hlinked : tree.isLinked id = true)
    (count : Nat) :
    (shrink id count).Meets tree (fun _ ↦ Housed) fun _ _ ↦ False := by
  induction count generalizing tree with
  | zero => exact ⟨h, hm⟩
  | succ count ih =>
      rw [meets_shrink_succ]
      have hlive := live_of_isLinked hlinked
      refine ⟨fun field hf ↦ ?_, fun hnone ↦ not_live_iff.2 hnone hlive⟩
      obtain ⟨elements, hv⟩ := elements?_of_isLinked hlinked hf
      have hsplit := splits_dropLast field.value
      have hp : tree.Prunes (tree.drop id (·.dropLast)
          ((field.value.elements?.bind (·.getLast?)).getD [])) := .dropLast (fun _ ↦ hlinked) _
      have hleft := h.live_drop hm hf hv hsplit
      exact ih (h.drop hf hsplit) (hm.drop h hf hsplit) ((hp.isLinked hleft).trans hlinked)

/-- Deriving the state of a field does not fail where every list is long enough. -/
theorem Calm.recompute (h : base.Calm tree) (hlive : tree.Live id) :
    (recompute visit id).Meets tree (fun _ ↦ base.Calm) fun _ _ ↦ False := by
  have hhoused : (LightTree.recompute visit id).Meets tree (fun _ ↦ Housed) fun _ _ ↦ False := by
    rw [meets_recompute]
    refine ⟨fun field hf ↦ ⟨fun source condition _ _ _ ↦ ?_,
      fun source template elements hlink hv ↦ ?_, fun _ ↦ ⟨h.sound, h.homed⟩⟩,
      fun hnone ↦ not_live_iff.2 hnone hlive⟩
    · exact ⟨h.sound.setActive id _, (Houses.setActive h.sound h.homed id _).homed⟩
    · have hlinked := isLinked_of_list hf hv
      have henough := h.ample id source hlinked (by rw [link?, read_of_some hf, hlink])
      rw [meets_resize]
      refine ⟨fun field' hf' ↦ ⟨fun linked' template' elements' hv' ↦ ?_, fun hnone ↦ ?_⟩,
        fun hnone ↦ not_live_iff.2 hnone hlive⟩
      · rw [elements_of_some hf' (congrArg Value.elements? hv')] at henough
        rw [Nat.sub_eq_zero_of_le henough]
        exact shrink_housed h.sound h.homed hlinked _
      · cases Option.some.inj (hf.symm.trans hf')
        rw [hv] at hnone
        cases hnone
  refine (hhoused.and h.ample.recompute).imp ?_ fun _ _ hfalse ↦ hfalse.1
  rintro _ after ⟨hafter, hp, hample⟩
  exact ⟨h.thins.trans hp.toThins, hafter.sound, hafter.homed, hample⟩

theorem Sound.rehearses_calm (h : base.Sound) :
    base.Rehearses (·.index < base.fields.size) base.Calm where
  ordered := h.ordered
  issued _ hx := hx
  closed _ _ _ hxy := h.lt_size_of_feeds hxy
  echoes _ ht := ⟨ht.thins.toAbides, ht.thins.settings, fun x _ ↦ ht.thins.listeners x⟩
  refreshed _ ht := ht.refreshed
  recompute _ _ _ ht _ hlive := ht.recompute hlive

end Tree

end LightTree
