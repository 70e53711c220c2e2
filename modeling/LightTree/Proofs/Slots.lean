import LightTree.Proofs.Placement
import LightTree.Proofs.Tenure

/-!
# Every field has one slot

A slot is a position at the top of a node, the inside of a gate, or a position in an element of a
list. In a tenured tree every live field occupies exactly one slot, and following the slots outwards
leads to a node, which owns the field, past the lists around it, of which the first is its
container. Removing a child therefore leaves nothing of what was below it.
-/

namespace LightTree

open Relation Edit

/-- A place for one field. -/
inductive Slot
  | top (node : NodeId) (position : Nat)
  | inner (gate : FieldId)
  | element (list : FieldId) (index position : Nat)
deriving DecidableEq, Repr

/-- The positions of a value in a list of lists without repetition are the same. -/
theorem position_unique {α : Type} {lists : List (List α)} (hn : lists.flatten.Nodup) {a : α}
    {i j i' j' : Nat} (h : lists[i]?.bind (·[j]?) = some a)
    (h' : lists[i']?.bind (·[j']?) = some a) : i = i' ∧ j = j' := by
  obtain ⟨hnodup, hapart⟩ := List.nodup_flatten.1 hn
  obtain ⟨list, hlist, hj⟩ := Option.bind_eq_some_iff.1 h
  obtain ⟨list', hlist', hj'⟩ := Option.bind_eq_some_iff.1 h'
  have hmem := List.mem_of_getElem? hj
  have hmem' := List.mem_of_getElem? hj'
  obtain ⟨hi, rfl⟩ := List.getElem?_eq_some_iff.1 hlist
  obtain ⟨hi', rfl⟩ := List.getElem?_eq_some_iff.1 hlist'
  rw [List.pairwise_iff_getElem] at hapart
  have hindex : i = i' := by
    rcases Nat.lt_trichotomy i i' with hlt | heq | hgt
    · exact absurd hmem' (hapart i i' hi hi' hlt hmem)
    · exact heq
    · exact absurd hmem (hapart i' i hi' hi hgt hmem')
  subst hindex
  obtain ⟨hlt, _⟩ := List.getElem?_eq_some_iff.1 hj
  exact ⟨rfl, (List.getElem?_inj hlt (hnodup _ (List.getElem_mem hi))).1 (hj.trans hj'.symm)⟩

namespace Tree

/-- The field in a slot. A slot of what is not alive is empty. -/
def occupant? (tree : Tree) : Slot → Option FieldId
  | .top node position => (tree.topFields node)[position]?
  | .inner gate => tree.inner? gate
  | .element list index position => (tree.elements list)[index]?.bind (·[position]?)

/-- Whether what a slot belongs to is alive. -/
def HasSlot (tree : Tree) : Slot → Prop
  | .top node _ => tree.LiveNode node
  | .inner gate => tree.Live gate
  | .element list _ _ => tree.Live list

/-- The chain of slots from a field outwards ends at a node, and its innermost list, if there is
one, is the container. -/
inductive Placed (tree : Tree) : FieldId → NodeId → Option FieldId → Prop
  | top {node : NodeId} {position : Nat} {id : FieldId}
      (slot : tree.occupant? (.top node position) = some id) : Placed tree id node none
  | inner {gate id : FieldId} {node : NodeId} {container : Option FieldId}
      (slot : tree.occupant? (.inner gate) = some id) (outer : Placed tree gate node container) :
      Placed tree id node container
  | element {list id : FieldId} {index position : Nat} {node : NodeId} {container : Option FieldId}
      (slot : tree.occupant? (.element list index position) = some id)
      (outer : Placed tree list node container) : Placed tree id node (some list)

variable {tree after : Tree} {id : FieldId}

/-! ## Occupants are owned -/

theorem parts_of_elements {list : FieldId} (h : tree.elements list ≠ []) :
    tree.parts list = (tree.elements list).flatten ∧ tree.inner? list = none := by
  obtain ⟨field, hf⟩ := live_iff.1 (live_of_read_ne h)
  rw [elements, read_of_some hf] at h
  rw [parts, elements, inner?_eq_read, read_of_some hf, read_of_some hf, read_of_some hf]
  cases hv : field.value <;> simp_all [Value.elements?, Value.parts, Value.inner?]

theorem elements_ne_nil {list : FieldId} {index position : Nat}
    (h : tree.occupant? (.element list index position) = some id) : tree.elements list ≠ [] := by
  intro hnil
  simp [occupant?, hnil] at h

theorem mem_topFields_of_occupant? {node : NodeId} {position : Nat}
    (h : tree.occupant? (.top node position) = some id) : id ∈ tree.topFields node :=
  List.mem_of_getElem? h

theorem mem_parts_of_element {list : FieldId} {index position : Nat}
    (h : tree.occupant? (.element list index position) = some id) : id ∈ tree.parts list := by
  rw [(parts_of_elements (elements_ne_nil h)).1]
  obtain ⟨group, hgroup, hid⟩ := Option.bind_eq_some_iff.1 h
  exact List.mem_flatten.2 ⟨group, List.mem_of_getElem? hgroup, List.mem_of_getElem? hid⟩

/-- What a field owns is inside it, if it is a gate, or in an element, if it is a list. -/
theorem exists_slot_of_mem_parts {owner : FieldId} (h : id ∈ tree.parts owner) :
    tree.occupant? (.inner owner) = some id ∨
      ∃ index position, tree.occupant? (.element owner index position) = some id := by
  obtain ⟨field, hf⟩ := live_iff.1 (live_of_mem_parts h)
  rw [parts, read_of_some hf] at h
  cases hv : field.value with
  | scalar | choice => simp [hv, Value.parts] at h
  | gated condition inner =>
      left
      simp only [hv, Value.parts, List.mem_singleton] at h
      simp [occupant?, inner?, hf, hv, Value.inner?, h]
  | list linked template elements =>
      right
      rw [hv] at h
      obtain ⟨group, hgroup, hid⟩ := List.mem_flatten.1 h
      obtain ⟨index, hindex⟩ := List.mem_iff_getElem?.1 hgroup
      obtain ⟨position, hposition⟩ := List.mem_iff_getElem?.1 hid
      refine ⟨index, position, ?_⟩
      simp [occupant?, Tree.elements, read_of_some hf, hv, Value.elements?, hindex, hposition]

theorem exists_slot_of_not_loose (hl : tree.Live id) (h : ¬tree.Loose id) :
    ∃ slot, tree.occupant? slot = some id := by
  by_cases htop : ∃ node, id ∈ tree.topFields node
  · obtain ⟨node, hnode⟩ := htop
    obtain ⟨position, hposition⟩ := List.mem_iff_getElem?.1 hnode
    exact ⟨.top node position, hposition⟩
  · obtain ⟨owner, howner⟩ : ∃ owner, id ∈ tree.parts owner := by
      by_contra hnone
      exact h ⟨hl, not_exists.1 hnone, not_exists.1 htop⟩
    rcases exists_slot_of_mem_parts howner with hinner | ⟨index, position, helement⟩
    · exact ⟨.inner owner, hinner⟩
    · exact ⟨.element owner index position, helement⟩

theorem hasSlot_of_occupant? {slot : Slot} (h : tree.occupant? slot = some id) :
    tree.HasSlot slot := by
  cases slot with
  | top node position =>
      have hmem := mem_topFields_of_occupant? h
      rw [topFields_eq_readNode] at hmem
      exact liveNode_of_readNode_ne (List.ne_nil_of_mem hmem)
  | inner gate => exact live_of_inner?_eq_some h
  | element list index position => exact live_of_mem_parts (mem_parts_of_element h)

theorem Owned.occupant?_live (h : tree.Owned) {slot : Slot} (hs : tree.occupant? slot = some id) :
    tree.Live id := by
  cases slot with
  | top node position => exact h.tops_live node id (mem_topFields_of_occupant? hs)
  | inner gate => exact h.inner?_live hs
  | element list index position => exact h.parts_live list id (mem_parts_of_element hs)

/-- A field occupies one slot at most. -/
theorem Owned.slot_unique (h : tree.Owned) {slot other : Slot} (hs : tree.occupant? slot = some id)
    (ho : tree.occupant? other = some id) : slot = other := by
  have htop : ∀ {node position owner}, tree.occupant? (.top node position) = some id →
      id ∉ tree.parts owner := fun ht ↦ h.tops_free _ id _ (mem_topFields_of_occupant? ht)
  have hmixed : ∀ {gate list index position}, tree.occupant? (.inner gate) = some id →
      tree.occupant? (.element list index position) ≠ some id := by
    intro gate list index position hg he
    cases h.parts_apart gate list id (mem_parts_of_inner? hg) (mem_parts_of_element he)
    exact Option.some_ne_none id (hg.symm.trans (parts_of_elements (elements_ne_nil he)).2)
  cases slot with
  | top node position =>
      cases other with
      | top node' position' =>
          cases h.tops_apart node node' id (mem_topFields_of_occupant? hs)
            (mem_topFields_of_occupant? ho)
          obtain ⟨hlt, _⟩ := List.getElem?_eq_some_iff.1 hs
          rw [(List.getElem?_inj hlt (h.tops_nodup node)).1 (hs.trans ho.symm)]
      | inner gate => exact absurd (mem_parts_of_inner? ho) (htop hs)
      | element => exact absurd (mem_parts_of_element ho) (htop hs)
  | inner gate =>
      cases other with
      | top => exact absurd (mem_parts_of_inner? hs) (htop ho)
      | inner gate' =>
          rw [h.parts_apart gate gate' id (mem_parts_of_inner? hs) (mem_parts_of_inner? ho)]
      | element => exact absurd ho (hmixed hs)
  | element list index position =>
      cases other with
      | top => exact absurd (mem_parts_of_element hs) (htop ho)
      | inner => exact absurd hs (hmixed ho)
      | element list' index' position' =>
          cases h.parts_apart list list' id (mem_parts_of_element hs) (mem_parts_of_element ho)
          have hn := (parts_of_elements (elements_ne_nil hs)).1 ▸ h.parts_nodup list
          obtain ⟨rfl, rfl⟩ := position_unique hn hs ho
          rfl

/-! ## Following slots outwards -/

theorem home?_of_some {field : Field} (hf : tree.field? id = some field) :
    tree.home? id = some (field.owner, field.container) :=
  read_of_some hf _ _

theorem shelter?_of_gate {gate : FieldId} (h : tree.inner? gate = some id) :
    tree.shelter? gate = tree.home? gate := by
  obtain ⟨field, hf⟩ := live_iff.1 (live_of_inner?_eq_some h)
  rw [inner?_eq_read, read_of_some hf] at h
  rw [shelter?, home?, read_of_some hf, read_of_some hf]
  cases hv : field.value <;> simp_all [Value.inner?, Field.shelter, Value.elements?]

theorem home?_of_element (h : tree.Homed) {list : FieldId} {index position : Nat} {field : Field}
    (hf : tree.field? list = some field)
    (hs : tree.occupant? (.element list index position) = some id) :
    tree.home? id = some (field.owner, some list) := by
  rw [h.part list id (mem_parts_of_element hs), shelter?, read_of_some hf, Field.shelter]
  have hne := elements_ne_nil hs
  rw [elements, read_of_some hf] at hne
  cases hv : field.value <;> simp_all [Value.elements?]

/-- What the slots lead to is what the field itself has. -/
theorem Homed.home?_of_placed (h : tree.Homed) {node : NodeId} {container : Option FieldId}
    (hp : tree.Placed id node container) : tree.home? id = some (node, container) := by
  induction hp with
  | top slot => exact h.top _ _ (mem_topFields_of_occupant? slot)
  | inner slot outer ih =>
      rw [h.part _ _ (mem_parts_of_inner? slot), shelter?_of_gate slot]
      exact ih
  | @element list id index position node container slot outer ih =>
      obtain ⟨field, hf⟩ := live_iff.1 (live_of_home?_eq_some ih)
      rw [home?_of_some hf, Option.some.injEq, Prod.mk.injEq] at ih
      rw [home?_of_element h hf slot, ih.1]

/-- The slots of a live field lead to a node. Each list is older than its elements, and up to the
next list each gate is newer than the field inside it. -/
theorem Tenured.placed (h : tree.Tenured) {id : FieldId} {field : Field}
    (hf : tree.field? id = some field) : tree.Placed id field.owner field.container := by
  have hhome := home?_of_some hf
  obtain ⟨slot, hs⟩ := exists_slot_of_not_loose (live_of_some hf) (h.kept id)
  cases slot with
  | top node position =>
      have hroot := h.homed.top node id (mem_topFields_of_occupant? hs)
      rw [hhome, Option.some.injEq, Prod.mk.injEq] at hroot
      rw [hroot.1, hroot.2]
      exact .top hs
  | inner gate =>
      obtain ⟨outer, ho⟩ := live_iff.1 (live_of_inner?_eq_some hs)
      have hshare : field.owner = outer.owner ∧ field.container = outer.container := by
        have hpart := h.homed.part gate id (mem_parts_of_inner? hs)
        rwa [shelter?_of_gate hs, hhome, home?_of_some ho, Option.some.injEq,
          Prod.mk.injEq] at hpart
      have hnewer := h.sound.ordered.inner_lt gate id hs
      have hsize := (live_of_some ho).lt_size
      rw [hshare.1, hshare.2]
      exact .inner hs (h.placed ho)
  | element list index position =>
      obtain ⟨outer, ho⟩ := live_iff.1 (live_of_mem_parts (mem_parts_of_element hs))
      have hlist : field.owner = outer.owner ∧ field.container = some list := by
        have helement := home?_of_element h.homed ho hs
        rwa [hhome, Option.some.injEq, Prod.mk.injEq] at helement
      have holder : ∀ c, outer.container = some c → c.index < list.index := fun c hc ↦
        h.sound.ordered.container_lt list c (by rw [container?_eq_read, read_of_some ho, hc])
      rw [hlist.1, hlist.2]
      exact .element hs (h.placed ho)
termination_by (field.container.elim 0 (·.index + 1), tree.fields.size - id.index)
decreasing_by
  · rw [hshare.2]
    exact .right _ (by omega)
  · rw [hlist.2]
    refine .left _ _ ?_
    cases hc : outer.container with
    | none => simp
    | some c => simpa using holder c hc

theorem liveNode_of_placed {node : NodeId} {container : Option FieldId}
    (hp : tree.Placed id node container) : tree.LiveNode node := by
  induction hp with
  | top slot => exact hasSlot_of_occupant? slot
  | inner _ _ ih => exact ih
  | element _ _ ih => exact ih

theorem Tenured.placed_iff (h : tree.Tenured) {field : Field} (hf : tree.field? id = some field)
    {node : NodeId} {container : Option FieldId} :
    tree.Placed id node container ↔ node = field.owner ∧ container = field.container := by
  constructor
  · intro hp
    have hhome := (h.homed.home?_of_placed hp).symm.trans (home?_of_some hf)
    rwa [Option.some.injEq, Prod.mk.injEq] at hhome
  · rintro ⟨rfl, rfl⟩
    exact h.placed hf

end Tree

/-! ## Removing a child -/

/-- The node that an operation removes with all that is below it, if it removes one. -/
def Operation.removed? : Operation → Option NodeId
  | .removeChild _ child => some child
  | .detach node => some node
  | _ => none

namespace Tree

variable {tree : Tree}

theorem heads_disown {parent child x : NodeId} (h : tree.Heads child x) :
    (tree.disown parent child).Heads child x := by
  induction h with
  | refl => exact .refl
  | @tail p c _ hc ih =>
      by_cases hchild : c = child
      · exact hchild ▸ .refl
      · refine ih.tail ?_
        by_cases hp : p = parent
        · subst hp
          rw [children_disown (liveNode_of_mem_children hc)]
          exact (List.mem_erase_of_ne hchild).2 hc
        · rwa [disown, children_eq_readNode, readNode_updateNode_of_ne (Ne.symm hp),
            ← children_eq_readNode]

theorem removeChild_clears (parent child : NodeId) :
    (removeChild parent child).Meets tree
      (fun outcome after ↦ outcome = .applied → ∀ node, tree.Heads child node →
        ¬after.LiveNode node) fun _ _ ↦ True := by
  rw [meets_removeChild]
  refine ⟨fun _ ↦ nofun, fun _ ↦ ⟨fun _ _ ↦ trivial, fun _ ↦ ?_⟩⟩
  refine ((steady_retains fun _ ↦ True).childrenChanged parent true _).imp ?_ fun _ _ _ ↦ trivial
  intro _ after hk _ node hn hlive
  have hmid := (hk.liveNode trivial).1 hlive
  exact (liveNode_releaseNode_iff.1 hmid).2 (heads_disown hn)

theorem detach_clears (child : NodeId) :
    (detach child).Meets tree
      (fun outcome after ↦ outcome = .applied → ∀ node, tree.Heads child node →
        ¬after.LiveNode node) fun _ _ ↦ True := by
  rw [meets_detach]
  exact ⟨fun _ ↦ nofun, fun parent _ ↦ removeChild_clears parent child⟩

/-- What an applied removal removes, the nodes below included, is gone. -/
theorem perform_clears {operation : Operation} {child : NodeId}
    (hremoved : operation.removed? = some child)
    (happlied : (tree.perform operation).1 = .ok (.outcome .applied)) {node : NodeId}
    (hn : tree.Heads child node) : ¬(tree.perform operation).2.LiveNode node := by
  have hmeets : operation.edit.Meets tree
      (fun answer after ↦ answer = .outcome .applied → ∀ node, tree.Heads child node →
        ¬after.LiveNode node) fun _ _ ↦ True := by
    cases operation with
    | removeChild parent node =>
        cases hremoved
        refine (meets_bind ..).2 ((removeChild_clears parent child).imp ?_ fun _ _ _ ↦ trivial)
        exact fun outcome after h ha ↦ h (Answer.outcome.inj ha)
    | detach node =>
        cases hremoved
        refine (meets_bind ..).2 ((detach_clears child).imp ?_ fun _ _ _ ↦ trivial)
        exact fun outcome after h ha ↦ h (Answer.outcome.inj ha)
    | _ => cases hremoved
  have hrun : operation.edit.runOn tree = (.ok (.outcome .applied), (tree.perform operation).2) :=
    Prod.ext happlied rfl
  exact hmeets.of_runOn_ok hrun rfl node hn

/-- After a history without faults every live field occupies exactly one slot, every slot that is
not empty holds a live field, and the slots lead from a field to its live owner and its container.
An applied removal of a child leaves neither a node nor a field of what was below it. -/
theorem owned_run {catalog : Catalog} {settings : Settings} {tree : Tree}
    {operations : List Operation} (hstart : start catalog settings = .ok tree)
    (hlive : tree.RebindsLive operations)
    (hok : ∀ answer ∈ (tree.run operations).1, ∃ a, answer = .ok a) {final : Tree}
    (hfinal : (tree.run operations).2 = final) :
    (∀ id field, final.field? id = some field →
      (∃ slot, final.HasSlot slot ∧ ∀ other, final.occupant? other = some id ↔ other = slot) ∧
      final.LiveNode field.owner ∧
      ∀ node container, final.Placed id node container ↔
        node = field.owner ∧ container = field.container) ∧
    (∀ slot id, final.occupant? slot = some id → final.Live id) ∧
    ∀ operation child, operation.removed? = some child →
      (final.perform operation).1 = .ok (.outcome .applied) →
      (∀ node, final.Heads child node → ¬(final.perform operation).2.LiveNode node) ∧
      ∀ id field, final.field? id = some field → final.Heads child field.owner →
        ¬(final.perform operation).2.Live id := by
  subst hfinal
  have h := (tenured_start hstart).run hlive hok
  refine ⟨fun id field hf ↦ ?_, fun slot id ↦ h.sound.owned.occupant?_live, ?_⟩
  · obtain ⟨slot, hs⟩ := exists_slot_of_not_loose (live_of_some hf) (h.kept id)
    refine ⟨⟨slot, hasSlot_of_occupant? hs, fun other ↦ ⟨fun ho ↦ ?_, fun he ↦ he ▸ hs⟩⟩,
      liveNode_of_placed (h.placed hf), fun node container ↦ h.placed_iff hf⟩
    exact h.sound.owned.slot_unique ho hs
  · intro operation child hremoved happlied
    have hgone : ∀ node, (tree.run operations).2.Heads child node →
        ¬((tree.run operations).2.perform operation).2.LiveNode node :=
      fun _ ↦ perform_clears hremoved happlied
    refine ⟨hgone, fun id field hf hhead hl ↦ ?_⟩
    have hnames : operation.NamesLive (tree.run operations).2 := by
      cases operation with
      | rebind => cases hremoved
      | _ => trivial
    -- A field that is left would still name its owner, and its owner would be alive.
    obtain ⟨new, hn⟩ := live_iff.1 hl
    have howner : new.owner = field.owner := by
      have hhome := (lasting_abides.perform _ operation).home? (live_of_some hf) hl
      rw [home?_of_some hn, home?_of_some hf, Option.some.injEq, Prod.mk.injEq] at hhome
      exact hhome.1
    exact hgone _ hhead (howner ▸ liveNode_of_placed ((h.perform hnames happlied).placed hn))

/-- The first colour of an object stands in the list inside the gate of the colours and nowhere
else. It goes when the object is detached. -/
theorem owned_run_standard :
    (∀ slot, (standardTree.run (standardHistory ++ [.appendElement ⟨6⟩])).2.occupant? slot =
      some ⟨7⟩ ↔ slot = .element ⟨5⟩ 0 0) ∧
    (standardTree.run (standardHistory ++ [.appendElement ⟨6⟩])).2.Placed ⟨7⟩ ⟨1⟩ (some ⟨5⟩) ∧
    ¬((standardTree.run (standardHistory ++ [.appendElement ⟨6⟩])).2.perform
      (.detach ⟨1⟩)).2.Live ⟨7⟩ := by
  have hlive : standardTree.RebindsLive (standardHistory ++ [.appendElement ⟨6⟩]) :=
    ⟨trivial, trivial, rfl, trivial, trivial⟩
  have hok : ∀ answer ∈ (standardTree.run (standardHistory ++ [.appendElement ⟨6⟩])).1,
      ∃ a, answer = .ok a := by
    have hanswers : (standardTree.run (standardHistory ++ [.appendElement ⟨6⟩])).1 =
        [.ok (.outcome .applied), .ok .done, .ok .done, .ok (.element [⟨7⟩])] := by
      decide +kernel
    simp [hanswers]
  have hf : (standardTree.run (standardHistory ++ [.appendElement ⟨6⟩])).2.field? ⟨7⟩ =
      some { name := "color", owner := ⟨1⟩, value := .scalar (.color "000000"),
             container := some ⟨5⟩ } := by
    decide +kernel
  have hs : (standardTree.run (standardHistory ++ [.appendElement ⟨6⟩])).2.occupant?
      (.element ⟨5⟩ 0 0) = some ⟨7⟩ := by
    decide +kernel
  obtain ⟨hfields, -, hremoved⟩ := owned_run start_standard hlive hok rfl
  obtain ⟨⟨slot, -, hslot⟩, -, hplaced⟩ := hfields ⟨7⟩ _ hf
  have happlied : ((standardTree.run (standardHistory ++ [.appendElement ⟨6⟩])).2.perform
      (.detach ⟨1⟩)).1 = .ok (.outcome .applied) := by
    decide +kernel
  obtain ⟨-, hgone⟩ := hremoved (.detach ⟨1⟩) ⟨1⟩ rfl happlied
  refine ⟨?_, (hplaced _ _).2 ⟨rfl, rfl⟩, hgone ⟨7⟩ _ hf .refl⟩
  rwa [← (hslot (.element ⟨5⟩ 0 0)).1 hs] at hslot

end Tree

end LightTree
