import LightTree.Proofs.Housing
import LightTree.Proofs.UpToDate

/-!
# Trees that thin out

A tree thins out when fields, nodes, children, elements and listeners are taken away and nothing is
added. Sources get shorter then, never longer: a linked list that is long enough for its source
stays so as long as it loses none of its own elements. A list outlives the elements it drops.
-/

namespace LightTree

open Relation

namespace Value

def isLinked : Value → Bool
  | list linked _ _ => linked
  | _ => false

theorem isLinked_frame (value : Value) : value.frame.isLinked = value.isLinked := by
  cases value <;> rfl

theorem inner?_frame (value : Value) : value.frame.inner? = value.inner? := by
  cases value <;> rfl

theorem elements?_mapElements (f : List (List FieldId) → List (List FieldId)) (value : Value) :
    (value.mapElements f).elements? = value.elements?.map f := by
  cases value <;> rfl

theorem isLinked_replaceLeaf {new : Value} (h : new.IsLeaf) (old : Value) :
    (new.replaceLeaf old).isLinked = old.isLinked := by
  cases new with
  | scalar | choice => cases old <;> rfl
  | list | gated => exact h.elim

theorem elements?_replaceLeaf {new : Value} (h : new.IsLeaf) (old : Value) :
    (new.replaceLeaf old).elements? = old.elements? := by
  cases new with
  | scalar | choice => cases old <;> rfl
  | list | gated => exact h.elim

end Value

namespace Tree

def isLinked (tree : Tree) : FieldId → Bool :=
  tree.read (·.value.isLinked) false

/-- The second tree is the first one without some fields, nodes, children, elements and
listeners. -/
structure Thins (tree after : Tree) : Prop extends tree.Abides after where
  size_eq : after.fields.size = tree.fields.size
  settings : after.settings = tree.settings
  link : ∀ id, after.Live id → after.link? id = tree.link? id
  listeners : ∀ id, after.listeners id ⊆ tree.listeners id
  elements : ∀ id, (after.elements id).length ≤ (tree.elements id).length
  nodeListeners : ∀ id, after.nodeListeners id ⊆ tree.nodeListeners id
  children : ∀ id, (after.children id).length ≤ (tree.children id).length

variable {tree after last : Tree} {id : FieldId}

theorem live_of_isLinked (h : tree.isLinked id = true) : tree.Live id :=
  live_of_read_ne (ne_of_eq_of_ne h nofun)

theorem isLinked_of_some {field : Field} (hf : tree.field? id = some field) :
    tree.isLinked id = field.value.isLinked := by
  rw [isLinked, read_of_some hf]

theorem list_of_isLinked (h : tree.isLinked id = true) {field : Field}
    (hf : tree.field? id = some field) :
    ∃ template elements, field.value = .list true template elements := by
  rw [isLinked_of_some hf] at h
  cases hv : field.value with
  | list linked template elements =>
      rw [hv] at h
      cases h
      exact ⟨template, elements, rfl⟩
  | scalar | choice | gated =>
      rw [hv] at h
      cases h

theorem elements?_of_isLinked (h : tree.isLinked id = true) {field : Field}
    (hf : tree.field? id = some field) : ∃ elements, field.value.elements? = some elements := by
  obtain ⟨template, elements, hv⟩ := list_of_isLinked h hf
  exact ⟨elements, congrArg Value.elements? hv⟩

theorem isLinked_of_list {field : Field} (hf : tree.field? id = some field)
    {template : List FieldDecl} {elements : List (List FieldId)}
    (hv : field.value = .list true template elements) : tree.isLinked id = true := by
  rw [isLinked_of_some hf, hv]
  rfl

theorem Abides.isLinked (h : tree.Abides after) (hid : tree.Live id) (hl : after.Live id) :
    after.isLinked id = tree.isLinked id :=
  h.read (fun field ↦ field.value.isLinked_frame) hid.lt_size hl false

namespace Thins

theorem refl (tree : Tree) : tree.Thins tree where
  toAbides := .refl tree
  size_eq := rfl
  settings := rfl
  link _ _ := rfl
  listeners _ := List.Subset.refl _
  elements _ := Nat.le_refl _
  nodeListeners _ := List.Subset.refl _
  children _ := Nat.le_refl _

theorem live (h : tree.Thins after) (hl : after.Live id) : tree.Live id :=
  h.toAbides.live (h.size_eq ▸ hl.lt_size) hl

theorem trans (h : tree.Thins after) (h' : after.Thins last) : tree.Thins last where
  toAbides := h.toAbides.trans h'.toAbides
  size_eq := h'.size_eq.trans h.size_eq
  settings := h'.settings.trans h.settings
  link id hl := (h'.link id hl).trans (h.link id (h'.live hl))
  listeners id := List.Subset.trans (h'.listeners id) (h.listeners id)
  elements id := (h'.elements id).trans (h.elements id)
  nodeListeners id := List.Subset.trans (h'.nodeListeners id) (h.nodeListeners id)
  children id := (h'.children id).trans (h.children id)

theorem isLinked (h : tree.Thins after) (hl : after.Live id) :
    after.isLinked id = tree.isLinked id :=
  h.toAbides.isLinked (h.live hl) hl

theorem inner? (h : tree.Thins after) (hl : after.Live id) : after.inner? id = tree.inner? id := by
  rw [inner?_eq_read, inner?_eq_read]
  exact h.read (fun field ↦ field.value.inner?_frame) (h.live hl).lt_size hl none

/-! ### Steps -/

theorem of_shrinks (h : tree.Shrinks after) : tree.Thins after where
  toAbides := .of_shrinks h
  size_eq := h.fields_size
  settings := h.settings
  link _ := h.link?
  listeners id := (h.listeners id).subset
  elements id := by
    by_cases hl : after.Live id
    · rw [Tree.elements, h.read_eq (fun _ _ ↦ rfl) hl, Tree.elements]
    · rw [Tree.elements, read_of_none (not_live_iff.1 hl)]
      exact Nat.zero_le _
  nodeListeners id := (h.nodeListeners id).subset
  children id := by
    rw [children_eq_readNode, children_eq_readNode]
    by_cases hl : after.LiveNode id
    · rw [h.readNode_eq (fun _ _ ↦ rfl) hl]
    · rw [readNode_of_none (not_liveNode_iff.1 hl)]
      exact Nat.zero_le _

theorem updateField {f : Field → Field} (hf : Retouches f)
    (hab : tree.Abides (tree.updateField id f))
    (hlength : ∀ field, ((f field).value.elements?.getD []).length ≤
      (field.value.elements?.getD []).length) : tree.Thins (tree.updateField id f) where
  toAbides := hab
  size_eq := size_updateField tree id f
  settings := rfl
  link x _ := congrFun (link?_updateField hf.link id) x
  listeners x := by
    rw [listeners_updateField hf.listeners]
    exact List.Subset.refl _
  elements x := by
    unfold Tree.elements read
    rw [field?_updateField]
    split
    · cases tree.field? x with
      | none => exact Nat.le_refl _
      | some field => exact hlength field
    · exact Nat.le_refl _
  nodeListeners _ := List.Subset.refl _
  children _ := Nat.le_refl _

theorem setActive (tree : Tree) (id : FieldId) (active : Bool) :
    tree.Thins (tree.updateField id ({ · with active })) :=
  updateField (retouches_setActive active) (.setActive tree id active) fun _ ↦ Nat.le_refl _

theorem setValue {field : Field} {value : Value} (hf : tree.field? id = some field)
    (hold : field.value.IsLeaf) (hnew : value.IsLeaf) :
    tree.Thins (tree.updateField id ({ · with value })) := by
  have hab := Abides.setValue hf hold hnew
  rw [updateField_value hf hold] at hab ⊢
  refine updateField (retouches_replaceLeaf hnew) hab fun old ↦ ?_
  rw [Value.elements?_replaceLeaf hnew]

theorem drop (tree : Tree) (id : FieldId) {f : List (List FieldId) → List (List FieldId)}
    (hf : ∀ list, (f list).length ≤ list.length) (group : List FieldId) :
    tree.Thins (tree.drop id f group) := by
  refine (updateField (retouches_mapElements f) (.mapElements tree id f) fun field ↦ ?_).trans
    (of_shrinks (releaseFields_shrinks _ group))
  rw [Value.elements?_mapElements]
  cases field.value.elements? with
  | none => exact Nat.le_refl _
  | some elements => exact hf elements

theorem refreshed (tree : Tree) : tree.Thins tree.refreshed :=
  { refl tree with }

theorem updateNode (tree : Tree) (node : NodeId) {f : Node → Node}
    (hlisteners : ∀ n, (f n).listeners = n.listeners)
    (hchildren : ∀ n, (f n).children.length ≤ n.children.length) :
    tree.Thins (tree.updateNode node f) where
  toAbides := .of_field? rfl rfl
  size_eq := rfl
  settings := rfl
  link _ _ := rfl
  listeners _ := List.Subset.refl _
  elements _ := Nat.le_refl _
  nodeListeners id := by
    rw [Tree.nodeListeners, readNode_updateNode_of_keeps hlisteners]
    exact List.Subset.refl _
  children id := by
    rw [children_eq_readNode, children_eq_readNode]
    unfold readNode
    rw [node?_updateNode]
    split
    · cases tree.node? id with
      | none => exact Nat.le_refl _
      | some n => exact hchildren n
    · exact Nat.le_refl _

theorem disown (tree : Tree) (parent child : NodeId) : tree.Thins (tree.disown parent child) :=
  updateNode tree parent (fun _ ↦ rfl) fun _ ↦ List.erase_sublist.length_le

theorem supplant (tree : Tree) (parent old new : NodeId) :
    tree.Thins (tree.supplant parent old new) := by
  refine (updateNode tree parent ?_ fun _ ↦ List.length_replace.le).trans
    (updateNode _ new ?_ fun _ ↦ Nat.le_refl _) <;> exact fun _ ↦ rfl

end Thins

/-! ## Lists that are long enough -/

theorem listLength_eq (tree : Tree) (id : FieldId) :
    tree.listLength id = (tree.elements (tree.unwrap id)).length := by
  unfold listLength elements read
  cases tree.field? (tree.unwrap id) with
  | none => rfl
  | some field =>
      cases hv : field.value.elements? <;> simp [hv]

theorem listLength_of_not_live (h : ¬tree.Live id) : tree.listLength id = 0 := by
  have hinner : tree.inner? id = none := by
    rw [inner?_eq_read, read_of_none (not_live_iff.1 h)]
  have hunwrap : tree.unwrap id = id := by simp [unwrap, layers, chain_of_none hinner]
  rw [listLength_eq, hunwrap, elements, read_of_none (not_live_iff.1 h)]
  rfl

theorem sourceLength_of_not_live {source : Source} (h : ¬tree.SourceLive source) :
    tree.sourceLength source = 0 := by
  cases source with
  | field s => exact listLength_of_not_live h
  | children node =>
      rw [sourceLength, children_eq_readNode, readNode_of_none (not_liveNode_iff.1 h)]
      rfl

theorem Thins.unwrap_eq_or (h : tree.Thins after) (id : FieldId) :
    after.unwrap id = tree.unwrap id ∨ ¬after.Live (after.unwrap id) := by
  have hgone : ∀ x, ¬after.Live x → after.inner? x = none := fun x hx ↦ by
    rw [inner?_eq_read, read_of_none (not_live_iff.1 hx)]
  have hchain := getLast_chain_eq_or (fun _ ↦ h.inner?) hgone tree.fields.size id
  simp only [unwrap, layers, h.size_eq]
  exact hchain

theorem Thins.sourceLength_le (h : tree.Thins after) (source : Source) :
    after.sourceLength source ≤ tree.sourceLength source := by
  cases source with
  | children node => exact h.children node
  | field s =>
      rw [sourceLength, sourceLength, listLength_eq, listLength_eq]
      rcases h.unwrap_eq_or s with heq | hgone
      · rw [heq]
        exact h.elements _
      · rw [Tree.elements, read_of_none (not_live_iff.1 hgone)]
        exact Nat.zero_le _

/-- Every linked list has at least as many elements as its source asks for. -/
def Ample (tree : Tree) : Prop :=
  ∀ id source, tree.isLinked id = true → tree.link? id = some source →
    tree.sourceLength source ≤ (tree.elements id).length

theorem UpToDate.length_eq (h : tree.UpToDate id) {source : Source}
    (hlinked : tree.isLinked id = true) (hlink : tree.link? id = some source)
    (hlive : tree.SourceLive source) : (tree.elements id).length = tree.sourceLength source := by
  obtain ⟨field, hf⟩ := live_iff.1 (live_of_isLinked hlinked)
  obtain ⟨template, elements, hv⟩ := list_of_isLinked hlinked hf
  rw [link?, read_of_some hf] at hlink
  rw [elements_of_some hf (congrArg Value.elements? hv)]
  exact (h field source hf hlink hlive).2 template elements hv

theorem UpToDate.sourceLength_le (h : tree.UpToDate id) {source : Source}
    (hlinked : tree.isLinked id = true) (hlink : tree.link? id = some source) :
    tree.sourceLength source ≤ (tree.elements id).length := by
  by_cases hs : tree.SourceLive source
  · exact (h.length_eq hlinked hlink hs).ge
  · rw [sourceLength_of_not_live hs]
    exact Nat.zero_le _

theorem ample_of_upToDate (h : ∀ id, tree.UpToDate id) : tree.Ample :=
  fun id _ ↦ (h id).sourceLength_le

/-- What thins out leaves lists long enough that keep what their source asked for. -/
theorem Thins.ample (h : tree.Thins after)
    (hkeep : ∀ id source, after.isLinked id = true → tree.link? id = some source →
      tree.sourceLength source ≤ (after.elements id).length) : after.Ample := by
  intro id source hlinked hlink
  have hl := live_of_isLinked hlinked
  exact (h.sourceLength_le source).trans (hkeep id source hlinked (h.link id hl ▸ hlink))

theorem Ample.of_elements (hample : tree.Ample) (h : tree.Thins after)
    (hsame : ∀ id, after.isLinked id = true → after.elements id = tree.elements id) :
    after.Ample := by
  refine h.ample fun id source hlinked hlink ↦ ?_
  rw [hsame id hlinked]
  exact hample id source (h.isLinked (live_of_isLinked hlinked) ▸ hlinked) hlink

theorem elements_of_shrinks (h : tree.Shrinks after) (hl : after.Live id) :
    after.elements id = tree.elements id :=
  h.read_eq (fun _ _ ↦ rfl) hl []

theorem elements_drop_of_ne {list : FieldId} {f : List (List FieldId) → List (List FieldId)}
    {group : List FieldId} (hne : id ≠ list) (hl : (tree.drop list f group).Live id) :
    (tree.drop list f group).elements id = tree.elements id := by
  rw [Tree.drop, elements_of_shrinks (releaseFields_shrinks _ group) hl]
  exact read_updateField_of_ne (Ne.symm hne) []

theorem elements_drop_self {field : Field} (hf : tree.field? id = some field)
    {elements : List (List FieldId)} (hv : field.value.elements? = some elements)
    {f : List (List FieldId) → List (List FieldId)} {group : List FieldId}
    (hl : (tree.drop id f group).Live id) : (tree.drop id f group).elements id = f elements := by
  rw [Tree.drop, elements_of_shrinks (releaseFields_shrinks _ group) hl]
  simp [Tree.elements, read, field?_updateField, hf, Value.elements?_mapElements, hv]

/-! ## A list outlives its elements -/

/-- The containers of what an element of a list holds lead to the list. -/
theorem Homed.containers_of_holds (h : tree.Homed) {list : FieldId} {owner : NodeId}
    (hlist : tree.shelter? list = some (owner, some list)) {x y : FieldId}
    (hx : x ∈ tree.parts list) (hy : tree.Holds x y) :
    TransGen (fun a b ↦ tree.container? a = some b) y list := by
  induction hy with
  | refl => exact .single (container?_of_home? ((h.part list x hx).trans hlist))
  | @tail y z _ hz ih =>
      obtain ⟨field, hf⟩ := live_iff.1 (live_of_mem_parts hz)
      have hhome := h.part y z hz
      rw [shelter?, read_of_some hf] at hhome
      have hcontainer := container?_of_home? hhome
      by_cases he : field.value.elements?.isSome
      · exact .head (by rw [hcontainer, Field.shelter, if_pos he]) ih
      · have hsame : tree.container? z = tree.container? y := by
          rw [hcontainer, Field.shelter, if_neg he, container?_eq_read, read_of_some hf]
        obtain ⟨c, hc, hrest⟩ := TransGen.head'_iff.1 ih
        exact TransGen.head' (hsame.trans hc) hrest

theorem Ordered.lt_of_containers (h : tree.Ordered) {a b : FieldId}
    (hab : TransGen (fun a b ↦ tree.container? a = some b) a b) : b.index < a.index := by
  induction hab with
  | single hc => exact h.container_lt _ _ hc
  | tail _ hc ih => exact (h.container_lt _ _ hc).trans ih

theorem Sound.live_drop (h : tree.Sound) (hm : tree.Homed) {field : Field}
    (hf : tree.field? id = some field) {elements : List (List FieldId)}
    (hv : field.value.elements? = some elements)
    {f : List (List FieldId) → List (List FieldId)} {group : List FieldId}
    (hsplit : Splits f group field.value) : (tree.drop id f group).Live id := by
  have hlist : tree.shelter? id = some (field.owner, some id) := by
    rw [shelter?, read_of_some hf, Field.shelter, hv]
    rfl
  refine live_releaseFields_iff.2
    ⟨(live_updateField tree id _ id).2 (live_of_some hf), fun x hx hh ↦ ?_⟩
  have hpart := mem_parts_of_mem_dropped hf hsplit hx
  have hholds : tree.Holds x id :=
    ReflTransGen.mono (fun _ _ ↦ mem_parts_of_mem_kept hf hsplit) _ _ hh
  have hcontainers := hm.containers_of_holds hlist hpart hholds
  exact Nat.lt_irrefl _ (h.ordered.lt_of_containers hcontainers)

end Tree

end LightTree
