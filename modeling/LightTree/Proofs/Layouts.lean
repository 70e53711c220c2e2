import LightTree.Proofs.Abiding
import LightTree.Proofs.Reachable
import Mathlib.Algebra.Order.BigOperators.Group.List
import Mathlib.Algebra.Order.Group.Nat

/-!
# Layouts of what a cascade adds

The fields that a cascade adds are laid out in the order of their declarations. Each has a stretch
of positions: the fields in the elements of a list lie inside the stretch of the list, a gate ends
behind the field inside it, and what listens to a new field begins behind it. The fields from before
the cascade span all positions. Positions go no further than the declarations that elements are
built from.
-/

namespace LightTree

open Relation

/-- Where the stretch of each field starts and stops. -/
structure Layout where
  start : FieldId → Nat
  stop : FieldId → Nat

namespace Layout

/-- Lays out one more field. -/
def put (layout : Layout) (id : FieldId) (start stop : Nat) : Layout where
  start := Function.update layout.start id start
  stop := Function.update layout.stop id stop

/-- Every field spans all positions. -/
def flat (width : Nat) : Layout :=
  ⟨fun _ ↦ 0, fun _ ↦ width⟩

/-- The second layout keeps the stretches of the fields that have been handed out. -/
def Extends (layout layout' : Layout) (size : Nat) : Prop :=
  ∀ x : FieldId, x.index < size →
    layout'.start x = layout.start x ∧ layout'.stop x = layout.stop x

variable {layout : Layout} {id x : FieldId} {start stop : Nat}

@[simp] theorem start_put_self : (layout.put id start stop).start id = start :=
  Function.update_self ..

@[simp] theorem stop_put_self : (layout.put id start stop).stop id = stop :=
  Function.update_self ..

theorem start_put_of_ne (h : x ≠ id) : (layout.put id start stop).start x = layout.start x :=
  Function.update_of_ne h ..

theorem stop_put_of_ne (h : x ≠ id) : (layout.put id start stop).stop x = layout.stop x :=
  Function.update_of_ne h ..

theorem Extends.refl (layout : Layout) (size : Nat) : layout.Extends layout size :=
  fun _ _ ↦ ⟨rfl, rfl⟩

theorem Extends.put (tree : Tree) (layout : Layout) (start stop : Nat) :
    layout.Extends (layout.put tree.nextField start stop) tree.fields.size := by
  intro x hx
  have hne := Tree.ne_nextField_of_lt_size hx
  exact ⟨start_put_of_ne hne, stop_put_of_ne hne⟩

end Layout

theorem Value.weight_frame (value : Value) : value.frame.weight = value.weight := by
  cases value <;> rfl

namespace Tree

/-- The number of declarations that elements of a field are built from. -/
def weight (tree : Tree) : FieldId → Nat :=
  tree.read (·.value.weight) 0

/-- A tree on the way of a cascade with a layout of its fields. The first tree is the one that the
cascade began with. -/
structure LaidOut (base : Tree) (layout : Layout) (tree : Tree) : Prop extends tree.Sound where
  size_le : base.fields.size ≤ tree.fields.size
  tops : ∀ node x, x ∈ tree.topFields node → x.index < base.fields.size
  old : ∀ x : FieldId, x.index < base.fields.size →
    layout.start x = 0 ∧ layout.stop x = base.templateWeight
  start_le : ∀ x, layout.start x ≤ layout.stop x
  stop_le : ∀ x, layout.stop x ≤ base.templateWeight
  weight : ∀ x, tree.Live x → layout.start x + tree.weight x ≤ layout.stop x
  container : ∀ x c, base.fields.size ≤ x.index → tree.container? x = some c →
    layout.start c < layout.start x ∧ layout.stop x ≤ layout.stop c
  inner : ∀ x y, base.fields.size ≤ x.index → tree.inner? x = some y →
    layout.stop y ≤ layout.stop x
  listeners : ∀ x d, base.fields.size ≤ x.index → d ∈ tree.listeners x →
    layout.stop x < layout.start d

/-- No field comes to feed one of those that are under way. -/
def Avoids (pending : Finset FieldId) (tree after : Tree) : Prop :=
  ∀ a ∈ pending, ∀ b, ReflTransGen after.Feeds b a → ReflTransGen tree.Feeds b a

/-- Part of a cascade lays out what it adds and avoids the fields under way. -/
structure Proceeds (base : Tree) (pending : Finset FieldId) (layout : Layout) (tree : Tree)
    (layout' : Layout) (after : Tree) : Prop where
  size_le : tree.fields.size ≤ after.fields.size
  avoids : Avoids pending tree after
  keeps : layout.Extends layout' tree.fields.size
  laidOut : base.LaidOut layout' after

variable {base tree mid after : Tree} {layout layout' layout'' : Layout}
  {pending : Finset FieldId} {id x y c : FieldId}

/-! ## The first tree -/

theorem weight_of_some {field : Field} (hf : tree.field? id = some field) :
    tree.weight id = field.value.weight :=
  read_of_some hf _ _

theorem weight_le_templateWeight (hid : tree.Live id) : tree.weight id ≤ tree.templateWeight := by
  obtain ⟨field, hf⟩ := live_iff.1 hid
  have hmem : (id, field) ∈ tree.liveFields :=
    List.mem_map.2 ⟨(id.index, field), Store.mem_live_iff.2 hf, rfl⟩
  rw [weight_of_some hf]
  exact List.le_sum_of_mem (List.mem_map_of_mem hmem)

/-- Before a cascade adds anything, every field spans all positions. -/
theorem Sound.laidOut (h : tree.Sound) : tree.LaidOut (.flat tree.templateWeight) tree where
  toSound := h
  size_le := Nat.le_refl _
  tops node x hx := (h.owned.tops_live node x hx).lt_size
  old _ _ := ⟨rfl, rfl⟩
  start_le _ := Nat.zero_le _
  stop_le _ := Nat.le_refl _
  weight _ hx := (Nat.zero_add _).trans_le (weight_le_templateWeight hx)
  container _ _ hx hc := absurd (live_of_container?_eq_some hc).lt_size (Nat.not_lt_of_le hx)
  inner _ _ hx hy := absurd (live_of_inner?_eq_some hy).lt_size (Nat.not_lt_of_le hx)
  listeners _ _ hx hd := absurd (live_of_mem_listeners hd).lt_size (Nat.not_lt_of_le hx)

/-! ## Reading a layout -/

namespace LaidOut

theorem stop_le_of_container (h : base.LaidOut layout tree) (hc : tree.container? x = some c) :
    layout.stop x ≤ layout.stop c := by
  by_cases hx : base.fields.size ≤ x.index
  · exact (h.container x c hx hc).2
  · have hx := Nat.lt_of_not_le hx
    have hlt := Nat.lt_trans (h.ordered.container_lt x c hc) hx
    rw [(h.old x hx).2, (h.old c hlt).2]

theorem stop_le_of_enclosing (h : base.LaidOut layout tree) (hc : c ∈ tree.enclosing x) :
    layout.stop x ≤ layout.stop c := by
  have hreach := reflTransGen_of_mem_chain hc
  clear hc
  induction hreach with
  | refl => exact Nat.le_refl _
  | tail _ hc ih => exact ih.trans (h.stop_le_of_container hc)

theorem stop_le_of_wraps (h : base.LaidOut layout tree) (hy : base.fields.size ≤ y.index)
    (hw : ReflTransGen tree.Wraps x y) : layout.stop y ≤ layout.stop x := by
  induction hw using ReflTransGen.head_induction_on with
  | refl => exact Nat.le_refl _
  | head hxz hzy ih =>
      have hnew := hy.trans (h.ordered.le_of_wraps (hzy.head hxz))
      exact ih.trans (h.inner _ _ hnew hxz)

end LaidOut

/-! ## Parts of cascades -/

theorem Avoids.refl (pending : Finset FieldId) (tree : Tree) : Avoids pending tree tree :=
  fun _ _ _ h ↦ h

theorem Avoids.trans (h : Avoids pending tree mid) (h' : Avoids pending mid after) :
    Avoids pending tree after :=
  fun a ha b hb ↦ h a ha b (h' a ha b hb)

theorem Avoids.of_feeds (h : ∀ a b, after.Feeds a b → tree.Feeds a b) :
    Avoids pending tree after :=
  fun _ _ _ hb ↦ ReflTransGen.mono h _ _ hb

/-- New edges into a field that leads to nothing under way spare what is under way. -/
theorem Avoids.of_new_edges {sources : FieldId → Prop} {target : FieldId}
    (hr : ∀ a b, after.Feeds a b → tree.Feeds a b ∨ sources a ∧ b = target)
    (hclear : ∀ a ∈ pending, ¬ReflTransGen tree.Feeds target a) : Avoids pending tree after := by
  intro a ha b hb
  rcases reflTransGen_iff_eq_or_transGen.1 hb with rfl | hb
  · exact .refl
  · rcases transGen_split_of_new_edges hr hb with hb | ⟨_, hb⟩
    · exact hb.to_reflTransGen
    · exact absurd hb (hclear a ha)

theorem Avoids.mono {fewer : Finset FieldId} (h : Avoids pending tree after)
    (hsub : fewer ⊆ pending) : Avoids fewer tree after :=
  fun a ha ↦ h a (hsub ha)

namespace Proceeds

theorem refl (h : base.LaidOut layout tree) : base.Proceeds pending layout tree layout tree where
  size_le := Nat.le_refl _
  avoids := .refl pending tree
  keeps := .refl layout _
  laidOut := h

theorem trans (h : base.Proceeds pending layout tree layout' mid)
    (h' : base.Proceeds pending layout' mid layout'' after) :
    base.Proceeds pending layout tree layout'' after where
  size_le := h.size_le.trans h'.size_le
  avoids := h.avoids.trans h'.avoids
  keeps x hx := by
    obtain ⟨hstart, hstop⟩ := h.keeps x hx
    obtain ⟨hstart', hstop'⟩ := h'.keeps x (Nat.lt_of_lt_of_le hx h.size_le)
    exact ⟨hstart'.trans hstart, hstop'.trans hstop⟩
  laidOut := h'.laidOut

theorem start_eq (h : base.Proceeds pending layout tree layout' after)
    (hx : x.index < tree.fields.size) : layout'.start x = layout.start x :=
  (h.keeps x hx).1

theorem stop_eq (h : base.Proceeds pending layout tree layout' after)
    (hx : x.index < tree.fields.size) : layout'.stop x = layout.stop x :=
  (h.keeps x hx).2

theorem mono {fewer : Finset FieldId} (h : base.Proceeds pending layout tree layout' after)
    (hsub : fewer ⊆ pending) : base.Proceeds fewer layout tree layout' after :=
  { h with avoids := h.avoids.mono hsub }

end Proceeds

/-! ## Steps -/

/-- A change that adds no field and no listener, and leaves the nodes and the outlines alone. -/
theorem LaidOut.proceeds (h : base.LaidOut layout tree) (ha : after.Sound)
    (habides : tree.Abides after) (hsize : after.fields.size = tree.fields.size)
    (hnodes : tree.SameNodes after) (hlisteners : ∀ x, after.listeners x ⊆ tree.listeners x) :
    base.Proceeds pending layout tree layout after := by
  have hissued : ∀ {x}, after.Live x → x.index < tree.fields.size := fun hl ↦ hsize ▸ hl.lt_size
  have hcontainer : ∀ {x c}, after.container? x = some c → tree.container? x = some c := by
    intro x c hc
    have hl := live_of_container?_eq_some hc
    rw [container?_eq_read] at hc ⊢
    exact (habides.read (fun _ ↦ rfl) (hissued hl) hl none).symm.trans hc
  have hinner : ∀ {x y}, after.inner? x = some y → tree.inner? x = some y := by
    intro x y hy
    have hl := live_of_inner?_eq_some hy
    rw [inner?_eq_read] at hy ⊢
    refine (habides.read (fun field ↦ ?_) (hissued hl) hl none).symm.trans hy
    cases hv : field.value <;> simp [Field.outline, Value.frame, Value.inner?, hv]
  refine ⟨hsize.ge, .of_feeds fun a b hab ↦ ?_, .refl layout _, ?_⟩
  · rw [feeds_iff] at hab ⊢
    exact hab.imp (fun hb ↦ hlisteners a hb) hcontainer
  · exact
    { toSound := ha
      size_le := h.size_le.trans_eq hsize.symm
      tops := fun node x hx ↦ h.tops node x (hnodes.topFields ▸ hx)
      old := h.old
      start_le := h.start_le
      stop_le := h.stop_le
      weight := fun x hx ↦ by
        have hweight : after.weight x = tree.weight x :=
          habides.read (fun field ↦ field.value.weight_frame) (hissued hx) hx 0
        rw [hweight]
        exact h.weight x (habides.live (hissued hx) hx)
      container := fun x c hx hc ↦ h.container x c hx (hcontainer hc)
      inner := fun x y hx hy ↦ h.inner x y hx (hinner hy)
      listeners := fun x d hx hd ↦ h.listeners x d hx (hlisteners x hd) }

theorem LaidOut.setActive (h : base.LaidOut layout tree) (id : FieldId) (active : Bool) :
    base.Proceeds pending layout tree layout (tree.updateField id ({ · with active })) := by
  refine h.proceeds (h.toSound.setActive id active) (.setActive tree id active)
    (size_updateField tree id _) (.updateField tree id _) fun x ↦ ?_
  rw [listeners_updateField (retouches_setActive active).listeners]
  exact List.Subset.refl _

theorem LaidOut.push (h : base.LaidOut layout tree) (id : FieldId) {group : List FieldId}
    (hnodup : group.Nodup) (hloose : ∀ x ∈ group, tree.Loose x) :
    base.Proceeds pending layout tree layout (tree.push id group) := by
  refine h.proceeds (h.toSound.push id hnodup hloose) (.mapElements tree id _)
    (size_updateField tree id _) (.push tree id group) fun x ↦ ?_
  rw [Tree.push, listeners_updateField (retouches_mapElements _).listeners]
  exact List.Subset.refl _

theorem LaidOut.drop (h : base.LaidOut layout tree) {field : Field}
    (hf : tree.field? id = some field) {f : List (List FieldId) → List (List FieldId)}
    {group : List FieldId} (hsplit : Splits f group field.value) :
    base.Proceeds pending layout tree layout (tree.drop id f group) := by
  refine h.proceeds (h.toSound.drop hf hsplit) (.drop tree id f group)
    (Region.fields_size_drop tree id f group) (.drop tree id f group) fun x d hd ↦ ?_
  have hd := ((releaseFields_shrinks _ group).listeners x).subset hd
  rwa [listeners_updateField (retouches_mapElements f).listeners] at hd

theorem LaidOut.refresh (h : base.LaidOut layout tree) :
    base.Proceeds pending layout tree layout { tree with refreshes := tree.refreshes + 1 } :=
  h.proceeds h.toSound.refresh (.of_field? rfl rfl) rfl (.refresh tree)
    fun _ ↦ List.Subset.refl _

section

variable {field : Field} {start stop : Nat}

/-- A new field that is put into a list feeds the list only. -/
theorem Avoids.insertField (hlisteners : field.listeners = []) (hc : field.container = some c)
    (hclear : ∀ a ∈ pending, ¬ReflTransGen tree.Feeds c a) :
    Avoids pending tree (tree.insertField field) := by
  have hnew : ∀ a b, (tree.insertField field).Feeds a b →
      tree.Feeds a b ∨ a = tree.nextField ∧ b = c := by
    intro a b hab
    refine (feeds_insertField hlisteners hab).imp_right fun ⟨ha, hb⟩ ↦ ⟨ha, ?_⟩
    exact (Option.some.inj (hc.symm.trans hb)).symm
  exact .of_new_edges hnew hclear

/-- A new field that is put into a list starts behind it and stops with it at the latest. -/
theorem LaidOut.put (h : base.LaidOut layout tree) (ha : (tree.insertField field).Sound)
    (hlisteners : field.listeners = []) (hc : field.container = some c)
    (hstart : layout.start c < start) (hweight : start + field.value.weight ≤ stop)
    (hstop : stop ≤ layout.stop c)
    (hinner : ∀ y, field.value.inner? = some y → layout.stop y ≤ stop) :
    base.LaidOut (layout.put tree.nextField start stop) (tree.insertField field) := by
  have hkept := Layout.Extends.put tree layout start stop
  have holder : ∀ {x y : FieldId}, (tree.insertField field).Live x → y.index < x.index →
      y.index < tree.fields.size := fun hx hy ↦
    Nat.lt_of_lt_of_le hy (Nat.le_of_lt_succ (hx.lt_size.trans_eq (size_insertField tree field)))
  refine ⟨ha, h.size_le.trans (by simp), h.tops, ?old, ?start_le, ?stop_le, ?weight, ?container,
    ?inner, ?listeners⟩
  case old =>
    intro x hx
    obtain ⟨hstart, hstop⟩ := hkept x (Nat.lt_of_lt_of_le hx h.size_le)
    rw [hstart, hstop]
    exact h.old x hx
  case start_le =>
    intro x
    by_cases hx : x = tree.nextField
    · rw [hx, Layout.start_put_self, Layout.stop_put_self]
      exact (Nat.le_add_right _ _).trans hweight
    · rw [Layout.start_put_of_ne hx, Layout.stop_put_of_ne hx]
      exact h.start_le x
  case stop_le =>
    intro x
    by_cases hx : x = tree.nextField
    · rw [hx, Layout.stop_put_self]
      exact hstop.trans (h.stop_le c)
    · rw [Layout.stop_put_of_ne hx]
      exact h.stop_le x
  case weight =>
    intro x hl
    rw [Tree.weight, read_insertField]
    by_cases hx : x = tree.nextField
    · rw [if_pos hx, hx, Layout.start_put_self, Layout.stop_put_self]
      exact hweight
    · rw [if_neg hx, Layout.start_put_of_ne hx, Layout.stop_put_of_ne hx]
      exact h.weight x (((live_insertField tree field x).1 hl).resolve_left hx)
  case container =>
    intro x d hnew hd
    obtain ⟨hstart', hstop'⟩ := hkept d
      (holder (live_of_container?_eq_some hd) (ha.ordered.container_lt x d hd))
    rw [container?_eq_read, read_insertField] at hd
    rw [hstart', hstop']
    by_cases hx : x = tree.nextField
    · rw [if_pos hx, hc] at hd
      cases hd
      rw [hx, Layout.start_put_self, Layout.stop_put_self]
      exact ⟨hstart, hstop⟩
    · rw [if_neg hx, ← container?_eq_read] at hd
      rw [Layout.start_put_of_ne hx, Layout.stop_put_of_ne hx]
      exact h.container x d hnew hd
  case inner =>
    intro x y hnew hy
    obtain ⟨_, hstop'⟩ := hkept y
      (holder (live_of_inner?_eq_some hy) (ha.ordered.inner_lt x y hy))
    rw [inner?_eq_read, read_insertField] at hy
    rw [hstop']
    by_cases hx : x = tree.nextField
    · rw [if_pos hx] at hy
      rw [hx, Layout.stop_put_self]
      exact hinner y hy
    · rw [if_neg hx, ← inner?_eq_read] at hy
      rw [Layout.stop_put_of_ne hx]
      exact h.inner x y hnew hy
  case listeners =>
    intro x d hnew hd
    rw [listeners_eq_read, read_insertField] at hd
    by_cases hx : x = tree.nextField
    · rw [if_pos hx, hlisteners] at hd
      exact absurd hd List.not_mem_nil
    · rw [if_neg hx, ← listeners_eq_read] at hd
      rw [(hkept d (h.mirrored.live_of_mem hd).lt_size).1, Layout.stop_put_of_ne hx]
      exact h.listeners x d hnew hd

theorem LaidOut.insertField (h : base.LaidOut layout tree)
    (ha : (tree.insertField field).Sound) (hlisteners : field.listeners = [])
    (hc : field.container = some c) (hclear : ∀ a ∈ pending, ¬ReflTransGen tree.Feeds c a)
    (hstart : layout.start c < start) (hweight : start + field.value.weight ≤ stop)
    (hstop : stop ≤ layout.stop c)
    (hinner : ∀ y, field.value.inner? = some y → layout.stop y ≤ stop) :
    base.Proceeds pending layout tree (layout.put tree.nextField start stop)
      (tree.insertField field) where
  size_le := (Nat.le_succ _).trans_eq (size_insertField tree field).symm
  avoids := .insertField hlisteners hc hclear
  keeps := .put tree layout start stop
  laidOut := h.put ha hlisteners hc hstart hweight hstop hinner

end

/-- A dependent that leads to nothing under way is linked to fields that stop before it. -/
theorem LaidOut.relink (h : base.LaidOut layout tree) {dependent : FieldId} {source : Source}
    (ha : (tree.relink dependent (some source)).Sound)
    (hclear : ∀ a ∈ pending, ¬ReflTransGen tree.Feeds dependent a)
    (hstop : ∀ x, base.fields.size ≤ x.index → tree.Covers (some source) x →
      layout.stop x < layout.start dependent) :
    base.Proceeds pending layout tree layout (tree.relink dependent (some source)) := by
  have hnew : ∀ a b, (tree.relink dependent (some source)).Feeds a b →
      tree.Feeds a b ∨ (tree.Live a ∧ tree.Covers (some source) a) ∧ b = dependent := fun a b ↦
    feeds_relink h.ordered
  refine ⟨(fields_size_relink dependent _).ge, .of_new_edges hnew hclear, .refl layout _, ?_⟩
  refine ⟨ha, h.size_le.trans_eq (fields_size_relink dependent _).symm, fun node x hx ↦ ?_, h.old,
    h.start_le, h.stop_le, fun x hx ↦ ?_, fun x c hx hc ↦ ?_, fun x y hx hy ↦ ?_, fun x d hx hd ↦ ?_⟩
  · rw [(SameNodes.relink tree dependent (some source)).topFields] at hx
    exact h.tops node x hx
  · rw [Tree.weight, read_relink dependent _ fun _ _ _ ↦ rfl]
    exact h.weight x ((live_relink dependent _ x).1 hx)
  · rw [container?_relink] at hc
    exact h.container x c hx hc
  · rw [inner?_relink] at hy
    exact h.inner x y hx hy
  · have hl := (live_relink dependent _ x).1 (live_of_mem_listeners hd)
    rcases (mem_listeners_relink h.ordered.innerOlder hl).1 hd with ⟨hd, _⟩ | ⟨rfl, hcovers⟩
    · exact h.listeners x d hx hd
    · exact hstop x hx hcovers

end Tree

end LightTree
