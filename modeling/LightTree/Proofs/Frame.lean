import LightTree.Proofs.CascadeRules
import LightTree.Proofs.Soundness

/-!
# What cascades leave alone

A cascade changes no node but for its listeners, whatever it is asked and however it ends. More
generally a relation between trees holds across a cascade if it holds across the few changes that
cascades are made of.
-/

namespace LightTree

def Node.bare (node : Node) : Node := { node with listeners := [] }

namespace Tree

/-! ## Changes of fields only -/

/-- The nodes of the two trees differ in their listeners at most. -/
structure SameNodes (tree after : Tree) : Prop where
  nodes_size : after.nodes.size = tree.nodes.size
  root : after.root = tree.root
  catalog : after.catalog = tree.catalog
  settings : after.settings = tree.settings
  bare : ∀ id, (after.node? id).map Node.bare = (tree.node? id).map Node.bare

variable {α : Type} {tree after last : Tree}

namespace SameNodes

theorem refl (tree : Tree) : tree.SameNodes tree :=
  ⟨rfl, rfl, rfl, rfl, fun _ ↦ rfl⟩

theorem trans (h : tree.SameNodes after) (h' : after.SameNodes last) : tree.SameNodes last where
  nodes_size := h'.nodes_size.trans h.nodes_size
  root := h'.root.trans h.root
  catalog := h'.catalog.trans h.catalog
  settings := h'.settings.trans h.settings
  bare id := (h'.bare id).trans (h.bare id)

theorem liveNode (h : tree.SameNodes after) (id : NodeId) :
    after.LiveNode id ↔ tree.LiveNode id := by
  unfold LiveNode
  rw [← Option.isSome_map (f := Node.bare), h.bare id, Option.isSome_map]

theorem readNode (h : tree.SameNodes after) {part : Node → α}
    (hpart : ∀ node, part node.bare = part node) (default : α) :
    after.readNode part default = tree.readNode part default := by
  funext id
  exact readNode_congr hpart (h.bare id) default

theorem children (h : tree.SameNodes after) : after.children = tree.children := by
  rw [children_eq_readNode, children_eq_readNode, h.readNode fun _ ↦ rfl]

theorem topFields (h : tree.SameNodes after) : after.topFields = tree.topFields := by
  rw [topFields_eq_readNode, topFields_eq_readNode, h.readNode fun _ ↦ rfl]

theorem updateField (tree : Tree) (id : FieldId) (f : Field → Field) :
    tree.SameNodes (tree.updateField id f) :=
  ⟨rfl, rfl, rfl, rfl, fun _ ↦ rfl⟩

theorem insertField (tree : Tree) (field : Field) : tree.SameNodes (tree.insertField field) :=
  ⟨rfl, rfl, rfl, rfl, fun _ ↦ rfl⟩

theorem refresh (tree : Tree) : tree.SameNodes { tree with refreshes := tree.refreshes + 1 } :=
  ⟨rfl, rfl, rfl, rfl, fun _ ↦ rfl⟩

theorem updateFields (tree : Tree) (ids : List FieldId) (f : Field → Field) :
    tree.SameNodes (tree.updateFields ids f) := by
  induction ids generalizing tree with
  | nil => exact refl tree
  | cons id ids ih => exact (updateField tree id f).trans (ih _)

theorem mapListeners (tree : Tree) (f : List FieldId → List FieldId) (source : Option Source) :
    tree.SameNodes (tree.mapListeners f source) := by
  rcases source with _ | s | s
  · exact refl tree
  · exact updateFields tree _ _
  · refine ⟨by simp, rfl, rfl, rfl, fun id ↦ ?_⟩
    simp only [Tree.mapListeners, node?_updateNode]
    split
    · cases tree.node? id <;> rfl
    · rfl

theorem relink (tree : Tree) (dependent : FieldId) (source : Option Source) :
    tree.SameNodes (tree.relink dependent source) := by
  rw [relink_eq]
  exact ((mapListeners tree _ _).trans (mapListeners _ _ source)).trans (updateField _ _ _)

theorem removeField (tree : Tree) (id : FieldId) : tree.SameNodes (tree.removeField id) :=
  ⟨rfl, rfl, rfl, rfl, fun _ ↦ rfl⟩

theorem foldl {β : Type} {f : Tree → β → Tree} (hf : ∀ (tree : Tree) b, tree.SameNodes (f tree b))
    (list : List β) (tree : Tree) : tree.SameNodes (list.foldl f tree) := by
  induction list generalizing tree with
  | nil => exact refl tree
  | cons b list ih => exact (hf tree b).trans (ih (f tree b))

theorem releaseField (tree : Tree) (id : FieldId) : tree.SameNodes (tree.releaseField id) := by
  have hwithin : ∀ (fuel : Nat) (tree : Tree) (id : FieldId),
      tree.SameNodes (releaseFieldWithin fuel tree id) := by
    intro fuel
    induction fuel with
    | zero => exact fun tree _ ↦ refl tree
    | succ fuel ih =>
        intro tree id
        by_cases hl : tree.Live id
        · rw [releaseFieldWithin_of_live hl]
          exact ((mapListeners tree _ _).trans (removeField _ id)).trans (foldl ih _ _)
        · rw [releaseFieldWithin_of_not_live hl]
          exact refl tree
  exact hwithin _ tree id

theorem releaseFields (tree : Tree) (ids : List FieldId) :
    tree.SameNodes (tree.releaseFields ids) :=
  foldl releaseField ids tree

theorem push (tree : Tree) (id : FieldId) (group : List FieldId) :
    tree.SameNodes (tree.push id group) :=
  updateField tree id _

theorem drop (tree : Tree) (id : FieldId) (f : List (List FieldId) → List (List FieldId))
    (group : List FieldId) : tree.SameNodes (tree.drop id f group) :=
  (updateField tree id _).trans (releaseFields _ group)

end SameNodes

/-! ## Changes that cascades are made of -/

/-- A relation that holds across each of the changes that cascades are made of, the refreshes of the
view apart. -/
structure Quiet (r : Tree → Tree → Prop) : Prop where
  refl : ∀ tree, r tree tree
  trans : ∀ {tree after last}, r tree after → r after last → r tree last
  insertField : ∀ tree field, field.active = true → r tree (tree.insertField field)
  relink : ∀ tree dependent source, r tree (tree.relink dependent source)
  setActive : ∀ tree id active, (tree.inner? id).isSome → r tree
    (tree.updateField id ({ · with active }))
  push : ∀ tree id group, r tree (tree.push id group)
  drop : ∀ tree id f group, r tree (tree.drop id f group)

/-- A relation that holds across each of the changes that cascades are made of. -/
structure Harmless (r : Tree → Tree → Prop) : Prop extends Quiet r where
  refresh : ∀ tree, r tree { tree with refreshes := tree.refreshes + 1 }

theorem harmless_sameNodes : Harmless SameNodes where
  refl := .refl
  trans := .trans
  insertField tree field _ := .insertField tree field
  relink := .relink
  setActive tree id _ _ := .updateField tree id _
  push := .push
  drop := .drop
  refresh := .refresh

end Tree

/-! ## Cascades -/

namespace Edit

/-- A relation holds across an edit of any tree, however it ends. -/
def Respects {α : Type} (edit : Edit α) (r : Tree → Tree → Prop) : Prop :=
  ∀ tree, edit.Meets tree (fun _ ↦ r tree) fun _ ↦ r tree

end Edit

namespace Tree.Quiet

open Edit

variable {α β : Type} {r : Tree → Tree → Prop} {visit : FieldId → Edit Unit}

theorem after (h : Quiet r) {edit : Edit α} (he : edit.Respects r) {tree mid : Tree}
    (hmid : r tree mid) : edit.Meets mid (fun _ ↦ r tree) fun _ ↦ r tree :=
  (he mid).imp (fun _ _ ↦ h.trans hmid) fun _ _ ↦ h.trans hmid

theorem forM (h : Quiet r) {visit : β → Edit Unit} (hv : ∀ b, (visit b).Respects r)
    (list : List β) : (list.forM visit).Respects r := by
  intro tree
  exact meets_forM (fun _ ↦ r tree) (fun _ ↦ id) (fun b _ _ ↦ h.after (hv b)) list tree
    (h.refl tree)

theorem rebindWith (h : Quiet r) (hv : ∀ d, (visit d).Respects r) (dependent : FieldId)
    (source : Source) : (rebindWith visit dependent source).Respects r := by
  intro tree
  rw [meets_rebindWith]
  refine ⟨fun field _ ↦ ⟨fun _ ↦ h.refl tree, fun _ ↦ ⟨fun _ _ ↦ h.refl tree, fun _ ↦ ?_⟩⟩,
    fun _ ↦ h.refl tree⟩
  refine (h.after (hv dependent) (h.relink tree dependent _)).imp (fun _ _ ↦ id) ?_
  intro fault after hafter
  rw [meets_relink]
  exact ⟨fun _ ↦ h.trans hafter (h.relink after dependent _), fun _ ↦ hafter⟩

variable {owner : NodeId}

theorem plant (h : Quiet r) (hv : ∀ d, (visit d).Respects r) (group : List FieldId)
    (container : Option FieldId) (decl : FieldDecl) (value : Value) :
    (plant visit owner group container decl value).Respects r := by
  intro tree
  rw [meets_plant]
  have hnew := h.insertField tree { name := decl.name, owner, value, container } rfl
  apply (meets_resolve owner group decl).imp
  · rintro source after ⟨rfl, _⟩
    exact ⟨fun _ ↦ hnew, fun s _ ↦ h.after (h.rebindWith hv _ s) hnew⟩
  · rintro fault after ⟨rfl, _⟩
    exact hnew

theorem instantiate (h : Quiet r) (hv : ∀ d, (visit d).Respects r) (group : List FieldId)
    (container : Option FieldId) :
    ∀ decl : FieldDecl, (instantiate visit owner group container decl).Respects r
  | .scalar _ _ => h.plant hv group container _ _
  | .choice name options => by
    intro tree
    rw [meets_instantiate_choice]
    exact ⟨fun _ ↦ h.refl tree, fun _ ↦ h.plant hv group container _ _ tree⟩
  | .list _ _ _ => h.plant hv group container _ _
  | .gated _ _ _ inner => by
    intro tree
    rw [meets_instantiate_gated]
    exact (h.instantiate hv group container inner tree).imp
      (fun _ _ ↦ h.after (h.plant hv group container _ _)) fun _ _ ↦ id

theorem instantiateGroup (h : Quiet r) (hv : ∀ d, (visit d).Respects r)
    (container : Option FieldId) (group : List FieldId) (decls : List FieldDecl) :
    (instantiateGroup visit owner container group decls).Respects r := by
  induction decls generalizing group with
  | nil => exact h.refl
  | cons decl rest ih =>
      intro tree
      rw [meets_instantiateGroup_cons]
      exact (h.instantiate hv group container decl tree).imp
        (fun id _ ↦ h.after (ih (group ++ [id]))) fun _ _ ↦ id

theorem grow (h : Quiet r) (hv : ∀ d, (visit d).Respects r) (template : List FieldDecl)
    (id : FieldId) (count : Nat) : (grow visit owner template id count).Respects r := by
  induction count with
  | zero => exact h.refl
  | succ count ih =>
      intro tree
      rw [meets_grow_succ]
      refine (h.instantiateGroup hv (some id) [] template tree).imp ?_ fun _ _ h ↦ h
      intro group after hafter
      exact ⟨fun _ ↦ h.after ih (h.trans hafter (h.push after id group)), fun _ ↦ hafter⟩

theorem shrink (h : Quiet r) (id : FieldId) (count : Nat) : (shrink id count).Respects r := by
  induction count with
  | zero => exact h.refl
  | succ count ih =>
      intro tree
      rw [meets_shrink_succ]
      exact ⟨fun field _ ↦ h.after ih (h.drop tree id (·.dropLast) _), fun _ ↦ h.refl tree⟩

theorem resize (h : Quiet r) (hv : ∀ d, (visit d).Respects r) (id : FieldId) (length : Nat) :
    (resize visit id length).Respects r := by
  intro tree
  rw [meets_resize]
  refine ⟨fun field _ ↦ ⟨fun _ template elements _ ↦ ?_, fun _ ↦ h.refl tree⟩,
    fun _ ↦ h.refl tree⟩
  exact (h.grow hv template id _ tree).imp (fun _ _ ↦ h.after (h.shrink id _)) fun _ _ h ↦ h

theorem recompute (h : Quiet r) (hv : ∀ d, (visit d).Respects r) (id : FieldId) :
    (recompute visit id).Respects r := by
  intro tree
  rw [meets_recompute]
  refine ⟨fun field hf ↦ ⟨fun source condition inner _ hvalue ↦ ?_, fun source _ _ _ _ ↦ ?_,
    fun _ ↦ h.refl tree⟩, fun _ ↦ h.refl tree⟩
  · exact h.setActive tree id _ (by simp [inner?, hf, hvalue, Value.inner?])
  · exact h.resize hv id _ tree

theorem spread (h : Quiet r) (hv : ∀ d, (visit d).Respects r) (ids : List FieldId) :
    (spread visit ids).Respects r := by
  induction ids with
  | nil => exact h.refl
  | cons id outer ih =>
      intro tree
      rw [meets_spread_cons]
      exact ⟨fun _ ↦ (h.forM hv _ tree).imp (fun _ _ ↦ h.after ih) fun _ _ h ↦ h,
        fun _ ↦ h.refl tree⟩

theorem propagate (h : Quiet r) (hv : ∀ d, (visit d).Respects r) (source : Source) :
    (propagate visit source).Respects r := by
  intro tree
  cases source with
  | children id =>
      rw [meets_propagate_children]
      exact h.forM hv _ tree
  | field id =>
      rw [meets_propagate_field]
      exact h.spread hv _ tree

/-- A cascade needs the relation to hold across those refreshes of the view that it makes. -/
theorem notify (h : Quiet r) {refresh : Bool}
    (hr : refresh = true → ∀ tree : Tree, tree.settings.coalesce = false →
      r tree { tree with refreshes := tree.refreshes + 1 }) (fuel : Nat) :
    ∀ (path : List FieldId) (id : FieldId), (notify fuel refresh path id).Respects r := by
  induction fuel generalizing refresh with
  | zero => exact fun _ _ ↦ h.refl
  | succ fuel ih =>
      intro path id tree
      rw [meets_notify_succ]
      refine ⟨fun field _ ↦ ⟨fun _ _ ↦ h.refl tree, fun _ ↦ ?_⟩, fun _ ↦ h.refl tree⟩
      have hquiet := ih (fun hfalse ↦ absurd hfalse Bool.false_ne_true) []
      refine (h.recompute hquiet id tree).imp ?_ fun _ _ h ↦ h
      intro _ after hafter
      apply h.after (h.propagate (ih hr (id :: path)) (.field id))
      split
      · next hloud =>
          rw [Bool.and_eq_true, Bool.not_eq_true'] at hloud
          exact h.trans hafter (hr hloud.1 after hloud.2)
      · exact hafter

theorem enterQuietly (h : Quiet r) (id : FieldId) : (enter false id).Respects r := by
  intro tree
  rw [enter, meets_bind, meets_get]
  exact h.notify (fun hfalse ↦ absurd hfalse Bool.false_ne_true) _ [] id tree

theorem settleQuietly (h : Quiet r) (source : Source) : (settleQuietly source).Respects r :=
  h.propagate h.enterQuietly source

end Tree.Quiet

namespace Tree.Harmless

open Edit

variable {r : Tree → Tree → Prop}

theorem notify (h : Harmless r) (fuel : Nat) (refresh : Bool) (path : List FieldId) (id : FieldId) :
    (notify fuel refresh path id).Respects r :=
  h.toQuiet.notify (fun _ tree _ ↦ h.refresh tree) fuel path id

theorem enter (h : Harmless r) (refresh : Bool) (id : FieldId) : (enter refresh id).Respects r := by
  intro tree
  rw [LightTree.enter, meets_bind, meets_get]
  exact h.notify _ refresh [] id tree

theorem settle (h : Harmless r) (source : Source) : (settle source).Respects r := by
  intro tree
  simp only [LightTree.settle, meets_bind, meets_orElseUndo, meets_refresh]
  exact (h.propagate (h.enter true) source tree).imp (fun _ after ha ↦ h.trans ha (h.refresh after))
    fun _ after ha ↦ h.trans ha (h.refresh after)

end Tree.Harmless

end LightTree
