import LightTree.Proofs.Hierarchy
import LightTree.Proofs.Escapes
import LightTree.Wire

/-!
# What a tree shows

A field shows its value, or nothing while it is inactive, and a node shows its category, its symbol,
what its fields show and the nodes below it. The line of a tree is made of what the root shows and
of nothing else.
-/

namespace LightTree

open Relation

/-! ## Fields -/

inductive Shown
  | nothing
  | scalar (value : Scalar)
  | option (value : String)
  | list (elements : List (List Shown))

namespace Shown

mutual

def tokens : Shown → List String
  | nothing => []
  | scalar s => [s.token]
  | option value => [value]
  | list elements => toString elements.length :: elementsTokens elements

def elementsTokens : List (List Shown) → List String
  | [] => []
  | element :: rest => groupTokens element ++ elementsTokens rest

def groupTokens : List Shown → List String
  | [] => []
  | shown :: rest => tokens shown ++ groupTokens rest

end

theorem groupTokens_eq_flatMap (group : List Shown) : groupTokens group = group.flatMap tokens := by
  induction group with
  | nil => rfl
  | cons shown rest ih => rw [groupTokens, ih, List.flatMap_cons]

theorem elementsTokens_eq_flatMap (elements : List (List Shown)) :
    elementsTokens elements = elements.flatten.flatMap tokens := by
  induction elements with
  | nil => rfl
  | cons element rest ih =>
      rw [elementsTokens, ih, groupTokens_eq_flatMap, List.flatten_cons, List.flatMap_append]

end Shown

/-- What a value shows, given what the fields in it show. A gate shows what the field inside it
shows. -/
def Value.shows (inside : FieldId → Shown) : Value → Shown
  | scalar s => .scalar s
  | choice options chosen =>
    match options[chosen]? with
    | some option => .option option.value
    | none => .nothing
  | list _ _ elements => .list (elements.map (·.map inside))
  | gated _ inner => inside inner

namespace Tree

/-- What a field shows, `depth` levels of owned fields deep. -/
def shownWithin (tree : Tree) : Nat → FieldId → Shown
  | 0, _ => .nothing
  | depth + 1, id =>
    match tree.field? id with
    | none => .nothing
    | some field =>
      if field.active then field.value.shows (tree.shownWithin depth) else .nothing

def shown (tree : Tree) (id : FieldId) : Shown :=
  tree.shownWithin (tree.fields.size + 1) id

variable {tree : Tree}

theorem shownWithin_of_some {id : FieldId} {field : Field} (hf : tree.field? id = some field)
    (depth : Nat) : tree.shownWithin (depth + 1) id =
      if field.active then field.value.shows (tree.shownWithin depth) else .nothing := by
  rw [shownWithin, hf]

theorem tokens_shownWithin (depth : Nat) (id : FieldId) :
    (tree.shownWithin depth id).tokens = tree.fieldTokensWithin depth id := by
  induction depth generalizing id with
  | zero => rfl
  | succ depth ih =>
      rw [shownWithin, fieldTokensWithin]
      cases tree.field? id with
      | none => rfl
      | some field =>
          cases ha : field.active with
          | false => simp [ha, Shown.tokens]
          | true =>
              cases hv : field.value with
              | scalar s => simp [ha, hv, Value.shows, Shown.tokens]
              | choice options chosen =>
                  cases ho : options[chosen]? <;> simp [ha, hv, ho, Value.shows, Shown.tokens]
              | list linked template elements =>
                  simp [ha, hv, Value.shows, Shown.tokens, Shown.elementsTokens_eq_flatMap,
                    ← List.map_flatten, List.flatMap_map, ih]
              | gated condition inner => simp [ha, hv, Value.shows, ih]

theorem tokens_shown (id : FieldId) : (tree.shown id).tokens = tree.fieldTokens id :=
  tokens_shownWithin _ id

end Tree

/-! ## Nodes -/

inductive Content
  | node (category : Category) (symbol : String) (fields : List Shown) (children : List Content)

/-- Whether nodes of a category with a symbol send the number of their children. -/
def Catalog.showsCount (catalog : Catalog) (category : Category) (symbol : String) : Bool :=
  (catalog.find? category symbol).any fun kind ↦ Node.showsCount { kind }

namespace Content

def symbol : Content → String
  | node _ symbol _ _ => symbol

mutual

def tokens (catalog : Catalog) : Content → List String
  | node category symbol fields children =>
    symbol :: fields.flatMap Shown.tokens ++
      (if catalog.showsCount category symbol then [toString children.length] else []) ++
      childTokens catalog children

def childTokens (catalog : Catalog) : List Content → List String
  | [] => []
  | child :: rest => tokens catalog child ++ childTokens catalog rest

end

theorem childTokens_eq_flatMap (catalog : Catalog) (children : List Content) :
    childTokens catalog children = children.flatMap (tokens catalog) := by
  induction children with
  | nil => rfl
  | cons child rest ih => rw [childTokens, ih, List.flatMap_cons]

end Content

namespace Tree

/-- What a node and all nodes below it show, if these end within `depth` levels. -/
def contentWithin (tree : Tree) : Nat → NodeId → Option Content
  | 0, _ => none
  | depth + 1, id => do
    let node ← tree.node? id
    let children ← node.children.mapM (tree.contentWithin depth)
    return .node node.kind.category node.kind.symbol (node.fields.map tree.shown) children

/-- What a tree shows at the root and below it. -/
def content (tree : Tree) : Option Content :=
  tree.contentWithin (tree.nodes.size + 1) tree.root

end Tree

end LightTree
