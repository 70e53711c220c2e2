import LightTree.Tree.Walk

/-!
# The wire

A tree is sent as one line of tokens with single spaces between them: of each node its symbol, its
active fields, the number of its children where more than one is allowed, and then the children. A
list field sends the number of its elements first. What is empty or inactive sends nothing.
-/

namespace LightTree

/-- The line of some tokens. Empty ones are left out. -/
def wireLine (tokens : List String) : String :=
  String.intercalate " " (tokens.filter (· ≠ ""))

namespace Tree

/-- The tokens of a field, `depth` levels of owned fields deep. -/
def fieldTokensWithin (tree : Tree) : Nat → FieldId → List String
  | 0, _ => []
  | depth + 1, id =>
    match tree.field? id with
    | none => []
    | some field =>
      if !field.active then []
      else
        match field.value with
        | .scalar s => [s.token]
        | .choice options chosen => (options[chosen]?.map (·.value)).toList
        | .list _ _ elements =>
          toString elements.length :: elements.flatten.flatMap (tree.fieldTokensWithin depth)
        | .gated _ inner => tree.fieldTokensWithin depth inner

def fieldTokens (tree : Tree) (id : FieldId) : List String :=
  tree.fieldTokensWithin (tree.fields.size + 1) id

/-- The tokens of a node and the nodes below it, `depth` levels deep. -/
def nodeTokensWithin (tree : Tree) : Nat → NodeId → List String
  | 0, _ => []
  | depth + 1, id =>
    match tree.node? id with
    | none => []
    | some node =>
      node.kind.symbol :: node.fields.flatMap tree.fieldTokens ++
        (if node.showsCount then [toString node.children.length] else []) ++
        node.children.flatMap (tree.nodeTokensWithin depth)

def nodeTokens (tree : Tree) (id : NodeId) : List String :=
  tree.nodeTokensWithin (tree.nodes.size + 1) id

def fieldLine (tree : Tree) (id : FieldId) : String :=
  wireLine (tree.fieldTokens id)

def nodeLine (tree : Tree) (id : NodeId) : String :=
  wireLine (tree.nodeTokens id)

def line (tree : Tree) : String :=
  tree.nodeLine tree.root

end Tree

end LightTree
