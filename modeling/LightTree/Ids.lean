/-!
# Identities of nodes and fields

Both count from zero in the order of allocation. A field is shown with a number sign.
-/

namespace LightTree

structure NodeId where
  index : Nat
deriving DecidableEq, Repr, Inhabited

structure FieldId where
  index : Nat
deriving DecidableEq, Repr, Inhabited

def NodeId.show (id : NodeId) : String :=
  toString id.index

def FieldId.show (id : FieldId) : String :=
  "#" ++ toString id.index

/-- The first identities that are handed out, in order. -/
def NodeId.first (count : Nat) : List NodeId :=
  (List.range count).map NodeId.mk

@[simp] theorem NodeId.length_first (count : Nat) : (NodeId.first count).length = count := by
  simp [NodeId.first]

end LightTree
