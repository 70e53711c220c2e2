import LightTree.Fault
import LightTree.Schema.Decl

/-!
# Checking node kinds

The names of a group of declarations differ. A dependency names a field declared before it, in the
same group or in a group around it, so the fields of a node can be built in order. The elements of
a list form a group of their own; the field inside a gated one belongs to the group of its gate.
-/

namespace LightTree

namespace FieldDecl

/-- Whether the field that a declaration depends on is in scope. -/
def checkSource (scope : List String) (decl : FieldDecl) : Except Fault Unit :=
  match decl.dependency? with
  | some source => if source ∈ scope then .ok () else .error (.unknownSource decl.name source)
  | none => .ok ()

mutual

/-- Checks a declaration after those of `declared` in its group, with the names of `outer` around
the group. -/
def check (outer declared : List String) : FieldDecl → Except Fault Unit
  | scalar .. => .ok ()
  | choice name options =>
    if options.isEmpty then .error (.schema (.noOptions name)) else .ok ()
  | list name rule element => do
    checkSource (outer ++ declared) (.list name rule element)
    checkGroup (outer ++ declared) [] element
  | gated name source condition inner => do
    checkSource (outer ++ declared) (.gated name source condition inner)
    check outer declared inner

/-- Checks the rest of a group after the names of `declared`. -/
def checkGroup (outer declared : List String) : List FieldDecl → Except Fault Unit
  | [] => .ok ()
  | decl :: rest => do
    if decl.name ∈ declared then throw (.schema (.repeatedField decl.name))
    check outer declared decl
    checkGroup outer (declared ++ [decl.name]) rest

end

end FieldDecl

namespace NodeKind

def checkBounds (kind : NodeKind) : Except Fault Unit :=
  match kind.maxChildren with
  | some most =>
    if kind.minChildren ≤ most then .ok ()
    else .error (.schema (.boundsCrossed kind.name kind.minChildren most))
  | none => .ok ()

def check (kind : NodeKind) : Except Fault Unit := do
  kind.checkBounds
  if (kind.maxChildren == some 0) != (kind.childCategory == .nothing) then
    throw (.schema (.childlessMismatch kind.name))
  if kind.category == .nothing then
    throw (.schema (.noCategory kind.name))
  FieldDecl.checkGroup [] [] kind.fields

end NodeKind

end LightTree
