import LightTree.Catalog.Standard
import LightTree.Tree.Mutation
import LightTree.Wire

/-!
# A reference system

Two objects: a strip of sixty lights with an animation that an easing function drives, and a palette
of three colours.
-/

namespace LightTree

namespace Demo

def add (parent : NodeId) (category : Category) : Edit NodeId := do
  if (← addByCategory parent category) = .ignored then
    throw (.plain (category.label ++ " could not be added to block " ++ parent.show))
  match ((← get).children parent).getLast? with
  | some child => return child
  | none => throw (.plain ("block " ++ parent.show ++ " has no children"))

def setInteger (node : NodeId) (name : String) (value : Int64) : Edit Unit := do
  match (← get).fieldNamed? node name with
  | some field => mutate field (·.setInteger value)
  | none => throw (.plain ("block " ++ node.show ++ " has no field `" ++ name ++ "`"))

def addColor (list : FieldId) (color : String) : Edit Unit := do
  match ← appendElement list with
  | field :: _ => mutate field (·.setColor color)
  | [] => return

def edit : Edit Unit := do
  let root := (← get).root
  let strip ← add root .object
  setInteger strip "length" 60
  let pulse ← add strip .animation
  setInteger pulse "duration" 5
  let ease ← add pulse .function
  setInteger ease "end" 10
  let palette ← add root .object
  match (← get).fieldNamed? palette "defineBy" with
  | some field => mutate field (·.choose "c")
  | none => pure ()
  match (← get).fieldNamed? palette "colors" with
  | some field => ["#ff0000", "#00ff00", "#0000ff"].forM (addColor field)
  | none => pure ()

def line (settings : Settings) : Except Fault String := do
  let tree ← Tree.start Catalog.standard settings
  match edit.runOn tree with
  | (.ok (), tree) => return tree.line
  | (.error fault, _) => throw fault

end Demo

end LightTree
