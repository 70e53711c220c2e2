/-!
# Categories of nodes
-/

namespace LightTree

/-- What a node is. `nothing` is the category of the children of a node that has
no children. -/
inductive Category
  | system
  | object
  | animation
  | function
  | nothing
deriving DecidableEq, Repr

namespace Category

def label : Category → String
  | system => "System"
  | object => "Object"
  | animation => "Animation"
  | function => "Function"
  | nothing => "None"

def all : List Category := [system, object, animation, function, nothing]

theorem mem_all (category : Category) : category ∈ all := by
  cases category <;> decide

def ofLabel? (label : String) : Option Category :=
  all.find? (·.label == label)

@[simp] theorem ofLabel?_label (category : Category) : ofLabel? category.label = some category := by
  cases category <;> decide +kernel

end Category

end LightTree
