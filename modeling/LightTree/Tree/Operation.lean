import LightTree.Tree.Mutation

/-!
# Operations and histories

The operations that a user may carry out on a tree, as data, and what becomes of a tree when a list
of them is carried out. An operation that fails does not end the history.
-/

namespace LightTree

inductive Operation
  | create (kind : NodeKind)
  | addChild (parent child : NodeId)
  | addByCategory (parent : NodeId) (category : Category)
  | removeChild (parent child : NodeId)
  | detach (node : NodeId)
  | retype (node : NodeId) (symbol : String)
  | setInteger (field : FieldId) (value : Int64)
  | setBoolean (field : FieldId) (value : Bool)
  | choose (field : FieldId) (value : String)
  | setText (field : FieldId) (value : String)
  | setColor (field : FieldId) (value : String)
  | appendElement (field : FieldId)
  | removeElement (field : FieldId) (index : Nat)
  | rebind (dependent : FieldId) (source : Source)
deriving DecidableEq, Repr

inductive Answer
  | created (node : NodeId)
  | outcome (outcome : Outcome)
  | done
  | element (fields : List FieldId)
deriving DecidableEq, Repr

namespace Operation

def edit : Operation → Edit Answer
  | create kind => return .created (← LightTree.create kind)
  | addChild parent child => return .outcome (← LightTree.addChild parent child)
  | addByCategory parent category => return .outcome (← LightTree.addByCategory parent category)
  | removeChild parent child => return .outcome (← LightTree.removeChild parent child)
  | detach node => return .outcome (← LightTree.detach node)
  | retype node symbol => return .outcome (← LightTree.retype node symbol)
  | setInteger field value => do mutate field (·.setInteger value); return .done
  | setBoolean field value => do mutate field (·.setBoolean value); return .done
  | choose field value => do mutate field (·.choose value); return .done
  | setText field value => do mutate field (·.setText value); return .done
  | setColor field value => do mutate field (·.setColor value); return .done
  | appendElement field => return .element (← LightTree.appendElement field)
  | removeElement field index => return .outcome (← LightTree.removeElement field index)
  | rebind dependent source => do LightTree.rebind dependent source; return .done

end Operation

namespace Tree

def perform (tree : Tree) (operation : Operation) : Except Fault Answer × Tree :=
  operation.edit.runOn tree

/-- Carries out operations in order; gives the answer to each and the tree after the last. -/
def run (tree : Tree) : List Operation → List (Except Fault Answer) × Tree
  | [] => ([], tree)
  | operation :: rest =>
    let (answer, tree) := tree.perform operation
    let (answers, tree) := tree.run rest
    (answer :: answers, tree)

@[simp] theorem run_nil (tree : Tree) : tree.run [] = ([], tree) := rfl

@[simp] theorem run_cons (tree : Tree) (operation : Operation) (rest : List Operation) :
    tree.run (operation :: rest) =
      ((tree.perform operation).1 :: ((tree.perform operation).2.run rest).1,
        ((tree.perform operation).2.run rest).2) := rfl

theorem run_append (tree : Tree) (first second : List Operation) :
    tree.run (first ++ second) =
      ((tree.run first).1 ++ ((tree.run first).2.run second).1,
        ((tree.run first).2.run second).2) := by
  induction first generalizing tree with
  | nil => rfl
  | cons operation rest ih => simp [ih]

@[simp] theorem length_answers_run (tree : Tree) (operations : List Operation) :
    (tree.run operations).1.length = operations.length := by
  induction operations generalizing tree with
  | nil => rfl
  | cons operation rest ih => simp [ih]

end Tree

end LightTree
