import LightTree.Ids
import LightTree.Schema.Category

/-!
# Faults

What can go wrong, by cause, and the text that is shown for it. A request that breaks the shape of
the tree is not a fault: it is ignored.
-/

namespace LightTree

inductive DescriptorFlaw
  | empty
  | argumentsAfter (word : String)
  | noOptions
  | badLabel (label : String)
  | linkWithoutSource
  | relyWithoutSource
  | relyWithoutValue
  | unknownType (word : String)
  | oddPairs
deriving DecidableEq, Repr

def DescriptorFlaw.message : DescriptorFlaw → String
  | empty => "empty descriptor"
  | argumentsAfter word => "`" ++ word ++ "` takes no arguments"
  | noOptions => "select needs at least one option"
  | badLabel label => "malformed option name `" ++ label ++ "`"
  | linkWithoutSource => "link needs a source"
  | relyWithoutSource => "rely needs a source"
  | relyWithoutValue => "rely_value needs a source and a value"
  | unknownType word => "unknown field type `" ++ word ++ "`"
  | oddPairs => "expected one or more `<name> <type>` pairs"

/-- Why a kind or a catalog is refused, or a node of it cannot be built. -/
inductive SchemaFlaw
  | boundsCrossed (kind : String) (least most : Nat)
  | childlessMismatch (kind : String)
  | noCategory (kind : String)
  | repeatedField (field : String)
  | noOptions (field : String)
  | noRoot
  | endlessChildren (kind child : String)
  | noChildKind (kind : String) (least : Nat) (category : Category)
  | childRejected (kind child : String)
deriving DecidableEq, Repr

def SchemaFlaw.message : SchemaFlaw → String
  | boundsCrossed kind least most =>
    "`" ++ kind ++ "` requires " ++ toString least ++ " children but allows at most " ++
      toString most
  | childlessMismatch kind =>
    "`" ++ kind ++ "` must use inner type None exactly when it accepts no children"
  | noCategory kind => "`" ++ kind ++ "` cannot be of item type None"
  | repeatedField field => "field `" ++ field ++ "` is declared twice"
  | noOptions field => "select `" ++ field ++ "` has no options"
  | noRoot => "catalog has no System entry to act as root"
  | endlessChildren kind child =>
    "`" ++ kind ++ "` requires a `" ++ child ++ "` child, which requires itself again"
  | noChildKind kind least category =>
    "`" ++ kind ++ "` needs " ++ toString least ++ " children but the catalog has no " ++
      category.label ++ " entry"
  | childRejected kind child =>
    "`" ++ kind ++ "` rejected its required `" ++ child ++ "` child"

inductive Fault
  | plain (text : String)
  | unknownOption (field value : String)
  | blankInText (field value : String)
  | badColor (field value : String)
  | wrongKind (field expected : String)
  | unknownField (id : FieldId)
  | unknownSource (field dependency : String)
  | descriptor (text : String) (flaw : DescriptorFlaw)
  | schema (flaw : SchemaFlaw)
  | cycle (field : String)
  | tooDeep (limit : Nat)
  | unreadableFile
  | malformedText
  /-- The bound on the recursion of a cascade ran out. -/
  | exhausted
deriving DecidableEq, Repr

/-- A value that was read from a text, or the fault of a text that cannot be read. -/
def Fault.orMalformed {α : Type} : Option α → Except Fault α
  | some a => .ok a
  | none => .error .malformedText

@[simp] theorem Fault.orMalformed_eq_ok_iff {α : Type} {value : Option α} {a : α} :
    Fault.orMalformed value = .ok a ↔ value = some a := by
  cases value <;> simp [Fault.orMalformed]

def Fault.message : Fault → String
  | plain text => text
  | unknownOption field value => "`" ++ value ++ "` is not an option of select field `" ++ field ++ "`"
  | blankInText field value =>
    "value `" ++ value ++ "` of field `" ++ field ++ "` contains the wire delimiter"
  | badColor field value =>
    "`" ++ value ++ "` is not a six digit hex colour (field `" ++ field ++ "`)"
  | wrongKind field expected => "field `" ++ field ++ "` is not a " ++ expected ++ " field"
  | unknownField id => "field " ++ id.show ++ " does not exist"
  | unknownSource field dependency =>
    "field `" ++ field ++ "` depends on `" ++ dependency ++ "`, which is not declared before it"
  | descriptor text flaw => "invalid field descriptor `" ++ text ++ "`: " ++ flaw.message
  | schema flaw => "invalid schema: " ++ flaw.message
  | cycle field => "dependency cycle detected at field `" ++ field ++ "`"
  | tooDeep limit => "dependency cascade exceeded the depth limit of " ++ toString limit
  | unreadableFile => "the file cannot be read"
  | malformedText => "the text is not of the expected form"
  | exhausted => "dependency cascade did not settle"

end LightTree
