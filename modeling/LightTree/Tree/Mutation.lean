import LightTree.Tree.Structure
import LightTree.Text.Blank
import LightTree.Text.Hex

/-!
# Changing values

A change that names a gated field is a change of the field inside. The cascade of a change is
rehearsed first, so that a change with a cascade that cannot be run is refused before it is stored.
-/

namespace LightTree

/-! ## Which values a field takes -/

/-- A colour is six hexadecimal digits, which a number sign may precede. -/
def color? (text : String) : Option String :=
  let digits := match text.toList with
    | '#' :: rest => rest
    | chars => chars
  if digits.length = 6 ∧ digits.all Text.isHexDigit then some (String.ofList digits) else none

namespace Field

def mismatch (field : Field) (kind : FieldKind) : Fault :=
  .wrongKind field.name kind.keyword

def setInteger (n : Int64) (field : Field) : Except Fault Value :=
  match field.value with
  | .scalar (.integer _) => .ok (.scalar (.integer n))
  | .scalar (.position _) => .ok (.scalar (.position n))
  | _ => .error (field.mismatch .integer)

def setBoolean (b : Bool) (field : Field) : Except Fault Value :=
  match field.value with
  | .scalar (.boolean _) => .ok (.scalar (.boolean b))
  | _ => .error (field.mismatch .boolean)

/-- Chooses the first option with a value. -/
def choose (value : String) (field : Field) : Except Fault Value :=
  match field.value with
  | .choice options _ =>
    match options.findIdx? (·.value == value) with
    | some chosen => .ok (.choice options chosen)
    | none => .error (.unknownOption field.name value)
  | _ => .error (field.mismatch .choice)

/-- Sets a text. A text with a blank is refused of any field. -/
def setText (text : String) (field : Field) : Except Fault Value :=
  if Text.hasBlank text then .error (.blankInText field.name text)
  else
    match field.value with
    | .scalar (.text _) => .ok (.scalar (.text text))
    | _ => .error (field.mismatch .text)

def setColor (text : String) (field : Field) : Except Fault Value :=
  match field.value with
  | .scalar (.color _) =>
    match color? text with
    | some digits => .ok (.scalar (.color digits))
    | none => .error (.badColor field.name text)
  | _ => .error (field.mismatch .color)

end Field

/-! ## Changes -/

/-- The field that a change addresses, once its cascade has been rehearsed. -/
def target (id : FieldId) : Edit (FieldId × Field) := do
  let id := (← get).unwrap id
  Edit.check (·.rehearse (.field id))
  return (id, ← Edit.field id)

def mutate (id : FieldId) (change : Field → Except Fault Value) : Edit Unit := do
  let (id, field) ← target id
  let value ← Edit.check fun _ ↦ change field
  Edit.setValue id value
  settle (.field id)

/-- Appends an element to a list that its user sets, and gives the fields of the element. -/
def appendElement (id : FieldId) : Edit (List FieldId) := do
  let (id, field) ← target id
  match field.value with
  | .list false template _ =>
    let group ← instantiateGroup (enter false) field.owner (some id) [] template
    discard (Edit.field id)
    Edit.mapElements id (· ++ [group])
    settle (.field id)
    return group
  | _ => throw (field.mismatch .list)

/-- Removes an element of a list that its user sets, if there is one at the index. -/
def removeElement (id : FieldId) (index : Nat) : Edit Outcome := do
  let (id, field) ← target id
  match field.value with
  | .list false _ elements =>
    match elements[index]? with
    | none => return .ignored
    | some element =>
      Edit.mapElements id (·.eraseIdx index)
      modify (·.releaseFields element)
      settle (.field id)
      return .applied
  | _ => throw (field.mismatch .list)

def rebind (dependent : FieldId) (source : Source) : Edit Unit :=
  rebindWith (enter false) dependent source

end LightTree
