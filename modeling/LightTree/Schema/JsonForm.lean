import LightTree.Json.Decode
import LightTree.Json.Read
import LightTree.Json.Write
import LightTree.Fault
import LightTree.Schema.Decl

/-!
# The JSON form of node kinds and field declarations

A declaration is an object with the tag `kind` and a key for each of its parts. It may be read back
with its keys in any order, or as the array of its tag and its parts. Inside another declaration
the tag may also be the number of its kind.
-/

namespace LightTree

open Json

/-! ## Parts without parts of their own -/

namespace Category

def toJson (category : Category) : Json :=
  .text category.label

/-- A label, or an object with the label for its one key and nothing under it. -/
def ofJson? : Json → Option Category
  | .string (some label) => ofLabel? label
  | .object [(some label, .null)] => ofLabel? label
  | _ => none

end Category

namespace Choice

def toJson (option : Choice) : Json :=
  .record [("name", .text option.name), ("value", .text option.value)]

def ofJson? (json : Json) : Option Choice :=
  match json.toRecord? ["name", "value"] 2 with
  | some [some name, some value] => return ⟨← name.toText?, ← value.toText?⟩
  | _ => none

end Choice

namespace LengthRule

def toJson : LengthRule → Json
  | free => .null
  | children => .text "inner"
  | field source => .record [("field", .text source)]

def ofJson? : Json → Option LengthRule
  | .string (some "inner") => some .children
  | .object [(some "inner", .null)] => some .children
  | .object [(some "inner", .object [])] => some .children
  | .object [(some "field", source)] => source.toText?.map .field
  | _ => none

end LengthRule

namespace FieldKind

def all : List FieldKind :=
  [integer, position, boolean, choice, text, color, list, link, rely, relyValue]

/-- The tag of a kind: its keyword, but `text` for texts. -/
def tag : FieldKind → String
  | text => "text"
  | kind => kind.keyword

def ofTag? (tag : String) : Option FieldKind :=
  all.find? (·.tag == tag)

@[simp] theorem ofTag?_tag (kind : FieldKind) : ofTag? kind.tag = some kind := by
  cases kind <;> decide +kernel

def keys : FieldKind → List String
  | integer | position | boolean | text | color => ["name", "default"]
  | choice => ["name", "options"]
  | list => ["name", "element"]
  | link => ["name", "source", "element"]
  | rely => ["name", "source", "inner"]
  | relyValue => ["name", "source", "target", "inner"]

/-- Reads a tag. A kind may be given by its number if `numbered`. -/
def ofJson? (numbered : Bool) : Json → Option FieldKind
  | .string (some tag) => ofTag? tag
  | json => if numbered then json.toWord?.bind (all[·]?) else none

end FieldKind

namespace Scalar

def toJson : Scalar → Json
  | integer n => .ofInt n.toInt
  | position n => .ofInt n.toInt
  | boolean b => .boolean b
  | text s => .text s
  | color s => .text s

end Scalar

/-! ## Declarations -/

namespace FieldDecl

mutual

def toJson : FieldDecl → Json
  | scalar name initial =>
    .record [("kind", .text initial.kind.tag), ("name", .text name), ("default", initial.toJson)]
  | choice name options =>
    .record [("kind", .text FieldKind.choice.tag), ("name", .text name),
      ("options", .list Choice.toJson options)]
  | list name .free element =>
    .record [("kind", .text FieldKind.list.tag), ("name", .text name),
      ("element", .array (elementsToJson element))]
  | list name rule element =>
    .record [("kind", .text FieldKind.link.tag), ("name", .text name), ("source", rule.toJson),
      ("element", .array (elementsToJson element))]
  | gated name source .present inner =>
    .record [("kind", .text FieldKind.rely.tag), ("name", .text name), ("source", .text source),
      ("inner", toJson inner)]
  | gated name source (.equals target) inner =>
    .record [("kind", .text FieldKind.relyValue.tag), ("name", .text name),
      ("source", .text source), ("target", .text target), ("inner", toJson inner)]

def elementsToJson : List FieldDecl → List Json
  | [] => []
  | decl :: rest => toJson decl :: elementsToJson rest

end

/-- The kind of a declaration and its parts in order. Every part has to be there once. -/
def parts? (numbered : Bool) : Json → Option (FieldKind × List Json)
  | .object members => do
    let tag ← (optional "kind" members).join
    let kind ← FieldKind.ofJson? numbered tag
    return (kind, ← kind.keys.mapM fun key ↦ (optional key members).join)
  | .array (tag :: parts) => do
    let kind ← FieldKind.ofJson? numbered tag
    if parts.length = kind.keys.length then some (kind, parts) else none
  | _ => none

/-- The declaration with the given parts, whose own declarations `decode` reads. -/
def ofParts? (decode : Json → Option FieldDecl) : FieldKind → List Json → Option FieldDecl
  | .integer, [name, initial] => return .scalar (← name.toText?) (.integer (← initial.toInt64?))
  | .position, [name, initial] => return .scalar (← name.toText?) (.position (← initial.toInt64?))
  | .boolean, [name, initial] => return .scalar (← name.toText?) (.boolean (← initial.toBoolean?))
  | .text, [name, initial] => return .scalar (← name.toText?) (.text (← initial.toText?))
  | .color, [name, initial] => return .scalar (← name.toText?) (.color (← initial.toText?))
  | .choice, [name, options] =>
    return .choice (← name.toText?) (← (← options.toElements?).mapM Choice.ofJson?)
  | .list, [name, element] =>
    return .list (← name.toText?) .free (← (← element.toElements?).mapM decode)
  | .link, [name, source, element] =>
    return .list (← name.toText?) (← LengthRule.ofJson? source)
      (← (← element.toElements?).mapM decode)
  | .rely, [name, source, inner] =>
    return .gated (← name.toText?) (← source.toText?) .present (← decode inner)
  | .relyValue, [name, source, target, inner] =>
    return .gated (← name.toText?) (← source.toText?) (.equals (← target.toText?)) (← decode inner)
  | _, _ => none

/-- Reads a declaration that nests no deeper than `depth`. -/
def ofJsonWithin? : Nat → Bool → Json → Option FieldDecl
  | 0, _, _ => none
  | depth + 1, numbered, json => do
    let (kind, parts) ← parts? numbered json
    ofParts? (ofJsonWithin? depth true) kind parts

/-- Reads a declaration. It is an array or an object, as are those in it, so it nests no deeper than
its form does. -/
def ofJson? (json : Json) : Option FieldDecl :=
  ofJsonWithin? json.nesting false json

def ofText (text : String) : Except Fault FieldDecl :=
  Fault.orMalformed (((Json.parse? text).bind (Json.inLimits? 0)).bind ofJson?)

end FieldDecl

/-! ## Node kinds -/

namespace NodeKind

def keys : List String :=
  ["name", "symbol", "item_type", "inner_type", "inner_min", "inner_max", "fields"]

def toJson (kind : NodeKind) : Json :=
  .record (keys.zip [.text kind.name, .text kind.symbol, kind.category.toJson,
    kind.childCategory.toJson, .ofNat kind.minChildren, .ofOption .ofNat kind.maxChildren,
    .list FieldDecl.toJson kind.fields])

/-- Reads a kind, each of its fields by `field`. A missing upper bound is none. -/
def ofJsonBy? (field : Json → Option FieldDecl) (json : Json) : Option NodeKind :=
  match json.toRecord? keys keys.length with
  | some [some name, some symbol, some category, some childCategory, some least, most,
      some fields] => do
    return {
      name := ← name.toText?
      symbol := ← symbol.toText?
      category := ← Category.ofJson? category
      childCategory := ← Category.ofJson? childCategory
      minChildren := ← least.toWord?
      maxChildren := ← (most.getD .null).toOption? toWord?
      fields := ← (← fields.toElements?).mapM field }
  | _ => none

/-- Reads a kind from a value, which may nest at any depth. -/
def ofJson (json : Json) : Except Fault NodeKind :=
  Fault.orMalformed (ofJsonBy? FieldDecl.ofJson? json)

/-- Reads a field of a kind in a text, an array in an object down. -/
def fieldInText? (json : Json) : Option FieldDecl :=
  (json.inLimits? 2).bind FieldDecl.ofJson?

def ofText (text : String) : Except Fault NodeKind :=
  Fault.orMalformed ((Json.parse? text).bind (ofJsonBy? fieldInText?))

end NodeKind

end LightTree
