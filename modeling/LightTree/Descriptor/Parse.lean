import LightTree.Fault
import LightTree.Schema.Decl
import LightTree.Text.Percent

/-!
# Reading descriptors

A descriptor is read word by word, with any blanks between words. The types are

* `int`, `position`, `boolean`, `string` and `color`, which stand alone,
* `select`, with options `value` or `value:label`,
* `repeat` and `link source`, with pairs of a name and a type that stands alone,
* `rely source` and `rely_value source value`, with a descriptor for the field inside.
-/

namespace LightTree

namespace Descriptor

/-- The declaration of a type that stands alone, with the initial value zero, empty or black. -/
def scalar? (name word : String) : Option FieldDecl :=
  match word with
  | "int" => some (.scalar name (.integer 0))
  | "position" => some (.scalar name (.position 0))
  | "boolean" => some (.scalar name (.boolean false))
  | "string" => some (.scalar name (.text ""))
  | "color" => some (.scalar name (.color "000000"))
  | _ => none

/-- What a word lacks that begins a descriptor but does not make one. -/
def flawOf (word : String) : DescriptorFlaw :=
  match word with
  | "select" => .noOptions
  | "repeat" => .oddPairs
  | "link" => .linkWithoutSource
  | "rely" => .relyWithoutSource
  | "rely_value" => .relyWithoutValue
  | _ => .unknownType word

def splitColon (word : List Char) : List Char × Option (List Char) :=
  match word.dropWhile (· ≠ ':') with
  | [] => (word, none)
  | _ :: label => (word.takeWhile (· ≠ ':'), some label)

/-- The option that a word stands for. Without a colon its name is its value. -/
def option (word : String) : Except DescriptorFlaw Choice :=
  match splitColon word.toList with
  | (_, none) => .ok ⟨word, word⟩
  | (value, some label) =>
    match Text.Percent.decode (String.ofList label) with
    | some name => .ok ⟨name, String.ofList value⟩
    | none => .error (.badLabel (String.ofList label))

/-- The declarations of the elements of a list, from names and types in turn. -/
def pairs : List String → Except DescriptorFlaw (List FieldDecl)
  | name :: word :: rest =>
    match scalar? name word with
    | some decl => return decl :: (← pairs rest)
    | none => throw (flawOf word)
  | _ => return []

/-- The element declarations of a list. A list of words that does not pair up is refused before any
pair is read. -/
def element (words : List String) : Except DescriptorFlaw (List FieldDecl) :=
  if words.isEmpty || words.length % 2 != 0 then throw .oddPairs else pairs words

def rule (source : String) : LengthRule :=
  if source = "inner" then .children else .field source

def ofWords (name : String) : List String → Except DescriptorFlaw FieldDecl
  | [] => throw .empty
  | "repeat" :: words => return .list name .free (← element words)
  | "link" :: source :: words => return .list name (rule source) (← element words)
  | "rely" :: source :: words => return .gated name source .present (← ofWords name words)
  | "rely_value" :: source :: target :: words =>
    return .gated name source (.equals target) (← ofWords name words)
  | "select" :: word :: words => return .choice name (← (word :: words).mapM option)
  | word :: words =>
    match scalar? name word with
    | some decl => if words.isEmpty then return decl else throw (.argumentsAfter word)
    | none => throw (flawOf word)

end Descriptor

def FieldDecl.parse (name descriptor : String) : Except Fault FieldDecl :=
  (Descriptor.ofWords name (Text.words descriptor)).mapError (.descriptor descriptor)

end LightTree
