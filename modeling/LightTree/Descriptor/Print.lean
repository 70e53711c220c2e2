import LightTree.Schema.Decl
import LightTree.Text.Percent

/-!
# Printing descriptors

A descriptor is the text of a declaration without its name: words with single spaces between them.
A gated field prints its condition and then the descriptor of the field inside.
-/

namespace LightTree

/-- An option as one word: its value, then its name unless the two are the same. -/
def Choice.word (option : Choice) : String :=
  if option.name = option.value then option.value
  else option.value ++ ":" ++ Text.Percent.encode option.name

def Condition.words (source : String) : Condition → List String
  | present => ["rely", source]
  | equals target => ["rely_value", source, target]

def LengthRule.words : LengthRule → List String
  | free => ["repeat"]
  | children => ["link", "inner"]
  | field source => ["link", source]

namespace FieldDecl

mutual

def words : FieldDecl → List String
  | scalar _ initial => [initial.kind.keyword]
  | choice _ options => "select" :: options.map Choice.word
  | list _ rule element => rule.words ++ pairWords element
  | gated _ source condition inner => condition.words source ++ words inner

def pairWords : List FieldDecl → List String
  | [] => []
  | decl :: rest => decl.name :: words decl ++ pairWords rest

end

def descriptor (decl : FieldDecl) : String :=
  Text.unwords decl.words

end FieldDecl

end LightTree
