/-!
# JSON values

A value keeps what its text says: members in their order and with repeats, numbers digit by digit,
and strings that name half a surrogate pair, which have no characters.
-/

namespace LightTree

namespace Json

/-- A number as written: `whole.fraction` times `10 ^ exponent`. It is plain when it has neither a
point nor an exponent. -/
structure Numeral where
  negative : Bool
  whole : List Char
  fraction : List Char
  exponent : Int
  plain : Bool
deriving DecidableEq, Repr

/-- The characters of a string, or `none` when an escape in it names half a surrogate pair. -/
abbrev Characters := Option String

end Json

inductive Json
  | null
  | boolean (value : Bool)
  | number (value : Json.Numeral)
  | string (value : Json.Characters)
  | array (elements : List Json)
  | object (members : List (Json.Characters × Json))
deriving Repr

namespace Json

def Numeral.ofInt (n : Int) : Numeral :=
  { negative := decide (n < 0), whole := Nat.toDigits 10 n.natAbs, fraction := [], exponent := 0,
    plain := true }

def ofInt (n : Int) : Json :=
  .number (.ofInt n)

def ofNat (n : Nat) : Json :=
  ofInt n

def text (s : String) : Json :=
  .string (some s)

/-- An object with proper keys. -/
def record (members : List (String × Json)) : Json :=
  .object (members.map fun (key, value) ↦ (some key, value))

def ofOption {α : Type} (encode : α → Json) : Option α → Json
  | none => .null
  | some a => encode a

def list {α : Type} (encode : α → Json) (items : List α) : Json :=
  .array (items.map encode)

end Json

end LightTree
