import LightTree.Json.Basic
import LightTree.Text.Hex

/-!
# Writing JSON

Two layouts: on one line without blanks, and indented by two spaces a level. Strings escape the
quote, the backslash and the control characters, and nothing else.
-/

namespace LightTree.Json

open Text

def escapeChar (c : Char) : List Char :=
  if c = '"' then ['\\', '"']
  else if c = '\\' then ['\\', '\\']
  else if c.toNat = 0x08 then ['\\', 'b']
  else if c.toNat = 0x09 then ['\\', 't']
  else if c.toNat = 0x0A then ['\\', 'n']
  else if c.toNat = 0x0C then ['\\', 'f']
  else if c.toNat = 0x0D then ['\\', 'r']
  else if c.toNat < 0x20 then
    ['\\', 'u', '0', '0', lowerHex (c.toNat / 16), lowerHex (c.toNat % 16)]
  else [c]

/-- A string with its quotes. One without characters is written as if it were empty. -/
def writeString (s : Characters) : List Char :=
  '"' :: (s.getD "").toList.flatMap escapeChar ++ ['"']

/-- A numeral. One that is not plain is written with its exponent. -/
def Numeral.write (x : Numeral) : List Char :=
  (if x.negative then ['-'] else []) ++ x.whole ++
    (if x.fraction.isEmpty then [] else '.' :: x.fraction) ++
    (if x.plain then [] else 'e' :: (toString x.exponent).toList)

def commaJoin : List (List Char) → List Char
  | [] => []
  | [part] => part
  | part :: rest => part ++ ',' :: commaJoin rest

mutual

def write : Json → List Char
  | .null => "null".toList
  | .boolean true => "true".toList
  | .boolean false => "false".toList
  | .number x => x.write
  | .string s => writeString s
  | .array elements => '[' :: commaJoin (writeElements elements) ++ [']']
  | .object members => '\x7b' :: commaJoin (writeMembers members) ++ ['\x7d']

def writeElements : List Json → List (List Char)
  | [] => []
  | element :: rest => write element :: writeElements rest

def writeMembers : List (Characters × Json) → List (List Char)
  | [] => []
  | (key, value) :: rest => (writeString key ++ ':' :: write value) :: writeMembers rest

end

def newline (level : Nat) : List Char :=
  '\n' :: List.replicate (2 * level) ' '

/-- Parts on lines of their own between two brackets; nothing at all between them if there are
none. -/
def block (level : Nat) (opening closing : Char) (parts : List (List Char)) : List Char :=
  if parts.isEmpty then [opening, closing]
  else
    opening :: commaJoin (parts.map fun part ↦ newline (level + 1) ++ part) ++
      newline level ++ [closing]

mutual

def writeIndented (level : Nat) : Json → List Char
  | .array elements => block level '[' ']' (indentElements (level + 1) elements)
  | .object members => block level '\x7b' '\x7d' (indentMembers (level + 1) members)
  | .null => "null".toList
  | .boolean true => "true".toList
  | .boolean false => "false".toList
  | .number x => x.write
  | .string s => writeString s

def indentElements (level : Nat) : List Json → List (List Char)
  | [] => []
  | element :: rest => writeIndented level element :: indentElements level rest

def indentMembers (level : Nat) : List (Characters × Json) → List (List Char)
  | [] => []
  | (key, value) :: rest =>
    (writeString key ++ ':' :: ' ' :: writeIndented level value) :: indentMembers level rest

end

def compact (value : Json) : String :=
  String.ofList value.write

def pretty (value : Json) : String :=
  String.ofList (value.writeIndented 0)

end LightTree.Json
