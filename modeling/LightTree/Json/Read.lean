import LightTree.Json.Basic
import LightTree.Number.Digits
import LightTree.Text.Hex

/-!
# Reading JSON

Strict JSON with the four blanks space, tab, line feed and carriage return. The reader works on the
characters that are left; a counter that no shorter text can use up bounds its recursion.
-/

namespace LightTree.Json

open Text Number

def isSpace (c : Char) : Bool :=
  c = ' ' || c = '\t' || c = '\n' || c = '\r'

def skipSpaces (text : List Char) : List Char :=
  text.dropWhile isSpace

def expect? : List Char → List Char → Option (List Char)
  | [], text => some text
  | c :: expected, d :: text => if c = d then expect? expected text else none
  | _ :: _, [] => none

/-- The sixteen-bit unit that four hexadecimal digits name. -/
def unit? (a b c d : Char) : Option Nat := do
  let a ← hexValue? a
  let b ← hexValue? b
  let c ← hexValue? c
  let d ← hexValue? d
  return ((16 * a + b) * 16 + c) * 16 + d

/-- The code point of a short escape. -/
def shortEscape? (c : Char) : Option Nat :=
  if c = '"' || c = '\\' || c = '/' then some c.toNat
  else if c = 'b' then some 0x08
  else if c = 'f' then some 0x0C
  else if c = 'n' then some 0x0A
  else if c = 'r' then some 0x0D
  else if c = 't' then some 0x09
  else none

/-- The code points up to the closing quote, and what follows it. Escaped surrogates are points of
their own here. -/
def points? : List Char → Option (List Nat × List Char)
  | [] => none
  | '"' :: rest => some ([], rest)
  | '\\' :: 'u' :: a :: b :: c :: d :: rest => do
    let unit ← unit? a b c d
    let (points, rest) ← points? rest
    return (unit :: points, rest)
  | '\\' :: c :: rest => do
    let point ← shortEscape? c
    let (points, rest) ← points? rest
    return (point :: points, rest)
  | c :: rest =>
    if c.toNat < 0x20 || c = '\\' then none
    else do
      let (points, rest) ← points? rest
      return (c.toNat :: points, rest)

def isHigh (point : Nat) : Bool := 0xD800 ≤ point && point < 0xDC00

def isLow (point : Nat) : Bool := 0xDC00 ≤ point && point < 0xE000

/-- The characters of code points, each high surrogate joined with the low one after it. A surrogate
without its partner is no character. -/
def characters? : List Nat → Option (List Char)
  | [] => some []
  | high :: low :: rest =>
    if isHigh high then
      if isLow low then
        (characters? rest).map
          (Char.ofNat (0x10000 + (high - 0xD800) * 0x400 + (low - 0xDC00)) :: ·)
      else none
    else if isLow high then none
    else (characters? (low :: rest)).map (Char.ofNat high :: ·)
  | [point] => if isHigh point || isLow point then none else some [Char.ofNat point]

def string? (text : List Char) : Option (Characters × List Char) := do
  let (points, rest) ← points? text
  return ((characters? points).map String.ofList, rest)

/-- The digits before the point. A zero stands alone. -/
def whole? (text : List Char) : Option (List Char × List Char) :=
  match spanDigits text with
  | ([], _) => none
  | ('0' :: _ :: _, _) => none
  | (digits, rest) => some (digits, rest)

/-- The digits after a point, `none` inside if there is no point. -/
def fraction? : List Char → Option (Option (List Char) × List Char)
  | '.' :: rest =>
    match spanDigits rest with
    | ([], _) => none
    | (digits, rest) => some (some digits, rest)
  | rest => some (none, rest)

/-- The exponent, `none` inside if there is none. -/
def exponent? : List Char → Option (Option Int × List Char)
  | c :: rest =>
    if c = 'e' || c = 'E' then
      let (negative, rest) := spanSign rest
      match spanDigits rest with
      | ([], _) => none
      | (digits, rest) =>
        some (some (signed negative (ofDigits digits)), rest)
    else some (none, c :: rest)
  | [] => some (none, [])

def numeral? (negative : Bool) (text : List Char) : Option (Numeral × List Char) := do
  let (whole, rest) ← whole? text
  let (fraction, rest) ← fraction? rest
  let (exponent, rest) ← exponent? rest
  return (
    { negative, whole, fraction := fraction.getD [], exponent := exponent.getD 0,
      plain := fraction.isNone && exponent.isNone }, rest)

mutual

def value? : Nat → List Char → Option (Json × List Char)
  | 0, _ => none
  | fuel + 1, text =>
    match text with
    | '"' :: rest => (string? rest).map fun (s, rest) ↦ (.string s, rest)
    | '[' :: rest =>
      match skipSpaces rest with
      | ']' :: rest => some (.array [], rest)
      | rest => (elements? fuel rest).map fun (elements, rest) ↦ (.array elements, rest)
    | '\x7b' :: rest =>
      match skipSpaces rest with
      | '\x7d' :: rest => some (.object [], rest)
      | rest => (members? fuel rest).map fun (members, rest) ↦ (.object members, rest)
    | '-' :: rest => (numeral? true rest).map fun (x, rest) ↦ (.number x, rest)
    | 'n' :: rest => (expect? ['u', 'l', 'l'] rest).map fun rest ↦ (.null, rest)
    | 't' :: rest => (expect? ['r', 'u', 'e'] rest).map fun rest ↦ (.boolean true, rest)
    | 'f' :: rest => (expect? ['a', 'l', 's', 'e'] rest).map fun rest ↦ (.boolean false, rest)
    | text => (numeral? false text).map fun (x, rest) ↦ (.number x, rest)

/-- The elements up to the closing bracket, of which there is at least one. -/
def elements? : Nat → List Char → Option (List Json × List Char)
  | 0, _ => none
  | fuel + 1, text => do
    let (element, rest) ← value? fuel text
    match skipSpaces rest with
    | ']' :: rest => return ([element], rest)
    | ',' :: rest =>
      let (elements, rest) ← elements? fuel (skipSpaces rest)
      return (element :: elements, rest)
    | _ => none

/-- The members up to the closing brace, of which there is at least one. -/
def members? : Nat → List Char → Option (List (Characters × Json) × List Char)
  | 0, _ => none
  | fuel + 1, text => do
    let rest ← expect? ['"'] text
    let (key, rest) ← string? rest
    let rest ← expect? [':'] (skipSpaces rest)
    let (value, rest) ← value? fuel (skipSpaces rest)
    match skipSpaces rest with
    | '\x7d' :: rest => return ([(key, value)], rest)
    | ',' :: rest =>
      let (members, rest) ← members? fuel (skipSpaces rest)
      return ((key, value) :: members, rest)
    | _ => none

end

/-- The value a text holds, with nothing but blanks around it. -/
def parse? (text : String) : Option Json := do
  let (value, rest) ← value? (2 * text.length + 2) (skipSpaces text.toList)
  if (skipSpaces rest).isEmpty then some value else none

end LightTree.Json
