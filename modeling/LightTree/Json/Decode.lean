import LightTree.Json.Basic
import LightTree.Number.Digits
import LightTree.Number.Rounding

/-!
# Reading values out of JSON

An integer is a plain numeral other than minus zero. A record takes each of its keys at most once
and ignores the keys it does not know; it may also be written as the array of its values in order.

A value of a text that is read whole is held to limits that an ignored one is not: how deep it
nests, that its numbers do not overflow a sixty-four bit float, and that its strings have characters.
A value that comes from no text has no such limits.
-/

namespace LightTree.Json

open Number

def Numeral.toInt? (x : Numeral) : Option Int :=
  if x.plain && !(x.negative && ofDigits x.whole == 0) then
    some (signed x.negative (ofDigits x.whole))
  else none

/-- Takes digits onto a number while it stays within sixty-four bits; the digits that do not fit
are left. -/
def absorb (n : Nat) : List Char → Nat × List Char
  | [] => (n, [])
  | c :: rest =>
    if 10 * n + digitValue c < UInt64.size then absorb (10 * n + digitValue c) rest
    else (n, c :: rest)

/-- The leading digits of a numeral that fit a word, and the power of ten they are multiplied by.
Digits of the fraction that do not fit are dropped. -/
def Numeral.scientific (x : Numeral) : Nat × Int :=
  let (n, left) := absorb 0 x.whole
  let (m, dropped) := absorb n x.fraction
  (m, x.exponent + left.length + dropped.length - x.fraction.length)

/-- A natural rounded to fifty-three significant bits. -/
def rounded (n : Nat) : Nat :=
  (Dyadic.nearest n 1).floor

/-- Whether a numeral stays below the overflow of a sixty-four bit float, the half-way point above
the greatest one. -/
def Numeral.inRange (x : Numeral) : Bool :=
  let (m, e) := x.scientific
  m == 0 || e ≤ 0 ||
    (e ≤ 308 &&
      rounded m * rounded (Nat.pow 10 e.toNat) < Nat.pow 2 1024 - Nat.pow 2 970)

mutual

def nesting : Json → Nat
  | .array elements => nestingElements elements + 1
  | .object members => nestingMembers members + 1
  | _ => 0

def nestingElements : List Json → Nat
  | [] => 0
  | element :: rest => max (nesting element) (nestingElements rest)

def nestingMembers : List (Characters × Json) → Nat
  | [] => 0
  | (_, value) :: rest => max (nesting value) (nestingMembers rest)

end

mutual

/-- Whether all strings have characters and no number overflows. -/
def isProper : Json → Bool
  | .number x => x.inRange
  | .string s => s.isSome
  | .array elements => properElements elements
  | .object members => properMembers members
  | _ => true

def properElements : List Json → Bool
  | [] => true
  | element :: rest => isProper element && properElements rest

def properMembers : List (Characters × Json) → Bool
  | [] => true
  | (key, value) :: rest => key.isSome && isProper value && properMembers rest

end

/-- Arrays and objects of a text that are read nest at most this deep. -/
def nestingLimit : Nat := 127

/-- A value that stands `level` arrays and objects down in its text, if it can be read whole there. -/
def inLimits? (level : Nat) (json : Json) : Option Json :=
  if json.nesting + level ≤ nestingLimit && json.isProper then some json else none

def toText? : Json → Option String
  | .string s => s
  | _ => none

def toBoolean? : Json → Option Bool
  | .boolean b => some b
  | _ => none

def toInt? : Json → Option Int
  | .number x => x.toInt?
  | _ => none

def toInt64? (value : Json) : Option Int64 := do
  let n ← value.toInt?
  if Int64.minValue.toInt ≤ n ∧ n ≤ Int64.maxValue.toInt then some (Int64.ofInt n) else none

def toWord? (value : Json) : Option Nat := do
  let n ← value.toInt?
  if 0 ≤ n ∧ n.toNat < UInt64.size then some n.toNat else none

def toElements? : Json → Option (List Json)
  | .array elements => some elements
  | _ => none

/-- `null` is no value; anything else has to be one. -/
def toOption? {α : Type} (decode : Json → Option α) : Json → Option (Option α)
  | .null => some none
  | value => (decode value).map some

/-- The value of a key that may be missing but not repeated. -/
def optional (key : String) (members : List (Characters × Json)) : Option (Option Json) :=
  match members.filter fun member ↦ member.1 == some key with
  | [] => some none
  | [(_, value)] => some (some value)
  | _ => none

/-- The values of a record in the order of its keys, `none` for a missing one. An array may leave out
values at its end as long as `least` are there. -/
def toRecord? (keys : List String) (least : Nat) : Json → Option (List (Option Json))
  | .object members =>
    if members.all (·.1.isSome) then keys.mapM (optional · members) else none
  | .array values =>
    if least ≤ values.length ∧ values.length ≤ keys.length then
      some (values.map some ++ List.replicate (keys.length - values.length) none)
    else none
  | _ => none

end LightTree.Json
