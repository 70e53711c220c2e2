import LightTree.Number.Digits
import LightTree.Number.Rounding

/-!
# Numbers typed as text

A number is typed as decimal digits with an optional sign, point and exponent, or as one of the
words `nan`, `inf` and `infinity` in any case. An integer field takes the whole part of the nearest
number with fifty-three significant bits, held within the sixty-four bit range.
-/

namespace LightTree.Number

/-- The number `digits * 10 ^ exponent`, negated if so marked; `count` digits were written. -/
structure Decimal where
  negative : Bool
  digits : Nat
  count : Nat
  exponent : Int
deriving DecidableEq, Repr

/-- What a number text stands for. -/
inductive Reading
  | notANumber
  | infinite (negative : Bool)
  | finite (value : Decimal)
deriving DecidableEq, Repr

/-- An optional fraction: the digits after a point, which may be none. -/
def spanFraction : List Char → List Char × List Char
  | '.' :: rest => spanDigits rest
  | rest => ([], rest)

/-- An exponent that ends the text: nothing at all, or `e` with an optional sign and digits. -/
def exponent? : List Char → Option Int
  | [] => some 0
  | c :: rest =>
    if c = 'e' || c = 'E' then
      let (negative, rest) := spanSign rest
      let (digits, rest) := spanDigits rest
      if digits.isEmpty || !rest.isEmpty then none
      else some (signed negative (ofDigits digits))
    else none

/-- The finite number that a text without its sign stands for. A digit has to stand before or after
the point. -/
def decimal? (negative : Bool) (text : List Char) : Option Decimal :=
  let (whole, rest) := spanDigits text
  let (fraction, rest) := spanFraction rest
  if whole.isEmpty && fraction.isEmpty then none
  else
    (exponent? rest).map fun e ↦
      { negative
        digits := ofDigits (whole ++ fraction)
        count := (whole ++ fraction).length
        exponent := e - fraction.length }

def read? (text : String) : Option Reading :=
  let (negative, rest) := spanSign text.toList
  match String.ofList (rest.map Char.toLower) with
  | "nan" => some .notANumber
  | "inf" => some (.infinite negative)
  | "infinity" => some (.infinite negative)
  | _ => (decimal? negative rest).map .finite

/-- The whole part of the magnitude after rounding. A number with an exponent above twenty is beyond
the word range, and one below a tenth rounds to less than one, so neither is computed. -/
def Decimal.magnitude (x : Decimal) : Nat :=
  if x.digits = 0 then 0
  else if (x.count : Int) + x.exponent < -1 then 0
  else if 20 < x.exponent then UInt64.size
  else
    (Dyadic.nearest (x.digits * Nat.pow 10 x.exponent.toNat)
      (Nat.pow 10 (-x.exponent).toNat)).floor

def clamp (negative : Bool) (magnitude : Nat) : Int64 :=
  if negative then
    if Nat.pow 2 63 ≤ magnitude then Int64.minValue else Int64.ofInt (-magnitude)
  else
    if Nat.pow 2 63 ≤ magnitude then Int64.maxValue else Int64.ofInt magnitude

/-- The integer that a typed number sets: its whole part, zero if it is not a number. -/
def Reading.toInt64 : Reading → Int64
  | .notANumber => 0
  | .infinite negative => clamp negative UInt64.size
  | .finite x => clamp x.negative x.magnitude

end LightTree.Number
