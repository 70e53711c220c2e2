/-!
# Rounding to fifty-three significant bits

A quotient of two naturals is rounded to the nearest number with a significand below `2 ^ 53`; of
two that are equally near the even one is taken. Exponents are not limited: a number too large or
too small for a machine word keeps its value here, and the caller says what becomes of it.
-/

namespace LightTree.Number

def roundHalfEven (num den : Nat) : Nat :=
  let q := num / den
  let r := num % den
  if 2 * r < den then q
  else if den < 2 * r then q + 1
  else if q % 2 = 0 then q else q + 1

theorem roundHalfEven_one (n : Nat) : roundHalfEven n 1 = n := by
  simp [roundHalfEven, Nat.mod_one]

theorem le_roundHalfEven (num den : Nat) : num / den ≤ roundHalfEven num den := by
  simp only [roundHalfEven]
  split
  · omega
  · split
    · omega
    · split
      · omega
      · omega

theorem roundHalfEven_le (num den : Nat) : roundHalfEven num den ≤ num / den + 1 := by
  simp only [roundHalfEven]
  split
  · omega
  · split
    · omega
    · split
      · omega
      · omega

/-- The number `significand * 2 ^ exponent`. -/
structure Dyadic where
  significand : Nat
  exponent : Int
deriving DecidableEq, Repr

/-- `num / den`, divided by a power of two that may be below one, and rounded. -/
def Dyadic.scaled (num den : Nat) (exponent : Int) : Dyadic :=
  let n := exponent.toNat
  let m := (-exponent).toNat
  ⟨roundHalfEven (num * Nat.pow 2 m) (den * Nat.pow 2 n), exponent⟩

/-- The number with fifty-three significant bits nearest to `num / den`. The first exponent tried
puts the quotient between `2 ^ 51` and `2 ^ 53`; below `2 ^ 52` one more bit fits. -/
def Dyadic.nearest (num den : Nat) : Dyadic :=
  let exponent : Int := (num.log2 : Int) - den.log2 - 52
  if num * Nat.pow 2 (-exponent).toNat < Nat.pow 2 52 * (den * Nat.pow 2 exponent.toNat) then
    scaled num den (exponent - 1)
  else
    scaled num den exponent

def Dyadic.floor (x : Dyadic) : Nat :=
  x.significand * Nat.pow 2 x.exponent.toNat / Nat.pow 2 (-x.exponent).toNat

end LightTree.Number
