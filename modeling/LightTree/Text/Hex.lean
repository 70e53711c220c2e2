/-!
# Hexadecimal digits
-/

namespace LightTree.Text

/-- The number a hexadecimal digit stands for, in either case. -/
def hexValue? (c : Char) : Option Nat :=
  if 48 ≤ c.toNat ∧ c.toNat ≤ 57 then some (c.toNat - 48)
  else if 65 ≤ c.toNat ∧ c.toNat ≤ 70 then some (c.toNat - 55)
  else if 97 ≤ c.toNat ∧ c.toNat ≤ 102 then some (c.toNat - 87)
  else none

def isHexDigit (c : Char) : Bool :=
  (hexValue? c).isSome

def upperHex (n : Nat) : Char :=
  Char.ofNat (if n < 10 then 48 + n else 55 + n)

def lowerHex (n : Nat) : Char :=
  Char.ofNat (if n < 10 then 48 + n else 87 + n)

theorem hexValue?_upperHex {n : Nat} (h : n < 16) : hexValue? (upperHex n) = some n := by
  revert n
  decide

theorem hexValue?_lowerHex {n : Nat} (h : n < 16) : hexValue? (lowerHex n) = some n := by
  revert n
  decide

theorem hexValue?_lt {c : Char} {n : Nat} (h : hexValue? c = some n) : n < 16 := by
  simp only [hexValue?] at h
  grind

end LightTree.Text
