import LightTree.Json.Decode
import LightTree.Json.Read
import LightTree.Json.Write

/-!
# Numbers and strings are read back from JSON

The digits of a whole number are read as that number if no digit, point or exponent follows them.
The escapes of a string are read as its characters, none of which is half a surrogate pair.
-/

namespace LightTree

open Text Number

namespace Json

/-! ## Whole numbers -/

/-- Whether a numeral comes to an end before a text. -/
def endsNumeral : List Char → Bool
  | [] => true
  | c :: _ => !c.isDigit && c != '.' && c != 'e' && c != 'E'

theorem ofDigits_toDigits (n : Nat) : ofDigits (Nat.toDigits 10 n) = n :=
  Nat.ofDigitChars_ten_toDigits

theorem isDigit_of_mem_toDigits {n : Nat} {c : Char} (h : c ∈ Nat.toDigits 10 n) :
    c.isDigit = true :=
  Nat.isDigit_of_mem_toDigits (by decide) (by decide) h

theorem eq_zero_of_toDigits_eq_cons {n : Nat} {more : List Char}
    (h : Nat.toDigits 10 n = '0' :: more) : n = 0 := by
  induction n using Nat.strongRecOn generalizing more with
  | ind n ih =>
      by_cases hn : n < 10
      · rw [Nat.toDigits_of_lt_base hn] at h
        injection h with hdigit
        clear ih
        revert n
        decide
      · rw [Nat.toDigits_of_base_le (by decide) (Nat.le_of_not_lt hn)] at h
        obtain ⟨c, digits, hdigits⟩ :=
          List.exists_cons_of_ne_nil (Nat.toDigits_ne_nil (n := n / 10) (b := 10))
        rw [hdigits, List.cons_append] at h
        injection h with hc
        have := ih (n / 10) (by omega) (hc ▸ hdigits)
        omega

theorem spanDigits_toDigits (n : Nat) {rest : List Char} (hrest : endsNumeral rest = true) :
    spanDigits (Nat.toDigits 10 n ++ rest) = (Nat.toDigits 10 n, rest) := by
  have hdigits : ∀ c ∈ Nat.toDigits 10 n, c.isDigit = true := fun _ ↦ isDigit_of_mem_toDigits
  have hstop : rest.takeWhile Char.isDigit = [] ∧ rest.dropWhile Char.isDigit = rest := by
    cases rest with
    | nil => exact ⟨rfl, rfl⟩
    | cons c rest => simp_all [endsNumeral]
  rw [spanDigits, List.takeWhile_append_of_pos hdigits, List.dropWhile_append_of_pos hdigits,
    hstop.1, hstop.2, List.append_nil]

theorem whole?_toDigits (n : Nat) {rest : List Char} (hrest : endsNumeral rest = true) :
    whole? (Nat.toDigits 10 n ++ rest) = some (Nat.toDigits 10 n, rest) := by
  rw [whole?, spanDigits_toDigits n hrest]
  split
  · next h => exact absurd (congrArg Prod.fst h) Nat.toDigits_ne_nil
  · next h =>
      -- Only zero has a zero at its head, and nothing behind it.
      have hdigits := congrArg Prod.fst h
      rw [eq_zero_of_toDigits_eq_cons hdigits, Nat.toDigits_zero] at hdigits
      cases hdigits
  · next h => exact congrArg some h.symm

theorem fraction?_of_endsNumeral {rest : List Char} (h : endsNumeral rest = true) :
    fraction? rest = some (none, rest) := by
  unfold fraction?
  split
  · cases h
  · rfl

theorem exponent?_of_endsNumeral {rest : List Char} (h : endsNumeral rest = true) :
    exponent? rest = some (none, rest) := by
  cases rest with
  | nil => rfl
  | cons c rest =>
      have hc : (c = 'e' || c = 'E') = false := by simp_all [endsNumeral]
      simp [exponent?, hc]

theorem numeral?_toDigits (negative : Bool) (n : Nat) {rest : List Char}
    (hrest : endsNumeral rest = true) :
    numeral? negative (Nat.toDigits 10 n ++ rest) =
      some (⟨negative, Nat.toDigits 10 n, [], 0, true⟩, rest) := by
  simp [numeral?, whole?_toDigits n hrest, fraction?_of_endsNumeral hrest,
    exponent?_of_endsNumeral hrest]

@[simp] theorem toInt?_ofInt (n : Int) : (ofInt n).toInt? = some n := by
  have hzero : (decide (n < 0) && n.natAbs == 0) = false := by
    simp
    omega
  simp only [ofInt, toInt?, Numeral.toInt?, Numeral.ofInt, ofDigits_toDigits, hzero, Bool.not_false,
    Bool.and_true, if_true, signed, decide_eq_true_eq, Option.some.injEq]
  split <;> omega

theorem le_foldl_digits (n : Nat) (digits : List Char) :
    n ≤ digits.foldl (fun n c ↦ 10 * n + digitValue c) n := by
  induction digits generalizing n with
  | nil => exact Nat.le_refl n
  | cons c digits ih =>
      have := ih (10 * n + digitValue c)
      rw [List.foldl_cons]
      omega

/-- The digits of a number that fits a word are all taken. -/
theorem absorb_eq {n : Nat} {digits : List Char}
    (h : digits.foldl (fun n c ↦ 10 * n + digitValue c) n < UInt64.size) :
    absorb n digits = (digits.foldl (fun n c ↦ 10 * n + digitValue c) n, []) := by
  induction digits generalizing n with
  | nil => rfl
  | cons c digits ih =>
      rw [List.foldl_cons] at h ⊢
      have hfits := Nat.lt_of_le_of_lt (le_foldl_digits (10 * n + digitValue c) digits) h
      rw [absorb, if_pos hfits, ih h]

theorem inRange_ofInt {n : Int} (h : n.natAbs < UInt64.size) :
    (Numeral.ofInt n).inRange = true := by
  have hread : (Nat.toDigits 10 n.natAbs).foldl (fun n c ↦ 10 * n + digitValue c) 0 = n.natAbs :=
    ofDigits_toDigits n.natAbs
  have hwhole := absorb_eq (hread.symm ▸ h)
  rw [hread] at hwhole
  have hscientific : (Numeral.ofInt n).scientific = (n.natAbs, 0) := by
    simp [Numeral.scientific, Numeral.ofInt, hwhole, absorb]
  simp only [Numeral.inRange, hscientific, Int.le_refl, decide_true, Bool.or_true, Bool.true_or]

/-! ## Strings -/

theorem points?_short {c : Char} {point : Nat} (h : shortEscape? c = some point)
    (text : List Char) :
    points? ('\\' :: c :: text) = (points? text).map (Prod.map (point :: ·) id) := by
  have hu : c ≠ 'u' := by
    rintro rfl
    have hnone : shortEscape? 'u' = none := by decide
    exact absurd (hnone.symm.trans h) nofun
  rw [points?.eq_4 _ _ fun _ _ _ _ _ hc _ ↦ hu hc, h, Option.bind_eq_bind, Option.bind_some]
  cases points? text <;> rfl

theorem points?_unit {a b c d : Char} {point : Nat} (h : unit? a b c d = some point)
    (text : List Char) :
    points? ('\\' :: 'u' :: a :: b :: c :: d :: text) =
      (points? text).map (Prod.map (point :: ·) id) := by
  rw [points?, h, Option.bind_eq_bind, Option.bind_some]
  cases points? text <;> rfl

theorem points?_plain {c : Char} (hquote : c ≠ '"') (hescape : c ≠ '\\')
    (hcontrol : ¬c.toNat < 0x20) (text : List Char) :
    points? (c :: text) = (points? text).map (Prod.map (c.toNat :: ·) id) := by
  rw [points?.eq_5 _ _ hquote (fun _ _ _ _ _ hc _ ↦ hescape hc) (fun _ _ hc _ ↦ hescape hc),
    if_neg (by simp [hcontrol, hescape])]
  cases points? text <;> rfl

theorem unit?_control {n : Nat} (h : n < 0x20) :
    unit? '0' '0' (lowerHex (n / 16)) (lowerHex (n % 16)) = some n := by
  revert n
  decide

theorem points?_escapeChar (c : Char) (text : List Char) :
    points? (escapeChar c ++ text) = (points? text).map (Prod.map (c.toNat :: ·) id) := by
  unfold escapeChar
  by_cases hquote : c = '"'
  · rw [if_pos hquote, hquote]
    exact points?_short rfl text
  rw [if_neg hquote]
  by_cases hescape : c = '\\'
  · rw [if_pos hescape, hescape]
    exact points?_short rfl text
  rw [if_neg hescape]
  split
  · next h => exact h ▸ points?_short rfl text
  split
  · next h => exact h ▸ points?_short rfl text
  split
  · next h => exact h ▸ points?_short rfl text
  split
  · next h => exact h ▸ points?_short rfl text
  split
  · next h => exact h ▸ points?_short rfl text
  split
  · next h => exact points?_unit (unit?_control h) text
  · next h => exact points?_plain hquote hescape h text

theorem points?_flatMap_escapeChar (chars text : List Char) :
    points? (chars.flatMap escapeChar ++ '"' :: text) = some (chars.map Char.toNat, text) := by
  induction chars with
  | nil => rfl
  | cons c chars ih =>
      rw [List.flatMap_cons, List.append_assoc, points?_escapeChar, ih]
      rfl

/-- A character is no half of a surrogate pair. -/
theorem not_surrogate_toNat (c : Char) : isHigh c.toNat = false ∧ isLow c.toNat = false := by
  have hvalid : c.toNat < 0xD800 ∨ 0xDFFF < c.toNat ∧ c.toNat < 0x110000 := c.valid
  simp only [isHigh, isLow, Bool.and_eq_false_iff, decide_eq_false_iff_not]
  omega

theorem characters?_map_toNat (chars : List Char) :
    characters? (chars.map Char.toNat) = some chars := by
  induction chars with
  | nil => rfl
  | cons c chars ih =>
      obtain ⟨hhigh, hlow⟩ := not_surrogate_toNat c
      cases chars with
      | nil => simp [characters?, hhigh, hlow, Char.ofNat_toNat]
      | cons d chars =>
          rw [List.map_cons] at ih
          simp [characters?, hhigh, hlow, Char.ofNat_toNat, ih]

theorem string?_escaped (s : String) (rest : List Char) :
    string? (s.toList.flatMap escapeChar ++ '"' :: rest) = some (some s, rest) := by
  simp [string?, points?_flatMap_escapeChar, characters?_map_toNat]

end Json

end LightTree
