/-!
# Decimal digits at the head of a text
-/

namespace LightTree.Number

def digitValue (c : Char) : Nat :=
  c.toNat - 48

/-- The leading decimal digits of a text and what follows them. -/
def spanDigits (text : List Char) : List Char × List Char :=
  (text.takeWhile Char.isDigit, text.dropWhile Char.isDigit)

theorem spanDigits_append (text : List Char) :
    (spanDigits text).1 ++ (spanDigits text).2 = text :=
  List.takeWhile_append_dropWhile

def ofDigits (digits : List Char) : Nat :=
  digits.foldl (fun n c ↦ 10 * n + digitValue c) 0

@[simp] theorem ofDigits_nil : ofDigits [] = 0 := rfl

theorem ofDigits_concat (digits : List Char) (c : Char) :
    ofDigits (digits ++ [c]) = 10 * ofDigits digits + digitValue c := by
  simp [ofDigits]

/-- An optional sign: whether it is a minus, and what follows. -/
def spanSign : List Char → Bool × List Char
  | '-' :: rest => (true, rest)
  | '+' :: rest => (false, rest)
  | rest => (false, rest)

def signed (negative : Bool) (magnitude : Nat) : Int :=
  if negative then -magnitude else magnitude

end LightTree.Number
