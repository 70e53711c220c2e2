import LightTree.Text.Blank
import LightTree.Text.Hex

/-!
# Percent escapes in labels

A label is written as one word: each blank and each percent sign becomes the escapes `%XX` of its
UTF-8 bytes. Reading undoes the escapes byte by byte, and what comes out has to be UTF-8 again.
-/

namespace LightTree.Text.Percent

def escape (byte : UInt8) : List Char :=
  ['%', upperHex (byte.toNat / 16), upperHex (byte.toNat % 16)]

/-- Whether a character cannot stand for itself in a written label. -/
def isEscaped (c : Char) : Bool :=
  isBlank c || c == '%'

def encodeChar (c : Char) : List Char :=
  if isEscaped c then (String.utf8EncodeChar c).flatMap escape else [c]

def encode (label : String) : String :=
  String.ofList (label.toList.flatMap encodeChar)

def byteValue? (byte : UInt8) : Option Nat :=
  hexValue? (Char.ofUInt8 byte)

/-- The byte that the two bytes after a percent sign stand for: two hexadecimal digits, or a plus
sign and one digit. -/
def escaped? (high low : UInt8) : Option UInt8 :=
  if high = 43 then (byteValue? low).map UInt8.ofNat
  else
    match byteValue? high, byteValue? low with
    | some h, some l => some (UInt8.ofNat (16 * h + l))
    | _, _ => none

/-- The bytes of a label, each escape replaced by its byte; `none` on a broken escape. -/
def unescape : List UInt8 → Option (List UInt8)
  | [] => some []
  | byte :: rest =>
    if byte = 37 then
      match rest with
      | high :: low :: rest =>
        match escaped? high low with
        | some b => (unescape rest).map (b :: ·)
        | none => none
      | _ => none
    else (unescape rest).map (byte :: ·)

@[simp] theorem unescape_nil : unescape [] = some [] := by simp [unescape]

theorem unescape_cons_of_ne {byte : UInt8} (h : byte ≠ 37) (rest : List UInt8) :
    unescape (byte :: rest) = (unescape rest).map (byte :: ·) := by
  conv => lhs; unfold unescape
  simp [h]

theorem unescape_escape (high low : UInt8) (rest : List UInt8) :
    unescape (37 :: high :: low :: rest) =
      (escaped? high low).bind fun b ↦ (unescape rest).map (b :: ·) := by
  conv => lhs; unfold unescape
  cases h : escaped? high low <;> simp [h]

def decode (word : String) : Option String := do
  let bytes ← unescape word.toByteArray.data.toList
  String.fromUTF8? ⟨bytes.toArray⟩

end LightTree.Text.Percent
