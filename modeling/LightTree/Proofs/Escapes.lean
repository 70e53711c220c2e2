import LightTree.Text.Percent

/-!
# Words and escapes are read back

Words that are put in a row with single spaces fall apart into the same words, and a label that is
escaped and read again is the same label. Between the escapes stand only bytes of other characters,
none of which is the byte of a percent sign.
-/

namespace LightTree.Text

/-! ## Words -/

/-- A text that is one word: it is not empty and holds no blank. -/
def isWord (text : String) : Bool :=
  text != "" && !hasBlank text

theorem toList_ne_nil_of_isWord {text : String} (h : isWord text = true) : text.toList ≠ [] := by
  intro hnil
  have hempty : text = "" := String.toList_eq_nil_iff.1 hnil
  simp [isWord, hempty] at h

theorem not_blank_of_isWord {text : String} (h : isWord text = true) :
    ∀ c ∈ text.toList, isBlank c = false := by
  simpa [isWord, hasBlank] using (Bool.and_eq_true_iff.1 h).2

theorem words_of_isWord {text : String} (h : isWord text = true) : words text = [text] := by
  rw [words, wordsOf_of_not_blank (toList_ne_nil_of_isWord h) (not_blank_of_isWord h)]
  simp

/-- What a text falls into are words. -/
theorem isWord_of_mem {text word : String} (h : word ∈ words text) : isWord word = true := by
  obtain ⟨chars, hchars, rfl⟩ := List.mem_map.1 h
  obtain ⟨hne, hblank⟩ := of_mem_wordsOf hchars
  have hword : String.ofList chars ≠ "" := fun hempty ↦ hne (by simpa using hempty)
  have hclean : hasBlank (String.ofList chars) = false := by
    simpa [hasBlank] using hblank
  rw [isWord, hclean, bne_iff_ne.2 hword]
  rfl

theorem words_append_space (first second : String) :
    words (first ++ " " ++ second) = words first ++ words second := by
  have hspace : isBlank ' ' = true := by decide
  simp only [words, String.toList_append, List.append_assoc, ← List.map_append]
  exact congrArg _ (wordsOf_append_blank hspace first.toList second.toList)

/-- Of texts without blanks in a row, those that are not empty come back. -/
theorem words_unwords_filter {list : List String} (h : ∀ text ∈ list, hasBlank text = false) :
    words (unwords list) = list.filter (· ≠ "") := by
  induction list with
  | nil => rfl
  | cons text rest ih =>
      have htext : words text = [text].filter (· ≠ "") := by
        by_cases hempty : text = ""
        · simp [hempty, words]
        · have hblank := h text List.mem_cons_self
          rw [words_of_isWord (by simp [isWord, hempty, hblank])]
          simp [hempty]
      cases rest with
      | nil => exact htext
      | cons next rest =>
          have hrest := ih fun word hw ↦ h word (List.mem_cons_of_mem text hw)
          rw [unwords, String.intercalate_cons_cons, words_append_space, htext, ← unwords, hrest,
            ← List.filter_append]
          rfl

theorem words_unwords {list : List String} (h : ∀ text ∈ list, isWord text = true) :
    words (unwords list) = list := by
  have hparts := fun text ht ↦ Bool.and_eq_true_iff.1 (h text ht)
  rw [words_unwords_filter fun text ht ↦ by simpa using (hparts text ht).2]
  exact List.filter_eq_self.2 fun text ht ↦ by simpa using (hparts text ht).1

namespace Percent

/-! ## Bytes of characters -/

/-- The bytes that a list of characters is stored as. -/
def bytesOf (text : List Char) : List UInt8 :=
  text.flatMap String.utf8EncodeChar

@[simp] theorem bytesOf_append (first second : List Char) :
    bytesOf (first ++ second) = bytesOf first ++ bytesOf second :=
  List.flatMap_append

theorem toList_toByteArray_ofList (text : List Char) :
    (String.ofList text).toByteArray.data.toList = bytesOf text := by
  rw [String.toByteArray_ofList]
  exact List.toList_data_toByteArray

theorem utf8EncodeChar_of_ascii {c : Char} (h : c.toNat < 128) :
    String.utf8EncodeChar c = [UInt8.ofNat c.toNat] :=
  if_pos (Nat.le_of_lt_succ h)

/-- A character other than the percent sign does not have its byte: the bytes of a character beyond
the first 128 are all larger. -/
theorem percent_not_mem_utf8EncodeChar {c : Char} (hc : c ≠ '%') :
    37 ∉ String.utf8EncodeChar c := by
  intro hmem
  have hbyte : ∀ n : Nat, 37 = UInt8.ofNat n → n % 256 = 37 := fun n h ↦ by
    simpa using (congrArg UInt8.toNat h).symm
  simp only [String.utf8EncodeChar] at hmem
  split at hmem
  · have hn := hbyte _ (List.mem_singleton.1 hmem)
    apply hc
    apply Char.toNat_inj.1
    change c.val.toNat = 37
    omega
  · split at hmem
    · simp only [List.mem_cons, List.not_mem_nil, or_false] at hmem
      rcases hmem with h | h <;> have := hbyte _ h <;> omega
    · split at hmem
      · simp only [List.mem_cons, List.not_mem_nil, or_false] at hmem
        rcases hmem with h | h | h <;> have := hbyte _ h <;> omega
      · simp only [List.mem_cons, List.not_mem_nil, or_false] at hmem
        rcases hmem with h | h | h | h <;> have := hbyte _ h <;> omega

/-! ## Reading escapes -/

theorem unescape_append {bytes : List UInt8} (h : 37 ∉ bytes) (rest : List UInt8) :
    unescape (bytes ++ rest) = (unescape rest).map (bytes ++ ·) := by
  induction bytes with
  | nil => simp
  | cons byte bytes ih =>
      rw [List.mem_cons, not_or] at h
      rw [List.cons_append, unescape_cons_of_ne (Ne.symm h.1), ih h.2, Option.map_map]
      rfl

theorem ascii_upperHex {n : Nat} (h : n < 16) : (upperHex n).toNat < 128 := by
  revert n
  decide

theorem upperHex_ne_plus {n : Nat} (h : n < 16) : UInt8.ofNat (upperHex n).toNat ≠ 43 := by
  revert n
  decide

theorem byteValue?_upperHex {n : Nat} (h : n < 16) :
    byteValue? (UInt8.ofNat (upperHex n).toNat) = some n := by
  revert n
  decide

/-- The escape of a byte is read as that byte. -/
theorem unescape_bytesOf_escape (byte : UInt8) (rest : List UInt8) :
    unescape (bytesOf (escape byte) ++ rest) = (unescape rest).map (byte :: ·) := by
  have hbyte : byte.toNat < 256 := byte.toNat_lt
  have hhigh : byte.toNat / 16 < 16 := by omega
  have hlow : byte.toNat % 16 < 16 := by omega
  have hescape : bytesOf (escape byte) = [37, UInt8.ofNat (upperHex (byte.toNat / 16)).toNat,
      UInt8.ofNat (upperHex (byte.toNat % 16)).toNat] := by
    simp only [bytesOf, escape, List.flatMap_cons, List.flatMap_nil,
      utf8EncodeChar_of_ascii (ascii_upperHex hhigh), utf8EncodeChar_of_ascii (ascii_upperHex hlow)]
    rfl
  have hvalue : UInt8.ofNat (16 * (byte.toNat / 16) + byte.toNat % 16) = byte := by
    rw [Nat.div_add_mod]
    exact UInt8.ofNat_toNat
  rw [hescape, List.cons_append, List.cons_append, List.cons_append, List.nil_append,
    unescape_escape, escaped?, if_neg (upperHex_ne_plus hhigh), byteValue?_upperHex hhigh,
    byteValue?_upperHex hlow]
  simp [hvalue]

theorem unescape_bytesOf_flatMap_escape (bytes rest : List UInt8) :
    unescape (bytesOf (bytes.flatMap escape) ++ rest) = (unescape rest).map (bytes ++ ·) := by
  induction bytes with
  | nil => simp [bytesOf]
  | cons byte bytes ih =>
      rw [List.flatMap_cons, bytesOf_append, List.append_assoc, unescape_bytesOf_escape, ih,
        Option.map_map]
      rfl

theorem unescape_bytesOf_encodeChar (c : Char) (rest : List UInt8) :
    unescape (bytesOf (encodeChar c) ++ rest) =
      (unescape rest).map (String.utf8EncodeChar c ++ ·) := by
  unfold encodeChar
  split
  · exact unescape_bytesOf_flatMap_escape _ rest
  · next hc =>
      have hne : c ≠ '%' := by
        rintro rfl
        exact hc (by decide)
      have hbytes : bytesOf [c] = String.utf8EncodeChar c := by simp [bytesOf]
      rw [hbytes, unescape_append (percent_not_mem_utf8EncodeChar hne)]

theorem unescape_bytesOf_encode (text : List Char) :
    unescape (bytesOf (text.flatMap encodeChar)) = some (bytesOf text) := by
  induction text with
  | nil => simp [bytesOf]
  | cons c rest ih =>
      rw [List.flatMap_cons, bytesOf_append, unescape_bytesOf_encodeChar, ih]
      rfl

/-- An escaped label is read as the label. -/
theorem decode_encode (label : String) : decode (encode label) = some label := by
  have hbytes : (⟨(bytesOf label.toList).toArray⟩ : ByteArray) = label.toByteArray := by
    rw [← toList_toByteArray_ofList, String.ofList_toList]
  rw [decode, encode, toList_toByteArray_ofList, unescape_bytesOf_encode]
  simp only [Option.bind_eq_bind, Option.bind_some, hbytes]
  exact dif_pos label.isValidUTF8

theorem not_blank_upperHex {n : Nat} (h : n < 16) : isBlank (upperHex n) = false := by
  revert n
  decide

theorem not_blank_of_mem_escape {byte : UInt8} {c : Char} (h : c ∈ escape byte) :
    isBlank c = false := by
  have hbyte : byte.toNat < 256 := byte.toNat_lt
  simp only [escape, List.mem_cons, List.not_mem_nil, or_false] at h
  rcases h with rfl | rfl | rfl
  · decide
  · exact not_blank_upperHex (by omega)
  · exact not_blank_upperHex (by omega)

theorem not_blank_of_mem_encodeChar {c d : Char} (h : d ∈ encodeChar c) : isBlank d = false := by
  unfold encodeChar at h
  split at h
  · obtain ⟨byte, _, hd⟩ := List.mem_flatMap.1 h
    exact not_blank_of_mem_escape hd
  · next hc =>
      obtain rfl := List.mem_singleton.1 h
      simp only [isEscaped, Bool.or_eq_true, not_or, Bool.not_eq_true] at hc
      exact hc.1

/-- An escaped label holds no blank. -/
theorem hasBlank_encode (label : String) : hasBlank (encode label) = false := by
  simp only [hasBlank, encode, String.toList_ofList, List.any_eq_false, Bool.not_eq_true]
  intro d hd
  obtain ⟨c, _, hc⟩ := List.mem_flatMap.1 hd
  exact not_blank_of_mem_encodeChar hc

end Percent

end LightTree.Text
