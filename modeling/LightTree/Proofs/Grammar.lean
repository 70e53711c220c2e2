import LightTree.Proofs.Rereading

/-!
# The grammar of descriptors

A descriptor is accepted exactly if its words derive from the grammar of the types, and what is
refused is refused as a descriptor. The grammar is stated over the characters of the words, with the
reading of the two characters after a percent sign as a parameter: the reader takes a plus sign and
one digit there as well as two hexadecimal digits, and this is all in which it departs from the
grammar with two hexadecimal digits.
-/

namespace LightTree

open Text

namespace Text.Percent

/-- The byte of two hexadecimal digits. -/
def hexPair? (high low : Char) : Option UInt8 :=
  (hexValue? high).bind fun h ↦ (hexValue? low).map fun l ↦ UInt8.ofNat (16 * h + l)

/-- The byte of two hexadecimal digits, or of a plus sign and one digit. -/
def signedPair? (high low : Char) : Option UInt8 :=
  if high = '+' then (hexValue? low).map UInt8.ofNat else hexPair? high low

/-- The label spells the bytes: each percent sign begins an escape of two characters that stand for
one byte, every other character stands for its own bytes. -/
inductive Spells (pair? : Char → Char → Option UInt8) : List Char → List UInt8 → Prop
  | nil : Spells pair? [] []
  | char {c : Char} {label : List Char} {bytes : List UInt8} (hc : c ≠ '%')
      (rest : Spells pair? label bytes) :
      Spells pair? (c :: label) (String.utf8EncodeChar c ++ bytes)
  | escape {high low : Char} {byte : UInt8} {label : List Char} {bytes : List UInt8}
      (hbyte : pair? high low = some byte) (rest : Spells pair? label bytes) :
      Spells pair? ('%' :: high :: low :: label) (byte :: bytes)

/-! ## Two characters after a percent sign -/

theorem signedPair?_of_hexPair? {high low : Char} {byte : UInt8}
    (h : hexPair? high low = some byte) : signedPair? high low = some byte := by
  have hne : high ≠ '+' := by
    rintro rfl
    have hplus : hexValue? '+' = none := by decide
    simp [hexPair?, hplus] at h
  rwa [signedPair?, if_neg hne]

theorem hexPair?_of_ne_plus {high : Char} (h : high ≠ '+') (low : Char) :
    signedPair? high low = hexPair? high low :=
  if_neg h

theorem hexValue?_eq_none_of_not_ascii {c : Char} (h : 128 ≤ c.toNat) : hexValue? c = none := by
  simp only [hexValue?]
  grind

theorem byteValue?_of_ascii {c : Char} (h : c.toNat < 128) :
    byteValue? (UInt8.ofNat c.toNat) = hexValue? c := by
  have hchar : Char.ofUInt8 (UInt8.ofNat c.toNat) = c := by
    apply Char.toNat_inj.1
    have hbyte : (UInt8.ofNat c.toNat).toNat = c.toNat := by
      rw [UInt8.toNat_ofNat']
      omega
    exact hbyte
  rw [byteValue?, hchar]

theorem byteValue?_eq_none_of_not_ascii {byte : UInt8} (h : 128 ≤ byte.toNat) :
    byteValue? byte = none :=
  hexValue?_eq_none_of_not_ascii h

theorem escaped?_of_not_ascii {high low : UInt8} (h : 128 ≤ high.toNat ∨ 128 ≤ low.toNat) :
    escaped? high low = none := by
  unfold escaped?
  rcases h with h | h
  · have hne : high ≠ 43 := by
      rintro rfl
      exact absurd h (by decide)
    rw [if_neg hne, byteValue?_eq_none_of_not_ascii h]
  · rw [byteValue?_eq_none_of_not_ascii h]
    split
    · rfl
    · cases byteValue? high <;> rfl

theorem escaped?_of_ascii {high low : Char} (hhigh : high.toNat < 128) (hlow : low.toNat < 128) :
    escaped? (UInt8.ofNat high.toNat) (UInt8.ofNat low.toNat) = signedPair? high low := by
  have hplus : UInt8.ofNat high.toNat = 43 ↔ high = '+' := by
    constructor
    · intro h
      apply Char.toNat_inj.1
      have hn := congrArg UInt8.toNat h
      rw [UInt8.toNat_ofNat'] at hn
      change high.toNat % 256 = 43 at hn
      change high.toNat = 43
      omega
    · rintro rfl
      rfl
  unfold escaped? signedPair? hexPair?
  simp only [hplus, byteValue?_of_ascii hhigh, byteValue?_of_ascii hlow]
  split
  · rfl
  · cases hexValue? high <;> cases hexValue? low <;> rfl

/-- The first byte of a character beyond the first 128 is at least 128. -/
theorem exists_utf8EncodeChar_of_not_ascii {c : Char} (h : 128 ≤ c.toNat) :
    ∃ byte bytes, String.utf8EncodeChar c = byte :: bytes ∧ 128 ≤ byte.toNat := by
  have hbyte : ∀ n k : Nat, 128 ≤ k → k + n < 256 → 128 ≤ (UInt8.ofNat (n + k)).toNat :=
    fun n k hk hn ↦ by
      rw [UInt8.toNat_ofNat']
      omega
  have hval : c.val.toNat = c.toNat := rfl
  have hbig : ¬ c.val.toNat ≤ 0x7f := by omega
  have hvalid : c.val.toNat < 1114112 := by
    have := c.valid
    simp only [UInt32.isValidChar, Nat.isValidChar] at this
    omega
  simp only [String.utf8EncodeChar, if_neg hbig]
  split
  · exact ⟨_, _, rfl, by rw [UInt8.toNat_ofNat']; omega⟩
  · split
    · exact ⟨_, _, rfl, by rw [UInt8.toNat_ofNat']; omega⟩
    · exact ⟨_, _, rfl, by rw [UInt8.toNat_ofNat']; omega⟩

/-! ## Reading a label -/

theorem unescape_percent_short {bytes : List UInt8} (h : bytes.length < 2) :
    unescape (37 :: bytes) = none := by
  rcases bytes with _ | ⟨a, _ | ⟨b, rest⟩⟩
  · simp [unescape]
  · simp [unescape]
  · exact absurd h (by simp)

theorem unescape_percent_of_not_ascii {high : Char} (h : 128 ≤ high.toNat) (rest : List UInt8) :
    unescape (37 :: (String.utf8EncodeChar high ++ rest)) = none := by
  obtain ⟨byte, bytes, hbytes, hbyte⟩ := exists_utf8EncodeChar_of_not_ascii h
  rw [hbytes, List.cons_append]
  rcases hrest : bytes ++ rest with _ | ⟨low, rest⟩
  · exact unescape_percent_short (by simp)
  · rw [unescape_escape, escaped?_of_not_ascii (.inl hbyte)]
    rfl

/-- A percent sign and two characters after it are read as the byte of the two characters, if they
stand for one. -/
theorem unescape_percent (high low : Char) (label : List Char) :
    unescape (bytesOf ('%' :: high :: low :: label)) =
      (signedPair? high low).bind fun byte ↦ (unescape (bytesOf label)).map (byte :: ·) := by
  have hbytes : bytesOf ('%' :: high :: low :: label) =
      37 :: (String.utf8EncodeChar high ++ (String.utf8EncodeChar low ++ bytesOf label)) := rfl
  have hnone : ∀ {c : Char}, 128 ≤ c.toNat → hexValue? c = none := hexValue?_eq_none_of_not_ascii
  rw [hbytes]
  by_cases hhigh : high.toNat < 128
  · by_cases hlow : low.toNat < 128
    · rw [utf8EncodeChar_of_ascii hhigh, utf8EncodeChar_of_ascii hlow, List.cons_append,
        List.nil_append, List.cons_append, List.nil_append, unescape_escape,
        escaped?_of_ascii hhigh hlow]
    · obtain ⟨byte, bytes, hencode, hbyte⟩ :=
        exists_utf8EncodeChar_of_not_ascii (Nat.le_of_not_lt hlow)
      have hpair : signedPair? high low = none := by
        simp [signedPair?, hexPair?, hnone (Nat.le_of_not_lt hlow)]
      rw [utf8EncodeChar_of_ascii hhigh, hencode, List.cons_append, List.nil_append,
        List.cons_append, unescape_escape, escaped?_of_not_ascii (.inr hbyte), hpair]
      rfl
  · have hpair : signedPair? high low = none := by
      have hne : high ≠ '+' := by
        rintro rfl
        exact hhigh (by decide)
      simp [signedPair?, hexPair?, hne, hnone (Nat.le_of_not_lt hhigh)]
    rw [unescape_percent_of_not_ascii (Nat.le_of_not_lt hhigh), hpair]
    rfl

/-- A percent sign with less than two characters after it is a broken escape. -/
theorem unescape_percent_end {label : List Char} (h : label.length < 2) :
    unescape (bytesOf ('%' :: label)) = none := by
  rcases label with _ | ⟨c, _ | ⟨d, rest⟩⟩
  · exact unescape_percent_short (by simp)
  · have hbytes : bytesOf ['%', c] = 37 :: (String.utf8EncodeChar c ++ []) := rfl
    rw [hbytes]
    by_cases hc : c.toNat < 128
    · rw [utf8EncodeChar_of_ascii hc]
      exact unescape_percent_short (by simp)
    · exact unescape_percent_of_not_ascii (Nat.le_of_not_lt hc) []
  · exact absurd h (by simp)

theorem unescape_bytesOf_cons {c : Char} (hc : c ≠ '%') (label : List Char) :
    unescape (bytesOf (c :: label)) =
      (unescape (bytesOf label)).map (String.utf8EncodeChar c ++ ·) :=
  unescape_append (percent_not_mem_utf8EncodeChar hc) (bytesOf label)

theorem unescape_of_spells {label : List Char} {bytes : List UInt8}
    (h : Spells signedPair? label bytes) : unescape (bytesOf label) = some bytes := by
  induction h with
  | nil => exact unescape_nil
  | char hc _ ih => rw [unescape_bytesOf_cons hc, ih, Option.map_some]
  | escape hbyte _ ih => rw [unescape_percent, hbyte, ih, Option.bind_some, Option.map_some]

theorem spells_of_unescape (label : List Char) {bytes : List UInt8}
    (h : unescape (bytesOf label) = some bytes) : Spells signedPair? label bytes := by
  induction hn : label.length using Nat.strongRecOn generalizing label bytes with
  | _ n ih =>
    rcases label with _ | ⟨c, rest⟩
    · rw [bytesOf, List.flatMap_nil, unescape_nil] at h
      cases h
      exact .nil
    · by_cases hc : c = '%'
      · subst hc
        rcases rest with _ | ⟨high, _ | ⟨low, rest⟩⟩
        · rw [unescape_percent_end (by simp)] at h
          cases h
        · rw [unescape_percent_end (by simp)] at h
          cases h
        · rw [unescape_percent] at h
          obtain ⟨byte, hbyte, h⟩ := Option.bind_eq_some_iff.1 h
          obtain ⟨more, hmore, rfl⟩ := Option.map_eq_some_iff.1 h
          simp only [List.length_cons] at hn
          exact .escape hbyte (ih rest.length (by omega) rest hmore rfl)
      · rw [unescape_bytesOf_cons hc] at h
        obtain ⟨more, hmore, rfl⟩ := Option.map_eq_some_iff.1 h
        simp only [List.length_cons] at hn
        exact .char hc (ih rest.length (by omega) rest hmore rfl)

/-- A word is read as the label whose bytes it spells. -/
theorem decode_eq_some_iff {word : List Char} {name : String} :
    decode (String.ofList word) = some name ↔ Spells signedPair? word (bytesOf name.toList) := by
  have hname : name.toByteArray.data.toList = bytesOf name.toList := by
    rw [← toList_toByteArray_ofList, String.ofList_toList]
  rw [decode, toList_toByteArray_ofList]
  constructor
  · intro h
    obtain ⟨bytes, hbytes, h⟩ := Option.bind_eq_some_iff.1 h
    have hspelt := spells_of_unescape word hbytes
    unfold String.fromUTF8? at h
    split at h
    · cases h
      rwa [← hname]
    · cases h
  · intro h
    have hbytes : (⟨(bytesOf name.toList).toArray⟩ : ByteArray) = name.toByteArray := by
      rw [← hname]
    rw [unescape_of_spells h]
    simp only [Option.bind_eq_bind, Option.bind_some, hbytes]
    exact dif_pos name.isValidUTF8

/-! ## Escapes of two hexadecimal digits -/

theorem Spells.imp {first? second? : Char → Char → Option UInt8}
    (hpair : ∀ {high low byte}, first? high low = some byte → second? high low = some byte)
    {label : List Char} {bytes : List UInt8} (h : Spells first? label bytes) :
    Spells second? label bytes := by
  induction h with
  | nil => exact .nil
  | char hc _ ih => exact .char hc ih
  | escape hbyte _ ih => exact .escape (hpair hbyte) ih

/-- A label without an escape that begins with a plus sign spells its bytes in hexadecimal digits. -/
theorem Spells.hexPair {label : List Char} {bytes : List UInt8}
    (h : Spells signedPair? label bytes) (hplus : ¬ ['%', '+'] <:+: label) :
    Spells hexPair? label bytes := by
  induction h with
  | nil => exact .nil
  | @char c label _ hc _ ih =>
      exact .char hc (ih fun hmem ↦ hplus (hmem.trans (List.suffix_cons c label).isInfix))
  | @escape high low _ label _ hbyte _ ih =>
      have hne : high ≠ '+' := by
        rintro rfl
        exact hplus ⟨[], low :: label, rfl⟩
      have hsuffix : label <:+ '%' :: high :: low :: label := ⟨['%', high, low], rfl⟩
      exact .escape ((hexPair?_of_ne_plus hne low).symm.trans hbyte)
        (ih fun hmem ↦ hplus (hmem.trans hsuffix.isInfix))

end Text.Percent

namespace Descriptor

open Percent

/-! ## The grammar -/

/-- The word names a type that stands alone. -/
def IsBare (word : String) : Prop :=
  word ∈ ["int", "position", "boolean", "string", "color"]

/-- The words are one or more names, each with a type that stands alone. -/
inductive Pairs : List String → Prop
  | one (name : String) {word : String} (hword : IsBare word) : Pairs [name, word]
  | cons (name : String) {word : String} {words : List String} (hword : IsBare word)
      (rest : Pairs words) : Pairs (name :: word :: words)

/-- What follows the first colon of the word, if it has one, spells the bytes of a text. -/
def IsOption (pair? : Char → Char → Option UInt8) (word : String) : Prop :=
  ∀ value label, word.toList = value ++ ':' :: label → ':' ∉ value →
    ∃ name : String, Spells pair? label (bytesOf name.toList)

/-- The words derive from the grammar of descriptors. -/
inductive Derives (pair? : Char → Char → Option UInt8) : List String → Prop
  | bare {word : String} (hword : IsBare word) : Derives pair? [word]
  | select {options : List String} (hne : options ≠ [])
      (hoptions : ∀ word ∈ options, IsOption pair? word) : Derives pair? ("select" :: options)
  | list {words : List String} (hpairs : Pairs words) : Derives pair? ("repeat" :: words)
  | link (source : String) {words : List String} (hpairs : Pairs words) :
      Derives pair? ("link" :: source :: words)
  | rely (source : String) {words : List String} (rest : Derives pair? words) :
      Derives pair? ("rely" :: source :: words)
  | relyValue (source target : String) {words : List String} (rest : Derives pair? words) :
      Derives pair? ("rely_value" :: source :: target :: words)

/-- The label of the word has an escape that begins with a plus sign. -/
def SignsEscape (word : String) : Prop :=
  ∃ value label, word.toList = value ++ ':' :: label ∧ ['%', '+'] <:+: label

theorem scalar?_isSome_iff {name word : String} :
    (∃ decl, scalar? name word = some decl) ↔ IsBare word := by
  unfold scalar? IsBare
  split <;> simp_all

theorem IsBare.exists_scalar? {word : String} (h : IsBare word) (name : String) :
    ∃ decl, scalar? name word = some decl :=
  scalar?_isSome_iff.2 h

/-! ## Pairs -/

theorem exists_pairs_of_pairs {words : List String} (h : Pairs words) :
    words ≠ [] ∧ words.length % 2 = 0 ∧ ∃ element, pairs words = .ok element := by
  induction h with
  | one name hword =>
      obtain ⟨decl, hdecl⟩ := hword.exists_scalar? name
      refine ⟨by simp, by simp, [decl], ?_⟩
      rw [pairs, hdecl]
      rfl
  | @cons name word words hword _ ih =>
      obtain ⟨decl, hdecl⟩ := hword.exists_scalar? name
      obtain ⟨_, heven, element, helement⟩ := ih
      have hlength : (name :: word :: words).length % 2 = 0 := by
        rw [List.length_cons, List.length_cons]
        omega
      refine ⟨by simp, hlength, decl :: element, ?_⟩
      rw [pairs, hdecl]
      simp only [helement]
      rfl

theorem pairs_of_pairs_eq_ok (words : List String) {element : List FieldDecl}
    (hne : words ≠ []) (heven : words.length % 2 = 0) (h : pairs words = .ok element) :
    Pairs words := by
  match words with
  | [] => exact absurd rfl hne
  | [_] => simp at heven
  | name :: word :: rest =>
      rw [pairs] at h
      cases hdecl : scalar? name word with
      | none =>
          rw [hdecl] at h
          cases h
      | some decl =>
          rw [hdecl] at h
          obtain ⟨tail, htail, _⟩ := exists_of_bind_eq_ok h
          have hword := scalar?_isSome_iff.1 ⟨decl, hdecl⟩
          cases rest with
          | nil => exact .one name hword
          | cons next rest =>
              simp only [List.length_cons] at heven
              have hrest : (next :: rest).length % 2 = 0 := by
                rw [List.length_cons]
                omega
              exact .cons name hword (pairs_of_pairs_eq_ok _ (by simp) hrest htail)

theorem element_ok_iff {words : List String} :
    (∃ decls, element words = .ok decls) ↔ Pairs words := by
  constructor
  · rintro ⟨decls, h⟩
    unfold element at h
    split at h
    · cases h
    · next hwords =>
        simp only [Bool.or_eq_true, List.isEmpty_iff, bne_iff_ne, not_or, ne_eq,
          Decidable.not_not] at hwords
        exact pairs_of_pairs_eq_ok words hwords.1 hwords.2 h
  · intro h
    obtain ⟨hne, heven, decls, hdecls⟩ := exists_pairs_of_pairs h
    refine ⟨decls, ?_⟩
    have hguard : (words.isEmpty || words.length % 2 != 0) = false := by simp [hne, heven]
    rw [element, hguard]
    exact hdecls

/-! ## Options -/

theorem option_ok_iff {word : String} :
    (∃ choice, option word = .ok choice) ↔ IsOption signedPair? word := by
  by_cases hcolon : ':' ∈ word.toList
  · obtain ⟨value, label, hchars, hvalue⟩ := List.eq_append_cons_of_mem hcolon
    have hsplit := Choice.splitColon_append hvalue label
    have hread : (∃ choice, option word = .ok choice) ↔
        ∃ name, decode (String.ofList label) = some name := by
      rw [option, hchars, hsplit]
      cases hdecode : decode (String.ofList label) <;> simp [hdecode]
    rw [hread]
    constructor
    · rintro ⟨name, hname⟩ own rest hown hfree
      have hsame := (Choice.splitColon_append hfree rest).symm.trans
        ((congrArg splitColon (hown.symm.trans hchars)).trans hsplit)
      obtain rfl : rest = label := Option.some.inj (congrArg Prod.snd hsame)
      exact ⟨name, decode_eq_some_iff.1 hname⟩
    · intro h
      obtain ⟨name, hspelt⟩ := h value label hchars hvalue
      exact ⟨name, decode_eq_some_iff.2 hspelt⟩
  · refine iff_of_true ⟨⟨word, word⟩, ?_⟩ fun value label hchars _ ↦ ?_
    · rw [option, Choice.splitColon_of_not_mem hcolon]
    · exact absurd (hchars ▸ List.mem_append_right value List.mem_cons_self) hcolon

theorem exists_mapM_option_iff {words : List String} :
    (∃ options, words.mapM option = .ok options) ↔
      ∀ word ∈ words, IsOption signedPair? word := by
  induction words with
  | nil => exact iff_of_true ⟨[], rfl⟩ (fun _ h ↦ absurd h List.not_mem_nil)
  | cons first rest ih =>
      rw [List.forall_mem_cons, ← ih, ← option_ok_iff, List.mapM_cons]
      constructor
      · rintro ⟨options, h⟩
        cases hfirst : option first with
        | error flaw =>
            rw [hfirst] at h
            cases h
        | ok choice =>
            rw [hfirst] at h
            obtain ⟨others, hothers, _⟩ := exists_of_bind_eq_ok h
            exact ⟨⟨choice, rfl⟩, others, hothers⟩
      · rintro ⟨⟨choice, hchoice⟩, others, hothers⟩
        refine ⟨choice :: others, ?_⟩
        rw [hchoice, hothers]
        rfl

/-! ## Descriptors -/

theorem not_exists_error_eq_ok {ε α : Type} {fault : ε} :
    ¬ ∃ a : α, Except.error fault = .ok a := by
  rintro ⟨a, h⟩
  cases h

theorem exists_bind_ok_iff {ε α β : Type} {read : Except ε α} {f : α → β} :
    (∃ b, (do return f (← read)) = Except.ok b) ↔ ∃ a, read = .ok a := by
  cases read with
  | error fault => exact iff_of_false not_exists_error_eq_ok not_exists_error_eq_ok
  | ok a => exact iff_of_true ⟨f a, rfl⟩ ⟨a, rfl⟩

/-- The text of a descriptor is named in the fault, and else nothing changes. -/
theorem exists_mapError_ok_iff {ε ε' α : Type} {f : ε → ε'} {read : Except ε α} :
    (∃ a, read.mapError f = .ok a) ↔ ∃ a, read = .ok a := by
  cases read with
  | error fault => exact iff_of_false not_exists_error_eq_ok not_exists_error_eq_ok
  | ok a => exact iff_of_true ⟨a, rfl⟩ ⟨a, rfl⟩

/-- The first word of a descriptor says how the others are read. -/
theorem derives_cons_iff {pair? : Char → Char → Option UInt8} {word : String}
    {words : List String} : Derives pair? (word :: words) ↔
      (IsBare word ∧ words = []) ∨
      (word = "select" ∧ words ≠ [] ∧ ∀ option ∈ words, IsOption pair? option) ∨
      (word = "repeat" ∧ Pairs words) ∨
      (word = "link" ∧ ∃ source rest, words = source :: rest ∧ Pairs rest) ∨
      (word = "rely" ∧ ∃ source rest, words = source :: rest ∧ Derives pair? rest) ∨
      (word = "rely_value" ∧
        ∃ source target rest, words = source :: target :: rest ∧ Derives pair? rest) := by
  constructor
  · intro h
    cases h with
    | bare hword => exact .inl ⟨hword, rfl⟩
    | select hne hoptions => exact .inr (.inl ⟨rfl, hne, hoptions⟩)
    | list hpairs => exact .inr (.inr (.inl ⟨rfl, hpairs⟩))
    | link source hpairs => exact .inr (.inr (.inr (.inl ⟨rfl, source, _, rfl, hpairs⟩)))
    | rely source rest => exact .inr (.inr (.inr (.inr (.inl ⟨rfl, source, _, rfl, rest⟩))))
    | relyValue source target rest =>
        exact .inr (.inr (.inr (.inr (.inr ⟨rfl, source, target, _, rfl, rest⟩))))
  · rintro (⟨hword, rfl⟩ | ⟨rfl, hne, hoptions⟩ | ⟨rfl, hpairs⟩ | ⟨rfl, source, rest, rfl, hpairs⟩ |
      ⟨rfl, source, rest, rfl, hrest⟩ | ⟨rfl, source, target, rest, rfl, hrest⟩)
    · exact .bare hword
    · exact .select hne hoptions
    · exact .list hpairs
    · exact .link source hpairs
    · exact .rely source hrest
    · exact .relyValue source target hrest

theorem Derives.bare_of_not_keyword {pair? : Char → Char → Option UInt8} {word : String}
    {words : List String} (h : Derives pair? (word :: words))
    (hselect : ∀ option rest, word = "select" → words = option :: rest → False)
    (hlist : word = "repeat" → False)
    (hlink : ∀ source rest, word = "link" → words = source :: rest → False)
    (hrely : ∀ source rest, word = "rely" → words = source :: rest → False)
    (hvalue : ∀ source target rest,
      word = "rely_value" → words = source :: target :: rest → False) :
    IsBare word ∧ words = [] := by
  cases h with
  | bare hword => exact ⟨hword, rfl⟩
  | select hne =>
      obtain ⟨option, rest, hrest⟩ := List.exists_cons_of_ne_nil hne
      exact (hselect option rest rfl hrest).elim
  | list => exact (hlist rfl).elim
  | link source => exact (hlink source _ rfl rfl).elim
  | rely source => exact (hrely source _ rfl rfl).elim
  | relyValue source target => exact (hvalue source target _ rfl rfl).elim

/-- A row of words is read as a declaration exactly if it derives from the grammar. -/
theorem ofWords_ok_iff (name : String) {words : List String} :
    (∃ decl, ofWords name words = .ok decl) ↔ Derives signedPair? words := by
  fun_induction ofWords name words with
  | case1 =>
      refine iff_of_false not_exists_error_eq_ok fun h ↦ ?_
      cases h
  | case2 words =>
      rw [exists_bind_ok_iff, element_ok_iff]
      simp [derives_cons_iff, IsBare]
  | case3 source words =>
      rw [exists_bind_ok_iff, element_ok_iff]
      simp [derives_cons_iff, IsBare, and_assoc]
  | case4 source words ih =>
      rw [exists_bind_ok_iff, ih]
      simp [derives_cons_iff, IsBare, and_assoc]
  | case5 source target words ih =>
      rw [exists_bind_ok_iff, ih]
      simp [derives_cons_iff, IsBare, and_assoc]
  | case6 word words =>
      rw [exists_bind_ok_iff, exists_mapM_option_iff]
      simp [derives_cons_iff, IsBare]
  | case7 word words hlist hlink hrely hvalue hselect decl hdecl hempty =>
      have hword := scalar?_isSome_iff.1 ⟨decl, hdecl⟩
      obtain rfl := List.isEmpty_iff.1 hempty
      exact iff_of_true ⟨decl, rfl⟩ (.bare hword)
  | case8 word words hlist hlink hrely hvalue hselect decl hdecl hmore =>
      refine iff_of_false not_exists_error_eq_ok fun h ↦ hmore ?_
      exact List.isEmpty_iff.2 (h.bare_of_not_keyword hselect hlist hlink hrely hvalue).2
  | case9 word words hlist hlink hrely hvalue hselect hnone =>
      refine iff_of_false not_exists_error_eq_ok fun h ↦ ?_
      obtain ⟨decl, hdecl⟩ :=
        (h.bare_of_not_keyword hselect hlist hlink hrely hvalue).1.exists_scalar? name
      exact Option.some_ne_none decl (hdecl.symm.trans hnone)

/-! ## What a plus sign in an escape changes -/

theorem Derives.imp {first? second? : Char → Char → Option UInt8}
    (hpair : ∀ {high low byte}, first? high low = some byte → second? high low = some byte)
    {words : List String} (h : Derives first? words) : Derives second? words := by
  induction h with
  | bare hword => exact .bare hword
  | select hne hoptions =>
      refine .select hne fun word hw value label hchars hfree ↦ ?_
      obtain ⟨name, hspelt⟩ := hoptions word hw value label hchars hfree
      exact ⟨name, hspelt.imp hpair⟩
  | list hpairs => exact .list hpairs
  | link source hpairs => exact .link source hpairs
  | rely source _ ih => exact .rely source ih
  | relyValue source target _ ih => exact .relyValue source target ih

/-- Words that derive with signed escapes derive without them, or one of them has such an escape. -/
theorem Derives.hexPair {words : List String} (h : Derives signedPair? words)
    (hplus : ∀ word ∈ words, ¬ SignsEscape word) : Derives hexPair? words := by
  induction h with
  | bare hword => exact .bare hword
  | @select options hne hoptions =>
      refine .select hne fun word hw value label hchars hfree ↦ ?_
      obtain ⟨name, hspelt⟩ := hoptions word hw value label hchars hfree
      have hlabel : ¬ ['%', '+'] <:+: label := fun hsigned ↦
        hplus word (List.mem_cons_of_mem _ hw) ⟨value, label, hchars, hsigned⟩
      exact ⟨name, hspelt.hexPair hlabel⟩
  | list hpairs => exact .list hpairs
  | link source hpairs => exact .link source hpairs
  | rely source _ ih =>
      exact .rely source (ih fun word hw ↦ hplus word (by simp [hw]))
  | relyValue source target _ ih =>
      exact .relyValue source target (ih fun word hw ↦ hplus word (by simp [hw]))

/-- A descriptor is accepted exactly if its words derive from the grammar that takes a plus sign and
one digit for an escape, too, and is refused as a descriptor otherwise. Whatever derives with two
hexadecimal digits is accepted, and whatever is accepted beyond that has an escape with a plus
sign. -/
theorem parse_ok_iff_derives (name text : String) :
    ((∃ decl, FieldDecl.parse name text = .ok decl) ↔ Derives signedPair? (words text)) ∧
      (∀ fault, FieldDecl.parse name text = .error fault →
        ∃ flaw, fault = .descriptor text flaw) ∧
      (Derives hexPair? (words text) → ∃ decl, FieldDecl.parse name text = .ok decl) ∧
      ((∃ decl, FieldDecl.parse name text = .ok decl) →
        Derives hexPair? (words text) ∨ ∃ word ∈ words text, SignsEscape word) := by
  have haccepted : (∃ decl, FieldDecl.parse name text = .ok decl) ↔
      Derives signedPair? (words text) := by
    rw [← ofWords_ok_iff name, FieldDecl.parse, exists_mapError_ok_iff]
  refine ⟨haccepted, fun fault h ↦ ?_, fun h ↦ ?_, fun h ↦ ?_⟩
  · rw [FieldDecl.parse] at h
    cases hread : ofWords name (words text) with
    | error flaw =>
        rw [hread] at h
        exact ⟨flaw, (Except.error.inj h).symm⟩
    | ok decl =>
        rw [hread] at h
        cases h
  · exact haccepted.2 (h.imp signedPair?_of_hexPair?)
  · by_cases hplus : ∃ word ∈ words text, SignsEscape word
    · exact .inr hplus
    · exact .inl ((haccepted.1 h).hexPair fun word hw hsigned ↦ hplus ⟨word, hw, hsigned⟩)

/-- An escape of a plus sign and one digit is read, and the grammar with two hexadecimal digits does
not have it. -/
theorem signed_escape_accepted :
    FieldDecl.parse "f" "select a:%+5" = .ok (.choice "f" [⟨"\x05", "a"⟩]) ∧
      ¬ Derives hexPair? (words "select a:%+5") := by
  have hwords : words "select a:%+5" = ["select", "a:%+5"] := by decide +kernel
  have hlabel : decode (String.ofList ['%', '+', '5']) = some "\x05" := by decide +kernel
  have hoption : option "a:%+5" = .ok ⟨"\x05", "a"⟩ := by
    have hchars : "a:%+5".toList = ['a'] ++ ':' :: ['%', '+', '5'] := by decide
    rw [option, hchars, Choice.splitColon_append (by decide)]
    simp only [hlabel]
  have hparse : FieldDecl.parse "f" "select a:%+5" = .ok (.choice "f" [⟨"\x05", "a"⟩]) := by
    rw [FieldDecl.parse, hwords, ofWords, List.mapM_cons, hoption]
    rfl
  refine ⟨hparse, fun h ↦ ?_⟩
  rw [hwords, derives_cons_iff] at h
  obtain ⟨_, _, hoptions⟩ : "select" = "select" ∧ ["a:%+5"] ≠ [] ∧
      ∀ word ∈ ["a:%+5"], IsOption hexPair? word := by simpa [IsBare] using h
  obtain ⟨name, hspelt⟩ := hoptions "a:%+5" (by simp) ['a'] ['%', '+', '5'] (by decide) (by decide)
  generalize bytesOf name.toList = bytes at hspelt
  have hnone : hexPair? '+' '5' = none := by decide
  cases hspelt with
  | char hc => exact hc rfl
  | escape hbyte => exact Option.some_ne_none _ (hbyte.symm.trans hnone)

end Descriptor

end LightTree
