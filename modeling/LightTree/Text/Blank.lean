/-!
# Blank characters and words

A blank is a character with the Unicode property `White_Space`. A text falls into its words, the
longest stretches without a blank; no word is empty and no word holds a blank.
-/

namespace LightTree.Text

/-- The twenty-five characters with the property `White_Space`. -/
def isBlank (c : Char) : Bool :=
  let n := c.toNat
  (0x09 ≤ n && n ≤ 0x0D) || n == 0x20 || n == 0x85 || n == 0xA0 || n == 0x1680 ||
    (0x2000 ≤ n && n ≤ 0x200A) || n == 0x2028 || n == 0x2029 || n == 0x202F || n == 0x205F ||
    n == 0x3000

theorem isBlank_of_isWhitespace {c : Char} (h : c.isWhitespace = true) : isBlank c = true := by
  simp only [Char.isWhitespace, Bool.or_eq_true, decide_eq_true_eq] at h
  rcases h with ((rfl | rfl) | rfl) | rfl <;> decide

def hasBlank (text : String) : Bool :=
  text.toList.any isBlank

/-- Puts a character in front of the first word if it joins that word, and makes it a word of its
own otherwise. -/
def extendWord (c : Char) : Bool → List (List Char) → List (List Char)
  | true, word :: words => (c :: word) :: words
  | _, words => [c] :: words

@[simp] theorem extendWord_false (c : Char) (words : List (List Char)) :
    extendWord c false words = [c] :: words := rfl

@[simp] theorem extendWord_true_cons (c : Char) (word : List Char) (words : List (List Char)) :
    extendWord c true (word :: words) = (c :: word) :: words := rfl

/-- Whether a text starts inside a word. -/
def startsWord : List Char → Bool
  | [] => false
  | c :: _ => !isBlank c

def wordsOf : List Char → List (List Char)
  | [] => []
  | c :: rest => if isBlank c then wordsOf rest else extendWord c (startsWord rest) (wordsOf rest)

@[simp] theorem wordsOf_nil : wordsOf [] = [] := rfl

theorem wordsOf_cons_blank {c : Char} (h : isBlank c = true) (rest : List Char) :
    wordsOf (c :: rest) = wordsOf rest := by simp [wordsOf, h]

theorem wordsOf_cons_of_not_blank {c : Char} (h : isBlank c = false) (rest : List Char) :
    wordsOf (c :: rest) = extendWord c (startsWord rest) (wordsOf rest) := by simp [wordsOf, h]

theorem wordsOf_ne_nil_of_startsWord {text : List Char} (h : startsWord text = true) :
    wordsOf text ≠ [] := by
  cases text with
  | nil => simp [startsWord] at h
  | cons c rest =>
      have hc : isBlank c = false := by simpa [startsWord] using h
      rw [wordsOf_cons_of_not_blank hc]
      cases startsWord rest <;> cases wordsOf rest <;> simp [extendWord]

/-- A blank parts the words before it from those after it. -/
theorem wordsOf_append_blank {c : Char} (hc : isBlank c = true) (first second : List Char) :
    wordsOf (first ++ c :: second) = wordsOf first ++ wordsOf second := by
  induction first with
  | nil => exact wordsOf_cons_blank hc second
  | cons d rest ih =>
      cases hd : isBlank d with
      | true => simpa [wordsOf_cons_blank hd] using ih
      | false =>
          rw [List.cons_append, wordsOf_cons_of_not_blank hd, wordsOf_cons_of_not_blank hd, ih]
          cases rest with
          | nil => simp [startsWord, hc, extendWord]
          | cons e rest =>
              have hs : startsWord (e :: rest ++ c :: second) = startsWord (e :: rest) := rfl
              rw [hs]
              cases he : startsWord (e :: rest) with
              | false => simp
              | true =>
                  obtain ⟨w, ws, hw⟩ :=
                    List.exists_cons_of_ne_nil (wordsOf_ne_nil_of_startsWord he)
                  simp [hw]

/-- A text without a blank is one word, unless it is empty. -/
theorem wordsOf_of_not_blank {text : List Char} (hne : text ≠ [])
    (h : ∀ c ∈ text, isBlank c = false) : wordsOf text = [text] := by
  induction text with
  | nil => exact absurd rfl hne
  | cons c rest ih =>
      rw [wordsOf_cons_of_not_blank (h c (by simp))]
      cases rest with
      | nil => rfl
      | cons d rest =>
          have hd : isBlank d = false := h d (by simp)
          rw [ih (by simp) fun e he ↦ h e (List.mem_cons_of_mem _ he)]
          simp [startsWord, hd]

theorem mem_extendWord {c : Char} {joins : Bool} {words : List (List Char)} {w : List Char}
    (hw : w ∈ extendWord c joins words) : (∃ v, w = c :: v ∧ (v = [] ∨ v ∈ words)) ∨ w ∈ words := by
  cases joins with
  | false =>
      rcases List.mem_cons.mp hw with rfl | hw
      · exact Or.inl ⟨[], rfl, Or.inl rfl⟩
      · exact Or.inr hw
  | true =>
      cases words with
      | nil => exact Or.inl ⟨[], by simpa [extendWord] using hw, Or.inl rfl⟩
      | cons v words =>
          rcases List.mem_cons.mp hw with rfl | hw
          · exact Or.inl ⟨v, rfl, Or.inr (by simp)⟩
          · exact Or.inr (List.mem_cons_of_mem _ hw)

/-- A word is not empty and holds no blank. -/
theorem of_mem_wordsOf {text w : List Char} (hw : w ∈ wordsOf text) :
    w ≠ [] ∧ ∀ d ∈ w, isBlank d = false := by
  induction text generalizing w with
  | nil => simp at hw
  | cons c rest ih =>
      cases hc : isBlank c with
      | true => exact ih (by rwa [wordsOf_cons_blank hc] at hw)
      | false =>
          rw [wordsOf_cons_of_not_blank hc] at hw
          rcases mem_extendWord hw with ⟨v, rfl, rfl | hv⟩ | hw
          · simp [hc]
          · refine ⟨by simp, fun d hd ↦ ?_⟩
            rcases List.mem_cons.mp hd with rfl | hd
            · exact hc
            · exact (ih hv).2 d hd
          · exact ih hw

def words (text : String) : List String :=
  (wordsOf text.toList).map String.ofList

def unwords (words : List String) : String :=
  String.intercalate " " words

end LightTree.Text
