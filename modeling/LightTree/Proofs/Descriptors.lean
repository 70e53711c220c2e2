import LightTree.Descriptor.Parse
import LightTree.Descriptor.Print
import LightTree.Proofs.Escapes

/-!
# Descriptors are read back

A declaration that a descriptor can express is read back from the descriptor that is printed for
it. What a descriptor cannot express are other initial values than the ones that a bare type has,
names and values that are not one word each, options that would print as no word at all, and a
dependency on a field with the name that stands for the children of the node.
-/

namespace LightTree

open Text

/-! ## What a descriptor can express -/

/-- Whether a bare type stands for a scalar with this initial value. -/
def Scalar.isInitial : Scalar → Bool
  | integer n => n == 0
  | position n => n == 0
  | boolean b => !b
  | text s => s == ""
  | color s => s == "000000"

/-- Whether an option can be written as a word: its value has no blank and no colon, and its value
and its name are not both empty. -/
def Choice.isExpressible (option : Choice) : Bool :=
  !hasBlank option.value && !option.value.toList.contains ':' &&
    (option.value != "" || option.name != "")

def LengthRule.isExpressible : LengthRule → Bool
  | free => true
  | children => true
  | field source => isWord source && source != "inner"

def Condition.isExpressible : Condition → Bool
  | present => true
  | equals target => isWord target

namespace FieldDecl

/-- Whether a declaration in an element of a list can be written as a name and a bare type. -/
def isPair : FieldDecl → Bool
  | scalar name initial => isWord name && initial.isInitial
  | _ => false

/-- Whether a declaration of the given name can be written as a descriptor. -/
def isExpressible (name : String) : FieldDecl → Bool
  | scalar own initial => own == name && initial.isInitial
  | choice own options => own == name && !options.isEmpty && options.all Choice.isExpressible
  | list own rule element =>
    own == name && rule.isExpressible && !element.isEmpty && element.all isPair
  | gated own source condition inner =>
    own == name && isWord source && condition.isExpressible && inner.isExpressible name

end FieldDecl

/-! ## Options -/

namespace Choice

variable {option : Choice}

theorem isWord_word (h : option.isExpressible = true) : isWord option.word = true := by
  simp only [isExpressible, Bool.and_eq_true, Bool.or_eq_true, Bool.not_eq_true', bne_iff_ne] at h
  obtain ⟨⟨hblank, _⟩, hne⟩ := h
  unfold word
  split
  · next hname =>
      have hvalue : option.value ≠ "" := hne.elim id fun hn ↦ hname ▸ hn
      simp [isWord, hvalue, hblank]
  · have hcolon : isBlank ':' = false := by decide
    have hencode := Percent.hasBlank_encode option.name
    simp only [hasBlank] at hblank hencode
    have hchars : (option.value ++ ":" ++ Percent.encode option.name).toList =
        option.value.toList ++ ':' :: (Percent.encode option.name).toList := by simp
    have hword : option.value ++ ":" ++ Percent.encode option.name ≠ "" := by
      intro hempty
      rw [hempty] at hchars
      simp at hchars
    simp only [isWord, hasBlank, hchars, List.any_append, List.any_cons, hblank, hcolon, hencode]
    simp [hword]

theorem splitColon_of_not_mem {word : List Char} (h : ':' ∉ word) :
    Descriptor.splitColon word = (word, none) := by
  have hdrop : word.dropWhile (· ≠ ':') = [] := by
    have hpass : ∀ c ∈ word, decide (c ≠ ':') = true := fun c hc ↦ by
      simpa using fun heq : c = ':' ↦ h (heq ▸ hc)
    have hskip : (word ++ []).dropWhile (· ≠ ':') = [] := List.dropWhile_append_of_pos hpass
    rwa [List.append_nil] at hskip
  rw [Descriptor.splitColon, hdrop]

theorem splitColon_append {word : List Char} (h : ':' ∉ word) (label : List Char) :
    Descriptor.splitColon (word ++ ':' :: label) = (word, some label) := by
  have hpass : ∀ c ∈ word, decide (c ≠ ':') = true := fun c hc ↦ by
    simpa using fun heq : c = ':' ↦ h (heq ▸ hc)
  have hdrop : (word ++ ':' :: label).dropWhile (· ≠ ':') = ':' :: label := by
    rw [List.dropWhile_append_of_pos hpass]
    simp
  have htake : (word ++ ':' :: label).takeWhile (· ≠ ':') = word := by
    rw [List.takeWhile_append_of_pos hpass]
    simp
  rw [Descriptor.splitColon, hdrop, htake]

/-- An option is read back from its word. -/
theorem option_word (h : option.isExpressible = true) :
    Descriptor.option option.word = .ok option := by
  simp only [isExpressible, Bool.and_eq_true, Bool.not_eq_true'] at h
  have hcolon : ':' ∉ option.value.toList := by simpa using h.1.2
  by_cases hname : option.name = option.value
  · rw [word, if_pos hname, Descriptor.option, splitColon_of_not_mem hcolon]
    cases option
    cases hname
    rfl
  · have hchars : (option.value ++ ":" ++ Percent.encode option.name).toList =
        option.value.toList ++ ':' :: (Percent.encode option.name).toList := by simp
    rw [word, if_neg hname, Descriptor.option, hchars, splitColon_append hcolon]
    simp only [String.ofList_toList, Percent.decode_encode]

theorem mapM_option_word {options : List Choice} (h : options.all isExpressible = true) :
    (options.map word).mapM Descriptor.option = .ok options := by
  induction options with
  | nil => rfl
  | cons first rest ih =>
      obtain ⟨hfirst, hrest⟩ := Bool.and_eq_true_iff.1 (List.all_cons ▸ h)
      rw [List.map_cons, List.mapM_cons, option_word hfirst, ih hrest]
      rfl

end Choice

/-! ## Declarations -/

namespace FieldDecl

theorem isWord_keyword (kind : FieldKind) : isWord kind.keyword = true := by
  cases kind <;> decide

/-- A bare type is read as the scalar with its initial value. -/
theorem scalar?_keyword {initial : Scalar} (h : initial.isInitial = true) (name : String) :
    Descriptor.scalar? name initial.kind.keyword = some (.scalar name initial) := by
  cases initial <;> simp_all [Scalar.isInitial, Scalar.kind, FieldKind.keyword, Descriptor.scalar?]

theorem exists_of_isPair {decl : FieldDecl} (h : decl.isPair = true) :
    ∃ name initial, decl = .scalar name initial ∧ isWord name = true ∧
      initial.isInitial = true := by
  cases decl with
  | scalar name initial =>
      obtain ⟨hname, hinitial⟩ := Bool.and_eq_true_iff.1 h
      exact ⟨name, initial, rfl, hname, hinitial⟩
  | choice | list | gated => exact absurd h Bool.false_ne_true

/-! The words of an expressible declaration are one word each. -/

theorem isWord_of_mem_pairWords {element : List FieldDecl} (h : element.all isPair = true) :
    ∀ text ∈ pairWords element, isWord text = true := by
  induction element with
  | nil => exact fun text ht ↦ absurd ht List.not_mem_nil
  | cons decl rest ih =>
      obtain ⟨hdecl, hrest⟩ := Bool.and_eq_true_iff.1 (List.all_cons ▸ h)
      obtain ⟨name, initial, rfl, hname, _⟩ := exists_of_isPair hdecl
      intro text ht
      simp only [pairWords, words, FieldDecl.name, List.cons_append, List.nil_append,
        List.mem_cons] at ht
      rcases ht with rfl | rfl | ht
      · exact hname
      · exact isWord_keyword _
      · exact ih hrest text ht

theorem isWord_of_mem_ruleWords {rule : LengthRule} (h : rule.isExpressible = true) :
    ∀ text ∈ rule.words, isWord text = true := by
  cases rule with
  | free => decide
  | children => decide
  | field source =>
      have hlink : isWord "link" = true := by decide
      simpa [LengthRule.words, hlink] using (Bool.and_eq_true_iff.1 h).1

theorem isWord_of_mem_conditionWords {source : String} {condition : Condition}
    (hsource : isWord source = true) (h : condition.isExpressible = true) :
    ∀ text ∈ condition.words source, isWord text = true := by
  have hrely : isWord "rely" = true := by decide
  have hvalue : isWord "rely_value" = true := by decide
  cases condition with
  | present => simp [Condition.words, hrely, hsource]
  | equals target =>
      have htarget : isWord target = true := h
      simp [Condition.words, hvalue, hsource, htarget]

theorem isWord_of_mem_words {name : String} {decl : FieldDecl}
    (h : decl.isExpressible name = true) : ∀ text ∈ decl.words, isWord text = true := by
  fun_induction isExpressible name decl with
  | case1 own initial => simpa [words] using isWord_keyword _
  | case2 own options =>
      have hselect : isWord "select" = true := by decide
      have hoptions := List.all_eq_true.1 (Bool.and_eq_true_iff.1 h).2
      intro text ht
      rcases List.mem_cons.1 ht with rfl | ht
      · exact hselect
      · obtain ⟨option, hmem, rfl⟩ := List.mem_map.1 ht
        exact Choice.isWord_word (hoptions option hmem)
  | case3 own rule element =>
      simp only [Bool.and_eq_true] at h
      obtain ⟨⟨⟨_, hrule⟩, _⟩, helement⟩ := h
      intro text ht
      rcases List.mem_append.1 ht with ht | ht
      · exact isWord_of_mem_ruleWords hrule text ht
      · exact isWord_of_mem_pairWords helement text ht
  | case4 own source condition inner ih =>
      simp only [Bool.and_eq_true] at h
      obtain ⟨⟨⟨_, hsource⟩, hcondition⟩, hinner⟩ := h
      intro text ht
      rcases List.mem_append.1 ht with ht | ht
      · exact isWord_of_mem_conditionWords hsource hcondition text ht
      · exact ih hinner text ht

/-! The words of an expressible declaration are read as the declaration. -/

theorem pairs_pairWords {element : List FieldDecl} (h : element.all isPair = true) :
    Descriptor.pairs (pairWords element) = .ok element := by
  induction element with
  | nil => rfl
  | cons decl rest ih =>
      obtain ⟨hdecl, hrest⟩ := Bool.and_eq_true_iff.1 (List.all_cons ▸ h)
      obtain ⟨name, initial, rfl, _, hinitial⟩ := exists_of_isPair hdecl
      have hwords : pairWords (.scalar name initial :: rest) =
          name :: initial.kind.keyword :: pairWords rest := rfl
      rw [hwords, Descriptor.pairs, scalar?_keyword hinitial]
      simp only [ih hrest]
      rfl

theorem length_pairWords {element : List FieldDecl} (h : element.all isPair = true) :
    (pairWords element).length = 2 * element.length := by
  induction element with
  | nil => rfl
  | cons decl rest ih =>
      obtain ⟨hdecl, hrest⟩ := Bool.and_eq_true_iff.1 (List.all_cons ▸ h)
      obtain ⟨name, initial, rfl, _, _⟩ := exists_of_isPair hdecl
      have hlength := ih hrest
      simp only [pairWords, words, List.cons_append, List.nil_append, List.length_cons]
      omega

theorem element_pairWords {element : List FieldDecl} (hne : element ≠ [])
    (h : element.all isPair = true) : Descriptor.element (pairWords element) = .ok element := by
  have hlength := length_pairWords h
  have hpositive := List.length_pos_iff.2 hne
  have hsome : (pairWords element).isEmpty = false := by
    rw [← Bool.not_eq_true, List.isEmpty_iff_length_eq_zero]
    omega
  have heven : (pairWords element).length % 2 = 0 := by omega
  rw [Descriptor.element, hsome, heven]
  exact pairs_pairWords h

theorem ofWords_list {name : String} {rule : LengthRule} {element : List FieldDecl}
    (hrule : rule.isExpressible = true) (hne : element ≠ []) (h : element.all isPair = true) :
    Descriptor.ofWords name (rule.words ++ pairWords element) = .ok (.list name rule element) := by
  have helement := element_pairWords hne h
  cases rule with
  | free =>
      simp only [LengthRule.words, List.cons_append, List.nil_append, Descriptor.ofWords, helement]
      rfl
  | children =>
      simp only [LengthRule.words, List.cons_append, List.nil_append, Descriptor.ofWords, helement]
      rfl
  | field source =>
      have hsource : source ≠ "inner" := by simpa using (Bool.and_eq_true_iff.1 hrule).2
      simp only [LengthRule.words, List.cons_append, List.nil_append, Descriptor.ofWords, helement,
        Descriptor.rule, if_neg hsource]
      rfl

theorem ofWords_gated {name source : String} {condition : Condition} {inner : FieldDecl}
    (h : Descriptor.ofWords name inner.words = .ok inner) :
    Descriptor.ofWords name (condition.words source ++ inner.words) =
      .ok (.gated name source condition inner) := by
  cases condition with
  | present =>
      simp only [Condition.words, List.cons_append, List.nil_append, Descriptor.ofWords, h]
      rfl
  | equals target =>
      simp only [Condition.words, List.cons_append, List.nil_append, Descriptor.ofWords, h]
      rfl

theorem ofWords_choice {name : String} {options : List Choice} (hne : options ≠ [])
    (h : options.all Choice.isExpressible = true) :
    Descriptor.ofWords name ("select" :: options.map Choice.word) = .ok (.choice name options) := by
  have hoptions := Choice.mapM_option_word h
  cases options with
  | nil => exact absurd rfl hne
  | cons first rest =>
      rw [List.map_cons] at hoptions ⊢
      simp only [Descriptor.ofWords, hoptions]
      rfl

theorem ofWords_scalar {initial : Scalar} (h : initial.isInitial = true) (name : String) :
    Descriptor.ofWords name [initial.kind.keyword] = .ok (.scalar name initial) := by
  cases initial <;>
    simp_all [Scalar.isInitial, Scalar.kind, FieldKind.keyword, Descriptor.ofWords,
      Descriptor.scalar?] <;>
    rfl

theorem ofWords_words {name : String} {decl : FieldDecl} (h : decl.isExpressible name = true) :
    Descriptor.ofWords name decl.words = .ok decl := by
  fun_induction isExpressible name decl with
  | case1 own initial =>
      obtain ⟨hname, hinitial⟩ := Bool.and_eq_true_iff.1 h
      obtain rfl := eq_of_beq hname
      exact ofWords_scalar hinitial own
  | case2 own options =>
      simp only [Bool.and_eq_true, beq_iff_eq, Bool.not_eq_true', List.isEmpty_eq_false_iff] at h
      obtain ⟨⟨rfl, hne⟩, hoptions⟩ := h
      exact ofWords_choice hne hoptions
  | case3 own rule element =>
      simp only [Bool.and_eq_true, beq_iff_eq, Bool.not_eq_true', List.isEmpty_eq_false_iff] at h
      obtain ⟨⟨⟨rfl, hrule⟩, hne⟩, helement⟩ := h
      exact ofWords_list hrule hne helement
  | case4 own source condition inner ih =>
      simp only [Bool.and_eq_true, beq_iff_eq] at h
      obtain ⟨⟨⟨rfl, _⟩, _⟩, hinner⟩ := h
      exact ofWords_gated (ih hinner)

/-- A declaration that a descriptor can express is read back from its own descriptor. -/
theorem parse_descriptor {name : String} {decl : FieldDecl} (h : decl.isExpressible name = true) :
    FieldDecl.parse name decl.descriptor = .ok decl := by
  rw [parse, descriptor, words_unwords (isWord_of_mem_words h), ofWords_words h]
  rfl

/-- A choice behind a condition, under names that are keywords, with a label of two words and the
escape sign in it. -/
theorem parse_descriptor_gated_choice :
    isExpressible "select" (.gated "select" "rely" (.equals "a")
        (.choice "select" [⟨"100 %", "a"⟩, ⟨"", "b"⟩, ⟨"d:e", ""⟩])) = true ∧
      FieldDecl.parse "select" (descriptor (.gated "select" "rely" (.equals "a")
          (.choice "select" [⟨"100 %", "a"⟩, ⟨"", "b"⟩, ⟨"d:e", ""⟩]))) =
        .ok (.gated "select" "rely" (.equals "a")
          (.choice "select" [⟨"100 %", "a"⟩, ⟨"", "b"⟩, ⟨"d:e", ""⟩])) :=
  have h : isExpressible "select" (.gated "select" "rely" (.equals "a")
      (.choice "select" [⟨"100 %", "a"⟩, ⟨"", "b"⟩, ⟨"d:e", ""⟩])) = true := by decide
  ⟨h, parse_descriptor h⟩

end FieldDecl

end LightTree
