import LightTree.Proofs.Descriptors

/-!
# Declarations that have been read

What a descriptor is read as can be printed and read again, with one exception. The word `:` is an
option with neither a value nor a name, and such an option prints as no word at all, so the printed
descriptor has an option less or is none.
-/

namespace LightTree

open Text

/-- Whether an option has neither a value nor a name, and so no word. -/
def Choice.isVoid (option : Choice) : Bool :=
  option.value == "" && option.name == ""

/-- Whether a choice, behind any number of gates, has an option without a word. -/
def FieldDecl.hasVoidOption : FieldDecl → Bool
  | choice _ options => options.any Choice.isVoid
  | gated _ _ _ inner => inner.hasVoidOption
  | scalar .. | list .. => false

theorem exists_of_bind_eq_ok {ε α β : Type} {read : Except ε α} {f : α → β} {b : β}
    (h : (do return f (← read)) = Except.ok b) : ∃ a, read = .ok a ∧ f a = b := by
  cases read with
  | error fault => cases h
  | ok a => exact ⟨a, rfl, Except.ok.inj h⟩

/-! ## Options -/

namespace Choice

variable {option : Choice} {word : String}

theorem word_eq_empty_iff : option.word = "" ↔ option.isVoid = true := by
  unfold word isVoid
  split
  · next hname => simp [hname]
  · next hname =>
      refine ⟨fun hempty ↦ ?_, fun hvoid ↦ ?_⟩
      · have hchars := congrArg String.toList hempty
        simp at hchars
      · simp only [Bool.and_eq_true, beq_iff_eq] at hvoid
        exact absurd (hvoid.2.trans hvoid.1.symm) hname

/-- The value of an option that has been read is the part of a word before its first colon. -/
theorem value_of_option (hword : isWord word = true) (h : Descriptor.option word = .ok option) :
    hasBlank option.value = false ∧ ':' ∉ option.value.toList := by
  have hblank : ∀ c ∈ word.toList, isBlank c = false := not_blank_of_isWord hword
  by_cases hcolon : ':' ∈ word.toList
  · obtain ⟨value, label, hchars, hvalue⟩ := List.eq_append_cons_of_mem hcolon
    rw [Descriptor.option, hchars, splitColon_append hvalue] at h
    have hoption : option.value = String.ofList value := by
      simp only at h
      split at h
      · cases h
        rfl
      · cases h
    rw [hoption, hasBlank, String.toList_ofList]
    refine ⟨List.any_eq_false.2 fun c hc ↦ ?_, hvalue⟩
    rw [hblank c (hchars ▸ List.mem_append_left _ hc)]
    exact Bool.false_ne_true
  · rw [Descriptor.option, splitColon_of_not_mem hcolon] at h
    cases h
    exact ⟨List.any_eq_false.2 fun c hc ↦ by simp [hblank c hc], hcolon⟩

theorem hasBlank_word (hblank : hasBlank option.value = false) : hasBlank option.word = false := by
  unfold word
  split
  · exact hblank
  · have hcolon : isBlank ':' = false := by decide
    have hencode := Percent.hasBlank_encode option.name
    simp only [hasBlank] at hblank hencode ⊢
    simp [hblank, hcolon, hencode]

/-- Each option has been read from a word of its own. -/
theorem of_mapM {words : List String} {options : List Choice}
    (h : words.mapM Descriptor.option = .ok options) : options.length = words.length ∧
      ∀ option ∈ options, ∃ word ∈ words, Descriptor.option word = .ok option := by
  induction words generalizing options with
  | nil =>
      cases h
      exact ⟨rfl, nofun⟩
  | cons word rest ih =>
      rw [List.mapM_cons] at h
      cases hfirst : Descriptor.option word with
      | error flaw =>
          rw [hfirst] at h
          cases h
      | ok first =>
          rw [hfirst] at h
          obtain ⟨others, hothers, rfl⟩ := exists_of_bind_eq_ok h
          obtain ⟨hlength, hread⟩ := ih hothers
          refine ⟨congrArg (· + 1) hlength, fun option ho ↦ ?_⟩
          rcases List.mem_cons.1 ho with rfl | ho
          · exact ⟨word, List.mem_cons_self, hfirst⟩
          · obtain ⟨text, ht, hoption⟩ := hread option ho
            exact ⟨text, List.mem_cons_of_mem word ht, hoption⟩

end Choice

/-! ## Readings -/

namespace Descriptor

variable {name : String} {decl : FieldDecl} {words : List String}

/-- The declarations that a descriptor may be read as. -/
inductive Reading (name : String) : FieldDecl → Prop
  | scalar {initial : Scalar} (bare : initial.isInitial = true) :
      Reading name (.scalar name initial)
  | choice {options : List Choice} (nonempty : options ≠ [])
      (values : ∀ option ∈ options, hasBlank option.value = false ∧ ':' ∉ option.value.toList) :
      Reading name (.choice name options)
  | list {rule : LengthRule} {element : List FieldDecl} (expressible : rule.isExpressible = true)
      (nonempty : element ≠ []) (pairs : element.all FieldDecl.isPair = true) :
      Reading name (.list name rule element)
  | gated {source : String} {condition : Condition} {inner : FieldDecl}
      (word : isWord source = true) (expressible : condition.isExpressible = true)
      (reading : Reading name inner) : Reading name (.gated name source condition inner)

theorem scalar_of_scalar? {word : String} (h : scalar? name word = some decl) :
    ∃ initial, decl = .scalar name initial ∧ initial.isInitial = true := by
  unfold scalar? at h
  split at h
  · exact ⟨_, (Option.some.inj h).symm, rfl⟩
  · exact ⟨_, (Option.some.inj h).symm, rfl⟩
  · exact ⟨_, (Option.some.inj h).symm, rfl⟩
  · exact ⟨_, (Option.some.inj h).symm, rfl⟩
  · exact ⟨_, (Option.some.inj h).symm, rfl⟩
  · cases h

theorem isPair_of_pairs {element : List FieldDecl} (hwords : ∀ word ∈ words, isWord word = true)
    (h : pairs words = .ok element) : element.all FieldDecl.isPair = true := by
  fun_induction pairs words generalizing element with
  | case1 own word rest first hfirst ih =>
      obtain ⟨others, hothers, rfl⟩ := exists_of_bind_eq_ok h
      obtain ⟨initial, rfl, hinitial⟩ := scalar_of_scalar? hfirst
      have hrest := ih (fun text ht ↦ hwords text (by simp [ht])) hothers
      simp [FieldDecl.isPair, hwords own List.mem_cons_self, hinitial, hrest]
  | case2 => cases h
  | case3 =>
      cases h
      rfl

/-- An even number of words that is not zero gives a pair. -/
theorem reading_list {element : List FieldDecl} {rule : LengthRule}
    (hrule : rule.isExpressible = true) (hwords : ∀ word ∈ words, isWord word = true)
    (h : Descriptor.element words = .ok element) : Reading name (.list name rule element) := by
  unfold Descriptor.element at h
  split at h
  · cases h
  · next hpaired =>
      refine .list hrule ?_ (isPair_of_pairs hwords h)
      rintro rfl
      match words with
      | [] => simp at hpaired
      | [_] => simp at hpaired
      | own :: word :: rest =>
          rw [pairs] at h
          split at h
          · obtain ⟨others, _, hnil⟩ := exists_of_bind_eq_ok h
            cases hnil
          · cases h

theorem isExpressible_rule {source : String} (hsource : isWord source = true) :
    (rule source).isExpressible = true := by
  unfold rule
  split
  · rfl
  · next hinner => simp [LengthRule.isExpressible, hsource, hinner]

theorem reading_choice {options : List Choice} (hne : words ≠ [])
    (hwords : ∀ word ∈ words, isWord word = true) (h : words.mapM option = .ok options) :
    Reading name (.choice name options) := by
  obtain ⟨hlength, hread⟩ := Choice.of_mapM h
  refine .choice (fun hnil ↦ hne ?_) fun option ho ↦ ?_
  · rw [hnil] at hlength
    exact List.eq_nil_of_length_eq_zero hlength.symm
  · obtain ⟨word, hword, hoption⟩ := hread option ho
    exact Choice.value_of_option (hwords word hword) hoption

theorem reading_of_ofWords (hwords : ∀ word ∈ words, isWord word = true)
    (h : ofWords name words = .ok decl) : Reading name decl := by
  fun_induction ofWords name words generalizing decl with
  | case1 => cases h
  | case2 words =>
      obtain ⟨element, helement, rfl⟩ := exists_of_bind_eq_ok h
      exact reading_list rfl (List.forall_mem_cons.1 hwords).2 helement
  | case3 source words =>
      obtain ⟨element, helement, rfl⟩ := exists_of_bind_eq_ok h
      obtain ⟨-, hsource, hrest⟩ := by simpa only [List.forall_mem_cons] using hwords
      exact reading_list (isExpressible_rule hsource) hrest helement
  | case4 source words ih =>
      obtain ⟨inner, hinner, rfl⟩ := exists_of_bind_eq_ok h
      obtain ⟨-, hsource, hrest⟩ := by simpa only [List.forall_mem_cons] using hwords
      exact .gated hsource rfl (ih hrest hinner)
  | case5 source target words ih =>
      obtain ⟨inner, hinner, rfl⟩ := exists_of_bind_eq_ok h
      obtain ⟨-, hsource, htarget, hrest⟩ := by simpa only [List.forall_mem_cons] using hwords
      exact .gated hsource htarget (ih hrest hinner)
  | case6 word words =>
      obtain ⟨options, hoptions, rfl⟩ := exists_of_bind_eq_ok h
      exact reading_choice (List.cons_ne_nil word words) (List.forall_mem_cons.1 hwords).2 hoptions
  | case7 word words _ _ _ _ _ bare hbare =>
      cases h
      obtain ⟨initial, rfl, hinitial⟩ := scalar_of_scalar? hbare
      exact .scalar hinitial
  | case8 => cases h
  | case9 => cases h

/-! ## Printed readings -/

namespace Reading

theorem hasBlank_words (h : Reading name decl) : ∀ text ∈ decl.words, hasBlank text = false := by
  have hclean : ∀ text : String, isWord text = true → hasBlank text = false := fun text ht ↦ by
    simpa using (Bool.and_eq_true_iff.1 ht).2
  induction h with
  | scalar =>
      intro text ht
      obtain rfl := List.mem_singleton.1 ht
      exact hclean _ (FieldDecl.isWord_keyword _)
  | choice nonempty values =>
      intro text ht
      rcases List.mem_cons.1 ht with rfl | ht
      · decide
      · obtain ⟨option, ho, rfl⟩ := List.mem_map.1 ht
        exact Choice.hasBlank_word (values option ho).1
  | list expressible nonempty pairs =>
      intro text ht
      rcases List.mem_append.1 ht with ht | ht
      · exact hclean text (FieldDecl.isWord_of_mem_ruleWords expressible text ht)
      · exact hclean text (FieldDecl.isWord_of_mem_pairWords pairs text ht)
  | gated word expressible reading ih =>
      intro text ht
      rcases List.mem_append.1 ht with ht | ht
      · exact hclean text (FieldDecl.isWord_of_mem_conditionWords word expressible text ht)
      · exact ih text ht

/-- What has been read can be printed and read again if each option has a word. -/
theorem isExpressible (h : Reading name decl) (hvoid : decl.hasVoidOption = false) :
    decl.isExpressible name = true := by
  induction h with
  | scalar bare => simp [FieldDecl.isExpressible, bare]
  | @choice options nonempty values =>
      have hoptions : options.all Choice.isExpressible = true := by
        refine List.all_eq_true.2 fun option ho ↦ ?_
        obtain ⟨hblank, hcolon⟩ := values option ho
        have hword : option.isVoid = false := by
          simpa using List.any_eq_false.1 hvoid option ho
        have hnamed : (option.value != "" || option.name != "") = true := by
          rw [bne, bne, ← Bool.not_and, ← Choice.isVoid, hword, Bool.not_false]
        simp [Choice.isExpressible, hblank, hcolon, hnamed]
      simp [FieldDecl.isExpressible, nonempty, hoptions]
  | list expressible nonempty pairs =>
      simp [FieldDecl.isExpressible, expressible, nonempty, pairs]
  | gated word expressible reading ih =>
      simp [FieldDecl.isExpressible, word, expressible, ih hvoid]

/-- An option without a word is missing when what is left of the words is read again. -/
theorem not_reread (h : Reading name decl) (hvoid : decl.hasVoidOption = true) :
    ofWords name (decl.words.filter (· ≠ "")) ≠ .ok decl := by
  induction h with
  | scalar | list => cases hvoid
  | @choice options nonempty values =>
      have hlost : ((options.map Choice.word).filter (· ≠ "")).length < options.length := by
        obtain ⟨option, ho, hempty⟩ := List.any_eq_true.1 hvoid
        have hmem : "" ∈ options.map Choice.word :=
          List.mem_map.2 ⟨option, ho, Choice.word_eq_empty_iff.2 hempty⟩
        calc ((options.map Choice.word).filter (· ≠ "")).length
            < (options.map Choice.word).length :=
              List.length_filter_lt_length_iff_exists.2 ⟨"", hmem, by simp⟩
          _ = options.length := List.length_map _
      intro hread
      rw [FieldDecl.words, List.filter_cons_of_pos (by decide)] at hread
      cases hrest : (options.map Choice.word).filter (· ≠ "") with
      | nil =>
          rw [hrest] at hread
          cases hread
      | cons text rest =>
          rw [hrest] at hread hlost
          obtain ⟨others, hothers, heq⟩ := exists_of_bind_eq_ok hread
          cases heq
          exact Nat.ne_of_lt hlost (Choice.of_mapM hothers).1.symm
  | @gated source condition inner word expressible reading ih =>
      have hcondition : (condition.words source).filter (· ≠ "") = condition.words source := by
        refine List.filter_eq_self.2 fun text ht ↦ ?_
        have hword := FieldDecl.isWord_of_mem_conditionWords word expressible text ht
        simpa using (Bool.and_eq_true_iff.1 hword).1
      intro hread
      rw [FieldDecl.words, List.filter_append, hcondition] at hread
      refine ih hvoid ?_
      cases condition with
      | present =>
          obtain ⟨inner', hinner, heq⟩ := exists_of_bind_eq_ok hread
          cases heq
          exact hinner
      | equals target =>
          obtain ⟨inner', hinner, heq⟩ := exists_of_bind_eq_ok hread
          cases heq
          exact hinner

end Reading

end Descriptor

namespace FieldDecl

/-- A declaration that has been read from a descriptor is read again from the descriptor printed for
it, if and only if no option in it has neither a value nor a name. -/
theorem reparse_iff {name text : String} {decl : FieldDecl}
    (h : FieldDecl.parse name text = .ok decl) :
    FieldDecl.parse name decl.descriptor = .ok decl ↔ decl.hasVoidOption = false := by
  have hparse : ∀ text, FieldDecl.parse name text = .ok decl ↔
      Descriptor.ofWords name (Text.words text) = .ok decl := fun text ↦ by
    rw [parse]
    cases Descriptor.ofWords name (Text.words text) with
    | error _ => constructor <;> intro heq <;> cases heq
    | ok _ => constructor <;> intro heq <;> cases heq <;> rfl
  have hreading : Descriptor.Reading name decl :=
    Descriptor.reading_of_ofWords (fun _ hw ↦ isWord_of_mem hw) ((hparse text).1 h)
  rw [hparse, descriptor]
  constructor
  · intro hread
    rw [words_unwords_filter hreading.hasBlank_words] at hread
    exact Bool.eq_false_iff.2 fun hvoid ↦ hreading.not_reread hvoid hread
  · intro hvoid
    have hexpressible := hreading.isExpressible hvoid
    rw [words_unwords (isWord_of_mem_words hexpressible), ofWords_words hexpressible]

/-- A gated choice with an option whose label is its value, one whose label begins with a blank, one
with an empty label and one with an empty value, from words that two blanks part. -/
theorem reparse_gated_choice :
    let decl : FieldDecl := .gated "f" "a" (.equals "b")
      (.choice "f" [⟨"x", "x"⟩, ⟨" y", "x"⟩, ⟨"", "z"⟩, ⟨"z", ""⟩])
    FieldDecl.parse "f" "rely_value a  b select x x:%20y z: :z" = .ok decl ∧
      decl.descriptor = "rely_value a b select x x:%20y z: :z" ∧
      FieldDecl.parse "f" decl.descriptor = .ok decl := by
  intro decl
  have hwords : Text.words "rely_value a  b select x x:%20y z: :z" =
      ["rely_value", "a", "b", "select", "x", "x:%20y", "z:", ":z"] := by
    decide +kernel
  have h : FieldDecl.parse "f" "rely_value a  b select x x:%20y z: :z" = .ok decl := by
    rw [FieldDecl.parse, hwords]
    rfl
  have hdescriptor : decl.descriptor = "rely_value a b select x x:%20y z: :z" := by
    decide +kernel
  exact ⟨h, hdescriptor, (reparse_iff h).2 (by decide)⟩

/-- The word `:` alone is an option, and the descriptor printed for it has none. -/
theorem reparse_void_option :
    FieldDecl.parse "f" "select :" = .ok (.choice "f" [⟨"", ""⟩]) ∧
      FieldDecl.descriptor (.choice "f" [⟨"", ""⟩]) = "select " ∧
      FieldDecl.parse "f" "select " = .error (.descriptor "select " .noOptions) := by
  have hoption : Text.words "select :" = ["select", ":"] := by
    decide +kernel
  have hkeyword : Text.words "select " = ["select"] := by
    decide +kernel
  refine ⟨?_, by decide +kernel, ?_⟩
  · rw [FieldDecl.parse, hoption]
    rfl
  · rw [FieldDecl.parse, hkeyword]
    rfl

end FieldDecl

end LightTree
