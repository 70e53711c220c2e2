import LightTree.Proofs.JsonAtoms
import Mathlib.Data.List.Forall2

/-!
# JSON texts are read back

A value with whole numbers and proper strings is read back from either layout of its text. The
reader takes each part from the head of the text that is left and stops right behind it, so it is
enough to say of each part what it is read as, whatever follows.
-/

namespace LightTree

open Text Number

namespace Json

/-! ## Blanks -/

section

variable {blanks : List Char} (h : ∀ c ∈ blanks, isSpace c = true)

include h

theorem skipSpaces_append (text : List Char) : skipSpaces (blanks ++ text) = skipSpaces text :=
  List.dropWhile_append_of_pos h

theorem endsNumeral_append {text : List Char} (htext : endsNumeral text = true) :
    endsNumeral (blanks ++ text) = true := by
  cases blanks with
  | nil => exact htext
  | cons c blanks =>
      have hc := h c List.mem_cons_self
      simp only [isSpace, Bool.or_eq_true, decide_eq_true_eq] at hc
      rcases hc with ((rfl | rfl) | rfl) | rfl <;> rfl

end

theorem skipSpaces_cons {c : Char} (h : isSpace c = false) (text : List Char) :
    skipSpaces (c :: text) = c :: text := by
  rw [skipSpaces, List.dropWhile_cons_of_neg (by simp [h])]

theorem isSpace_of_mem_newline {level : Nat} {c : Char} (h : c ∈ newline level) :
    isSpace c = true := by
  rcases List.mem_cons.1 h with rfl | h
  · rfl
  · rw [List.eq_of_mem_replicate h]
    rfl

/-! ## Items between commas -/

/-- Whether no blank stands at the head of a text, nor a bracket that closes something. -/
def opens : List Char → Bool
  | [] => false
  | c :: _ => !isSpace c && c != ']' && c != '\x7d'

theorem skipSpaces_of_opens {text : List Char} (h : opens text = true) (rest : List Char) :
    skipSpaces (text ++ rest) = text ++ rest := by
  cases text with
  | nil => cases h
  | cons c text =>
      simp only [opens, Bool.and_eq_true, Bool.not_eq_true'] at h
      exact skipSpaces_cons h.1.1 _

section

variable {α : Type} {take : Nat → List Char → Option (α × List Char)}
  {takeAll : Nat → List Char → Option (List α × List Char)} {a : α} {items : List α}
  {text before after : List Char} {parts : List (List Char)} {closing : Char}

/-- A text that a reader takes for something, from its head to its end, whatever follows. A step for
each of its characters is enough. -/
structure Holds (take : Nat → List Char → Option (α × List Char)) (a : α) (text : List Char) :
    Prop where
  opens : opens text = true
  taken : ∀ {fuel : Nat} {rest : List Char}, text.length ≤ fuel → endsNumeral rest = true →
    take fuel (text ++ rest) = some (a, rest)

theorem Holds.of_succ (hopens : Json.opens text = true)
    (h : ∀ fuel rest, text.length ≤ fuel + 1 → endsNumeral rest = true →
      take (fuel + 1) (text ++ rest) = some (a, rest)) : Holds take a text where
  opens := hopens
  taken {fuel rest} hfuel hrest := by
    cases fuel with
    | zero =>
        rw [List.length_eq_zero_iff.1 (Nat.le_zero.1 hfuel)] at hopens
        cases hopens
    | succ fuel => exact h fuel rest hfuel hrest

theorem opens_commaJoin (hbefore : ∀ c ∈ before, isSpace c = true)
    (h : List.Forall₂ (Holds take) items parts) (hne : items ≠ []) (rest : List Char) :
    Json.opens (skipSpaces (commaJoin (parts.map (before ++ ·)) ++ rest)) = true := by
  cases h with
  | nil => exact absurd rfl hne
  | @cons a part items parts hfirst _ =>
      have hhead : ∃ more, commaJoin ((part :: parts).map (before ++ ·)) ++ rest =
          before ++ (part ++ more) := by
        cases parts with
        | nil => exact ⟨rest, List.append_assoc before part rest⟩
        | cons next parts =>
            refine ⟨',' :: commaJoin ((next :: parts).map (before ++ ·)) ++ rest, ?_⟩
            simp [commaJoin]
      obtain ⟨more, hmore⟩ := hhead
      rw [hmore, skipSpaces_append hbefore, skipSpaces_of_opens hfirst.opens]
      have hopens := hfirst.opens
      cases part with
      | nil => cases hopens
      | cons c part => exact hopens

/-- A reader of items that stops at a closing character and goes on behind a comma. -/
structure ReadsItems (take : Nat → List Char → Option (α × List Char))
    (takeAll : Nat → List Char → Option (List α × List Char)) (closing : Char) : Prop where
  last : ∀ {fuel text a rest rest'}, take fuel text = some (a, rest) →
    skipSpaces rest = closing :: rest' → takeAll (fuel + 1) text = some ([a], rest')
  more : ∀ {fuel text a rest rest' items rest''}, take fuel text = some (a, rest) →
    skipSpaces rest = ',' :: rest' → takeAll fuel (skipSpaces rest') = some (items, rest'') →
    takeAll (fuel + 1) text = some (a :: items, rest'')

theorem takeAll_commaJoin (hreads : ReadsItems take takeAll closing)
    (hclosing : isSpace closing = false) (hends : endsNumeral [closing] = true)
    (hbefore : ∀ c ∈ before, isSpace c = true) (hafter : ∀ c ∈ after, isSpace c = true)
    (h : List.Forall₂ (Holds take) items parts) (hne : items ≠ []) {fuel : Nat}
    (hfuel : (commaJoin (parts.map (before ++ ·))).length < fuel) (rest : List Char) :
    takeAll fuel (skipSpaces (commaJoin (parts.map (before ++ ·)) ++ (after ++ closing :: rest))) =
      some (items, rest) := by
  induction h generalizing fuel with
  | nil => exact absurd rfl hne
  | @cons a part items parts hfirst hrest ih =>
      obtain ⟨fuel, rfl⟩ := Nat.exists_eq_add_one_of_ne_zero (Nat.ne_zero_of_lt hfuel)
      cases hrest with
      | nil =>
          simp only [List.map_cons, List.map_nil, commaJoin, List.length_append] at hfuel ⊢
          rw [List.append_assoc, skipSpaces_append hbefore, skipSpaces_of_opens hfirst.opens]
          refine hreads.last (hfirst.taken (by omega) (endsNumeral_append hafter ?_)) ?_
          · exact hends
          · rw [skipSpaces_append hafter, skipSpaces_cons hclosing]
      | cons hsecond hrest =>
          simp only [List.map_cons, commaJoin, List.length_append, List.length_cons] at hfuel ih ⊢
          rw [List.append_assoc, List.append_assoc, skipSpaces_append hbefore,
            skipSpaces_of_opens hfirst.opens, List.cons_append]
          refine hreads.more (hfirst.taken (by omega) rfl) (skipSpaces_cons rfl _) ?_
          exact ih (by simp) (by omega)

end

/-! ## Values -/

/-- A text that is read as a value. -/
abbrev IsText : Json → List Char → Prop :=
  Holds value?

theorem isText_null : IsText .null (write .null) :=
  .of_succ rfl fun fuel rest _ _ ↦ by simp [write, value?, expect?]

theorem isText_boolean (b : Bool) : IsText (.boolean b) (write (.boolean b)) := by
  refine .of_succ (by cases b <;> rfl) fun fuel rest _ _ ↦ ?_
  cases b <;> simp [write, value?, expect?]

theorem isText_text (s : String) : IsText (.text s) (write (.text s)) := by
  refine .of_succ rfl fun fuel rest _ _ ↦ ?_
  have hread := string?_escaped s rest
  simp [text, write, writeString, value?, hread]

theorem value?_of_isDigit {c : Char} (h : c.isDigit = true) (fuel : Nat) (text : List Char) :
    value? (fuel + 1) (c :: text) =
      (numeral? false (c :: text)).map fun (x, rest) ↦ (.number x, rest) := by
  unfold value?
  split
  all_goals first
    | rfl
    | (next heq => cases heq; exact absurd h (by decide))

theorem opens_of_isDigit {c : Char} (h : c.isDigit = true) (text : List Char) :
    opens (c :: text) = true := by
  have hne : ∀ d : Char, d.isDigit = false → c ≠ d := by
    rintro d hd rfl
    exact absurd (h.symm.trans hd) nofun
  simp [opens, isSpace, hne ' ' rfl, hne '\t' rfl, hne '\n' rfl, hne '\r' rfl, hne ']' rfl,
    hne '\x7d' rfl]

theorem isText_ofInt (n : Int) : IsText (.ofInt n) (write (.ofInt n)) := by
  by_cases hn : n < 0
  · have hwrite : write (.ofInt n) = '-' :: Nat.toDigits 10 n.natAbs := by
      simp [ofInt, write, Numeral.write, Numeral.ofInt, hn]
    rw [hwrite]
    refine .of_succ rfl fun fuel rest _ hrest ↦ ?_
    simp [value?, ofInt, Numeral.ofInt, hn, numeral?_toDigits _ _ hrest]
  · have hwrite : write (.ofInt n) = Nat.toDigits 10 n.natAbs := by
      simp [ofInt, write, Numeral.write, Numeral.ofInt, hn]
    obtain ⟨c, digits, hdigits⟩ :=
      List.exists_cons_of_ne_nil (Nat.toDigits_ne_nil (n := n.natAbs) (b := 10))
    have hc : c.isDigit = true := isDigit_of_mem_toDigits (hdigits ▸ List.mem_cons_self)
    rw [hwrite]
    refine .of_succ (hdigits ▸ opens_of_isDigit hc digits) fun fuel rest _ hrest ↦ ?_
    have hread := numeral?_toDigits false n.natAbs hrest
    rw [hdigits, List.cons_append] at hread ⊢
    rw [value?_of_isDigit hc, hread]
    simp [ofInt, Numeral.ofInt, hn, hdigits]

section

variable {α : Type} {take : Nat → List Char → Option (α × List Char)}
  {takeAll : Nat → List Char → Option (List α × List Char)} {wrap : List α → Json}
  {items : List α} {before after : List Char} {parts : List (List Char)} {opening closing : Char}

/-- A reader of values that takes the items of a block between its brackets, if there are any. -/
structure ReadsBlock (opening closing : Char)
    (takeAll : Nat → List Char → Option (List α × List Char)) (wrap : List α → Json) : Prop where
  empty : ∀ {fuel text rest}, skipSpaces text = closing :: rest →
    value? (fuel + 1) (opening :: text) = some (wrap [], rest)
  full : ∀ {fuel text items rest}, opens (skipSpaces text) = true →
    takeAll fuel (skipSpaces text) = some (items, rest) →
    value? (fuel + 1) (opening :: text) = some (wrap items, rest)

theorem isText_block (hblock : ReadsBlock opening closing takeAll wrap)
    (hreads : ReadsItems take takeAll closing) (hopening : opens [opening] = true)
    (hclosing : isSpace closing = false) (hends : endsNumeral [closing] = true)
    (hbefore : ∀ c ∈ before, isSpace c = true) (hafter : ∀ c ∈ after, isSpace c = true)
    (h : List.Forall₂ (Holds take) items parts) :
    IsText (wrap items)
      (opening :: (commaJoin (parts.map (before ++ ·)) ++ (after ++ [closing]))) := by
  refine .of_succ hopening fun fuel rest hfuel _ ↦ ?_
  simp only [List.cons_append, List.append_assoc, List.nil_append]
  by_cases hne : items = []
  · subst hne
    cases h
    refine hblock.empty ?_
    rw [List.map_nil, commaJoin, List.nil_append, skipSpaces_append hafter,
      skipSpaces_cons hclosing]
  · have hlength : (commaJoin (parts.map (before ++ ·))).length < fuel := by
      simp only [List.length_cons, List.length_append] at hfuel
      omega
    exact hblock.full (opens_commaJoin hbefore h hne (after ++ closing :: rest))
      (takeAll_commaJoin hreads hclosing hends hbefore hafter h hne hlength rest)

end

section

variable {text before after blanks : List Char} {elements : List Json}
  {members : List (String × Json)} {layout : Json → List Char}

theorem readsBlock_array : ReadsBlock '[' ']' elements? .array where
  empty hclosed := by simp [value?, hclosed]
  full hopens hread := by
    simp only [value?]
    split
    · next hclosed =>
        rw [hclosed] at hopens
        cases hopens
    · rw [hread]
      rfl

theorem readsItems_elements : ReadsItems value? elements? ']' where
  last hvalue hrest := by simp [elements?, hvalue, hrest]
  more hvalue hrest hitems := by simp [elements?, hvalue, hrest, hitems]

theorem isText_array (hbefore : ∀ c ∈ before, isSpace c = true)
    (hafter : ∀ c ∈ after, isSpace c = true)
    (h : ∀ element ∈ elements, IsText element (layout element)) :
    IsText (.array elements)
      ('[' :: (commaJoin ((elements.map layout).map (before ++ ·)) ++ (after ++ [']']))) := by
  have hparts : List.Forall₂ IsText elements (elements.map layout) :=
    List.forall₂_map_right_iff.2 (List.forall₂_same.2 h)
  exact isText_block readsBlock_array readsItems_elements rfl rfl rfl hbefore hafter hparts

/-- Reads a key, the colon behind it and the value under it. -/
def member? (fuel : Nat) (text : List Char) : Option ((Characters × Json) × List Char) := do
  let rest ← expect? ['"'] text
  let (key, rest) ← string? rest
  let rest ← expect? [':'] (skipSpaces rest)
  let (value, rest) ← value? fuel (skipSpaces rest)
  return ((key, value), rest)

theorem exists_of_member?_eq_some {fuel : Nat} {text rest : List Char}
    {member : Characters × Json} (h : member? fuel text = some (member, rest)) :
    ∃ quoted named valued, expect? ['"'] text = some quoted ∧
      string? quoted = some (member.1, named) ∧ expect? [':'] (skipSpaces named) = some valued ∧
        value? fuel (skipSpaces valued) = some (member.2, rest) := by
  simp only [member?, Option.bind_eq_bind, Option.bind_eq_some_iff, Option.pure_def] at h
  obtain ⟨quoted, hquoted, ⟨key, named⟩, hnamed, valued, hvalued, ⟨value, rest⟩, hvalue, heq⟩ := h
  cases heq
  exact ⟨quoted, named, valued, hquoted, hnamed, hvalued, hvalue⟩

theorem readsItems_members : ReadsItems member? members? '\x7d' where
  last hmember hrest := by
    obtain ⟨quoted, named, valued, hquoted, hnamed, hvalued, hvalue⟩ :=
      exists_of_member?_eq_some hmember
    simp [members?, hquoted, hnamed, hvalued, hvalue, hrest]
  more hmember hrest hitems := by
    obtain ⟨quoted, named, valued, hquoted, hnamed, hvalued, hvalue⟩ :=
      exists_of_member?_eq_some hmember
    simp [members?, hquoted, hnamed, hvalued, hvalue, hrest, hitems]

/-- The text of a member with blanks before its value. -/
def memberText (blanks : List Char) (key : String) (value : List Char) : List Char :=
  writeString (some key) ++ ':' :: (blanks ++ value)

theorem holds_memberText (hblanks : ∀ c ∈ blanks, isSpace c = true)
    (key : String) {value : Json} (h : IsText value text) :
    Holds member? (some key, value) (memberText blanks key text) := by
  refine .of_succ rfl fun fuel rest hfuel hrest ↦ ?_
  have hlength : text.length ≤ fuel + 1 := by
    simp only [memberText, List.length_cons, List.length_append] at hfuel
    omega
  have hkey := string?_escaped key (':' :: (blanks ++ (text ++ rest)))
  have hvalue := h.taken hlength hrest
  simp [member?, memberText, writeString, expect?, hkey, skipSpaces_cons (c := ':') rfl,
    skipSpaces_append hblanks, skipSpaces_of_opens h.opens, hvalue]

theorem readsBlock_object : ReadsBlock '\x7b' '\x7d' members? .object where
  empty hclosed := by simp [value?, hclosed]
  full hopens hread := by
    simp only [value?]
    split
    · next hclosed =>
        rw [hclosed] at hopens
        cases hopens
    · rw [hread]
      rfl

theorem isText_record (hblanks : ∀ c ∈ blanks, isSpace c = true)
    (hbefore : ∀ c ∈ before, isSpace c = true) (hafter : ∀ c ∈ after, isSpace c = true)
    (h : ∀ member ∈ members, IsText member.2 (layout member.2)) :
    IsText (.record members) ('\x7b' :: (commaJoin ((members.map fun (key, value) ↦
      memberText blanks key (layout value)).map (before ++ ·)) ++ (after ++ ['\x7d']))) := by
  have hparts : List.Forall₂ (Holds member?) (members.map fun (key, value) ↦ (some key, value))
      (members.map fun (key, value) ↦ memberText blanks key (layout value)) := by
    simp only [List.forall₂_map_left_iff, List.forall₂_map_right_iff, List.forall₂_same]
    exact fun member hmember ↦ holds_memberText hblanks member.1 (h member hmember)
  rw [record]
  exact isText_block readsBlock_object readsItems_members rfl rfl rfl hbefore hafter hparts

end

/-! ## Layouts -/

/-- The values whose text says all about them: their integers fit a word and a sign, and their
strings have characters. -/
inductive IsExact : Json → Prop
  | null : IsExact .null
  | boolean (b : Bool) : IsExact (.boolean b)
  | integer {n : Int} (h : n.natAbs < UInt64.size) : IsExact (.ofInt n)
  | text (s : String) : IsExact (.text s)
  | array {elements : List Json} (h : ∀ element ∈ elements, IsExact element) :
    IsExact (.array elements)
  | record {members : List (String × Json)} (h : ∀ member ∈ members, IsExact member.2) :
    IsExact (.record members)

theorem properElements_eq_all (elements : List Json) :
    properElements elements = elements.all Json.isProper := by
  induction elements with
  | nil => rfl
  | cons element rest ih => rw [properElements, ih, List.all_cons]

theorem properMembers_eq_all (members : List (String × Json)) :
    properMembers (members.map fun (key, value) ↦ (some key, value)) =
      members.all (·.2.isProper) := by
  induction members with
  | nil => rfl
  | cons member rest ih =>
      rw [List.map_cons, properMembers, ih, List.all_cons, Option.isSome_some, Bool.true_and]

theorem IsExact.isProper {json : Json} (h : json.IsExact) : json.isProper = true := by
  induction h with
  | null => rfl
  | boolean b => rfl
  | integer h => exact inRange_ofInt h
  | text s => rfl
  | array _ ih =>
      rw [Json.isProper, properElements_eq_all]
      exact List.all_eq_true.2 ih
  | record _ ih =>
      rw [Json.record, Json.isProper, properMembers_eq_all]
      exact List.all_eq_true.2 ih

theorem writeElements_eq_map (elements : List Json) :
    writeElements elements = elements.map write := by
  induction elements with
  | nil => rfl
  | cons element rest ih => rw [writeElements, ih, List.map_cons]

theorem indentElements_eq_map (level : Nat) (elements : List Json) :
    indentElements level elements = elements.map (writeIndented level) := by
  induction elements with
  | nil => rfl
  | cons element rest ih => rw [indentElements, ih, List.map_cons]

theorem writeMembers_eq_map (members : List (String × Json)) :
    writeMembers (members.map fun (key, value) ↦ (some key, value)) =
      members.map fun (key, value) ↦ memberText [] key (write value) := by
  induction members with
  | nil => rfl
  | cons member rest ih =>
      rw [List.map_cons, List.map_cons, writeMembers, ih]
      rfl

theorem indentMembers_eq_map (level : Nat) (members : List (String × Json)) :
    indentMembers level (members.map fun (key, value) ↦ (some key, value)) =
      members.map fun (key, value) ↦ memberText [' '] key (writeIndented level value) := by
  induction members with
  | nil => rfl
  | cons member rest ih =>
      rw [List.map_cons, List.map_cons, indentMembers, ih]
      rfl

theorem isText_write {json : Json} (h : json.IsExact) : IsText json (write json) := by
  have hnone : ∀ c ∈ ([] : List Char), isSpace c = true := nofun
  induction h with
  | null => exact isText_null
  | boolean b => exact isText_boolean b
  | integer => exact isText_ofInt _
  | text s => exact isText_text s
  | array _ ih =>
      have htext := isText_array hnone hnone ih
      rw [← writeElements_eq_map] at htext
      simpa [write] using htext
  | record _ ih =>
      have htext := isText_record hnone hnone hnone ih
      rw [← writeMembers_eq_map] at htext
      simpa [record, write] using htext

/-- A block is laid out as its parts on lines of their own, unless there are none. -/
theorem block_eq (level : Nat) (opening closing : Char) (parts : List (List Char)) :
    ∃ before after, (∀ c ∈ before, isSpace c = true) ∧ (∀ c ∈ after, isSpace c = true) ∧
      block level opening closing parts =
        opening :: (commaJoin (parts.map (before ++ ·)) ++ (after ++ [closing])) := by
  cases parts with
  | nil => exact ⟨[], [], nofun, nofun, rfl⟩
  | cons part parts =>
      refine ⟨newline (level + 1), newline level, fun _ ↦ isSpace_of_mem_newline,
        fun _ ↦ isSpace_of_mem_newline, ?_⟩
      simp [block]

theorem isText_writeIndented {json : Json} (h : json.IsExact) (level : Nat) :
    IsText json (writeIndented level json) := by
  have hblank : ∀ c ∈ [' '], isSpace c = true := by simp [isSpace]
  induction h generalizing level with
  | null => exact isText_null
  | boolean b => cases b <;> exact isText_boolean _
  | integer => exact isText_ofInt _
  | text s => exact isText_text s
  | @array elements _ ih =>
      obtain ⟨before, after, hbefore, hafter, hblock⟩ :=
        block_eq level '[' ']' (elements.map (writeIndented (level + 1)))
      rw [writeIndented, indentElements_eq_map, hblock]
      exact isText_array hbefore hafter fun element helement ↦ ih element helement (level + 1)
  | @record members _ ih =>
      obtain ⟨before, after, hbefore, hafter, hblock⟩ :=
        block_eq level '\x7b' '\x7d' (members.map fun (key, value) ↦
          memberText [' '] key (writeIndented (level + 1) value))
      rw [record, writeIndented, indentMembers_eq_map, hblock]
      exact isText_record hblank hbefore hafter fun member hmember ↦
        ih member hmember (level + 1)

theorem parse?_of_isText {json : Json} {text : List Char} (h : IsText json text) :
    parse? (String.ofList text) = some json := by
  have hskip := skipSpaces_of_opens h.opens []
  have hread : value? (2 * text.length + 2) (text ++ []) = some (json, []) :=
    h.taken (by omega) rfl
  have hend : skipSpaces [] = [] := rfl
  rw [List.append_nil] at hskip hread
  simp [parse?, hskip, hread, hend]

theorem parse?_compact {json : Json} (h : json.IsExact) : parse? json.compact = some json :=
  parse?_of_isText (isText_write h)

theorem parse?_pretty {json : Json} (h : json.IsExact) : parse? json.pretty = some json :=
  parse?_of_isText (isText_writeIndented h 0)

end Json

end LightTree
