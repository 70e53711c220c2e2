import LightTree.Proofs.Content
import LightTree.Proofs.Forms

/-!
# The tokens of a node can be read back

Where the kinds of a catalog are told apart by category and symbol, and every field that may be
missing depends on one that was sent before it, the tokens of a node say what it shows and where the
next node begins. Numbers of elements and of children are sent before the elements and the children,
or else follow from the kind.
-/

namespace LightTree

/-! ## Tokens are words -/

namespace Text

theorem isWord_of_toList {text : String} (hne : text.toList ≠ [])
    (h : ∀ c ∈ text.toList, isBlank c = false) : isWord text = true := by
  have hempty : text ≠ "" := fun he ↦ hne (he ▸ rfl)
  simpa [isWord, hasBlank, hempty] using h

theorem not_blank_of_isDigit {c : Char} (h : c.isDigit = true) : isBlank c = false := by
  have hrange : 48 ≤ c.toNat ∧ c.toNat ≤ 57 := by
    simpa [Char.isDigit, UInt32.le_iff_toNat_le] using h
  simp only [isBlank, Bool.or_eq_false_iff, Bool.and_eq_false_iff, decide_eq_false_iff_not,
    beq_eq_false_iff_ne]
  omega

theorem not_blank_of_isHexDigit {c : Char} (h : isHexDigit c = true) : isBlank c = false := by
  have hrange : (48 ≤ c.toNat ∧ c.toNat ≤ 57) ∨ (65 ≤ c.toNat ∧ c.toNat ≤ 70) ∨
      (97 ≤ c.toNat ∧ c.toNat ≤ 102) := by
    simp only [isHexDigit, hexValue?] at h
    grind
  simp only [isBlank, Bool.or_eq_false_iff, Bool.and_eq_false_iff, decide_eq_false_iff_not,
    beq_eq_false_iff_ne]
  omega

theorem not_blank_of_mem_toDigits {n : Nat} {c : Char} (h : c ∈ Nat.toDigits 10 n) :
    isBlank c = false :=
  not_blank_of_isDigit (Nat.isDigit_of_mem_toDigits (by decide) (by decide) h)

theorem toDigits_inj {n m : Nat} (h : Nat.toDigits 10 n = Nat.toDigits 10 m) : n = m := by
  have hread := congrArg (Nat.ofDigitChars 10 · 0) h
  simpa [Nat.ofDigitChars_toDigits] using hread

theorem toList_toString_nat (n : Nat) : (toString n).toList = Nat.toDigits 10 n := by
  simp

theorem toList_toString_negSucc (n : Nat) :
    (toString (Int.negSucc n)).toList = '-' :: Nat.toDigits 10 (n + 1) := by
  simp [Int.toString_eq_repr, Int.repr]

theorem toString_nat_inj {n m : Nat} (h : toString n = toString m) : n = m := by
  have hdigits := congrArg String.toList h
  rw [toList_toString_nat, toList_toString_nat] at hdigits
  exact toDigits_inj hdigits

/-- The sign is no digit. -/
theorem toString_ofNat_ne_negSucc (n m : Nat) :
    toString (Int.ofNat n) ≠ toString (Int.negSucc m) := by
  intro h
  have hlists := (congrArg String.toList h).trans (toList_toString_negSucc m)
  have hchars : Nat.toDigits 10 n = '-' :: Nat.toDigits 10 (m + 1) :=
    (toList_toString_nat n).symm.trans hlists
  have hsign : '-' ∈ Nat.toDigits 10 n := hchars ▸ List.mem_cons_self
  have hdigit := Nat.isDigit_of_mem_toDigits (by decide) (by decide) hsign
  exact absurd hdigit (by decide)

theorem toString_int_inj {n m : Int} (h : toString n = toString m) : n = m := by
  cases n with
  | ofNat n =>
      cases m with
      | ofNat m => exact congrArg Int.ofNat (toString_nat_inj h)
      | negSucc m => exact absurd h (toString_ofNat_ne_negSucc n m)
  | negSucc n =>
      cases m with
      | ofNat m => exact absurd h.symm (toString_ofNat_ne_negSucc m n)
      | negSucc m =>
          have hdigits := congrArg String.toList h
          rw [toList_toString_negSucc, toList_toString_negSucc] at hdigits
          exact congrArg Int.negSucc (Nat.succ.inj (toDigits_inj (List.cons.inj hdigits).2))

theorem isWord_toString_nat (n : Nat) : isWord (toString n) = true := by
  have hchars := toList_toString_nat n
  apply isWord_of_toList
  · rw [hchars]
    exact Nat.toDigits_ne_nil
  · intro c hc
    exact not_blank_of_mem_toDigits (hchars ▸ hc)

theorem isWord_toString_int (n : Int) : isWord (toString n) = true := by
  cases n with
  | ofNat n => exact isWord_toString_nat n
  | negSucc n =>
      have hchars := toList_toString_negSucc n
      apply isWord_of_toList
      · rw [hchars]
        exact List.cons_ne_nil _ _
      · intro c hc
        rw [hchars] at hc
        rcases List.mem_cons.1 hc with rfl | hc
        · decide
        · exact not_blank_of_mem_toDigits hc

end Text

namespace Scalar

/-- Whether a scalar is sent as one word whatever is stored later on. -/
def isSent : Scalar → Bool
  | text _ => false
  | s => Text.isWord s.token

theorem isWord_token {initial s : Scalar} (hsent : initial.isSent = true)
    (hkind : s.kind = initial.kind) (hs : s = initial ∨ s.isValid = true) :
    Text.isWord s.token = true := by
  cases s with
  | integer n | position n => exact Text.isWord_toString_int n.toInt
  | boolean b => cases b <;> decide
  | text t =>
      cases initial with
      | text => cases hsent
      | integer | position | boolean | color => cases hkind
  | color digits =>
      rcases hs with rfl | hvalid
      · exact hsent
      · simp only [isValid, Bool.and_eq_true, beq_iff_eq, List.all_eq_true] at hvalid
        apply Text.isWord_of_toList
        · intro hnil
          have hlength : ([] : List Char).length = 6 := hnil ▸ hvalid.1
          cases hlength
        · exact fun c hc ↦ Text.not_blank_of_isHexDigit (hvalid.2 c hc)

theorem toString_int64_inj {n m : Int64} (h : toString n = toString m) : n = m := by
  have hint : toString n.toInt = toString m.toInt := h
  exact Int64.toInt_inj.1 (Text.toString_int_inj hint)

/-- Scalars of one kind have different tokens. -/
theorem token_inj {s t : Scalar} (hkind : s.kind = t.kind) (h : s.token = t.token) : s = t := by
  cases s with
  | integer n =>
      cases t with
      | integer m => exact congrArg integer (toString_int64_inj h)
      | position | boolean | text | color => cases hkind
  | position n =>
      cases t with
      | position m => exact congrArg position (toString_int64_inj h)
      | integer | boolean | text | color => cases hkind
  | boolean b =>
      cases t with
      | boolean c =>
          cases b <;> cases c
          · rfl
          · exact absurd h (by decide)
          · exact absurd h (by decide)
          · rfl
      | integer | position | text | color => cases hkind
  | text a =>
      cases t with
      | text b => exact congrArg text h
      | integer | position | boolean | color => cases hkind
  | color a =>
      cases t with
      | color b => exact congrArg color h
      | integer | position | boolean | text => cases hkind

end Scalar

theorem exists_of_mem_right {α β : Type} {rel : α → β → Prop} {as : List α} {bs : List β}
    (h : List.Forall₂ rel as bs) {b : β} (hb : b ∈ bs) : ∃ a ∈ as, rel a b := by
  induction h with
  | nil => cases hb
  | cons hfirst _ ih =>
      rcases List.mem_cons.1 hb with rfl | hb
      · exact ⟨_, List.mem_cons_self, hfirst⟩
      · obtain ⟨a, ha, hrel⟩ := ih hb
        exact ⟨a, List.mem_cons_of_mem _ ha, hrel⟩

/-! ## What fields show -/

namespace Shown

def raw? : Shown → Option String
  | nothing => none
  | scalar s => some s.token
  | option value => some value
  | list elements => some (toString elements.length)

/-- Whether what an active field shows meets a condition on the field. -/
def meets (shown : Shown) : Condition → Bool
  | .present =>
    match shown with
    | scalar (.boolean set) => set
    | _ => true
  | .equals target => shown.raw? == some target

end Shown

namespace FieldDecl

/-- What the field of a declaration shows if it is one value. -/
def ShowsBare : FieldDecl → Shown → Prop
  | scalar _ initial, .scalar s => s.kind = initial.kind ∧ (s = initial ∨ s.isValid = true)
  | choice _ options, .option value => ∃ option ∈ options, option.value = value
  | _, _ => False

/-- What the field of a declaration shows if it is always active. -/
def ShowsOpen : FieldDecl → Shown → Prop
  | list _ _ element, .list elements => ∀ group ∈ elements, List.Forall₂ ShowsBare element group
  | decl, shown => decl.ShowsBare shown

/-- What the field of a declaration shows beside the others of its node. -/
def Shows (env : String → Shown) : FieldDecl → Shown → Prop
  | gated _ source condition inner, shown =>
    if (env source).meets condition then inner.ShowsOpen shown else shown = .nothing
  | decl, shown => decl.ShowsOpen shown

def isBare : FieldDecl → Bool
  | scalar _ initial => initial.isSent
  | choice _ options => options.all (Text.isWord ·.value)
  | _ => false

def isOpen : FieldDecl → Bool
  | list _ _ element => element.all isBare
  | decl => decl.isBare

/-- Whether a field is open, or gated by an open one before it with an open field inside. -/
def isLegible (opened : List String) : FieldDecl → Bool
  | gated _ source _ inner => opened.contains source && inner.isOpen
  | decl => decl.isOpen

def fieldsAreLegible (opened : List String) : List FieldDecl → Bool
  | [] => true
  | decl :: rest =>
    decl.isLegible opened &&
      fieldsAreLegible (if decl.isOpen then decl.name :: opened else opened) rest

end FieldDecl

namespace FieldDecl

variable {decl : FieldDecl} {v w : Shown} {r s : List String}

theorem ShowsBare.unique (hv : decl.ShowsBare v) (hw : decl.ShowsBare w)
    (h : v.tokens ++ r = w.tokens ++ s) : v = w ∧ r = s := by
  cases decl with
  | scalar name initial =>
      cases v with
      | scalar a =>
          cases w with
          | scalar b =>
              obtain ⟨htoken, hrest⟩ := List.cons.inj h
              exact ⟨congrArg _ (Scalar.token_inj (hv.1.trans hw.1.symm) htoken), hrest⟩
          | nothing | option | list => exact hw.elim
      | nothing | option | list => exact hv.elim
  | choice name options =>
      cases v with
      | option a =>
          cases w with
          | option b =>
              obtain ⟨htoken, hrest⟩ := List.cons.inj h
              exact ⟨congrArg _ htoken, hrest⟩
          | nothing | scalar | list => exact hw.elim
      | nothing | scalar | list => exact hv.elim
  | list | gated => exact hv.elim

theorem ShowsBare.isWord (hv : decl.ShowsBare v) (hbare : decl.isBare = true) :
    ∀ token ∈ v.tokens, Text.isWord token = true := by
  intro token ht
  cases decl with
  | scalar name initial =>
      cases v with
      | scalar a =>
          rw [List.mem_singleton.1 ht]
          exact Scalar.isWord_token hbare hv.1 hv.2
      | nothing | option | list => exact hv.elim
  | choice name options =>
      cases v with
      | option a =>
          obtain ⟨option, hmem, rfl⟩ := hv
          rw [List.mem_singleton.1 ht]
          exact List.all_eq_true.1 hbare option hmem
      | nothing | scalar | list => exact hv.elim
  | list | gated => exact hv.elim

theorem group_unique {decls : List FieldDecl} {vs ws : List Shown}
    (hv : List.Forall₂ ShowsBare decls vs) (hw : List.Forall₂ ShowsBare decls ws)
    (h : Shown.groupTokens vs ++ r = Shown.groupTokens ws ++ s) : vs = ws ∧ r = s := by
  induction hv generalizing ws with
  | nil =>
      cases hw
      exact ⟨rfl, h⟩
  | cons hfirst _ ih =>
      cases hw with
      | cons hfirst' hrest' =>
          rw [Shown.groupTokens, Shown.groupTokens, List.append_assoc, List.append_assoc] at h
          obtain ⟨rfl, hrest⟩ := hfirst.unique hfirst' h
          obtain ⟨rfl, hend⟩ := ih hrest' hrest
          exact ⟨rfl, hend⟩

theorem elements_unique {decls : List FieldDecl} {vs ws : List (List Shown)}
    (hlength : vs.length = ws.length) (hv : ∀ group ∈ vs, List.Forall₂ ShowsBare decls group)
    (hw : ∀ group ∈ ws, List.Forall₂ ShowsBare decls group)
    (h : Shown.elementsTokens vs ++ r = Shown.elementsTokens ws ++ s) : vs = ws ∧ r = s := by
  induction vs generalizing ws with
  | nil =>
      cases ws with
      | nil => exact ⟨rfl, h⟩
      | cons => cases hlength
  | cons group vs ih =>
      cases ws with
      | nil => cases hlength
      | cons group' ws =>
          obtain ⟨hfirst, hrest⟩ := List.forall_mem_cons.1 hv
          obtain ⟨hfirst', hrest'⟩ := List.forall_mem_cons.1 hw
          rw [Shown.elementsTokens, Shown.elementsTokens, List.append_assoc, List.append_assoc] at h
          obtain ⟨rfl, htail⟩ := group_unique hfirst hfirst' h
          obtain ⟨rfl, hend⟩ := ih (Nat.succ.inj hlength) hrest hrest' htail
          exact ⟨rfl, hend⟩

/-- The number of elements is sent before the elements. -/
theorem ShowsOpen.unique (hv : decl.ShowsOpen v) (hw : decl.ShowsOpen w)
    (h : v.tokens ++ r = w.tokens ++ s) : v = w ∧ r = s := by
  cases decl with
  | list name rule element =>
      cases v with
      | list vs =>
          cases w with
          | list ws =>
              obtain ⟨hlength, hrest⟩ := List.cons.inj h
              obtain ⟨rfl, hend⟩ := elements_unique (Text.toString_nat_inj hlength) hv hw hrest
              exact ⟨rfl, hend⟩
          | nothing | scalar | option => exact hw.elim
      | nothing | scalar | option => exact hv.elim
  | scalar | choice => exact ShowsBare.unique hv hw h
  | gated => exact hv.elim

theorem ShowsOpen.isWord (hv : decl.ShowsOpen v) (hopen : decl.isOpen = true) :
    ∀ token ∈ v.tokens, Text.isWord token = true := by
  cases decl with
  | list name rule element =>
      cases v with
      | list vs =>
          intro token ht
          rcases List.mem_cons.1 ht with rfl | ht
          · exact Text.isWord_toString_nat vs.length
          · rw [Shown.elementsTokens_eq_flatMap] at ht
            obtain ⟨shown, hshown, htoken⟩ := List.mem_flatMap.1 ht
            obtain ⟨group, hgroup, hmem⟩ := List.mem_flatten.1 hshown
            obtain ⟨bare, hbare, hshows⟩ := exists_of_mem_right (hv group hgroup) hmem
            exact hshows.isWord (List.all_eq_true.1 hopen bare hbare) token htoken
      | nothing | scalar | option => exact hv.elim
  | scalar | choice => exact ShowsBare.isWord hv hopen
  | gated => exact hv.elim

section

variable {env env' : String → Shown} {opened : List String}

/-- A gate that is told apart by what was sent before it shows something in both cases or in
neither. -/
theorem Shows.unique (hv : decl.Shows env v) (hw : decl.Shows env' w)
    (hsame : ∀ name ∈ opened, env name = env' name) (hlegible : decl.isLegible opened = true)
    (h : v.tokens ++ r = w.tokens ++ s) : v = w ∧ r = s := by
  cases decl with
  | gated name source condition inner =>
      have hsource : env source = env' source :=
        hsame source (by simpa using (Bool.and_eq_true_iff.1 hlegible).1)
      simp only [Shows, hsource] at hv hw
      split at hv
      · next hmeets =>
          rw [if_pos hmeets] at hw
          exact hv.unique hw h
      · next hmeets =>
          rw [if_neg hmeets] at hw
          subst hv hw
          exact ⟨rfl, h⟩
  | scalar name initial => exact @ShowsOpen.unique (scalar name initial) v w r s hv hw h
  | choice name options => exact @ShowsOpen.unique (choice name options) v w r s hv hw h
  | list => exact ShowsOpen.unique hv hw h

theorem Shows.isWord (hv : decl.Shows env v) (hlegible : decl.isLegible opened = true) :
    ∀ token ∈ v.tokens, Text.isWord token = true := by
  cases decl with
  | gated name source condition inner =>
      simp only [Shows] at hv
      split at hv
      · exact hv.isWord (Bool.and_eq_true_iff.1 hlegible).2
      · subst hv
        exact fun token ht ↦ absurd ht List.not_mem_nil
  | scalar name initial => exact @ShowsOpen.isWord (scalar name initial) v hv hlegible
  | choice name options => exact @ShowsOpen.isWord (choice name options) v hv hlegible
  | list => exact ShowsOpen.isWord hv hlegible

/-- What the fields of some declarations show, each among the others. -/
def Row (env : String → Shown) : List FieldDecl → List Shown → Prop :=
  List.Forall₂ fun decl shown ↦ env decl.name = shown ∧ decl.Shows env shown

/-- What has been read so far says which fields come next. -/
theorem Row.unique {decls : List FieldDecl} {vs ws : List Shown} (hv : Row env decls vs)
    (hw : Row env' decls ws) (hsame : ∀ name ∈ opened, env name = env' name)
    (hlegible : fieldsAreLegible opened decls = true)
    (h : vs.flatMap Shown.tokens ++ r = ws.flatMap Shown.tokens ++ s) : vs = ws ∧ r = s := by
  induction decls generalizing opened vs ws with
  | nil =>
      cases hv
      cases hw
      exact ⟨rfl, h⟩
  | cons decl rest ih =>
      cases hv with
      | cons hfirst hrest =>
          cases hw with
          | cons hfirst' hrest' =>
              obtain ⟨hdecl, hdecls⟩ := Bool.and_eq_true_iff.1 hlegible
              rw [List.flatMap_cons, List.flatMap_cons, List.append_assoc, List.append_assoc] at h
              obtain ⟨rfl, htail⟩ := hfirst.2.unique hfirst'.2 hsame hdecl h
              have hsame' : ∀ name ∈ if decl.isOpen then decl.name :: opened else opened,
                  env name = env' name := by
                intro name hname
                split at hname
                · rcases List.mem_cons.1 hname with rfl | hname
                  · rw [hfirst.1, hfirst'.1]
                  · exact hsame name hname
                · exact hsame name hname
              obtain ⟨rfl, hend⟩ := ih hrest hrest' hsame' hdecls htail
              exact ⟨rfl, hend⟩

theorem Row.isWord {decls : List FieldDecl} {vs : List Shown} (hv : Row env decls vs)
    (hlegible : fieldsAreLegible opened decls = true) :
    ∀ token ∈ vs.flatMap Shown.tokens, Text.isWord token = true := by
  induction decls generalizing opened vs with
  | nil =>
      cases hv
      exact fun token ht ↦ absurd ht List.not_mem_nil
  | cons decl rest ih =>
      cases hv with
      | cons hfirst hrest =>
          obtain ⟨hdecl, hdecls⟩ := Bool.and_eq_true_iff.1 hlegible
          intro token ht
          rw [List.flatMap_cons] at ht
          rcases List.mem_append.1 ht with ht | ht
          · exact hfirst.2.isWord hdecl token ht
          · exact ih hrest hdecls token ht

end

end FieldDecl

/-! ## What nodes show -/

/-- All tokens but the first can be read off a line if they are words. -/
theorem words_wireLine_cons (first : String) {rest : List String}
    (h : ∀ token ∈ rest, Text.isWord token = true) :
    Text.words (wireLine (first :: rest)) = Text.words first ++ rest := by
  have hkept : rest.filter (· ≠ "") = rest := by
    rw [List.filter_eq_self]
    intro token ht
    simpa using (Bool.and_eq_true_iff.1 (h token ht)).1
  by_cases hfirst : first = ""
  · subst hfirst
    rw [wireLine, List.filter_cons_of_neg (by simp), hkept]
    exact Text.words_unwords h
  · rw [wireLine, List.filter_cons_of_pos (by simpa using hfirst), hkept]
    cases rest with
    | nil => exact (List.append_nil _).symm
    | cons second rest =>
        rw [String.intercalate_cons_cons, Text.words_append_space]
        exact congrArg _ (Text.words_unwords h)

namespace NodeKind

/-- Whether the fields of a kind are legible, and its symbol is sent unless nodes of it stand at the
top only. -/
def isLegible (kind : NodeKind) : Bool :=
  FieldDecl.fieldsAreLegible [] kind.fields &&
    (kind.category == .system || Text.isWord kind.symbol) && kind.childCategory != .system

end NodeKind

/-- Whether the kinds of a catalog are legible and told apart by category and symbol. -/
def Catalog.isLegible (catalog : Catalog) : Bool :=
  catalog.kinds.all fun kind ↦
    kind.isLegible && catalog.find? kind.category kind.symbol == some kind

theorem Catalog.kind_of_isLegible {catalog : Catalog} (hcatalog : catalog.isLegible = true)
    {kind : NodeKind} (hkind : kind ∈ catalog.kinds) : kind.isLegible = true ∧
      catalog.find? kind.category kind.symbol = some kind := by
  simpa using List.all_eq_true.1 hcatalog kind hkind

namespace Content

open Catalog

/-- What a node of a category shows if it is of a kind of the catalog. The number of its children
follows from the kind where it is not sent. -/
inductive Legible (catalog : Catalog) : Category → Content → Prop
  | node {category : Category} {kind : NodeKind} {env : String → Shown} {fields : List Shown}
      {children : List Content} (mem : kind ∈ catalog.kinds) (ofCategory : kind.category = category)
      (row : FieldDecl.Row env kind.fields fields)
      (count : Node.showsCount { kind } = false → some children.length = kind.maxChildren)
      (below : ∀ child ∈ children, Legible catalog kind.childCategory child) :
      Legible catalog category (.node category kind.symbol fields children)

variable {catalog : Catalog} {category : Category} {content other : Content}
  {r s : List String}

theorem children_unique {children others : List Content} (hlength : children.length = others.length)
    (hunique : ∀ child ∈ children, ∀ other r s, Legible catalog category other →
      child.tokens catalog ++ r = other.tokens catalog ++ s → child = other ∧ r = s)
    (hothers : ∀ other ∈ others, Legible catalog category other)
    (h : childTokens catalog children ++ r = childTokens catalog others ++ s) :
    children = others ∧ r = s := by
  induction children generalizing others with
  | nil =>
      cases others with
      | nil => exact ⟨rfl, h⟩
      | cons => cases hlength
  | cons child rest ih =>
      cases others with
      | nil => cases hlength
      | cons other others =>
          obtain ⟨hfirst, hrest⟩ := List.forall_mem_cons.1 hunique
          obtain ⟨hother, hrest'⟩ := List.forall_mem_cons.1 hothers
          rw [childTokens, childTokens, List.append_assoc, List.append_assoc] at h
          obtain ⟨rfl, htail⟩ := hfirst other _ _ hother h
          obtain ⟨rfl, hend⟩ := ih (Nat.succ.inj hlength) hrest hrest' htail
          exact ⟨rfl, hend⟩

/-- The tokens of a node are the beginning of no other tokens of a node of its category. The
induction goes down the nodes. -/
theorem Legible.unique (hcatalog : catalog.isLegible = true)
    (hcontent : Legible catalog category content) (hother : Legible catalog category other)
    (h : content.tokens catalog ++ r = other.tokens catalog ++ s) : content = other ∧ r = s := by
  induction hcontent generalizing other r s with
  | @node category kind env fields children hmem hcategory hrow hcount hbelow ih =>
      cases hother with
      | @node _ kind' env' fields' children' hmem' hcategory' hrow' hcount' hbelow' =>
          obtain ⟨hlegible, hfind⟩ := kind_of_isLegible hcatalog hmem
          obtain ⟨_, hfind'⟩ := kind_of_isLegible hcatalog hmem'
          simp only [tokens, List.cons_append, List.append_assoc] at h
          obtain ⟨hsymbol, h⟩ := List.cons.inj h
          have hkind : kind = kind' := by
            rw [hsymbol, hcategory, ← hcategory', hfind'] at hfind
            exact (Option.some.inj hfind).symm
          subst hkind
          simp only [NodeKind.isLegible, Bool.and_eq_true] at hlegible
          obtain ⟨rfl, hrest⟩ := hrow.unique hrow'
            (fun name hname ↦ absurd hname List.not_mem_nil) hlegible.1.1 h
          -- The number of children is sent, or the kind says it.
          have hlength : children.length = children'.length ∧
              childTokens catalog children ++ r = childTokens catalog children' ++ s := by
            have hshows : catalog.showsCount category kind.symbol = Node.showsCount { kind } := by
              rw [Catalog.showsCount, ← hcategory, hfind', Option.any_some]
            rw [hshows] at hrest
            split at hrest
            · obtain ⟨hcount, htail⟩ := List.cons.inj hrest
              exact ⟨Text.toString_nat_inj hcount, htail⟩
            · next hnot =>
                rw [Bool.not_eq_true] at hnot
                exact ⟨Option.some.inj ((hcount hnot).trans (hcount' hnot).symm), hrest⟩
          obtain ⟨rfl, hend⟩ := children_unique hlength.1
            (fun child hc other r s ho h ↦ ih child hc ho h) hbelow' hlength.2
          exact ⟨rfl, hend⟩

/-- Only a node at the top may send an empty symbol, or one with blanks. -/
theorem Legible.isWord (hcatalog : catalog.isLegible = true)
    (hcontent : Legible catalog category content) :
    (∀ token ∈ (content.tokens catalog).tail, Text.isWord token = true) ∧
      (category ≠ .system → ∀ token ∈ content.tokens catalog, Text.isWord token = true) := by
  induction hcontent with
  | @node category kind env fields children hmem hcategory hrow hcount hbelow ih =>
      obtain ⟨hlegible, hfind⟩ := kind_of_isLegible hcatalog hmem
      simp only [NodeKind.isLegible, Bool.and_eq_true, Bool.or_eq_true, beq_iff_eq, bne_iff_ne]
        at hlegible
      obtain ⟨⟨hfields, hsymbol⟩, hchild⟩ := hlegible
      have htail : ∀ token ∈ ((Content.node category kind.symbol fields children).tokens
          catalog).tail, Text.isWord token = true := by
        intro token ht
        simp only [tokens, List.cons_append, List.tail_cons, List.mem_append] at ht
        rcases ht with (ht | ht) | ht
        · exact hrow.isWord hfields token ht
        · split at ht
          · rw [List.mem_singleton.1 ht]
            exact Text.isWord_toString_nat _
          · cases ht
        · rw [childTokens_eq_flatMap] at ht
          obtain ⟨child, hc, htoken⟩ := List.mem_flatMap.1 ht
          exact (ih child hc).2 hchild token htoken
      refine ⟨htail, fun hsystem token ht ↦ ?_⟩
      rcases List.mem_cons.1 ht with rfl | ht
      · exact hsymbol.resolve_left fun hc ↦ hsystem (hcategory.symm.trans hc)
      · exact htail token ht

/-- Nodes of one symbol that send the same line show the same. -/
theorem Legible.eq_of_wireLine (hcatalog : catalog.isLegible = true)
    (hcontent : Legible catalog category content) (hother : Legible catalog category other)
    (hsymbol : content.symbol = other.symbol)
    (h : wireLine (content.tokens catalog) = wireLine (other.tokens catalog)) :
    content = other := by
  have htokens : ∀ content : Content,
      content.tokens catalog = content.symbol :: (content.tokens catalog).tail := by
    rintro ⟨⟩
    rfl
  have hwords := congrArg Text.words h
  rw [htokens content, htokens other, words_wireLine_cons _ (hcontent.isWord hcatalog).1,
    words_wireLine_cons _ (hother.isWord hcatalog).1, hsymbol] at hwords
  have htail := List.append_cancel_left hwords
  have hsame : content.tokens catalog ++ [] = other.tokens catalog ++ [] := by
    rw [htokens content, htokens other, hsymbol, htail]
  exact (hcontent.unique hcatalog hother hsame).1

end Content

end LightTree
