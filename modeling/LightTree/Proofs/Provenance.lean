import LightTree.Proofs.Charter
import LightTree.Proofs.Decoding
import LightTree.Proofs.Reachable

/-!
# Where stored values come from

A text or a colour enters a tree through a change, which lets only safe ones in, or with a
declaration, which is taken as it is. So after any history whatever is stored is one token on the
wire, or it is the first value of a field that some kind declares.
-/

namespace LightTree

open Edit

/-! ## Safe values -/

/-- A text without a blank and a colour of six hexadecimal digits are safe on the wire, and so is
every scalar of another kind. -/
def Scalar.isSafe : Scalar → Bool
  | text s => !Text.hasBlank s
  | s => s.isValid

/-- A safe value does not fall into several tokens. -/
theorem Scalar.hasBlank_token {s : Scalar} (h : s.isSafe = true) :
    Text.hasBlank s.token = false := by
  have hword : ∀ {text : String}, Text.isWord text = true → Text.hasBlank text = false := by
    intro text hw
    simpa using (Bool.and_eq_true_iff.1 hw).2
  cases s with
  | integer n =>
      exact hword (@isWord_token (.integer n) _ (Text.isWord_toString_int _) rfl (.inr h))
  | position n =>
      exact hword (@isWord_token (.position n) _ (Text.isWord_toString_int _) rfl (.inr h))
  | boolean b => cases b <;> decide
  | text t => exact Bool.not_eq_true' _ ▸ h
  | color c => exact hword (@isWord_token (.color "000000") _ (by decide) rfl (.inr h))

/-! ## First values -/

namespace FieldDecl

mutual

/-- The first values of the scalars that are built from a declaration, those in elements of lists
included. -/
def initials : FieldDecl → List Scalar
  | scalar _ initial => [initial]
  | choice .. => []
  | list _ _ element => groupInitials element
  | gated _ _ _ inner => initials inner

def groupInitials : List FieldDecl → List Scalar
  | [] => []
  | decl :: rest => initials decl ++ groupInitials rest

end

theorem mem_groupInitials {s : Scalar} {decl : FieldDecl} {group : List FieldDecl}
    (hdecl : decl ∈ group) (hs : s ∈ decl.initials) : s ∈ groupInitials group := by
  induction group with
  | nil => cases hdecl
  | cons first rest ih =>
      rw [groupInitials, List.mem_append]
      rcases List.mem_cons.1 hdecl with rfl | hrest
      · exact .inl hs
      · exact .inr (ih hrest)

end FieldDecl

def NodeKind.initials (kind : NodeKind) : List Scalar :=
  FieldDecl.groupInitials kind.fields

/-- The scalars that a value holds and those that elements of a list start with. -/
def Value.scalars : Value → List Scalar
  | scalar s => [s]
  | list _ template _ => FieldDecl.groupInitials template
  | _ => []

/-- Under this charter every scalar is one of `known`. -/
def custody (known : Scalar → Prop) : Charter where
  declared _ decl := ∀ s ∈ decl.initials, known s
  stored _ value := ∀ s ∈ value.scalars, known s

variable {known : Scalar → Prop}

theorem lawful_custody : (custody known).Lawful where
  scalar _ _ _ h := h
  choice _ _ _ _ := nofun
  list _ _ _ _ h := h
  gate _ _ _ _ _ _ _ := nofun
  inner _ _ _ _ _ h := h
  template _ _ _ _ h _ hdecl s hs := h s (FieldDecl.mem_groupInitials hdecl hs)
  mapElements _ value _ h := by cases value <;> exact h

theorem admits_custody {kind : NodeKind} (h : ∀ s ∈ kind.initials, known s) :
    (custody known).Admits kind :=
  fun _ _ hdecl s hs ↦ h s (FieldDecl.mem_groupInitials hdecl hs)

/-! ## Changes -/

section

variable (hsafe : ∀ s : Scalar, s.isSafe = true → known s)

include hsafe

theorem stored_scalar_of_isSafe {owner : NodeId} {s : Scalar} (h : s.isSafe = true) :
    (custody known).stored owner (.scalar s) := by
  intro t ht
  rw [List.mem_singleton.1 ht]
  exact hsafe s h

theorem permits_setInteger (n : Int64) : (custody known).Permits (·.setInteger n) where
  leafy := leafy_setInteger n
  stored field value h _ := by
    simp only [Field.setInteger] at h
    split at h
    · cases h
      exact stored_scalar_of_isSafe hsafe rfl
    · cases h
      exact stored_scalar_of_isSafe hsafe rfl
    · cases h

theorem permits_setBoolean (b : Bool) : (custody known).Permits (·.setBoolean b) where
  leafy := leafy_setBoolean b
  stored field value h _ := by
    simp only [Field.setBoolean] at h
    split at h
    · cases h
      exact stored_scalar_of_isSafe hsafe rfl
    · cases h

omit hsafe in
theorem permits_choose (option : String) : (custody known).Permits (·.choose option) where
  leafy := leafy_choose option
  stored field value h _ := by
    simp only [Field.choose] at h
    split at h
    · split at h
      · cases h
        exact fun _ hs ↦ absurd hs List.not_mem_nil
      · cases h
    · cases h

/-- A text is stored after a check that it holds no blank. -/
theorem permits_setText (text : String) : (custody known).Permits (·.setText text) where
  leafy := leafy_setText text
  stored field value h _ := by
    simp only [Field.setText] at h
    split at h
    · cases h
    · next hblank =>
        split at h
        · cases h
          exact stored_scalar_of_isSafe hsafe (by simpa [Scalar.isSafe] using hblank)
        · cases h

/-- A colour is stored as the six digits that it was read as. -/
theorem permits_setColor (text : String) : (custody known).Permits (·.setColor text) where
  leafy := leafy_setColor text
  stored field value h _ := by
    simp only [Field.setColor] at h
    split at h
    · split at h
      · next hdigits =>
          cases h
          exact stored_scalar_of_isSafe hsafe (isValid_color?_eq_some hdigits)
      · cases h
    · cases h

end

namespace Tree

variable {tree : Tree}

section

variable (hsafe : ∀ s : Scalar, s.isSafe = true → known s)

include hsafe

/-- No operation stores a scalar that is neither safe nor declared. -/
theorem Chartered.perform (h : tree.Chartered (custody known)) (operation : Operation)
    (hcreate : ∀ kind, operation = .create kind → ∀ s ∈ kind.initials, known s) :
    (tree.perform operation).2.Chartered (custody known) := by
  have hc := @lawful_custody known
  have hanswer : ∀ {α : Type} {edit : Edit α} (answer : α → Answer), edit.KeepsTo (custody known) →
      (edit >>= fun a ↦ pure (answer a) : Edit Answer).KeepsTo (custody known) :=
    fun answer hedit tree h ↦ (meets_bind ..).2 (hedit tree h)
  have hedit : operation.edit.KeepsTo (custody known) := by
    cases operation with
    | create kind => exact hanswer .created (hc.create (admits_custody (hcreate kind rfl)))
    | addChild parent child => exact hanswer .outcome (hc.addChild parent child)
    | addByCategory parent category => exact hanswer .outcome (hc.addByCategory parent category)
    | removeChild parent child => exact hanswer .outcome (hc.removeChild parent child)
    | detach id => exact hanswer .outcome (hc.detach id)
    | retype id symbol => exact hanswer .outcome (hc.retype id symbol)
    | setInteger id n => exact hanswer (fun _ ↦ .done) (hc.mutate id (permits_setInteger hsafe n))
    | setBoolean id b => exact hanswer (fun _ ↦ .done) (hc.mutate id (permits_setBoolean hsafe b))
    | choose id value => exact hanswer (fun _ ↦ .done) (hc.mutate id (permits_choose value))
    | setText id text => exact hanswer (fun _ ↦ .done) (hc.mutate id (permits_setText hsafe text))
    | setColor id text => exact hanswer (fun _ ↦ .done) (hc.mutate id (permits_setColor hsafe text))
    | appendElement id => exact hanswer .element (hc.appendElement id)
    | removeElement id index => exact hanswer .outcome (hc.removeElement id index)
    | rebind dependent source => exact hanswer (fun _ ↦ .done) (hc.rebind dependent source)
  exact meets_const_iff.1 (hedit tree h)

theorem Chartered.run (h : tree.Chartered (custody known)) {operations : List Operation}
    (hcreate : ∀ kind, .create kind ∈ operations → ∀ s ∈ kind.initials, known s) :
    (tree.run operations).2.Chartered (custody known) := by
  induction operations generalizing tree with
  | nil => exact h
  | cons operation rest ih =>
      refine ih (h.perform hsafe operation fun kind hk ↦ ?_) fun kind hk ↦ ?_
      · exact hcreate kind (hk ▸ List.mem_cons_self)
      · exact hcreate kind (List.mem_cons_of_mem _ hk)

end

theorem chartered_start {catalog : Catalog} {settings : Settings}
    (hkinds : ∀ kind ∈ catalog.kinds, ∀ s ∈ kind.initials, known s)
    (h : start catalog settings = .ok tree) : tree.Chartered (custody known) := by
  refine @of_start catalog settings tree (·.Chartered (custody known)) ?_ h
  have hadmits : ∀ kind ∈ catalog.kinds, (custody known).Admits kind := fun kind hk ↦
    admits_custody (hkinds kind hk)
  have hempty : ({ catalog, settings } : Tree).Chartered (custody known) := by
    refine ⟨fun id field hf ↦ ?_, hadmits⟩
    rw [field?_empty] at hf
    cases hf
  have hroot : (({ catalog, settings } : Tree).insertNode { kind := catalog.root }).Chartered
      (custody known) := hempty.of_nodes rfl rfl
  have hc := @lawful_custody known
  exact (hc.build (fun _ ↦ hc.create) ⟨0⟩ (hadmits _ catalog.root_mem) _ hroot).imp
    (fun _ _ ha ↦ ha) fun _ _ _ ↦ trivial

/-- After any history, with any faults and rebinds in it, a scalar that is stored is safe and one
token at most, unless it is a first value that a kind of the catalog or one that was asked for
declares. -/
theorem provenance_run {catalog : Catalog} {settings : Settings} {tree : Tree}
    {operations : List Operation} (hstart : start catalog settings = .ok tree) {final : Tree}
    (hfinal : (tree.run operations).2 = final) {id : FieldId} {field : Field} {s : Scalar}
    (hf : final.field? id = some field) (hs : field.value = .scalar s) :
    s.isSafe = true ∧ Text.hasBlank s.token = false ∨
      ∃ kind, (kind ∈ catalog.kinds ∨ .create kind ∈ operations) ∧ s ∈ kind.initials := by
  let known : Scalar → Prop := fun s ↦ s.isSafe = true ∨
    ∃ kind, (kind ∈ catalog.kinds ∨ .create kind ∈ operations) ∧ s ∈ kind.initials
  have hsafe : ∀ s : Scalar, s.isSafe = true → known s := fun _ ↦ .inl
  have hfirst : tree.Chartered (custody known) :=
    chartered_start (fun kind hk s hs ↦ .inr ⟨kind, .inl hk, hs⟩) hstart
  have hlast : final.Chartered (custody known) :=
    hfinal ▸ hfirst.run hsafe fun kind hk s hs ↦ .inr ⟨kind, .inr hk, hs⟩
  have hmem : s ∈ field.value.scalars := hs ▸ List.mem_singleton_self s
  rcases hlast.obeys id field hf s hmem with h | h
  · exact .inl ⟨h, Scalar.hasBlank_token h⟩
  · exact .inr h

/-- A colour of an object of the standard catalog is stored without the number sign before it. -/
theorem provenance_run_standard :
    let final := (standardTree.run [.addByCategory ⟨0⟩ .object, .choose ⟨2⟩ "c", .appendElement ⟨6⟩,
      .setColor ⟨7⟩ "#12aBcD"]).2
    final.read Field.value (.choice [] 0) ⟨7⟩ = .scalar (.color "12aBcD") ∧
      ((Scalar.color "12aBcD").isSafe = true ∧ Text.hasBlank (Scalar.color "12aBcD").token = false ∨
        ∃ kind, (kind ∈ Catalog.standard.kinds ∨
          .create kind ∈ [Operation.addByCategory ⟨0⟩ .object, .choose ⟨2⟩ "c",
            .appendElement ⟨6⟩, .setColor ⟨7⟩ "#12aBcD"]) ∧
          .color "12aBcD" ∈ kind.initials) := by
  intro final
  have hvalue : final.read Field.value (.choice [] 0) ⟨7⟩ = .scalar (.color "12aBcD") := by
    decide +kernel
  have hlive : final.Live ⟨7⟩ := by
    decide +kernel
  obtain ⟨field, hf⟩ := live_iff.1 hlive
  have hs : field.value = .scalar (.color "12aBcD") := (read_of_some hf _ _).symm.trans hvalue
  exact ⟨hvalue, provenance_run start_standard rfl hf hs⟩

/-- A kind whose text starts with a blank in it and whose colour starts with a word. -/
def spacedKind : NodeKind :=
  loneKind [.scalar "note" (.text "a b"), .scalar "shade" (.color "red")]

/-- No check of a kind looks at first values, so the tree of such a kind is built. Its two fields
fall into three tokens, none of which is a colour. A change to the same text is refused. -/
theorem unsafe_initials_stored :
    let tree := loneTree spacedKind rfl
    start ⟨[spacedKind], rfl⟩ {} = .ok tree ∧
      tree.read Field.value (.choice [] 0) ⟨0⟩ = .scalar (.text "a b") ∧
      Text.hasBlank "a b" = true ∧
      tree.read Field.value (.choice [] 0) ⟨1⟩ = .scalar (.color "red") ∧
      (Scalar.color "red").isSafe = false ∧
      tree.nodeLine ⟨0⟩ = "a b red" ∧
      (tree.perform (.setText ⟨0⟩ "a b")).1 = .error (.blankInText "note" "a b") := by
  intro tree
  refine ⟨rfl, ?_, ?_, ?_, ?_, ?_, ?_⟩
  · decide +kernel
  · decide +kernel
  · decide +kernel
  · decide +kernel
  · decide +kernel
  · decide +kernel

end Tree

end LightTree
