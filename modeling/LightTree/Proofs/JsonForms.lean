import LightTree.Proofs.JsonText
import LightTree.Schema.JsonForm

/-!
# Node kinds and declarations are read back from JSON

A record is read through its keys, each of which stands in it once, so that reading it is reading
its values in the order of the keys. By induction along a declaration the reader takes each form
back to the declaration that it is the form of, as deep as the limit on nesting allows.
-/

namespace LightTree

open Json

theorem mapM_map_eq_some {α β : Type} {read : β → Option α} {form : α → β} {items : List α}
    (h : ∀ a ∈ items, read (form a) = some a) : (items.map form).mapM read = some items := by
  induction items with
  | nil => rfl
  | cons a items ih =>
      obtain ⟨hfirst, hrest⟩ := List.forall_mem_cons.1 h
      rw [List.map_cons, List.mapM_cons, hfirst, ih hrest]
      rfl

/-! ## Records -/

namespace Json

variable {key : String} {keys : List String} {value : Json} {values : List Json}
  {before after others : List (Characters × Json)}

/-- The members of a record with the given keys. -/
def zipMembers (keys : List String) (values : List Json) : List (Characters × Json) :=
  (keys.zip values).map fun (key, value) ↦ (some key, value)

theorem record_zip (keys : List String) (values : List Json) :
    record (keys.zip values) = .object (zipMembers keys values) := rfl

theorem ne_of_mem_zipMembers (h : key ∉ keys) {m : Characters × Json}
    (hm : m ∈ zipMembers keys values) : m.1 ≠ some key := by
  obtain ⟨⟨other, value⟩, hmem, rfl⟩ := List.mem_map.1 hm
  rintro ⟨⟩
  exact h (List.of_mem_zip hmem).1

theorem optional_of_once (hbefore : ∀ m ∈ before, m.1 ≠ some key)
    (hafter : ∀ m ∈ after, m.1 ≠ some key) :
    Json.optional key (before ++ (some key, value) :: after) = some (some value) := by
  have hskip : ∀ {members : List (Characters × Json)}, (∀ m ∈ members, m.1 ≠ some key) →
      (members.filter fun m ↦ m.1 == some key) = [] := by
    intro members h
    rw [List.filter_eq_nil_iff]
    exact fun m hm ↦ by simpa using h m hm
  rw [Json.optional, List.filter_append, hskip hbefore, List.nil_append,
    List.filter_cons_of_pos (by simp), hskip hafter]

/-- To read a record by its keys is to read its values. -/
theorem mapM_optional {α : Type} (use : Option (Option Json) → Option α) (hnodup : keys.Nodup)
    (hlength : values.length = keys.length)
    (hothers : ∀ key ∈ keys, ∀ m ∈ others, m.1 ≠ some key) :
    (keys.mapM fun key ↦ use (Json.optional key (others ++ zipMembers keys values))) =
      values.mapM fun value ↦ use (some (some value)) := by
  induction keys generalizing values others with
  | nil =>
      rw [List.length_eq_zero_iff.1 hlength]
      rfl
  | cons key keys ih =>
      obtain ⟨value, values, rfl⟩ := List.exists_cons_of_length_eq_add_one hlength
      obtain ⟨hfresh, hnodup⟩ := List.nodup_cons.1 hnodup
      obtain ⟨hkey, hkeys⟩ := List.forall_mem_cons.1 hothers
      have hvalue : Json.optional key (others ++ zipMembers (key :: keys) (value :: values)) =
          some (some value) :=
        optional_of_once hkey fun m hm ↦ ne_of_mem_zipMembers hfresh hm
      have hmembers : others ++ zipMembers (key :: keys) (value :: values) =
          others ++ [(some key, value)] ++ zipMembers keys values := by
        simp [zipMembers]
      rw [List.mapM_cons, List.mapM_cons, hvalue, hmembers, ih hnodup (Nat.succ.inj hlength)]
      -- The member that has been read stands among the others now.
      intro other hother m hm
      rcases List.mem_append.1 hm with hm | hm
      · exact hkeys other hother m hm
      · obtain rfl := List.mem_singleton.1 hm
        rintro ⟨⟩
        exact hfresh hother

theorem toRecord?_record (least : Nat) (hnodup : keys.Nodup)
    (hlength : values.length = keys.length) :
    (record (keys.zip values)).toRecord? keys least = some (values.map some) := by
  have hkeys : (zipMembers keys values).all (·.1.isSome) = true := by simp [zipMembers]
  have hread : keys.mapM (fun key ↦ id (Json.optional key ([] ++ zipMembers keys values))) = _ :=
    mapM_optional id hnodup hlength nofun
  rw [record_zip, toRecord?, if_pos hkeys]
  exact hread.trans List.mapM_pure

/-! ## Depth -/

theorem nesting_le_nestingElements {json : Json} {elements : List Json} (h : json ∈ elements) :
    json.nesting ≤ nestingElements elements := by
  induction elements with
  | nil => cases h
  | cons element rest ih =>
      rw [nestingElements]
      rcases List.mem_cons.1 h with rfl | h
      · exact Nat.le_max_left _ _
      · exact Nat.le_trans (ih h) (Nat.le_max_right _ _)

theorem nesting_le_nestingMembers {json : Json} {key : Characters}
    {members : List (Characters × Json)} (h : (key, json) ∈ members) :
    json.nesting ≤ nestingMembers members := by
  induction members with
  | nil => cases h
  | cons member rest ih =>
      rw [nestingMembers]
      rcases List.mem_cons.1 h with rfl | h
      · exact Nat.le_max_left _ _
      · exact Nat.le_trans (ih h) (Nat.le_max_right _ _)

theorem nesting_lt_array {json : Json} {elements : List Json} (h : json ∈ elements) :
    json.nesting < (Json.array elements).nesting := by
  rw [nesting]
  exact Nat.lt_succ_of_le (nesting_le_nestingElements h)

theorem nesting_lt_record {json : Json} {key : String} {members : List (String × Json)}
    (h : (key, json) ∈ members) : json.nesting < (record members).nesting := by
  rw [record, nesting]
  exact Nat.lt_succ_of_le (nesting_le_nestingMembers (List.mem_map_of_mem h))

/-! ## Parts without parts of their own -/

@[simp] theorem toText?_text (s : String) : (text s).toText? = some s := rfl

@[simp] theorem toBoolean?_boolean (b : Bool) : (Json.boolean b).toBoolean? = some b := rfl

@[simp] theorem toElements?_array (elements : List Json) :
    (Json.array elements).toElements? = some elements := rfl

@[simp] theorem toInt64?_ofInt (n : Int64) : (ofInt n.toInt).toInt64? = some n := by
  have hbounds : Int64.minValue.toInt ≤ n.toInt ∧ n.toInt ≤ Int64.maxValue.toInt :=
    ⟨n.minValue_le_toInt, n.toInt_le⟩
  rw [toInt64?, toInt?_ofInt, Option.bind_eq_bind, Option.bind_some, if_pos hbounds,
    Int64.ofInt_toInt]

theorem natAbs_toInt_lt (n : Int64) : n.toInt.natAbs < UInt64.size := by
  have hleast : -2 ^ 63 ≤ n.toInt := n.le_toInt
  have hmost : n.toInt < 2 ^ 63 := n.toInt_lt
  have hsize : UInt64.size = 2 ^ 64 := rfl
  omega

theorem toWord?_ofNat {n : Nat} (h : n < UInt64.size) : (ofNat n).toWord? = some n := by
  have hword : 0 ≤ (n : Int) ∧ (n : Int).toNat < UInt64.size := ⟨Int.natCast_nonneg n, h⟩
  rw [toWord?, ofNat, toInt?_ofInt, Option.bind_eq_bind, Option.bind_some, if_pos hword]
  rfl

theorem toOption?_ofNat {α : Type} (decode : Json → Option α) (n : Nat) :
    (ofNat n).toOption? decode = (decode (ofNat n)).map some := rfl

theorem toOption?_ofOption {n : Option Nat} (h : ∀ m ∈ n, m < UInt64.size) :
    (ofOption ofNat n).toOption? toWord? = some n := by
  cases n with
  | none => rfl
  | some m =>
      rw [ofOption, toOption?_ofNat, toWord?_ofNat (h m rfl), Option.map_some]

end Json

@[simp] theorem Choice.ofJson?_toJson (option : Choice) :
    Choice.ofJson? option.toJson = some option := by
  have hnodup : ["name", "value"].Nodup := by decide
  have hform : option.toJson =
      record (["name", "value"].zip [text option.name, text option.value]) := rfl
  rw [Choice.ofJson?, hform, toRecord?_record 2 hnodup rfl]
  rfl

@[simp] theorem Category.ofJson?_toJson (category : Category) :
    Category.ofJson? category.toJson = some category := by
  simp [Category.ofJson?, Category.toJson, Json.text]

@[simp] theorem LengthRule.ofJson?_toJson {rule : LengthRule} (h : rule ≠ .free) :
    LengthRule.ofJson? rule.toJson = some rule := by
  cases rule with
  | free => exact absurd rfl h
  | children => rfl
  | field source => rfl

@[simp] theorem FieldKind.ofJson?_tag (numbered : Bool) (kind : FieldKind) :
    FieldKind.ofJson? numbered (Json.text kind.tag) = some kind :=
  FieldKind.ofTag?_tag kind

/-! ## Declarations -/

namespace FieldDecl

theorem elementsToJson_eq_map (element : List FieldDecl) :
    elementsToJson element = element.map toJson := by
  induction element with
  | nil => rfl
  | cons decl rest ih => rw [elementsToJson, ih, List.map_cons]

/-- The declarations that stand in a declaration. -/
def inside : FieldDecl → List FieldDecl
  | list _ _ element => element
  | gated _ _ _ inner => [inner]
  | _ => []

theorem induction_inside {motive : FieldDecl → Prop}
    (step : ∀ decl : FieldDecl, (∀ inner ∈ decl.inside, motive inner) → motive decl)
    (decl : FieldDecl) : motive decl :=
  @FieldDecl.rec motive (fun decls ↦ ∀ decl ∈ decls, motive decl)
    (fun name initial ↦ step (.scalar name initial) nofun)
    (fun name options ↦ step (.choice name options) nofun)
    (fun name rule element ih ↦ step (.list name rule element) ih)
    (fun name source condition inner ih ↦
      step (.gated name source condition inner) (List.forall_mem_singleton.2 ih))
    nofun (fun _ _ hfirst hrest ↦ List.forall_mem_cons.2 ⟨hfirst, hrest⟩) decl

/-- The forms of the parts of a declaration, in the order of the keys of its kind. -/
def partsToJson : FieldDecl → List Json
  | scalar name initial => [text name, initial.toJson]
  | choice name options => [text name, Json.list Choice.toJson options]
  | list name .free element => [text name, .array (element.map toJson)]
  | list name rule element => [text name, rule.toJson, .array (element.map toJson)]
  | gated name source .present inner => [text name, text source, inner.toJson]
  | gated name source (.equals target) inner =>
    [text name, text source, text target, inner.toJson]

theorem length_partsToJson (decl : FieldDecl) :
    decl.partsToJson.length = decl.kind.keys.length := by
  cases decl with
  | scalar name initial => cases initial <;> rfl
  | choice name options => rfl
  | list name rule element => cases rule <;> rfl
  | gated name source condition inner => cases condition <;> rfl

theorem toJson_eq (decl : FieldDecl) :
    decl.toJson = record (("kind", text decl.kind.tag) :: decl.kind.keys.zip decl.partsToJson) := by
  cases decl with
  | scalar name initial => cases initial <;> rfl
  | choice name options => rfl
  | list name rule element => cases rule <;> simp only [toJson, elementsToJson_eq_map] <;> rfl
  | gated name source condition inner => cases condition <;> rfl

theorem parts?_record (numbered : Bool) (kind : FieldKind) {values : List Json}
    (h : values.length = kind.keys.length) :
    parts? numbered (.record (("kind", .text kind.tag) :: kind.keys.zip values)) =
      some (kind, values) := by
  have hnodup : kind.keys.Nodup ∧ "kind" ∉ kind.keys := by
    cases kind <;> decide
  have htag : ∀ key ∈ kind.keys, ∀ m ∈ [((some "kind" : Characters), text kind.tag)],
      m.1 ≠ some key := by
    intro key hkey m hm
    obtain rfl := List.mem_singleton.1 hm
    rintro ⟨⟩
    exact hnodup.2 hkey
  have hkind : Json.optional "kind" ([] ++ (some "kind", text kind.tag) ::
      zipMembers kind.keys values) = some (some (text kind.tag)) :=
    optional_of_once nofun fun m hm ↦ ne_of_mem_zipMembers hnodup.2 hm
  have hvalues := (mapM_optional (·.join) hnodup.1 h htag).trans List.mapM_pure
  have hrecord : Json.record (("kind", text kind.tag) :: kind.keys.zip values) =
      .object ((some "kind", text kind.tag) :: zipMembers kind.keys values) := rfl
  rw [List.nil_append] at hkind
  rw [List.singleton_append, List.map_id'] at hvalues
  rw [hrecord, parts?, hkind]
  simp [hvalues]

theorem ofJsonWithin?_record {depth : Nat} (numbered : Bool) (kind : FieldKind)
    {values : List Json} (h : values.length = kind.keys.length) :
    ofJsonWithin? (depth + 1) numbered
        (.record (("kind", text kind.tag) :: kind.keys.zip values)) =
      ofParts? (ofJsonWithin? depth true) kind values := by
  rw [ofJsonWithin?, parts?_record numbered kind h]
  rfl

theorem ofParts?_partsToJson {decode : Json → Option FieldDecl} {decl : FieldDecl}
    (h : ∀ inner ∈ decl.inside, decode inner.toJson = some inner) :
    ofParts? decode decl.kind decl.partsToJson = some decl := by
  cases decl with
  | scalar name initial =>
      cases initial <;> simp [kind, Scalar.kind, partsToJson, Scalar.toJson, ofParts?]
  | choice name options =>
      have hoptions : (options.map Choice.toJson).mapM Choice.ofJson? = some options :=
        mapM_map_eq_some fun option _ ↦ Choice.ofJson?_toJson option
      simp [kind, partsToJson, Json.list, ofParts?, hoptions]
  | list name rule element =>
      have helement : (element.map toJson).mapM decode = some element := mapM_map_eq_some h
      cases rule <;> simp [kind, partsToJson, ofParts?, helement]
  | gated name source condition inner =>
      have hinner : decode inner.toJson = some inner := h inner (List.mem_singleton.2 rfl)
      cases condition <;> simp [kind, Condition.kind, partsToJson, ofParts?, hinner]

theorem mem_zip_partsToJson {decl : FieldDecl} {part : Json} (h : part ∈ decl.partsToJson) :
    ∃ key, (key, part) ∈ decl.kind.keys.zip decl.partsToJson := by
  have hsnd := List.map_snd_zip (Nat.le_of_eq decl.length_partsToJson)
  rw [← hsnd] at h
  obtain ⟨⟨key, part⟩, hmem, rfl⟩ := List.mem_map.1 h
  exact ⟨key, hmem⟩

theorem nesting_lt_of_mem_parts {decl : FieldDecl} {part : Json} (h : part ∈ decl.partsToJson) :
    part.nesting < decl.toJson.nesting := by
  obtain ⟨key, hmem⟩ := mem_zip_partsToJson h
  rw [toJson_eq]
  exact nesting_lt_record (List.mem_cons_of_mem _ hmem)

theorem nesting_lt_of_mem_inside {decl inner : FieldDecl} (h : inner ∈ decl.inside) :
    inner.toJson.nesting < decl.toJson.nesting := by
  cases decl with
  | scalar name initial => cases h
  | choice name options => cases h
  | list name rule element =>
      have hpart : Json.array (element.map toJson) ∈ (list name rule element).partsToJson := by
        cases rule <;> simp [partsToJson]
      exact Nat.lt_trans (nesting_lt_array (List.mem_map_of_mem h)) (nesting_lt_of_mem_parts hpart)
  | gated name source condition inner =>
      obtain rfl := List.mem_singleton.1 h
      refine nesting_lt_of_mem_parts ?_
      cases condition <;> simp [partsToJson]

/-- A declaration is read back from its form with a level of recursion for each level of nesting. -/
theorem ofJsonWithin?_toJson {decl : FieldDecl} {depth : Nat} (numbered : Bool)
    (h : decl.toJson.nesting ≤ depth) : ofJsonWithin? depth numbered decl.toJson = some decl := by
  induction decl using induction_inside generalizing depth numbered with
  | step decl ih =>
      have hpos : 0 < decl.toJson.nesting := by
        rw [toJson_eq, record, nesting]
        exact Nat.succ_pos _
      obtain ⟨depth, rfl⟩ := Nat.exists_eq_add_one_of_ne_zero (n := depth) (by omega)
      rw [toJson_eq, ofJsonWithin?_record numbered decl.kind decl.length_partsToJson]
      refine ofParts?_partsToJson fun inner hinner ↦ ih inner hinner true ?_
      have := nesting_lt_of_mem_inside hinner
      omega

theorem isExact_of_mem_parts {decl : FieldDecl} (h : ∀ inner ∈ decl.inside, inner.toJson.IsExact) :
    ∀ part ∈ decl.partsToJson, part.IsExact := by
  have htext : ∀ s, (text s).IsExact := IsExact.text
  cases decl with
  | scalar name initial =>
      have hinitial : initial.toJson.IsExact := by
        cases initial with
        | integer n => exact .integer (natAbs_toInt_lt n)
        | position n => exact .integer (natAbs_toInt_lt n)
        | boolean b => exact .boolean b
        | text s => exact .text s
        | color s => exact .text s
      simp [partsToJson, htext, hinitial]
  | choice name options =>
      have hoptions : (Json.list Choice.toJson options).IsExact := by
        refine .array fun json hjson ↦ ?_
        obtain ⟨option, _, rfl⟩ := List.mem_map.1 hjson
        exact .record (by simp [htext])
      simp [partsToJson, htext, hoptions]
  | list name rule element =>
      have helement : (Json.array (element.map toJson)).IsExact := by
        refine .array fun json hjson ↦ ?_
        obtain ⟨decl, hdecl, rfl⟩ := List.mem_map.1 hjson
        exact h decl hdecl
      have hrule : rule.toJson.IsExact := by
        cases rule with
        | free => exact .null
        | children => exact .text "inner"
        | field source => exact .record (by simp [htext])
      cases rule <;> simp [partsToJson, htext, hrule, helement]
  | gated name source condition inner =>
      have hinner := h inner (List.mem_singleton.2 rfl)
      cases condition <;> simp [partsToJson, htext, hinner]

theorem isExact_toJson (decl : FieldDecl) : decl.toJson.IsExact := by
  induction decl using induction_inside with
  | step decl ih =>
      rw [toJson_eq]
      refine .record (List.forall_mem_cons.2 ⟨.text _, fun member hmember ↦ ?_⟩)
      exact isExact_of_mem_parts ih member.2 (List.of_mem_zip hmember).2

theorem inLimits?_toJson {decl : FieldDecl} {level : Nat}
    (h : decl.toJson.nesting + level ≤ nestingLimit) :
    decl.toJson.inLimits? level = some decl.toJson := by
  rw [inLimits?, if_pos]
  simp [h, decl.isExact_toJson.isProper]

theorem ofJson?_toJson (decl : FieldDecl) : ofJson? decl.toJson = some decl :=
  ofJsonWithin?_toJson false (Nat.le_refl _)

end FieldDecl

/-! ## Node kinds -/

namespace NodeKind

/-- Whether the bounds on the children of a kind fit a word. -/
def FitsWords (kind : NodeKind) : Prop :=
  kind.minChildren < UInt64.size ∧ ∀ most ∈ kind.maxChildren, most < UInt64.size

theorem isExact_toJson {kind : NodeKind} (h : kind.FitsWords) : kind.toJson.IsExact := by
  have htext : ∀ s, (text s).IsExact := IsExact.text
  have hleast : (ofNat kind.minChildren).IsExact := .integer h.1
  have hmost : (ofOption ofNat kind.maxChildren).IsExact := by
    cases hmax : kind.maxChildren with
    | none => exact .null
    | some most => exact .integer (h.2 most hmax)
  have hfields : (Json.list FieldDecl.toJson kind.fields).IsExact := by
    refine .array fun json hjson ↦ ?_
    obtain ⟨decl, _, rfl⟩ := List.mem_map.1 hjson
    exact decl.isExact_toJson
  have hcategory : ∀ category : Category, category.toJson.IsExact := fun _ ↦ .text _
  exact .record (by simp [keys, htext, hcategory, hleast, hmost, hfields])

theorem ofJsonBy?_toJson {field : Json → Option FieldDecl} {kind : NodeKind} (h : kind.FitsWords)
    (hfield : ∀ decl ∈ kind.fields, field decl.toJson = some decl) :
    ofJsonBy? field kind.toJson = some kind := by
  have hnodup : keys.Nodup := by decide
  have hfields : (kind.fields.map FieldDecl.toJson).mapM field = some kind.fields :=
    mapM_map_eq_some hfield
  rw [ofJsonBy?, toJson, toRecord?_record keys.length hnodup rfl]
  simp [toWord?_ofNat h.1, toOption?_ofOption h.2, Json.list, hfields]

theorem fieldInText?_toJson {kind : NodeKind} (h : kind.toJson.nesting ≤ nestingLimit)
    {decl : FieldDecl} (hdecl : decl ∈ kind.fields) : fieldInText? decl.toJson = some decl := by
  have hfields : ("fields", Json.list FieldDecl.toJson kind.fields) ∈ keys.zip [text kind.name,
      text kind.symbol, kind.category.toJson, kind.childCategory.toJson, ofNat kind.minChildren,
      ofOption ofNat kind.maxChildren, Json.list FieldDecl.toJson kind.fields] := by
    simp [keys]
  have hinner : decl.toJson.nesting < (Json.list FieldDecl.toJson kind.fields).nesting :=
    nesting_lt_array (List.mem_map_of_mem hdecl)
  have houter : (Json.list FieldDecl.toJson kind.fields).nesting < kind.toJson.nesting :=
    nesting_lt_record hfields
  rw [fieldInText?, FieldDecl.inLimits?_toJson (by omega), Option.bind_some,
    FieldDecl.ofJson?_toJson]

end NodeKind

/-! ## Texts -/

section

variable {text : String}

theorem FieldDecl.ofText_of_parse? {decl : FieldDecl} (hlimit : decl.toJson.nesting ≤ nestingLimit)
    (hparse : Json.parse? text = some decl.toJson) : FieldDecl.ofText text = .ok decl := by
  rw [FieldDecl.ofText, hparse, Option.bind_some, FieldDecl.inLimits?_toJson hlimit,
    Option.bind_some, FieldDecl.ofJson?_toJson]
  rfl

theorem NodeKind.ofText_of_parse? {kind : NodeKind} (hwords : kind.FitsWords)
    (hlimit : kind.toJson.nesting ≤ nestingLimit)
    (hparse : Json.parse? text = some kind.toJson) : NodeKind.ofText text = .ok kind := by
  rw [NodeKind.ofText, hparse, Option.bind_some,
    NodeKind.ofJsonBy?_toJson hwords fun _ ↦ NodeKind.fieldInText?_toJson hlimit]
  rfl

end

/-- Every kind and every declaration is read back from either layout of its JSON text, if its form
nests no deeper than the reader goes and, for a kind, the bounds on its children fit a word. -/
theorem ofText_toJson :
    (∀ kind : NodeKind, kind.minChildren < UInt64.size →
      (∀ most ∈ kind.maxChildren, most < UInt64.size) → kind.toJson.nesting ≤ nestingLimit →
        NodeKind.ofText kind.toJson.compact = .ok kind ∧
          NodeKind.ofText kind.toJson.pretty = .ok kind) ∧
    ∀ decl : FieldDecl, decl.toJson.nesting ≤ nestingLimit →
      FieldDecl.ofText decl.toJson.compact = .ok decl ∧
        FieldDecl.ofText decl.toJson.pretty = .ok decl := by
  constructor
  · intro kind hleast hmost hlimit
    have hwords : kind.FitsWords := ⟨hleast, hmost⟩
    have hexact := NodeKind.isExact_toJson hwords
    exact ⟨NodeKind.ofText_of_parse? hwords hlimit (parse?_compact hexact),
      NodeKind.ofText_of_parse? hwords hlimit (parse?_pretty hexact)⟩
  · intro decl hlimit
    have hexact := decl.isExact_toJson
    exact ⟨FieldDecl.ofText_of_parse? hlimit (parse?_compact hexact),
      FieldDecl.ofText_of_parse? hlimit (parse?_pretty hexact)⟩

/-- A linked list of gates, the one inside the other, and of lists, with the least integer, a
control character, the escape sign and a character beyond sixteen bits. -/
theorem ofText_toJson_nested :
    let decl : FieldDecl := .list "a\u0001\"" (.field "\\u0041")
      [.gated "é" "b" .present (.gated "" "😀" (.equals "x\n") (.choice "c" [⟨"n", ""⟩, ⟨"", "v"⟩])),
        .list "kind" .children [.scalar "n" (.integer Int64.minValue)],
        .list "" .free [.scalar "\x7b" (.position (-1)), .scalar "s" (.text "\t"),
          .scalar "r" (.color ""), .scalar "t" (.boolean true)]]
    let kind : NodeKind :=
      ⟨"fields", "", .object, .function, 2, some 18446744073709551615, [decl]⟩
    kind.minChildren < UInt64.size ∧ (∀ most ∈ kind.maxChildren, most < UInt64.size) ∧
      kind.toJson.nesting ≤ nestingLimit ∧ decl.toJson.nesting ≤ nestingLimit ∧
      (NodeKind.ofText kind.toJson.compact = .ok kind ∧
        NodeKind.ofText kind.toJson.pretty = .ok kind) ∧
      FieldDecl.ofText decl.toJson.compact = .ok decl ∧
        FieldDecl.ofText decl.toJson.pretty = .ok decl := by
  intro decl kind
  have hleast : kind.minChildren < UInt64.size := by decide
  have hmost : ∀ most ∈ kind.maxChildren, most < UInt64.size := by
    rintro most ⟨⟩
    decide
  have hkind : kind.toJson.nesting ≤ nestingLimit := by decide
  have hdecl : decl.toJson.nesting ≤ nestingLimit := by decide
  exact ⟨hleast, hmost, hkind, hdecl, ofText_toJson.1 kind hleast hmost hkind,
    ofText_toJson.2 decl hdecl⟩

end LightTree
