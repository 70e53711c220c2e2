import LightTree.Proofs.Annex
import LightTree.Proofs.Wiring

/-!
# Fields keep the form they were declared with

A declaration says which values a field may have: scalars of one kind, the options of a choice, what
the elements of a list are built from, the condition of a gate. A field that has been built from a
declaration has such a value, and so has the field inside it. No operation changes this, since a
change of a value keeps its kind.
-/

namespace LightTree

open Edit

/-- A colour that was set is six hexadecimal digits. -/
def Scalar.isValid : Scalar → Bool
  | color s => s.toList.length == 6 && s.toList.all Text.isHexDigit
  | _ => true

/-- The values that a field may have once it has been built from a declaration. -/
def FieldDecl.Admits : FieldDecl → Value → Prop
  | scalar _ initial, .scalar s => s.kind = initial.kind ∧ (s = initial ∨ s.isValid = true)
  | choice _ options, .choice options' chosen => options' = options ∧ chosen < options.length
  | list _ rule element, .list linked template _ => linked = (rule != .free) ∧ template = element
  | gated _ _ condition _, .gated condition' _ => condition' = condition
  | _, _ => False

theorem FieldDecl.admits_mapElements {decl : FieldDecl} {value : Value}
    (f : List (List FieldId) → List (List FieldId)) :
    decl.Admits (value.mapElements f) ↔ decl.Admits value := by
  cases value <;> cases decl <;> rfl

theorem FieldDecl.admits_scalar {decl : FieldDecl} {value : Value} {old new : Scalar}
    (h : decl.Admits value) (hold : value = .scalar old) (hkind : new.kind = old.kind)
    (hvalid : new.isValid = true) : decl.Admits (.scalar new) := by
  subst hold
  cases decl with
  | scalar name initial => exact ⟨hkind.trans h.1, .inr hvalid⟩
  | choice | list | gated => exact h.elim

theorem isValid_color?_eq_some {text digits : String} (h : color? text = some digits) :
    (Scalar.color digits).isValid = true := by
  simp only [color?, Option.ite_none_right_eq_some, Option.some.injEq] at h
  obtain ⟨⟨hlength, hhex⟩, rfl⟩ := h
  simp [Scalar.isValid, hlength, hhex]

/-- A change that a field may go through whatever it was declared as. -/
structure Faithful (change : Field → Except Fault Value) : Prop where
  leafy : Leafy change
  admits : ∀ field value, change field = .ok value → ∀ decl : FieldDecl,
    decl.Admits field.value → decl.Admits value

theorem faithful_setInteger (n : Int64) : Faithful (·.setInteger n) where
  leafy := leafy_setInteger n
  admits field value h decl hd := by
    simp only [Field.setInteger] at h
    split at h
    · next hv =>
        cases h
        exact FieldDecl.admits_scalar hd hv rfl rfl
    · next hv =>
        cases h
        exact FieldDecl.admits_scalar hd hv rfl rfl
    · cases h

theorem faithful_setBoolean (b : Bool) : Faithful (·.setBoolean b) where
  leafy := leafy_setBoolean b
  admits field value h decl hd := by
    simp only [Field.setBoolean] at h
    split at h
    · next hv =>
        cases h
        exact FieldDecl.admits_scalar hd hv rfl rfl
    · cases h

theorem faithful_choose (option : String) : Faithful (·.choose option) where
  leafy := leafy_choose option
  admits field value h decl hd := by
    simp only [Field.choose] at h
    split at h
    · next hv =>
        split at h
        · next chosen hc =>
            cases h
            rw [hv] at hd
            cases decl with
            | choice name declared =>
                obtain ⟨rfl, _⟩ := hd
                exact ⟨rfl, (List.findIdx?_eq_some_iff_getElem.1 hc).1⟩
            | scalar | list | gated => exact hd.elim
        · cases h
    · cases h

theorem faithful_setText (text : String) : Faithful (·.setText text) where
  leafy := leafy_setText text
  admits field value h decl hd := by
    simp only [Field.setText] at h
    split at h
    · cases h
    · split at h
      · next hv =>
          cases h
          exact FieldDecl.admits_scalar hd hv rfl rfl
      · cases h

theorem faithful_setColor (text : String) : Faithful (·.setColor text) where
  leafy := leafy_setColor text
  admits field value h decl hd := by
    simp only [Field.setColor] at h
    split at h
    · next hv =>
        split at h
        · next digits hdigits =>
            cases h
            exact FieldDecl.admits_scalar hd hv rfl (isValid_color?_eq_some hdigits)
        · cases h
    · cases h

/-! ## Fields -/

/-- The second field may stand for the first one whatever that was declared as. -/
structure Field.Succeeds (old new : Field) : Prop where
  name : new.name = old.name
  inner : new.value.inner? = old.value.inner?
  admits : ∀ decl : FieldDecl, decl.Admits old.value → decl.Admits new.value

namespace Field

variable {old mid new : Field}

theorem Succeeds.refl (field : Field) : field.Succeeds field :=
  ⟨rfl, rfl, fun _ h ↦ h⟩

theorem Succeeds.trans (h : old.Succeeds mid) (h' : mid.Succeeds new) : old.Succeeds new :=
  ⟨h'.name.trans h.name, h'.inner.trans h.inner, fun decl hd ↦ h'.admits decl (h.admits decl hd)⟩

theorem Succeeds.of_value (hname : new.name = old.name) (hvalue : new.value = old.value) :
    old.Succeeds new :=
  ⟨hname, congrArg _ hvalue, fun _ hd ↦ hvalue ▸ hd⟩

theorem Becomes.succeeds (h : old.Becomes new) : old.Succeeds new := by
  obtain ⟨f, hf⟩ := h
  have hvalue : new.value = old.value.mapElements f := by rw [hf]
  constructor
  · rw [hf]
  · rw [hvalue]
    cases old.value <;> rfl
  · intro decl hd
    rw [hvalue]
    exact (FieldDecl.admits_mapElements f).2 hd

end Field

namespace Tree

variable {tree after last : Tree} {id : FieldId}

/-- What is left alive of the fields that were there before is linked as before and may stand for
what it was. -/
structure Endures (tree after : Tree) : Prop extends tree.KeepsWires after where
  succeeds : ∀ id old new, tree.field? id = some old → after.field? id = some new →
    old.Succeeds new

namespace Endures

theorem refl (tree : Tree) : tree.Endures tree where
  toKeepsWires := .refl tree
  succeeds id old new ho hn := by
    cases ho.symm.trans hn
    exact .refl old

theorem trans (h : tree.Endures after) (h' : after.Endures last) : tree.Endures last where
  toKeepsWires := h.toKeepsWires.trans h'.toKeepsWires
  succeeds id old new ho hn := by
    have hold := (live_of_some ho).lt_size
    obtain ⟨mid, hm⟩ := live_iff.1
      (h'.field id (Nat.lt_of_lt_of_le hold h.fields_size) (live_of_some hn)).1
    exact (h.succeeds id old mid ho hm).trans (h'.succeeds id mid new hm hn)

/-- A change that keeps all fields but for their values and listeners. -/
theorem of_field (hsize : tree.fields.size ≤ after.fields.size)
    (hfield : ∀ id new, id.index < tree.fields.size → after.field? id = some new →
      ∃ old, tree.field? id = some old ∧ old.Succeeds new ∧ new.link = old.link) :
    tree.Endures after where
  fields_size := hsize
  field id hid hl := by
    obtain ⟨new, hn⟩ := live_iff.1 hl
    obtain ⟨old, ho, hs, hlink⟩ := hfield id new hid hn
    rw [inner?_eq_read, inner?_eq_read, link?, link?, read_of_some ho, read_of_some hn,
      read_of_some ho, read_of_some hn]
    exact ⟨live_of_some ho, hlink, hs.inner⟩
  succeeds id old new ho hn := by
    obtain ⟨old', ho', hs, _⟩ := hfield id new (live_of_some ho).lt_size hn
    cases ho.symm.trans ho'
    exact hs

theorem of_field? (hfields : after.field? = tree.field?)
    (hsize : after.fields.size = tree.fields.size) : tree.Endures after := by
  refine of_field hsize.ge fun id new _ hn ↦ ⟨new, ?_, .refl new, rfl⟩
  rwa [← hfields]

theorem of_framed {region : Region} (h : region.Framed tree after)
    (hbase : region.base = tree.fields.size) : tree.Endures after := by
  refine of_field h.fields_size fun id new hid hn ↦ ?_
  obtain ⟨old, ho, hbecomes, _⟩ := h.field id new (hbase ▸ hid) hn
  refine ⟨old, ho, hbecomes.succeeds, ?_⟩
  obtain ⟨f, hf⟩ := hbecomes
  rw [hf]

theorem of_leads (h : tree.Sound) (hl : tree.whole.Leads tree after) : tree.Endures after :=
  of_framed (hl.framed h.governs) rfl

theorem of_shrinks (h : tree.Shrinks after) : tree.Endures after := by
  refine of_field h.fields_size.ge fun id new _ hn ↦ ?_
  obtain ⟨old, ho, hnew, _⟩ := h.field id new hn
  refine ⟨old, ho, .of_value ?_ ?_, ?_⟩ <;> rw [hnew]

theorem updateField {f : Field → Field}
    (hf : ∀ field, tree.field? id = some field → field.Succeeds (f field))
    (hlink : ∀ field, (f field).link = field.link) : tree.Endures (tree.updateField id f) := by
  refine of_field (size_updateField tree id f).ge fun x new _ hn ↦ ?_
  rw [field?_updateField] at hn
  split at hn
  · next heq =>
      subst heq
      obtain ⟨old, ho, rfl⟩ := Option.map_eq_some_iff.1 hn
      exact ⟨old, ho, hf old ho, hlink old⟩
  · exact ⟨new, hn, .refl new, rfl⟩

theorem push (tree : Tree) (id : FieldId) (group : List FieldId) :
    tree.Endures (tree.push id group) :=
  updateField (fun field _ ↦ (Region.becomes_mapElements _ field).succeeds) fun _ ↦ rfl

theorem drop (tree : Tree) (id : FieldId) (f : List (List FieldId) → List (List FieldId))
    (group : List FieldId) : tree.Endures (tree.drop id f group) :=
  (updateField (fun field _ ↦ (Region.becomes_mapElements f field).succeeds) fun _ ↦ rfl).trans
    (of_shrinks (releaseFields_shrinks _ group))

theorem insertField (tree : Tree) (field : Field) : tree.Endures (tree.insertField field) := by
  refine of_field (Nat.le_of_lt (by simp)) fun x new hx hn ↦ ?_
  rw [field?_insertField_of_ne tree field (ne_nextField_of_lt_size hx)] at hn
  exact ⟨new, hn, .refl new, rfl⟩

/-- Moving the link of a field changes neither names nor values. -/
theorem succeeds_relink {dependent x : FieldId} {source : Option Source} {old new : Field}
    (ho : tree.field? x = some old) (hn : (tree.relink dependent source).field? x = some new) :
    old.Succeeds new := by
  have hstate : (tree.relink dependent source).read (fun field ↦ (field.name, field.value))
      (new.name, new.value) x = tree.read _ (new.name, new.value) x :=
    congrFun (read_relink dependent source (fun _ _ _ ↦ rfl) _) x
  rw [read_of_some hn, read_of_some ho, Prod.mk.injEq] at hstate
  exact .of_value hstate.1 hstate.2

theorem insertLinked (tree : Tree) (field : Field) (source : Option Source) :
    tree.Endures ((tree.insertField field).relink tree.nextField source) where
  toKeepsWires := .insertLinked tree field source
  succeeds x old new ho hn := by
    have hne := ne_nextField_of_lt_size (live_of_some ho).lt_size
    have ho' : (tree.insertField field).field? x = some old := by
      rwa [field?_insertField_of_ne tree field hne]
    exact succeeds_relink ho' hn

/-- A value may be replaced by one that every declaration of it admits as well. -/
theorem setValue {field : Field} {value : Value} (hf : tree.field? id = some field)
    (hinner : value.inner? = field.value.inner?)
    (hadmits : ∀ decl : FieldDecl, decl.Admits field.value → decl.Admits value) :
    tree.Endures (tree.updateField id ({ · with value })) := by
  refine updateField (fun old ho ↦ ?_) fun _ ↦ rfl
  cases hf.symm.trans ho
  exact ⟨rfl, hinner, hadmits⟩

theorem name? (h : tree.Endures after) (hid : tree.Live id) (hl : after.Live id) :
    after.name? id = tree.name? id := by
  obtain ⟨old, ho⟩ := live_iff.1 hid
  obtain ⟨new, hn⟩ := live_iff.1 hl
  rw [name?_of_some ho, name?_of_some hn, (h.succeeds id old new ho hn).name]

end Endures

/-! ## Built fields -/

/-- A field has the name and a value of a declaration. -/
def Bears (tree : Tree) (decl : FieldDecl) (id : FieldId) : Prop :=
  ∃ field, tree.field? id = some field ∧ field.name = decl.name ∧ decl.Admits field.value

/-- A field bears a declaration, and what it wraps bears the declaration inside. -/
def Formed (tree : Tree) : FieldDecl → FieldId → Prop
  | .gated name source condition inner, id => tree.Bears (.gated name source condition inner) id ∧
    ∃ x, tree.inner? id = some x ∧ tree.Formed inner x
  | decl, id => tree.Bears decl id

theorem Bears.live {decl : FieldDecl} (h : tree.Bears decl id) : tree.Live id := by
  obtain ⟨_, hf, _⟩ := h
  exact live_of_some hf

theorem Bears.name? {decl : FieldDecl} (h : tree.Bears decl id) :
    tree.name? id = some decl.name := by
  obtain ⟨_, hf, hname, _⟩ := h
  rw [name?_of_some hf, hname]

theorem Bears.of_endures {decl : FieldDecl} (h : tree.Bears decl id) (he : tree.Endures after)
    (hl : after.Live id) : after.Bears decl id := by
  obtain ⟨old, ho, hname, hadmits⟩ := h
  obtain ⟨new, hn⟩ := live_iff.1 hl
  have hs := he.succeeds id old new ho hn
  exact ⟨new, hn, hs.name.trans hname, hs.admits decl hadmits⟩

theorem Bears.of_succeeds {decl : FieldDecl} {owner : NodeId} {container : Option FieldId}
    {value : Value} (hadmits : decl.Admits value) (hl : tree.Live id)
    (hs : ∀ new, tree.field? id = some new →
      ({ name := decl.name, owner, value, container } : Field).Succeeds new) :
    tree.Bears decl id := by
  obtain ⟨new, hn⟩ := live_iff.1 hl
  exact ⟨new, hn, (hs new hn).name, (hs new hn).admits decl hadmits⟩

theorem Formed.bears {decl : FieldDecl} (h : tree.Formed decl id) : tree.Bears decl id := by
  cases decl with
  | scalar | choice | list => exact h
  | gated => exact h.1

/-- What a field wraps stays with it, so the fields inside stay formed as well. -/
theorem Formed.of_endures (he : tree.Endures after) (ha : after.Owned) :
    ∀ {decl : FieldDecl} {id : FieldId}, tree.Formed decl id → after.Live id →
      after.Formed decl id
  | .scalar .., _, h, hl => Bears.of_endures h he hl
  | .choice .., _, h, hl => Bears.of_endures h he hl
  | .list .., _, h, hl => Bears.of_endures h he hl
  | .gated .., id, ⟨hb, x, hx, hf⟩, hl => by
    have hx' : after.inner? id = some x := (he.field id hb.live.lt_size hl).2.2.trans hx
    exact ⟨hb.of_endures he hl, x, hx', hf.of_endures he ha (ha.inner?_live hx')⟩

end Tree

namespace Confined

open LightTree.Tree

variable {tree : Tree} {visit : FieldId → Edit Unit} {owner : NodeId} {container : Option FieldId}

/-- A new field has the value that it was built with, or what has become of it. -/
theorem plant_endures (hv : Confined visit) (h : tree.Sound)
    (hhost : tree.whole.Hosts tree owner container) (group : List FieldId) (decl : FieldDecl)
    (value : Value) (hnodup : value.parts.Nodup) (hparts : ∀ c ∈ value.parts, tree.Loose c) :
    (LightTree.plant visit owner group container decl value).Meets tree
      (fun id after ↦ tree.Endures after ∧ ∀ new, after.field? id = some new →
        ({ name := decl.name, owner, value, container } : Field).Succeeds new)
      fun _ _ ↦ True := by
  rw [meets_plant]
  set field : Field := { name := decl.name, owner, value, container }
  have hs : (tree.insertField field).Sound := h.insertField rfl rfl
    (fun c hc ↦ (hhost.container c hc).2) hhost.owner hnodup hparts
  have hnew : (tree.insertField field).Live tree.nextField :=
    (live_insertField tree field _).2 (.inl rfl)
  have hself := tree.field?_insertField_self field
  refine (meets_resolve owner group decl).imp ?_ fun _ _ _ ↦ trivial
  rintro source _ ⟨rfl, hsource⟩
  constructor
  · intro _
    refine ⟨.insertField tree field, fun new hn ↦ ?_⟩
    cases hself.symm.trans hn
    exact .refl field
  · intro s hss
    rw [meets_rebindWith]
    refine ⟨fun _ _ ↦ ⟨fun _ ↦ trivial, fun hc ↦ ⟨fun _ _ ↦ trivial, fun _ ↦ ?_⟩⟩, fun _ ↦ trivial⟩
    have hissued : (tree.insertField field).Issued s := by
      rcases hsource s hss with rfl | ⟨_, id, _, rfl, hfirst⟩
      · exact hhost.owner
      · exact (live_of_firstNamed?_eq_some hfirst).lt_size
    have hlinked := hs.relink_of_not_closesCycle hnew hissued hc
    refine (hv _ _ tree.nextField hlinked.governs trivial).imp (fun _ after hlead ↦ ?_) ?_
    · have hafter := Endures.of_leads hlinked hlead
      refine ⟨(Endures.insertLinked tree field s).trans hafter, fun new hn ↦ ?_⟩
      obtain ⟨mid, hm⟩ := live_iff.1 ((live_relink tree.nextField (some s) _).2 hnew)
      exact (Endures.succeeds_relink hself hm).trans (hafter.succeeds _ mid new hm hn)
    · intro fault after _
      rw [meets_relink]
      exact ⟨fun _ ↦ trivial, fun _ ↦ trivial⟩

/-- The field of a declaration is formed by it. -/
theorem instantiate_formed (hv : Confined visit) (h : tree.Sound)
    (hhost : tree.whole.Hosts tree owner container) (group : List FieldId) (decl : FieldDecl) :
    (LightTree.instantiate visit owner group container decl).Meets tree
      (fun id after ↦ after.Formed decl id) fun _ _ ↦ True := by
  have hbuilds : ∀ decl : FieldDecl,
      (LightTree.instantiate visit owner group container decl).Builds tree.whole tree :=
    hv.instantiate h.governs hhost fun _ _ ↦ trivial
  have hlive : ∀ decl : FieldDecl, (LightTree.instantiate visit owner group container decl).Meets
      tree (fun id after ↦ after.Live id → after.Owned → after.Formed decl id)
      (fun _ _ ↦ True) → (LightTree.instantiate visit owner group container decl).Meets tree
      (fun id after ↦ after.Formed decl id) fun _ _ ↦ True :=
    fun decl hformed ↦ ((hbuilds decl).and hformed).imp
      (fun _ _ hb ↦ hb.2 hb.1.2.1.live (h.of_leads hb.1.1).owned) fun _ _ _ ↦ trivial
  -- A field that wraps nothing bears what its first value is admitted by.
  have hplant : ∀ (decl : FieldDecl) (value : Value), value.parts = [] → decl.Admits value →
      (LightTree.plant visit owner group container decl value).Meets tree
        (fun id after ↦ after.Live id → after.Owned → after.Bears decl id) fun _ _ ↦ True := by
    intro decl value hparts hadmits
    refine (hv.plant_endures h hhost group decl value (hparts ▸ List.nodup_nil) ?_).imp ?_
      fun _ _ _ ↦ trivial
    · exact fun c hc ↦ absurd (hparts ▸ hc) List.not_mem_nil
    · rintro id after ⟨-, hsucceeds⟩ hl _
      exact .of_succeeds hadmits hl hsucceeds
  induction decl using FieldDecl.template?.induct with
  | case1 name rule element =>
      exact hlive (.list name rule element)
        (hplant (.list name rule element) (.list (rule != .free) element []) rfl ⟨rfl, rfl⟩)
  | case2 name source condition inner ih =>
      apply hlive
      rw [meets_instantiate_gated]
      apply ((hbuilds inner).and ih).imp ?_ fun _ _ _ ↦ trivial
      rintro x mid ⟨⟨hlead, hx, _⟩, hinner⟩
      have hmid := h.of_leads hlead
      apply (hv.plant_endures hmid (h.hosts_of_leads hhost hlead) group
        (.gated name source condition inner) (.gated condition x) (List.nodup_singleton x)
        fun c hc ↦ List.mem_singleton.1 hc ▸ hx).imp ?_ fun _ _ _ ↦ trivial
      rintro gate after ⟨hendures, hsucceeds⟩ hl ha
      obtain ⟨new, hn⟩ := live_iff.1 hl
      have hwraps : after.inner? gate = some x := by
        rw [inner?_eq_read, read_of_some hn]
        exact (hsucceeds new hn).inner
      have hadmits : (FieldDecl.gated name source condition inner).Admits (.gated condition x) :=
        rfl
      exact ⟨.of_succeeds hadmits hl hsucceeds, x, hwraps,
        hinner.of_endures hendures ha (ha.inner?_live hwraps)⟩
  | case3 decl hlist hgated =>
      apply hlive
      cases decl with
      | scalar name initial =>
          exact hplant (.scalar name initial) (.scalar initial) rfl ⟨rfl, .inl rfl⟩
      | choice name options =>
          rw [meets_instantiate_choice]
          refine ⟨fun _ ↦ trivial, fun hne ↦ ?_⟩
          exact hplant (.choice name options) (.choice options 0) rfl
            ⟨rfl, List.length_pos_iff.2 hne⟩
      | list name rule element => exact (hlist name rule element rfl).elim
      | gated name source condition inner => exact (hgated name source condition inner rfl).elim

end Confined

end LightTree
