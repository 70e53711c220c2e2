import LightTree.Proofs.Lodging
import LightTree.Proofs.Templates

/-!
# Names that resolve

The check of a kind takes the fields of an element as known to the lists inside it, however deep,
while a new field looks for its source in its own group and at the top of its node only. The two
agree on declarations that are local: they depend on fields of their own group or on fields at the
top. As long as every list builds its elements from local declarations, no cascade misses a source.
-/

namespace LightTree

open Edit LightTree.Tree

/-! ## Local declarations -/

namespace FieldDecl

mutual

/-- Whether a declaration after those of `declared` in its group depends on one of them or on a
field at the top of the node, where the names are `tops`, and so does all that is nested in it. -/
def isLocal (tops declared : List String) : FieldDecl → Bool
  | scalar .. | choice .. => true
  | list name rule element =>
    (list name rule element).dependency?.all (· ∈ declared ++ tops) && groupIsLocal tops [] element
  | gated _ source _ inner => decide (source ∈ declared ++ tops) && isLocal tops declared inner

def groupIsLocal (tops declared : List String) : List FieldDecl → Bool
  | [] => true
  | decl :: rest => isLocal tops declared decl && groupIsLocal tops (declared ++ [decl.name]) rest

end

/-- Whether the fields at the top of a node are local, after those of `declared`. -/
def fieldsAreLocal (declared : List String) : List FieldDecl → Bool
  | [] => true
  | decl :: rest => isLocal declared [] decl && fieldsAreLocal (declared ++ [decl.name]) rest

variable {tops declared : List String}

theorem mem_of_isLocal {decl : FieldDecl} (h : decl.isLocal tops declared = true) {source : String}
    (hs : decl.dependency? = some source) : source ∈ declared ++ tops := by
  cases decl with
  | scalar | choice => cases hs
  | list name rule element =>
      rw [isLocal, hs, Bool.and_eq_true] at h
      simpa using h.1
  | gated name dependency condition inner =>
      cases hs
      rw [isLocal, Bool.and_eq_true] at h
      exact of_decide_eq_true h.1

theorem template_of_isLocal :
    ∀ {decl : FieldDecl}, decl.isLocal tops declared = true → ∀ {element : List FieldDecl},
      decl.template? = some element → groupIsLocal tops [] element = true
  | .scalar .., _, _, he => nomatch he
  | .choice .., _, _, he => nomatch he
  | .list _ _ _, h, _, he => by
    cases he
    rw [isLocal, Bool.and_eq_true] at h
    exact h.2
  | .gated _ _ _ _, h, _, he => by
    rw [isLocal, Bool.and_eq_true] at h
    exact template_of_isLocal h.2 he

/-! ### What the check says -/

variable {outer : List String}

theorem mem_of_checkSource {scope : List String} {decl : FieldDecl}
    (h : decl.checkSource scope = .ok ()) {source : String} (hs : decl.dependency? = some source) :
    source ∈ scope := by
  rw [checkSource, hs] at h
  by_contra hnot
  simp [hnot] at h

theorem check_list {name : String} {rule : LengthRule}
    {element : List FieldDecl} (h : check outer declared (.list name rule element) = .ok ()) :
    checkSource (outer ++ declared) (.list name rule element) = .ok () ∧
      checkGroup (outer ++ declared) [] element = .ok () := by
  rw [check] at h
  cases hs : checkSource (outer ++ declared) (.list name rule element) with
  | error fault =>
      rw [hs] at h
      cases h
  | ok u =>
      rw [hs] at h
      exact ⟨rfl, h⟩

theorem check_gated {name source : String} {condition : Condition}
    {inner : FieldDecl} (h : check outer declared (.gated name source condition inner) = .ok ()) :
    checkSource (outer ++ declared) (.gated name source condition inner) = .ok () ∧
      check outer declared inner = .ok () := by
  rw [check] at h
  cases hs : checkSource (outer ++ declared) (.gated name source condition inner) with
  | error fault =>
      rw [hs] at h
      cases h
  | ok u =>
      rw [hs] at h
      exact ⟨rfl, h⟩

theorem checkGroup_cons {decl : FieldDecl} {rest : List FieldDecl}
    (h : checkGroup outer declared (decl :: rest) = .ok ()) :
    check outer declared decl = .ok () ∧
      checkGroup outer (declared ++ [decl.name]) rest = .ok () := by
  rw [checkGroup] at h
  by_cases hd : decl.name ∈ declared
  · simp only [hd, if_true] at h
    cases h
  · simp only [hd, if_false] at h
    cases hc : check outer declared decl with
    | error fault =>
        rw [hc] at h
        cases h
    | ok u =>
        rw [hc] at h
        exact ⟨rfl, h⟩

/-- Without lists in it, a declaration has the same names in scope for the check and when built. -/
theorem isLocal_of_check_of_template? {decl : FieldDecl} (h : check tops declared decl = .ok ())
    (hnone : decl.template? = none) : decl.isLocal tops declared = true := by
  induction decl using template?.induct with
  | case1 name rule element => cases hnone
  | case2 name source condition inner ih =>
      obtain ⟨hsource, hinner⟩ := check_gated h
      have hmem : source ∈ declared ++ tops :=
        List.mem_append.2 (List.mem_append.1 (mem_of_checkSource hsource rfl)).symm
      rw [isLocal, decide_eq_true hmem, Bool.true_and]
      exact ih hinner hnone
  | case3 decl hlist hgated =>
      cases decl with
      | scalar | choice => rfl
      | list name rule element => exact (hlist name rule element rfl).elim
      | gated name source condition inner => exact (hgated name source condition inner rfl).elim

theorem groupIsLocal_of_checkGroup {group : List FieldDecl}
    (h : checkGroup tops declared group = .ok ()) (hnone : ∀ decl ∈ group, decl.template? = none) :
    groupIsLocal tops declared group = true := by
  induction group generalizing declared with
  | nil => rfl
  | cons decl rest ih =>
      obtain ⟨hfirst, hrest⟩ := checkGroup_cons h
      have hn := List.forall_mem_cons.1 hnone
      rw [groupIsLocal, isLocal_of_check_of_template? hfirst hn.1, Bool.true_and]
      exact ih hrest hn.2

theorem isLocal_of_check {decl : FieldDecl} (h : check [] declared decl = .ok ())
    (hflat : ∀ element, decl.template? = some element → ∀ d ∈ element, d.template? = none) :
    decl.isLocal declared [] = true := by
  induction decl using template?.induct with
  | case1 name rule element =>
      obtain ⟨hsource, helement⟩ := check_list h
      have hlocal : groupIsLocal declared [] element = true :=
        groupIsLocal_of_checkGroup helement (hflat element rfl)
      rw [isLocal, hlocal, Bool.and_true]
      cases hd : (list name rule element).dependency? with
      | none => rfl
      | some source => simpa using mem_of_checkSource hsource hd
  | case2 name source condition inner ih =>
      obtain ⟨hsource, hinner⟩ := check_gated h
      rw [isLocal, decide_eq_true (mem_of_checkSource hsource rfl), Bool.true_and]
      exact ih hinner hflat
  | case3 decl hlist hgated =>
      cases decl with
      | scalar | choice => rfl
      | list name rule element => exact (hlist name rule element rfl).elim
      | gated name source condition inner => exact (hgated name source condition inner rfl).elim

theorem fieldsAreLocal_of_checkGroup {decls : List FieldDecl}
    (h : checkGroup [] declared decls = .ok ())
    (hflat : ∀ decl ∈ decls, ∀ element, decl.template? = some element →
      ∀ d ∈ element, d.template? = none) : fieldsAreLocal declared decls = true := by
  induction decls generalizing declared with
  | nil => rfl
  | cons decl rest ih =>
      obtain ⟨hfirst, hrest⟩ := checkGroup_cons h
      have hf := List.forall_mem_cons.1 hflat
      rw [fieldsAreLocal, isLocal_of_check hfirst hf.1, Bool.true_and]
      exact ih hrest hf.2

end FieldDecl

def NodeKind.isLocal (kind : NodeKind) : Bool :=
  FieldDecl.fieldsAreLocal [] kind.fields

/-- What the checks of a kind establish. -/
theorem NodeKind.of_check {kind : NodeKind} (h : kind.check = .ok ()) :
    kind.checkBounds = .ok () ∧
      (kind.maxChildren == some 0) = (kind.childCategory == .nothing) ∧
      (kind.category == .nothing) = false ∧ FieldDecl.checkGroup [] [] kind.fields = .ok () := by
  rw [NodeKind.check] at h
  cases hbounds : kind.checkBounds with
  | error fault =>
      rw [hbounds] at h
      cases h
  | ok u =>
      rw [hbounds] at h
      by_cases hmatch : ((kind.maxChildren == some 0) != (kind.childCategory == .nothing)) = true
      · simp only [hmatch] at h
        cases h
      · by_cases hcategory : (kind.category == .nothing) = true
        · simp only [hmatch, hcategory] at h
          cases h
        · simp only [hmatch, hcategory] at h
          exact ⟨rfl, by simpa using hmatch, by simpa using hcategory, h⟩

theorem NodeKind.checkGroup_of_check {kind : NodeKind} (h : kind.check = .ok ()) :
    FieldDecl.checkGroup [] [] kind.fields = .ok () :=
  (NodeKind.of_check h).2.2.2

/-- A kind whose nodes have no children requires none. -/
theorem NodeKind.minChildren_of_check {kind : NodeKind} (h : kind.check = .ok ())
    (hnothing : kind.childCategory = .nothing) : kind.minChildren = 0 := by
  obtain ⟨hbounds, hchildless, -, -⟩ := NodeKind.of_check h
  have hmost : kind.maxChildren = some 0 := by simpa [hnothing] using hchildless
  rw [NodeKind.checkBounds, hmost] at hbounds
  simp only [Nat.le_zero] at hbounds
  split at hbounds
  · assumption
  · cases hbounds

/-- The names of an accepted kind resolve unless lists stand in elements of lists. -/
theorem NodeKind.isLocal_of_check {kind : NodeKind} (h : kind.check = .ok ())
    (hflat : ∀ decl ∈ kind.fields, ∀ element, decl.template? = some element →
      ∀ d ∈ element, d.template? = none) : kind.isLocal = true :=
  FieldDecl.fieldsAreLocal_of_checkGroup (NodeKind.checkGroup_of_check h) hflat

def Fault.isUnknownSource : Fault → Bool
  | unknownSource .. => true
  | _ => false

theorem Fault.isUnknownSource_of_stopsCascade {fault : Fault} (h : fault.stopsCascade = true) :
    fault.isUnknownSource = false := by
  cases fault <;> first | rfl | cases h

namespace Tree

theorem isUnknownSource_of_rehearse {tree : Tree} {source : Source} {fault : Fault}
    (h : tree.rehearse source = .error fault) : fault.isUnknownSource = false :=
  Fault.isUnknownSource_of_stopsCascade (stopsCascade_of_rehearse h)

/-! ## Names -/

def name? (tree : Tree) : FieldId → Option String :=
  tree.read (fun field ↦ some field.name) none

/-- Some field of a group has a name. -/
def Finds (tree : Tree) (group : List FieldId) (name : String) : Prop :=
  ∃ id ∈ group, tree.name? id = some name

/-- Some field at the top of a node has a name. -/
def Knows (tree : Tree) (node : NodeId) (name : String) : Prop :=
  tree.Finds (tree.topFields node) name

variable {base tree after : Tree} {id : FieldId} {group : List FieldId} {name : String}

theorem live_of_name?_eq_some (h : tree.name? id = some name) : tree.Live id :=
  live_of_read_ne (ne_of_eq_of_ne h (Option.some_ne_none name))

theorem name?_of_some {field : Field} (hf : tree.field? id = some field) :
    tree.name? id = some field.name := by
  rw [name?, read_of_some hf]

theorem Abides.name? (h : tree.Abides after) (hid : id.index < tree.fields.size)
    (hl : after.Live id) : after.name? id = tree.name? id :=
  h.read (fun _ ↦ rfl) hid hl none

theorem Abides.finds (h : tree.Abides after) (hf : tree.Finds group name)
    {larger : List FieldId} (hsub : ∀ x ∈ group, tree.Live x → x ∈ larger ∧ after.Live x) :
    after.Finds larger name := by
  obtain ⟨id, hid, hname⟩ := hf
  have hold := live_of_name?_eq_some hname
  obtain ⟨hmem, hl⟩ := hsub id hid hold
  exact ⟨id, hmem, (h.name? hold.lt_size hl).trans hname⟩

theorem firstNamed?_ne_none (h : tree.Finds group name) : tree.firstNamed? name group ≠ none := by
  obtain ⟨id, hid, hname⟩ := h
  obtain ⟨field, hf⟩ := live_iff.1 (live_of_name?_eq_some hname)
  rw [name?_of_some hf] at hname
  intro hnone
  have hall := List.find?_eq_none.1 hnone id hid
  rw [hf] at hall
  exact hall (by simp [Option.some.inj hname])

/-- The groups that are local at a node, by the names that are known at its top. -/
def Scope (tree : Tree) (owner : NodeId) (group : List FieldDecl) : Prop :=
  ∃ tops, (∀ name ∈ tops, tree.Knows owner name) ∧ FieldDecl.groupIsLocal tops [] group = true

/-! ## Trees where names resolve -/

/-- A sound tree that knows the names that a first tree knew, and whose lists build their elements
from declarations that are local by those names. -/
structure Scoped (base tree : Tree) : Prop where
  sound : tree.Sound
  knows : ∀ node name, base.Knows node name → tree.Knows node name
  suits : tree.Suits base.Scope

namespace Scoped

theorem step (h : base.Scoped tree) (hn : tree.SameNodes after) (hab : tree.Abides after)
    (ha : after.Sound) (hs : after.Suits base.Scope) : base.Scoped after where
  sound := ha
  knows node name hk := by
    refine hab.finds (h.knows node name hk) fun x hx _ ↦ ?_
    rw [hn.topFields]
    exact ⟨hx, ha.owned.tops_live node x (hn.topFields ▸ hx)⟩
  suits := hs

theorem of_leads (h : base.Scoped tree) (hl : tree.whole.Leads tree after)
    (hs : after.Suits base.Scope) : base.Scoped after :=
  have hframed := hl.framed h.sound.governs
  h.step hframed.nodes (.of_framed hframed rfl) (h.sound.of_leads hl) hs

theorem refresh (h : base.Scoped tree) : base.Scoped tree.refreshed :=
  h.step (.refresh tree) (.of_field? rfl rfl) h.sound.refresh
    (h.suits.of_abides (.of_field? rfl rfl) rfl)

theorem setActive (h : base.Scoped tree) (id : FieldId) (active : Bool) :
    base.Scoped (tree.updateField id ({ · with active })) :=
  h.step (.updateField tree id _) (.setActive tree id active) (h.sound.setActive id active)
    (h.suits.of_abides (.setActive tree id active) (size_updateField tree id _))

theorem relink (h : base.Scoped tree) {dependent : FieldId} {source : Source}
    (hl : tree.Live dependent) (hissued : tree.Issued source)
    (hc : tree.closesCycle dependent source = false) :
    base.Scoped (tree.relink dependent (some source)) :=
  h.step (.relink tree dependent _) (.relink tree dependent _)
    (h.sound.relink_of_not_closesCycle hl hissued hc) (h.suits.relink _ _)

/-- What a local declaration depends on is in its group or at the top of its node. -/
theorem finds (h : base.Scoped tree) {owner : NodeId} {group : List FieldId}
    {tops declared : List String} (htops : ∀ name ∈ tops, base.Knows owner name)
    (hdeclared : ∀ name ∈ declared, tree.Finds group name) {decl : FieldDecl}
    (hlocal : decl.isLocal tops declared = true) (source : String)
    (hs : decl.dependency? = some source) : tree.Finds (group ++ tree.topFields owner) source := by
  rcases List.mem_append.1 (FieldDecl.mem_of_isLocal hlocal hs) with hmem | hmem
  · obtain ⟨id, hid, hname⟩ := hdeclared source hmem
    exact ⟨id, List.mem_append_left _ hid, hname⟩
  · obtain ⟨id, hid, hname⟩ := h.knows owner source (htops source hmem)
    exact ⟨id, List.mem_append_right _ hid, hname⟩

end Scoped

end Tree

/-! ## Cascades -/

/-- An edit leaves a tree where names resolve, or fails for another reason than a missing source. -/
def Edit.Resolves {α : Type} (edit : Edit α) (base tree : Tree) : Prop :=
  edit.Meets tree (fun _ ↦ base.Scoped) fun fault _ ↦ fault.isUnknownSource = false

/-- Visits that miss no source. -/
def Resolving (visit : FieldId → Edit Unit) : Prop :=
  ∀ (base tree : Tree) (id : FieldId), base.Scoped tree → (visit id).Resolves base tree

namespace Resolving

variable {base tree : Tree} {visit : FieldId → Edit Unit} {owner : NodeId}
  {container : Option FieldId} {group : List FieldId}

theorem rebindWith (hr : Resolving visit) (h : base.Scoped tree) (dependent : FieldId)
    {source : Source} (hissued : tree.Issued source) :
    (rebindWith visit dependent source).Resolves base tree := by
  unfold Resolves
  rw [meets_rebindWith]
  refine ⟨fun field hf ↦ ⟨fun _ ↦ rfl, fun hc ↦ ⟨?_, fun _ ↦ ?_⟩⟩, fun _ ↦ rfl⟩
  · exact fun fault hfault ↦
      Fault.isUnknownSource_of_stopsCascade (stopsCascade_of_rehearseWithin hfault)
  · refine (hr base _ dependent (h.relink (live_of_some hf) hissued hc)).imp (fun _ _ ha ↦ ha) ?_
    intro fault after hfault
    rw [meets_relink]
    exact ⟨fun _ ↦ hfault, fun _ ↦ rfl⟩

/-- A new field whose source is found among the fields before it and at the top of its node. -/
theorem plant (hr : Resolving visit) (h : base.Scoped tree)
    (hhost : tree.whole.Hosts tree owner container) {decl : FieldDecl} {value : Value}
    (hnodup : value.parts.Nodup) (hparts : ∀ c ∈ value.parts, tree.Loose c)
    (hvalue : ∀ template, value.template? = some template → base.Scope owner template)
    (hfinds : ∀ source, decl.dependency? = some source →
      tree.Finds (group ++ tree.topFields owner) source) :
    (plant visit owner group container decl value).Resolves base tree := by
  unfold Resolves
  rw [meets_plant]
  set field : Field := { name := decl.name, owner, value, container }
  have hsound : (tree.insertField field).Sound := h.sound.insertField rfl rfl
    (fun c hc ↦ (hhost.container c hc).2) hhost.owner hnodup hparts
  have hnew : base.Scoped (tree.insertField field) :=
    h.step (.insertField tree field) (.insertField tree field) hsound (h.suits.insertField hvalue)
  refine (meets_resolve owner group decl).imp ?_ ?_
  · rintro source after ⟨rfl, hsource⟩
    refine ⟨fun _ ↦ hnew, fun s hs ↦ hr.rebindWith hnew _ ?_⟩
    rcases hsource s hs with rfl | ⟨_, id, _, rfl, hfirst⟩
    · exact hhost.owner
    · exact (live_of_firstNamed?_eq_some hfirst).lt_size
  · rintro fault after ⟨rfl, name, hname, rfl, hnone⟩
    refine absurd hnone (firstNamed?_ne_none ?_)
    exact (Abides.insertField tree field).finds (hfinds name hname) fun x hx hl ↦
      ⟨hx, (live_insertField tree field x).2 (.inr hl)⟩

/-- A local declaration after those of `declared`, which the fields of the group have been built
from. -/
theorem instantiate (hv : Confined visit) (hr : Resolving visit) (h : base.Scoped tree)
    (hhost : tree.whole.Hosts tree owner container) (hgroup : ∀ x ∈ group, tree.Loose x)
    {tops declared : List String} (htops : ∀ name ∈ tops, base.Knows owner name)
    (hdeclared : ∀ name ∈ declared, tree.Finds group name) :
    ∀ decl : FieldDecl, decl.isLocal tops declared = true →
      (instantiate visit owner group container decl).Resolves base tree := by
  have hscope : ∀ decl : FieldDecl, decl.isLocal tops declared = true → ∀ template,
      decl.template? = some template → base.Scope owner template := fun decl hlocal template ht ↦
    ⟨tops, htops, FieldDecl.template_of_isLocal hlocal ht⟩
  intro decl
  induction decl using FieldDecl.template?.induct with
  | case1 name rule element =>
      intro hlocal
      exact hr.plant h hhost List.nodup_nil nofun (hscope _ hlocal)
        (h.finds htops hdeclared hlocal)
  | case2 name source condition inner ih =>
      intro hlocal
      have hinner : inner.isLocal tops declared = true := by
        rw [FieldDecl.isLocal, Bool.and_eq_true] at hlocal
        exact hlocal.2
      unfold Resolves
      rw [meets_instantiate_gated]
      refine ((hv.instantiate h.sound.governs hhost (fun _ _ ↦ trivial) inner).and
        (ih hinner)).imp ?_ fun _ _ hfault ↦ hfault.2
      rintro id mid ⟨⟨hlead, hloose, _⟩, hmid⟩
      have hframed := hlead.framed h.sound.governs
      refine hr.plant hmid (h.sound.hosts_of_leads hhost hlead) (List.nodup_singleton id)
        (fun c hc ↦ List.mem_singleton.1 hc ▸ hloose) (by nofun) (hmid.finds htops ?_ hlocal)
      intro name hname
      exact (Abides.of_framed hframed rfl).finds (hdeclared name hname) fun x hx hl ↦
        ⟨hx, (hframed.loose x hl.lt_size (hgroup x hx)).live⟩
  | case3 decl hlist hgated =>
      intro hlocal
      cases decl with
      | scalar name initial =>
          exact hr.plant h hhost List.nodup_nil nofun (by nofun)
            (h.finds htops hdeclared hlocal)
      | choice name options =>
          unfold Resolves
          rw [meets_instantiate_choice]
          exact ⟨fun _ ↦ rfl, fun _ ↦ hr.plant h hhost List.nodup_nil nofun (by nofun)
            (h.finds htops hdeclared hlocal)⟩
      | list name rule element => exact (hlist name rule element rfl).elim
      | gated name source condition inner => exact (hgated name source condition inner rfl).elim

/-! ### Groups -/

variable (ha : ∀ d, (visit d).Respects Abides)

include ha

/-- A new field has the name that it was declared with. -/
theorem instantiate_named (decl : FieldDecl) :
    (LightTree.instantiate visit owner group container decl).Meets tree
      (fun id after ↦ after.Live id → after.name? id = some decl.name) fun _ _ ↦ True := by
  have hplant : ∀ (mid : Tree) (decl : FieldDecl) (value : Value),
      (LightTree.plant visit owner group container decl value).Meets mid
        (fun id after ↦ after.Live id → after.name? id = some decl.name) fun _ _ ↦ True := by
    intro mid decl value
    rw [meets_plant]
    set field : Field := { name := decl.name, owner, value, container }
    have hname : (mid.insertField field).name? mid.nextField = some decl.name :=
      name?_of_some (mid.field?_insertField_self field)
    refine (meets_resolve owner group decl).imp ?_ fun _ _ _ ↦ trivial
    rintro source after ⟨rfl, _⟩
    refine ⟨fun _ _ ↦ hname, fun s _ ↦ ?_⟩
    refine (lasting_abides.toHarmless.rebindWith ha _ s _).imp (fun _ last hlast hl ↦ ?_)
      fun _ _ _ ↦ trivial
    exact (hlast.name? (live_of_name?_eq_some hname).lt_size hl).trans hname
  cases decl with
  | scalar name initial => exact hplant tree _ _
  | choice name options =>
      rw [meets_instantiate_choice]
      exact ⟨fun _ ↦ trivial, fun _ ↦ hplant tree _ _⟩
  | list name rule element => exact hplant tree _ _
  | gated name source condition inner =>
      rw [meets_instantiate_gated]
      exact (lasting_abides.toHarmless.instantiate ha group container inner tree).imp
        (fun _ mid _ ↦ hplant mid _ _) fun _ _ _ ↦ trivial

variable (hv : Confined visit) (hr : Resolving visit)

include hv hr

theorem instantiateGroup (h : base.Scoped tree) (hhost : tree.whole.Hosts tree owner container)
    (hgroup : ∀ x ∈ group, tree.Loose x) {tops declared : List String}
    (htops : ∀ name ∈ tops, base.Knows owner name)
    (hdeclared : ∀ name ∈ declared, tree.Finds group name) {decls : List FieldDecl}
    (hlocal : FieldDecl.groupIsLocal tops declared decls = true) :
    (instantiateGroup visit owner container group decls).Resolves base tree := by
  induction decls generalizing tree group declared with
  | nil => exact h
  | cons decl rest ih =>
      rw [FieldDecl.groupIsLocal, Bool.and_eq_true] at hlocal
      unfold Resolves
      rw [meets_instantiateGroup_cons]
      refine (((hv.instantiate h.sound.governs hhost (fun _ _ ↦ trivial) decl).and
        (instantiate_named ha decl)).and
        (instantiate hv hr h hhost hgroup htops hdeclared decl hlocal.1)).imp ?_
        fun _ _ hfault ↦ hfault.2
      rintro id mid ⟨⟨⟨hlead, hloose, _⟩, hname⟩, hmid⟩
      have hframed := hlead.framed h.sound.governs
      have hkept : ∀ x ∈ group, tree.Live x → mid.Loose x := fun x hx hl ↦
        hframed.loose x hl.lt_size (hgroup x hx)
      refine ih hmid (h.sound.hosts_of_leads hhost hlead) (fun x hx ↦ ?_) (fun name hn ↦ ?_)
        hlocal.2
      · rcases List.mem_append.1 hx with hx | hx
        · exact hkept x hx (hgroup x hx).live
        · exact List.mem_singleton.1 hx ▸ hloose
      · rcases List.mem_append.1 hn with hn | hn
        · exact (Abides.of_framed hframed rfl).finds (hdeclared name hn) fun x hx hl ↦
            ⟨List.mem_append_left _ hx, (hkept x hx hl).live⟩
        · rw [List.mem_singleton.1 hn]
          exact ⟨id, List.mem_append_right _ (List.mem_singleton.2 rfl), hname hloose.live⟩

/-- The elements of a list resolve among themselves and at the top of the node. -/
theorem element (h : base.Scoped tree) (hhost : tree.whole.Hosts tree owner container)
    {template : List FieldDecl} (ht : base.Scope owner template) :
    (LightTree.instantiateGroup visit owner container [] template).Resolves base tree := by
  obtain ⟨tops, htops, hlocal⟩ := ht
  exact instantiateGroup ha hv hr h hhost (fun _ hx ↦ absurd hx List.not_mem_nil) htops
    (fun _ hn ↦ absurd hn List.not_mem_nil) hlocal

/-! ### Linked lists -/

theorem grow {id : FieldId} (h : base.Scoped tree) (hhost : tree.whole.Hosts tree owner (some id))
    {template : List FieldDecl} (ht : base.Scope owner template) (count : Nat) :
    (grow visit owner template id count).Resolves base tree := by
  induction count generalizing tree with
  | zero => exact h
  | succ count ih =>
      unfold Resolves
      rw [meets_grow_succ]
      refine ((hv.instantiateGroup h.sound.governs hhost .nil template).and
        (element ha hv hr h hhost ht)).imp ?_ fun _ _ hfault ↦ hfault.2
      rintro group mid ⟨⟨hlead, hgroup⟩, hmid⟩
      have hpush : tree.whole.Leads tree (mid.push id group) :=
        hlead.tail (.push trivial hgroup.nodup hgroup.loose)
      exact ⟨fun _ ↦ ih (h.of_leads hpush (hmid.suits.push id group))
        (h.sound.hosts_of_leads hhost hpush), fun _ ↦ rfl⟩

omit ha hv hr

theorem shrink (h : base.Scoped tree) (id : FieldId) (count : Nat) :
    (shrink id count).Resolves base tree := by
  induction count generalizing tree with
  | zero => exact h
  | succ count ih =>
      unfold Resolves
      rw [meets_shrink_succ]
      refine ⟨fun field hf ↦ ih (h.step (.drop tree id _ _) (.drop tree id _ _) ?_ ?_), fun _ ↦ rfl⟩
      · exact h.sound.drop hf (splits_dropLast field.value)
      · exact h.suits.of_abides (.drop tree id _ _) (Region.fields_size_drop tree id _ _)

include ha hv hr

theorem resize (h : base.Scoped tree) (id : FieldId) (length : Nat) :
    (resize visit id length).Resolves base tree := by
  unfold Resolves
  rw [meets_resize]
  refine ⟨fun field hf ↦ ⟨fun linked template elements hvalue ↦ ?_, fun _ ↦ rfl⟩, fun _ ↦ rfl⟩
  have hhost := h.sound.governs.hosts hf trivial
  exact (grow ha hv hr h hhost (h.suits id _ _ (template?_of_list hf hvalue)) _).imp
    (fun _ mid hmid ↦ shrink hmid id _) fun _ _ hfault ↦ hfault

/-! ### Deriving and notifying -/

theorem recompute (h : base.Scoped tree) (id : FieldId) :
    (recompute visit id).Resolves base tree := by
  unfold Resolves
  rw [meets_recompute]
  refine ⟨fun field _ ↦ ⟨fun source condition _ _ _ ↦ h.setActive id _, fun source _ _ _ _ ↦ ?_,
    fun _ ↦ h⟩, fun _ ↦ rfl⟩
  exact resize ha hv hr h id _

omit ha hv

theorem forM (h : base.Scoped tree) (ids : List FieldId) :
    (ids.forM visit).Resolves base tree :=
  meets_forM (fun _ mid ↦ base.Scoped mid) (fun _ hmid ↦ hmid) (fun d _ mid ↦ hr base mid d) ids
    tree h

theorem propagate (h : base.Scoped tree) (source : Source) :
    (propagate visit source).Resolves base tree := by
  unfold Resolves
  cases source with
  | children id =>
      rw [meets_propagate_children]
      exact forM hr h _
  | field id =>
      rw [meets_propagate_field]
      generalize tree.enclosing id = ids
      induction ids generalizing tree with
      | nil => exact h
      | cons list outer ih =>
          rw [meets_spread_cons]
          exact ⟨fun _ ↦ (forM hr h _).imp (fun _ mid hmid ↦ ih hmid) fun _ _ hfault ↦ hfault,
            fun _ ↦ h⟩

omit hr

theorem notify (fuel : Nat) :
    ∀ (refresh : Bool) (path : List FieldId), Resolving (notify fuel refresh path) := by
  induction fuel with
  | zero => exact fun _ _ _ _ _ _ ↦ rfl
  | succ fuel ih =>
      intro refresh path base tree id h
      unfold Resolves
      rw [meets_notify_succ]
      refine ⟨fun field _ ↦ ⟨fun fault hfault ↦ ?_, fun _ ↦ ?_⟩, fun _ ↦ h⟩
      · exact Fault.isUnknownSource_of_stopsCascade (stopsCascade_of_guard hfault)
      refine (recompute (lasting_abides.toHarmless.notify fuel false [])
        (Confined.notify fuel false []) (ih false []) h id).imp (fun _ mid hmid ↦ ?_)
        fun _ _ hfault ↦ hfault
      split
      · exact propagate (ih refresh (id :: path)) hmid.refresh (.field id)
      · exact propagate (ih refresh (id :: path)) hmid (.field id)

theorem enter (refresh : Bool) : Resolving (enter refresh) := by
  intro base tree id h
  unfold Resolves
  rw [LightTree.enter, meets_bind, meets_get]
  exact notify _ refresh [] base tree id h

theorem settle (h : base.Scoped tree) (source : Source) : (settle source).Resolves base tree := by
  unfold Resolves
  rw [meets_settle]
  exact (propagate (enter true) h source).imp (fun _ _ hmid ↦ hmid.refresh)
    fun _ _ hfault ↦ hfault

theorem childrenChanged (h : base.Scoped tree) (parent : NodeId) (refresh : Bool) :
    (childrenChanged parent refresh).Resolves base tree := by
  unfold LightTree.childrenChanged
  split
  · exact settle h _
  · exact propagate (enter false) h _

end Resolving

end LightTree
