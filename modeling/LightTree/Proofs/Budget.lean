import LightTree.Proofs.Depth
import LightTree.Proofs.Layouts

/-!
# The steps of a cascade are enough

A visit that is under way leads to another one in two ways: it builds a field of an element and
visits that, or it tells a dependent. As long as it tells dependents of new fields, the positions
grow along the layout. When it tells a dependent of a field from before the cascade, that field is
under way from then on; nothing comes to feed it again, so no chain of visits comes through it a
second time. The steps that a cascade is given are therefore never used up.
-/

namespace LightTree

open Relation Edit

/-- An edit lays out what it adds and avoids the fields under way, or it fails before its steps are
used up. -/
def Edit.Paces {α : Type} (edit : Edit α) (base : Tree) (pending : Finset FieldId)
    (layout : Layout) (tree : Tree) : Prop :=
  edit.Meets tree (fun _ after ↦ ∃ layout', base.Proceeds pending layout tree layout' after)
    fun fault _ ↦ fault ≠ .exhausted

namespace Tree

/-- Some steps are enough at a field and a position while others are under way: they, the position,
and a whole layout for each field under way make up for what the cascade was given. The field leads
to none of those under way. -/
structure Affords (base : Tree) (pending : Finset FieldId) (tree : Tree) (fuel : Nat)
    (id : FieldId) (position : Nat) : Prop where
  old : ∀ a ∈ pending, a.index < base.fields.size
  clear : ∀ a ∈ pending, ¬ReflTransGen tree.Feeds id a
  budget_le :
    base.cascadeBudget ≤ fuel + pending.card * (base.templateWeight + 1) + position

variable {base tree after : Tree} {pending : Finset FieldId} {layout layout' : Layout}
  {fuel position : Nat} {id c z : FieldId}

theorem guard_ne_exhausted {path : List FieldId} {field : Field} {fault : Fault}
    (h : tree.guard path id field = .error fault) : fault ≠ .exhausted := by
  rintro rfl
  unfold guard at h
  split at h
  · cases h
  · split at h <;> cases h

/-- A rehearsal of a sound tree never runs out of steps. -/
theorem Sound.rehearseEntry_ne_exhausted (h : tree.Sound) {fault : Fault}
    (herror : tree.rehearseEntry id = .error fault) : fault ≠ .exhausted := by
  obtain ⟨_, rfl, _⟩ := h.exists_chain_of_rehearseWithin (by simp only [List.length_nil]; omega)
    List.nodup_nil (by simp) herror
  nofun

theorem Sound.rehearse_ne_exhausted (h : tree.Sound) {source : Source} {fault : Fault}
    (herror : tree.rehearse source = .error fault) : fault ≠ .exhausted := by
  obtain ⟨rfl, _⟩ := h.exists_chain_of_rehearse herror
  nofun

namespace Affords

/-- As many fields may be under way as there were before the cascade, and positions end with the
layout, so there is a step left. -/
theorem fuel_pos (h : base.Affords pending tree fuel id position)
    (hposition : position ≤ base.templateWeight) : 0 < fuel := by
  have hcard : pending.card ≤ base.fields.size := by
    have hle := Finset.card_le_card_of_injOn FieldId.index
      (fun a ha ↦ Finset.mem_coe.2 (Finset.mem_range.2 (h.old a ha)))
      fun a _ b _ hab ↦ congrArg FieldId.mk hab
    rwa [Finset.card_range] at hle
  have hpending := Nat.mul_le_mul_right (base.templateWeight + 1) hcard
  have hbudget := h.budget_le
  have hsplit : base.cascadeBudget =
      base.fields.size * (base.templateWeight + 1) + base.fields.size + base.templateWeight + 2 := by
    simp only [cascadeBudget, Nat.add_mul, Nat.mul_add]
    omega
  omega

/-- A layout is enough to begin with. -/
theorem start (base : Tree) (id : FieldId) (position : Nat) :
    base.Affords ∅ base base.cascadeBudget id position where
  old _ ha := absurd ha (Finset.notMem_empty _)
  clear _ ha := absurd ha (Finset.notMem_empty _)
  budget_le := by omega

theorem of_proceeds (h : base.Affords pending tree fuel id position)
    (hp : base.Proceeds pending layout tree layout' after) :
    base.Affords pending after fuel id position :=
  { h with clear := fun a ha hreach ↦ h.clear a ha (hp.avoids a ha id hreach) }

/-- What may be done at a field may be done behind the stretch of a list around it. -/
theorem enclosing (h : base.Affords pending tree fuel id (layout.start id))
    (hl : base.LaidOut layout tree) (hz : z ∈ tree.enclosing id) :
    base.Affords pending tree fuel z (layout.stop z) where
  old := h.old
  clear a ha hreach := by
    have hfeeds : ReflTransGen tree.Feeds id z :=
      ReflTransGen.mono (fun _ _ hc ↦ feeds_iff.2 (.inr hc)) _ _ (reflTransGen_of_mem_chain hz)
    exact h.clear a ha (hfeeds.trans hreach)
  budget_le := by
    have := h.budget_le
    have := hl.start_le id
    have := hl.stop_le_of_enclosing hz
    omega

/-- Behind a new field stand its dependents. A field from before the cascade is under way while its
dependents are told. -/
theorem listeners (h : base.Affords pending tree (fuel + 1) z (layout.stop z))
    (hl : base.LaidOut layout tree) :
    ∃ more, pending ⊆ more ∧
      ∀ d ∈ tree.listeners z, base.Affords more tree fuel d (layout.start d) := by
  have hclear : ∀ d ∈ tree.listeners z, ∀ a ∈ pending, ¬ReflTransGen tree.Feeds d a :=
    fun d hd a ha hreach ↦ h.clear a ha (hreach.head (feeds_iff.2 (.inl hd)))
  have hbudget := h.budget_le
  by_cases hz : base.fields.size ≤ z.index
  · refine ⟨pending, Finset.Subset.refl _, fun d hd ↦ ⟨h.old, hclear d hd, ?_⟩⟩
    have := hl.listeners z d hz hd
    omega
  · have hnew : z ∉ pending := fun hmem ↦ h.clear z hmem .refl
    refine ⟨insert z pending, Finset.subset_insert z pending, fun d hd ↦ ⟨?_, ?_, ?_⟩⟩
    · rw [Finset.forall_mem_insert]
      exact ⟨Nat.lt_of_not_le hz, h.old⟩
    · rw [Finset.forall_mem_insert]
      exact ⟨fun hreach ↦ hl.acyclic z (.head' (feeds_iff.2 (.inl hd)) hreach), hclear d hd⟩
    · have := hl.stop_le z
      rw [Finset.card_insert_of_notMem hnew, Nat.succ_mul]
      omega

end Affords

end Tree

/-- Visits keep the pace wherever their steps are enough. -/
def Thrifty (base : Tree) (fuel : Nat) (visit : FieldId → Edit Unit) : Prop :=
  ∀ pending layout tree id, base.LaidOut layout tree →
    base.Affords pending tree fuel id (layout.start id) →
    (visit id).Paces base pending layout tree

theorem Tree.Proceeds.andThen {α : Type} {base tree mid : Tree} {pending : Finset FieldId}
    {layout layout' : Layout} (h : base.Proceeds pending layout tree layout' mid) {edit : Edit α}
    (he : edit.Paces base pending layout' mid) :
    edit.Meets mid (fun _ after ↦ ∃ layout'', base.Proceeds pending layout tree layout'' after)
      fun fault _ ↦ fault ≠ .exhausted :=
  he.imp (fun _ _ ⟨layout'', ha⟩ ↦ ⟨layout'', h.trans ha⟩) fun _ _ hf ↦ hf

namespace Thrifty

open LightTree.Tree

variable {base tree : Tree} {fuel : Nat} {visit : FieldId → Edit Unit} {pending : Finset FieldId}
  {layout : Layout} {id c : FieldId} {owner : NodeId} {group : List FieldId}

/-! ## Telling dependents -/

theorem forM (hv : Thrifty base fuel visit) (h : base.LaidOut layout tree) {ids : List FieldId}
    (hids : ∀ d ∈ ids, d.index < tree.fields.size ∧
      base.Affords pending tree fuel d (layout.start d)) :
    (ids.forM visit).Paces base pending layout tree := by
  refine meets_forM (fun rest mid ↦ (∀ d ∈ rest, d ∈ ids) ∧
    ∃ layout', base.Proceeds pending layout tree layout' mid) (fun _ hm ↦ hm.2) ?_ ids tree
    ⟨fun _ hd ↦ hd, layout, .refl h⟩
  rintro d rest mid ⟨hrest, layout', hmid⟩
  obtain ⟨hissued, haff⟩ := hids d (hrest d List.mem_cons_self)
  have haff' : base.Affords pending mid fuel d (layout'.start d) :=
    hmid.start_eq hissued ▸ haff.of_proceeds hmid
  have hvisit := hv pending layout' mid d hmid.laidOut haff'
  exact (hmid.andThen hvisit).imp
    (fun _ _ ha ↦ ⟨fun x hx ↦ hrest x (List.mem_cons_of_mem d hx), ha⟩) fun _ _ hf ↦ hf

theorem spread (hv : Thrifty base fuel visit) (h : base.LaidOut layout tree)
    {ids : List FieldId} (hids : ∀ z ∈ ids, z.index < tree.fields.size ∧
      base.Affords pending tree (fuel + 1) z (layout.stop z)) :
    (spread visit ids).Paces base pending layout tree := by
  induction ids generalizing tree layout with
  | nil => exact ⟨layout, .refl h⟩
  | cons z outer ih =>
      unfold Paces
      rw [meets_spread_cons]
      refine ⟨fun _ ↦ ?_, fun _ ↦ ⟨layout, .refl h⟩⟩
      obtain ⟨hz, houter⟩ := List.forall_mem_cons.1 hids
      obtain ⟨more, hsub, hmore⟩ := hz.2.listeners h
      have hloop := hv.forM h fun d hd ↦ ⟨(h.mirrored.live_of_mem hd).lt_size, hmore d hd⟩
      refine hloop.imp ?_ fun _ _ hf ↦ hf
      rintro _ mid ⟨layout', hmid⟩
      have hmid := hmid.mono hsub
      refine hmid.andThen (ih hmid.laidOut fun x hx ↦ ?_)
      obtain ⟨hissued, haff⟩ := houter x hx
      exact ⟨hissued.trans_le hmid.size_le, hmid.stop_eq hissued ▸ haff.of_proceeds hmid⟩

theorem propagate (hv : Thrifty base fuel visit) (h : base.LaidOut layout tree)
    (hid : id.index < tree.fields.size)
    (haff : base.Affords pending tree (fuel + 1) id (layout.start id)) :
    (propagate visit (.field id)).Paces base pending layout tree := by
  unfold Paces
  rw [meets_propagate_field]
  refine hv.spread h fun z hz ↦ ⟨?_, haff.enclosing h hz⟩
  have hreach := reflTransGen_of_mem_chain hz
  clear hz
  induction hreach with
  | refl => exact hid
  | tail _ hc ih => exact Nat.lt_trans (h.ordered.container_lt _ _ hc) ih

/-! ## Building fields -/

theorem rebindWith (hv : Thrifty base fuel visit) (h : base.LaidOut layout tree)
    (haff : base.Affords pending tree fuel id (layout.start id)) {source : Source}
    (hissued : tree.Issued source)
    (hstop : ∀ x, base.fields.size ≤ x.index → tree.Covers (some source) x →
      layout.stop x < layout.start id) :
    (rebindWith visit id source).Paces base pending layout tree := by
  unfold Paces
  rw [meets_rebindWith]
  refine ⟨fun field hf ↦ ⟨fun _ ↦ nofun, fun hc ↦
    ⟨fun _ hfault ↦ h.toSound.rehearseEntry_ne_exhausted hfault, fun _ ↦ ?_⟩⟩, fun _ ↦ nofun⟩
  have hs := h.toSound.relink_of_not_closesCycle (live_of_some hf) hissued hc
  have hstep := h.relink hs haff.clear hstop
  have hvisit := hv pending layout _ id hstep.laidOut (haff.of_proceeds hstep)
  refine (hstep.andThen hvisit).imp (fun _ _ ha ↦ ha) fun fault after hfault ↦ ?_
  rw [meets_relink]
  exact ⟨fun _ ↦ hfault, fun _ ↦ nofun⟩

/-- A field of an element starts behind the list and behind the fields before it in the element. -/
theorem plant (hv : Thrifty base fuel visit) (h : base.LaidOut layout tree)
    (hhost : tree.whole.Hosts tree owner (some c))
    (haff : base.Affords pending tree (fuel + 1) c (layout.start c)) {start stop : Nat}
    (hgroup : ∀ x ∈ group, x.index < tree.fields.size ∧ layout.stop x < start) (decl : FieldDecl)
    (value : Value) (hnodup : value.parts.Nodup) (hparts : ∀ x ∈ value.parts, tree.Loose x)
    (hstart : layout.start c < start) (hweight : start + value.weight ≤ stop)
    (hstop : stop ≤ layout.stop c)
    (hinner : ∀ y, value.inner? = some y → layout.stop y ≤ stop) :
    (plant visit owner group (some c) decl value).Meets tree
      (fun id after ↦ ∃ layout', base.Proceeds pending layout tree layout' after ∧
        id.index < after.fields.size ∧ layout'.stop id = stop)
      fun fault _ ↦ fault ≠ .exhausted := by
  rw [meets_plant]
  set field : Field := { name := decl.name, owner, value, container := some c }
  have hs : (tree.insertField field).Sound := h.toSound.insertField rfl rfl
    (fun x hx ↦ (hhost.container x hx).2) hhost.owner hnodup hparts
  have hstep := h.insertField hs rfl rfl haff.clear hstart hweight hstop hinner
  set placed := layout.put tree.nextField start stop
  have hissued : tree.nextField.index < (tree.insertField field).fields.size :=
    ((live_insertField tree field _).2 (.inl rfl)).lt_size
  refine (meets_resolve owner group decl).imp ?_ ?_
  · rintro source _ ⟨rfl, hsource⟩
    refine ⟨fun _ ↦ ⟨placed, hstep, hissued, Layout.stop_put_self⟩, fun s hss ↦ ?_⟩
    -- The new field was no source of anything before, so it leads to nothing under way.
    have hclear : ∀ a ∈ pending, ¬ReflTransGen (tree.insertField field).Feeds tree.nextField a := by
      intro a ha hreach
      rcases (hstep.avoids a ha _ hreach).cases_head with heq | ⟨b, hb, _⟩
      · exact ne_nextField_of_lt_size ((haff.old a ha).trans_le h.size_le) heq.symm
      · exact tree.not_live_nextField (live_of_feeds hb)
    have haff' : base.Affords pending (tree.insertField field) fuel tree.nextField
        (placed.start tree.nextField) := by
      refine ⟨haff.old, hclear, ?_⟩
      have := haff.budget_le
      rw [Layout.start_put_self]
      omega
    have hscope : (tree.insertField field).Issued s ∧ ∀ x, base.fields.size ≤ x.index →
        (tree.insertField field).Covers (some s) x → placed.stop x < start := by
      rcases hsource s hss with rfl | ⟨_, y, _, rfl, hfirst⟩
      · exact ⟨hhost.owner, fun x _ ⟨_, hx, _⟩ ↦ nomatch hx⟩
      · refine ⟨(live_of_firstNamed?_eq_some hfirst).lt_size, fun x hx ⟨_, hy, hw⟩ ↦ ?_⟩
        cases hy
        refine (hstep.laidOut.stop_le_of_wraps hx hw).trans_lt ?_
        rcases List.mem_append.1 (List.mem_of_find?_eq_some hfirst) with hy | hy
        · exact (hstep.stop_eq (hgroup y hy).1).trans_lt (hgroup y hy).2
        · have hle := hx.trans (hs.ordered.le_of_wraps hw)
          exact absurd (h.tops owner y hy) (Nat.not_lt_of_le hle)
    have hrebind := hv.rebindWith hstep.laidOut haff' hscope.1 fun x hx hcov ↦
      Layout.start_put_self.symm ▸ hscope.2 x hx hcov
    refine hrebind.imp ?_ fun _ _ hf ↦ hf
    rintro _ after ⟨layout', ha⟩
    exact ⟨layout', hstep.trans ha, hissued.trans_le ha.size_le,
      (ha.stop_eq hissued).trans Layout.stop_put_self⟩
  · rintro fault _ ⟨_, _, _, rfl, _⟩
    nofun

section

variable {start : Nat}

/-- A field that owns nothing yet takes the positions of its own declarations. -/
theorem plant_of_no_parts (hv : Thrifty base fuel visit) (h : base.LaidOut layout tree)
    (hhost : tree.whole.Hosts tree owner (some c))
    (haff : base.Affords pending tree (fuel + 1) c (layout.start c))
    (hgroup : ∀ x ∈ group, x.index < tree.fields.size ∧ layout.stop x < start)
    (hstart : layout.start c < start) (decl : FieldDecl) (value : Value)
    (hroom : start + decl.weight ≤ layout.stop c + 1) (hparts : value.parts = [])
    (hweight : decl.weight = 1 + value.weight) :
    (LightTree.plant visit owner group (some c) decl value).Meets tree
      (fun id after ↦ ∃ layout', base.Proceeds pending layout tree layout' after ∧
        id.index < after.fields.size ∧ layout'.stop id < start + decl.weight)
      fun fault _ ↦ fault ≠ .exhausted := by
  have hnone : ∀ x, x ∉ value.parts := fun x ↦ hparts ▸ List.not_mem_nil
  have hinner : ∀ y, value.inner? ≠ some y := by
    rintro y hy
    cases hv : value with
    | gated condition inner =>
        rw [hv] at hparts
        cases hparts
    | scalar | choice | list =>
        rw [hv] at hy
        cases hy
  refine (hv.plant h hhost haff hgroup decl value (hparts ▸ List.nodup_nil)
    (fun x hx ↦ absurd hx (hnone x)) hstart (Nat.le_refl _) (by omega)
    fun y hy ↦ absurd hy (hinner y)).imp ?_ fun _ _ hf ↦ hf
  rintro id after ⟨layout', ha, hid, hstop⟩
  exact ⟨layout', ha, hid, by omega⟩

variable (hconf : Confined visit)

include hconf

/-- The fields of a declaration are laid out from a position on, the field inside a gate before the
gate. -/
theorem instantiate (hv : Thrifty base fuel visit) (h : base.LaidOut layout tree)
    (hhost : tree.whole.Hosts tree owner (some c))
    (haff : base.Affords pending tree (fuel + 1) c (layout.start c))
    (hgroup : ∀ x ∈ group, x.index < tree.fields.size ∧ layout.stop x < start)
    (hstart : layout.start c < start) :
    ∀ decl : FieldDecl, start + decl.weight ≤ layout.stop c + 1 →
      (instantiate visit owner group (some c) decl).Meets tree
        (fun id after ↦ ∃ layout', base.Proceeds pending layout tree layout' after ∧
          id.index < after.fields.size ∧ layout'.stop id < start + decl.weight)
        fun fault _ ↦ fault ≠ .exhausted
  | .scalar name initial, hroom =>
    hv.plant_of_no_parts h hhost haff hgroup hstart _ _ hroom rfl (by rw [FieldDecl.weight]; rfl)
  | .choice name options, hroom => by
    rw [meets_instantiate_choice]
    refine ⟨fun _ ↦ nofun, fun _ ↦ ?_⟩
    exact hv.plant_of_no_parts h hhost haff hgroup hstart _ _ hroom rfl
      (by rw [FieldDecl.weight]; rfl)
  | .list name rule element, hroom =>
    hv.plant_of_no_parts h hhost haff hgroup hstart _ _ hroom rfl (by rw [FieldDecl.weight]; rfl)
  | .gated name source condition inner, hroom => by
    rw [FieldDecl.weight] at hroom ⊢
    rw [meets_instantiate_gated]
    have hbuilds := hconf.instantiate h.toSound.governs hhost (fun x (_ : x ∈ group) ↦ trivial) inner
    refine (hbuilds.and (instantiate hv h hhost haff hgroup hstart inner (by omega))).imp ?_
      fun _ _ hf ↦ hf.2
    rintro y mid ⟨⟨hlead, hloose, _⟩, layout', hmid, _, hy⟩
    have hc := (hhost.container c rfl).2
    have haff' : base.Affords pending mid (fuel + 1) c (layout'.start c) :=
      hmid.start_eq hc ▸ haff.of_proceeds hmid
    have hgroup' : ∀ x ∈ group,
        x.index < mid.fields.size ∧ layout'.stop x < start + inner.weight := by
      intro x hx
      obtain ⟨hx, hstop⟩ := hgroup x hx
      rw [hmid.stop_eq hx]
      exact ⟨hx.trans_le hmid.size_le, by omega⟩
    refine (hv.plant hmid.laidOut (h.toSound.hosts_of_leads hhost hlead) haff' hgroup' _
      (.gated condition y) (List.nodup_singleton y) (fun x hx ↦ List.mem_singleton.1 hx ▸ hloose)
      ?_ (Nat.le_refl _) ?_ ?_).imp ?_ fun _ _ hf ↦ hf
    · rw [hmid.start_eq hc]
      omega
    · rw [hmid.stop_eq hc]
      show start + inner.weight ≤ layout.stop c
      omega
    · intro z hz
      cases hz
      exact Nat.le_of_lt hy
    · rintro id after ⟨layout'', ha, hid, hstop⟩
      refine ⟨layout'', hmid.trans ha, hid, ?_⟩
      rw [hstop]
      show start + inner.weight < start + (1 + inner.weight)
      omega

theorem instantiateGroup (hv : Thrifty base fuel visit) (h : base.LaidOut layout tree)
    (hhost : tree.whole.Hosts tree owner (some c))
    (haff : base.Affords pending tree (fuel + 1) c (layout.start c))
    (hgroup : ∀ x ∈ group, x.index < tree.fields.size ∧ layout.stop x < start)
    (hstart : layout.start c < start) (decls : List FieldDecl)
    (hroom : start + FieldDecl.weights decls ≤ layout.stop c + 1) :
    (instantiateGroup visit owner (some c) group decls).Paces base pending layout tree := by
  induction decls generalizing tree layout group start with
  | nil => exact ⟨layout, .refl h⟩
  | cons decl rest ih =>
      unfold Paces
      rw [FieldDecl.weights] at hroom
      rw [meets_instantiateGroup_cons]
      have hbuilds := hconf.instantiate h.toSound.governs hhost (fun x (_ : x ∈ group) ↦ trivial) decl
      refine (hbuilds.and (hv.instantiate hconf h hhost haff hgroup hstart decl (by omega))).imp ?_
        fun _ _ hf ↦ hf.2
      rintro id mid ⟨⟨hlead, _⟩, layout', hmid, hid, hstop⟩
      have hc := (hhost.container c rfl).2
      have hgroup' : ∀ x ∈ group ++ [id],
          x.index < mid.fields.size ∧ layout'.stop x < start + decl.weight := by
        intro x hx
        rcases List.mem_append.1 hx with hx | hx
        · obtain ⟨hx, hstop⟩ := hgroup x hx
          rw [hmid.stop_eq hx]
          exact ⟨hx.trans_le hmid.size_le, by omega⟩
        · rw [List.mem_singleton.1 hx]
          exact ⟨hid, hstop⟩
      refine hmid.andThen (ih hmid.laidOut (h.toSound.hosts_of_leads hhost hlead)
        (hmid.start_eq hc ▸ haff.of_proceeds hmid) hgroup' ?_ ?_)
      · rw [hmid.start_eq hc]
        omega
      · rw [hmid.stop_eq hc]
        omega

/-! ## Linked lists -/

/-- The elements of a list share the positions of its declarations: no visit leads from one element
to another. -/
theorem grow (hv : Thrifty base fuel visit) (h : base.LaidOut layout tree)
    (hhost : tree.whole.Hosts tree owner (some id))
    (haff : base.Affords pending tree (fuel + 1) id (layout.start id)) {template : List FieldDecl}
    (hroom : layout.start id + FieldDecl.weights template ≤ layout.stop id) (count : Nat) :
    (grow visit owner template id count).Paces base pending layout tree := by
  induction count generalizing tree layout with
  | zero => exact ⟨layout, .refl h⟩
  | succ count ih =>
      unfold Paces
      rw [meets_grow_succ]
      refine ((hconf.instantiateGroup h.toSound.governs hhost .nil template).and
        (hv.instantiateGroup hconf h hhost haff (fun _ hx ↦ absurd hx List.not_mem_nil)
          (Nat.lt_succ_self _) template (by omega))).imp ?_ fun _ _ hf ↦ hf.2
      rintro group mid ⟨⟨hlead, hgroup⟩, layout', hmid⟩
      refine ⟨fun _ ↦ ?_, fun _ ↦ nofun⟩
      have hpush := hmid.trans (hmid.laidOut.push id hgroup.nodup fun x hx ↦ (hgroup.loose x hx).1)
      have hlead' : tree.whole.Leads tree (mid.push id group) :=
        hlead.tail (.push trivial hgroup.nodup hgroup.loose)
      have hid := (hhost.container id rfl).2
      refine hpush.andThen (ih hpush.laidOut (h.toSound.hosts_of_leads hhost hlead')
        (hpush.start_eq hid ▸ haff.of_proceeds hpush) ?_)
      rwa [hpush.start_eq hid, hpush.stop_eq hid]

omit hconf

theorem shrink (h : base.LaidOut layout tree) (id : FieldId) (count : Nat) :
    (shrink id count).Paces base pending layout tree := by
  induction count generalizing tree with
  | zero => exact ⟨layout, .refl h⟩
  | succ count ih =>
      unfold Paces
      rw [meets_shrink_succ]
      refine ⟨fun field hf ↦ ?_, fun _ ↦ nofun⟩
      have hdrop : base.Proceeds pending layout tree layout (tree.drop id (·.dropLast) _) :=
        h.drop hf (splits_dropLast field.value)
      exact hdrop.andThen (ih hdrop.laidOut)

include hconf

theorem resize (hv : Thrifty base fuel visit) (h : base.LaidOut layout tree)
    (haff : base.Affords pending tree (fuel + 1) id (layout.start id)) (length : Nat) :
    (resize visit id length).Paces base pending layout tree := by
  unfold Paces
  rw [meets_resize]
  refine ⟨fun field hf ↦ ⟨fun linked template elements hvalue ↦ ?_, fun _ ↦ nofun⟩, fun _ ↦ nofun⟩
  have hroom : layout.start id + FieldDecl.weights template ≤ layout.stop id := by
    have hweight := h.weight id (live_of_some hf)
    rwa [weight_of_some hf, hvalue] at hweight
  refine (hv.grow hconf h (h.toSound.governs.hosts hf trivial) haff hroom _).imp ?_
    fun _ _ hf ↦ hf
  rintro _ mid ⟨layout', hmid⟩
  exact hmid.andThen (shrink hmid.laidOut id _)

/-! ## Deriving and notifying -/

theorem recompute (hv : Thrifty base fuel visit) (h : base.LaidOut layout tree)
    (haff : base.Affords pending tree (fuel + 1) id (layout.start id)) :
    (recompute visit id).Paces base pending layout tree := by
  unfold Paces
  rw [meets_recompute]
  refine ⟨fun field _ ↦ ⟨fun source condition _ _ _ ↦ ⟨layout, h.setActive id _⟩,
    fun source _ _ _ _ ↦ hv.resize hconf h haff _, fun _ ↦ ⟨layout, .refl h⟩⟩, fun _ ↦ nofun⟩

end

/-- The induction is on the steps that are left. -/
theorem notify (base : Tree) (fuel : Nat) : ∀ (refresh : Bool) (path : List FieldId),
    Thrifty base fuel (notify fuel refresh path) := by
  induction fuel with
  | zero =>
      intro _ _ pending layout tree id h haff
      have hpos := haff.fuel_pos ((h.start_le id).trans (h.stop_le id))
      exact absurd hpos (Nat.lt_irrefl 0)
  | succ fuel ih =>
      intro refresh path pending layout tree id h haff
      unfold Paces
      rw [meets_notify_succ]
      refine ⟨fun field hf ↦ ⟨fun fault hfault ↦ guard_ne_exhausted hfault, fun _ ↦ ?_⟩,
        fun _ ↦ ⟨layout, .refl h⟩⟩
      have hid := (live_of_some hf).lt_size
      refine ((ih false []).recompute (Confined.notify fuel false []) h haff).imp ?_
        fun _ _ hf ↦ hf
      rintro _ mid ⟨layout', hmid⟩
      have hrest : ∀ last, base.Proceeds pending layout tree layout' last →
          (LightTree.propagate (LightTree.notify fuel refresh (id :: path)) (.field id)).Meets last
            (fun _ after ↦ ∃ layout', base.Proceeds pending layout tree layout' after)
            fun fault _ ↦ fault ≠ .exhausted := fun last hlast ↦
        hlast.andThen ((ih refresh (id :: path)).propagate hlast.laidOut
          (hid.trans_le hlast.size_le) (hlast.start_eq hid ▸ haff.of_proceeds hlast))
      split
      · exact hrest _ (hmid.trans hmid.laidOut.refresh)
      · exact hrest mid hmid

end Thrifty

end LightTree
