import LightTree.Proofs.Confinement
import LightTree.Proofs.Housing

/-!
# What cascades keep up

A region here is a set of sources that a cascade does not leave: the listeners of what is in it are
in it, and so are the lists and the node around it. An invariant is kept up in a region if it
survives each of the changes that a cascade makes there. Cascades then keep it up whatever they are
asked and however they end, also where links point to what has not been handed out yet. They fail
for reasons of their own only, never because a child has been rejected.
-/

namespace LightTree

open Relation Edit

def Fault.rejectsChild : Fault → Bool
  | .schema (.childRejected ..) => true
  | _ => false

theorem Fault.rejectsChild_of_stopsCascade {fault : Fault} (h : fault.stopsCascade = true) :
    fault.rejectsChild = false := by
  cases fault <;> first | rfl | cases h

namespace Tree

variable {tree after : Tree} {id : FieldId} {home : NodeId × Option FieldId}

/-! ## Seats -/

/-- A field that has been handed out and is kept at `home` as long as it is alive. -/
structure Seated (tree : Tree) (home : NodeId × Option FieldId) (id : FieldId) : Prop where
  issued : id.index < tree.fields.size
  at_home : ∀ place, tree.home? id = some place → place = home

theorem Seated.abides (h : tree.Seated home id) (ha : tree.Abides after) :
    after.Seated home id where
  issued := Nat.lt_of_lt_of_le h.issued ha.fields_size
  at_home place hp := by
    have hl := live_of_home?_eq_some hp
    exact h.at_home place (by rwa [ha.home? (ha.live h.issued hl) hl] at hp)

theorem seated_insertField (tree : Tree) (field : Field) :
    (tree.insertField field).Seated (field.owner, field.container) tree.nextField where
  issued := by
    rw [size_insertField]
    exact Nat.lt_succ_self _
  at_home place hp := by
    rw [home?_insertField] at hp
    exact (Option.some.inj hp).symm

/-- A field that has been handed out and is a linked list of a node as long as it is alive. -/
structure LinkedAt (tree : Tree) (owner : NodeId) (id : FieldId) : Prop where
  issued : id.index < tree.fields.size
  list : ∀ field, tree.field? id = some field →
    field.owner = owner ∧ ∃ template elements, field.value = .list true template elements

theorem LinkedAt.abides {owner : NodeId} (h : tree.LinkedAt owner id) (ha : tree.Abides after) :
    after.LinkedAt owner id where
  issued := Nat.lt_of_lt_of_le h.issued ha.fields_size
  list new hn := by
    obtain ⟨old, ho, hsame⟩ := ha.field id new h.issued hn
    obtain ⟨howner, template, elements, hvalue⟩ := h.list old ho
    have hframe : new.value.frame = .list true template [] := by
      have := congrArg Field.value hsame
      rwa [Field.outline, Field.outline, hvalue] at this
    refine ⟨(congrArg Field.owner hsame).trans howner, ?_⟩
    cases hv : new.value with
    | list linked template elements =>
        rw [hv] at hframe
        cases hframe
        exact ⟨_, _, rfl⟩
    | scalar | choice | gated =>
        rw [hv] at hframe
        cases hframe

/-! ## Regions that cascades do not leave -/

/-- The list around new fields, if there is one, is in a region and has been handed out. -/
def ContainerIn (region : Source → Prop) (container : Option FieldId) (tree : Tree) : Prop :=
  ∀ c, container = some c → region (.field c) ∧ c.index < tree.fields.size

theorem ContainerIn.abides {region : Source → Prop} {container : Option FieldId}
    (h : ContainerIn region container tree) (ha : tree.Abides after) :
    ContainerIn region container after := fun c hc ↦
  ⟨(h c hc).1, Nat.lt_of_lt_of_le (h c hc).2 ha.fields_size⟩

/-- An invariant that survives what a cascade does in a region, which the cascade does not leave. -/
structure Upkeep (region : Source → Prop) (inv : Tree → Prop) : Prop where
  fresh : ∀ {tree}, inv tree → region (.field tree.nextField)
  listener : ∀ {tree x d}, inv tree → region (.field x) → d ∈ tree.listeners x → region (.field d)
  nodeListener : ∀ {tree n d}, inv tree → region (.children n) → d ∈ tree.nodeListeners n →
    region (.field d)
  container : ∀ {tree x c}, inv tree → region (.field x) → tree.container? x = some c →
    region (.field c)
  link : ∀ {tree x s}, inv tree → region (.field x) → tree.link? x = some s → region s
  owner : ∀ {tree x n}, inv tree → region (.field x) → tree.owner? x = some n →
    region (.children n)
  top : ∀ {tree n x}, inv tree → region (.children n) → x ∈ tree.topFields n → region (.field x)
  insertField : ∀ {tree field}, inv tree → field.link = none → field.listeners = [] →
    region (.children field.owner) → ContainerIn region field.container tree →
    (∀ c ∈ field.value.parts,
      region (.field c) ∧ tree.Seated (field.shelter tree.nextField) c) →
    inv (tree.insertField field)
  relink : ∀ {tree d source}, inv tree → tree.Live d → region (.field d) →
    (∀ s, source = some s → region s) → inv (tree.relink d source)
  setActive : ∀ {tree id} active, inv tree → region (.field id) →
    inv (tree.updateField id ({ · with active }))
  push : ∀ {tree id field template elements group}, inv tree → region (.field id) →
    tree.field? id = some field → field.value = .list true template elements →
    (∀ x ∈ group, region (.field x) ∧ tree.Seated (field.owner, some id) x) →
    inv (tree.push id group)
  drop : ∀ {tree id field template elements f group}, inv tree → region (.field id) →
    tree.field? id = some field → field.value = .list true template elements →
    Splits f group field.value → inv (tree.drop id f group)
  refreshed : ∀ {tree}, inv tree → inv tree.refreshed

end Tree

/-- An edit keeps an invariant up and does not fail because a child was rejected. -/
def Edit.Tends {α : Type} (edit : Edit α) (inv : Tree → Prop) (tree : Tree) : Prop :=
  edit.Meets tree (fun _ ↦ inv) fun fault after ↦ fault.rejectsChild = false ∧ inv after

/-- An edit keeps an invariant up and makes a field of the region, at a home of its own. -/
def Edit.Seats (edit : Edit FieldId) (region : Source → Prop) (inv : Tree → Prop)
    (home : NodeId × Option FieldId) (tree : Tree) : Prop :=
  edit.Meets tree (fun id after ↦ inv after ∧ region (.field id) ∧ after.Seated home id)
    fun fault after ↦ fault.rejectsChild = false ∧ inv after

/-- Visits that keep an invariant up in a region and the outlines of all fields. -/
structure Tending (region : Source → Prop) (inv : Tree → Prop) (visit : FieldId → Edit Unit) :
    Prop where
  tends : ∀ id tree, inv tree → region (.field id) → (visit id).Tends inv tree
  abides : ∀ id, (visit id).Respects Tree.Abides

namespace Tree.Upkeep

variable {region : Source → Prop} {inv : Tree → Prop} {tree : Tree} {visit : FieldId → Edit Unit}
  {owner : NodeId} {container : Option FieldId} {id : FieldId}

theorem forM (hv : Tending region inv visit) (ht : inv tree) {ids : List FieldId}
    (hids : ∀ d ∈ ids, region (.field d)) : (ids.forM visit).Tends inv tree := by
  refine meets_forM (fun rest after ↦ inv after ∧ ∀ d ∈ rest, region (.field d)) (fun _ h ↦ h.1) ?_
    ids tree ⟨ht, hids⟩
  rintro d rest mid ⟨hmid, hrest⟩
  refine (hv.tends d mid hmid (hrest d List.mem_cons_self)).imp (fun _ _ ha ↦ ⟨ha, ?_⟩)
    fun _ _ ha ↦ ha
  exact fun x hx ↦ hrest x (List.mem_cons_of_mem d hx)

variable (h : Upkeep region inv)

include h

/-! ## Building fields -/

theorem rebindWith (hv : Tending region inv visit) (ht : inv tree) {dependent : FieldId}
    {source : Source} (hd : region (.field dependent)) (hs : region source) :
    (rebindWith visit dependent source).Tends inv tree := by
  unfold Tends
  rw [meets_rebindWith]
  refine ⟨fun field hf ↦ ⟨fun _ ↦ ⟨rfl, ht⟩, fun _ ↦ ⟨fun fault hr ↦ ?_, fun _ ↦ ?_⟩⟩,
    fun _ ↦ ⟨rfl, ht⟩⟩
  · exact ⟨Fault.rejectsChild_of_stopsCascade (stopsCascade_of_rehearseWithin hr), ht⟩
  have hlinked : inv (tree.relink dependent (some source)) :=
    h.relink ht (live_of_some hf) hd fun s hsome ↦ Option.some.inj hsome ▸ hs
  have hprevious : ∀ s, field.link = some s → region s := by
    intro s hlink
    refine h.link ht hd ?_
    rw [link?, read_of_some hf, hlink]
  refine (hv.tends dependent _ hlinked hd).imp (fun _ _ ha ↦ ha) fun fault after hafter ↦ ?_
  rw [meets_relink]
  exact ⟨fun hl ↦ ⟨hafter.1, h.relink hafter.2 hl hd hprevious⟩, fun _ ↦ ⟨rfl, hafter.2⟩⟩

/-- What holds once a new field is there still holds when it has been wired. -/
theorem wire (hv : Tending region inv visit) {group : List FieldId} {decl : FieldDecl}
    {value : Value}
    (hnew : inv (tree.insertField { name := decl.name, owner, value, container }))
    (hfresh : region (.field tree.nextField)) (howner : region (.children owner))
    (hgroup : ∀ x ∈ group, region (.field x)) :
    (plant visit owner group container decl value).Meets tree
      (fun id after ↦ id = tree.nextField ∧ inv after ∧
        (tree.insertField { name := decl.name, owner, value, container }).Abides after)
      fun fault after ↦ fault.rejectsChild = false ∧ inv after := by
  rw [meets_plant]
  apply (meets_resolve owner group decl).imp
  · rintro source after ⟨rfl, hsource⟩
    refine ⟨fun _ ↦ ⟨rfl, hnew, .refl _⟩, fun s hs ↦ ?_⟩
    have hregion : region s := by
      rcases hsource s hs with rfl | ⟨name, id, _, rfl, hfirst⟩
      · exact howner
      · exact (List.mem_append.1 (List.mem_of_find?_eq_some hfirst)).elim (hgroup id)
          (h.top hnew howner)
    exact ((h.rebindWith hv hnew hfresh hregion).and
      (lasting_abides.toHarmless.rebindWith hv.abides tree.nextField s _)).imp
      (fun _ _ ha ↦ ⟨rfl, ha⟩) fun _ _ ha ↦ ha.1
  · rintro fault after ⟨rfl, name, _, rfl, _⟩
    exact ⟨rfl, hnew⟩

theorem plant (hv : Tending region inv visit) (ht : inv tree) (howner : region (.children owner))
    (hcontainer : ContainerIn region container tree) {group : List FieldId}
    (hgroup : ∀ x ∈ group, region (.field x)) (decl : FieldDecl) {value : Value}
    (hparts : ∀ c ∈ value.parts, region (.field c) ∧ tree.Seated
      (Field.shelter tree.nextField { name := decl.name, owner, value, container }) c) :
    (plant visit owner group container decl value).Seats region inv (owner, container) tree := by
  refine (h.wire hv (h.insertField ht rfl rfl howner hcontainer hparts) (h.fresh ht) howner
    hgroup).imp ?_ fun _ _ ha ↦ ha
  rintro id after ⟨rfl, hafter, habides⟩
  exact ⟨hafter, h.fresh ht, (seated_insertField tree _).abides habides⟩

theorem instantiate (hv : Tending region inv visit) (ht : inv tree)
    (howner : region (.children owner)) (hcontainer : ContainerIn region container tree)
    {group : List FieldId} (hgroup : ∀ x ∈ group, region (.field x)) :
    ∀ decl : FieldDecl,
      (instantiate visit owner group container decl).Seats region inv (owner, container) tree
  | .scalar _ _ =>
    h.plant hv ht howner hcontainer hgroup _ fun _ hc ↦ absurd hc List.not_mem_nil
  | .choice name options => by
    unfold Seats
    rw [meets_instantiate_choice]
    exact ⟨fun _ ↦ ⟨rfl, ht⟩, fun _ ↦
      h.plant hv ht howner hcontainer hgroup _ fun _ hc ↦ absurd hc List.not_mem_nil⟩
  | .list _ _ _ =>
    h.plant hv ht howner hcontainer hgroup _ fun _ hc ↦ absurd hc List.not_mem_nil
  | .gated name source condition inner => by
    unfold Seats
    rw [meets_instantiate_gated]
    refine ((instantiate hv ht howner hcontainer hgroup inner).and
      (lasting_abides.toHarmless.instantiate hv.abides group container inner tree)).imp ?_
      fun _ _ ha ↦ ha.1
    intro id mid ⟨⟨hmid, hid, hseat⟩, habides⟩
    refine h.plant hv hmid howner (hcontainer.abides habides) hgroup _ fun c hc ↦ ?_
    rw [List.mem_singleton.1 hc]
    exact ⟨hid, hseat⟩

theorem instantiateGroup (hv : Tending region inv visit) (ht : inv tree)
    (howner : region (.children owner)) (hcontainer : ContainerIn region container tree)
    {group : List FieldId}
    (hgroup : ∀ x ∈ group, region (.field x) ∧ tree.Seated (owner, container) x)
    (decls : List FieldDecl) :
    (instantiateGroup visit owner container group decls).Meets tree
      (fun all after ↦ inv after ∧
        ∀ x ∈ all, region (.field x) ∧ after.Seated (owner, container) x)
      fun fault after ↦ fault.rejectsChild = false ∧ inv after := by
  induction decls generalizing tree group with
  | nil => exact ⟨ht, hgroup⟩
  | cons decl rest ih =>
      rw [meets_instantiateGroup_cons]
      refine ((h.instantiate hv ht howner hcontainer (fun x hx ↦ (hgroup x hx).1) decl).and
        (lasting_abides.toHarmless.instantiate hv.abides group container decl tree)).imp ?_
        fun _ _ ha ↦ ha.1
      intro id mid ⟨⟨hmid, hid, hseat⟩, habides⟩
      refine ih hmid (hcontainer.abides habides) fun x hx ↦ ?_
      rcases List.mem_append.1 hx with hx | hx
      · exact ⟨(hgroup x hx).1, (hgroup x hx).2.abides habides⟩
      · rw [List.mem_singleton.1 hx]
        exact ⟨hid, hseat⟩

/-! ## Linked lists -/

theorem grow (hv : Tending region inv visit) (ht : inv tree) (howner : region (.children owner))
    (hid : region (.field id)) (hlinked : tree.LinkedAt owner id) (template : List FieldDecl)
    (count : Nat) : (grow visit owner template id count).Tends inv tree := by
  induction count generalizing tree with
  | zero => exact ht
  | succ count ih =>
      unfold Tends
      rw [meets_grow_succ]
      have hcontainer : ContainerIn region (some id) tree := fun c hc ↦
        Option.some.inj hc ▸ ⟨hid, hlinked.issued⟩
      refine ((h.instantiateGroup hv ht howner hcontainer
        (fun x hx ↦ absurd hx List.not_mem_nil) template).and
        (lasting_abides.toHarmless.instantiateGroup hv.abides _ [] template tree)).imp ?_
        fun _ _ ha ↦ ha.1
      intro group mid ⟨⟨hmid, hgroup⟩, habides⟩
      refine ⟨fun hl ↦ ?_, fun _ ↦ ⟨rfl, hmid⟩⟩
      obtain ⟨field, hf⟩ := live_iff.1 hl
      have hmidLinked := hlinked.abides habides
      obtain ⟨rfl, _, _, hvalue⟩ := hmidLinked.list field hf
      exact ih (h.push hmid hid hf hvalue hgroup) (hmidLinked.abides (.mapElements mid id _))

theorem shrink (ht : inv tree) (hid : region (.field id)) (hlinked : tree.LinkedAt owner id)
    (count : Nat) : (shrink id count).Tends inv tree := by
  induction count generalizing tree with
  | zero => exact ht
  | succ count ih =>
      unfold Tends
      rw [meets_shrink_succ]
      refine ⟨fun field hf ↦ ?_, fun _ ↦ ⟨rfl, ht⟩⟩
      obtain ⟨_, _, _, hvalue⟩ := hlinked.list field hf
      exact ih (h.drop ht hid hf hvalue (splits_dropLast field.value))
        (hlinked.abides (.drop tree id _ _))

theorem resize (hv : Tending region inv visit) (ht : inv tree) (howner : region (.children owner))
    (hid : region (.field id)) (hlinked : tree.LinkedAt owner id) (length : Nat) :
    (resize visit id length).Tends inv tree := by
  unfold Tends
  rw [meets_resize]
  refine ⟨fun field hf ↦ ⟨fun _ template elements _ ↦ ?_, fun _ ↦ ⟨rfl, ht⟩⟩, fun _ ↦ ⟨rfl, ht⟩⟩
  obtain ⟨hfield, _⟩ := hlinked.list field hf
  rw [hfield]
  refine ((h.grow hv ht howner hid hlinked template _).and
    (lasting_abides.toHarmless.grow hv.abides template id _ tree)).imp ?_ fun _ _ ha ↦ ha.1
  exact fun _ mid ha ↦ h.shrink ha.1 hid (hlinked.abides ha.2) _

/-! ## Deriving and notifying -/

theorem recompute (hv : Tending region inv visit) (ht : inv tree) (hid : region (.field id)) :
    (recompute visit id).Tends inv tree := by
  unfold Tends
  rw [meets_recompute]
  refine ⟨fun field hf ↦ ⟨fun source condition _ _ _ ↦ h.setActive _ ht hid,
    fun source template elements _ hvalue ↦ ?_, fun _ ↦ ht⟩, fun _ ↦ ⟨rfl, ht⟩⟩
  have howner : region (.children field.owner) :=
    h.owner ht hid (by rw [owner?, read_of_some hf])
  refine h.resize hv ht howner hid ⟨(live_of_some hf).lt_size, fun field' hf' ↦ ?_⟩ _
  rw [hf] at hf'
  cases hf'
  exact ⟨rfl, template, elements, hvalue⟩

theorem spread (hv : Tending region inv visit) (ht : inv tree) {ids : List FieldId}
    (hids : ∀ x ∈ ids, region (.field x)) : (spread visit ids).Tends inv tree := by
  induction ids generalizing tree with
  | nil => exact ht
  | cons x outer ih =>
      unfold Tends
      rw [meets_spread_cons]
      refine ⟨fun _ ↦ ?_, fun _ ↦ ht⟩
      have hx := hids x List.mem_cons_self
      refine (forM hv ht fun d hd ↦ h.listener ht hx hd).imp ?_ fun _ _ ha ↦ ha
      exact fun _ mid hmid ↦ ih hmid fun y hy ↦ hids y (List.mem_cons_of_mem x hy)

theorem propagate (hv : Tending region inv visit) (ht : inv tree) {source : Source}
    (hs : region source) : (propagate visit source).Tends inv tree := by
  unfold Tends
  cases source with
  | children node =>
      rw [meets_propagate_children]
      exact forM hv ht fun d hd ↦ h.nodeListener ht hs hd
  | field id =>
      rw [meets_propagate_field]
      refine h.spread hv ht fun x hx ↦ ?_
      have hreach := reflTransGen_of_mem_chain hx
      clear hx
      induction hreach with
      | refl => exact hs
      | tail _ hc ih => exact h.container ht ih hc

theorem notify (fuel : Nat) :
    ∀ (refresh : Bool) (path : List FieldId), Tending region inv (notify fuel refresh path) := by
  induction fuel with
  | zero => exact fun _ _ ↦ ⟨fun _ _ ht _ ↦ ⟨rfl, ht⟩, lasting_abides.toHarmless.notify 0 _ _⟩
  | succ fuel ih =>
      intro refresh path
      refine ⟨fun id tree ht hid ↦ ?_, lasting_abides.toHarmless.notify _ _ _⟩
      unfold Tends
      rw [meets_notify_succ]
      refine ⟨fun field _ ↦ ⟨fun fault hg ↦ ?_, fun _ ↦ ?_⟩, fun _ ↦ ht⟩
      · exact ⟨Fault.rejectsChild_of_stopsCascade (stopsCascade_of_guard hg), ht⟩
      refine (h.recompute (ih false []) ht hid).imp (fun _ mid hmid ↦ ?_) fun _ _ ha ↦ ha
      split
      · exact h.propagate (ih refresh (id :: path)) (h.refreshed hmid) hid
      · exact h.propagate (ih refresh (id :: path)) hmid hid

theorem enter (refresh : Bool) : Tending region inv (enter refresh) where
  tends id tree ht hid := by
    unfold Tends
    rw [LightTree.enter, meets_bind, meets_get]
    exact (h.notify _ refresh []).tends id tree ht hid
  abides := lasting_abides.toHarmless.enter refresh

/-! ## Settling -/

theorem settleQuietly (ht : inv tree) {source : Source} (hs : region source) :
    (settleQuietly source).Tends inv tree :=
  h.propagate (h.enter false) ht hs

theorem settle (ht : inv tree) {source : Source} (hs : region source) :
    (settle source).Tends inv tree := by
  unfold Tends
  rw [meets_settle]
  exact (h.propagate (h.enter true) ht hs).imp (fun _ _ ha ↦ h.refreshed ha)
    fun _ _ ha ↦ ⟨ha.1, h.refreshed ha.2⟩

end Tree.Upkeep

end LightTree
