import LightTree.Proofs.Determined
import LightTree.Proofs.Refusals

/-!
# Changes of values commute and overwrite

Whether a value is stored depends on what a rehearsal looks at and on the field that is addressed.
No other change of a value alters either, and what gates make of the values that are stored does not
depend on the order in which they came.
-/

namespace LightTree

open Edit

/-! ## Mutators -/

/-- What a user may set the value of a field to, by mutator. -/
inductive Setter
  | integer (n : Int64)
  | boolean (b : Bool)
  | choice (value : String)
  | text (value : String)
  | color (value : String)

namespace Setter

def kind : Setter → FieldKind
  | integer _ => .integer
  | boolean _ => .boolean
  | choice _ => .choice
  | text _ => .text
  | color _ => .color

def change : Setter → Field → Except Fault Value
  | integer n => (·.setInteger n)
  | boolean b => (·.setBoolean b)
  | choice value => (·.choose value)
  | text value => (·.setText value)
  | color value => (·.setColor value)

def on (id : FieldId) : Setter → Operation
  | integer n => .setInteger id n
  | boolean b => .setBoolean id b
  | choice value => .choose id value
  | text value => .setText id value
  | color value => .setColor id value

variable {first second setter : Setter} {id : FieldId}

theorem edit_on (setter : Setter) (id : FieldId) :
    (setter.on id).edit = do mutate id setter.change; return .done := by
  cases setter <;> rfl

theorem leafy_change (setter : Setter) : Leafy setter.change :=
  match setter with
  | integer n => leafy_setInteger n
  | boolean b => leafy_setBoolean b
  | choice value => leafy_choose value
  | text value => leafy_setText value
  | color value => leafy_setColor value

theorem change_active (setter : Setter) (field : Field) (active : Bool) :
    setter.change { field with active } = setter.change field := by
  cases setter <;> rfl

/-- A mutator takes and gives the same with any value that it has stored before. -/
theorem change_stored (hkind : first.kind = second.kind) {field : Field} {value : Value}
    (h : first.change field = .ok value) :
    second.change { field with value } = second.change field := by
  cases first with
  | integer n =>
      cases second with
      | integer m =>
          simp only [change, Field.setInteger] at h ⊢
          split at h <;> cases h <;> simp_all
      | boolean | choice | text | color => cases hkind
  | boolean b =>
      cases second with
      | boolean c =>
          simp only [change, Field.setBoolean] at h ⊢
          split at h <;> cases h
          simp_all
      | integer | choice | text | color => cases hkind
  | choice option =>
      cases second with
      | choice other =>
          simp only [change, Field.choose] at h ⊢
          split at h
          · split at h <;> cases h
            simp_all
          · cases h
      | integer | boolean | text | color => cases hkind
  | text text =>
      cases second with
      | text other =>
          simp only [change, Field.setText] at h ⊢
          split at h
          · cases h
          · split at h <;> cases h
            simp_all
      | integer | boolean | choice | color => cases hkind
  | color text =>
      cases second with
      | color other =>
          simp only [change, Field.setColor] at h ⊢
          split at h
          · split at h <;> cases h
            simp_all
          · cases h
      | integer | boolean | choice | text => cases hkind

end Setter

/-! ## What a rehearsal looks at -/

/-- A field without its value and its activity. -/
def Field.husk (field : Field) : Field :=
  { field with value := .scalar (.boolean false), active := true }

namespace Tree

variable {base tree mid after last : Tree} {a b id : FieldId} {first second setter : Setter}
  {field : Field} {value : Value}

/-- The fields of the two trees differ at most in their activity and in values that wrap nothing. -/
structure Alike (tree after : Tree) : Prop where
  fields_size : after.fields.size = tree.fields.size
  settings : after.settings = tree.settings
  inner? : after.inner? = tree.inner?
  husk : ∀ id, (after.field? id).map Field.husk = (tree.field? id).map Field.husk

namespace Alike

theorem trans (h : tree.Alike mid) (h' : mid.Alike after) : tree.Alike after where
  fields_size := h'.fields_size.trans h.fields_size
  settings := h'.settings.trans h.settings
  inner? := h'.inner?.trans h.inner?
  husk id := (h'.husk id).trans (h.husk id)

variable {α : Type}

theorem read (h : tree.Alike after) {part : Field → α}
    (hpart : ∀ field, part field.husk = part field)
    (default : α) : after.read part default = tree.read part default := by
  funext id
  have hid := h.husk id
  rw [Tree.read, Tree.read]
  cases ha : after.field? id <;> cases ht : tree.field? id <;>
    simp only [ha, ht, Option.map_none, Option.map_some, Option.some.injEq, reduceCtorEq] at hid
  · rfl
  · rw [Option.elim_some, Option.elim_some, ← hpart, hid, hpart]

theorem unwrap (h : tree.Alike after) (id : FieldId) : after.unwrap id = tree.unwrap id := by
  simp only [Tree.unwrap, layers, h.inner?, h.fields_size]

theorem listeners (h : tree.Alike after) : after.listeners = tree.listeners := by
  rw [listeners_eq_read, listeners_eq_read]
  exact h.read (fun _ ↦ rfl) []

theorem container? (h : tree.Alike after) : after.container? = tree.container? := by
  rw [container?_eq_read, container?_eq_read]
  exact h.read (fun _ ↦ rfl) none

theorem enclosing (h : tree.Alike after) (id : FieldId) :
    after.enclosing id = tree.enclosing id := by
  rw [Tree.enclosing, Tree.enclosing, h.container?, h.fields_size]

theorem audience (h : tree.Alike after) (id : FieldId) :
    after.audience (.field id) = tree.audience (.field id) := by
  rw [Tree.audience, Tree.audience, h.enclosing, h.listeners]

theorem rehearseWithin (h : tree.Alike after) (fuel : Nat) (path : List FieldId) (id : FieldId) :
    after.rehearseWithin fuel path id = tree.rehearseWithin fuel path id := by
  induction fuel generalizing path id with
  | zero => rfl
  | succ fuel ih =>
      have hid := h.husk id
      have hvisit : after.rehearseWithin fuel (id :: path) =
          tree.rehearseWithin fuel (id :: path) :=
        funext (ih (id :: path))
      rw [Tree.rehearseWithin, Tree.rehearseWithin, hvisit, h.audience]
      cases ha : after.field? id <;> cases ht : tree.field? id <;>
        simp only [ha, ht, Option.map_none, Option.map_some, Option.some.injEq, reduceCtorEq] at hid
      · rfl
      · next new old =>
          have hname : new.name = old.name := by
            show new.husk.name = old.husk.name
            rw [hid]
          simp only [guard, hname, h.settings]

/-- Lists keep the length of their sources where no list is changed. -/
theorem fitted (h : tree.Alike after) (hnode : after.node? = tree.node?)
    (hlinked : after.isLinked = tree.isLinked) (helements : after.elements = tree.elements)
    (hfit : tree.Fitted) : after.Fitted := by
  intro id source hid hsource hlive
  rw [hlinked] at hid
  rw [show after.link? = tree.link? from h.read (fun _ ↦ rfl) none] at hsource
  rw [helements]
  cases source with
  | children node =>
      rw [SourceLive, LiveNode, hnode] at hlive
      rw [hfit id _ hid hsource hlive, sourceLength, sourceLength, children, children, hnode]
  | field s =>
      have hlive : tree.Live s := by
        have hs := congrArg Option.isSome (h.husk s)
        rw [Option.isSome_map, Option.isSome_map] at hs
        exact hs.symm.trans hlive
      rw [hfit id _ hid hsource hlive, sourceLength, sourceLength, listLength_eq, listLength_eq,
        helements, h.unwrap]

theorem rehearse (h : tree.Alike after) (id : FieldId) :
    after.rehearse (.field id) = tree.rehearse (.field id) := by
  have hentry : after.rehearseEntry = tree.rehearseEntry := by
    funext x
    rw [rehearseEntry, rehearseEntry, h.fields_size, h.rehearseWithin]
  rw [Tree.rehearse, Tree.rehearse, h.audience, hentry]

end Alike

/-! ## Whether a value is stored -/

def store (tree : Tree) (id : FieldId) (value : Value) : Tree :=
  tree.updateField (tree.unwrap id) ({ · with value })

/-- The value that a change stores, or the fault that refuses it. -/
def verdict (tree : Tree) (id : FieldId) (change : Field → Except Fault Value) :
    Except Fault Value := do
  tree.rehearse (.field (tree.unwrap id))
  match tree.field? (tree.unwrap id) with
  | some field => change field
  | none => .error (.unknownField (tree.unwrap id))

theorem verdict_congr (h : tree.Alike after) {change change' : Field → Except Fault Value}
    (hfield : ∀ field new, tree.field? (tree.unwrap id) = some field →
      after.field? (tree.unwrap id) = some new → change' new = change field) :
    after.verdict id change' = tree.verdict id change := by
  have hhusk := h.husk (tree.unwrap id)
  rw [verdict, verdict, h.unwrap, h.rehearse]
  cases ha : after.field? (tree.unwrap id) <;> cases ht : tree.field? (tree.unwrap id) <;>
    simp only [ha, ht, Option.map_none, Option.map_some, reduceCtorEq] at hhusk
  · rfl
  · next new old => simp only [hfield old new ht ha]

/-- Where only gates flicker, a rehearsal sees no difference. -/
theorem Flickers.alike (h : base.Flickers after) (hsize : after.fields.size = base.fields.size)
    (hsettings : after.settings = base.settings) : base.Alike after where
  fields_size := hsize
  settings := hsettings
  inner? := h.inner?_eq
  husk id := by
    rcases h.field id with heq | ⟨_, active, heq⟩
    · rw [heq]
    · rw [heq, Option.map_map]
      rfl

/-- What the cascade after a stored value leaves: a settled tree where nothing but gates differs
from the tree in which the value was stored. -/
structure Resettles (tree base after : Tree) : Prop where
  settled : after.Settled
  tenured : after.Tenured
  alike : tree.Alike after
  flickers : base.Flickers after

section

variable (hf : tree.field? (tree.unwrap id) = some field) (hold : field.value.IsLeaf)
  (hnew : value.IsLeaf)

include hf hold hnew

theorem Alike.store : tree.Alike (tree.store id value) where
  fields_size := size_updateField tree _ _
  settings := rfl
  inner? := by
    rw [Tree.store, updateField_value hf hold]
    exact inner?_updateField (retouches_replaceLeaf hnew).inner? _
  husk x := by
    rw [Tree.store, field?_updateField]
    split
    · rw [Option.map_map]
      rfl
    · rfl

/-- No list changes its length with a value, nor does any source. -/
theorem Fitted.store (h : tree.Fitted) : (tree.store id value).Fitted := by
  refine (Alike.store hf hold hnew).fitted rfl ?_ ?_ h
  · rw [Tree.store, updateField_value hf hold]
    refine read_updateField_of_keeps (fun field ↦ ?_) _ _
    exact Value.isLinked_replaceLeaf hnew field.value
  · rw [Tree.store, updateField_value hf hold]
    refine read_updateField_of_keeps (fun field ↦ ?_) _ _
    rw [Value.elements?_replaceLeaf hnew]

/-- A rehearsed cascade of a stored value ends well, and what gates make of the value is all that it
changes. -/
theorem Settled.settle_store (h : tree.Settled) (ht : tree.Tenured)
    (hr : tree.rehearse (.field (tree.unwrap id)) = .ok ()) :
    (settle (.field (tree.unwrap id))).Meets (tree.store id value)
      (fun _ ↦ tree.Resettles (tree.store id value)) fun _ _ ↦ False := by
  have hs : (tree.store id value).Sound := h.sound.setValue hf hold hnew
  have hfit := Fitted.store hf hold hnew h.fitted
  have hbegin : tree.Begins (·.index < tree.fields.size) (tree.store id value)
      (.field (tree.unwrap id)) := (live_of_some hf).lt_size
  have hcalm := h.sound.rehearses_calm.settle hbegin hr (h.calm_setValue ht hf hold hnew)
  have hsettled := (h.setValue hf hold hnew).settle
  have htenured := (settle_lodges (.field (tree.unwrap id))).keepsTenured _
    (ht.of_upholds (ht.setValue hf hold hnew))
  have hstays := hs.settle_stays (.field (tree.unwrap id))
  have hsprouts := Sprouting.settle hs hfit.short (.field (tree.unwrap id)) _ (.refl _)
  refine ((hcalm.and hsettled).and ((htenured.and hstays).and hsprouts)).imp ?_
    fun _ _ hbad ↦ hbad.1.1
  rintro _ after ⟨⟨hcalm, hsettled⟩, ⟨htenured, hleads⟩, hsprouts⟩
  have hnodes := (hleads.framed hs.governs).nodes
  have hflickers := hsprouts.flickers hs hfit htenured hsettled.fitted fun node ↦
    (hnodes.liveNode node).1
  exact ⟨hsettled, htenured, (Alike.store hf hold hnew).trans
    (hflickers.alike (hcalm.thins.size_eq.trans (size_updateField ..).symm)
      hcalm.thins.settings), hflickers⟩

end

/-! ## Performing a mutation -/

theorem meets_mutate_iff {change : Field → Except Fault Value} {good : Unit → Tree → Prop}
    {bad : Fault → Tree → Prop} :
    (mutate id change).Meets tree good bad ↔
      (∀ fault, tree.verdict id change = .error fault → bad fault tree) ∧
      ∀ value, tree.verdict id change = .ok value →
        (settle (.field (tree.unwrap id))).Meets (tree.store id value) good bad := by
  unfold mutate verdict
  simp only [meets_bind, meets_target, meets_check, meets_setValue]
  cases hr : tree.rehearse (.field (tree.unwrap id)) with
  | error fault => simp [bind, Except.bind]
  | ok =>
      cases hf : tree.field? (tree.unwrap id) with
      | none => simp [bind, Except.bind]
      | some field => simp [bind, Except.bind, store, and_comm]

theorem verdict_eq_ok {change : Field → Except Fault Value}
    (h : tree.verdict id change = .ok value) :
    tree.rehearse (.field (tree.unwrap id)) = .ok () ∧
      ∃ field, tree.field? (tree.unwrap id) = some field ∧ change field = .ok value := by
  unfold verdict at h
  cases hr : tree.rehearse (.field (tree.unwrap id)) with
  | error fault => simp [hr, bind, Except.bind] at h
  | ok =>
      cases hf : tree.field? (tree.unwrap id) with
      | none => simp [hr, hf, bind, Except.bind] at h
      | some field => exact ⟨rfl, field, rfl, by simpa [hr, hf, bind, Except.bind] using h⟩

theorem Settled.mutate_meets (h : tree.Settled) (ht : tree.Tenured) (setter : Setter)
    (id : FieldId) :
    (setter.on id).edit.Meets tree
      (fun answer after ↦ answer = .done ∧ ∃ value, tree.verdict id setter.change = .ok value ∧
        tree.Resettles (tree.store id value) after)
      fun fault after ↦ tree.verdict id setter.change = .error fault ∧ after = tree := by
  rw [Setter.edit_on, meets_bind, meets_mutate_iff]
  refine ⟨fun fault hv ↦ ⟨hv, rfl⟩, fun value hv ↦ ?_⟩
  obtain ⟨hr, field, hf, hchange⟩ := verdict_eq_ok hv
  obtain ⟨hold, hnew⟩ := setter.leafy_change field value hchange
  exact (h.settle_store hf hold hnew ht hr).imp (fun _ _ ha ↦ ⟨rfl, value, hv, ha⟩)
    fun _ _ hbad ↦ hbad.elim

/-- A mutation that is refused changes nothing. -/
theorem Settled.perform_refused (h : tree.Settled) (ht : tree.Tenured) {fault : Fault}
    (hv : tree.verdict id setter.change = .error fault) :
    tree.perform (setter.on id) = (.error fault, tree) := by
  obtain ⟨hok, hbad⟩ := meets_iff.1 (h.mutate_meets ht setter id)
  rcases hp : tree.perform (setter.on id) with ⟨fault' | answer, after⟩
  · obtain ⟨hv', rfl⟩ := hbad fault' after hp
    cases hv.symm.trans hv'
    rfl
  · obtain ⟨_, _, hv', _⟩ := hok answer after hp
    cases hv.symm.trans hv'

/-- A mutation that is not refused stores its value, and the cascade ends well. -/
theorem Settled.perform_stored (h : tree.Settled) (ht : tree.Tenured)
    (hv : tree.verdict id setter.change = .ok value) :
    ∃ after, tree.perform (setter.on id) = (.ok .done, after) ∧
      tree.Resettles (tree.store id value) after := by
  obtain ⟨hok, hbad⟩ := meets_iff.1 (h.mutate_meets ht setter id)
  rcases hp : tree.perform (setter.on id) with ⟨fault | answer, after⟩
  · cases hv.symm.trans (hbad fault after hp).1
  · obtain ⟨rfl, _, hv', hafter⟩ := hok answer after hp
    cases hv.symm.trans hv'
    exact ⟨after, rfl, hafter⟩

/-! ## Two mutations -/

/-- What a stored value leaves of another field is that field, on or off. -/
theorem Resettles.exists_active (h : tree.Resettles (tree.store a value) after)
    (hne : tree.unwrap a ≠ id) (hf : tree.field? id = some field) :
    ∃ active, after.field? id = some { field with active } :=
  h.flickers.exists_active (by rw [store, field?_updateField, if_neg hne, hf])

theorem Resettles.verdict_of_ne (h : tree.Resettles (tree.store a value) after)
    (hne : tree.unwrap a ≠ tree.unwrap b) (setter : Setter) :
    after.verdict b setter.change = tree.verdict b setter.change := by
  refine verdict_congr h.alike fun field new hf hn ↦ ?_
  obtain ⟨active, heq⟩ := h.exists_active hne hf
  rw [heq, Option.some.injEq] at hn
  rw [← hn, setter.change_active]

theorem Resettles.verdict_of_eq (h : tree.Resettles (tree.store a value) after)
    (heq : tree.unwrap b = tree.unwrap a) (hkind : first.kind = second.kind)
    (hv : tree.verdict a first.change = .ok value) :
    after.verdict b second.change = tree.verdict b second.change := by
  refine verdict_congr h.alike fun field new hf hn ↦ ?_
  obtain ⟨_, field', hf', hchange⟩ := verdict_eq_ok hv
  rw [heq] at hf hn
  cases Option.some.inj (hf.symm.trans hf')
  have hstored : (tree.store a value).field? (tree.unwrap a) = some { field with value } := by
    simp [store, field?_updateField, hf]
  obtain ⟨active, hactive⟩ := h.flickers.exists_active hstored
  rw [hactive, Option.some.injEq] at hn
  rw [← hn, second.change_active { field with value } active, Setter.change_stored hkind hchange]

/-- A second mutation stores its value over what the first one has stored. -/
theorem Resettles.andThen (ht : tree.Ordered) (h : tree.Resettles base mid)
    (h' : mid.Resettles (mid.store b value) after) :
    (base.updateField (tree.unwrap b) ({ · with value })).Flickers after := by
  have hinner : base.inner? (tree.unwrap b) = none := by
    rw [← h.flickers.inner?_eq, h.alike.inner?]
    exact inner?_unwrap ht b
  rw [← h.alike.unwrap] at hinner ⊢
  have hboth : (base.updateField (mid.unwrap b) ({ · with value })).Flickers (mid.store b value) :=
    h.flickers.updateField hinner fun _ ↦ rfl
  exact hboth.trans h'.flickers

/-- Mutations of two fields have the same answers and leave the same in either order. -/
theorem Settled.mutations_commute (h : tree.Settled) (ht : tree.Tenured)
    (hne : tree.unwrap a ≠ tree.unwrap b) (first second : Setter) :
    (tree.run [first.on a, second.on b]).1 = (tree.run [second.on b, first.on a]).1.reverse ∧
      (tree.run [first.on a, second.on b]).2.node? =
        (tree.run [second.on b, first.on a]).2.node? ∧
      (tree.run [first.on a, second.on b]).2.field? =
        (tree.run [second.on b, first.on a]).2.field? := by
  cases hv : tree.verdict a first.change with
  | error fault =>
      have hp := h.perform_refused ht hv
      cases hv' : tree.verdict b second.change with
      | error fault' => simp [hp, h.perform_refused ht hv']
      | ok value' =>
          obtain ⟨mid', hp', hmid'⟩ := h.perform_stored ht hv'
          rw [← hmid'.verdict_of_ne hne.symm] at hv
          simp [hp, hp', hmid'.settled.perform_refused hmid'.tenured hv]
  | ok value =>
      obtain ⟨mid, hp, hmid⟩ := h.perform_stored ht hv
      cases hv' : tree.verdict b second.change with
      | error fault' =>
          have hp' := h.perform_refused ht hv'
          rw [← hmid.verdict_of_ne hne] at hv'
          simp [hp, hp', hmid.settled.perform_refused hmid.tenured hv']
      | ok value' =>
          obtain ⟨mid', hp', hmid'⟩ := h.perform_stored ht hv'
          rw [← hmid'.verdict_of_ne hne.symm] at hv
          rw [← hmid.verdict_of_ne hne] at hv'
          obtain ⟨after, hlast, hafter⟩ := hmid.settled.perform_stored hmid.tenured hv'
          obtain ⟨after', hlast', hafter'⟩ := hmid'.settled.perform_stored hmid'.tenured hv
          have hflickers := hmid.andThen h.sound.ordered hafter
          have hflickers' := hmid'.andThen h.sound.ordered hafter'
          have hstores : ((tree.store a value).updateField (tree.unwrap b)
                ({ · with value := value' })).field? =
              ((tree.store b value').updateField (tree.unwrap a) ({ · with value })).field? := by
            funext x
            simp only [store, field?_updateField]
            split <;> split <;> first | rfl | skip
            next hb ha => exact absurd (ha.trans hb.symm) hne
          have hunique := hflickers'.unique (hflickers.congr rfl hstores.symm) hafter'.settled
            hafter.settled
          simpa [hp, hp', hlast, hlast'] using hunique

/-- A second mutation by the same mutator leaves what it would have left alone. -/
theorem Settled.mutation_overwrites (h : tree.Settled) (ht : tree.Tenured)
    (hkind : first.kind = second.kind) (heq : tree.unwrap b = tree.unwrap a)
    (hok : ∀ answer ∈ (tree.run [first.on a, second.on b]).1, ∃ a, answer = .ok a) :
    (tree.run [second.on b]).1 = [.ok .done] ∧
      (tree.run [first.on a, second.on b]).2.node? = (tree.run [second.on b]).2.node? ∧
      (tree.run [first.on a, second.on b]).2.field? = (tree.run [second.on b]).2.field? := by
  cases hv : tree.verdict a first.change with
  | error fault => simp [h.perform_refused ht hv] at hok
  | ok value =>
      obtain ⟨mid, hp, hmid⟩ := h.perform_stored ht hv
      cases hv' : mid.verdict b second.change with
      | error fault => simp [hp, hmid.settled.perform_refused hmid.tenured hv'] at hok
      | ok value' =>
          obtain ⟨after, hlast, hafter⟩ := hmid.settled.perform_stored hmid.tenured hv'
          rw [hmid.verdict_of_eq heq hkind hv] at hv'
          obtain ⟨alone, halone, hresettles⟩ := h.perform_stored ht hv'
          have hstores : (tree.store b value').field? = ((tree.store a value).updateField
              (tree.unwrap b) ({ · with value := value' })).field? := by
            funext x
            simp only [store, field?_updateField, heq]
            split
            · rw [Option.map_map]
              rfl
            · rfl
          have hflickers : (tree.store b value').Flickers after :=
            (hmid.andThen h.sound.ordered hafter).congr rfl hstores
          have hunique := hresettles.flickers.unique hflickers hresettles.settled hafter.settled
          simpa [hp, hlast, halone] using hunique

/-- After a history without faults, mutations of two fields have the same answers and leave the same
nodes and fields in either order, whether they are refused or not. Of two successful mutations of
one field by one mutator, the second one leaves what it would have left alone. -/
theorem mutations_run {catalog : Catalog} {settings : Settings} {tree : Tree}
    {operations : List Operation} (hstart : start catalog settings = .ok tree)
    (hlive : tree.RebindsLive operations)
    (hok : ∀ answer ∈ (tree.run operations).1, ∃ a, answer = .ok a) {final : Tree}
    (hfinal : (tree.run operations).2 = final) (first second : Setter) (a b : FieldId) :
    (final.unwrap a ≠ final.unwrap b →
      (final.run [first.on a, second.on b]).1 = (final.run [second.on b, first.on a]).1.reverse ∧
      (final.run [first.on a, second.on b]).2.node? =
        (final.run [second.on b, first.on a]).2.node? ∧
      (final.run [first.on a, second.on b]).2.field? =
        (final.run [second.on b, first.on a]).2.field?) ∧
    (first.kind = second.kind → final.unwrap a = final.unwrap b →
      (∀ answer ∈ (final.run [first.on a, second.on b]).1, ∃ a, answer = .ok a) →
      (final.run [second.on b]).1 = [.ok .done] ∧
      (final.run [first.on a, second.on b]).2.node? = (final.run [second.on b]).2.node? ∧
      (final.run [first.on a, second.on b]).2.field? = (final.run [second.on b]).2.field?) := by
  subst hfinal
  have h := (settled_start hstart).run hlive hok
  have ht := (tenured_start hstart).run hlive hok
  exact ⟨fun hne ↦ h.mutations_commute ht hne first second,
    fun hkind heq ↦ h.mutation_overwrites ht hkind heq.symm⟩

/-- The choice that an object is defined by colours turns the gate of its length off. The length may
be set before or after, and the choice may be taken back. -/
theorem mutations_run_standard :
    let final := (standardTree.run [.addByCategory ⟨0⟩ .object]).2
    final.unwrap ⟨2⟩ ≠ final.unwrap ⟨4⟩ ∧
      (final.run [.choose ⟨2⟩ "c", .setInteger ⟨4⟩ 5]).2.field? =
        (final.run [.setInteger ⟨4⟩ 5, .choose ⟨2⟩ "c"]).2.field? ∧
      (final.run [.choose ⟨2⟩ "c", .choose ⟨2⟩ "l"]).2.field? =
        (final.run [.choose ⟨2⟩ "l"]).2.field? := by
  intro final
  have hlive : standardTree.RebindsLive [.addByCategory ⟨0⟩ .object] := ⟨trivial, trivial⟩
  have hanswers : (standardTree.run [.addByCategory ⟨0⟩ .object]).1 =
      [.ok (.outcome .applied)] := by
    decide +kernel
  have hok : ∀ answer ∈ (standardTree.run [.addByCategory ⟨0⟩ .object]).1, ∃ a, answer = .ok a := by
    rw [hanswers]
    simp
  have hne : final.unwrap ⟨2⟩ ≠ final.unwrap ⟨4⟩ := by
    decide +kernel
  have hboth : (final.run [.choose ⟨2⟩ "c", .choose ⟨2⟩ "l"]).1 = [.ok .done, .ok .done] := by
    decide +kernel
  have hdone : ∀ answer ∈ (final.run [.choose ⟨2⟩ "c", .choose ⟨2⟩ "l"]).1,
      ∃ a, answer = .ok a := by
    rw [hboth]
    simp
  obtain ⟨hcommute, -⟩ :=
    mutations_run start_standard hlive hok rfl (.choice "c") (.integer 5) ⟨2⟩ ⟨4⟩
  obtain ⟨-, hoverwrite⟩ :=
    mutations_run start_standard hlive hok rfl (.choice "c") (.choice "l") ⟨2⟩ ⟨2⟩
  exact ⟨hne, (hcommute hne).2.2, (hoverwrite rfl rfl hdone).2.2⟩

end Tree

end LightTree
