import LightTree.Proofs.Naming
import LightTree.Proofs.Steadfast
import LightTree.Proofs.Withdrawal

/-!
# What a failed operation leaves behind

Where elements of lists are plain and a cascade may be one field long, the fields of a new node can
always be built: each depends on a field before it and nothing depends on it yet. So creation fails
only between fields, when all that was built belongs to a node, and what belongs to a new node goes
with it. Where no cascade may run at all the first gate fails, and the field inside it is left
behind.
-/

namespace LightTree

open Relation Edit

/-- Whether an operation builds fields. -/
def Operation.builds : Operation → Bool
  | .create .. | .addByCategory .. | .retype .. | .appendElement .. => true
  | _ => false

theorem Operation.namesIssued_of_builds {operation : Operation} (h : operation.builds = true)
    (tree : Tree) : operation.NamesIssued tree := by
  cases operation with
  | rebind => cases h
  | _ => trivial

/-- An edit of a tree fails only if the same nodes are alive as before and what was there before is
untouched. -/
def Edit.FailsWithdrawn {α : Type} (edit : Edit α) (tree : Tree) : Prop :=
  edit.Meets tree (fun _ _ ↦ True) fun _ ↦ tree.Withdrawn

theorem FieldDecl.mem_of_check {outer declared : List String} {decl : FieldDecl}
    (h : decl.check outer declared = .ok ()) {source : String}
    (hs : decl.dependency? = some source) : source ∈ outer ++ declared := by
  cases decl with
  | scalar | choice => cases hs
  | list => exact mem_of_checkSource (check_list h).1 hs
  | gated => exact mem_of_checkSource (check_gated h).1 hs

namespace Tree

variable {tree mid after : Tree} {id : FieldId} {field : Field}

/-! ## Wiring a new field -/

section

variable (hlisteners : field.listeners = []) (hcontainer : field.container = none)

include hlisteners hcontainer

theorem eq_nextField_of_reach {x : FieldId}
    (h : ReflTransGen (tree.insertField field).Feeds tree.nextField x) : x = tree.nextField := by
  induction h with
  | refl => rfl
  | tail _ hstep ih =>
      rcases feeds_insertField hlisteners hstep with hfeeds | ⟨_, hsome⟩
      · exact absurd (ih ▸ live_of_feeds hfeeds) (not_live_nextField tree)
      · exact absurd (hcontainer.symm.trans hsome) nofun

theorem closesCycle_nextField (h : (tree.insertField field).Ordered) {source : Source}
    (hissued : tree.Issued source) :
    (tree.insertField field).closesCycle tree.nextField source = false := by
  cases source with
  | children node => rfl
  | field id =>
      rw [Bool.eq_false_iff]
      intro hc
      obtain ⟨x, hx, hreach⟩ := closesCycle_field.1 hc
      have hle := h.le_of_wraps ((mem_layers_iff h.innerOlder).1 hx)
      rw [eq_nextField_of_reach hlisteners hcontainer hreach] at hle
      exact Nat.not_lt_of_le hle hissued

theorem rehearseEntry_nextField (hdepth : 0 < tree.settings.maxDepth) :
    (tree.insertField field).rehearseEntry tree.nextField = .ok () := by
  have hfield := tree.field?_insertField_self field
  have haudience : (tree.insertField field).audience (.field tree.nextField) = [] := by
    have hnone : (tree.insertField field).container? tree.nextField = none := by
      rw [container?, hfield, Option.bind_some, hcontainer]
    rw [audience, enclosing, chain_of_none hnone, List.flatMap_singleton, listeners, hfield]
    exact hlisteners
  have hguard : (tree.insertField field).guard [] tree.nextField field = .ok () := by
    rw [guard, if_neg List.not_mem_nil, if_neg]
    exact Nat.not_le_of_lt hdepth
  rw [rehearseEntry, rehearseWithin, hfield]
  simp only [hguard, haudience]
  rfl

/-- A new field outside lists can be linked to what is older. -/
theorem Plain.links_nextField (h : (tree.insertField field).Plain)
    (hdepth : 0 < tree.settings.maxDepth) {source : Source} (hissued : tree.Issued source) :
    (rebindWith (enter false) tree.nextField source).Meets (tree.insertField field)
      (fun _ _ ↦ True) fun _ _ ↦ False := by
  have hlive : (tree.insertField field).Live tree.nextField :=
    (live_insertField tree field _).2 (.inl rfl)
  have hold : (tree.insertField field).Issued source :=
    hissued.mono (Nat.le_of_lt (by simp)) (Nat.le_refl _)
  have hc := closesCycle_nextField hlisteners hcontainer h.sound.ordered hissued
  have hr := rehearseEntry_nextField hlisteners hcontainer hdepth
  rw [meets_rebindWith]
  refine ⟨fun old _ ↦ ⟨fun hcycle ↦ ?_, fun _ ↦ ⟨fun fault herror ↦ ?_, fun _ ↦ ?_⟩⟩,
    fun hnone ↦ ?_⟩
  · rw [hc] at hcycle
    cases hcycle
  · rw [hr] at herror
    cases herror
  · exact (h.enter_relink hlive hold hc hr).imp (fun _ _ _ ↦ trivial) fun _ _ hfalse ↦ hfalse.elim
  · exact not_live_iff.2 hnone hlive

end

/-! ## Building the fields of a node -/

/-- A cascade may be one field long, and a node knows the names that have been declared. -/
structure Primed (tree : Tree) (node : NodeId) (declared : List String) : Prop where
  depth : 0 < tree.settings.maxDepth
  knows : ∀ name ∈ declared, tree.Knows node name

variable {node : NodeId} {declared : List String}

theorem Primed.step (h : tree.Primed node declared) (hn : tree.SameNodes after)
    (hab : tree.Abides after) (ha : after.Sound) : after.Primed node declared := by
  constructor
  · rw [hn.settings]
    exact h.depth
  · intro name hname
    refine hab.finds (h.knows name hname) fun x hx _ ↦ ?_
    rw [hn.topFields]
    exact ⟨hx, ha.owned.tops_live node x (hn.topFields ▸ hx)⟩

theorem Primed.addTop (h : tree.Primed node declared) (hnode : tree.LiveNode node) {name : String}
    (hname : tree.name? id = some name) :
    (tree.addTop node id).Primed node (declared ++ [name]) := by
  constructor
  · exact h.depth
  · intro known hmem
    rw [Knows, topFields_addTop tree hnode, if_pos rfl]
    rcases List.mem_append.1 hmem with hold | hnew
    · obtain ⟨x, hx, hxn⟩ := h.knows known hold
      exact ⟨x, List.mem_append_left _ hx, hxn⟩
    · rw [List.mem_singleton.1 hnew]
      exact ⟨id, List.mem_append_right _ (List.mem_singleton.2 rfl), hname⟩

/-- A new field of a node can be wired if the node knows what it depends on. -/
theorem Plain.plant_primed (h : tree.Plain) (hp : tree.Primed node declared) {value : Value}
    (hr : tree.Ready node none value) {decl : FieldDecl}
    (hdependency : ∀ source, decl.dependency? = some source → source ∈ declared) :
    (plant (enter false) node [] none decl value).Meets tree (fun _ _ ↦ True) fun _ _ ↦ False := by
  rw [meets_plant]
  set field : Field := { name := decl.name, owner := node, value, container := none } with hfield
  have hnew := h.insertField hr decl.name
  have hprimed : (tree.insertField field).Primed node declared :=
    hp.step (.insertField tree field) (.insertField tree field) hnew.sound
  apply (meets_resolve node [] decl).imp
  · rintro source after ⟨rfl, hsource⟩
    refine ⟨fun _ ↦ trivial, fun s hs ↦ hnew.links_nextField rfl rfl hp.depth ?_⟩
    rcases hsource s hs with rfl | ⟨name, id, _, rfl, hfirst⟩
    · exact hr.hosts.owner
    · have hmem : id ∈ (tree.insertField field).topFields node := List.mem_of_find?_eq_some hfirst
      exact (h.sound.owned.tops_live node id hmem).lt_size
  · rintro fault after ⟨rfl, name, hname, rfl, hnone⟩
    exact firstNamed?_ne_none (hprimed.knows name (hdependency name hname)) hnone

/-- The fields of a declaration can be built if the check passed with the names that the node
knows. -/
theorem Plain.instantiate_primed (h : tree.Plain) (hnode : tree.LiveNode node)
    (hp : tree.Primed node declared) {decl : FieldDecl}
    (hcheck : decl.check [] declared = .ok ())
    (hplain : decl.template?.all FieldDecl.groupIsPlain = true) :
    (LightTree.instantiate (enter false) node [] none decl).Meets tree
      (fun _ after ↦ tree.SameNodes after ∧ tree.Abides after) fun _ _ ↦ False := by
  refine h.instantiate_keeps (fun decl ↦ decl.check [] declared = .ok ()) ?_ ?_ ?_
    ⟨.refl tree, .refl tree⟩ (hosts_whole hnode.lt_size) decl hcheck hplain
  · exact fun name source condition inner hinner ↦ (FieldDecl.check_gated hinner).2
  · exact fun mid name _ hempty ↦ by cases hempty
  · rintro mid decl value hmid ⟨hnodes, habides⟩ hready hdecl
    have hprimed := hp.step hnodes habides hmid.sound
    refine ((hmid.plant_primed hprimed hready fun source hs ↦ ?_).and
      ((harmless_sameNodes.plant (harmless_sameNodes.enter false) [] none decl value mid).and
        (lasting_abides.plant (lasting_abides.enter false) [] none decl value mid))).imp ?_ ?_
    · exact FieldDecl.mem_of_check hdecl hs
    · exact fun _ _ ⟨_, hn, hab⟩ ↦ ⟨hnodes.trans hn, habides.trans hab⟩
    · exact fun _ _ hfalse ↦ hfalse.1

/-- All fields of an accepted kind can be built for a new node of it. -/
theorem furnish_primed (h : tree.Plain) (hnode : tree.LiveNode node)
    (hp : tree.Primed node declared) {decls : List FieldDecl}
    (hcheck : FieldDecl.checkGroup [] declared decls = .ok ())
    (hplain : ∀ decl ∈ decls, decl.template?.all FieldDecl.groupIsPlain = true) :
    (furnish node decls).Meets tree (fun _ _ ↦ True) fun _ _ ↦ False := by
  induction decls generalizing tree declared with
  | nil => exact trivial
  | cons decl rest ih =>
      obtain ⟨hfirst, hrest⟩ := FieldDecl.checkGroup_cons hcheck
      obtain ⟨hplainFirst, hplainRest⟩ := List.forall_mem_cons.1 hplain
      rw [meets_furnish_cons]
      refine (((h.instantiate_primed hnode hp hfirst hplainFirst).and
        (h.instantiate (hosts_whole hnode.lt_size) [] decl hplainFirst)).and
        (Resolving.instantiate_named (fun d ↦ lasting_abides.enter false d) decl)).imp ?_
        fun _ _ hfalse ↦ hfalse.1.1
      rintro id mid ⟨⟨⟨hnodes, habides⟩, hmid, _, hloose, hhome⟩, hnamed⟩
      have hlive : mid.LiveNode node := (hnodes.liveNode node).2 hnode
      have htop : (mid.addTop node id).Plain := hmid.addTop hlive hloose hhome
      have hprimed := (hp.step hnodes habides hmid.sound).addTop hlive (hnamed hloose.live)
      exact ih htop ((liveNode_updateNode ..).2 hlive) hprimed hrest hplainRest

/-! ## Trees without loose fields -/

theorem lasting_settings : Lasting fun tree after ↦ after.settings = tree.settings where
  refl _ := rfl
  trans h h' := h'.trans h
  insertField _ _ _ := rfl
  relink tree dependent source := (SameNodes.relink tree dependent source).settings
  setActive _ _ _ _ := rfl
  push _ _ _ := rfl
  drop tree id f group := (SameNodes.drop tree id f group).settings
  refresh _ := rfl
  insertNode _ _ := rfl
  addTop _ _ _ := rfl
  adopt _ _ _ := rfl
  disown _ _ _ := rfl
  supplant _ _ _ _ := rfl
  releaseNode tree id := (releaseNode_shrinks tree id).settings
  setValue _ _ _ _ _ _ _ := rfl

theorem settings_start {catalog : Catalog} {settings : Settings}
    (h : start catalog settings = .ok tree) : tree.settings = settings := by
  refine @of_start catalog settings tree (·.settings = settings) ?_ h
  exact (lasting_settings.toGrowing.build lasting_settings.toGrowing.create ⟨0⟩ catalog.root _).imp
    (fun _ _ ha ↦ ha) fun _ _ _ ↦ trivial

/-- A plain tree where every field has its place and a cascade may be one field long. -/
structure Grounded (tree : Tree) : Prop extends tree.Tenured where
  stock : tree.Stocked PlainGroup
  depth : 0 < tree.settings.maxDepth

namespace Grounded

theorem plain (h : tree.Grounded) : tree.Plain :=
  ⟨h.toHoused, h.stock⟩

theorem step (h : tree.Grounded) (hu : tree.Upholds after) (hstock : after.Stocked PlainGroup)
    (hsettings : after.settings = tree.settings) : after.Grounded :=
  ⟨h.toTenured.of_upholds hu, hstock, hsettings ▸ h.depth⟩

theorem releaseNode (h : tree.Grounded) (id : NodeId) : (tree.releaseNode id).Grounded :=
  h.step (h.toHoused.releaseNode id) (h.stock.releaseNode id) (releaseNode_shrinks tree id).settings

theorem giveUp (h : tree.Grounded) (child : NodeId) : (tree.giveUp child).Grounded :=
  h.step (h.toHoused.giveUp child) (h.stock.giveUp child)
    (lasting_settings.toGrowing.giveUp tree child)

theorem insertNode (h : tree.Grounded) (kind : NodeKind) : (tree.insertNode { kind }).Grounded :=
  h.step (h.toHoused.insertNode kind) (h.stock.of_nodes rfl rfl) rfl

end Grounded

theorem Grounded.refused (h : tree.Grounded) {α : Type} {edit : Edit α}
    (hedit : edit.AllOrNothing tree) :
    edit.Meets tree (fun _ _ ↦ True) fun _ ↦ Grounded := by
  apply Meets.imp hedit fun _ _ ha ↦ ha
  rintro _ _ rfl
  exact h

theorem keeps_grounded {α : Type} {edit : Edit α} (hlodges : edit.Lodges)
    (hstock : edit.KeepsStock PlainGroup)
    (hsettings : edit.Respects fun tree after ↦ after.settings = tree.settings)
    (hfails : ∀ tree, tree.Grounded → edit.Meets tree (fun _ _ ↦ True) fun _ ↦ Grounded) :
    edit.Keeps Grounded := by
  intro tree h
  have hafter := ((hlodges tree h.toHoused).and (hstock tree h.stock)).and (hsettings tree)
  apply (hafter.and (hfails tree h)).imp
  · exact fun _ after ⟨⟨⟨hu, hs⟩, hset⟩, _⟩ ↦ h.step hu hs hset
  · exact fun _ after ⟨_, ha⟩ ↦ ha

theorem attach_keeps_grounded (parent child : NodeId) (refresh : Bool) :
    (attach parent child refresh).Keeps Grounded :=
  keeps_grounded (attach_lodges parent child refresh)
    (Nested.attach nested_plainGroup parent child refresh)
    (lasting_settings.attach parent child refresh)
    fun _ h ↦ h.refused (attach_refused h.plain parent child refresh)

theorem founding_grounded : Founding Grounded (NodeKind.Fits PlainGroup) where
  catalog _ h := h.stock.kinds
  furnish tree kind h hfits hcheck := by
    have hnew := h.insertNode kind
    have hlive : (tree.insertNode { kind }).LiveNode tree.nextNode :=
      (liveNode_insertNode tree { kind } _).2 (.inl rfl)
    have hprimed : (tree.insertNode { kind }).Primed tree.nextNode [] :=
      ⟨hnew.depth, fun _ hname ↦ absurd hname List.not_mem_nil⟩
    have hplain : ∀ decl ∈ kind.fields, decl.template?.all FieldDecl.groupIsPlain = true := by
      intro decl hd
      rw [Option.all_eq_true]
      exact fun element ↦ hfits tree.nextNode decl hd element
    have hbuilt := furnish_primed hnew.plain hlive hprimed (NodeKind.checkGroup_of_check hcheck)
      hplain
    have hkept := ((furnish_lodges tree.nextNode kind.fields hnew.toHoused hlive).and
      (Nested.furnish nested_plainGroup tree.nextNode hfits _ hnew.stock)).and
      (lasting_settings.toGrowing.furnish lasting_settings.toGrowing.addTop tree.nextNode
        kind.fields (tree.insertNode { kind }))
    apply (hbuilt.and hkept).imp
    · exact fun _ after ⟨_, ⟨hu, hs⟩, hset⟩ ↦ hnew.step hu hs hset
    · exact fun _ _ hfalse ↦ hfalse.1.elim
  attach parent child := attach_keeps_grounded parent child false
  releaseNode _ id h := h.releaseNode id

theorem addChild_keeps_grounded (parent child : NodeId) :
    (addChild parent child).Keeps Grounded := by
  intro tree h
  rw [meets_addChild]
  apply (attach_keeps_grounded parent child true tree h).imp
  · exact fun _ after ha ↦ ⟨fun _ ↦ ha.giveUp child, fun _ ↦ ha⟩
  · exact fun _ after ha ↦ ha.giveUp child

theorem removeChild_keeps_grounded (parent child : NodeId) :
    (removeChild parent child).Keeps Grounded :=
  keeps_grounded (removeChild_lodges parent child)
    (Nested.removeChild nested_plainGroup parent child) (lasting_settings.removeChild parent child)
    fun _ h ↦ h.refused (removeChild_refused h.plain parent child)

theorem retype_keeps_grounded (id : NodeId) (symbol : String) :
    (retype id symbol).Keeps Grounded := by
  refine keeps_grounded (retype_lodges id symbol) (Nested.retype nested_plainGroup id symbol)
    (lasting_settings.retype id symbol) fun tree h ↦ ?_
  refine retype_refused h.plain id symbol (fun _ ↦ h) fun kind hk ↦ ?_
  exact (founding_grounded.create (h.stock.kinds kind hk) tree h).imp (fun _ _ _ ↦ trivial)
    fun _ _ ha ↦ ha

theorem mutate_keeps_grounded (id : FieldId) {change : Field → Except Fault Value}
    (hchange : Leafy change) : (mutate id change).Keeps Grounded :=
  keeps_grounded (mutate_lodges id hchange) (Nested.mutate nested_plainGroup id hchange)
    (lasting_settings.toSteady.mutate id hchange)
    fun _ h ↦ h.refused (mutate_refused h.plain id hchange)

theorem appendElement_keeps_grounded (id : FieldId) : (appendElement id).Keeps Grounded :=
  keeps_grounded (appendElement_lodges id) (Nested.appendElement nested_plainGroup id)
    (lasting_settings.toSteady.appendElement id)
    fun _ h ↦ h.refused (appendElement_refused h.plain id)

theorem removeElement_keeps_grounded (id : FieldId) (index : Nat) :
    (removeElement id index).Keeps Grounded :=
  keeps_grounded (removeElement_lodges id index) (Nested.removeElement nested_plainGroup id index)
    (lasting_settings.toSteady.removeElement id index)
    fun _ h ↦ h.refused (removeElement_refused h.plain id index)

theorem invariant_grounded :
    Invariant Grounded (fun _ ↦ Grounded) (NodeKind.Fits PlainGroup) where
  catalog _ h := h.stock.kinds
  create _ hkind := founding_grounded.create hkind
  addChild := addChild_keeps_grounded
  removeChild := removeChild_keeps_grounded
  retype := retype_keeps_grounded
  mutate id _ hchange := mutate_keeps_grounded id hchange
  appendElement := appendElement_keeps_grounded
  removeElement := removeElement_keeps_grounded

theorem rebind_keeps_grounded (h : tree.Grounded) (dependent : FieldId) {source : Source}
    (hissued : tree.Issued source) :
    (rebind dependent source).Meets tree (fun _ ↦ Grounded) fun _ ↦ Grounded := by
  have hafter := ((rebind_lodges h.toHoused dependent hissued).and
    (Nested.rebind nested_plainGroup dependent source tree h.stock)).and
    (lasting_settings.toSteady.rebind dependent source tree)
  apply (hafter.and (h.refused (rebind_refused h.plain dependent hissued))).imp
  · exact fun _ after ⟨⟨⟨hu, hs⟩, hset⟩, _⟩ ↦ h.step hu hs hset
  · exact fun _ after ⟨_, ha⟩ ↦ ha

theorem Grounded.perform (h : tree.Grounded) {operation : Operation}
    (hcreate : ∀ kind, operation = .create kind → kind.isPlain = true)
    (hl : operation.NamesIssued tree) : (tree.perform operation).2.Grounded := by
  refine meets_const_iff.1 (invariant_grounded.operation h operation
    (fun kind hk ↦ NodeKind.fits_of_isPlain (hcreate kind hk)) ?_)
  rintro dependent source rfl
  exact rebind_keeps_grounded h dependent hl

theorem Grounded.run (h : tree.Grounded) {operations : List Operation}
    (hcreate : ∀ kind, .create kind ∈ operations → kind.isPlain = true)
    (hl : tree.RebindsIssued operations) : (tree.run operations).2.Grounded := by
  induction operations generalizing tree with
  | nil => exact h
  | cons operation rest ih =>
      refine ih (h.perform (fun kind hk ↦ ?_) hl.1) (fun kind hk ↦ ?_) hl.2
      · exact hcreate kind (hk ▸ List.mem_cons_self)
      · exact hcreate kind (List.mem_cons_of_mem _ hk)

/-! ## What is left after a fault -/

theorem failsWithdrawn_of_allOrNothing (h : tree.Sound) (hf : tree.Forest) {α : Type}
    {edit : Edit α} (hedit : edit.AllOrNothing tree) : edit.FailsWithdrawn tree := by
  apply Meets.imp hedit fun _ _ ha ↦ ha
  rintro _ _ rfl
  exact .refl h hf

theorem create_failsWithdrawn (h : tree.Sound) (hf : tree.Forest) (kind : NodeKind) :
    (create kind).FailsWithdrawn tree :=
  (create_withdraws h hf kind).imp (fun _ _ _ ↦ trivial) fun _ _ ha ↦ ha

theorem addByCategory_failsWithdrawn (h : tree.Plain) (hf : tree.Forest) (parent : NodeId)
    (category : Category) : (addByCategory parent category).FailsWithdrawn tree := by
  rw [FailsWithdrawn, meets_addByCategory]
  refine ⟨fun _ ↦ trivial, fun kind _ hk ↦ ?_⟩
  have hkind := h.stock.kinds kind (List.mem_of_find?_eq_some hk)
  have hmade := ((create_withdraws h.sound hf kind).and (create_plain h hkind)).and
    (lasting_root.toGrowing.create kind tree)
  apply hmade.imp
  · rintro child mid ⟨⟨⟨hannexed, hforest, hlater, hapex⟩, hmid, -, -, -⟩, hroot⟩
    have hchild : child ≠ mid.root := by
      rw [hroot]
      exact hlater.node_ne_of_lt hf.root_live.lt_size
    rw [meets_addChild]
    apply Meets.imp (attach_refused hmid parent child true)
    · exact fun _ _ _ ↦ ⟨fun _ ↦ trivial, fun _ ↦ trivial⟩
    · rintro _ _ rfl
      refine ⟨hannexed.giveUp hlater, hforest.giveUp child, fun x hx ↦ ?_⟩
      obtain ⟨hne, hx⟩ := apex_giveUp hchild hx
      exact (hapex x hx).resolve_left hne
  · exact fun _ _ ha ↦ ha.1.1

theorem edit_failsWithdrawn (h : tree.Plain) (hf : tree.Forest) {operation : Operation}
    (hbuilds : operation.builds = true) : operation.edit.FailsWithdrawn tree := by
  have hanswer : ∀ {α : Type} {edit : Edit α} (answer : α → Answer), edit.FailsWithdrawn tree →
      (edit >>= fun a ↦ pure (answer a) : Edit Answer).FailsWithdrawn tree := by
    intro α edit answer hedit
    rw [FailsWithdrawn, meets_bind]
    exact Meets.imp hedit (fun _ _ _ ↦ trivial) fun _ _ ha ↦ ha
  cases operation with
  | create kind => exact hanswer .created (create_failsWithdrawn h.sound hf kind)
  | addByCategory parent category =>
      exact hanswer .outcome (addByCategory_failsWithdrawn h hf parent category)
  | retype id symbol =>
      refine hanswer .outcome (retype_refused h id symbol (fun _ ↦ .refl h.sound hf) ?_)
      intro kind _
      exact create_failsWithdrawn h.sound hf kind
  | appendElement id =>
      exact hanswer .element
        (failsWithdrawn_of_allOrNothing h.sound hf (appendElement_refused h id))
  | _ => cases hbuilds

/-- A new field with a place stands at a new node, so without new nodes there is none. -/
theorem Withdrawn.live_iff {base : Tree} (h : base.Withdrawn after) (hb : base.Forest)
    (ht : after.Tenured) : after.Live id ↔ base.Live id := by
  by_cases hid : id.index < base.fields.size
  · rw [Live, Live, h.field id hid]
  · refine ⟨fun hlive ↦ ?_, fun hlive ↦ absurd hlive.lt_size hid⟩
    obtain ⟨field, hf⟩ := Tree.live_iff.1 hlive
    have howner : base.LiveNode field.owner :=
      (h.liveNode_iff hb).1 (liveNode_of_placed (ht.placed hf))
    have hlater := h.owner id field.owner (Nat.le_of_not_lt hid) (read_of_some hf _ _)
    exact absurd howner.lt_size (Nat.not_lt_of_le hlater)

theorem grounded_start {catalog : Catalog} {settings : Settings}
    (hkinds : ∀ kind ∈ catalog.kinds, kind.isPlain = true) (hdepth : 0 < settings.maxDepth)
    (h : start catalog settings = .ok tree) : tree.Grounded := by
  exact ⟨tenured_start h, (plain_start hkinds h).stock, settings_start h ▸ hdepth⟩

/-- Where elements of lists are plain, an operation that builds fields and fails leaves the same
nodes alive and, if a cascade may be one field long, the same fields. This is so after any history,
with any faults in it. -/
theorem live_sets_run {catalog : Catalog} {settings : Settings} {tree : Tree}
    {operations : List Operation} (hkinds : ∀ kind ∈ catalog.kinds, kind.isPlain = true)
    (hstart : start catalog settings = .ok tree)
    (hcreate : ∀ kind, .create kind ∈ operations → kind.isPlain = true)
    (hissued : tree.RebindsIssued operations) {final : Tree}
    (hfinal : (tree.run operations).2 = final) {operation : Operation}
    (hbuilds : operation.builds = true)
    (hnew : ∀ kind, operation = .create kind → kind.isPlain = true) {fault : Fault}
    (herror : (final.perform operation).1 = .error fault) :
    (∀ id, (final.perform operation).2.LiveNode id ↔ final.LiveNode id) ∧
      (0 < settings.maxDepth → ∀ id, (final.perform operation).2.Live id ↔ final.Live id) := by
  have hplain : final.Plain := hfinal ▸ (plain_start hkinds hstart).run hcreate hissued
  have hforest : final.Forest := hfinal ▸ (forest_start hstart).run operations
  have hwithdrawn : final.Withdrawn (final.perform operation).2 :=
    (meets_iff.1 (edit_failsWithdrawn hplain hforest hbuilds)).2 fault _ (Prod.ext herror rfl)
  constructor
  · exact fun id ↦ hwithdrawn.liveNode_iff hforest
  · intro hdepth id
    have h : final.Grounded := hfinal ▸ (grounded_start hkinds hdepth hstart).run hcreate hissued
    have hafter := h.perform hnew (Operation.namesIssued_of_builds hbuilds final)
    exact hwithdrawn.live_iff hforest hafter.toTenured

/-- The root of a catalog whose objects need an animation, and a field that follows their number. -/
def holderCatalog : Catalog where
  kinds :=
    [{ loneKind [] with childCategory := .object, maxChildren := none },
      { name := "Holder"
        symbol := "h"
        category := .object
        childCategory := .animation
        minChildren := 1
        maxChildren := none
        fields := [.list "slots" .children [.scalar "slot" (.integer 0)],
          .gated "extra" "slots" .present (.scalar "extra" (.integer 0))] },
      { name := "Pulse"
        symbol := "b"
        category := .animation
        childCategory := .nothing
        minChildren := 0
        maxChildren := some 0
        fields := [.scalar "duration" (.integer 0)] }]
  checked := rfl

/-- The first tree of the catalog where a cascade may be one field long. -/
def holderTree : Tree :=
  ({ catalog := holderCatalog, settings := { maxDepth := 1 } } : Tree).insertNode
    { kind := holderCatalog.root }

/-- Where a cascade may be one field long, the animation of a holder cannot be attached: the field
that follows the number of animations has a follower itself. Neither of the two nodes is left, and
none of the four fields. -/
theorem live_sets_run_holder :
    let after := (holderTree.perform (.addByCategory ⟨0⟩ .object)).2
    (holderTree.perform (.addByCategory ⟨0⟩ .object)).1 = .error (.tooDeep 1) ∧
      (after.nodes.size = 3 ∧ ∀ id, after.LiveNode id ↔ holderTree.LiveNode id) ∧
      (after.fields.size = 4 ∧ ∀ id, after.Live id ↔ holderTree.Live id) := by
  intro after
  have hstart : start holderCatalog { maxDepth := 1 } = .ok holderTree := rfl
  have hkinds : ∀ kind ∈ holderCatalog.kinds, kind.isPlain = true := by
    decide +kernel
  have hcreate : ∀ kind, .create kind ∈ ([] : List Operation) → kind.isPlain = true := by
    simp
  have hnew : ∀ kind, Operation.addByCategory ⟨0⟩ .object = .create kind → kind.isPlain = true := by
    simp
  have herror : (holderTree.perform (.addByCategory ⟨0⟩ .object)).1 = .error (.tooDeep 1) := by
    decide +kernel
  obtain ⟨hnodes, hfields⟩ := live_sets_run hkinds hstart hcreate trivial rfl rfl hnew herror
  exact ⟨herror, ⟨by decide +kernel, hnodes⟩, by decide +kernel, hfields Nat.one_pos⟩

/-- The first tree of the standard catalog where no cascade may run. -/
def haltedTree : Tree :=
  { standardTree with settings := { maxDepth := 0 } }

/-- The length of a new object cannot be wired to the choice that it depends on, so the object is
released. The field inside its gate and the gate itself are left behind without an owner. -/
theorem stranded_halted :
    let after := (haltedTree.perform (.addByCategory ⟨0⟩ .object)).2
    start .standard { maxDepth := 0 } = .ok haltedTree ∧
      (haltedTree.perform (.addByCategory ⟨0⟩ .object)).1 = .error (.tooDeep 0) ∧
      (¬haltedTree.Live ⟨3⟩ ∧ after.Live ⟨3⟩) ∧ ¬haltedTree.Live ⟨4⟩ ∧ after.Live ⟨4⟩ := by
  intro after
  have hstart : start .standard { maxDepth := 0 } = .ok haltedTree := rfl
  refine ⟨hstart, ?_⟩
  decide +kernel

end Tree

end LightTree
