import LightTree.Proofs.Forms
import LightTree.Proofs.Thinning

/-!
# Elements keep what they are built with

A property of elements that new elements have, and that lasts as long as their fields live, goes on
to hold of all elements: no cascade adds to an element, and what is inside an element goes with it
only. One such property is that an element has one field for each declaration that elements are
built from, formed by it.
-/

namespace LightTree

open Edit

theorem Value.inner?_of_isLeaf {old new : Value} (hold : old.IsLeaf) (hnew : new.IsLeaf) :
    new.inner? = old.inner? :=
  (congrArg inner? (replaceLeaf_of_isLeaf hold)).symm.trans (inner?_replaceLeaf hnew old)

namespace Tree

variable {form : Tree → NodeId → List FieldDecl → List FieldId → Prop} {tree after : Tree}
  {id : FieldId} {group : List FieldId}

/-- The elements of every list have a property, by the node and the declarations of the list. -/
structure GroupedBy (form : Tree → NodeId → List FieldDecl → List FieldId → Prop) (tree : Tree) :
    Prop extends tree.Sound where
  element : ∀ id owner template, tree.template? id = some (owner, template) →
    ∀ group ∈ tree.elements id, form tree owner template group

/-- A property that new elements have, and that no cascade takes from an element whose fields stay
alive. -/
structure Durable (form : Tree → NodeId → List FieldDecl → List FieldId → Prop) : Prop where
  lasts : ∀ {tree after : Tree} {owner : NodeId} {template : List FieldDecl}
    {group : List FieldId}, tree.Sound → after.Sound → tree.Endures after → tree.Abides after →
    tree.SameNodes after → (∀ x ∈ group, tree.Live x ∧ after.Live x) →
    form tree owner template group → form after owner template group
  built : ∀ {tree : Tree} {visit : FieldId → Edit Unit} {owner : NodeId}
    {container : Option FieldId}, Confined visit → (∀ d, (visit d).Respects Abides) →
    tree.Sound → tree.whole.Hosts tree owner container → ∀ template,
    (instantiateGroup visit owner container [] template).Meets tree
      (fun group after ↦ form after owner template group) fun _ _ ↦ True

theorem live_of_mem_elements (h : group ∈ tree.elements id) : tree.Live id :=
  live_of_read_ne (List.ne_nil_of_mem h)

theorem mem_parts_of_mem_elements (h : group ∈ tree.elements id) {x : FieldId} (hx : x ∈ group) :
    x ∈ tree.parts id := by
  obtain ⟨field, hf⟩ := live_iff.1 (live_of_mem_elements h)
  rw [Tree.elements, read_of_some hf] at h
  rw [Tree.parts, read_of_some hf]
  cases hv : field.value with
  | list linked template elements =>
      rw [hv] at h
      exact List.mem_flatten_of_mem h hx
  | scalar | choice | gated =>
      rw [hv] at h
      exact absurd h List.not_mem_nil

/-- No cascade changes what a list builds its elements from. -/
theorem Sound.template?_of_leads (h : tree.Sound) (hleads : tree.whole.Leads tree after)
    {template : NodeId × List FieldDecl} (ht : tree.template? id = some template)
    (hl : after.Live id) : after.template? id = some template :=
  ((Abides.of_framed (hleads.framed h.governs) rfl).template?
    (live_of_template?_eq_some ht).lt_size hl).trans ht

namespace GroupedBy

theorem of_list (h : tree.GroupedBy form) {field : Field} (hf : tree.field? id = some field)
    {linked : Bool} {template : List FieldDecl} {elements : List (List FieldId)}
    (hv : field.value = .list linked template elements) (hg : group ∈ elements) :
    form tree field.owner template group := by
  apply h.element id field.owner template (template?_of_list hf hv) group
  rwa [elements_of_some hf (congrArg Value.elements? hv)]

/-- A change that adds elements with the property only, and that the property of the others
outlasts. -/
theorem step (h : tree.GroupedBy form) (ha : after.Sound) (hab : tree.Abides after)
    (hlasts : ∀ owner template group, (∃ id, after.template? id = some (owner, template)) →
      (∀ x ∈ group, tree.Live x ∧ after.Live x) → form tree owner template group →
      form after owner template group)
    (hkept : ∀ id owner template, after.template? id = some (owner, template) →
      ∀ group ∈ after.elements id, group ∈ tree.elements id ∨ form after owner template group) :
    after.GroupedBy form where
  toSound := ha
  element id owner template ht group hg := by
    refine (hkept id owner template ht group hg).elim (fun hold ↦ ?_) fun hform ↦ hform
    have hl := live_of_mem_elements hold
    have hsame := hab.template? hl.lt_size (live_of_template?_eq_some ht)
    refine hlasts owner template group ⟨id, ht⟩ (fun x hx ↦ ?_)
      (h.element id owner template (hsame.symm.trans ht) group hold)
    exact ⟨h.owned.parts_live id x (mem_parts_of_mem_elements hold hx),
      ha.owned.parts_live id x (mem_parts_of_mem_elements hg hx)⟩

variable (hd : Durable form)

include hd

theorem of_durable (h : tree.GroupedBy form) (ha : after.Sound) (he : tree.Endures after)
    (hab : tree.Abides after) (hn : tree.SameNodes after)
    (hkept : ∀ id owner template, after.template? id = some (owner, template) →
      ∀ group ∈ after.elements id, group ∈ tree.elements id ∨ form after owner template group) :
    after.GroupedBy form :=
  h.step ha hab (fun _ _ _ _ hl ↦ hd.lasts h.toSound ha he hab hn hl) hkept

theorem of_elements (h : tree.GroupedBy form) (ha : after.Sound) (he : tree.Endures after)
    (hab : tree.Abides after) (hn : tree.SameNodes after)
    (hkept : ∀ id, after.Live id → ∀ group ∈ after.elements id, group ∈ tree.elements id) :
    after.GroupedBy form :=
  h.of_durable hd ha he hab hn fun id _ _ ht group hg ↦
    .inl (hkept id (live_of_template?_eq_some ht) group hg)

theorem refreshed (h : tree.GroupedBy form) : tree.refreshed.GroupedBy form :=
  h.of_elements hd h.toSound.refresh (.of_field? rfl rfl) (.of_field? rfl rfl) (.refresh tree)
    fun _ _ _ hg ↦ hg

theorem setActive (h : tree.GroupedBy form) (id : FieldId) (active : Bool) :
    (tree.updateField id ({ · with active })).GroupedBy form := by
  have hkeeps : ∀ field : Field, ({ field with active } : Field).value.elements?.getD [] =
      field.value.elements?.getD [] := fun _ ↦ rfl
  have hsame : (tree.updateField id ({ · with active })).elements = tree.elements :=
    read_updateField_of_keeps hkeeps id []
  have he : tree.Endures (tree.updateField id ({ · with active })) :=
    .updateField (fun _ _ ↦ .of_value rfl rfl) fun _ ↦ rfl
  refine h.of_elements hd (h.toSound.setActive id active) he (.setActive tree id active)
    (.updateField tree id _) fun x _ group hg ↦ ?_
  rwa [hsame] at hg

theorem insertField (h : tree.GroupedBy form) {field : Field} (ha : (tree.insertField field).Sound)
    (hempty : field.value.elements?.getD [] = []) : (tree.insertField field).GroupedBy form := by
  refine h.of_elements hd ha (.insertField tree field) (.insertField tree field)
    (.insertField tree field) fun x _ group hg ↦ ?_
  rw [Tree.elements, read_insertField] at hg
  split at hg
  · rw [hempty] at hg
    exact absurd hg List.not_mem_nil
  · exact hg

/-- A new field may be linked. -/
theorem insertLinked (h : tree.GroupedBy form) {field : Field} {source : Option Source}
    (ha : ((tree.insertField field).relink tree.nextField source).Sound)
    (hempty : field.value.elements?.getD [] = []) :
    ((tree.insertField field).relink tree.nextField source).GroupedBy form := by
  have hab := (Abides.insertField tree field).trans (.relink _ tree.nextField source)
  have hn := (SameNodes.insertField tree field).trans (.relink _ tree.nextField source)
  refine h.of_elements hd ha (.insertLinked tree field source) hab hn fun x _ group hg ↦ ?_
  rw [Tree.elements, read_relink _ _ (fun _ _ _ ↦ rfl), read_insertField] at hg
  split at hg
  · rw [hempty] at hg
    exact absurd hg List.not_mem_nil
  · exact hg

theorem push (h : tree.GroupedBy form) (hn : group.Nodup) (hloose : ∀ x ∈ group, tree.Loose x)
    (hgroup : ∀ owner template, tree.template? id = some (owner, template) →
      form tree owner template group) : (tree.push id group).GroupedBy form := by
  have ha := h.toSound.push id hn hloose
  have hab : tree.Abides (tree.push id group) := .mapElements tree id _
  refine h.of_durable hd ha (.push tree id group) hab (.push tree id group) ?_
  intro x owner template ht g hg
  by_cases hx : x = id
  · subst hx
    have hl : tree.Live x := (live_updateField ..).1 (live_of_template?_eq_some ht)
    obtain ⟨old, ho⟩ := live_iff.1 hl
    rw [Tree.elements, Tree.push, Tree.read, field?_updateField, if_pos rfl, ho, Option.map_some,
      Option.elim_some, Value.elements?_mapElements] at hg
    cases hv : old.value.elements? with
    | some elements =>
        rw [hv, Option.map_some, Option.getD_some] at hg
        rcases List.mem_append.1 hg with hold | hlast
        · exact .inl (elements_of_some ho hv ▸ hold)
        · right
          rw [List.mem_singleton.1 hlast]
          have hform := hgroup owner template
            ((hab.template? hl.lt_size (live_of_template?_eq_some ht)).symm.trans ht)
          exact hd.lasts h.toSound ha (.push tree x group) hab (.push tree x group)
            (fun y hy ↦ ⟨(hloose y hy).live, (live_updateField ..).2 (hloose y hy).live⟩) hform
    | none =>
        rw [hv] at hg
        exact absurd hg List.not_mem_nil
  · left
    rwa [Tree.elements, Tree.push, read_updateField_of_ne (Ne.symm hx)] at hg

theorem drop (h : tree.GroupedBy form) {field : Field} (hf : tree.field? id = some field)
    {f : List (List FieldId) → List (List FieldId)} (hsub : ∀ list, f list ⊆ list)
    (hsplit : Splits f group field.value) : (tree.drop id f group).GroupedBy form := by
  refine h.of_elements hd (h.toSound.drop hf hsplit) (.drop tree id f group)
    (.drop tree id f group) (.drop tree id f group) fun x hl g hg ↦ ?_
  by_cases hx : x = id
  · subst hx
    cases hv : field.value.elements? with
    | some elements =>
        rw [elements_drop_self hf hv hl] at hg
        rw [elements_of_some hf hv]
        exact hsub elements hg
    | none =>
        rw [Tree.drop, elements_of_shrinks (releaseFields_shrinks _ group) hl, Tree.elements,
          Tree.read, field?_updateField, if_pos rfl, hf, Option.map_some, Option.elim_some,
          Value.elements?_mapElements, hv] at hg
        exact absurd hg List.not_mem_nil
  · rwa [elements_drop_of_ne hx hl] at hg

omit hd

/-- Setting a leaf changes no element. -/
theorem setValue (h : tree.GroupedBy form) {field : Field} {value : Value}
    (hf : tree.field? id = some field) (hold : field.value.IsLeaf) (hnew : value.IsLeaf)
    (hlasts : ∀ owner template group,
      (∀ x ∈ group, tree.Live x ∧ (tree.updateField id ({ · with value })).Live x) →
      form tree owner template group →
      form (tree.updateField id ({ · with value })) owner template group) :
    (tree.updateField id ({ · with value })).GroupedBy form := by
  have hsame : (tree.updateField id ({ · with value })).elements = tree.elements := by
    rw [updateField_value hf hold]
    exact read_updateField_of_keeps
      (fun old ↦ congrArg (·.getD []) (Value.elements?_replaceLeaf hnew old.value)) id []
  exact h.step (h.toSound.setValue hf hold hnew) (.setValue hf hold hnew)
    (fun owner template group _ ↦ hlasts owner template group)
    fun _ _ _ _ _ hg ↦ .inl (hsame ▸ hg)

end GroupedBy

end Tree

/-- An edit that ends without a fault leaves elements with a property. -/
def Edit.KeepsGroups {α : Type} (edit : Edit α)
    (form : Tree → NodeId → List FieldDecl → List FieldId → Prop) : Prop :=
  edit.Carries (Tree.GroupedBy form) fun _ _ ↦ True

/-- Visits that end without a fault leave elements with a property. -/
def Grouping (form : Tree → NodeId → List FieldDecl → List FieldId → Prop)
    (visit : FieldId → Edit Unit) : Prop :=
  ∀ d, (visit d).KeepsGroups form

namespace Grouping

open LightTree.Tree

variable {form : Tree → NodeId → List FieldDecl → List FieldId → Prop} {tree : Tree}
  {visit : FieldId → Edit Unit} {owner : NodeId} {container : Option FieldId}
  {group : List FieldId} (hd : Durable form)

/-! ## Building fields -/

section

include hd

theorem plant (hg : Grouping form visit) (h : tree.GroupedBy form)
    (hhost : tree.whole.Hosts tree owner container) (group : List FieldId) (decl : FieldDecl)
    {value : Value} (hnodup : value.parts.Nodup) (hparts : ∀ c ∈ value.parts, tree.Loose c)
    (hempty : value.elements?.getD [] = []) :
    (plant visit owner group container decl value).Meets tree (fun _ ↦ GroupedBy form)
      fun _ _ ↦ True := by
  rw [meets_plant]
  set field : Field := { name := decl.name, owner, value, container }
  have hs : (tree.insertField field).Sound := h.toSound.insertField rfl rfl
    (fun c hc ↦ (hhost.container c hc).2) hhost.owner hnodup hparts
  have hnew : (tree.insertField field).Live tree.nextField :=
    (live_insertField tree field _).2 (.inl rfl)
  refine (meets_resolve owner group decl).imp ?_ fun _ _ _ ↦ trivial
  rintro source _ ⟨rfl, hsource⟩
  refine ⟨fun _ ↦ h.insertField hd hs hempty, fun s hss ↦ ?_⟩
  have hissued : (tree.insertField field).Issued s := by
    rcases hsource s hss with rfl | ⟨_, id, _, rfl, hfirst⟩
    · exact hhost.owner
    · exact (live_of_firstNamed?_eq_some hfirst).lt_size
  rw [meets_rebindWith]
  refine ⟨fun _ _ ↦ ⟨fun _ ↦ trivial, fun hc ↦ ⟨fun _ _ ↦ trivial, fun _ ↦ ?_⟩⟩, fun _ ↦ trivial⟩
  have hlinked := hs.relink_of_not_closesCycle hnew hissued hc
  refine (hg tree.nextField _ (h.insertLinked hd hlinked hempty)).imp (fun _ _ ha ↦ ha) ?_
  intro fault after _
  rw [meets_relink]
  exact ⟨fun _ ↦ trivial, fun _ ↦ trivial⟩

variable (hv : Confined visit) (hg : Grouping form visit)

include hv hg

theorem instantiate (h : tree.GroupedBy form) (hhost : tree.whole.Hosts tree owner container)
    (group : List FieldId) : ∀ decl : FieldDecl,
      (instantiate visit owner group container decl).Meets tree (fun _ ↦ GroupedBy form)
        fun _ _ ↦ True
  | .scalar _ _ => hg.plant hd h hhost group _ List.nodup_nil (fun _ hc ↦ nomatch hc) rfl
  | .choice name options => by
    rw [meets_instantiate_choice]
    refine ⟨fun _ ↦ trivial, fun _ ↦ ?_⟩
    exact hg.plant hd h hhost group _ List.nodup_nil (fun _ hc ↦ nomatch hc) rfl
  | .list _ _ _ => hg.plant hd h hhost group _ List.nodup_nil (fun _ hc ↦ nomatch hc) rfl
  | .gated name source condition inner => by
    rw [meets_instantiate_gated]
    have hbuilt := hv.instantiate h.toSound.governs hhost (fun x (_ : x ∈ group) ↦ trivial) inner
    apply (hbuilt.and (instantiate h hhost group inner)).imp ?_ fun _ _ _ ↦ trivial
    rintro x mid ⟨⟨hlead, hx, _⟩, hmid⟩
    exact hg.plant hd hmid (h.toSound.hosts_of_leads hhost hlead) group _ (List.nodup_singleton x)
      (fun c hc ↦ List.mem_singleton.1 hc ▸ hx) rfl

theorem instantiateGroup (h : tree.GroupedBy form) (hhost : tree.whole.Hosts tree owner container)
    (group : List FieldId) (decls : List FieldDecl) :
    (instantiateGroup visit owner container group decls).Meets tree (fun _ ↦ GroupedBy form)
      fun _ _ ↦ True := by
  induction decls generalizing tree group with
  | nil => exact h
  | cons decl rest ih =>
      rw [meets_instantiateGroup_cons]
      have hbuilt := hv.instantiate h.toSound.governs hhost (fun x (_ : x ∈ group) ↦ trivial) decl
      apply (hbuilt.and (hg.instantiate hd hv h hhost group decl)).imp ?_ fun _ _ _ ↦ trivial
      rintro id mid ⟨⟨hlead, _⟩, hmid⟩
      exact ih hmid (h.toSound.hosts_of_leads hhost hlead) (group ++ [id])

/-! ## Linked lists -/

variable (ha : ∀ d, (visit d).Respects Abides)

include ha

/-- A list may be handed an element that has been built for it. -/
theorem element {id : FieldId} {template : List FieldDecl} (h : tree.GroupedBy form)
    (hhost : tree.whole.Hosts tree owner (some id))
    (htemplate : tree.template? id = some (owner, template)) :
    (LightTree.instantiateGroup visit owner (some id) [] template).Meets tree
      (fun group mid ↦ mid.Live id → tree.whole.Leads tree (mid.push id group) ∧
        (mid.push id group).GroupedBy form)
      fun _ _ ↦ True := by
  apply (((hv.instantiateGroup h.toSound.governs hhost .nil template).and
    (hg.instantiateGroup hd hv h hhost [] template)).and
    (hd.built hv ha h.toSound hhost template)).imp ?_ fun _ _ _ ↦ trivial
  rintro group mid ⟨⟨⟨hlead, hgroup⟩, hmid⟩, hform⟩ hl
  refine ⟨hlead.tail (.push trivial hgroup.nodup hgroup.loose), ?_⟩
  apply hmid.push hd hgroup.nodup fun x hx ↦ (hgroup.loose x hx).1
  intro _ _ ht
  cases ht.symm.trans (h.toSound.template?_of_leads hlead htemplate hl)
  exact hform

theorem grow {id : FieldId} {template : List FieldDecl} (h : tree.GroupedBy form)
    (hhost : tree.whole.Hosts tree owner (some id))
    (htemplate : tree.template? id = some (owner, template)) (count : Nat) :
    (grow visit owner template id count).Meets tree (fun _ ↦ GroupedBy form) fun _ _ ↦ True := by
  induction count generalizing tree with
  | zero => exact h
  | succ count ih =>
      rw [meets_grow_succ]
      apply (hg.element hd hv ha h hhost htemplate).imp ?_ fun _ _ _ ↦ trivial
      intro group mid hpushed
      refine ⟨fun hl ↦ ?_, fun _ ↦ trivial⟩
      obtain ⟨hleads, hpush⟩ := hpushed hl
      exact ih hpush (h.toSound.hosts_of_leads hhost hleads)
        (h.toSound.template?_of_leads hleads htemplate ((live_updateField ..).2 hl))

omit hv hg ha

theorem shrink (id : FieldId) (count : Nat) : (shrink id count).KeepsGroups form := by
  induction count with
  | zero => exact fun _ h ↦ h
  | succ count ih =>
      intro tree h
      rw [meets_shrink_succ]
      refine ⟨fun field hf ↦ ih _ ?_, fun _ ↦ trivial⟩
      exact h.drop hd hf (fun list ↦ List.dropLast_subset list) (splits_dropLast field.value)

include hv hg ha

theorem resize (id : FieldId) (length : Nat) : (resize visit id length).KeepsGroups form := by
  intro tree h
  rw [meets_resize]
  refine ⟨fun field hf ↦ ⟨fun _ template elements hvalue ↦ ?_, fun _ ↦ trivial⟩, fun _ ↦ trivial⟩
  have hhost := h.toSound.governs.hosts hf trivial
  exact (hg.grow hd hv ha h hhost (template?_of_list hf hvalue) _).imp
    (fun _ mid hmid ↦ shrink hd id _ mid hmid) fun _ _ _ ↦ trivial

/-! ## Deriving and notifying -/

theorem recompute (id : FieldId) : (recompute visit id).KeepsGroups form := by
  intro tree h
  rw [meets_recompute]
  refine ⟨fun field _ ↦ ⟨fun source condition _ _ _ ↦ ?_, fun source _ _ _ _ ↦ ?_, fun _ ↦ h⟩,
    fun _ ↦ trivial⟩
  · exact h.setActive hd id _
  · exact hg.resize hd hv ha id _ tree h

end

theorem forM (hg : Grouping form visit) (ids : List FieldId) : (ids.forM visit).KeepsGroups form :=
  fun tree h ↦ meets_forM (fun _ ↦ GroupedBy form) (fun _ hm ↦ hm) (fun d _ mid hmid ↦ hg d mid hmid)
    ids tree h

theorem spread (hg : Grouping form visit) (ids : List FieldId) :
    (spread visit ids).KeepsGroups form := by
  induction ids with
  | nil => exact fun _ h ↦ h
  | cons id outer ih =>
      intro tree h
      rw [meets_spread_cons]
      refine ⟨fun _ ↦ ?_, fun _ ↦ h⟩
      exact (hg.forM _ tree h).imp (fun _ mid hmid ↦ ih mid hmid) fun _ _ _ ↦ trivial

theorem propagate (hg : Grouping form visit) (source : Source) :
    (propagate visit source).KeepsGroups form := by
  intro tree h
  cases source with
  | children id =>
      rw [meets_propagate_children]
      exact hg.forM _ tree h
  | field id =>
      rw [meets_propagate_field]
      exact hg.spread _ tree h

include hd

theorem notify (fuel : Nat) : ∀ (refresh : Bool) (path : List FieldId),
    Grouping form (notify fuel refresh path) := by
  induction fuel with
  | zero => exact fun _ _ _ _ _ ↦ trivial
  | succ fuel ih =>
      intro refresh path id tree h
      rw [meets_notify_succ]
      refine ⟨fun field _ ↦ ⟨fun _ _ ↦ trivial, fun _ ↦ ?_⟩, fun _ ↦ h⟩
      apply ((ih false []).recompute hd (Confined.notify fuel false [])
        (lasting_abides.toHarmless.notify fuel false []) id tree h).imp ?_ fun _ _ _ ↦ trivial
      intro _ mid hmid
      refine (ih refresh (id :: path)).propagate (.field id) _ ?_
      split
      · exact hmid.refreshed hd
      · exact hmid

theorem enter (refresh : Bool) : Grouping form (enter refresh) := by
  intro id tree h
  rw [LightTree.enter, meets_bind, meets_get]
  exact notify hd _ refresh [] id tree h

/-- The element that is built for a list on request. -/
theorem element_of_list {id : FieldId} {field : Field} (h : tree.GroupedBy form)
    (hf : tree.field? id = some field) {linked : Bool} {template : List FieldDecl}
    {elements : List (List FieldId)} (hvalue : field.value = .list linked template elements) :
    (LightTree.instantiateGroup (LightTree.enter false) field.owner (some id) [] template).Meets
      tree
      (fun group mid ↦ mid.Live id → tree.whole.Leads tree (mid.push id group) ∧
        (mid.push id group).GroupedBy form)
      fun _ _ ↦ True :=
  (enter hd false).element hd (Confined.enter false) (lasting_abides.toHarmless.enter false) h
    (h.toSound.governs.hosts hf trivial) (template?_of_list hf hvalue)

end Grouping

namespace Tree

variable {form : Tree → NodeId → List FieldDecl → List FieldId → Prop}

theorem settle_keepsGroups (hd : Durable form) (source : Source) :
    (settle source).KeepsGroups form := by
  intro tree h
  rw [meets_settle]
  exact ((Grouping.enter hd true).propagate source tree h).imp (fun _ _ ha ↦ ha.refreshed hd)
    fun _ _ _ ↦ trivial

theorem Sound.childrenChanged_stays {tree : Tree} (h : tree.Sound) (parent : NodeId)
    (refresh : Bool) : (childrenChanged parent refresh).Stays tree.whole tree := by
  rw [childrenChanged]
  split
  · exact h.settle_stays (.children parent)
  · exact h.propagate_stays false (.children parent)

theorem childrenChanged_keepsGroups (hd : Durable form) (parent : NodeId) (refresh : Bool) :
    (childrenChanged parent refresh).KeepsGroups form := by
  rw [childrenChanged]
  split
  · exact settle_keepsGroups hd (.children parent)
  · exact (Grouping.enter hd false).propagate (.children parent)

end Tree

/-! ## Formed elements -/

/-- The fields of the rest of a group are formed by the declarations, in order. -/
theorem Confined.instantiateGroup_formed {visit : FieldId → Edit Unit} (hv : Confined visit)
    {tree : Tree} (h : tree.Sound) {owner : NodeId} {container : Option FieldId}
    (hhost : tree.whole.Hosts tree owner container) {group : List FieldId}
    (hloose : ∀ x ∈ group, tree.Loose x) (decls : List FieldDecl) :
    (LightTree.instantiateGroup visit owner container group decls).Meets tree
      (fun all after ↦ after.Sound ∧ tree.Endures after ∧ (∀ x ∈ all, after.Live x) ∧
        ∃ rest, all = group ++ rest ∧ List.Forall₂ after.Formed decls rest)
      fun _ _ ↦ True := by
  induction decls generalizing tree group with
  | nil =>
      exact ⟨h, .refl tree, fun x hx ↦ (hloose x hx).live, [], (List.append_nil group).symm, .nil⟩
  | cons decl rest ih =>
      rw [meets_instantiateGroup_cons]
      have hbuilt := hv.instantiate h.governs hhost (fun x (_ : x ∈ group) ↦ trivial) decl
      apply (hbuilt.and (hv.instantiate_formed h hhost group decl)).imp ?_ fun _ _ _ ↦ trivial
      rintro id mid ⟨⟨hlead, hid, _⟩, hformed⟩
      have hframed := hlead.framed h.governs
      have hkept : ∀ x ∈ group ++ [id], mid.Loose x := by
        intro x hx
        rcases List.mem_append.1 hx with hx | hx
        · exact hframed.loose x (hloose x hx).live.lt_size (hloose x hx)
        · exact List.mem_singleton.1 hx ▸ hid
      apply (ih (h.of_leads hlead) (h.hosts_of_leads hhost hlead) hkept).imp ?_ fun _ _ _ ↦ trivial
      rintro all after ⟨hafter, hendures, hlive, tail, rfl, hrest⟩
      refine ⟨hafter, (Tree.Endures.of_framed hframed rfl).trans hendures, hlive, id :: tail,
        (List.append_cons group id tail).symm, .cons ?_ hrest⟩
      exact hformed.of_endures hendures hafter.owned (hlive id (by simp))

namespace Tree

/-- The fields of an element are formed by the declarations that its list keeps. -/
def FormsElement (tree : Tree) (_ : NodeId) (template : List FieldDecl) (group : List FieldId) :
    Prop :=
  List.Forall₂ tree.Formed template group

/-- The fields of every element are formed by the declarations that its list keeps. -/
abbrev Grouped (tree : Tree) : Prop :=
  tree.GroupedBy FormsElement

variable {tree after : Tree} {id : FieldId} {owner : NodeId} {template : List FieldDecl}
  {group : List FieldId}

theorem FormsElement.of_endures (h : tree.FormsElement owner template group)
    (he : tree.Endures after) (ha : after.Owned) (hl : ∀ x ∈ group, after.Live x) :
    after.FormsElement owner template group := by
  induction h with
  | nil => exact .nil
  | cons hx _ ih =>
      obtain ⟨hlive, hrest⟩ := List.forall_mem_cons.1 hl
      exact .cons (hx.of_endures he ha hlive) (ih hrest)

theorem durable_formsElement : Durable FormsElement where
  lasts _ ha he _ _ hl h := h.of_endures he ha.owned fun x hx ↦ (hl x hx).2
  built hv _ h hhost template := by
    refine (hv.instantiateGroup_formed h hhost (fun _ hx ↦ absurd hx List.not_mem_nil)
      template).imp ?_ fun _ _ _ ↦ trivial
    rintro _ after ⟨_, _, _, _, rfl, hformed⟩
    exact hformed

namespace Grouped

/-- Formed elements are formed in every tree that keeps them, whatever happens to nodes. -/
theorem of_elements (h : tree.Grouped) (ha : after.Sound) (he : tree.Endures after)
    (hab : tree.Abides after)
    (hkept : ∀ id, after.Live id → ∀ group ∈ after.elements id, group ∈ tree.elements id) :
    after.Grouped :=
  h.step ha hab (fun _ _ _ _ hl hform ↦ hform.of_endures he ha.owned fun x hx ↦ (hl x hx).2)
    fun id _ _ ht group hg ↦ .inl (hkept id (live_of_template?_eq_some ht) group hg)

theorem of_field? (h : tree.Grouped) (ha : after.Sound) (hfields : after.field? = tree.field?)
    (hsize : after.fields.size = tree.fields.size) : after.Grouped := by
  refine h.of_elements ha (.of_field? hfields hsize) (.of_field? hfields hsize) ?_
  intro id _ group hg
  rwa [Tree.elements, Tree.read, hfields] at hg

theorem of_shrinks (h : tree.Grouped) (ha : after.Sound) (hs : tree.Shrinks after) :
    after.Grouped :=
  h.of_elements ha (.of_shrinks hs) (.of_shrinks hs) fun _ hl _ hg ↦ elements_of_shrinks hs hl ▸ hg

end Grouped

end Tree

end LightTree
