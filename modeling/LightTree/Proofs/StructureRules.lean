import LightTree.Catalog.Standard
import LightTree.Proofs.CascadeRules
import LightTree.Proofs.Soundness
import LightTree.Tree.Mutation

/-!
# Contracts of operations

One rule for each function that changes the shape of a tree or a value, in the manner of the rules
for cascades.
-/

namespace LightTree

namespace Tree

def adopt (tree : Tree) (parent child : NodeId) : Tree :=
  (tree.updateNode parent fun node ↦ { node with children := node.children ++ [child] }).updateNode
    child ({ · with parent := some parent })

def disown (tree : Tree) (parent child : NodeId) : Tree :=
  tree.updateNode parent fun node ↦ { node with children := node.children.erase child }

def supplant (tree : Tree) (parent old new : NodeId) : Tree :=
  (tree.updateNode parent fun node ↦
    { node with children := node.children.replace old new }).updateNode
    new ({ · with parent := some parent })

def giveUp (tree : Tree) (child : NodeId) : Tree :=
  if tree.isDetached child then tree.releaseNode child else tree

def refreshed (tree : Tree) : Tree :=
  { tree with refreshes := tree.refreshes + 1 }

end Tree

/-! ## Values that changes store -/

/-- A change that takes a leaf and gives a leaf. -/
def Leafy (change : Field → Except Fault Value) : Prop :=
  ∀ field value, change field = .ok value → field.value.IsLeaf ∧ value.IsLeaf

theorem leafy_setInteger (n : Int64) : Leafy (·.setInteger n) := by
  intro field value h
  simp only [Field.setInteger] at h
  split at h
  · next hold =>
      cases h
      simp [hold, Value.IsLeaf]
  · next hold =>
      cases h
      simp [hold, Value.IsLeaf]
  · cases h

theorem leafy_setBoolean (b : Bool) : Leafy (·.setBoolean b) := by
  intro field value h
  simp only [Field.setBoolean] at h
  split at h
  · next hold =>
      cases h
      simp [hold, Value.IsLeaf]
  · cases h

theorem leafy_choose (option : String) : Leafy (·.choose option) := by
  intro field value h
  simp only [Field.choose] at h
  split at h
  · next hold =>
      split at h
      · cases h
        simp [hold, Value.IsLeaf]
      · cases h
  · cases h

theorem leafy_setText (text : String) : Leafy (·.setText text) := by
  intro field value h
  simp only [Field.setText] at h
  split at h
  · cases h
  · split at h
    · next hold =>
        cases h
        simp [hold, Value.IsLeaf]
    · cases h

theorem leafy_setColor (text : String) : Leafy (·.setColor text) := by
  intro field value h
  simp only [Field.setColor] at h
  split at h
  · next hold =>
      split at h
      · cases h
        simp [hold, Value.IsLeaf]
      · cases h
  · cases h

namespace Edit

variable {tree : Tree} {bad : Fault → Tree → Prop}

theorem meets_settle {source : Source} {good : Unit → Tree → Prop} :
    (settle source).Meets tree good bad ↔
      (propagate (enter true) source).Meets tree (fun _ after ↦ good () after.refreshed)
        fun fault after ↦ bad fault after.refreshed := by
  simp only [settle, meets_bind, meets_orElseUndo, meets_refresh, Tree.refreshed]

/-! ## Attaching and building -/

theorem meets_attach {parent child : NodeId} {refresh : Bool} {good : Outcome → Tree → Prop} :
    (attach parent child refresh).Meets tree good bad ↔
      (tree.canAttach parent child = false → good .ignored tree) ∧
      (tree.canAttach parent child = true →
        (∀ fault, tree.rehearse (.children parent) = .error fault → bad fault tree) ∧
        (tree.rehearse (.children parent) = .ok () →
          (childrenChanged parent refresh).Meets (tree.adopt parent child)
            (fun _ ↦ good .applied) bad)) := by
  unfold attach
  simp only [meets_bind, meets_get]
  by_cases hc : tree.canAttach parent child = true
  · simp only [hc, Bool.not_true, Bool.false_eq_true, if_false, meets_bind, meets_check_unit,
      meets_modify, meets_pure, false_imp_iff, reduceCtorEq, true_and, forall_const]
    rfl
  · simp [hc]

theorem meets_furnish_cons {id : NodeId} {decl : FieldDecl} {rest : List FieldDecl}
    {good : Unit → Tree → Prop} :
    (furnish id (decl :: rest)).Meets tree good bad ↔
      (instantiate (enter false) id [] none decl).Meets tree
        (fun field after ↦ (furnish id rest).Meets (after.addTop id field) good bad) bad := by
  simp only [furnish, meets_bind, meets_modify, Tree.addTop]

theorem meets_release {id : NodeId} {good : Unit → Tree → Prop} :
    (release id).Meets tree good bad ↔ good () (tree.releaseNode id) :=
  Iff.rfl

theorem meets_populateOne {make : NodeKind → Edit NodeId} {id : NodeId} {kind childKind : NodeKind}
    {good : Unit → Tree → Prop} :
    (populateOne make id kind childKind).Meets tree good bad ↔
      (make childKind).Meets tree
        (fun child mid ↦ (attach id child false).Meets mid
          (fun outcome after ↦
            (outcome = .ignored → bad (.schema (.childRejected kind.name childKind.name))
              (after.releaseNode child)) ∧ (outcome = .applied → good () after))
          fun fault after ↦ bad fault (after.releaseNode child)) bad := by
  unfold populateOne
  simp only [meets_bind, meets_orElseUndo, meets_release]
  refine iff_of_eq (congrArg (fun g ↦ (make childKind).Meets tree g bad) ?_)
  funext child mid
  refine congrArg (fun g ↦ (attach id child false).Meets mid g _) ?_
  funext outcome after
  cases outcome <;> simp [meets_release]

theorem meets_populate_succ {make : NodeKind → Edit NodeId} {id : NodeId} {kind : NodeKind}
    {childKind? : Option NodeKind} {count : Nat} {good : Unit → Tree → Prop} :
    (populate make id kind childKind? (count + 1)).Meets tree good bad ↔
      (childKind? = none →
        bad (.schema (.noChildKind kind.name kind.minChildren kind.childCategory)) tree) ∧
      ∀ childKind, childKind? = some childKind →
        (populateOne make id kind childKind).Meets tree
          (fun _ after ↦ (populate make id kind childKind? count).Meets after good bad) bad := by
  conv_lhs => unfold populate
  cases childKind? with
  | none => simp
  | some childKind =>
      simp only [meets_bind, reduceCtorEq, false_imp_iff, true_and, Option.some.injEq, forall_eq']

theorem meets_build {make : NodeKind → Edit NodeId} {id : NodeId} {kind : NodeKind}
    {good : Unit → Tree → Prop} :
    (build make id kind).Meets tree good bad ↔
      (furnish id kind.fields).Meets tree
        (fun _ after ↦
          (kind.childCategory ≠ .nothing → (populate make id kind
            (after.catalog.first? kind.childCategory) kind.minChildren).Meets after good bad) ∧
          (kind.childCategory = .nothing → good () after)) bad := by
  unfold build
  rw [meets_bind]
  refine iff_of_eq (congrArg (fun g ↦ (furnish id kind.fields).Meets tree g bad) ?_)
  funext _ after
  by_cases hc : kind.childCategory = .nothing
  · simp [hc]
  · simp [hc]

theorem meets_createWithin_succ {depth : Nat} {kind : NodeKind} {good : NodeId → Tree → Prop} :
    (createWithin (depth + 1) kind).Meets tree good bad ↔
      (∀ fault, kind.check = .error fault → bad fault tree) ∧
      (kind.check = .ok () →
        (build (createWithin depth) tree.nextNode kind).Meets (tree.insertNode { kind })
          (fun _ ↦ good tree.nextNode)
          fun fault after ↦ bad fault (after.releaseNode tree.nextNode)) := by
  simp only [createWithin, meets_bind, meets_check_unit, meets_addNode, meets_orElseUndo,
    meets_release, meets_pure]

/-! ## Adding and removing -/

theorem meets_giveUp {child : NodeId} {good : Unit → Tree → Prop} :
    (do if (← get).isDetached child then release child : Edit Unit).Meets tree good bad ↔
      good () (tree.giveUp child) := by
  rw [meets_bind, meets_get, Tree.giveUp]
  split <;> simp [*, meets_release]

theorem meets_addChild {parent child : NodeId} {good : Outcome → Tree → Prop} :
    (addChild parent child).Meets tree good bad ↔
      (attach parent child true).Meets tree
        (fun outcome after ↦
          (outcome = .ignored → good .ignored (after.giveUp child)) ∧
          (outcome = .applied → good .applied after))
        fun fault after ↦ bad fault (after.giveUp child) := by
  unfold addChild
  rw [meets_bind, meets_orElseUndo]
  simp only [meets_giveUp]
  refine iff_of_eq (congrArg (fun g ↦ (attach parent child true).Meets tree g _) ?_)
  funext outcome after
  cases outcome with
  | applied => simp
  | ignored =>
      rw [if_pos rfl, meets_bind, meets_giveUp]
      simp

theorem meets_addByCategory {parent : NodeId} {category : Category}
    {good : Outcome → Tree → Prop} :
    (addByCategory parent category).Meets tree good bad ↔
      ((tree.node? parent).any (·.accepts category) = false ∨
        tree.catalog.first? category = none → good .ignored tree) ∧
      ∀ kind, (tree.node? parent).any (·.accepts category) = true →
        tree.catalog.first? category = some kind →
        (create kind).Meets tree (fun child after ↦ (addChild parent child).Meets after good bad)
          bad := by
  unfold addByCategory
  simp only [meets_bind, meets_get]
  by_cases ha : (tree.node? parent).any (·.accepts category) = true
  · cases tree.catalog.first? category <;> simp [ha]
  · simp [ha]

theorem meets_removeChild {parent child : NodeId} {good : Outcome → Tree → Prop} :
    (removeChild parent child).Meets tree good bad ↔
      (child ∉ tree.children parent → good .ignored tree) ∧
      (child ∈ tree.children parent →
        (∀ fault, tree.rehearse (.children parent) = .error fault → bad fault tree) ∧
        (tree.rehearse (.children parent) = .ok () →
          (childrenChanged parent true).Meets ((tree.disown parent child).releaseNode child)
            (fun _ ↦ good .applied) bad)) := by
  unfold removeChild
  simp only [meets_bind, meets_get]
  by_cases hc : child ∈ tree.children parent
  · simp only [List.contains_iff_mem.2 hc, Bool.not_true, Bool.false_eq_true, if_false, meets_bind,
      meets_check_unit, meets_modify, meets_release, meets_pure, hc, not_true_eq_false,
      false_imp_iff, true_and, forall_const]
    rfl
  · simp [hc]

theorem meets_detach {id : NodeId} {good : Outcome → Tree → Prop} :
    (detach id).Meets tree good bad ↔
      (tree.parent? id = none → good .ignored tree) ∧
      ∀ parent, tree.parent? id = some parent → (removeChild parent id).Meets tree good bad := by
  unfold detach
  rw [meets_bind, meets_get]
  cases tree.parent? id <;> simp

theorem meets_replaceChild {parent old new : NodeId} {good : Unit → Tree → Prop} :
    (replaceChild parent old new).Meets tree good bad ↔ good () (tree.supplant parent old new) :=
  Iff.rfl

/-- Retyping replaces a node that has a parent, if there is a kind with the symbol. -/
theorem meets_retype {id : NodeId} {symbol : String} {good : Outcome → Tree → Prop}
    (hignored : good .ignored tree)
    (hreplace : ∀ node parent kind, tree.node? id = some node → node.parent = some parent →
      tree.catalog.find? node.kind.category symbol = some kind →
      (∀ fault, tree.rehearse (.children parent) = .error fault → bad fault tree) ∧
      (tree.rehearse (.children parent) = .ok () →
        (create kind).Meets tree
          (fun new mid ↦
            (id ∉ mid.children parent → good .ignored (mid.releaseNode new)) ∧
            (id ∈ mid.children parent →
              (childrenChanged parent true).Meets ((mid.supplant parent id new).releaseNode id)
                (fun _ ↦ good .applied) bad)) bad)) :
    (retype id symbol).Meets tree good bad := by
  unfold retype
  simp only [meets_bind, meets_get]
  cases hnode : tree.node? id with
  | none => exact hignored
  | some node =>
      cases hparent : node.parent with
      | none => simpa only [hparent, meets_pure] using hignored
      | some parent =>
          cases hkind : tree.catalog.find? node.kind.category symbol with
          | none => simpa only [hparent, hkind, meets_pure] using hignored
          | some kind =>
              obtain ⟨hbad, hok⟩ := hreplace node parent kind hnode hparent hkind
              simp only [hparent, hkind, meets_bind, meets_check]
              refine ⟨fun _ hc ↦ (hok hc).imp ?_ fun _ _ h ↦ h, hbad⟩
              rintro new mid ⟨hgone, hthere⟩
              rw [meets_get]
              by_cases hm : id ∈ mid.children parent
              · have hcontains := List.contains_iff_mem.2 hm
                simp only [hcontains, Bool.not_true, Bool.false_eq_true, if_false, meets_bind,
                  meets_replaceChild, meets_release, meets_pure]
                exact hthere hm
              · have hcontains : (mid.children parent).contains id = false := by simpa using hm
                simp only [hcontains, Bool.not_false, if_true, meets_bind, meets_release,
                  meets_pure]
                exact hgone hm

/-! ## Changing values -/

theorem meets_target {id : FieldId} {good : FieldId × Field → Tree → Prop} :
    (target id).Meets tree good bad ↔
      (∀ fault, tree.rehearse (.field (tree.unwrap id)) = .error fault → bad fault tree) ∧
      (tree.rehearse (.field (tree.unwrap id)) = .ok () →
        (∀ field, tree.field? (tree.unwrap id) = some field →
          good (tree.unwrap id, field) tree) ∧
        (tree.field? (tree.unwrap id) = none →
          bad (.unknownField (tree.unwrap id)) tree)) := by
  simp only [target, meets_bind, meets_get, meets_check_unit, meets_field, meets_pure]

/-- A value changes at the innermost layer, which then settles. -/
theorem meets_mutate {id : FieldId} {change : Field → Except Fault Value}
    {good : Unit → Tree → Prop} (hbad : ∀ fault, bad fault tree)
    (hstore : tree.rehearse (.field (tree.unwrap id)) = .ok () →
      ∀ field value, tree.field? (tree.unwrap id) = some field → change field = .ok value →
      (settle (.field (tree.unwrap id))).Meets
        (tree.updateField (tree.unwrap id) ({ · with value })) good bad) :
    (mutate id change).Meets tree good bad := by
  unfold mutate
  rw [meets_bind, meets_target]
  refine ⟨fun fault _ ↦ hbad fault, fun hr ↦ ⟨fun field hf ↦ ?_, fun _ ↦ hbad _⟩⟩
  simp only [meets_bind, meets_check, meets_setValue]
  exact ⟨fun value hv ↦ hstore hr field value hf hv, fun fault _ ↦ hbad fault⟩

theorem meets_appendElement {id : FieldId} {good : List FieldId → Tree → Prop}
    (hbad : ∀ fault, bad fault tree)
    (hgrow : tree.rehearse (.field (tree.unwrap id)) = .ok () →
      ∀ field template elements, tree.field? (tree.unwrap id) = some field →
      field.value = .list false template elements →
      (instantiateGroup (enter false) field.owner (some (tree.unwrap id)) [] template).Meets tree
        (fun group mid ↦
          (mid.Live (tree.unwrap id) → (settle (.field (tree.unwrap id))).Meets
            (mid.push (tree.unwrap id) group) (fun _ ↦ good group) bad) ∧
          (¬mid.Live (tree.unwrap id) → bad (.unknownField (tree.unwrap id)) mid)) bad) :
    (appendElement id).Meets tree good bad := by
  unfold appendElement
  rw [meets_bind, meets_target]
  refine ⟨fun fault _ ↦ hbad fault, fun hr ↦ ⟨fun field hf ↦ ?_, fun _ ↦ hbad _⟩⟩
  cases hvalue : field.value with
  | scalar | choice | gated => simpa only [hvalue, meets_throw] using hbad _
  | list linked template elements =>
      cases linked with
      | true => simpa only [hvalue, meets_throw] using hbad _
      | false =>
          simp only [hvalue, meets_bind, meets_discard_field, meets_mapElements, meets_pure]
          exact hgrow hr field template elements hf hvalue

/-- Removing an element is ignored where the list has no element at the index. -/
theorem meets_removeElement_at {id : FieldId} {index : Nat} {good : Outcome → Tree → Prop}
    (hbad : ∀ fault, bad fault tree)
    (hignored : ∀ field template elements, tree.field? (tree.unwrap id) = some field →
      field.value = .list false template elements → elements.length ≤ index → good .ignored tree)
    (hdrop : tree.rehearse (.field (tree.unwrap id)) = .ok () →
      ∀ field template elements element, tree.field? (tree.unwrap id) = some field →
      field.value = .list false template elements → elements[index]? = some element →
      (settle (.field (tree.unwrap id))).Meets
        (tree.drop (tree.unwrap id) (·.eraseIdx index) element) (fun _ ↦ good .applied) bad) :
    (removeElement id index).Meets tree good bad := by
  unfold removeElement
  rw [meets_bind, meets_target]
  refine ⟨fun fault _ ↦ hbad fault, fun hr ↦ ⟨fun field hf ↦ ?_, fun _ ↦ hbad _⟩⟩
  cases hvalue : field.value with
  | scalar | choice | gated => simpa only [hvalue, meets_throw] using hbad _
  | list linked template elements =>
      cases linked with
      | true => simpa only [hvalue, meets_throw] using hbad _
      | false =>
          cases helement : elements[index]? with
          | none =>
              simp only [hvalue, helement, meets_pure]
              exact hignored field template elements hf hvalue (List.getElem?_eq_none_iff.1 helement)
          | some element =>
              simp only [hvalue, helement, meets_bind, meets_mapElements, meets_modify, meets_pure]
              exact hdrop hr field template elements element hf hvalue helement

theorem meets_removeElement {id : FieldId} {index : Nat} {good : Outcome → Tree → Prop}
    (hbad : ∀ fault, bad fault tree) (hignored : good .ignored tree)
    (hdrop : tree.rehearse (.field (tree.unwrap id)) = .ok () →
      ∀ field template elements element, tree.field? (tree.unwrap id) = some field →
      field.value = .list false template elements → elements[index]? = some element →
      (settle (.field (tree.unwrap id))).Meets
        (tree.drop (tree.unwrap id) (·.eraseIdx index) element) (fun _ ↦ good .applied) bad) :
    (removeElement id index).Meets tree good bad :=
  meets_removeElement_at hbad (fun _ _ _ _ _ _ ↦ hignored) hdrop

end Edit

/-! ## The first tree -/

theorem Catalog.root_mem (catalog : Catalog) : catalog.root ∈ catalog.kinds :=
  List.mem_of_find?_eq_some (Option.some_get catalog.isSome_first?_system).symm

/-- A kind of system without children. -/
def loneKind (fields : List FieldDecl) : NodeKind where
  name := "System"
  symbol := ""
  category := .system
  childCategory := .nothing
  minChildren := 0
  maxChildren := some 0
  fields := fields

namespace Tree

theorem field?_empty (catalog : Catalog) (settings : Settings) (id : FieldId) :
    ({ catalog, settings } : Tree).field? id = none := by
  simp [field?, Store.find?]

theorem node?_empty (catalog : Catalog) (settings : Settings) (id : NodeId) :
    ({ catalog, settings } : Tree).node? id = none := by
  simp [node?, Store.find?]

/-- What holds of the root with its fields and required children holds of the first tree. -/
theorem of_start {catalog : Catalog} {settings : Settings} {tree : Tree} {good : Tree → Prop}
    (hbuild : (build create ⟨0⟩ catalog.root).Meets
      (({ catalog, settings } : Tree).insertNode { kind := catalog.root }) (fun _ ↦ good)
      fun _ _ ↦ True)
    (h : start catalog settings = .ok tree) : good tree := by
  unfold start at h
  have hrun : (do
      let id ← Edit.addNode { kind := catalog.root }
      build create id catalog.root : Edit Unit).Meets { catalog, settings } (fun _ ↦ good)
        fun _ _ ↦ True :=
    (Edit.meets_bind ..).2 hbuild
  unfold Edit.Meets at hrun
  simp only at h
  split at h
  · next hr =>
      rw [hr] at hrun
      exact Except.ok.inj h ▸ hrun
  · cases h

/-- The first tree of the standard catalog: a root without fields. -/
def standardTree : Tree :=
  ({ catalog := .standard, settings := {} } : Tree).insertNode { kind := Catalog.standard.root }

theorem start_standard : start .standard {} = .ok standardTree :=
  rfl

/-- The first tree of a catalog of one kind, if it can be built. -/
def loneTree (kind : NodeKind) (h : Catalog.check [kind] = .ok ()) : Tree :=
  ((build create ⟨0⟩ kind).runOn
    (({ catalog := ⟨[kind], h⟩, settings := {} } : Tree).insertNode { kind })).2

end Tree

end LightTree
