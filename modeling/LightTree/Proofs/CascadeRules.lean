import LightTree.Proofs.Contract
import LightTree.Proofs.View
import LightTree.Tree.Cascade

/-!
# Contracts of cascades

One rule for each function of a cascade: what its contract asks of the functions that it calls. Any
fact about cascades is proved from these rules, whatever it says about the trees on the way.
-/

namespace LightTree

/-! ## Faults of checks -/

/-- The faults of a walk that enters a field twice, goes too deep or does not end. -/
def Fault.stopsCascade : Fault → Bool
  | .cycle _ | .tooDeep _ | .exhausted => true
  | _ => false

namespace Tree

variable {tree : Tree} {path : List FieldId} {id : FieldId} {fault : Fault}

theorem stopsCascade_of_guard {field : Field} (h : tree.guard path id field = .error fault) :
    fault.stopsCascade = true := by
  unfold guard at h
  split at h
  · cases h
    rfl
  · split at h
    · cases h
      rfl
    · cases h

theorem stopsCascade_of_rehearseWithin {fuel : Nat}
    (h : tree.rehearseWithin fuel path id = .error fault) : fault.stopsCascade = true := by
  induction fuel generalizing path id with
  | zero =>
      cases h
      rfl
  | succ fuel ih =>
      rw [rehearseWithin] at h
      cases hf : tree.field? id with
      | none =>
          rw [hf] at h
          cases h
      | some field =>
          rw [hf] at h
          cases hg : tree.guard path id field with
          | error fault' =>
              simp only [hg] at h
              cases h
              exact stopsCascade_of_guard hg
          | ok u =>
              simp only [hg] at h
              obtain ⟨d, _, hd⟩ := exists_of_forM_eq_error h
              exact ih hd

theorem stopsCascade_of_rehearse {source : Source} (h : tree.rehearse source = .error fault) :
    fault.stopsCascade = true := by
  obtain ⟨d, _, hd⟩ := exists_of_forM_eq_error h
  exact stopsCascade_of_rehearseWithin hd

end Tree

namespace Edit

variable {visit : FieldId → Edit Unit} {tree : Tree} {bad : Fault → Tree → Prop}

/-! ## Wiring -/

theorem meets_discard_field {id : FieldId} {good : Unit → Tree → Prop} :
    (discard (field id)).Meets tree good bad ↔
      (tree.Live id → good () tree) ∧ (¬tree.Live id → bad (.unknownField id) tree) := by
  rw [meets_discard, meets_field, Tree.not_live_iff, Tree.live_iff, forall_exists_index]

theorem meets_relink {dependent : FieldId} {source : Option Source} {good : Unit → Tree → Prop} :
    (LightTree.relink dependent source).Meets tree good bad ↔
      (tree.Live dependent → good () (tree.relink dependent source)) ∧
        (¬tree.Live dependent → bad (.unknownField dependent) tree) := by
  simp only [LightTree.relink, meets_bind, meets_discard_field, meets_modify]

theorem meets_rebindWith {dependent : FieldId} {source : Source} {good : Unit → Tree → Prop} :
    (rebindWith visit dependent source).Meets tree good bad ↔
      (∀ field, tree.field? dependent = some field →
        (tree.closesCycle dependent source = true → bad (.cycle field.name) tree) ∧
        (tree.closesCycle dependent source = false →
          (∀ fault, tree.rehearseEntry dependent = .error fault → bad fault tree) ∧
          (tree.rehearseEntry dependent = .ok () →
            (visit dependent).Meets (tree.relink dependent (some source)) good fun fault after ↦
              (LightTree.relink dependent field.link).Meets after (fun _ ↦ bad fault) bad))) ∧
      (tree.field? dependent = none → bad (.unknownField dependent) tree) := by
  unfold rebindWith
  simp only [meets_bind, meets_field, meets_get]
  refine and_congr_left' (forall₂_congr fun field hf ↦ ?_)
  have hl : tree.Live dependent := Tree.live_of_some hf
  by_cases hc : tree.closesCycle dependent source = true
  · simp [hc]
  · simp only [hc, Bool.false_eq_true, if_false, meets_bind, meets_check_unit, meets_relink,
      meets_orElseUndo, hl, forall_const, not_true_eq_false, false_imp_iff, and_true,
      true_and]

/-! ## Building fields -/

/-- A declaration resolves to the children of the node or to the first field of its name in the
group and at the top of the node, and changes nothing. It fails where there is no such field. -/
theorem meets_resolve (owner : NodeId) (group : List FieldId) (decl : FieldDecl) :
    (resolve owner group decl).Meets tree
      (fun source after ↦ after = tree ∧ ∀ s, source = some s →
        s = .children owner ∨ ∃ name id, decl.dependency? = some name ∧ s = .field id ∧
          tree.firstNamed? name (group ++ tree.topFields owner) = some id)
      fun fault after ↦ after = tree ∧ ∃ name, decl.dependency? = some name ∧
        fault = .unknownSource decl.name name ∧
        tree.firstNamed? name (group ++ tree.topFields owner) = none := by
  unfold resolve
  split
  · exact ⟨rfl, fun s hs ↦ .inl (Option.some.inj hs).symm⟩
  · split
    · exact ⟨rfl, fun s hs ↦ absurd hs.symm (Option.some_ne_none s)⟩
    · next name hname =>
        rw [meets_check]
        cases hfirst : tree.firstNamed? name (group ++ tree.topFields owner) with
        | none =>
            refine ⟨fun source h ↦ ?_, fun fault h ↦ ?_⟩
            · simp at h
            · simp only [Except.error.injEq] at h
              exact ⟨rfl, name, hname, h.symm, hfirst⟩
        | some id =>
            refine ⟨fun source h ↦ ⟨rfl, ?_⟩, fun fault h ↦ ?_⟩
            · simp only [Except.ok.injEq] at h
              rintro s rfl
              exact .inr ⟨name, id, hname, (Option.some.inj h).symm, hfirst⟩
            · simp at h

theorem meets_resolve_of_dependency? {owner : NodeId} {group : List FieldId} {decl : FieldDecl}
    {name : String} (hname : decl.dependency? = some name) :
    (resolve owner group decl).Meets tree
      (fun source after ↦ after = tree ∧ ∃ id, source = some (.field id) ∧
        tree.firstNamed? name (group ++ tree.topFields owner) = some id)
      fun _ _ ↦ True := by
  unfold resolve
  split
  · cases hname
  · rw [hname, meets_check]
    refine ⟨fun source h ↦ ⟨rfl, ?_⟩, fun _ _ ↦ trivial⟩
    split at h
    · next id hfirst => exact ⟨id, (Except.ok.inj h).symm, hfirst⟩
    · cases h

theorem meets_plant {owner : NodeId} {group : List FieldId} {container : Option FieldId}
    {decl : FieldDecl} {value : Value} {good : FieldId → Tree → Prop} :
    (plant visit owner group container decl value).Meets tree good bad ↔
      (resolve owner group decl).Meets
        (tree.insertField { name := decl.name, owner, value, container })
        (fun source after ↦
          (source = none → good tree.nextField after) ∧
          ∀ s, source = some s →
            (rebindWith visit tree.nextField s).Meets after (fun _ ↦ good tree.nextField) bad)
        bad := by
  unfold plant
  simp only [meets_bind, meets_addField]
  refine iff_of_eq (congrArg (fun g ↦ (resolve owner group decl).Meets _ g bad) ?_)
  funext source after
  cases source with
  | none => simp
  | some s => simp only [meets_bind, meets_pure, reduceCtorEq, false_imp_iff, true_and,
      Option.some.injEq, forall_eq']

section

variable {owner : NodeId} {group : List FieldId} {container : Option FieldId}
  {good : FieldId → Tree → Prop}

theorem meets_instantiate_choice {name : String} {options : List Choice} :
    (instantiate visit owner group container (.choice name options)).Meets tree good bad ↔
      (options = [] → bad (.schema (.noOptions name)) tree) ∧
      (options ≠ [] →
        (plant visit owner group container (.choice name options) (.choice options 0)).Meets tree
          good bad) := by
  unfold instantiate
  by_cases ho : options = []
  · simp [ho]
  · simp [ho]

theorem meets_instantiate_gated {name source : String} {condition : Condition}
    {inner : FieldDecl} :
    (instantiate visit owner group container (.gated name source condition inner)).Meets tree
        good bad ↔
      (instantiate visit owner group container inner).Meets tree
        (fun id after ↦ (plant visit owner group container (.gated name source condition inner)
          (.gated condition id)).Meets after good bad) bad := by
  rw [instantiate, meets_bind]

end

theorem meets_instantiateGroup_cons {owner : NodeId} {container : Option FieldId}
    {group : List FieldId} {decl : FieldDecl} {rest : List FieldDecl}
    {good : List FieldId → Tree → Prop} :
    (instantiateGroup visit owner container group (decl :: rest)).Meets tree good bad ↔
      (instantiate visit owner group container decl).Meets tree
        (fun id after ↦
          (instantiateGroup visit owner container (group ++ [id]) rest).Meets after good bad)
        bad := by
  rw [instantiateGroup, meets_bind]

/-! ## Linked lists -/

theorem meets_grow_succ {owner : NodeId} {template : List FieldDecl} {id : FieldId}
    {count : Nat} {good : Unit → Tree → Prop} :
    (grow visit owner template id (count + 1)).Meets tree good bad ↔
      (instantiateGroup visit owner (some id) [] template).Meets tree
        (fun group after ↦
          (after.Live id → (grow visit owner template id count).Meets
            (after.updateField id fun field ↦
              { field with value := field.value.mapElements (· ++ [group]) }) good bad) ∧
          (¬after.Live id → bad (.unknownField id) after)) bad := by
  rw [grow]
  simp only [meets_bind, meets_discard_field, meets_mapElements]

theorem meets_shrink_succ {id : FieldId} {count : Nat} {good : Unit → Tree → Prop} :
    (shrink id (count + 1)).Meets tree good bad ↔
      (∀ field, tree.field? id = some field →
        (shrink id count).Meets
          ((tree.updateField id fun field ↦
            { field with value := field.value.mapElements (·.dropLast) }).releaseFields
              ((field.value.elements?.bind (·.getLast?)).getD [])) good bad) ∧
        (tree.field? id = none → bad (.unknownField id) tree) := by
  rw [shrink]
  simp only [meets_bind, meets_field, meets_mapElements, meets_modify]

theorem meets_resize {id : FieldId} {length : Nat} {good : Unit → Tree → Prop} :
    (resize visit id length).Meets tree good bad ↔
      (∀ field, tree.field? id = some field →
        (∀ linked template elements, field.value = .list linked template elements →
          (grow visit field.owner template id (length - elements.length)).Meets tree
            (fun _ after ↦ (shrink id (elements.length - length)).Meets after good bad) bad) ∧
        (field.value.elements? = none →
          bad (.wrongKind field.name FieldKind.link.keyword) tree)) ∧
      (tree.field? id = none → bad (.unknownField id) tree) := by
  unfold resize
  rw [meets_bind, meets_field]
  refine and_congr_left' (forall₂_congr fun field _ ↦ ?_)
  cases field.value <;> simp [Value.elements?]

/-! ## Deriving and notifying -/

theorem meets_recompute {id : FieldId} {good : Unit → Tree → Prop} :
    (recompute visit id).Meets tree good bad ↔
      (∀ field, tree.field? id = some field →
        (∀ source condition inner, field.link = some source →
          field.value = .gated condition inner →
          good () (tree.updateField id ({ · with active := tree.holds source condition }))) ∧
        (∀ source template elements, field.link = some source →
          field.value = .list true template elements →
          (resize visit id (tree.sourceLength source)).Meets tree good bad) ∧
        ((field.link = none ∨ field.value.inner? = none ∧
            ∀ template elements, field.value ≠ .list true template elements) →
          good () tree)) ∧
      (tree.field? id = none → bad (.unknownField id) tree) := by
  unfold recompute
  rw [meets_bind, meets_field]
  refine and_congr_left' (forall₂_congr fun field _ ↦ ?_)
  cases field.link with
  | none => simp
  | some source =>
      cases field.value with
      | scalar | choice => simp [Value.inner?]
      | gated condition inner => simp [Value.inner?]
      | list linked template elements => cases linked <;> simp [Value.inner?]

theorem meets_spread_cons {id : FieldId} {outer : List FieldId} {good : Unit → Tree → Prop} :
    (spread visit (id :: outer)).Meets tree good bad ↔
      (tree.Live id → ((tree.listeners id).forM visit).Meets tree
        (fun _ after ↦ (spread visit outer).Meets after good bad) bad) ∧
      (¬tree.Live id → good () tree) := by
  rw [spread, meets_bind, meets_get, Tree.not_live_iff, Tree.live_iff]
  cases hf : tree.field? id with
  | none => simp
  | some field => simp [Tree.listeners, hf]

theorem meets_propagate_children {id : NodeId} {good : Unit → Tree → Prop} :
    (propagate visit (.children id)).Meets tree good bad ↔
      ((tree.nodeListeners id).forM visit).Meets tree good bad := by
  rw [propagate, meets_bind, meets_get]
  cases hn : tree.node? id with
  | none =>
      rw [Tree.nodeListeners, Tree.readNode_of_none hn]
      rfl
  | some node => rw [Tree.nodeListeners, Tree.readNode_of_some hn]

theorem meets_propagate_field {id : FieldId} {good : Unit → Tree → Prop} :
    (propagate visit (.field id)).Meets tree good bad ↔
      (spread visit (tree.enclosing id)).Meets tree good bad := by
  rw [propagate, meets_bind, meets_get]

theorem meets_notify_succ {fuel : Nat} {refresh : Bool} {path : List FieldId} {id : FieldId}
    {good : Unit → Tree → Prop} :
    (notify (fuel + 1) refresh path id).Meets tree good bad ↔
      (∀ field, tree.field? id = some field →
        (∀ fault, tree.guard path id field = .error fault → bad fault tree) ∧
        (tree.guard path id field = .ok () →
          (recompute (notify fuel false []) id).Meets tree
            (fun _ after ↦
              (propagate (notify fuel refresh (id :: path)) (.field id)).Meets
                (if refresh && !after.settings.coalesce then
                  { after with refreshes := after.refreshes + 1 } else after) good bad) bad)) ∧
      (tree.field? id = none → good () tree) := by
  rw [notify, meets_bind, meets_get]
  cases hf : tree.field? id with
  | none => simp
  | some field =>
      simp only [meets_bind, meets_check_unit, Option.some.injEq, forall_eq', reduceCtorEq,
        false_imp_iff, and_true, meets_get]
      have hrest : ∀ after : Tree,
          (if (refresh && !after.settings.coalesce) = true then do
            Edit.refresh
            propagate (notify fuel refresh (id :: path)) (.field id)
          else propagate (notify fuel refresh (id :: path)) (.field id)).Meets after good bad ↔
          (propagate (notify fuel refresh (id :: path)) (.field id)).Meets
            (if refresh && !after.settings.coalesce then
              { after with refreshes := after.refreshes + 1 } else after) good bad := by
        intro after
        split <;> simp
      simp only [hrest]

end Edit

end LightTree
