import LightTree.Proofs.Pruning
import LightTree.Proofs.Reversal

/-!
# Lists that are resized

A cascade may tell a linked list several times, and while its source is being resized the list sees
lengths in between. Those lengths only rise where the request has made a source longer or has moved a
list to a longer one, and they only fall otherwise, so no list gives up elements and is then filled up
with new ones. Every other value is the one that it was, unless the request names its field.
-/

namespace LightTree

open Edit

namespace Value

/-- A list whose length its user sets. -/
def IsFree : Value → Prop
  | list linked _ _ => linked = false
  | _ => False

theorem not_isLinked_of_elements? {value : Value} (h : value.elements? = none) :
    value.isLinked = false := by
  cases value with
  | scalar | choice | gated => rfl
  | list => cases h

theorem not_isFree_of_elements? {value : Value} (h : value.elements? = none) : ¬value.IsFree := by
  cases value with
  | scalar | choice | gated => exact id
  | list => cases h

theorem Pruned.eq_of_not_isLinked {old new : Value} (h : old.Pruned new)
    (hold : old.isLinked = false) : new = old := by
  cases h with
  | same => rfl
  | shorter => cases hold

end Value

namespace Operation

/-- The field whose value the operation sets. -/
def mutated? : Operation → Option FieldId
  | setInteger id _ | setBoolean id _ | choose id _ | setText id _ | setColor id _ => some id
  | _ => none

/-- The list that the operation appends an element to or removes one from. -/
def edited? : Operation → Option FieldId
  | appendElement id | removeElement id _ => some id
  | _ => none

/-- Whether the operation asks for another value of a field, whatever gates lie around the field. -/
def Asks (operation : Operation) (tree : Tree) (id : FieldId) (value : Value) : Prop :=
  (operation.mutated?.map tree.unwrap = some id ∧ value.IsLeaf) ∨
    operation.edited?.map tree.unwrap = some id ∧ value.IsFree

end Operation

namespace Tree

/-- What may become of a value that no request names: a linked list may have lost elements from its
end, or got elements of new fields there. -/
inductive Resized (tree : Tree) : Value → Value → Prop
  | pruned {old new : Value} (h : old.Pruned new) : Resized tree old new
  | grown (template : List FieldDecl) (elements added : List (List FieldId))
      (hadded : ∀ group ∈ added, ∀ x ∈ group, ¬tree.Live x) :
    Resized tree (.list true template elements) (.list true template (elements ++ added))

/-- Fields that are in both trees have the values that they had in the first one, lists have been
resized, or another value was asked for. -/
def Resizes (tree : Tree) (asked : FieldId → Value → Prop) (after : Tree) : Prop :=
  ∀ id old new, tree.field? id = some old → after.field? id = some new →
    tree.Resized old.value new.value ∨ asked id old.value

variable {base tree mid after : Tree} {asked : FieldId → Value → Prop} {id list : FieldId}
  {parent child : NodeId} {dependent : FieldId} {source : Source}

namespace Resized

variable {old new : Value}

theorem eq_of_not_isLinked (h : tree.Resized old new) (hold : old.isLinked = false) :
    new = old := by
  cases h with
  | pruned h => exact h.eq_of_not_isLinked hold
  | grown => cases hold

/-- What is new in a later tree is new in the first one. -/
theorem of_live (h : mid.Resized old new) (hlive : ∀ x, tree.Live x → mid.Live x) :
    tree.Resized old new := by
  cases h with
  | pruned h => exact .pruned h
  | grown template elements added hadded =>
      exact .grown template elements added fun group hg x hx hl ↦ hadded group hg x hx (hlive x hl)

theorem exists_elements {template : List FieldDecl} {elements : List (List FieldId)}
    (h : tree.Resized (.list true template elements) new) :
    ∃ elements', new = .list true template elements' ∧ (elements' <+: elements ∨
      ∃ added, elements' = elements ++ added ∧ ∀ group ∈ added, ∀ x ∈ group, ¬tree.Live x) := by
  cases h with
  | pruned h =>
      cases h with
      | same => exact ⟨elements, rfl, .inl (List.prefix_refl elements)⟩
      | shorter _ hkept => exact ⟨_, rfl, .inl hkept⟩
  | grown _ _ added hadded => exact ⟨_, rfl, .inr ⟨added, rfl, hadded⟩⟩

end Resized

/-! ## From cascades to lists -/

theorem Prunes.resizes (h : tree.Prunes after) : tree.Resizes asked after := by
  intro id old new ho hn
  obtain ⟨old', ho', hp⟩ := h.value id new hn
  cases Option.some.inj (ho.symm.trans ho')
  exact .inl (.pruned hp)

/-- A cascade that prunes follows the change that was asked for. -/
theorem Prunes.resizes_updateField {f : Field → Field} (h : (tree.updateField id f).Prunes after)
    (hasked : ∀ field, tree.field? id = some field → asked id field.value) :
    tree.Resizes asked after := by
  intro x old new ho hn
  by_cases hx : id = x
  · exact .inr (hx ▸ hasked old (hx ▸ ho))
  · obtain ⟨old', ho', hp⟩ := h.value x new hn
    rw [field?_updateField, if_neg hx, ho] at ho'
    exact .inl (.pruned (Option.some.inj ho' ▸ hp))

theorem Sprouts.resizes {added : Additions} (h : base.Sprouts added tree)
    (hasked : ∀ id field, base.field? id = some field →
      added.elements id = [] ∨ asked id field.value) : base.Resizes asked tree := by
  intro id old new ho hn
  obtain ⟨new', hn', hgrown⟩ := h.old id old ho
  cases Option.some.inj (hn.symm.trans hn')
  obtain ⟨extra, hvalue, hlater, hextra⟩ := hgrown.value
  have hfresh : ∀ group ∈ extra, ∀ x ∈ group, ¬base.Live x := fun group hg x hx hl ↦
    not_later_of_live hl (hlater group hg x hx)
  cases hlinked : old.value.isLinked with
  | true =>
      obtain ⟨template, elements, hv⟩ :=
        list_of_isLinked ((isLinked_of_some ho).trans hlinked) ho
      rw [hvalue, hv]
      exact .inl (.grown template elements extra hfresh)
  | false =>
      refine (hasked id old ho).imp_left fun hnone ↦ ?_
      rw [hextra fun h ↦ Bool.false_ne_true (hlinked.symm.trans h.1), hnone] at hvalue
      have hsame : new.value = old.value := by
        rw [hvalue]
        cases old.value <;> simp [Value.mapElements]
      exact hsame ▸ .pruned (.same _)

/-- Steps before that keep all fields and their values make no difference. -/
theorem Resizes.of_kept (h : mid.Resizes asked after)
    (hkept : ∀ id old, tree.field? id = some old →
      ∃ field, mid.field? id = some field ∧ field.value = old.value) :
    tree.Resizes asked after := by
  intro id old new ho hn
  obtain ⟨field, hf, hvalue⟩ := hkept id old ho
  rw [← hvalue]
  refine (h id field new hf hn).imp_left fun hresized ↦ hresized.of_live fun x hx ↦ ?_
  obtain ⟨old', ho'⟩ := live_iff.1 hx
  obtain ⟨field', hf', -⟩ := hkept x old' ho'
  exact live_of_some hf'

theorem Untouched.kept (h : base.Untouched tree) (id : FieldId) (old : Field)
    (ho : base.field? id = some old) : ∃ field, tree.field? id = some field ∧
      field.value = old.value :=
  ⟨old, (h.field id (live_of_some ho).lt_size).trans ho, rfl⟩

theorem kept_relink (tree : Tree) (dependent : FieldId) (source : Option Source) (id : FieldId)
    (old : Field) (ho : tree.field? id = some old) :
    ∃ field, (tree.relink dependent source).field? id = some field ∧
      field.value = old.value := by
  obtain ⟨field, hf⟩ := live_iff.1 ((live_relink dependent source id).2 (live_of_some ho))
  obtain ⟨old', ho', hvalue, -⟩ := sameAt_relink tree dependent source id field hf
  cases Option.some.inj (ho.symm.trans ho')
  exact ⟨field, hf, hvalue⟩

/-! ## Changing values -/

theorem Settled.mutate_resizes (h : tree.Settled) {change : Field → Except Fault Value}
    (hchange : Leafy change)
    (hasked : ∀ field, tree.field? (tree.unwrap id) = some field → field.value.IsLeaf →
      asked (tree.unwrap id) field.value) :
    (mutate id change).Meets tree (fun _ ↦ tree.Resizes asked) fun _ _ ↦ True := by
  refine meets_mutate (fun _ ↦ trivial) fun _ field value hf hv ↦ ?_
  obtain ⟨hold, hnew⟩ := hchange field value hv
  refine ((h.ample_setValue hf hold hnew).settle_prunes _).imp (fun _ after hp ↦ ?_)
    fun _ _ _ ↦ trivial
  exact hp.resizes_updateField fun field' hf' ↦
    Option.some.inj (hf.symm.trans hf') ▸ hasked field hf hold

/-- Exactly the element at the index goes. -/
theorem Settled.removeElement_resizes (h : tree.Settled) (list : FieldId) (index : Nat) :
    (removeElement list index).Meets tree
      (fun outcome after ↦ tree.Resizes ((Operation.removeElement list index).Asks tree) after ∧
        ∀ field template elements, tree.field? (tree.unwrap list) = some field →
          field.value = .list false template elements →
          outcome = (if index < elements.length then .applied else .ignored) ∧
          ∀ new, after.field? (tree.unwrap list) = some new →
            new.value = .list false template (elements.eraseIdx index))
      fun _ _ ↦ True := by
  refine meets_removeElement_at (fun _ ↦ trivial) (fun field template elements hf hv hindex ↦ ?_)
    fun _ field template elements element hf hv he ↦ ?_
  · refine ⟨(Prunes.refl tree).resizes, fun field' template' elements' hf' hv' ↦ ?_⟩
    cases Option.some.inj (hf.symm.trans hf')
    cases hv.symm.trans hv'
    refine ⟨(if_neg (Nat.not_lt_of_le hindex)).symm, fun new hn ↦ ?_⟩
    rw [List.eraseIdx_of_length_le hindex, ← hv, Option.some.inj (hf.symm.trans hn)]
  · have hdrop : (tree.updateField (tree.unwrap list) fun field ↦
        { field with value := field.value.mapElements (·.eraseIdx index) }).Prunes
        (tree.drop (tree.unwrap list) (·.eraseIdx index) element) :=
      .of_shrinks (releaseFields_shrinks _ element)
    refine ((h.ample_drop hf hv index element).settle_prunes _).imp (fun _ after hp ↦ ?_)
      fun _ _ _ ↦ trivial
    have hafter := hdrop.trans hp
    refine ⟨hafter.resizes_updateField fun field' hf' ↦ ?_,
      fun field' template' elements' hf' hv' ↦ ?_⟩
    · cases Option.some.inj (hf.symm.trans hf')
      exact .inr ⟨rfl, hv ▸ rfl⟩
    · cases Option.some.inj (hf.symm.trans hf')
      cases hv.symm.trans hv'
      have hindex : index < elements.length := (List.getElem?_eq_some_iff.1 he).1
      refine ⟨(if_pos hindex).symm, fun new hn ↦ ?_⟩
      obtain ⟨erased, herased, hpruned⟩ := hafter.value _ new hn
      rw [field?_updateField, if_pos rfl, hf] at herased
      cases herased
      simp only [hv, Value.mapElements] at hpruned
      exact hpruned.eq_of_not_isLinked rfl

/-- One element of new fields comes after the others. -/
theorem Settled.appendElement_resizes (h : tree.Settled) (list : FieldId) :
    (appendElement list).Meets tree
      (fun group after ↦ tree.Resizes ((Operation.appendElement list).Asks tree) after ∧
        ∀ field template elements, tree.field? (tree.unwrap list) = some field →
          field.value = .list false template elements →
          (∀ x ∈ group, ¬tree.Live x) ∧ ∀ new, after.field? (tree.unwrap list) = some new →
            new.value = .list false template (elements ++ [group]))
      fun _ _ ↦ True := by
  refine (h.appendElement_sprouts list).imp ?_ fun _ _ _ ↦ trivial
  rintro group after ⟨field, template, elements, hf, hv, hgroup, hgrown⟩
  refine ⟨hgrown.resizes fun id field' hf' ↦ ?_, fun field' template' elements' hf' hv' ↦ ?_⟩
  · by_cases hid : id = tree.unwrap list
    · subst hid
      cases Option.some.inj (hf.symm.trans hf')
      exact .inr (.inr ⟨rfl, hv ▸ rfl⟩)
    · exact .inl (if_neg hid)
  · cases Option.some.inj (hf.symm.trans hf')
    cases hv.symm.trans hv'
    refine ⟨fun x hx hl ↦ not_later_of_live hl (hgroup x hx), fun new hn ↦ ?_⟩
    obtain ⟨new', hn', hgrown'⟩ := hgrown.old _ field hf
    cases Option.some.inj (hn.symm.trans hn')
    obtain ⟨extra, hvalue, -, hextra⟩ := hgrown'.value
    have hone : extra = [group] :=
      (hextra fun hlinked ↦ by simp [hv, Value.isLinked] at hlinked).trans (if_pos rfl)
    rw [hvalue, hv, hone]
    rfl

/-! ## Adding and removing nodes -/

theorem Settled.create_resizes (h : tree.Settled) (kind : NodeKind) :
    (create kind).Meets tree (fun _ ↦ tree.Resizes asked) fun _ _ ↦ True :=
  (h.sound.create_annexed kind).imp
    (fun _ mid hmid ↦ (Prunes.refl mid).resizes.of_kept hmid.1.toUntouched.kept)
    fun _ _ _ ↦ trivial

/-- A node that gets a child makes the lists that count its children too short at most. -/
theorem Settled.short_adopt (h : tree.Settled) (parent child : NodeId) :
    (tree.adopt parent child).Short := by
  intro id source hlinked hlink hlive
  have hspoilt := h.adopt parent child
  rcases hspoilt.upToDate id with hup | hparent
  · exact (hup.length_eq hlinked hlink hlive).le
  · cases Option.some.inj (hlink.symm.trans hparent)
    have hlive' : tree.LiveNode parent := by
      change (tree.adopt parent child).LiveNode parent at hlive
      rwa [Tree.adopt, liveNode_updateNode, liveNode_updateNode] at hlive
    have hlength : (tree.elements id).length = (tree.children parent).length :=
      (h.upToDate id).length_eq hlinked hlink hlive'
    show (tree.elements id).length ≤ ((tree.adopt parent child).children parent).length
    rw [hlength, children_adopt hlive', List.length_append]
    exact Nat.le_add_right _ _

theorem prunes_giveUp (tree : Tree) (child : NodeId) : tree.Prunes (tree.giveUp child) := by
  unfold giveUp
  split
  · exact .of_shrinks (releaseNode_shrinks tree child)
  · exact .refl tree

theorem Settled.addChild_resizes (h : tree.Settled) (parent child : NodeId) :
    (addChild parent child).Meets tree (fun _ ↦ tree.Resizes asked) fun _ _ ↦ True := by
  rw [meets_addChild, meets_attach]
  refine ⟨fun _ ↦ ⟨fun _ ↦ (prunes_giveUp tree child).resizes, nofun⟩,
    fun _ ↦ ⟨fun _ _ ↦ trivial, fun _ ↦ ?_⟩⟩
  have hs := h.sound.adopt parent child
  refine (Sprouting.settle hs (h.short_adopt parent child) (.children parent) _ (.refl _)).imp
    (fun _ after ha ↦ ⟨nofun, fun _ ↦ ?_⟩) fun _ _ _ ↦ trivial
  exact (ha.resizes fun _ _ _ ↦ .inl rfl).of_kept fun _ old ho ↦ ⟨old, ho, rfl⟩

theorem Settled.addByCategory_resizes (h : tree.Settled) (parent : NodeId) (category : Category) :
    (addByCategory parent category).Meets tree (fun _ ↦ tree.Resizes asked) fun _ _ ↦ True := by
  rw [meets_addByCategory]
  refine ⟨fun _ ↦ (Prunes.refl tree).resizes, fun kind _ _ ↦ ?_⟩
  refine ((h.sound.create_annexed kind).and (create_keepsSettled kind tree h)).imp ?_
    fun _ _ _ ↦ trivial
  rintro child mid ⟨⟨hannexed, -⟩, hmid⟩
  exact (hmid.addChild_resizes parent child).imp
    (fun _ _ ha ↦ ha.of_kept hannexed.toUntouched.kept) fun _ _ _ ↦ trivial

theorem Settled.removeChild_resizes (h : tree.Settled) (parent child : NodeId) :
    (removeChild parent child).Meets tree (fun _ ↦ tree.Resizes asked) fun _ _ ↦ True := by
  rw [meets_removeChild]
  refine ⟨fun _ ↦ (Prunes.refl tree).resizes, fun _ ↦ ⟨fun _ _ ↦ trivial, fun _ ↦ ?_⟩⟩
  have hgone : (tree.disown parent child).Prunes ((tree.disown parent child).releaseNode child) :=
    .of_shrinks (releaseNode_shrinks _ child)
  have hample := h.ample_releaseNode (.disown tree parent child) rfl child
  exact (hample.settle_prunes _).imp
    (fun _ _ hp ↦ (hgone.trans hp).resizes.of_kept fun _ old ho ↦ ⟨old, ho, rfl⟩)
    fun _ _ _ ↦ trivial

/-- A node in the place of another one makes no source longer. -/
theorem Settled.retype_resizes (h : tree.Settled) (id : NodeId) (symbol : String) :
    (retype id symbol).Meets tree (fun _ ↦ tree.Resizes asked) fun _ _ ↦ True := by
  refine meets_retype (Prunes.refl tree).resizes fun node parent kind _ _ _ ↦
    ⟨fun _ _ ↦ trivial, fun _ ↦ ?_⟩
  refine ((h.sound.create_annexed kind).and (create_keepsSettled kind tree h)).imp ?_
    fun _ _ _ ↦ trivial
  rintro new mid ⟨⟨hannexed, -⟩, hmid⟩
  have hkept := hannexed.toUntouched.kept
  refine ⟨fun _ ↦ (Prunes.of_shrinks (releaseNode_shrinks mid new)).resizes.of_kept hkept,
    fun _ ↦ ?_⟩
  have hgone : (mid.supplant parent id new).Prunes ((mid.supplant parent id new).releaseNode id) :=
    .of_shrinks (releaseNode_shrinks _ id)
  have hample := hmid.ample_releaseNode (.supplant mid parent id new) rfl id
  exact (hample.settle_prunes _).imp (fun _ _ hp ↦ (hgone.trans hp).resizes.of_kept hkept)
    fun _ _ _ ↦ trivial

/-! ## Moving a dependent -/

theorem sourceLive_relink : (tree.relink dependent (some source)).SourceLive = tree.SourceLive := by
  funext s
  cases s with
  | field id => exact propext (live_relink dependent _ id)
  | children node => exact propext (liveNode_relink dependent _ node)

theorem sourceLength_relink :
    (tree.relink dependent (some source)).sourceLength = tree.sourceLength := by
  funext s
  cases s with
  | field id =>
      have helements : (tree.relink dependent (some source)).elements = tree.elements :=
        read_relink dependent _ (fun _ _ _ ↦ rfl) []
      have hunwrap : (tree.relink dependent (some source)).unwrap id = tree.unwrap id := by
        simp only [unwrap, layers, inner?_relink, fields_size_relink]
      rw [sourceLength, sourceLength, listLength_eq, listLength_eq, helements, hunwrap]
  | children node =>
      rw [sourceLength, sourceLength, (SameNodes.relink tree dependent _).children]

/-- A list that is moved is too short for its new source or long enough for it, and all others have
the lengths that they should have. -/
theorem Settled.short_or_ample_relink (h : tree.Settled) (hl : tree.Live dependent)
    (source : Source) :
    (tree.relink dependent (some source)).Short ∧ tree.SourceLive source ∨
      (tree.relink dependent (some source)).Ample := by
  have hlinked : (tree.relink dependent (some source)).isLinked = tree.isLinked :=
    read_relink dependent _ (fun _ _ _ ↦ rfl) false
  have helements : (tree.relink dependent (some source)).elements = tree.elements :=
    read_relink dependent _ (fun _ _ _ ↦ rfl) []
  unfold Short Ample
  simp only [hlinked, helements, sourceLive_relink, sourceLength_relink, link?_relink _ hl]
  rcases Nat.lt_or_ge (tree.elements dependent).length (tree.sourceLength source) with hlt | hge
  · refine .inl ⟨fun x s hx hs hlive ↦ ?_, ?_⟩
    · split at hs
      · next he =>
          cases hs
          exact he ▸ hlt.le
      · exact ((h.upToDate x).length_eq hx hs hlive).le
    · by_contra hgone
      rw [sourceLength_of_not_live hgone] at hlt
      exact Nat.not_lt_zero _ hlt
  · refine .inr fun x s hx hs ↦ ?_
    split at hs
    · next he =>
        cases hs
        exact he ▸ hge
    · exact (h.upToDate x).sourceLength_le hx hs

/-- The cascade of the moved dependent lets the tree sprout or prunes it, whatever source is named. -/
theorem Settled.rebind_resizes (h : tree.Settled) (dependent : FieldId) (source : Source) :
    (rebind dependent source).Meets tree (fun _ ↦ tree.Resizes asked) fun _ _ ↦ True := by
  rw [rebind, meets_rebindWith]
  refine ⟨fun field hf ↦ ⟨fun _ ↦ trivial, fun hc ↦ ⟨fun _ _ ↦ trivial, fun _ ↦ ?_⟩⟩,
    fun _ ↦ trivial⟩
  have hl := live_of_some hf
  have hkept := kept_relink tree dependent (some source)
  have hresizes : (enter false dependent).Meets (tree.relink dependent (some source))
      (fun _ ↦ tree.Resizes asked) fun _ _ ↦ True := by
    rcases h.short_or_ample_relink hl source with ⟨hshort, hlive⟩ | hample
    · have hs := h.sound.relink_of_not_closesCycle hl hlive.issued hc
      have hsteered : (tree.relink dependent (some source)).Steered dependent := by
        refine ⟨source, ?_, ?_⟩
        · rw [link?_relink _ hl, if_pos rfl]
        · rwa [sourceLive_relink]
      exact (Sprouting.enter hs hshort false dependent (.inr hsteered) _ (.refl _)).imp
        (fun _ _ ha ↦ (ha.resizes fun _ _ _ ↦ .inl rfl).of_kept hkept) fun _ _ _ ↦ trivial
    · exact (hample.enter_prunes false dependent).imp (fun _ _ hp ↦ hp.resizes.of_kept hkept)
        fun _ _ _ ↦ trivial
  refine hresizes.imp (fun _ _ ha ↦ ha) fun _ after _ ↦ ?_
  rw [meets_relink]
  exact ⟨fun _ ↦ trivial, fun _ ↦ trivial⟩

/-! ## Histories -/

theorem Settled.edit_resizes (h : tree.Settled) (operation : Operation) :
    operation.edit.Meets tree (fun _ ↦ tree.Resizes (operation.Asks tree)) fun _ _ ↦ True := by
  cases operation with
  | create kind => exact (meets_bind ..).2 (h.create_resizes kind)
  | addChild parent child => exact (meets_bind ..).2 (h.addChild_resizes parent child)
  | addByCategory parent category =>
      exact (meets_bind ..).2 (h.addByCategory_resizes parent category)
  | removeChild parent child => exact (meets_bind ..).2 (h.removeChild_resizes parent child)
  | detach node =>
      refine (meets_bind ..).2 ?_
      rw [meets_detach]
      exact ⟨fun _ ↦ (Prunes.refl tree).resizes,
        fun parent _ ↦ h.removeChild_resizes parent node⟩
  | retype node symbol => exact (meets_bind ..).2 (h.retype_resizes node symbol)
  | setInteger id n =>
      exact (meets_bind ..).2
        (h.mutate_resizes (leafy_setInteger n) fun _ _ hleaf ↦ .inl ⟨rfl, hleaf⟩)
  | setBoolean id b =>
      exact (meets_bind ..).2
        (h.mutate_resizes (leafy_setBoolean b) fun _ _ hleaf ↦ .inl ⟨rfl, hleaf⟩)
  | choose id option =>
      exact (meets_bind ..).2
        (h.mutate_resizes (leafy_choose option) fun _ _ hleaf ↦ .inl ⟨rfl, hleaf⟩)
  | setText id text =>
      exact (meets_bind ..).2
        (h.mutate_resizes (leafy_setText text) fun _ _ hleaf ↦ .inl ⟨rfl, hleaf⟩)
  | setColor id text =>
      exact (meets_bind ..).2
        (h.mutate_resizes (leafy_setColor text) fun _ _ hleaf ↦ .inl ⟨rfl, hleaf⟩)
  | appendElement list =>
      exact (meets_bind ..).2 ((h.appendElement_resizes list).imp (fun _ _ ha ↦ ha.1)
        fun _ _ _ ↦ trivial)
  | removeElement list index =>
      exact (meets_bind ..).2 ((h.removeElement_resizes list index).imp (fun _ _ ha ↦ ha.1)
        fun _ _ _ ↦ trivial)
  | rebind dependent source => exact (meets_bind ..).2 (h.rebind_resizes dependent source)

section

variable {answer : Answer} {old new : Field} {template : List FieldDecl}
  {elements : List (List FieldId)}

theorem Settled.appended (h : tree.Settled)
    (hperform : tree.perform (.appendElement list) = (.ok answer, after))
    (hold : tree.field? (tree.unwrap list) = some old)
    (hv : old.value = .list false template elements)
    (hnew : after.field? (tree.unwrap list) = some new) :
    ∃ group, answer = .element group ∧ (∀ x ∈ group, ¬tree.Live x) ∧
      new.value = .list false template (elements ++ [group]) := by
  have hmeets : (Operation.appendElement list).edit.Meets tree
      (fun answer after ↦ ∀ new, after.field? (tree.unwrap list) = some new →
        ∃ group, answer = .element group ∧ (∀ x ∈ group, ¬tree.Live x) ∧
          new.value = .list false template (elements ++ [group])) fun _ _ ↦ True := by
    refine (meets_bind ..).2 ((h.appendElement_resizes list).imp ?_ fun _ _ _ ↦ trivial)
    rintro group after ⟨-, happended⟩ new hn
    obtain ⟨hfresh, helements⟩ := happended old template elements hold hv
    exact ⟨group, rfl, hfresh, helements new hn⟩
  exact hmeets.of_runOn_ok hperform new hnew

theorem Settled.removed (h : tree.Settled) {index : Nat}
    (hperform : tree.perform (.removeElement list index) = (.ok answer, after))
    (hold : tree.field? (tree.unwrap list) = some old)
    (hv : old.value = .list false template elements)
    (hnew : after.field? (tree.unwrap list) = some new) :
    answer = .outcome (if index < elements.length then .applied else .ignored) ∧
      new.value = .list false template (elements.eraseIdx index) := by
  have hmeets : (Operation.removeElement list index).edit.Meets tree
      (fun answer after ↦ ∀ new, after.field? (tree.unwrap list) = some new →
        answer = .outcome (if index < elements.length then .applied else .ignored) ∧
          new.value = .list false template (elements.eraseIdx index)) fun _ _ ↦ True := by
    refine (meets_bind ..).2 ((h.removeElement_resizes list index).imp ?_ fun _ _ _ ↦ trivial)
    rintro outcome after ⟨-, hremoved⟩ new hn
    obtain ⟨houtcome, helements⟩ := hremoved old template elements hold hv
    exact ⟨congrArg Answer.outcome houtcome, helements new hn⟩
  exact hmeets.of_runOn_ok hperform new hnew

end

/-- After a history without faults, of the elements of a linked list that an operation does not
release, those before and those after are such that one list is the beginning of the other, and
elements that come are of new fields. A list that its user sets keeps its elements, unless the
operation appends an element to it or removes one, and then it gets one element of new fields or
loses the one at the index. Any other value stays the same, unless the operation sets it. -/
theorem resized_run {catalog : Catalog} {settings : Settings} {tree : Tree}
    {operations : List Operation} (hstart : start catalog settings = .ok tree)
    (hlive : tree.RebindsLive operations)
    (hok : ∀ answer ∈ (tree.run operations).1, ∃ a, answer = .ok a) {final after : Tree}
    (hfinal : (tree.run operations).2 = final) {operation : Operation} {answer : Answer}
    (hperform : final.perform operation = (.ok answer, after)) {id : FieldId} {old new : Field}
    (hold : final.field? id = some old) (hnew : after.field? id = some new) :
    (∀ template elements, old.value = .list true template elements →
      ∃ elements', new.value = .list true template elements' ∧ (elements' <+: elements ∨
        ∃ added, elements' = elements ++ added ∧
          ∀ group ∈ added, ∀ x ∈ group, ¬final.Live x)) ∧
    (∀ template elements, old.value = .list false template elements →
      (operation.edited?.map final.unwrap ≠ some id → new.value = old.value) ∧
      (∀ list, operation = .appendElement list → final.unwrap list = id →
        ∃ group, answer = .element group ∧ (∀ x ∈ group, ¬final.Live x) ∧
          new.value = .list false template (elements ++ [group])) ∧
      ∀ list index, operation = .removeElement list index → final.unwrap list = id →
        answer = .outcome (if index < elements.length then .applied else .ignored) ∧
          new.value = .list false template (elements.eraseIdx index)) ∧
    (old.value.elements? = none → operation.mutated?.map final.unwrap ≠ some id →
      new.value = old.value) := by
  subst hfinal
  have h := (settled_start hstart).run hlive hok
  set final := (tree.run operations).2
  have hresizes := (h.edit_resizes operation).of_runOn_ok hperform id old new hold hnew
  refine ⟨fun template elements hv ↦ ?_, fun template elements hv ↦ ⟨fun hspared ↦ ?_, ?_, ?_⟩,
    fun hother hspared ↦ ?_⟩
  · rcases hresizes with hresized | ⟨-, hleaf⟩ | ⟨-, hfree⟩
    · rw [hv] at hresized
      exact hresized.exists_elements
    · rw [hv] at hleaf
      exact hleaf.elim
    · rw [hv] at hfree
      cases hfree
  · rcases hresizes with hresized | ⟨-, hleaf⟩ | ⟨hasked, -⟩
    · exact hresized.eq_of_not_isLinked (by rw [hv]; rfl)
    · rw [hv] at hleaf
      exact hleaf.elim
    · exact absurd hasked hspared
  · rintro list rfl rfl
    exact h.appended hperform hold hv hnew
  · rintro list index rfl rfl
    exact h.removed hperform hold hv hnew
  · rcases hresizes with hresized | ⟨hasked, -⟩ | ⟨-, hfree⟩
    · exact hresized.eq_of_not_isLinked (Value.not_isLinked_of_elements? hother)
    · exact absurd hasked hspared
    · exact absurd hfree (Value.not_isFree_of_elements? hother)

/-- A second animation below a state map leaves the first one its state and gets a new one. -/
theorem resized_run_standard :
    let operations : List Operation := [.addByCategory ⟨0⟩ .object, .addByCategory ⟨1⟩ .animation,
      .retype ⟨2⟩ "m", .addByCategory ⟨3⟩ .animation]
    let final := (standardTree.run operations).2
    let after := (final.perform (.addByCategory ⟨3⟩ .animation)).2
    (final.elements ⟨15⟩).length = 1 ∧ (after.elements ⟨15⟩).length = 2 ∧
      final.elements ⟨15⟩ <+: after.elements ⟨15⟩ := by
  intro operations final after
  have hlive : standardTree.RebindsLive operations := ⟨trivial, trivial, trivial, trivial, trivial⟩
  have hok : ∀ answer ∈ (standardTree.run operations).1, ∃ a, answer = .ok a := by
    have hanswers : (standardTree.run operations).1 =
        List.replicate 4 (.ok (.outcome .applied)) := by
      decide +kernel
    rw [hanswers]
    simp
  have hone : (final.elements ⟨15⟩).length = 1 := by
    decide +kernel
  have htwo : (after.elements ⟨15⟩).length = 2 := by
    decide +kernel
  have hlinked : final.isLinked ⟨15⟩ = true := by
    decide +kernel
  have hleft : after.Live ⟨15⟩ := by
    decide +kernel
  have hanswer : (final.perform (.addByCategory ⟨3⟩ .animation)).1 =
      .ok (.outcome .applied) := by
    decide +kernel
  have hfinal : (standardTree.run operations).2 = final := rfl
  clear_value final
  have hperform : final.perform (.addByCategory ⟨3⟩ .animation) =
      (.ok (.outcome .applied), after) :=
    Prod.ext hanswer rfl
  obtain ⟨old, ho⟩ := live_iff.1 (live_of_isLinked hlinked)
  obtain ⟨new, hn⟩ := live_iff.1 hleft
  obtain ⟨template, elements, hv⟩ := list_of_isLinked hlinked ho
  obtain ⟨hresized, -⟩ := resized_run start_standard hlive hok hfinal hperform ho hn
  obtain ⟨elements', hv', heither⟩ := hresized template elements hv
  have hbefore : final.elements ⟨15⟩ = elements := elements_of_some ho (by rw [hv]; rfl)
  have hafter : after.elements ⟨15⟩ = elements' := elements_of_some hn (by rw [hv']; rfl)
  refine ⟨hone, htwo, ?_⟩
  rw [hbefore] at hone ⊢
  rw [hafter] at htwo ⊢
  rcases heither with hshorter | ⟨added, rfl, -⟩
  · have hle := hshorter.length_le
    omega
  · exact List.prefix_append elements added

end Tree

end LightTree
