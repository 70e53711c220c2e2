import LightTree.Proofs.Reachable

/-!
# Up-to-date fields

A field is up to date if its state is the one that it derives from its source. It stays so while
neither the field nor a layer of its source changes, and what a change of one field can spoil are
the field itself and its followers.
-/

namespace LightTree

open Relation

namespace Tree

/-- The state of a field is the one that its live source determines, if it has one. -/
def UpToDate (tree : Tree) (id : FieldId) : Prop :=
  ∀ field source, tree.field? id = some field → field.link = some source →
    tree.SourceLive source →
    (∀ condition inner, field.value = .gated condition inner →
      field.active = tree.holds source condition) ∧
    ∀ template elements, field.value = .list true template elements →
      elements.length = tree.sourceLength source

def Keeps (tree after : Tree) : Prop :=
  ∀ id, tree.UpToDate id → after.UpToDate id

variable {tree after last : Tree}

theorem Keeps.refl (tree : Tree) : tree.Keeps tree :=
  fun _ h ↦ h

theorem Keeps.trans (h : tree.Keeps after) (h' : after.Keeps last) : tree.Keeps last :=
  fun id hid ↦ h' id (h id hid)

theorem upToDate_of_not_live {id : FieldId} (h : ¬tree.Live id) : tree.UpToDate id :=
  fun _ _ hf _ _ ↦ absurd (live_of_some hf) h

theorem upToDate_of_source_not_live {id : FieldId} {source : Source}
    (hlink : tree.link? id = some source) (h : ¬tree.SourceLive source) : tree.UpToDate id := by
  intro field source' hf hl hs
  rw [link?, read_of_some hf, hl] at hlink
  cases hlink
  exact absurd hs h

theorem upToDate_of_link?_eq_none {id : FieldId} (h : tree.link? id = none) : tree.UpToDate id := by
  intro field source hf hl _
  rw [link?, read_of_some hf, hl] at h
  cases h

theorem upToDate_of_underived {id : FieldId} {field : Field} (hf : tree.field? id = some field)
    (hinner : field.value.inner? = none)
    (hlist : ∀ template elements, field.value ≠ .list true template elements) :
    tree.UpToDate id := by
  intro field' source hf' _ _
  rw [hf] at hf'
  cases hf'
  refine ⟨fun condition inner hv ↦ ?_, fun template elements hv ↦ absurd hv (hlist _ _)⟩
  rw [hv] at hinner
  cases hinner

/-! ## Sources that look the same -/

/-- A field that is still there has the value and the activity it had. -/
def SameAt (tree after : Tree) (id : FieldId) : Prop :=
  ∀ new, after.field? id = some new → ∃ old, tree.field? id = some old ∧
    new.value = old.value ∧ new.active = old.active

/-- Dependents see no difference between the two trees at a source. -/
structure SameSource (tree after : Tree) (source : Source) : Prop where
  holds : ∀ condition, after.holds source condition = tree.holds source condition
  length : after.sourceLength source = tree.sourceLength source

theorem SameAt.inner? {id : FieldId} (h : tree.SameAt after id) (hl : after.Live id) :
    after.inner? id = tree.inner? id := by
  obtain ⟨new, hn⟩ := live_iff.1 hl
  obtain ⟨old, ho, hvalue, _⟩ := h new hn
  rw [inner?_eq_read, inner?_eq_read, read_of_some hn, read_of_some ho, hvalue]

/-- Where what a field wraps is the same, so is its innermost layer. -/
theorem unwrap_congr (ho : tree.Ordered) (hs : after.Ordered) (hw : after.Owned) {s : FieldId}
    (hlive : after.Live s)
    (hinner : ∀ x, ReflTransGen after.Wraps s x → after.Live x →
      after.inner? x = tree.inner? x) : after.unwrap s = tree.unwrap s := by
  have hpath : ∀ x, ReflTransGen after.Wraps s x → ReflTransGen tree.Wraps s x := by
    intro x hx
    induction hx with
    | refl => exact .refl
    | @tail a b ha hab ih =>
        exact ih.tail ((hinner a ha (live_of_inner?_eq_some hab)).symm.trans hab)
  have hwrap := wraps_unwrap after s
  apply eq_unwrap ho (hpath _ hwrap)
  rw [← hinner _ hwrap (hw.wraps_live hwrap hlive)]
  exact inner?_unwrap hs s

/-- A field source looks the same if its layers are still there and the same. -/
theorem SameSource.of_layers (ho : tree.Ordered) (hs : after.Ordered) (hw : after.Owned)
    {s : FieldId} (hlive : after.Live s)
    (hsame : ∀ x, ReflTransGen after.Wraps s x → tree.SameAt after x) :
    tree.SameSource after (.field s) := by
  have hlayer : ∀ x, ReflTransGen after.Wraps s x → ∃ old new, tree.field? x = some old ∧
      after.field? x = some new ∧ new.value = old.value ∧ new.active = old.active := by
    intro x hx
    obtain ⟨new, hn⟩ := live_iff.1 (hw.wraps_live hx hlive)
    obtain ⟨old, ho, hvalue, hactive⟩ := hsame x hx new hn
    exact ⟨old, new, ho, hn, hvalue, hactive⟩
  have hunwrap : after.unwrap s = tree.unwrap s := unwrap_congr ho hs hw hlive fun x hx hl ↦
    (hsame x hx).inner? hl
  obtain ⟨old, new, hold, hnew, _, hactive⟩ := hlayer s .refl
  obtain ⟨oldIn, newIn, holdIn, hnewIn, hvalue, _⟩ := hlayer _ (wraps_unwrap after s)
  rw [hunwrap] at holdIn hnewIn
  refine ⟨fun condition ↦ ?_, ?_⟩
  · cases condition with
    | present =>
        simp only [Tree.holds, isPresent, hunwrap, hold, hnew, holdIn, hnewIn, hvalue, hactive]
    | equals target =>
        simp only [Tree.holds, sourceRaw?, raw?, hunwrap, holdIn, hnewIn, Option.bind_some, hvalue]
  · simp only [sourceLength, listLength, hunwrap, holdIn, hnewIn, Option.bind_some, hvalue]

theorem SameSource.of_children {node : NodeId} (hlive : after.LiveNode node ↔ tree.LiveNode node)
    (hchildren : after.children node = tree.children node) :
    tree.SameSource after (.children node) := by
  have hraw : after.sourceRaw? (.children node) = tree.sourceRaw? (.children node) := by
    unfold LiveNode at hlive
    unfold Tree.children at hchildren
    simp only [sourceRaw?]
    cases ha : after.node? node with
    | none =>
        cases ht : tree.node? node with
        | none => rfl
        | some old => simp [ha, ht] at hlive
    | some new =>
        cases ht : tree.node? node with
        | none => simp [ha, ht] at hlive
        | some old =>
            simp only [ha, ht] at hchildren
            simp [hchildren]
  refine ⟨fun condition ↦ ?_, by simp only [sourceLength, hchildren]⟩
  cases condition with
  | present => simp only [Tree.holds, isPresent, hchildren]
  | equals target => simp only [Tree.holds, hraw]

/-! ## Staying up to date -/

/-- The field and the layers of its source look the same, or its source are the children of a node
that has the same children. -/
theorem UpToDate.of_same {id : FieldId} (h : tree.UpToDate id) (ht : tree.Sound) (ha : after.Sound)
    (hid : tree.SameAt after id) (hlink : after.Live id → after.link? id = tree.link? id)
    (hfield : ∀ s x, after.link? id = some (.field s) → ReflTransGen after.Wraps s x →
      tree.SameAt after x)
    (hnode : ∀ node, after.link? id = some (.children node) → after.LiveNode node →
      tree.LiveNode node ∧ after.children node = tree.children node) : after.UpToDate id := by
  intro new source hn hsource hlive
  obtain ⟨old, ho, hvalue, hactive⟩ := hid new hn
  have hnew : after.link? id = some source := by rw [link?, read_of_some hn, hsource]
  have hold : old.link = some source := by
    rw [← hnew, hlink (live_of_some hn), link?, read_of_some ho]
  have hsame : tree.SourceLive source ∧ tree.SameSource after source := by
    cases source with
    | field s =>
        obtain ⟨layer, hlayer⟩ := live_iff.1 hlive
        obtain ⟨before, hbefore, _⟩ := hfield s s hnew .refl layer hlayer
        exact ⟨live_of_some hbefore, .of_layers ht.ordered ha.ordered ha.owned hlive
          fun x ↦ hfield s x hnew⟩
    | children node =>
        obtain ⟨hl, hc⟩ := hnode node hnew hlive
        exact ⟨hl, .of_children (iff_of_true hlive hl) hc⟩
  rw [hvalue, hactive, hsame.2.length]
  simp only [hsame.2.holds]
  exact h old source ho hold hsame.1

theorem SameAt.of_eq {id : FieldId} (h : after.field? id = tree.field? id) :
    tree.SameAt after id :=
  fun new hn ↦ ⟨new, h ▸ hn, rfl, rfl⟩

theorem SameNodes.children_of_liveNode (h : tree.SameNodes after) (node : NodeId)
    (hl : after.LiveNode node) :
    tree.LiveNode node ∧ after.children node = tree.children node :=
  ⟨(h.liveNode node).1 hl, by rw [h.children]⟩

/-! ### Changes that spoil nothing -/

/-- A new field is up to date as long as it has no link. -/
theorem keeps_insertField (ht : tree.Sound) {field : Field} (hlink : field.link = none)
    (ha : (tree.insertField field).Sound) : tree.Keeps (tree.insertField field) := by
  intro id h
  by_cases hid : id = tree.nextField
  · refine upToDate_of_link?_eq_none ?_
    rw [link?, read_insertField, if_pos hid, hlink]
  · have hsame : ∀ x, x ≠ tree.nextField → tree.SameAt (tree.insertField field) x :=
      fun x hx ↦ .of_eq (field?_insertField_of_ne tree field hx)
    have hold : (tree.insertField field).link? id = tree.link? id := by
      rw [link?, read_insertField, if_neg hid, link?]
    refine h.of_same ht ha (hsame id hid) (fun _ ↦ hold) (fun s x hs hx ↦ hsame x ?_)
      fun node _ hn ↦ ⟨hn, rfl⟩
    rintro rfl
    have hissued : tree.Issued (.field s) := ht.ordered.link_issued id _ (hold ▸ hs)
    exact absurd (ha.ordered.le_of_wraps hx) (Nat.not_le_of_lt hissued)

theorem Shrinks.sameAt (h : tree.Shrinks after) (id : FieldId) : tree.SameAt after id := by
  intro new hn
  obtain ⟨old, ho, hnew, _⟩ := h.field id new hn
  exact ⟨old, ho, by rw [hnew], by rw [hnew]⟩

theorem Shrinks.keeps (h : tree.Shrinks after) (ht : tree.Sound) (ha : after.Sound) :
    tree.Keeps after := by
  intro id hid
  refine hid.of_same ht ha (h.sameAt id) h.link? (fun _ x _ _ ↦ h.sameAt x) fun node _ hn ↦ ?_
  refine ⟨h.liveNode hn, ?_⟩
  rw [children_eq_readNode, children_eq_readNode]
  exact h.readNode_eq (fun _ _ ↦ rfl) hn []

theorem sameAt_relink (tree : Tree) (dependent : FieldId) (source : Option Source) (x : FieldId) :
    tree.SameAt (tree.relink dependent source) x := by
  intro new hn
  obtain ⟨old, ho⟩ := live_iff.1 ((live_relink dependent source x).1 (live_of_some hn))
  have hstate : (tree.relink dependent source).read (fun field ↦ (field.value, field.active))
      (new.value, new.active) x = tree.read _ (new.value, new.active) x :=
    congrFun (read_relink dependent source (fun _ _ _ ↦ rfl) _) x
  rw [read_of_some hn, read_of_some ho, Prod.mk.injEq] at hstate
  exact ⟨old, ho, hstate⟩

/-- Moving a dependent spoils no other field. -/
theorem UpToDate.relink {id : FieldId} (h : tree.UpToDate id) (ht : tree.Sound)
    {dependent : FieldId} {source : Option Source} (hl : tree.Live dependent)
    (ha : (tree.relink dependent source).Sound) (hid : id ≠ dependent) :
    (tree.relink dependent source).UpToDate id := by
  refine h.of_same ht ha (sameAt_relink tree dependent source id) (fun _ ↦ ?_)
    (fun _ x _ _ ↦ sameAt_relink tree dependent source x)
    fun node _ ↦ (SameNodes.relink tree dependent source).children_of_liveNode node
  rw [link?_relink source hl, if_neg hid]

theorem keeps_refresh (ht : tree.Sound) : tree.Keeps tree.refreshed := by
  intro id h
  exact h.of_same ht ht.refresh (.of_eq rfl) (fun _ ↦ rfl) (fun _ _ _ _ ↦ .of_eq rfl)
    fun node _ hn ↦ ⟨hn, rfl⟩

/-- A change of nodes spoils what is linked to the children of a node whose children change. -/
theorem UpToDate.of_fields {id : FieldId} (h : tree.UpToDate id) (ht : tree.Sound)
    (ha : after.Sound) (hfields : after.field? = tree.field?)
    (hnode : ∀ node, tree.link? id = some (.children node) → after.LiveNode node →
      tree.LiveNode node ∧ after.children node = tree.children node) : after.UpToDate id := by
  have hlink : after.link? id = tree.link? id := by
    unfold link? read
    rw [hfields]
  refine h.of_same ht ha (.of_eq (congrFun hfields id)) (fun _ ↦ hlink)
    (fun _ x _ _ ↦ .of_eq (congrFun hfields x)) fun node hs ↦ hnode node (hlink ▸ hs)

/-! ### Changes of one field -/

/-- A follower follows on, unless it or its source is gone. -/
theorem Follows.persists {j id : FieldId} (h : tree.Follows j id) (ha : after.Owned)
    (hlink : after.Live j → after.link? j = tree.link? j)
    (hinner : ∀ x, tree.Live x → after.Live x → after.inner? x = tree.inner? x) :
    after.UpToDate j ∨ after.Follows j id := by
  obtain ⟨s, hs, hw⟩ := h
  by_cases hj : after.Live j
  · have hs' : after.link? j = some (.field s) := (hlink hj).trans hs
    by_cases hlive : after.Live s
    · refine .inr ⟨s, hs', ?_⟩
      induction hw with
      | refl => exact .refl
      | @tail a b _ hab ih =>
          have hla := ha.wraps_live ih hlive
          exact ih.tail ((hinner a (live_of_inner?_eq_some hab) hla).trans hab)
    · exact .inl (upToDate_of_source_not_live hs' hlive)
  · exact .inl (upToDate_of_not_live hj)

/-- All but one field stay up to date, if need be by following that one. -/
def KeepsBut (tree after : Tree) (id : FieldId) : Prop :=
  ∀ j, j ≠ id → (tree.UpToDate j ∨ tree.Follows j id) → (after.UpToDate j ∨ after.Follows j id)

theorem KeepsBut.refl (tree : Tree) (id : FieldId) : tree.KeepsBut tree id :=
  fun _ _ h ↦ h

theorem KeepsBut.trans {id : FieldId} (h : tree.KeepsBut after id) (h' : after.KeepsBut last id) :
    tree.KeepsBut last id :=
  fun j hj hold ↦ h' j hj (h j hj hold)

/-- A change of the state of one field spoils its followers only. -/
theorem keepsBut_of_sameAt (ht : tree.Sound) (ha : after.Sound) (hnodes : tree.SameNodes after)
    {id : FieldId} (hsame : ∀ x, x ≠ id → tree.SameAt after x)
    (hlink : ∀ x, after.Live x → after.link? x = tree.link? x)
    (hinner : ∀ x, tree.Live x → after.Live x → after.inner? x = tree.inner? x) :
    tree.KeepsBut after id := by
  intro j hj hold
  by_cases hf : after.Follows j id
  · exact .inr hf
  · left
    rcases hold with hold | hold
    · refine hold.of_same ht ha (hsame j hj) (hlink j) (fun s x hs hx ↦ hsame x ?_)
        fun node _ ↦ hnodes.children_of_liveNode node
      rintro rfl
      exact hf ⟨s, hs, hx⟩
    · exact (hold.persists ha.owned (hlink j) hinner).resolve_right hf

theorem keepsBut_updateField (ht : tree.Sound) {id : FieldId} {f : Field → Field}
    (hf : Retouches f) (ha : (tree.updateField id f).Sound) :
    tree.KeepsBut (tree.updateField id f) id := by
  refine keepsBut_of_sameAt ht ha (.updateField tree id f) (fun x hx ↦ ?_) (fun x _ ↦ ?_)
    fun x _ _ ↦ ?_
  · exact .of_eq (by rw [field?_updateField, if_neg (Ne.symm hx)])
  · rw [link?_updateField hf.link]
  · rw [inner?_updateField hf.inner?]

theorem keepsBut_drop (ht : tree.Sound) {id : FieldId}
    {f : List (List FieldId) → List (List FieldId)} {group : List FieldId}
    (ha : (tree.drop id f group).Sound) : tree.KeepsBut (tree.drop id f group) id := by
  have hs := releaseFields_shrinks
    (tree.updateField id fun field ↦ { field with value := field.value.mapElements f }) group
  have hf := retouches_mapElements f
  refine keepsBut_of_sameAt ht ha (.drop tree id f group) (fun x hx ↦ ?_) (fun x hx ↦ ?_)
    fun x _ hx ↦ ?_
  · intro new hn
    obtain ⟨mid, hm, hvalue, hactive⟩ := hs.sameAt x new hn
    rw [field?_updateField, if_neg (Ne.symm hx)] at hm
    exact ⟨mid, hm, hvalue, hactive⟩
  · rw [drop, hs.link? hx, link?_updateField hf.link]
  · rw [drop, hs.inner? hx, inner?_updateField hf.inner?]

end Tree

end LightTree
