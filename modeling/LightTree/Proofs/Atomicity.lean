import LightTree.Proofs.Plain
import LightTree.Proofs.Refusals

/-!
# Growth that is refused

An operation that grows the tree rehearses its cascade on the tree as it is. The cascade that it
runs can differ from that in two ways: it may be told to new fields, and it may build elements.
Nothing is told to new fields that are not linked, so where the elements of all lists are plain, the
cascade ends as the rehearsal did, and an operation that fails has changed nothing that was there
before.
Elements that depend on other fields can make the cascade fail halfway.
-/

namespace LightTree

open Relation Edit

/-- Whether the elements of all lists that a kind declares are plain. -/
def NodeKind.isPlain (kind : NodeKind) : Bool :=
  kind.fields.all fun decl ↦ decl.template?.all FieldDecl.groupIsPlain

theorem NodeKind.fits_of_isPlain {kind : NodeKind} (h : kind.isPlain = true) :
    kind.Fits PlainGroup := by
  intro _ decl hd element he
  have hdecl := List.all_eq_true.1 h decl hd
  rwa [he] at hdecl

/-- The tree that an operation leaves when it is refused: a detached node that could not be added is
given up. -/
def Operation.refused (operation : Operation) (tree : Tree) : Tree :=
  match operation with
  | .addChild _ child => tree.giveUp child
  | _ => tree

/-- An edit of a tree fails only if what was there in another tree is untouched and the view has
been told of nothing. -/
def Edit.FailsIntact {α : Type} (edit : Edit α) (tree base : Tree) : Prop :=
  edit.Meets tree (fun _ _ ↦ True) fun _ after ↦
    base.Untouched after ∧ after.refreshes = base.refreshes

namespace Tree

/-- A housed tree where the elements of all lists are plain, and of all lists in the catalog. -/
structure Plain (tree : Tree) : Prop extends tree.Housed where
  stock : tree.Stocked PlainGroup

variable {base tree mid after : Tree}

theorem failsIntact_of_allOrNothing {α : Type} {edit : Edit α} (h : edit.AllOrNothing tree) :
    edit.FailsIntact tree tree := by
  refine Meets.imp h (fun _ _ _ ↦ trivial) ?_
  rintro _ _ rfl
  exact ⟨.refl _, rfl⟩

/-- The cascade of a stored change ends well if it was rehearsed on the tree before the change. -/
theorem Sound.rehearses_mild (h : tree.Sound) :
    tree.Rehearses (·.index < tree.fields.size) (tree.Mild (·.index < tree.fields.size)) :=
  h.ordered.rehearses_mild (fun _ hx ↦ hx) fun _ _ _ hxy ↦ h.lt_size_of_feeds hxy

theorem Mild.settle (h : base.Mild (·.index < base.fields.size) tree) (hb : base.Sound)
    {id : FieldId} (hlive : base.Live id) (hr : base.rehearse (.field id) = .ok ()) :
    (settle (.field id)).Meets tree (fun _ _ ↦ True) fun _ after ↦ after = base := by
  have hbegin : base.Begins (·.index < base.fields.size) tree (.field id) := hlive.lt_size
  exact (hb.rehearses_mild.settle hbegin hr h).imp (fun _ _ _ ↦ trivial)
    fun _ _ hfalse ↦ hfalse.elim

theorem Mild.childrenChanged (h : base.Mild (·.index < base.fields.size) tree) (hb : base.Sound)
    {parent : NodeId} (hsub : tree.nodeListeners parent ⊆ base.nodeListeners parent)
    (hr : base.rehearse (.children parent) = .ok ()) (refresh : Bool) :
    (childrenChanged parent refresh).Meets tree (fun _ _ ↦ True) fun _ after ↦ after = base :=
  (hb.rehearses_mild.childrenChanged refresh (hb.begins_children hsub) hr h).imp
    (fun _ _ _ ↦ trivial) fun _ _ hfalse ↦ hfalse.elim

/-! ## Elements -/

theorem appendElement_refused (h : tree.Plain) (id : FieldId) :
    (appendElement id).AllOrNothing tree := by
  refine meets_appendElement (fun _ ↦ rfl) fun hr field template elements hf hv ↦ ?_
  have hplain := h.stock.suits _ field.owner template (template?_of_list hf hv)
  have hsuits : (instantiateGroup (enter false) field.owner (some (tree.unwrap id)) []
      template).Keeps (Suits · PlainGroup) :=
    nested_plainGroup.instantiateGroup (nested_plainGroup.enter false) _ []
      (nested_plainGroup _ _ hplain)
  have hbuilt := (h.element hf hv).and (hsuits tree h.stock.suits)
  refine (hbuilt.and (instantiateGroup_plain hplain [] tree)).imp ?_
    fun _ _ hfalse ↦ hfalse.2.elim
  rintro group mid ⟨⟨⟨_, hpush⟩, hmid⟩, huntouched⟩
  have hlive : mid.Live (tree.unwrap id) :=
    live_of_some ((huntouched.field _ (live_of_some hf).lt_size).trans hf)
  refine ⟨fun _ ↦ ?_, fun hdead ↦ absurd hlive hdead⟩
  have hmild : tree.Mild (·.index < tree.fields.size) (mid.push (tree.unwrap id) group) :=
    { toEchoes := (Echoes.of_untouched huntouched fun _ hx ↦ hx).trans (.push mid _ group)
      toHoused := (hpush hlive).housed
      suits := hmid.push _ group }
  exact hmild.settle h.sound (live_of_some hf) hr

/-! ## Nodes -/

theorem Sound.create_failsIntact (h : tree.Sound) (kind : NodeKind) :
    (create kind).FailsIntact tree tree :=
  ((h.create_annexed kind).and (growing_refreshes.create kind tree)).imp (fun _ _ _ ↦ trivial)
    fun _ _ ⟨ha, hr⟩ ↦ ⟨ha.toUntouched, hr⟩

theorem nodeListeners_adopt (tree : Tree) (parent child : NodeId) :
    (tree.adopt parent child).nodeListeners = tree.nodeListeners := by
  rw [nodeListeners, Tree.adopt, readNode_updateNode_of_keeps, readNode_updateNode_of_keeps]
  · rfl
  · exact fun _ ↦ rfl
  · exact fun _ ↦ rfl

theorem nodeListeners_supplant (tree : Tree) (parent old new : NodeId) :
    (tree.supplant parent old new).nodeListeners = tree.nodeListeners := by
  rw [nodeListeners, Tree.supplant, readNode_updateNode_of_keeps, readNode_updateNode_of_keeps]
  · rfl
  · exact fun _ ↦ rfl
  · exact fun _ ↦ rfl

theorem attach_refused (h : tree.Plain) (parent child : NodeId) (refresh : Bool) :
    (attach parent child refresh).AllOrNothing tree := by
  unfold AllOrNothing
  rw [meets_attach]
  refine ⟨fun _ ↦ trivial, fun _ ↦ ⟨fun _ _ ↦ rfl, fun hr ↦ ?_⟩⟩
  have hmild : tree.Mild (·.index < tree.fields.size) (tree.adopt parent child) :=
    { toEchoes := .of_fields rfl rfl
      toHoused := (h.adopt parent child).housed
      suits := (h.stock.of_nodes rfl rfl).suits }
  have hlisteners : (tree.adopt parent child).nodeListeners parent ⊆ tree.nodeListeners parent := by
    rw [nodeListeners_adopt]
    exact List.Subset.refl _
  exact hmild.childrenChanged h.sound hlisteners hr refresh

theorem addChild_failsIntact (h : tree.Plain) (parent child : NodeId) :
    (addChild parent child).FailsIntact tree (tree.giveUp child) := by
  unfold FailsIntact
  rw [meets_addChild]
  refine Meets.imp (attach_refused h parent child true)
    (fun _ _ _ ↦ ⟨fun _ ↦ trivial, fun _ ↦ trivial⟩) ?_
  rintro _ _ rfl
  exact ⟨.refl _, rfl⟩

/-- What a new node is made of may be kept or given up. -/
theorem create_plain (h : tree.Plain) {kind : NodeKind} (hkind : kind.Fits PlainGroup) :
    (create kind).Meets tree
      (fun child mid ↦ mid.Plain ∧ tree.Annexed mid ∧ tree.Later (.children child) ∧
        mid.refreshes = tree.refreshes)
      fun _ after ↦ tree.Untouched after ∧ after.refreshes = tree.refreshes := by
  refine (((create_lodges kind tree h.toHoused).and
    (Nested.create nested_plainGroup hkind tree h.stock)).and
    ((h.sound.create_annexed kind).and (growing_refreshes.create kind tree))).imp ?_ ?_
  · rintro child mid ⟨⟨hup, hstock⟩, ⟨hannexed, hchild⟩, hrefreshes⟩
    exact ⟨⟨hup.housed, hstock⟩, hannexed, hchild, hrefreshes⟩
  · rintro _ after ⟨_, hannexed, hrefreshes⟩
    exact ⟨hannexed.toUntouched, hrefreshes⟩

theorem addByCategory_failsIntact (h : tree.Plain) (parent : NodeId) (category : Category) :
    (addByCategory parent category).FailsIntact tree tree := by
  unfold FailsIntact
  rw [meets_addByCategory]
  refine ⟨fun _ ↦ trivial, fun kind _ hk ↦ ?_⟩
  refine (create_plain h (h.stock.kinds kind (List.mem_of_find?_eq_some hk))).imp ?_ fun _ _ ha ↦ ha
  rintro child mid ⟨hmid, hannexed, hchild, hrefreshes⟩
  refine Meets.imp (addChild_failsIntact hmid parent child) (fun _ _ _ ↦ trivial) ?_
  rintro _ after ⟨huntouched, hafter⟩
  refine ⟨(hannexed.giveUp hchild).toUntouched.trans huntouched, ?_⟩
  rw [hafter, growing_refreshes.giveUp mid child, hrefreshes]

/-- A node that takes the place of another one, which is released, tells nobody new. -/
theorem Plain.mild_replaced (h : mid.Plain) (huntouched : tree.Untouched mid)
    (parent old new : NodeId) :
    tree.Mild (·.index < tree.fields.size) ((mid.supplant parent old new).releaseNode old) := by
  have hstock : (mid.supplant parent old new).Stocked PlainGroup := h.stock.of_nodes rfl rfl
  have hechoes : tree.Echoes (·.index < tree.fields.size) (mid.supplant parent old new) :=
    (Echoes.of_untouched huntouched fun _ hx ↦ hx).trans (.of_fields rfl rfl)
  exact { toEchoes := hechoes.trans (.of_thins (.of_shrinks (releaseNode_shrinks _ old)))
          toHoused := ((h.supplant parent old new).housed.releaseNode old).housed
          suits := (hstock.releaseNode old).suits }

/-- Only the creation of the replacement can fail once the cascade of the parent was rehearsed. -/
theorem retype_refused (h : tree.Plain) (id : NodeId) (symbol : String)
    {bad : Fault → Tree → Prop} (hsame : ∀ fault, bad fault tree)
    (hcreate : ∀ kind ∈ tree.catalog.kinds, (create kind).Meets tree (fun _ _ ↦ True) bad) :
    (retype id symbol).Meets tree (fun _ _ ↦ True) bad := by
  refine meets_retype trivial fun node parent kind hnode _ hk ↦
    ⟨fun fault _ ↦ hsame fault, fun hr ↦ ?_⟩
  have hmem : kind ∈ tree.catalog.kinds := List.mem_of_find?_eq_some hk
  refine ((hcreate kind hmem).and (create_plain h (h.stock.kinds kind hmem))).imp ?_
    fun _ _ ha ↦ ha.1
  rintro new mid ⟨-, hmid, hannexed, -, -⟩
  refine ⟨fun _ ↦ trivial, fun hm ↦ ?_⟩
  have hparent : parent.index < tree.nodes.size := by
    by_contra hlater
    have hid := hannexed.child parent id (Nat.le_of_not_lt hlater) hm
    exact Nat.not_lt_of_le hid (liveNode_of_some hnode).lt_size
  have hlisteners : ((mid.supplant parent id new).releaseNode id).nodeListeners parent ⊆
      tree.nodeListeners parent := by
    have hsame : mid.nodeListeners parent = tree.nodeListeners parent :=
      hannexed.toUntouched.readNode hparent _ _
    rw [← hsame, ← nodeListeners_supplant mid parent id new]
    exact ((releaseNode_shrinks _ id).nodeListeners parent).subset
  refine ((hmid.mild_replaced hannexed.toUntouched parent id new).childrenChanged h.sound hlisteners
    hr true).imp (fun _ _ _ ↦ trivial) ?_
  rintro fault _ rfl
  exact hsame fault

theorem retype_failsIntact (h : tree.Plain) (id : NodeId) (symbol : String) :
    (retype id symbol).FailsIntact tree tree := by
  refine retype_refused h id symbol (fun _ ↦ ⟨.refl tree, rfl⟩) fun kind hk ↦ ?_
  exact (create_plain h (h.stock.kinds kind hk)).imp (fun _ _ _ ↦ trivial) fun _ _ ha ↦ ha

/-! ## Moving a dependent -/

/-- What a dependent reaches tells nobody new after a move to a source that it does not reach. -/
theorem Plain.mild_relink (h : tree.Plain) {dependent : FieldId} (hlive : tree.Live dependent)
    {source : Source} (hissued : tree.Issued source)
    (hc : tree.closesCycle dependent source = false) :
    tree.Mild (ReflTransGen tree.Feeds dependent) (tree.relink dependent (some source)) := by
  have hadmits := admits_of_not_closesCycle hc
  have hsound := h.sound.relink_of_not_closesCycle hlive hissued hc
  refine { toAbides := .relink tree dependent _, settings := ?_, listeners := fun x hx d hd ↦ ?_,
           sound := hsound, homed := h.homed.relink dependent _,
           suits := h.stock.suits.relink dependent _ }
  · exact (SameNodes.relink tree dependent _).settings
  · have hxl : tree.Live x := (live_relink dependent _ x).1 (live_of_mem_listeners hd)
    rcases (mem_listeners_relink h.sound.ordered.innerOlder hxl).1 hd with ⟨hd, _⟩ | ⟨_, s, hs, hw⟩
    · exact hd
    · cases hs
      exact absurd hx (hadmits x ((mem_layers_iff h.sound.ordered.innerOlder).2 hw) hxl)

/-- After a move that closes no cycle, the visit of the dependent does not fail if it was
rehearsed. -/
theorem Plain.enter_relink (h : tree.Plain) {dependent : FieldId} (hlive : tree.Live dependent)
    {source : Source} (hissued : tree.Issued source)
    (hc : tree.closesCycle dependent source = false) (hr : tree.rehearseEntry dependent = .ok ()) :
    (enter false dependent).Meets (tree.relink dependent (some source)) (fun _ _ ↦ True)
      fun _ _ ↦ False := by
  have hrehearses : tree.Rehearses (ReflTransGen tree.Feeds dependent)
      (tree.Mild (ReflTransGen tree.Feeds dependent)) := by
    refine h.sound.ordered.rehearses_mild (fun x hx ↦ ?_) fun _ _ hx hxy ↦ hx.tail hxy
    rcases hx.cases_tail with rfl | ⟨y, _, hyx⟩
    · exact hlive.lt_size
    · exact h.sound.lt_size_of_feeds hyx
  exact (hrehearses.enter false .refl hr _ (h.mild_relink hlive hissued hc)).imp
    (fun _ _ _ ↦ trivial) fun _ _ hfalse ↦ hfalse

theorem rebind_refused (h : tree.Plain) (dependent : FieldId) {source : Source}
    (hissued : tree.Issued source) : (rebind dependent source).AllOrNothing tree := by
  unfold AllOrNothing
  rw [rebind, meets_rebindWith]
  refine ⟨fun field hf ↦ ⟨fun _ ↦ rfl, fun hc ↦ ⟨fun _ _ ↦ rfl, fun hr ↦ ?_⟩⟩, fun _ ↦ rfl⟩
  exact (h.enter_relink (live_of_some hf) hissued hc hr).imp (fun _ _ _ ↦ trivial)
    fun _ _ hfalse ↦ hfalse.elim

/-! ## Histories -/

theorem edit_failsIntact (h : tree.Plain) {operation : Operation} (hgrows : operation.grows = true)
    (hl : operation.NamesLive tree) :
    operation.edit.FailsIntact tree (operation.refused tree) := by
  have hanswer : ∀ {α : Type} {edit : Edit α} {base : Tree} (answer : α → Answer),
      edit.FailsIntact tree base →
      (edit >>= fun a ↦ pure (answer a) : Edit Answer).FailsIntact tree base := by
    intro α edit base answer hedit
    unfold FailsIntact
    rw [meets_bind]
    exact Meets.imp hedit (fun _ _ _ ↦ trivial) fun _ _ ha ↦ ha
  cases operation with
  | create kind => exact hanswer .created (h.sound.create_failsIntact kind)
  | addChild parent child => exact hanswer .outcome (addChild_failsIntact h parent child)
  | addByCategory parent category =>
      exact hanswer .outcome (addByCategory_failsIntact h parent category)
  | retype id symbol => exact hanswer .outcome (retype_failsIntact h id symbol)
  | appendElement id =>
      exact hanswer .element (failsIntact_of_allOrNothing (appendElement_refused h id))
  | rebind dependent source =>
      exact hanswer (fun _ ↦ .done)
        (failsIntact_of_allOrNothing (rebind_refused h dependent hl.issued))
  | removeChild | detach | setInteger | setBoolean | choose | setText | setColor | removeElement =>
      cases hgrows

theorem Plain.perform (h : tree.Plain) {operation : Operation}
    (hcreate : ∀ kind, operation = .create kind → kind.isPlain = true)
    (hl : operation.NamesIssued tree) : (tree.perform operation).2.Plain := by
  constructor
  · refine meets_const_iff.1
      (invariant_housed.operation h.toHoused operation (fun _ _ ↦ trivial) ?_)
    rintro dependent source rfl
    exact (rebind_lodges h.toHoused dependent hl).imp (fun _ _ ha ↦ ha.housed) fun _ _ ha ↦ ha
  · refine meets_const_iff.1 ((Nested.invariant nested_plainGroup).operation h.stock operation
      (fun kind hk ↦ NodeKind.fits_of_isPlain (hcreate kind hk)) ?_)
    intro dependent source _
    exact Nested.rebind nested_plainGroup dependent source tree h.stock

theorem Plain.run (h : tree.Plain) {operations : List Operation}
    (hcreate : ∀ kind, .create kind ∈ operations → kind.isPlain = true)
    (hl : tree.RebindsIssued operations) : (tree.run operations).2.Plain := by
  induction operations generalizing tree with
  | nil => exact h
  | cons operation rest ih =>
      refine ih (h.perform (fun kind hk ↦ ?_) hl.1) (fun kind hk ↦ ?_) hl.2
      · exact hcreate kind (hk ▸ List.mem_cons_self)
      · exact hcreate kind (List.mem_cons_of_mem _ hk)

theorem plain_start {catalog : Catalog} {settings : Settings}
    (hkinds : ∀ kind ∈ catalog.kinds, kind.isPlain = true)
    (h : start catalog settings = .ok tree) : tree.Plain := by
  refine ⟨(tenured_start h).toHoused, ?_⟩
  refine @of_start catalog settings tree (·.Stocked PlainGroup) ?_ h
  have hfits : ∀ kind ∈ catalog.kinds, kind.Fits PlainGroup := fun kind hk ↦
    NodeKind.fits_of_isPlain (hkinds kind hk)
  have hempty : ({ catalog, settings } : Tree).Stocked PlainGroup := by
    refine ⟨fun id _ _ ht ↦ ?_, hfits⟩
    exact absurd (live_of_template?_eq_some ht) (not_live_iff.2 (field?_empty catalog settings id))
  have hroot : (({ catalog, settings } : Tree).insertNode { kind := catalog.root }).Stocked
      PlainGroup := hempty.of_nodes rfl rfl
  exact (Nested.build nested_plainGroup (fun _ ↦ Nested.create nested_plainGroup) ⟨0⟩
    (hfits _ catalog.root_mem) _ hroot).imp (fun _ _ ha ↦ ha) fun _ _ _ ↦ trivial

/-- Where the elements of all lists are plain, an operation that grows the tree and fails leaves
what was there before untouched, and the view has been told of nothing. Only a detached node that
was to be added is gone. This is so after any history, with any faults in it. -/
theorem untouched_run {catalog : Catalog} {settings : Settings} {tree : Tree}
    {operations : List Operation} (hkinds : ∀ kind ∈ catalog.kinds, kind.isPlain = true)
    (hstart : start catalog settings = .ok tree)
    (hcreate : ∀ kind, .create kind ∈ operations → kind.isPlain = true)
    (hlive : tree.RebindsLive operations) {final : Tree}
    (hfinal : (tree.run operations).2 = final) {operation : Operation}
    (hgrows : operation.grows = true) (hnames : operation.NamesLive final) {fault : Fault}
    (herror : (final.perform operation).1 = .error fault) :
    (operation.refused final).Untouched (final.perform operation).2 ∧
      (final.perform operation).2.refreshes = final.refreshes := by
  have h : final.Plain := hfinal ▸ (plain_start hkinds hstart).run hcreate hlive.issued
  obtain ⟨huntouched, hrefreshes⟩ :=
    (meets_iff.1 (edit_failsIntact h hgrows hnames)).2 fault _ (Prod.ext herror rfl)
  refine ⟨huntouched, hrefreshes.trans ?_⟩
  cases operation with
  | addChild parent child => exact growing_refreshes.giveUp final child
  | _ => rfl

/-- Where a cascade may be one field long, the length of a second object follows the length of a
first one, which follows its colours. A colour is refused then, as the choice of colours was before,
and nothing has changed. -/
theorem untouched_run_shallow :
    let final := (shallowTree.run [.addByCategory ⟨0⟩ .object, .addByCategory ⟨0⟩ .object,
      .rebind ⟨4⟩ (.field ⟨6⟩), .rebind ⟨11⟩ (.field ⟨4⟩), .choose ⟨2⟩ "c"]).2
    (final.perform (.appendElement ⟨6⟩)).1 = .error (.tooDeep 1) ∧
      final.Untouched (final.perform (.appendElement ⟨6⟩)).2 ∧
      (final.perform (.appendElement ⟨6⟩)).2.refreshes = final.refreshes := by
  intro final
  have hstart : start .standard { maxDepth := 1 } = .ok shallowTree := rfl
  have hkinds : ∀ kind ∈ Catalog.standard.kinds, kind.isPlain = true := by
    decide +kernel
  have hcreate : ∀ kind, .create kind ∈ [Operation.addByCategory ⟨0⟩ .object,
      .addByCategory ⟨0⟩ .object, .rebind ⟨4⟩ (.field ⟨6⟩), .rebind ⟨11⟩ (.field ⟨4⟩),
      .choose ⟨2⟩ "c"] → kind.isPlain = true := by
    simp
  have hlive : shallowTree.RebindsLive [.addByCategory ⟨0⟩ .object, .addByCategory ⟨0⟩ .object,
      .rebind ⟨4⟩ (.field ⟨6⟩), .rebind ⟨11⟩ (.field ⟨4⟩), .choose ⟨2⟩ "c"] := by
    simp only [RebindsLive, Operation.NamesLive, SourceLive, true_and, and_true]
    constructor
    · decide +kernel
    · decide +kernel
  have herror : (final.perform (.appendElement ⟨6⟩)).1 = .error (.tooDeep 1) := by
    decide +kernel
  have hfinal : (shallowTree.run [.addByCategory ⟨0⟩ .object, .addByCategory ⟨0⟩ .object,
      .rebind ⟨4⟩ (.field ⟨6⟩), .rebind ⟨11⟩ (.field ⟨4⟩), .choose ⟨2⟩ "c"]).2 = final := rfl
  -- From here on the final tree is a name, which nothing evaluates.
  clear_value final
  have hnames : (Operation.appendElement ⟨6⟩).NamesLive final := trivial
  exact ⟨herror, untouched_run hkinds hstart hcreate hlive hfinal rfl hnames herror⟩

/-- The elements of `b` are as many as those of `a` and depend on `c`, which depends on `g`. -/
def tiedKind : NodeKind :=
  loneKind [.list "a" .free [.scalar "x" (.integer 0)], .scalar "g" (.boolean false),
    .gated "c" "g" .present (.scalar "i" (.integer 0)),
    .list "b" (.field "a") [.gated "y" "c" .present (.scalar "j" (.integer 0))]]

/-- Once `c` depends on `b`, an element of `b` closes a cycle. It is built only after the element of
`a` has been stored, so that the operation fails and the element stays. -/
theorem touched_tied :
    let final := ((loneTree tiedKind rfl).run [.rebind ⟨3⟩ (.field ⟨4⟩)]).2
    let after := (final.perform (.appendElement ⟨0⟩)).2
    (loneTree tiedKind rfl).RebindsLive [.rebind ⟨3⟩ (.field ⟨4⟩)] ∧
      (final.perform (.appendElement ⟨0⟩)).1 = .error (.cycle "y") ∧
      (final.elements ⟨0⟩ = [] ∧ after.elements ⟨0⟩ = [[⟨5⟩]]) ∧
      final.refreshes = 0 ∧ after.refreshes = 1 := by
  intro final after
  have hlive : (loneTree tiedKind rfl).Live ⟨4⟩ := by
    decide +kernel
  refine ⟨⟨hlive, trivial⟩, ?_, ?_, ?_⟩
  · decide +kernel
  · decide +kernel
  · decide +kernel

end Tree

end LightTree
