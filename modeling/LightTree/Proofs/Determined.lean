import LightTree.Proofs.SproutingCascades

/-!
# Settled trees are determined by what they have sprouted from

What feeds a field settles before it, as no change comes back to where it began. So the lengths of
linked lists and the activity of gated fields that follow live sources have one solution. A settled
tree that has sprouted from another one without additions has nothing new left in it, and two such
trees are the same.
-/

namespace LightTree

open Relation

theorem Value.gated_of_inner? {value : Value} (h : value.inner?.isSome = true) :
    ∃ condition inner, value = .gated condition inner := by
  cases value with
  | gated condition inner => exact ⟨condition, inner, rfl⟩
  | scalar | choice | list => cases h

namespace Tree

variable {base tree other : Tree} {id : FieldId}

/-! ## Induction from sources to dependents -/

theorem Acyclic.wellFounded_feeds (h : tree.Acyclic) : WellFounded tree.Feeds := by
  refine Subrelation.wf ?_
    (measure fun id ↦ (leading tree.Feeds FieldId.mk tree.fields.size id).card).wf
  intro a b hab
  exact card_leading_lt h (live_of_feeds hab).lt_size hab

/-! ## Trees that flicker -/

/-- The trees differ in the activity of gates with a live source at most. -/
structure Flickers (base tree : Tree) : Prop where
  node : tree.node? = base.node?
  field : ∀ id, tree.field? id = base.field? id ∨
    ((base.inner? id).isSome = true ∧ base.Steered id) ∧
      ∃ active, tree.field? id = (base.field? id).map ({ · with active })

namespace Flickers

theorem refl (base : Tree) : base.Flickers base :=
  ⟨rfl, fun _ ↦ .inl rfl⟩

variable {α : Type}

theorem read_eq (h : base.Flickers tree) {part : Field → α}
    (hpart : ∀ (field : Field) active, part { field with active } = part field) (default : α) :
    tree.read part default = base.read part default := by
  funext id
  rcases h.field id with heq | ⟨_, active, heq⟩
  · rw [read, heq, read]
  · rw [read, heq, read]
    cases base.field? id with
    | none => rfl
    | some field => exact hpart field active

theorem live_iff (h : base.Flickers tree) (id : FieldId) : tree.Live id ↔ base.Live id := by
  rcases h.field id with heq | ⟨_, active, heq⟩
  · rw [Live, heq, Live]
  · rw [Live, heq, Live, Option.isSome_map]

theorem liveNode_iff (h : base.Flickers tree) (id : NodeId) :
    tree.LiveNode id ↔ base.LiveNode id := by
  rw [LiveNode, h.node, LiveNode]

theorem link?_eq (h : base.Flickers tree) : tree.link? = base.link? :=
  h.read_eq (fun _ _ ↦ rfl) none

theorem inner?_eq (h : base.Flickers tree) : tree.inner? = base.inner? := by
  rw [inner?_eq_read, inner?_eq_read]
  exact h.read_eq (fun _ _ ↦ rfl) none

theorem sourceLive_iff (h : base.Flickers tree) (source : Source) :
    tree.SourceLive source ↔ base.SourceLive source := by
  cases source with
  | field id => exact h.live_iff id
  | children id => exact h.liveNode_iff id

theorem exists_active (h : base.Flickers tree) {field : Field} (hf : base.field? id = some field) :
    ∃ active, tree.field? id = some { field with active } := by
  rcases h.field id with heq | ⟨_, active, heq⟩
  · exact ⟨field.active, heq.trans hf⟩
  · exact ⟨active, by rw [heq, hf, Option.map_some]⟩

theorem congr {base' : Tree} (h : base.Flickers tree) (hnode : base'.node? = base.node?)
    (hfield : base'.field? = base.field?) : base'.Flickers tree := by
  refine ⟨h.node.trans hnode.symm, fun id ↦ ?_⟩
  have hsource : ∀ source, base'.SourceLive source ↔ base.SourceLive source := by
    rintro (s | node)
    · rw [SourceLive, SourceLive, Live, Live, hfield]
    · rw [SourceLive, SourceLive, LiveNode, LiveNode, hnode]
  simp only [inner?, Steered, link?, read, hfield, hsource]
  exact h.field id

theorem trans {last : Tree} (h : base.Flickers tree) (h' : tree.Flickers last) :
    base.Flickers last := by
  refine ⟨h'.node.trans h.node, fun id ↦ ?_⟩
  rcases h'.field id with heq | ⟨⟨hinner, source, hlink, hlive⟩, active, heq⟩
  · rw [heq]
    exact h.field id
  · rw [h.inner?_eq] at hinner
    rw [h.link?_eq] at hlink
    refine .inr ⟨⟨hinner, source, hlink, (h.sourceLive_iff source).1 hlive⟩, active, ?_⟩
    rcases h.field id with hmid | ⟨_, _, hmid⟩
    · rw [heq, hmid]
    · rw [heq, hmid, Option.map_map]
      rfl

/-- A field that is no gate may change in both trees. -/
theorem updateField (h : base.Flickers tree) (hid : base.inner? id = none) {f : Field → Field}
    (hf : ∀ field, (f field).link = field.link) :
    (base.updateField id f).Flickers (tree.updateField id f) := by
  refine ⟨h.node, fun x ↦ ?_⟩
  rw [field?_updateField, field?_updateField]
  by_cases hx : id = x
  · subst hx
    rw [if_pos rfl, if_pos rfl, (h.field id).resolve_right fun hgate ↦ by simp [hid] at hgate]
    exact .inl rfl
  · rw [if_neg hx, if_neg hx]
    refine (h.field x).imp_right fun ⟨⟨hinner, source, hlink, hlive⟩, hactive⟩ ↦ ⟨⟨?_, ?_⟩, hactive⟩
    · rwa [inner?, field?_updateField, if_neg hx]
    · refine ⟨source, by rw [link?_updateField hf, hlink], ?_⟩
      cases source with
      | field s => exact (live_updateField base id f s).2 hlive
      | children node => exact hlive

/-- Two trees that flicker show the same of a source if they agree on all that feeds its
dependent. -/
theorem sameSource (h : base.Flickers tree) (h' : base.Flickers other) (ht : tree.Sound)
    (ho : other.Sound) {source : Source} (hlink : base.link? id = some source)
    (hlive : base.SourceLive source) (ih : ∀ x, tree.Feeds x id → other.field? x = tree.field? x) :
    tree.SameSource other source := by
  cases source with
  | children node =>
      refine .of_children ((h'.liveNode_iff node).trans (h.liveNode_iff node).symm) ?_
      unfold children
      rw [h'.node, h.node]
  | field s =>
      refine .of_layers ht.ordered ho.ordered ho.owned ((h'.live_iff s).2 hlive) fun x hx ↦ ?_
      have hwraps : other.Wraps = tree.Wraps := by
        unfold Wraps
        rw [h'.inner?_eq, h.inner?_eq]
      rw [hwraps] at hx
      have hfollows : tree.Follows id x := ⟨s, by rw [h.link?_eq, hlink], hx⟩
      have hx' : tree.Live x := ht.owned.wraps_live hx ((h.live_iff s).2 hlive)
      exact .of_eq (ih x (ht.feeds_of_follows hx' hfollows))

/-- A gate has the activity that its source determines, so settled trees do not flicker apart. -/
theorem unique (h : base.Flickers tree) (h' : base.Flickers other) (ht : tree.Settled)
    (ho : other.Settled) : other.node? = tree.node? ∧ other.field? = tree.field? := by
  refine ⟨h'.node.trans h.node.symm, funext fun id ↦ ?_⟩
  induction id using ht.sound.acyclic.wellFounded_feeds.induction with
  | _ id ih =>
    by_cases hgate : (base.inner? id).isSome = true ∧ base.Steered id
    · obtain ⟨hinner, source, hlink, hlive⟩ := hgate
      obtain ⟨field, hf⟩ := Tree.live_iff.1 (live_of_link?_eq_some hlink)
      obtain ⟨active, htree⟩ := h.exists_active hf
      obtain ⟨active', hother⟩ := h'.exists_active hf
      rw [link?, read_of_some hf] at hlink
      rw [inner?_eq_read, read_of_some hf] at hinner
      obtain ⟨condition, inner, hv⟩ := Value.gated_of_inner? hinner
      have hsame := h.sameSource h' ht.sound ho.sound (by rw [link?, read_of_some hf, hlink]) hlive
        ih
      have hactive : active = tree.holds source condition :=
        (ht.upToDate id _ source htree hlink ((h.sourceLive_iff source).2 hlive)).1 _ inner hv
      have hactive' : active' = other.holds source condition :=
        (ho.upToDate id _ source hother hlink ((h'.sourceLive_iff source).2 hlive)).1 _ inner hv
      rw [htree, hother, hactive, hactive', hsame.holds]
    · have hself : tree.field? id = base.field? id :=
        (h.field id).resolve_right fun hnot ↦ hgate hnot.1
      have hother : other.field? id = base.field? id :=
        (h'.field id).resolve_right fun hnot ↦ hgate hnot.1
      rw [hself, hother]

end Flickers

/-! ## What has sprouted without additions -/

namespace Sprouts

variable (h : base.Sprouts .none tree) (hb : base.Sound)

include h hb

/-- A source is as long as it was if the list of the field that it wraps has not grown. -/
theorem sourceLength_eq {source : Source} (hlive : base.SourceLive source)
    (helements : ∀ s, source = .field s →
      tree.elements (base.unwrap s) = base.elements (base.unwrap s)) :
    tree.SourceLive source ∧ tree.sourceLength source = base.sourceLength source := by
  cases source with
  | children node =>
      obtain ⟨old, ho⟩ := liveNode_iff.1 hlive
      obtain ⟨new, hn, _⟩ := h.oldNode node old ho
      refine ⟨liveNode_of_some hn, ?_⟩
      rw [sourceLength, sourceLength, h.children_eq hlive]
      exact congrArg List.length (List.append_nil _)
  | field s =>
      refine ⟨h.live_old hlive, ?_⟩
      rw [sourceLength, sourceLength, listLength_eq, listLength_eq, h.unwrap_eq hb hlive,
        helements s rfl]

/-- Lists that follow sources of the same length have not grown. -/
theorem elements_eq (hfit : base.Fitted) (ht : tree.Fitted) (hid : base.Live id) :
    tree.elements id = base.elements id := by
  induction id using hb.acyclic.wellFounded_feeds.induction with
  | _ id ih =>
    obtain ⟨old, ho⟩ := live_iff.1 hid
    cases helements : old.value.elements? with
    | none =>
        obtain ⟨new, hn, hgrown⟩ := h.old id old ho
        obtain ⟨extra, hvalue, _⟩ := hgrown.value
        rw [elements, elements, read_of_some hn, read_of_some ho, hvalue,
          Value.elements?_mapElements, helements, Option.map_none]
    | some list =>
        obtain ⟨extra, hextra, _, hunsteered⟩ := h.exists_elements ho helements
        suffices extra = [] by
          rw [hextra, this, List.append_nil, elements_of_some ho helements]
        by_cases hsteered : old.value.isLinked = true ∧ base.Steered id
        · obtain ⟨hlinked, source, hlink, hlive⟩ := hsteered
          have hlinked' : base.isLinked id = true := (isLinked_of_some ho).trans hlinked
          have hsource := h.sourceLength_eq hb hlive fun s hs ↦ by
            subst hs
            have hwrap := wraps_unwrap base s
            have hinner := hb.owned.wraps_live hwrap hlive
            exact ih _ (hb.feeds_of_follows hinner ⟨s, hlink, hwrap⟩) hinner
          have hbase := hfit id source hlinked' hlink hlive
          have htree := ht id source (by rw [h.isLinked_eq hid, hlinked'])
            (by rw [h.link?_eq hid, hlink]) hsource.1
          rw [hextra, hsource.2, ← hbase, elements_of_some ho helements,
            List.length_append] at htree
          exact List.eq_nil_of_length_eq_zero (by omega)
        · exact hunsteered hsteered

theorem value_eq (hfit : base.Fitted) (ht : tree.Fitted) {old new : Field}
    (ho : base.field? id = some old) (hn : tree.field? id = some new) : new.value = old.value := by
  obtain ⟨new', hn', hgrown⟩ := h.old id old ho
  obtain rfl : new = new' := Option.some.inj (hn.symm.trans hn')
  obtain ⟨extra, hvalue, _⟩ := hgrown.value
  have helements := h.elements_eq hb hfit ht (live_of_some ho)
  rw [elements, elements, read_of_some hn, read_of_some ho, hvalue] at helements
  rw [hvalue]
  cases hv : old.value with
  | list linked template list =>
      rw [hv] at helements
      exact congrArg (Value.list linked template) helements
  | scalar | choice | gated => rfl

variable (hfit : base.Fitted) (ht : tree.Tenured) (htfit : tree.Fitted)
  (hnodes : ∀ node, tree.LiveNode node → base.LiveNode node)

include hfit ht htfit hnodes

omit ht in
/-- No node and no field that was there before has taken a new field. -/
theorem live_of_placed {node : NodeId} {container : Option FieldId}
    (hplaced : tree.Placed id node container) : base.Live id := by
  induction hplaced with
  | @top node position id slot =>
      have htop := mem_topFields_of_occupant? slot
      have hnode := hnodes node (liveNode_of_mem_topFields htop)
      obtain ⟨old, ho⟩ := liveNode_iff.1 hnode
      obtain ⟨new, hn, hgrown⟩ := h.oldNode node old ho
      rw [topFields_eq_readNode, readNode_of_some hn, hgrown.frame] at htop
      refine hb.owned.tops_live node id ?_
      rw [topFields_eq_readNode, readNode_of_some ho]
      exact htop
  | @inner gate id node container slot outer ih =>
      exact hb.owned.inner?_live ((h.inner?_eq ih).symm.trans slot)
  | @element list id index position node container slot outer ih =>
      have hslot : base.occupant? (.element list index position) = some id := by
        rw [← slot, occupant?, occupant?, h.elements_eq hb hfit htfit ih]
      exact hb.owned.parts_live list id (mem_parts_of_element hslot)

theorem live_base (hid : tree.Live id) : base.Live id := by
  obtain ⟨field, hf⟩ := live_iff.1 hid
  exact h.live_of_placed hb hfit htfit hnodes (ht.placed hf)

/-- Listeners are alive, so none has been added. -/
theorem eq_of_extends {old new : List FieldId} (hlive : ∀ x ∈ new, tree.Live x)
    (hlist : base.Extends old new) : new = old := by
  obtain ⟨more, rfl, hmore⟩ := hlist
  suffices more = [] by rw [this, List.append_nil]
  refine List.eq_nil_iff_forall_not_mem.2 fun x hx ↦ ?_
  have hbase := h.live_base hb hfit ht htfit hnodes (hlive x (List.mem_append_right old hx))
  exact not_later_of_live hbase (hmore x hx)

theorem flickers : base.Flickers tree where
  node := by
    funext node
    cases ho : base.node? node with
    | none => exact not_liveNode_iff.1 fun hl ↦ not_liveNode_iff.2 ho (hnodes node hl)
    | some old =>
        obtain ⟨new, hn, hgrown⟩ := h.oldNode node old ho
        have hlisteners : new.listeners = old.listeners := by
          refine h.eq_of_extends hb hfit ht htfit hnodes (fun x hx ↦ ?_) hgrown.listeners
          refine live_of_link?_eq_some
            ((ht.sound.mirrored.node_mem_iff node x (liveNode_of_some hn)).1 ?_)
          rwa [nodeListeners, readNode_of_some hn]
        have hchildren : new.children = old.children := hgrown.children.trans (List.append_nil _)
        rw [hn, hgrown.frame, hlisteners, hchildren]
  field id := by
    cases ho : base.field? id with
    | none =>
        refine .inl (not_live_iff.1 fun hl ↦ ?_)
        exact not_live_iff.2 ho (h.live_base hb hfit ht htfit hnodes hl)
    | some old =>
        obtain ⟨new, hn, hgrown⟩ := h.old id old ho
        have hlisteners : new.listeners = old.listeners := by
          refine h.eq_of_extends hb hfit ht htfit hnodes (fun x hx ↦ ?_) hgrown.listeners
          have hlistens : x ∈ tree.listeners id := by rwa [listeners_eq_read, read_of_some hn]
          exact ht.sound.mirrored.live_of_mem hlistens
        have hvalue := h.value_eq hb hfit htfit ho hn
        have hnew : new = { old with active := new.active } := by
          rw [hgrown.frame, hlisteners, hvalue]
        by_cases hgate : (base.inner? id).isSome = true ∧ base.Steered id
        · exact .inr ⟨hgate, new.active, by rw [hn, Option.map_some]; exact congrArg some hnew⟩
        · have hactive : new.active = old.active := by
            refine hgrown.active fun hnot ↦ hgate ?_
            rwa [inner?_eq_read, read_of_some ho]
          rw [hactive] at hnew
          exact .inl (by rw [hn, hnew])

end Sprouts

end Tree

end LightTree
