import LightTree.Proofs.Confinement
import LightTree.Proofs.Invariant

/-!
# Reachable trees are sound

Every operation keeps a sound tree sound, whatever it answers, as long as a rebind names a live
source. A rebind that fails puts the old link back after its cascade; that closes no cycle, because
the cascade never left the fields that the dependent reaches, and no layer of the old source is one
of them.
-/

namespace LightTree

open Relation Edit

namespace Tree

variable {tree : Tree}

/-! ## Cascades -/

/-- The region of a cascade that may visit any field. -/
def whole (tree : Tree) : Region :=
  ⟨tree.fields.size, fun _ ↦ True, fun _ ↦ True, fun _ ↦ True⟩

theorem Sound.governs (h : tree.Sound) : tree.whole.Governs tree :=
  ⟨h, Nat.le_refl _, fun _ _ ↦ trivial, fun _ _ ↦ trivial, fun _ _ _ _ ↦ trivial,
    fun _ _ _ _ ↦ trivial, fun _ _ ↦ trivial, fun _ _ _ _ ↦ ⟨trivial, fun _ _ ↦ trivial⟩⟩

/-- A node that has been handed out may host fields outside all lists. -/
theorem hosts_whole {owner : NodeId} (h : owner.index < tree.nodes.size) :
    tree.whole.Hosts tree owner none :=
  ⟨⟨trivial, fun _ _ ↦ trivial⟩, h, nofun⟩

theorem Sound.of_leads (h : tree.Sound) {after : Tree} (hl : tree.whole.Leads tree after) :
    after.Sound :=
  (hl.governs h.governs).sound

theorem Sound.propagate_stays (h : tree.Sound) (refresh : Bool) (source : Source) :
    (propagate (enter refresh) source).Stays tree.whole tree := by
  cases source with
  | field id => exact (Confined.enter refresh).propagate h.governs trivial
  | children id =>
      unfold Stays
      rw [meets_propagate_children]
      exact (Confined.enter refresh).forM h.governs fun _ _ ↦ trivial

theorem Sound.settle_stays (h : tree.Sound) (source : Source) :
    (settle source).Stays tree.whole tree := by
  unfold Stays
  rw [meets_settle]
  exact (h.propagate_stays true source).imp (fun _ _ hl ↦ hl.tail .refresh)
    fun _ _ hl ↦ hl.tail .refresh

theorem propagate_keeps_sound (refresh : Bool) (source : Source) :
    (propagate (enter refresh) source).Keeps Sound := fun _ h ↦
  (h.propagate_stays refresh source).imp (fun _ _ ↦ h.of_leads) fun _ _ ↦ h.of_leads

theorem settle_keeps_sound (source : Source) : (settle source).Keeps Sound := fun _ h ↦
  (h.settle_stays source).imp (fun _ _ ↦ h.of_leads) fun _ _ ↦ h.of_leads

theorem childrenChanged_keeps_sound (parent : NodeId) (refresh : Bool) :
    (childrenChanged parent refresh).Keeps Sound := by
  unfold childrenChanged
  split
  · exact settle_keeps_sound _
  · exact propagate_keeps_sound false _

/-! ## Attaching and building -/

theorem Sound.adopt (h : tree.Sound) (parent child : NodeId) :
    (tree.adopt parent child).Sound := by
  refine (h.updateNode ?_ ?_ parent).updateNode ?_ ?_ child <;> exact fun _ ↦ rfl

theorem Sound.disown (h : tree.Sound) (parent child : NodeId) :
    (tree.disown parent child).Sound := by
  refine h.updateNode ?_ ?_ parent <;> exact fun _ ↦ rfl

theorem Sound.supplant (h : tree.Sound) (parent old new : NodeId) :
    (tree.supplant parent old new).Sound := by
  refine (h.updateNode ?_ ?_ parent).updateNode ?_ ?_ new <;> exact fun _ ↦ rfl

theorem Sound.giveUp (h : tree.Sound) (child : NodeId) : (tree.giveUp child).Sound := by
  unfold Tree.giveUp
  split
  · exact h.releaseNode child
  · exact h

theorem attach_keeps_sound (parent child : NodeId) (refresh : Bool) :
    (attach parent child refresh).Keeps Sound := by
  intro tree h
  rw [meets_attach]
  exact ⟨fun _ ↦ h, fun _ ↦ ⟨fun _ _ ↦ h, fun _ ↦
    childrenChanged_keeps_sound parent refresh _ (h.adopt parent child)⟩⟩

/-- The fields of a node are built while the node is there. -/
theorem furnish_keeps_sound (id : NodeId) (decls : List FieldDecl) :
    (furnish id decls).Keeps fun tree ↦ tree.Sound ∧ tree.LiveNode id := by
  induction decls with
  | nil => exact fun _ h ↦ h
  | cons decl rest ih =>
      rintro tree ⟨h, hid⟩
      rw [meets_furnish_cons]
      have hhost := hosts_whole hid.lt_size
      have hlive : ∀ after, tree.whole.Leads tree after → after.LiveNode id := fun after hl ↦
        ((hl.framed h.governs).nodes.liveNode id).2 hid
      apply ((Confined.enter false).instantiate h.governs hhost (fun _ _ ↦ trivial) decl).imp
      · rintro field after ⟨hlead, hloose, _⟩
        have hafter := hlive after hlead
        refine ih _ ⟨(h.of_leads hlead).addTop hafter hloose, ?_⟩
        exact (liveNode_updateNode _ _ _ _).2 hafter
      · exact fun _ after hlead ↦ ⟨h.of_leads hlead, hlive after hlead⟩

section

variable {make : NodeKind → Edit NodeId} (hmake : ∀ kind, (make kind).Keeps Sound)

include hmake

theorem populateOne_keeps_sound (id : NodeId) (kind childKind : NodeKind) :
    (populateOne make id kind childKind).Keeps Sound := by
  intro tree h
  rw [meets_populateOne]
  refine (hmake childKind tree h).imp (fun child mid hmid ↦ ?_) fun _ _ h ↦ h
  exact (attach_keeps_sound id child false mid hmid).imp
    (fun _ _ ha ↦ ⟨fun _ ↦ ha.releaseNode child, fun _ ↦ ha⟩) fun _ _ ha ↦ ha.releaseNode child

theorem populate_keeps_sound (id : NodeId) (kind : NodeKind) (childKind? : Option NodeKind)
    (count : Nat) : (populate make id kind childKind? count).Keeps Sound := by
  induction count with
  | zero => exact fun _ h ↦ h
  | succ count ih =>
      intro tree h
      rw [meets_populate_succ]
      exact ⟨fun _ ↦ h, fun childKind _ ↦
        (populateOne_keeps_sound hmake id kind childKind tree h).imp
        (fun _ ↦ ih) fun _ _ h ↦ h⟩

theorem build_keeps_sound (id : NodeId) (kind : NodeKind) (h : tree.Sound)
    (hid : tree.LiveNode id) :
    (build make id kind).Meets tree (fun _ ↦ Sound) fun _ ↦ Sound := by
  rw [meets_build]
  refine (furnish_keeps_sound id kind.fields tree ⟨h, hid⟩).imp ?_ fun _ _ h ↦ h.1
  exact fun _ after ⟨ha, _⟩ ↦ ⟨fun _ ↦ populate_keeps_sound hmake id kind _ _ after ha, fun _ ↦ ha⟩

end

theorem createWithin_keeps_sound (depth : Nat) (kind : NodeKind) :
    (createWithin depth kind).Keeps Sound := by
  induction depth generalizing kind with
  | zero => exact fun _ h ↦ h
  | succ depth ih =>
      intro tree h
      rw [meets_createWithin_succ]
      have hlive : (tree.insertNode { kind }).LiveNode tree.nextNode :=
        (liveNode_insertNode _ _ _).2 (.inl rfl)
      exact ⟨fun _ _ ↦ h, fun _ ↦ (build_keeps_sound ih _ kind (h.insertNode rfl rfl) hlive).imp
        (fun _ _ ha ↦ ha) fun _ _ ha ↦ ha.releaseNode _⟩

theorem create_keeps_sound (kind : NodeKind) : (create kind).Keeps Sound :=
  createWithin_keeps_sound 5 kind

/-! ## Adding and removing -/

theorem addChild_keeps_sound (parent child : NodeId) : (addChild parent child).Keeps Sound := by
  intro tree h
  rw [meets_addChild]
  exact (attach_keeps_sound parent child true tree h).imp
    (fun _ _ ha ↦ ⟨fun _ ↦ ha.giveUp child, fun _ ↦ ha⟩) fun _ _ ha ↦ ha.giveUp child

theorem removeChild_keeps_sound (parent child : NodeId) :
    (removeChild parent child).Keeps Sound := by
  intro tree h
  rw [meets_removeChild]
  exact ⟨fun _ ↦ h, fun _ ↦ ⟨fun _ _ ↦ h, fun _ ↦
    childrenChanged_keeps_sound parent true _ ((h.disown parent child).releaseNode child)⟩⟩

theorem retype_keeps_sound (id : NodeId) (symbol : String) : (retype id symbol).Keeps Sound := by
  intro tree h
  refine meets_retype h fun node parent kind _ _ _ ↦ ⟨fun _ _ ↦ h, fun _ ↦ ?_⟩
  refine (create_keeps_sound kind tree h).imp (fun new mid hmid ↦ ?_) fun _ _ ha ↦ ha
  exact ⟨fun _ ↦ hmid.releaseNode new, fun _ ↦
    childrenChanged_keeps_sound parent true _ ((hmid.supplant parent id new).releaseNode id)⟩

/-! ## Changing values -/

theorem mutate_keeps_sound (id : FieldId) {change : Field → Except Fault Value}
    (hchange : Leafy change) : (mutate id change).Keeps Sound := by
  intro tree h
  refine meets_mutate (fun _ ↦ h) fun _ field value hf hv ↦ ?_
  obtain ⟨hold, hnew⟩ := hchange field value hv
  exact settle_keeps_sound _ _ (h.setValue hf hold hnew)

theorem appendElement_keeps_sound (id : FieldId) : (appendElement id).Keeps Sound := by
  intro tree h
  refine meets_appendElement (fun _ ↦ h) fun _ field template elements hf _ ↦ ?_
  refine ((Confined.enter false).instantiateGroup h.governs (h.governs.hosts hf trivial)
    .nil template).imp ?_ fun _ _ ↦ h.of_leads
  rintro group mid ⟨hlead, hgroup⟩
  have hmid := h.of_leads hlead
  refine ⟨fun _ ↦ ?_, fun _ ↦ hmid⟩
  exact settle_keeps_sound _ _ (hmid.push _ hgroup.nodup fun x hx ↦ (hgroup.loose x hx).1)

theorem splits_eraseIdx {linked : Bool} {template : List FieldDecl}
    {elements : List (List FieldId)} {index : Nat} {element : List FieldId}
    (h : elements[index]? = some element) :
    Splits (·.eraseIdx index) element (.list linked template elements) := by
  obtain ⟨hlt, rfl⟩ := List.getElem?_eq_some_iff.1 h
  have hperm : (elements.eraseIdx index ++ [elements[index]]).Perm elements := by
    have hsplit :
        elements.take index ++ elements[index] :: elements.drop (index + 1) = elements := by
      rw [List.cons_getElem_drop_succ, List.take_append_drop]
    have hmove : (elements.take index ++ (elements.drop (index + 1) ++ [elements[index]])).Perm
        (elements.take index ++ elements[index] :: elements.drop (index + 1)) :=
      List.Perm.append_left _ List.perm_append_comm
    rwa [hsplit, ← List.append_assoc, ← List.eraseIdx_eq_take_drop_succ] at hmove
  have hflat := hperm.flatten
  rwa [List.flatten_append, List.flatten_singleton] at hflat

theorem removeElement_keeps_sound (id : FieldId) (index : Nat) :
    (removeElement id index).Keeps Sound := by
  intro tree h
  refine meets_removeElement (fun _ ↦ h) h fun _ field template elements element hf hv he ↦ ?_
  refine settle_keeps_sound _ _ (h.drop hf ?_)
  rw [hv]
  exact splits_eraseIdx he

/-! ## Moving a dependent -/

/-- Whether the field or the node that a source names is alive. -/
def SourceLive (tree : Tree) : Source → Prop
  | .field id => tree.Live id
  | .children id => tree.LiveNode id

theorem SourceLive.issued {source : Source} (h : tree.SourceLive source) : tree.Issued source := by
  cases source with
  | field id => exact h.lt_size
  | children id => exact h.lt_size

/-- The region of what is new and of some older fields. -/
def span (tree : Tree) (visited within : FieldId → Prop) : Region where
  base := tree.fields.size
  visited x := tree.fields.size ≤ x.index ∨ visited x
  within x := tree.fields.size ≤ x.index ∨ within x
  sources _ := True

/-- A new field feeds nothing yet, so only the older fields count. -/
theorem Sound.governs_span (h : tree.Sound) {visited within : FieldId → Prop}
    (hsub : ∀ x, visited x → within x)
    (hlisteners : ∀ x d, within x → d ∈ tree.listeners x → visited d)
    (hcontainer : ∀ x c, within x → tree.container? x = some c → within c) :
    (tree.span visited within).Governs tree where
  sound := h
  base_le := Nat.le_refl _
  fresh _ := .inl
  visited_within x := Or.imp_right (hsub x)
  listeners x d hx hd := by
    rcases hx with hx | hx
    · exact absurd (live_of_mem_listeners hd).lt_size (Nat.not_lt_of_le hx)
    · exact .inr (hlisteners x d hx hd)
  container x c hx hc := by
    rcases hx with hx | hx
    · exact absurd (live_of_container?_eq_some hc).lt_size (Nat.not_lt_of_le hx)
    · exact .inr (hcontainer x c hx hc)
  fresh_source _ _ := trivial
  offers _ _ _ _ := ⟨trivial, fun _ _ ↦ trivial⟩

/-- What a field reaches, the field included. -/
def around (tree : Tree) (id : FieldId) : Region :=
  tree.span (ReflTransGen tree.Feeds id) (ReflTransGen tree.Feeds id)

theorem Sound.governs_around (h : tree.Sound) (id : FieldId) : (tree.around id).Governs tree :=
  h.governs_span (fun _ hx ↦ hx) (fun _ _ hx hd ↦ hx.tail (feeds_iff.2 (.inl hd)))
    fun _ _ hx hc ↦ hx.tail (feeds_iff.2 (.inr hc))

/-- What a field reaches, but without a visit to the field itself. -/
def beyond (tree : Tree) (id : FieldId) : Region :=
  tree.span (TransGen tree.Feeds id) (ReflTransGen tree.Feeds id)

theorem Sound.governs_beyond (h : tree.Sound) (id : FieldId) : (tree.beyond id).Governs tree :=
  h.governs_span (fun _ hx ↦ hx.to_reflTransGen)
    (fun _ _ hx hd ↦ TransGen.tail' hx (feeds_iff.2 (.inl hd)))
    fun _ _ hx hc ↦ hx.tail (feeds_iff.2 (.inr hc))

theorem Sound.not_visited_beyond (h : tree.Sound) {id : FieldId}
    (hid : id.index < tree.fields.size) : ¬(tree.beyond id).visited id := by
  rintro (hnew | hcycle)
  · exact Nat.not_lt_of_le hnew hid
  · exact h.acyclic id hcycle

/-- What a moved dependent reaches it has reached before the move. -/
theorem reach_of_reach_relink (ho : tree.Ordered) {dependent x : FieldId} {source : Option Source}
    (h : ReflTransGen (tree.relink dependent source).Feeds dependent x) :
    ReflTransGen tree.Feeds dependent x := by
  rcases reflTransGen_iff_eq_or_transGen.1 h with rfl | h
  · exact .refl
  · have hnew : ∀ a b, (tree.relink dependent source).Feeds a b →
        tree.Feeds a b ∨ (tree.Live a ∧ tree.Covers source a) ∧ b = dependent :=
      fun _ _ ↦ feeds_relink ho
    rcases transGen_split_of_new_edges hnew h with h | ⟨_, h⟩
    · exact h.to_reflTransGen
    · exact h

/-- After a cascade of a moved dependent, the dependent still reaches no layer of the source it had
before. -/
theorem Sound.admits_previous (h : tree.Sound) {dependent : FieldId} {source : Option Source}
    {previous : Source} (hprevious : tree.link? dependent = some previous) {after : Tree}
    (hs : (tree.relink dependent source).Sound)
    (hl : ((tree.relink dependent source).around dependent).Leads (tree.relink dependent source)
      after) : after.Admits dependent previous := by
  have hg := hs.governs_around dependent
  have hg' := hl.governs hg
  have hframed := hl.framed hg
  have hissued := h.ordered.link_issued dependent previous hprevious
  cases previous with
  | children id => trivial
  | field p =>
      intro x hx hlive hreach
      have hw := (mem_layers_iff hg'.sound.ordered.innerOlder).1 hx
      have hold : x.index < tree.fields.size :=
        Nat.lt_of_le_of_lt (hg'.sound.ordered.le_of_wraps hw) hissued
      have hbase : ((tree.relink dependent source).around dependent).base = tree.fields.size :=
        fields_size_relink dependent source
      -- The cascade stayed around the dependent, so that it reached the layer before.
      have hbefore : ReflTransGen tree.Feeds dependent x := by
        rcases hg'.within_of_reach (.inr .refl) hreach with hnew | hreach
        · rw [fields_size_relink] at hnew
          exact absurd hold (Nat.not_lt_of_le hnew)
        · exact reach_of_reach_relink h.ordered hreach
      -- The layers of the old source are those it had before.
      have hlayers : ReflTransGen tree.Wraps p x := by
        rw [← wraps_relink dependent source]
        exact hframed.wraps hg'.sound.ordered (hbase ▸ hissued) hw
      have hlive' : tree.Live x := by
        rw [← live_relink dependent source]
        exact hframed.live (hbase ▸ hold) hlive
      have hfeeds : tree.Feeds x dependent :=
        h.feeds_of_follows hlive' ⟨p, hprevious, hlayers⟩
      exact h.acyclic x (TransGen.head' hfeeds hbefore)

theorem rebind_keeps_sound (h : tree.Sound) (dependent : FieldId) {source : Source}
    (hissued : tree.Issued source) :
    (rebind dependent source).Meets tree (fun _ ↦ Sound) fun _ ↦ Sound := by
  rw [rebind, meets_rebindWith]
  refine ⟨fun field hf ↦ ⟨fun _ ↦ h, fun hc ↦ ⟨fun _ _ ↦ h, fun _ ↦ ?_⟩⟩, fun _ ↦ h⟩
  have hlive := live_of_some hf
  have hs := h.relink_of_not_closesCycle hlive hissued hc
  have hg := hs.governs_around dependent
  apply (Confined.enter false _ _ dependent hg (.inr .refl)).imp
  · exact fun _ _ hl ↦ (hl.governs hg).sound
  · intro fault after hl
    have hafter := (hl.governs hg).sound
    rw [meets_relink]
    refine ⟨fun hla ↦ hafter.relink hla fun previous hp ↦ ?_, fun _ ↦ hafter⟩
    have hprevious : tree.link? dependent = some previous := by
      rw [link?, read_of_some hf, hp]
    refine ⟨?_, h.admits_previous hprevious hs hl⟩
    have hframed := hl.framed hg
    apply (h.ordered.link_issued dependent previous hprevious).mono
    · exact (fields_size_relink dependent _).symm.trans_le hframed.fields_size
    · rw [hframed.nodes.nodes_size, nodes_size_relink]

end Tree

/-! ## Histories -/

/-- Whether an operation, if it is a rebind, names a live source. -/
def Operation.NamesLive (operation : Operation) (tree : Tree) : Prop :=
  match operation with
  | .rebind _ source => tree.SourceLive source
  | _ => True

/-- Whether an operation, if it is a rebind, names a source that has been handed out. -/
def Operation.NamesIssued (operation : Operation) (tree : Tree) : Prop :=
  match operation with
  | .rebind _ source => tree.Issued source
  | _ => True

theorem Operation.NamesLive.issued {operation : Operation} {tree : Tree}
    (h : operation.NamesLive tree) : operation.NamesIssued tree := by
  cases operation with
  | rebind => exact Tree.SourceLive.issued h
  | _ => trivial

namespace Tree

variable {tree : Tree}

/-- Whether every rebind of a history names a source that is alive when it is carried out. -/
def RebindsLive (tree : Tree) : List Operation → Prop
  | [] => True
  | operation :: rest =>
    operation.NamesLive tree ∧ (tree.perform operation).2.RebindsLive rest

/-- Whether every rebind of a history names a source that has been handed out by then. -/
def RebindsIssued (tree : Tree) : List Operation → Prop
  | [] => True
  | operation :: rest =>
    operation.NamesIssued tree ∧ (tree.perform operation).2.RebindsIssued rest

theorem RebindsLive.issued {operations : List Operation} (h : tree.RebindsLive operations) :
    tree.RebindsIssued operations := by
  induction operations generalizing tree with
  | nil => trivial
  | cons operation rest ih => exact ⟨h.1.issued, ih h.2⟩

/-- An object is added, colours are chosen to define it, and its length is moved from that choice
to its position. -/
def standardHistory : List Operation :=
  [.addByCategory ⟨0⟩ .object, .choose ⟨2⟩ "c", .rebind ⟨4⟩ (.field ⟨0⟩)]

theorem rebindsLive_standardHistory : standardTree.RebindsLive standardHistory :=
  ⟨trivial, trivial, rfl, trivial⟩

theorem invariant_sound : Invariant Sound (fun _ ↦ Sound) fun _ ↦ True where
  catalog _ _ _ _ := trivial
  create kind _ := create_keeps_sound kind
  addChild := addChild_keeps_sound
  removeChild := removeChild_keeps_sound
  retype := retype_keeps_sound
  mutate id _ hchange := mutate_keeps_sound id hchange
  appendElement := appendElement_keeps_sound
  removeElement := removeElement_keeps_sound

theorem Sound.perform (h : tree.Sound) {operation : Operation} (hl : operation.NamesLive tree) :
    (tree.perform operation).2.Sound := by
  refine meets_const_iff.1 (invariant_sound.operation h operation (fun _ _ ↦ trivial) ?_)
  rintro dependent source rfl
  exact rebind_keeps_sound h dependent hl.issued

theorem Sound.run (h : tree.Sound) {operations : List Operation}
    (hl : tree.RebindsLive operations) :
    (tree.run operations).2.Sound := by
  induction operations generalizing tree with
  | nil => exact h
  | cons operation rest ih => exact ih (h.perform hl.1) hl.2

/-! ## The first tree -/

theorem sound_empty (catalog : Catalog) (settings : Settings) :
    ({ catalog, settings } : Tree).Sound := by
  have hdead : ∀ id, ¬({ catalog, settings } : Tree).Live id := fun id ↦
    not_live_iff.2 (field?_empty catalog settings id)
  have htops : ∀ node, ({ catalog, settings } : Tree).topFields node = [] := fun node ↦ by
    rw [topFields, node?_empty]
  have hparts : ∀ id, ({ catalog, settings } : Tree).parts id = [] := fun id ↦
    read_of_none (field?_empty catalog settings id) _ _
  have hlisteners : ∀ id, ({ catalog, settings } : Tree).nodeListeners id = [] := fun id ↦
    readNode_of_none (node?_empty catalog settings id) _ _
  refine ⟨⟨?_, ?_, ?_, ?_⟩, ⟨?_, ?_, ?_, ?_, ?_, ?_, ?_⟩, ⟨?_, ?_, ?_, ?_⟩, ?_⟩
  · exact fun a _ h ↦ absurd (live_of_inner?_eq_some h) (hdead a)
  · exact fun a _ h ↦ absurd (live_of_container?_eq_some h) (hdead a)
  · exact fun a _ h ↦ absurd (live_of_link?_eq_some h) (hdead a)
  · exact fun a _ h ↦ absurd (live_of_read_ne (ne_of_eq_of_ne h (Option.some_ne_none _))) (hdead a)
  · exact fun a _ h ↦ absurd (live_of_mem_parts h) (hdead a)
  · exact fun a ↦ hparts a ▸ List.nodup_nil
  · exact fun a _ _ h ↦ absurd (live_of_mem_parts h) (hdead a)
  · exact fun node _ h ↦ absurd (htops node ▸ h) List.not_mem_nil
  · exact fun node ↦ htops node ▸ List.nodup_nil
  · exact fun node _ _ h ↦ absurd (htops node ▸ h) List.not_mem_nil
  · exact fun node _ _ h ↦ absurd (htops node ▸ h) List.not_mem_nil
  · intro id _
    rw [listeners_eq_read, read_of_none (field?_empty catalog settings id)]
    exact List.nodup_nil
  · exact fun id _ _ h ↦ absurd h (hdead id)
  · exact fun id ↦ hlisteners id ▸ List.nodup_nil
  · exact fun id _ h ↦ absurd (node?_empty catalog settings id) (Option.isSome_iff_ne_none.1 h)
  · exact fun id h ↦ hdead id (by
      obtain ⟨b, hb, _⟩ := TransGen.head'_iff.1 h
      exact live_of_feeds hb)

theorem sound_start {catalog : Catalog} {settings : Settings}
    (h : start catalog settings = .ok tree) : tree.Sound := by
  refine of_start ?_ h
  have hroot : (({ catalog, settings } : Tree).insertNode { kind := catalog.root }).Sound :=
    (sound_empty catalog settings).insertNode rfl rfl
  refine (build_keeps_sound create_keeps_sound ⟨0⟩ catalog.root hroot ?_).imp (fun _ _ h ↦ h)
    fun _ _ _ ↦ trivial
  exact (liveNode_insertNode _ _ _).2 (.inl rfl)

end Tree

end LightTree
