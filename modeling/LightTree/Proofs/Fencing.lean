import LightTree.Proofs.Annex
import LightTree.Proofs.Tidiness

/-!
# What is new is fenced in

What is new refers to what is new only, as the building of nodes apart has it, and in addition only
what is new listens to it. A cascade that begins among what is new then stays there, whatever older
fields are linked to. It neither takes away nor changes a field outside lists, except for its links,
its activity and the elements of a linked list, and of a node it changes the listeners at most.
-/

namespace LightTree

open Relation Edit

/-- A value without the elements that a linked list has at the moment. -/
def Value.settled : Value → Value
  | list true template _ => list true template []
  | value => value

namespace Field

/-- What cascades leave of a field outside lists. -/
def core (field : Field) : Field :=
  { name := field.name, owner := field.owner, value := field.value.settled,
    container := field.container }

end Field

namespace Tree

variable {base tree mid after : Tree} {id : FieldId} {field : Field} {node : NodeId}

/-! ## Fences -/

/-- What is new refers to what is new only, and only what is new listens to it. -/
structure Fenced (base tree : Tree) : Prop extends base.Sealed tree where
  listener : ∀ x d, base.Later (.field x) → d ∈ tree.listeners x → base.Later (.field d)
  nodeListener : ∀ n d, base.Later (.children n) → d ∈ tree.nodeListeners n → base.Later (.field d)

theorem Untouched.later (h : base.Untouched tree) {source : Source} (hs : tree.Later source) :
    base.Later source := by
  cases source with
  | field id => exact h.fields_size.trans hs
  | children id => exact h.nodes_size.trans hs

/-- What is new refers to what is new only if this is so of what is new since a tree in between and,
as that tree has it, of the rest. -/
theorem later_of_mentions {α β : Type} (key : α → Source) (ref : β → Source)
    (mentions : Tree → α → β → Prop) (hm : base.Untouched mid)
    (hkept : ∀ a b, ¬mid.Later (key a) → mentions after a b → mentions mid a b)
    (h : ∀ a b, base.Later (key a) → mentions mid a b → base.Later (ref b))
    (h' : ∀ a b, mid.Later (key a) → mentions after a b → mid.Later (ref b)) :
    ∀ a b, base.Later (key a) → mentions after a b → base.Later (ref b) := by
  intro a b ha hab
  by_cases hnew : mid.Later (key a)
  · exact hm.later (h' a b hnew hab)
  · exact h a b ha (hkept a b hnew hab)

namespace Fenced

theorem refl (tree : Tree) : tree.Fenced tree where
  toSealed := .refl tree
  listener _ _ hx hd := absurd (live_of_mem_listeners hd).lt_size (Nat.not_lt_of_le hx)
  nodeListener _ _ hn hd := absurd
    (liveNode_of_readNode_ne (List.ne_nil_of_mem hd)).lt_size (Nat.not_lt_of_le hn)

theorem trans (h : base.Fenced mid) (h' : mid.Fenced after) : base.Fenced after := by
  have hm := h.toUntouched
  have hread : ∀ {α : Type} {x : FieldId} (part : Field → α) (default : α),
      ¬mid.Later (.field x) → after.read part default x = mid.read part default x :=
    fun part default hx ↦ h'.toUntouched.read (Nat.lt_of_not_le hx) part default
  have hnode : ∀ {α : Type} {n : NodeId} (part : Node → α) (default : α),
      ¬mid.Later (.children n) → after.readNode part default n = mid.readNode part default n :=
    fun part default hn ↦ h'.toUntouched.readNode (Nat.lt_of_not_le hn) part default
  refine ⟨⟨hm.trans h'.toUntouched, ?_, ?_, ?_, ?_, ?_, ?_⟩, ?_, ?_⟩
  · refine later_of_mentions .field id (fun t x s ↦ t.link? x = some s) hm ?_ h.link h'.link
    exact fun x s hx hs ↦ (hread _ _ hx).symm.trans hs
  · refine later_of_mentions .field .field (fun t x y ↦ y ∈ t.parts x) hm ?_ h.part h'.part
    exact fun x y hx hy ↦ by rwa [parts, hread _ _ hx] at hy
  · refine later_of_mentions .field .field (fun t x y ↦ t.container? x = some y) hm ?_ h.container
      h'.container
    intro x y hx hy
    rw [container?_eq_read] at hy ⊢
    exact (hread _ _ hx).symm.trans hy
  · refine later_of_mentions .field .children (fun t x n ↦ t.owner? x = some n) hm ?_ h.owner
      h'.owner
    exact fun x n hx hn ↦ (hread _ _ hx).symm.trans hn
  · refine later_of_mentions .children .field (fun t n x ↦ x ∈ t.topFields n) hm ?_ h.top h'.top
    intro n x hn hx
    rw [topFields_eq_readNode] at hx ⊢
    exact (hnode _ _ hn) ▸ hx
  · refine later_of_mentions .children .children (fun t n c ↦ c ∈ t.children n) hm ?_ h.child
      h'.child
    intro n c hn hc
    rw [children_eq_readNode] at hc ⊢
    exact (hnode _ _ hn) ▸ hc
  · refine later_of_mentions .field .field (fun t x d ↦ d ∈ t.listeners x) hm ?_ h.listener
      h'.listener
    intro x d hx hd
    rw [listeners_eq_read] at hd ⊢
    exact (hread _ _ hx) ▸ hd
  · refine later_of_mentions .children .field (fun t n d ↦ d ∈ t.nodeListeners n) hm ?_
      h.nodeListener h'.nodeListener
    exact fun n d hn hd ↦ by rwa [nodeListeners, hnode _ _ hn] at hd

theorem of_sealed (h : base.Fenced tree) (hs : base.Sealed after)
    (hlisteners : after.listeners = tree.listeners)
    (hnodes : after.nodeListeners = tree.nodeListeners) : base.Fenced after where
  toSealed := hs
  listener x d hx hd := h.listener x d hx (hlisteners ▸ hd)
  nodeListener n d hn hd := h.nodeListener n d hn (hnodes ▸ hd)

theorem of_shrinks (h : base.Fenced tree) (hs : base.Sealed after) (hk : tree.Shrinks after) :
    base.Fenced after where
  toSealed := hs
  listener x d hx hd := h.listener x d hx ((hk.listeners x).subset hd)
  nodeListener n d hn hd := h.nodeListener n d hn ((hk.nodeListeners n).subset hd)

theorem relink (h : base.Fenced tree) (ho : tree.InnerOlder) (hid : base.Later (.field id))
    (hl : tree.Live id) {source : Option Source} (hs : ∀ s, source = some s → base.Later s) :
    base.Fenced (tree.relink id source) where
  toSealed := h.toSealed.relink hid hl hs
  listener x d hx hd := by
    have hxl := (live_relink id source x).1 (live_of_mem_listeners hd)
    rcases (mem_listeners_relink ho hxl).1 hd with ⟨hold, _⟩ | ⟨rfl, _⟩
    · exact h.listener x d hx hold
    · exact hid
  nodeListener n d hn hd := by
    have hnl := (liveNode_relink id source n).1
      (liveNode_of_readNode_ne (List.ne_nil_of_mem hd))
    rcases (mem_nodeListeners_relink hnl).1 hd with ⟨hold, _⟩ | ⟨rfl, _⟩
    · exact h.nodeListener n d hn hold
    · exact hid

theorem insertField (h : base.Fenced tree) (hlink : field.link = none)
    (hlisteners : field.listeners = []) (hparts : ∀ c ∈ field.value.parts, base.Later (.field c))
    (hcontainer : ∀ c, field.container = some c → base.Later (.field c))
    (howner : base.Later (.children field.owner)) : base.Fenced (tree.insertField field) :=
  h.of_sealed (h.toSealed.insertField hlink hparts hcontainer howner)
    (listeners_insertField hlisteners) rfl

theorem setActive (h : base.Fenced tree) (hid : base.Later (.field id)) (active : Bool) :
    base.Fenced (tree.updateField id ({ · with active })) :=
  h.of_sealed (h.toSealed.setActive hid active)
    (listeners_updateField (retouches_setActive active).listeners id) rfl

theorem mapElements_listeners (tree : Tree) (id : FieldId)
    (f : List (List FieldId) → List (List FieldId)) :
    (tree.updateField id fun field ↦
      { field with value := field.value.mapElements f }).listeners = tree.listeners :=
  listeners_updateField (retouches_mapElements f).listeners id

theorem push (h : base.Fenced tree) (hid : base.Later (.field id)) {group : List FieldId}
    (hgroup : ∀ x ∈ group, base.Later (.field x)) : base.Fenced (tree.push id group) :=
  h.of_sealed (h.toSealed.push hid hgroup) (mapElements_listeners tree id _) rfl

theorem drop (h : base.Fenced tree) (hid : base.Later (.field id))
    (hf : tree.field? id = some field) {f : List (List FieldId) → List (List FieldId)} {group : List FieldId}
    (hsplit : Splits f group field.value) : base.Fenced (tree.drop id f group) where
  toSealed := h.toSealed.drop hid hf hsplit
  listener x d hx hd := by
    refine h.listener x d hx ?_
    rw [← mapElements_listeners tree id f]
    exact ((releaseFields_shrinks _ group).listeners x).subset hd
  nodeListener n d hn hd := h.nodeListener n d hn
    (((releaseFields_shrinks (tree.updateField id _) group).nodeListeners n).subset hd)

theorem refreshed (h : base.Fenced tree) : base.Fenced tree.refreshed :=
  h.of_sealed h.toSealed.refreshed rfl rfl

theorem insertNode (h : base.Fenced tree) (kind : NodeKind) :
    base.Fenced (tree.insertNode { kind }) :=
  h.of_sealed (h.toSealed.insertNode kind) rfl (nodeListeners_insertNode rfl)

theorem addTop (h : base.Fenced tree) (hnode : base.Later (.children node))
    (hid : base.Later (.field id)) : base.Fenced (tree.addTop node id) :=
  h.of_sealed (h.toSealed.addTop hnode hid) rfl (readNode_updateNode_of_keeps
    (f := fun n ↦ { n with fields := n.fields ++ [id] }) (fun _ ↦ rfl) node [])

theorem adopt (h : base.Fenced tree) {parent child : NodeId} (hp : base.Later (.children parent))
    (hc : base.Later (.children child)) : base.Fenced (tree.adopt parent child) :=
  h.of_sealed (h.toSealed.adopt hp hc) rfl
    ((readNode_updateNode_of_keeps (f := ({ · with parent := some parent })) (fun _ ↦ rfl) child
      []).trans (readNode_updateNode_of_keeps
        (f := fun n ↦ { n with children := n.children ++ [child] }) (fun _ ↦ rfl) parent []))

theorem releaseNode (h : base.Fenced tree) (hnode : base.Later (.children node)) :
    base.Fenced (tree.releaseNode node) :=
  h.of_shrinks (h.toSealed.releaseNode hnode) (releaseNode_shrinks tree node)

end Fenced

/-! ## What lasts -/

/-- Fields outside lists are in the second tree as they are in the first one, apart from what
cascades change of them. -/
def FieldsOutlast (tree after : Tree) : Prop :=
  ∀ x old, tree.field? x = some old → old.container = none →
    ∃ new, after.field? x = some new ∧ new.core = old.core

theorem FieldsOutlast.of_field? (h : after.field? = tree.field?) : tree.FieldsOutlast after :=
  fun _ old ho _ ↦ ⟨old, h ▸ ho, rfl⟩

/-- So are the nodes. -/
structure Outlasts (tree after : Tree) : Prop where
  node : ∀ n old, tree.node? n = some old → ∃ new, after.node? n = some new ∧ new.bare = old.bare
  field : tree.FieldsOutlast after

namespace Outlasts

theorem refl (tree : Tree) : tree.Outlasts tree :=
  ⟨fun _ old ho ↦ ⟨old, ho, rfl⟩, fun _ old ho _ ↦ ⟨old, ho, rfl⟩⟩

theorem trans (h : tree.Outlasts mid) (h' : mid.Outlasts after) : tree.Outlasts after where
  node n old ho := by
    obtain ⟨between, hb, hsame⟩ := h.node n old ho
    obtain ⟨new, hn, hsame'⟩ := h'.node n between hb
    exact ⟨new, hn, hsame'.trans hsame⟩
  field x old ho hc := by
    obtain ⟨between, hb, hsame⟩ := h.field x old ho hc
    obtain ⟨new, hn, hsame'⟩ := h'.field x between hb ((congrArg Field.container hsame).trans hc)
    exact ⟨new, hn, hsame'.trans hsame⟩

theorem of_untouched (h : tree.Untouched after) : tree.Outlasts after where
  node n old ho := ⟨old, (h.node n (liveNode_of_some ho).lt_size).trans ho, rfl⟩
  field x old ho _ := ⟨old, (h.field x (live_of_some ho).lt_size).trans ho, rfl⟩

theorem of_sameNodes (h : tree.SameNodes after) (hfield : tree.FieldsOutlast after) :
    tree.Outlasts after where
  node n old ho := by
    have hbare := h.bare n
    rw [ho] at hbare
    exact Option.map_eq_some_iff.1 hbare
  field := hfield

theorem insertField (tree : Tree) (field : Field) : tree.Outlasts (tree.insertField field) := by
  refine of_sameNodes (.insertField tree field) fun x old ho _ ↦ ⟨old, ?_, rfl⟩
  rwa [tree.field?_insertField_of_ne field (live_of_some ho).ne_nextField]

theorem relink (tree : Tree) (dependent : FieldId) (source : Option Source) :
    tree.Outlasts (tree.relink dependent source) := by
  refine of_sameNodes (.relink tree dependent source) fun x old ho _ ↦ ?_
  obtain ⟨new, hn⟩ := live_iff.1 ((live_relink dependent source x).2 (live_of_some ho))
  have hcore : (tree.relink dependent source).read Field.core old x = tree.read Field.core old x :=
    congrFun (read_relink dependent source (fun _ _ _ ↦ rfl) old) x
  rw [read_of_some hn, read_of_some ho] at hcore
  exact ⟨new, hn, hcore⟩

theorem updateField (hf : tree.field? id = some field) {f : Field → Field}
    (hcore : (f field).core = field.core) : tree.Outlasts (tree.updateField id f) := by
  refine of_sameNodes (.updateField tree id f) fun x old ho _ ↦ ?_
  by_cases hx : id = x
  · subst hx
    rw [hf] at ho
    cases ho
    exact ⟨f field, by rw [field?_updateField, if_pos rfl, hf]; rfl, hcore⟩
  · exact ⟨old, by rwa [field?_updateField, if_neg hx], rfl⟩

theorem setActive (tree : Tree) (id : FieldId) (active : Bool) :
    tree.Outlasts (tree.updateField id ({ · with active })) := by
  by_cases hl : tree.Live id
  · obtain ⟨field, hf⟩ := live_iff.1 hl
    exact updateField hf rfl
  · refine of_sameNodes (.updateField tree id _) fun x old ho _ ↦ ⟨old, ?_, rfl⟩
    have hx : id ≠ x := fun he ↦ hl (he ▸ live_of_some ho)
    rwa [field?_updateField, if_neg hx]

theorem refreshed (tree : Tree) : tree.Outlasts tree.refreshed :=
  of_sameNodes (.refresh tree) fun _ old ho _ ↦ ⟨old, ho, rfl⟩

theorem core_mapElements {template : List FieldDecl} {elements : List (List FieldId)}
    (hvalue : field.value = .list true template elements)
    (f : List (List FieldId) → List (List FieldId)) :
    Field.core { field with value := field.value.mapElements f } = field.core := by
  simp [Field.core, hvalue, Value.mapElements, Value.settled]

theorem releaseFields {ids : List FieldId}
    (hids : ∀ y ∈ ids, ∀ x, tree.Holds y x → tree.Live x → ∃ c, tree.container? x = some c) :
    tree.Outlasts (tree.releaseFields ids) := by
  refine of_sameNodes (.releaseFields tree ids) fun x old ho hnone ↦ ?_
  have hcontainer : tree.container? x = none := by rw [container?, ho, Option.bind_some, hnone]
  have hl : (tree.releaseFields ids).Live x := by
    refine live_releaseFields_iff.2 ⟨live_of_some ho, fun y hy hyx ↦ ?_⟩
    obtain ⟨c, hc⟩ := hids y hy x hyx (live_of_some ho)
    rw [hcontainer] at hc
    cases hc
  obtain ⟨new, hn⟩ := live_iff.1 hl
  obtain ⟨old', ho', hsame, _⟩ := (releaseFields_shrinks tree ids).field x new hn
  rw [ho] at ho'
  cases ho'
  exact ⟨new, hn, by rw [hsame]; rfl⟩

end Outlasts

/-- What a field in a list holds stands in lists. -/
theorem Tidy.container_of_holds (h : tree.Tidy) {x y : FieldId} (hxy : tree.Holds x y)
    (hx : ∃ c, tree.container? x = some c) (hl : tree.Live y) :
    ∃ c, tree.container? y = some c := by
  induction hxy with
  | refl => exact hx
  | @tail y z _ hyz ih =>
      obtain ⟨c, hc⟩ := ih (live_of_mem_parts hyz)
      obtain ⟨field, hf⟩ := live_iff.1 (live_of_mem_parts hyz)
      obtain ⟨part, hp⟩ := live_iff.1 hl
      have hfield : field.container = some c := by
        rwa [container?_eq_read, read_of_some hf] at hc
      have hseat := h.part y z (field.shelter y) (by rw [shelter?, read_of_some hf]) hyz
      have hhome := congrArg Prod.snd (hseat.at_home _ (by rw [home?, read_of_some hp]))
      rw [container?_eq_read, read_of_some hp]
      change part.container = (field.shelter y).2 at hhome
      rw [hhome, Field.shelter]
      by_cases he : field.value.elements?.isSome
      · exact ⟨y, by simp [he]⟩
      · exact ⟨c, by simp [he, hfield]⟩

/-- What a linked list drops stands in lists, so nothing else goes. -/
theorem Tidy.outlasts_drop (h : tree.Tidy) (hf : tree.field? id = some field)
    {template : List FieldDecl} {elements : List (List FieldId)}
    (hvalue : field.value = .list true template elements)
    {f : List (List FieldId) → List (List FieldId)} {group : List FieldId}
    (hsplit : Splits f group field.value) : tree.Outlasts (tree.drop id f group) := by
  refine (Outlasts.updateField hf (Outlasts.core_mapElements hvalue f)).trans (.releaseFields ?_)
  intro y hgroup x hyx hx
  have hyx : tree.Holds y x := ReflTransGen.mono (fun _ _ ↦ mem_parts_of_mem_kept hf hsplit) _ _ hyx
  have hx : tree.Live x := (live_updateField tree id _ x).1 hx
  have hy : tree.Live y := by
    rcases ReflTransGen.cases_head hyx with rfl | ⟨z, hyz, _⟩
    · exact hx
    · exact live_of_mem_parts hyz
  have hseat := h.part id y (field.owner, some id) (shelter?_of_list hf hvalue)
    (mem_parts_of_mem_dropped hf hsplit hgroup)
  obtain ⟨part, hp⟩ := live_iff.1 hy
  have hhome := congrArg Prod.snd (hseat.at_home _ (by rw [home?, read_of_some hp]))
  have hcontainer : tree.container? y = some id := by
    rw [container?_eq_read, read_of_some hp]
    exact hhome
  rw [container?_updateField (retouches_mapElements f).container]
  exact h.container_of_holds hyx ⟨id, hcontainer⟩ hx

/-! ## Cascades among what is new -/

/-- A tidy tree in which what is new since one tree is fenced in and what another tree has lasts. -/
structure Reared (base start tree : Tree) : Prop where
  fenced : base.Fenced tree
  tidy : tree.Tidy
  outlasts : start.Outlasts tree

theorem upkeep_reared (base start : Tree) : Upkeep base.Later (base.Reared start) where
  fresh h := h.fenced.fields_size
  listener h hx hd := h.fenced.listener _ _ hx hd
  nodeListener h hn hd := h.fenced.nodeListener _ _ hn hd
  container h hx hc := h.fenced.container _ _ hx hc
  link h hx hs := h.fenced.link _ _ hx hs
  owner h hx hn := h.fenced.owner _ _ hx hn
  top h hn hx := h.fenced.top _ _ hn hx
  insertField h hlink hlisteners howner hcontainer hparts :=
    ⟨h.fenced.insertField hlink hlisteners (fun c hc ↦ (hparts c hc).1)
        (fun c hc ↦ (hcontainer c hc).1) howner,
      upkeep_tidy.insertField h.tidy hlink hlisteners trivial
        (fun c hc ↦ ⟨trivial, (hcontainer c hc).2⟩) fun c hc ↦ ⟨trivial, (hparts c hc).2⟩,
      h.outlasts.trans (.insertField _ _)⟩
  relink h hl hd hs := ⟨h.fenced.relink h.tidy.inner_older hd hl hs, h.tidy.relink hl _,
    h.outlasts.trans (.relink _ _ _)⟩
  setActive active h hid := ⟨h.fenced.setActive hid active, h.tidy.setActive _ active,
    h.outlasts.trans (.setActive _ _ _)⟩
  push h hid hf hvalue hgroup := by
    refine ⟨h.fenced.push hid fun x hx ↦ (hgroup x hx).1,
      upkeep_tidy.push h.tidy trivial hf hvalue fun x hx ↦ ⟨trivial, (hgroup x hx).2⟩,
      h.outlasts.trans (.updateField hf (Outlasts.core_mapElements hvalue _))⟩
  drop h hid hf hvalue hsplit := ⟨h.fenced.drop hid hf hsplit, h.tidy.drop hf hsplit,
    h.outlasts.trans (h.tidy.outlasts_drop hf hvalue hsplit)⟩
  refreshed h := ⟨h.fenced.refreshed, h.tidy.refreshed, h.outlasts.trans (.refreshed _)⟩

end Tree

end LightTree
