import LightTree.Proofs.Frame

/-!
# Regions

A cascade stays in a region: it visits fields of the region, it links only fields newer than
the base of the region, to sources that the region offers, and whatever a field of the region feeds
is in the region again. The steps
that cascades are made of keep the tree sound and the region closed, and they keep the frame: the
fields that are older than the base keep their place and their link, and those that are not visited
keep their state as well.
-/

namespace LightTree

open Relation

/-- What a cascade may do to a tree: the fields that it may visit, those that its changes may move
through, from where on fields are new to it, and the sources that it may link new fields to. -/
structure Region where
  base : Nat
  visited : FieldId → Prop
  within : FieldId → Prop
  sources : Source → Prop

namespace Region

variable {region : Region} {tree after last : Tree}

/-- The children of a node and the fields at its top are sources of the region. -/
def Offers (region : Region) (tree : Tree) (node : NodeId) : Prop :=
  region.sources (.children node) ∧ ∀ x ∈ tree.topFields node, region.sources (.field x)

/-- No change of a field of the region leads out of it. -/
structure Governs (region : Region) (tree : Tree) : Prop where
  sound : tree.Sound
  base_le : region.base ≤ tree.fields.size
  fresh : ∀ x : FieldId, region.base ≤ x.index → region.visited x
  visited_within : ∀ x, region.visited x → region.within x
  listeners : ∀ x d, region.within x → d ∈ tree.listeners x → region.visited d
  container : ∀ x c, region.within x → tree.container? x = some c → region.within c
  fresh_source : ∀ x : FieldId, region.base ≤ x.index → region.sources (.field x)
  offers : ∀ x node, region.visited x → tree.owner? x = some node → region.Offers tree node

/-- The steps that cascades are made of. -/
inductive Change (region : Region) (tree : Tree) : Tree → Prop
  | insert {field : Field} (link : field.link = none) (listeners : field.listeners = [])
      (container : ∀ c, field.container = some c → region.within c ∧ c.index < tree.fields.size)
      (owner : field.owner.index < tree.nodes.size) (offers : region.Offers tree field.owner)
      (nodup : field.value.parts.Nodup)
      (loose : ∀ c ∈ field.value.parts, tree.Loose c ∧ region.base ≤ c.index) :
      Change region tree (tree.insertField field)
  | relink {dependent : FieldId} {source : Option Source} (live : tree.Live dependent)
      (new : region.base ≤ dependent.index) (sources : ∀ s, source = some s → region.sources s)
      (admits : ∀ s, source = some s → tree.Issued s ∧ tree.Admits dependent s) :
      Change region tree (tree.relink dependent source)
  | setActive {id : FieldId} (visited : region.visited id) (active : Bool) :
      Change region tree (tree.updateField id ({ · with active }))
  | push {id : FieldId} {group : List FieldId} (visited : region.visited id) (nodup : group.Nodup)
      (loose : ∀ x ∈ group, tree.Loose x ∧ region.base ≤ x.index) :
      Change region tree (tree.push id group)
  | drop {id : FieldId} {field : Field} {f : List (List FieldId) → List (List FieldId)}
      {group : List FieldId} (visited : region.visited id) (live : tree.field? id = some field)
      (splits : Tree.Splits f group field.value) : Change region tree (tree.drop id f group)
  | refresh : Change region tree { tree with refreshes := tree.refreshes + 1 }

def Leads (region : Region) : Tree → Tree → Prop :=
  ReflTransGen region.Change

/-! ## Steps keep the tree sound -/

theorem Change.sound (h : region.Change tree after) (hs : tree.Sound) : after.Sound := by
  cases h with
  | insert link listeners container owner _ nodup loose =>
      exact hs.insertField link listeners (fun c hc ↦ (container c hc).2) owner nodup
        fun c hc ↦ (loose c hc).1
  | relink live _ _ admits => exact hs.relink live admits
  | setActive visited active => exact hs.setActive _ active
  | push visited nodup loose => exact hs.push _ nodup fun x hx ↦ (loose x hx).1
  | drop visited live splits => exact hs.drop live splits
  | refresh => exact hs.refresh

theorem fields_size_drop (tree : Tree) (id : FieldId)
    (f : List (List FieldId) → List (List FieldId)) (group : List FieldId) :
    (tree.drop id f group).fields.size = tree.fields.size := by
  rw [Tree.drop, (Tree.releaseFields_shrinks _ group).fields_size, Tree.size_updateField]

theorem Change.fields_size_le (h : region.Change tree after) :
    tree.fields.size ≤ after.fields.size := by
  cases h with
  | insert => simp
  | relink | setActive => simp
  | push => simp [Tree.push]
  | drop => rw [fields_size_drop]
  | refresh => exact Nat.le_refl _

theorem Change.sameNodes (h : region.Change tree after) : tree.SameNodes after := by
  cases h with
  | insert => exact .insertField tree _
  | relink => exact .relink tree _ _
  | setActive => exact .updateField tree _ _
  | push => exact .push tree _ _
  | drop => exact .drop tree _ _ _
  | refresh => exact .refresh tree

/-! ## Steps keep the region closed -/

theorem Offers.of_sameNodes {node : NodeId} (h : region.Offers tree node)
    (hs : tree.SameNodes after) : region.Offers after node :=
  ⟨h.1, hs.topFields ▸ h.2⟩

/-- A field belongs to the node it belonged to, or it is new at a node whose sources the region
offers. -/
theorem Change.owner? (h : region.Change tree after) {x : FieldId} {node : NodeId}
    (hx : after.owner? x = some node) :
    tree.owner? x = some node ∨ region.Offers tree node := by
  cases h with
  | insert _ _ _ _ offers =>
      rw [Tree.owner?, Tree.read_insertField] at hx
      split at hx
      · cases hx
        exact .inr offers
      · exact .inl hx
  | @relink dependent source =>
      rw [Tree.owner?, Tree.read_relink dependent source fun _ _ _ ↦ rfl] at hx
      exact .inl hx
  | @setActive id _ active =>
      rw [Tree.owner?_updateField (Tree.retouches_setActive active).owner] at hx
      exact .inl hx
  | push =>
      rw [Tree.push, Tree.owner?_updateField (Tree.retouches_mapElements _).owner] at hx
      exact .inl hx
  | @drop id field f group =>
      have hl : (tree.drop id f group).Live x :=
        Tree.live_of_read_ne (ne_of_eq_of_ne hx (Option.some_ne_none node))
      rw [Tree.owner?, Tree.drop, (Tree.releaseFields_shrinks _ group).read_eq (fun _ _ ↦ rfl) hl,
        ← Tree.owner?, Tree.owner?_updateField (Tree.retouches_mapElements f).owner] at hx
      exact .inl hx
  | refresh => exact .inl hx

/-- A step feeds fields of the region from fields of the region only. -/
theorem Change.governs (h : region.Change tree after) (hg : region.Governs tree) :
    region.Governs after := by
  refine ⟨h.sound hg.sound, Nat.le_trans hg.base_le h.fields_size_le, hg.fresh,
    hg.visited_within, ?_, ?_, hg.fresh_source, fun x node hx hn ↦ ?_⟩
  · intro x d hx hd
    cases h with
    | @insert field _ listeners =>
        rw [Tree.listeners_eq_read, Tree.read_insertField, listeners] at hd
        split at hd
        · exact absurd hd List.not_mem_nil
        · exact hg.listeners x d hx (by rwa [Tree.listeners_eq_read])
    | @relink dependent source _ new =>
        have hl := (Tree.live_relink dependent source x).1 (Tree.live_of_mem_listeners hd)
        rcases (Tree.mem_listeners_relink hg.sound.ordered.innerOlder hl).1 hd with ⟨hd, _⟩ | ⟨rfl, _⟩
        · exact hg.listeners x d hx hd
        · exact hg.fresh d new
    | @setActive id _ active =>
        rw [Tree.listeners_updateField (Tree.retouches_setActive active).listeners] at hd
        exact hg.listeners x d hx hd
    | push =>
        rw [Tree.push, Tree.listeners_updateField (Tree.retouches_mapElements _).listeners] at hd
        exact hg.listeners x d hx hd
    | @drop id field f group =>
        have hd := ((Tree.releaseFields_shrinks _ group).listeners x).subset hd
        rw [Tree.listeners_updateField (Tree.retouches_mapElements f).listeners] at hd
        exact hg.listeners x d hx hd
    | refresh => exact hg.listeners x d hx hd
  · intro x c hx hc
    cases h with
    | @insert field _ _ container =>
        rw [Tree.container?_eq_read, Tree.read_insertField] at hc
        split at hc
        · exact (container c hc).1
        · exact hg.container x c hx (by rwa [Tree.container?_eq_read])
    | relink =>
        rw [Tree.container?_relink] at hc
        exact hg.container x c hx hc
    | @setActive id _ active =>
        rw [Tree.container?_updateField (Tree.retouches_setActive active).container] at hc
        exact hg.container x c hx hc
    | push =>
        rw [Tree.push, Tree.container?_updateField (Tree.retouches_mapElements _).container] at hc
        exact hg.container x c hx hc
    | @drop id field f group =>
        have hs := Tree.releaseFields_shrinks
          (tree.updateField id fun field ↦ { field with value := field.value.mapElements f }) group
        rw [Tree.drop, hs.container? (Tree.live_of_container?_eq_some hc),
          Tree.container?_updateField (Tree.retouches_mapElements f).container] at hc
        exact hg.container x c hx hc
    | refresh => exact hg.container x c hx hc
  · exact ((h.owner? hn).elim (hg.offers x node hx) fun ho ↦ ho).of_sameNodes h.sameNodes

theorem Leads.governs (h : region.Leads tree after) (hg : region.Governs tree) :
    region.Governs after := by
  induction h with
  | refl => exact hg
  | tail _ hc ih => exact hc.governs ih

theorem Governs.within_of_reach (hg : region.Governs tree) {a x : FieldId} (ha : region.within a)
    (h : ReflTransGen tree.Feeds a x) : region.within x := by
  induction h with
  | refl => exact ha
  | tail _ hxy ih =>
      rcases Tree.feeds_iff.1 hxy with hm | hc
      · exact hg.visited_within _ (hg.listeners _ _ ih hm)
      · exact hg.container _ _ ih hc

/-! ## The frame -/

end Region

/-- The second field is the first one with other elements, activity and listeners. -/
def Field.Becomes (old new : Field) : Prop :=
  ∃ f, new =
    { old with
      value := old.value.mapElements f
      active := new.active
      listeners := new.listeners }

theorem Value.mapElements_id (value : Value) : value.mapElements id = value := by
  cases value <;> rfl

theorem Value.mapElements_mapElements (f g : List (List FieldId) → List (List FieldId))
    (value : Value) : (value.mapElements f).mapElements g = value.mapElements (g ∘ f) := by
  cases value <;> rfl

namespace Field.Becomes

theorem refl (field : Field) : field.Becomes field :=
  ⟨id, by rw [Value.mapElements_id]⟩

theorem trans {old mid new : Field} (h : old.Becomes mid) (h' : mid.Becomes new) :
    old.Becomes new := by
  obtain ⟨f, hf⟩ := h
  obtain ⟨g, hg⟩ := h'
  refine ⟨g ∘ f, ?_⟩
  rw [hg, hf]
  simp only [Value.mapElements_mapElements]

theorem of_listeners {old new : Field} (h : new = { old with listeners := new.listeners }) :
    old.Becomes new := by
  refine ⟨id, ?_⟩
  rw [Value.mapElements_id]
  rw [h]

end Field.Becomes

namespace Region

variable {α : Type} {region : Region} {tree after last : Tree}

/-- What the steps of a cascade leave alone. -/
structure Framed (region : Region) (tree after : Tree) : Prop where
  nodes : tree.SameNodes after
  fields_size : tree.fields.size ≤ after.fields.size
  field : ∀ id new, id.index < region.base → after.field? id = some new →
    ∃ old, tree.field? id = some old ∧ old.Becomes new ∧
      (¬region.visited id → new.value = old.value ∧ new.active = old.active)
  loose : ∀ id, id.index < region.base → tree.Loose id → after.Loose id

namespace Framed

theorem refl (region : Region) (tree : Tree) : region.Framed tree tree where
  nodes := .refl tree
  fields_size := Nat.le_refl _
  field _ new _ h := ⟨new, h, .refl new, fun _ ↦ ⟨rfl, rfl⟩⟩
  loose _ _ h := h

theorem trans (h : region.Framed tree after) (h' : region.Framed after last) :
    region.Framed tree last where
  nodes := h.nodes.trans h'.nodes
  fields_size := Nat.le_trans h.fields_size h'.fields_size
  field id new hid hn := by
    obtain ⟨mid, hm, hnew, hsame⟩ := h'.field id new hid hn
    obtain ⟨old, ho, hmid, hsame'⟩ := h.field id mid hid hm
    refine ⟨old, ho, hmid.trans hnew, fun hv ↦ ⟨?_, ?_⟩⟩
    · exact (hsame hv).1.trans (hsame' hv).1
    · exact (hsame hv).2.trans (hsame' hv).2
  loose id hid hl := h'.loose id hid (h.loose id hid hl)

theorem live (h : region.Framed tree after) {id : FieldId} (hid : id.index < region.base)
    (hl : after.Live id) : tree.Live id := by
  obtain ⟨new, hn⟩ := Tree.live_iff.1 hl
  obtain ⟨old, ho, _⟩ := h.field id new hid hn
  exact Tree.live_of_some ho

theorem read (h : region.Framed tree after) {part : Field → α}
    (hpart : ∀ field f active list, part
      { field with value := field.value.mapElements f, active := active, listeners := list } =
        part field) {id : FieldId} (hid : id.index < region.base) (hl : after.Live id)
    (default : α) : after.read part default id = tree.read part default id := by
  obtain ⟨new, hn⟩ := Tree.live_iff.1 hl
  obtain ⟨old, ho, ⟨f, hf⟩, _⟩ := h.field id new hid hn
  rw [Tree.read_of_some hn, Tree.read_of_some ho, hf, hpart]

theorem link? (h : region.Framed tree after) {id : FieldId} (hid : id.index < region.base)
    (hl : after.Live id) : after.link? id = tree.link? id :=
  h.read (fun _ _ _ _ ↦ rfl) hid hl none

theorem inner? (h : region.Framed tree after) {id : FieldId} (hid : id.index < region.base)
    (hl : after.Live id) : after.inner? id = tree.inner? id := by
  rw [Tree.inner?_eq_read, Tree.inner?_eq_read]
  refine h.read (fun field _ _ _ ↦ ?_) hid hl none
  cases field.value <;> rfl

/-- What a field older than the base wraps is as old, so it wrapped the same before. -/
theorem wraps (h : region.Framed tree after) (ho : after.Ordered) {p x : FieldId}
    (hp : p.index < region.base) (hw : ReflTransGen after.Wraps p x) :
    ReflTransGen tree.Wraps p x := by
  induction hw with
  | refl => exact .refl
  | @tail a b ha hab ih =>
      have hold := Nat.lt_of_le_of_lt (ho.le_of_wraps ha) hp
      exact ih.tail ((h.inner? hold (Tree.live_of_inner?_eq_some hab)).symm.trans hab)

/-! ### Steps -/

theorem of_updateField {id : FieldId} {f : Field → Field} (hid : region.visited id)
    (hf : ∀ field : Field, field.Becomes (f field))
    (hloose : ∀ x, x.index < region.base → tree.Loose x → (tree.updateField id f).Loose x) :
    region.Framed tree (tree.updateField id f) where
  nodes := .updateField tree id f
  fields_size := by simp
  field x new _ hn := by
    rw [Tree.field?_updateField] at hn
    split at hn
    · next hx =>
        obtain ⟨old, ho, rfl⟩ := Option.map_eq_some_iff.1 hn
        exact ⟨old, ho, hf old, fun hv ↦ absurd (hx ▸ hid) hv⟩
    · exact ⟨new, hn, .refl new, fun _ ↦ ⟨rfl, rfl⟩⟩
  loose := hloose

end Framed

theorem becomes_mapElements (f : List (List FieldId) → List (List FieldId)) (field : Field) :
    field.Becomes { field with value := field.value.mapElements f } :=
  ⟨f, rfl⟩

theorem becomes_setActive (active : Bool) (field : Field) :
    field.Becomes { field with active } :=
  ⟨id, by rw [Value.mapElements_id]⟩

theorem framed_insertField {field : Field} (hbase : region.base ≤ tree.fields.size)
    (hparts : ∀ c ∈ field.value.parts, region.base ≤ c.index) :
    region.Framed tree (tree.insertField field) where
  nodes := .insertField tree field
  fields_size := by simp
  field id new hid hn := by
    have hlt : id.index < tree.fields.size := Nat.lt_of_lt_of_le hid hbase
    rw [tree.field?_insertField_of_ne field (Tree.ne_nextField_of_lt_size hlt)] at hn
    exact ⟨new, hn, .refl new, fun _ ↦ ⟨rfl, rfl⟩⟩
  loose id hid hl := hl.insertField fun hmem ↦ absurd hid (Nat.not_lt_of_le (hparts id hmem))

theorem framed_relink {dependent : FieldId} (source : Option Source) (hl : tree.Live dependent)
    (hnew : region.base ≤ dependent.index) :
    region.Framed tree (tree.relink dependent source) where
  nodes := .relink tree dependent source
  fields_size := by simp
  field id new hid hn := by
    have hne : id ≠ dependent := by
      rintro rfl
      exact absurd hid (Nat.not_lt_of_le hnew)
    obtain ⟨old, ho⟩ := Tree.live_iff.1
      ((Tree.live_relink dependent source id).1 (Tree.live_of_some hn))
    have hbare : (tree.relink dependent source).read
        (fun field ↦ { field with listeners := [], link := none }) new id = tree.read _ new id :=
      congrFun (Tree.read_relink dependent source (fun _ _ _ ↦ rfl) new) id
    have hlink := Tree.link?_relink source hl id
    rw [if_neg hne, Tree.link?, Tree.link?, Tree.read_of_some hn, Tree.read_of_some ho] at hlink
    rw [Tree.read_of_some hn, Tree.read_of_some ho] at hbare
    have heq : new = { old with listeners := new.listeners } := by
      cases new
      cases old
      simp_all
    exact ⟨old, ho, .of_listeners heq, fun _ ↦ by rw [heq]; exact ⟨rfl, rfl⟩⟩
  loose id _ hid := hid.relink dependent source

theorem Change.framed (h : region.Change tree after) (hg : region.Governs tree) :
    region.Framed tree after := by
  cases h with
  | insert _ _ _ _ _ _ loose => exact framed_insertField hg.base_le fun c hc ↦ (loose c hc).2
  | relink live new => exact framed_relink _ live new
  | @setActive id visited active =>
      exact .of_updateField visited (becomes_setActive active) fun x _ hx ↦ hx.setActive id active
  | @push id group visited _ loose =>
      refine .of_updateField visited (becomes_mapElements _) fun x hx hl ↦ ?_
      exact hl.push fun hmem ↦ absurd hx (Nat.not_lt_of_le (loose x hmem).2)
  | @drop id field f group visited live splits =>
      refine ⟨.drop tree id f group, (fields_size_drop tree id f group).ge, ?_, ?_⟩
      · intro x new hx hn
        obtain ⟨mid, hm, hnew, _⟩ := (Tree.releaseFields_shrinks _ group).field x new hn
        rw [Tree.field?_updateField] at hm
        split at hm
        · next hid =>
            obtain ⟨old, ho, rfl⟩ := Option.map_eq_some_iff.1 hm
            exact ⟨old, ho, (becomes_mapElements f old).trans (.of_listeners hnew),
              fun hv ↦ absurd (hid ▸ visited) hv⟩
        · exact ⟨mid, hm, .of_listeners hnew, fun _ ↦ by rw [hnew]; exact ⟨rfl, rfl⟩⟩
      · exact fun x _ hx ↦ hx.drop live splits
  | refresh =>
      refine ⟨.refresh tree, Nat.le_refl _, ?_, ?_⟩
      · exact fun _ new _ hn ↦ ⟨new, hn, .refl new, fun _ ↦ ⟨rfl, rfl⟩⟩
      · exact fun _ _ hx ↦ hx.congr (fun _ ↦ Iff.rfl) rfl rfl

theorem Leads.framed (h : region.Leads tree after) (hg : region.Governs tree) :
    region.Framed tree after := by
  induction h with
  | refl => exact .refl region tree
  | tail hl hc ih => exact ih.trans (hc.framed (Leads.governs hl hg))

/-! ## Raising the base -/

/-- The same fields to visit, but fewer of them new. -/
def raise (region : Region) (base : Nat) : Region := { region with base }

theorem Governs.raise (hg : region.Governs tree) :
    (region.raise tree.fields.size).Governs tree where
  sound := hg.sound
  base_le := Nat.le_refl _
  fresh x hx := hg.fresh x (Nat.le_trans hg.base_le hx)
  visited_within := hg.visited_within
  listeners := hg.listeners
  container := hg.container
  fresh_source x hx := hg.fresh_source x (Nat.le_trans hg.base_le hx)
  offers := hg.offers

theorem Change.of_raise {base : Nat} (hbase : region.base ≤ base)
    (h : (region.raise base).Change tree after) : region.Change tree after := by
  cases h with
  | insert link listeners container owner offers nodup loose =>
      exact .insert link listeners container owner offers nodup fun c hc ↦
        ⟨(loose c hc).1, Nat.le_trans hbase (loose c hc).2⟩
  | relink live new sources admits =>
      exact .relink live (Nat.le_trans hbase new) sources admits
  | @setActive id visited active => exact .setActive (show region.visited id from visited) active
  | push visited nodup loose =>
      exact .push visited nodup fun c hc ↦ ⟨(loose c hc).1, Nat.le_trans hbase (loose c hc).2⟩
  | drop visited live splits => exact .drop visited live splits
  | refresh => exact .refresh

theorem Leads.of_raise {base : Nat} (hbase : region.base ≤ base)
    (h : (region.raise base).Leads tree after) : region.Leads tree after :=
  ReflTransGen.mono (fun _ _ ↦ Change.of_raise hbase) _ _ h

end Region

end LightTree
