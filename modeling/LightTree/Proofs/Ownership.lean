import LightTree.Proofs.Release

/-!
# Ownership of fields

A field is owned at most once: as a part of the value of one field or at the top of one node. A
live field that has no owner yet is loose. Values take over loose fields only, and what is released
is loose at that time, so parts and top fields of what is alive are alive.
-/

namespace LightTree

open Relation

namespace Tree

/-- Parts and top fields are alive, and none of them has two owners. -/
structure Owned (tree : Tree) : Prop where
  parts_live : ∀ id part, part ∈ tree.parts id → tree.Live part
  parts_nodup : ∀ id, (tree.parts id).Nodup
  parts_apart : ∀ a b part, part ∈ tree.parts a → part ∈ tree.parts b → a = b
  tops_live : ∀ node id, id ∈ tree.topFields node → tree.Live id
  tops_nodup : ∀ node, (tree.topFields node).Nodup
  tops_apart : ∀ a b id, id ∈ tree.topFields a → id ∈ tree.topFields b → a = b
  tops_free : ∀ node id owner, id ∈ tree.topFields node → id ∉ tree.parts owner

/-- A live field without an owner. -/
structure Loose (tree : Tree) (id : FieldId) : Prop where
  live : tree.Live id
  not_part : ∀ owner, id ∉ tree.parts owner
  not_top : ∀ node, id ∉ tree.topFields node

variable {tree after : Tree}

theorem Owned.inner?_live (h : tree.Owned) {a b : FieldId} (hab : tree.Wraps a b) : tree.Live b :=
  h.parts_live a b (mem_parts_of_inner? hab)

theorem Owned.wraps_live (h : tree.Owned) {a b : FieldId} (hab : ReflTransGen tree.Wraps a b)
    (ha : tree.Live a) : tree.Live b := by
  rcases hab.cases_tail with rfl | ⟨c, _, hcb⟩
  · exact ha
  · exact h.inner?_live hcb

/-! ## Changes that leave ownership alone -/

theorem Owned.congr (h : tree.Owned) (hlive : ∀ id, after.Live id ↔ tree.Live id)
    (hparts : after.parts = tree.parts) (htops : after.topFields = tree.topFields) :
    after.Owned where
  parts_live id part := by
    rw [hparts, hlive]
    exact h.parts_live id part
  parts_nodup := hparts ▸ h.parts_nodup
  parts_apart := hparts ▸ h.parts_apart
  tops_live node id := by
    rw [htops, hlive]
    exact h.tops_live node id
  tops_nodup := htops ▸ h.tops_nodup
  tops_apart := htops ▸ h.tops_apart
  tops_free := by
    rw [hparts, htops]
    exact h.tops_free

theorem Loose.congr {id : FieldId} (h : tree.Loose id)
    (hlive : ∀ id, after.Live id ↔ tree.Live id)
    (hparts : after.parts = tree.parts) (htops : after.topFields = tree.topFields) :
    after.Loose id where
  live := (hlive id).2 h.live
  not_part := hparts ▸ h.not_part
  not_top := htops ▸ h.not_top

/-! ## Taking over and letting go of parts -/

section

variable {id : FieldId} {f : Field → Field}

theorem parts_updateField_of_ne {p : FieldId} (hp : p ≠ id) :
    (tree.updateField id f).parts p = tree.parts p :=
  read_updateField_of_ne (Ne.symm hp) []

/-- The new parts of a field come from its old ones and from loose fields. -/
theorem Owned.updateField (h : tree.Owned) (hn : ((tree.updateField id f).parts id).Nodup)
    (hc : ∀ c ∈ (tree.updateField id f).parts id, c ∈ tree.parts id ∨ tree.Loose c) :
    (tree.updateField id f).Owned := by
  have hold : ∀ p c, c ∈ (tree.updateField id f).parts p → c ∈ tree.parts p ∨ tree.Loose c := by
    intro p c hcp
    by_cases hp : p = id
    · exact hp ▸ hc c (hp ▸ hcp)
    · exact .inl (by rwa [parts_updateField_of_ne hp] at hcp)
  have hother : ∀ p c, p ≠ id → c ∈ (tree.updateField id f).parts p → c ∈ tree.parts p := by
    intro p c hp hcp
    rwa [parts_updateField_of_ne hp] at hcp
  refine ⟨?_, ?_, ?_, ?_, h.tops_nodup, h.tops_apart, ?_⟩
  · intro p c hcp
    rw [live_updateField]
    rcases hold p c hcp with hcp | hcl
    · exact h.parts_live p c hcp
    · exact hcl.live
  · intro p
    by_cases hp : p = id
    · exact hp ▸ hn
    · rw [parts_updateField_of_ne hp]
      exact h.parts_nodup p
  · intro a b c hca hcb
    rcases hold a c hca with hca' | hcl
    · rcases hold b c hcb with hcb' | hcl
      · exact h.parts_apart a b c hca' hcb'
      · exact absurd hca' (hcl.not_part a)
    · by_cases ha : a = id
      · by_cases hb : b = id
        · rw [ha, hb]
        · exact absurd (hother b c hb hcb) (hcl.not_part b)
      · exact absurd (hother a c ha hca) (hcl.not_part a)
  · intro node c hcn
    rw [live_updateField]
    exact h.tops_live node c hcn
  · intro node c p hcn hcp
    rcases hold p c hcp with hcp | hcl
    · exact h.tops_free node c p hcn hcp
    · exact hcl.not_top node hcn

theorem Loose.updateField {x : FieldId} (h : tree.Loose x)
    (hx : x ∉ (tree.updateField id f).parts id) : (tree.updateField id f).Loose x where
  live := (live_updateField tree id f x).2 h.live
  not_part p hp := by
    by_cases hpid : p = id
    · exact hx (hpid ▸ hp)
    · rw [parts_updateField_of_ne hpid] at hp
      exact h.not_part p hp
  not_top := h.not_top

theorem Owned.loose_of_dropped (h : tree.Owned) {x : FieldId} (hx : x ∈ tree.parts id)
    (hnx : x ∉ (tree.updateField id f).parts id) : (tree.updateField id f).Loose x where
  live := (live_updateField tree id f x).2 (h.parts_live id x hx)
  not_part p hp := by
    by_cases hpid : p = id
    · exact hnx (hpid ▸ hp)
    · rw [parts_updateField_of_ne hpid] at hp
      exact hpid (h.parts_apart p id x hp hx)
  not_top node hn := h.tops_free node x id hn hx

end

/-! ## Adding a field -/

section

variable {field : Field}

theorem parts_insertField (tree : Tree) (field : Field) (p : FieldId) :
    (tree.insertField field).parts p =
      if p = tree.nextField then field.value.parts else tree.parts p :=
  read_insertField tree field _ [] p

theorem mem_parts_insertField {p c : FieldId} (hc : c ∈ (tree.insertField field).parts p) :
    c ∈ tree.parts p ∨ p = tree.nextField ∧ c ∈ field.value.parts := by
  rw [parts_insertField] at hc
  split at hc
  · next hp => exact .inr ⟨hp, hc⟩
  · exact .inl hc

/-- A new field may take over loose fields. -/
theorem Owned.insertField (h : tree.Owned) (hn : field.value.parts.Nodup)
    (hc : ∀ c ∈ field.value.parts, tree.Loose c) : (tree.insertField field).Owned := by
  refine ⟨?_, ?_, ?_, ?_, h.tops_nodup, h.tops_apart, ?_⟩
  · intro p c hcp
    rw [live_insertField]
    rcases mem_parts_insertField hcp with hcp | ⟨_, hcp⟩
    · exact .inr (h.parts_live p c hcp)
    · exact .inr (hc c hcp).live
  · intro p
    rw [parts_insertField]
    split
    · exact hn
    · exact h.parts_nodup p
  · intro a b c hca hcb
    rcases mem_parts_insertField hca with hca | ⟨ha, hca⟩
    · rcases mem_parts_insertField hcb with hcb | ⟨_, hcb⟩
      · exact h.parts_apart a b c hca hcb
      · exact absurd hca ((hc c hcb).not_part a)
    · rcases mem_parts_insertField hcb with hcb | ⟨hb, _⟩
      · exact absurd hcb ((hc c hca).not_part b)
      · rw [ha, hb]
  · intro node c hcn
    exact (live_insertField tree field c).2 (.inr (h.tops_live node c hcn))
  · intro node c p hcn hcp
    rcases mem_parts_insertField hcp with hcp | ⟨_, hcp⟩
    · exact h.tops_free node c p hcn hcp
    · exact (hc c hcp).not_top node hcn

theorem Loose.insertField {x : FieldId} (h : tree.Loose x) (hx : x ∉ field.value.parts) :
    (tree.insertField field).Loose x where
  live := (live_insertField tree field x).2 (.inr h.live)
  not_part p hp := by
    rcases mem_parts_insertField hp with hp | ⟨_, hp⟩
    · exact h.not_part p hp
    · exact hx hp
  not_top := h.not_top

theorem Owned.loose_nextField (h : tree.Owned) (hc : ∀ c ∈ field.value.parts, tree.Loose c) :
    (tree.insertField field).Loose tree.nextField where
  live := (live_insertField tree field _).2 (.inl rfl)
  not_part p hp := by
    rcases mem_parts_insertField hp with hp | ⟨_, hp⟩
    · exact tree.not_live_nextField (h.parts_live p _ hp)
    · exact tree.not_live_nextField (hc _ hp).live
  not_top node hn := tree.not_live_nextField (h.tops_live node _ hn)

end

/-! ## Releasing fields -/

/-- Nothing but a loose field itself holds it. -/
theorem Loose.eq_of_holds {x y : FieldId} (h : tree.Loose y) (hxy : tree.Holds x y) : y = x := by
  rcases hxy.cases_tail with heq | ⟨b, _, hb⟩
  · exact heq
  · exact absurd hb (h.not_part b)

/-- What a loose field holds has its owner within the loose field. -/
theorem Owned.holds_owner (h : tree.Owned) {x c p : FieldId} (hx : tree.Loose x)
    (hc : tree.Holds x c) (hp : c ∈ tree.parts p) : tree.Holds x p := by
  rcases hc.cases_tail with rfl | ⟨b, hb, hcb⟩
  · exact absurd hp (hx.not_part p)
  · rwa [h.parts_apart p b c hp hcb]

theorem Owned.not_holds_top (h : tree.Owned) {x c : FieldId} {node : NodeId} (hx : tree.Loose x)
    (hc : c ∈ tree.topFields node) : ¬tree.Holds x c := by
  intro hh
  rcases hh.cases_tail with rfl | ⟨b, _, hcb⟩
  · exact hx.not_top node hc
  · exact h.tops_free node c b hc hcb

/-- Fewer fields and nodes keep ownership if parts and top fields do not go alone. -/
theorem Shrinks.owned (h : tree.Shrinks after) (ho : tree.Owned)
    (hparts : ∀ p c, after.Live p → c ∈ tree.parts p → after.Live c)
    (htops : ∀ node c, c ∈ after.topFields node → after.Live c) : after.Owned where
  parts_live p c hc := hparts p c (live_of_mem_parts hc) (h.mem_parts hc)
  parts_nodup p := by
    by_cases hl : after.Live p
    · rw [h.parts hl]
      exact ho.parts_nodup p
    · rw [Tree.parts, read_of_none (not_live_iff.1 hl)]
      exact List.nodup_nil
  parts_apart a b c ha hb := ho.parts_apart a b c (h.mem_parts ha) (h.mem_parts hb)
  tops_live := htops
  tops_nodup node := by
    by_cases hl : after.LiveNode node
    · rw [topFields_eq_readNode, h.readNode_eq (fun _ _ ↦ rfl) hl, ← topFields_eq_readNode]
      exact ho.tops_nodup node
    · rw [topFields_eq_readNode, readNode_of_none (not_liveNode_iff.1 hl)]
      exact List.nodup_nil
  tops_apart a b c ha hb := ho.tops_apart a b c (h.mem_topFields ha) (h.mem_topFields hb)
  tops_free node c p hn hp := ho.tops_free node c p (h.mem_topFields hn) (h.mem_parts hp)

theorem Shrinks.loose (h : tree.Shrinks after) {x : FieldId} (hx : tree.Loose x)
    (hl : after.Live x) : after.Loose x where
  live := hl
  not_part p hp := hx.not_part p (h.mem_parts hp)
  not_top node hn := hx.not_top node (h.mem_topFields hn)

theorem Owned.releaseField (h : tree.Owned) {x : FieldId} (hx : tree.Loose x) :
    (tree.releaseField x).Owned := by
  have hs := releaseField_shrinks tree x
  apply hs.owned h
  · intro p c hp hc
    rw [live_releaseField_iff] at hp ⊢
    exact ⟨h.parts_live p c hc, fun hh ↦ hp.2 (h.holds_owner hx hh hc)⟩
  · intro node c hc
    have hc' := hs.mem_topFields hc
    exact live_releaseField_iff.2 ⟨h.tops_live node c hc', h.not_holds_top hx hc'⟩

theorem Loose.releaseField {x y : FieldId} (hy : tree.Loose y) (hne : y ≠ x) :
    (tree.releaseField x).Loose y :=
  (releaseField_shrinks tree x).loose hy
    (live_releaseField_iff.2 ⟨hy.live, fun hh ↦ hne (hy.eq_of_holds hh)⟩)

theorem releaseFields_shrinks (tree : Tree) (ids : List FieldId) :
    tree.Shrinks (tree.releaseFields ids) :=
  .foldl releaseField_shrinks ids tree

/-- A path to what stays is there afterwards as before. -/
theorem holds_releaseField {x y z : FieldId} (hx : ¬tree.Holds y x) :
    (tree.releaseField y).Holds z x ↔ tree.Holds z x := by
  have hs := releaseField_shrinks tree y
  constructor
  · exact fun h ↦ ReflTransGen.mono (fun _ _ ↦ hs.mem_parts) _ _ h
  · intro h
    induction h using ReflTransGen.head_induction_on with
    | refl => exact .refl
    | @head a b hab hbx ih =>
        have hl : (tree.releaseField y).Live a := live_releaseField_iff.2
          ⟨live_of_mem_parts hab, fun ha ↦ hx (ha.trans (hbx.head hab))⟩
        exact ih.head (by rwa [hs.parts hl])

/-- Exactly what the fields hold goes with them. -/
theorem live_releaseFields_iff {ids : List FieldId} {x : FieldId} :
    (tree.releaseFields ids).Live x ↔ tree.Live x ∧ ∀ y ∈ ids, ¬tree.Holds y x := by
  induction ids generalizing tree with
  | nil => simp [Tree.releaseFields]
  | cons y ids ih =>
      have hcons : tree.releaseFields (y :: ids) = (tree.releaseField y).releaseFields ids := rfl
      rw [hcons, ih, live_releaseField_iff, List.forall_mem_cons, and_assoc]
      refine and_congr_right fun _ ↦ and_congr_right fun hx ↦ ?_
      simp only [holds_releaseField hx]

theorem Mirrored.releaseFields (ho : tree.Ordered) (h : tree.Mirrored) (ids : List FieldId) :
    (tree.releaseFields ids).Mirrored := by
  induction ids generalizing tree with
  | nil => exact h
  | cons id ids ih => exact ih ((releaseField_shrinks tree id).ordered ho) (h.releaseField ho id)

theorem Owned.releaseFields (h : tree.Owned) {ids : List FieldId} (hn : ids.Nodup)
    (hids : ∀ id ∈ ids, tree.Loose id) : (tree.releaseFields ids).Owned := by
  induction ids generalizing tree with
  | nil => exact h
  | cons id ids ih =>
      obtain ⟨hid, hn⟩ := List.nodup_cons.1 hn
      refine ih (h.releaseField (hids id (by simp))) hn fun x hx ↦ ?_
      exact (hids x (by simp [hx])).releaseField fun he ↦ hid (he ▸ hx)

theorem Loose.releaseFields {x : FieldId} (hx : tree.Loose x) {ids : List FieldId}
    (hids : x ∉ ids) : (tree.releaseFields ids).Loose x := by
  induction ids generalizing tree with
  | nil => exact hx
  | cons id ids ih =>
      rw [List.mem_cons, not_or] at hids
      exact ih (hx.releaseField hids.1) hids.2

/-! ## Nodes -/

theorem topFields_insertNode (tree : Tree) (node : Node) (n : NodeId) :
    (tree.insertNode node).topFields n =
      if n = tree.nextNode then node.fields else tree.topFields n := by
  rw [topFields_eq_readNode, topFields_eq_readNode, readNode_insertNode]

theorem topFields_insertNode_of_nil {node : Node} (hnode : node.fields = []) :
    (tree.insertNode node).topFields = tree.topFields := by
  funext n
  rw [topFields_insertNode, hnode]
  split
  · next hn =>
      rw [topFields_eq_readNode, hn,
        readNode_of_none (not_liveNode_iff.1 tree.not_liveNode_nextNode)]
  · rfl

theorem topFields_removeNode (tree : Tree) (i n : NodeId) :
    (tree.removeNode i).topFields n = if n = i then [] else tree.topFields n := by
  rw [topFields_eq_readNode, topFields_eq_readNode, readNode_removeNode]

/-- The top fields of a node that goes are loose afterwards. -/
theorem Owned.loose_removeNode (h : tree.Owned) {node : NodeId} {id : FieldId}
    (hid : id ∈ tree.topFields node) : (tree.removeNode node).Loose id where
  live := h.tops_live node id hid
  not_part p hp := h.tops_free node id p hid hp
  not_top n hn := by
    rw [topFields_removeNode] at hn
    split at hn
    · exact absurd hn List.not_mem_nil
    · next hne => exact hne (h.tops_apart n node id hn hid)

theorem Owned.removeNode (h : tree.Owned) (node : NodeId) : (tree.removeNode node).Owned :=
  (Shrinks.removeNode tree node).owned h (fun p c _ hc ↦ h.parts_live p c hc) fun n c hc ↦
    h.tops_live n c ((Shrinks.removeNode tree node).mem_topFields hc)

/-- Hands a field to a node, after the fields that are at its top already. -/
def addTop (tree : Tree) (node : NodeId) (id : FieldId) : Tree :=
  tree.updateNode node fun n ↦ { n with fields := n.fields ++ [id] }

theorem topFields_addTop (tree : Tree) {node : NodeId} (hnode : tree.LiveNode node) (id : FieldId)
    (n : NodeId) : (tree.addTop node id).topFields n =
      if n = node then tree.topFields n ++ [id] else tree.topFields n := by
  obtain ⟨old, ho⟩ := liveNode_iff.1 hnode
  unfold addTop topFields
  rw [node?_updateNode]
  by_cases hn : node = n
  · subst hn
    simp [ho]
  · simp [hn, Ne.symm hn]

theorem mem_topFields_addTop {node n : NodeId} (hnode : tree.LiveNode node) {id c : FieldId}
    (hc : c ∈ (tree.addTop node id).topFields n) :
    c ∈ tree.topFields n ∨ n = node ∧ c = id := by
  rw [topFields_addTop tree hnode] at hc
  split at hc
  · next hn =>
      rcases List.mem_append.1 hc with hc | hc
      · exact .inl hc
      · exact .inr ⟨hn, List.mem_singleton.1 hc⟩
  · exact .inl hc

theorem Owned.addTop (h : tree.Owned) {node : NodeId} (hnode : tree.LiveNode node) {id : FieldId}
    (hid : tree.Loose id) : (tree.addTop node id).Owned := by
  refine ⟨h.parts_live, h.parts_nodup, h.parts_apart, ?_, ?_, ?_, ?_⟩
  · intro n c hc
    rcases mem_topFields_addTop hnode hc with hc | ⟨_, hc⟩
    · exact h.tops_live n c hc
    · exact hc ▸ hid.live
  · intro n
    rw [topFields_addTop tree hnode]
    split
    · refine List.nodup_append.2 ⟨h.tops_nodup n, List.nodup_singleton _, fun a ha b hb hab ↦ ?_⟩
      rw [hab, List.mem_singleton.1 hb] at ha
      exact hid.not_top n ha
    · exact h.tops_nodup n
  · intro a b c ha hb
    rcases mem_topFields_addTop hnode ha with ha | ⟨ha, hca⟩
    · rcases mem_topFields_addTop hnode hb with hb | ⟨_, hcb⟩
      · exact h.tops_apart a b c ha hb
      · exact absurd (hcb ▸ ha) (hid.not_top a)
    · rcases mem_topFields_addTop hnode hb with hb | ⟨hb, _⟩
      · exact absurd (hca ▸ hb) (hid.not_top b)
      · rw [ha, hb]
  · intro n c p hc hp
    rcases mem_topFields_addTop hnode hc with hc | ⟨_, hc⟩
    · exact h.tops_free n c p hc hp
    · exact hid.not_part p (hc ▸ hp)

end Tree

end LightTree
