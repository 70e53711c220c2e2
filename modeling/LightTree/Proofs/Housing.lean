import LightTree.Proofs.Abiding
import LightTree.Proofs.Reachable

/-!
# Where fields are kept

The home of a field is its node and the list around it, as the field itself has them. A tree is
homed if what a field or a node owns has the home that its owner gives: a list is the container of
its elements, and a gated field shares its own container with the field inside. Taking something
away leaves nothing loose.
-/

namespace LightTree

open Relation

/-- Where the parts of a field are kept. -/
def Field.shelter (id : FieldId) (field : Field) : NodeId × Option FieldId :=
  (field.owner, if field.value.elements?.isSome then some id else field.container)

theorem Field.shelter_outline (id : FieldId) (field : Field) :
    field.outline.shelter id = field.shelter id := by
  cases hv : field.value <;>
    simp [Field.shelter, Field.outline, Value.frame, Value.elements?, hv]

namespace Tree

def home? (tree : Tree) : FieldId → Option (NodeId × Option FieldId) :=
  tree.read (fun field ↦ some (field.owner, field.container)) none

def shelter? (tree : Tree) (id : FieldId) : Option (NodeId × Option FieldId) :=
  tree.read (fun field ↦ some (field.shelter id)) none id

/-- What is owned is kept where its owner is. -/
structure Homed (tree : Tree) : Prop where
  part : ∀ owner x, x ∈ tree.parts owner → tree.home? x = tree.shelter? owner
  top : ∀ node x, x ∈ tree.topFields node → tree.home? x = some (node, none)

variable {tree mid after last : Tree} {id x : FieldId}

theorem live_of_home?_eq_some {home : NodeId × Option FieldId} (h : tree.home? x = some home) :
    tree.Live x :=
  live_of_read_ne (ne_of_eq_of_ne h (Option.some_ne_none home))

theorem live_of_shelter?_eq_some {home : NodeId × Option FieldId}
    (h : tree.shelter? x = some home) : tree.Live x :=
  live_of_read_ne (ne_of_eq_of_ne h (Option.some_ne_none home))

theorem container?_of_home? {home : NodeId × Option FieldId}
    (h : tree.home? x = some home) : tree.container? x = home.2 := by
  obtain ⟨field, hf⟩ := live_iff.1 (live_of_home?_eq_some h)
  rw [home?, read_of_some hf] at h
  cases h
  rw [container?_eq_read, read_of_some hf]

theorem Abides.home? (h : tree.Abides after) (hx : tree.Live x) (hl : after.Live x) :
    after.home? x = tree.home? x :=
  h.read (fun _ ↦ rfl) hx.lt_size hl none

theorem Abides.shelter? (h : tree.Abides after) (hx : tree.Live x) (hl : after.Live x) :
    after.shelter? x = tree.shelter? x :=
  h.read (fun field ↦ by rw [Field.shelter_outline]) hx.lt_size hl none

/-! ## Homes in a changed tree -/

/-- What is owned as before is homed as before. -/
theorem Homed.mono (h : tree.Homed) (hab : tree.Abides after) (ht : tree.Owned) (ha : after.Owned)
    (hparts : ∀ p x, x ∈ after.parts p → x ∈ tree.parts p ∨ after.home? x = after.shelter? p)
    (htops : ∀ node x, x ∈ after.topFields node →
      x ∈ tree.topFields node ∨ after.home? x = some (node, none)) : after.Homed where
  part p x hx := by
    rcases hparts p x hx with hold | hnew
    · rw [hab.home? (ht.parts_live p x hold) (ha.parts_live p x hx),
        hab.shelter? (live_of_mem_parts hold) (live_of_mem_parts hx)]
      exact h.part p x hold
    · exact hnew
  top node x hx := by
    rcases htops node x hx with hold | hnew
    · rw [hab.home? (ht.tops_live node x hold) (ha.tops_live node x hx)]
      exact h.top node x hold
    · exact hnew

theorem Homed.of_shrinks (h : tree.Homed) (ht : tree.Owned) (ha : after.Owned)
    (hs : tree.Shrinks after) : after.Homed :=
  h.mono (.of_shrinks hs) ht ha (fun _ _ hx ↦ .inl (hs.mem_parts hx))
    fun _ _ hx ↦ .inl (hs.mem_topFields hx)

/-- A change of nodes that leaves their fields alone. -/
theorem Homed.of_nodes (h : tree.Homed) (hfields : after.field? = tree.field?)
    (htops : after.topFields = tree.topFields) : after.Homed := by
  have hread : ∀ {α : Type} (part : Field → α) (default : α),
      after.read part default = tree.read part default := by
    intro α part default
    unfold read
    rw [hfields]
  refine ⟨fun p x hx ↦ ?_, fun node x hx ↦ ?_⟩
  · rw [parts, hread] at hx
    rw [home?, shelter?, hread, hread]
    exact h.part p x hx
  · rw [home?, hread]
    exact h.top node x (htops ▸ hx)

theorem Homed.relink (h : tree.Homed) (dependent : FieldId) (source : Option Source) :
    (tree.relink dependent source).Homed := by
  refine ⟨fun p x hx ↦ ?_, fun node x hx ↦ ?_⟩
  · rw [parts, read_relink dependent source fun _ _ _ ↦ rfl] at hx
    rw [home?, shelter?, read_relink dependent source fun _ _ _ ↦ rfl,
      read_relink dependent source fun _ _ _ ↦ rfl]
    exact h.part p x hx
  · rw [topFields_eq_readNode, readNode_relink dependent source fun _ _ ↦ rfl,
      ← topFields_eq_readNode] at hx
    rw [home?, read_relink dependent source fun _ _ _ ↦ rfl]
    exact h.top node x hx

theorem home?_insertField (tree : Tree) (field : Field) :
    (tree.insertField field).home? tree.nextField = some (field.owner, field.container) := by
  rw [home?, read_insertField, if_pos rfl]

/-- A new field may take over what is kept where the new field is. -/
theorem Homed.insertField (h : tree.Homed) (ht : tree.Owned) {field : Field}
    (ha : (tree.insertField field).Owned)
    (hparts : ∀ c ∈ field.value.parts, tree.home? c = some (field.shelter tree.nextField)) :
    (tree.insertField field).Homed := by
  refine h.mono (.insertField tree field) ht ha (fun p x hx ↦ ?_) fun _ _ hx ↦ .inl hx
  refine (mem_parts_insertField hx).imp_right ?_
  rintro ⟨rfl, hc⟩
  have hlive := live_of_home?_eq_some (hparts x hc)
  rw [home?, read_insertField, if_neg hlive.ne_nextField, shelter?, read_insertField, if_pos rfl]
  exact hparts x hc

/-- A list may take over what is kept in it. -/
theorem Homed.push (h : tree.Homed) (ht : tree.Owned) {group : List FieldId}
    (ha : (tree.push id group).Owned)
    (hgroup : ∀ x ∈ group, tree.home? x = tree.shelter? id) : (tree.push id group).Homed := by
  have hab : tree.Abides (tree.push id group) := .mapElements tree id (· ++ [group])
  refine h.mono hab ht ha (fun p x hx ↦ ?_) fun _ _ hx ↦ .inl hx
  have hp : tree.Live p := (live_updateField tree id _ p).1 (live_of_mem_parts hx)
  by_cases hpid : p = id
  · subst hpid
    obtain ⟨more, hsub, hparts⟩ := parts_push tree p group
    rw [hparts, List.mem_append] at hx
    refine hx.imp_right fun hm ↦ ?_
    have hhome := hgroup x (hsub.subset hm)
    obtain ⟨field, hf⟩ := live_iff.1 hp
    have hlive : tree.Live x := by
      rw [shelter?, read_of_some hf] at hhome
      exact live_of_home?_eq_some hhome
    rw [hab.home? hlive ((live_updateField tree p _ x).2 hlive),
      hab.shelter? hp ((live_updateField tree p _ p).2 hp)]
    exact hhome
  · rw [Tree.push, parts_updateField_of_ne hpid] at hx
    exact .inl hx

theorem Homed.drop (h : tree.Homed) (ht : tree.Sound) {field : Field}
    (hf : tree.field? id = some field) {f : List (List FieldId) → List (List FieldId)}
    {group : List FieldId} (hsplit : Splits f group field.value) :
    (tree.drop id f group).Homed := by
  have hs := releaseFields_shrinks
    (tree.updateField id fun field ↦ { field with value := field.value.mapElements f }) group
  refine h.mono (.drop tree id f group) ht.owned (ht.drop hf hsplit).owned (fun p x hx ↦ ?_)
    fun node x hx ↦ .inl (hs.mem_topFields hx)
  have hx := hs.mem_parts hx
  by_cases hpid : p = id
  · subst hpid
    rw [parts_updateField_self hf] at hx
    rw [parts, read_of_some hf]
    exact .inl (hsplit.subset (List.mem_append_left _ hx))
  · rw [parts_updateField_of_ne hpid] at hx
    exact .inl hx

theorem Homed.addTop (h : tree.Homed) (ht : tree.Owned) {node : NodeId}
    (hnode : tree.LiveNode node) (ha : (tree.addTop node id).Owned)
    (hid : tree.home? id = some (node, none)) : (tree.addTop node id).Homed := by
  refine h.mono (.of_field? rfl rfl) ht ha (fun _ _ hx ↦ .inl hx) fun n x hx ↦ ?_
  rcases mem_topFields_addTop hnode hx with hx | ⟨rfl, rfl⟩
  · exact .inl hx
  · exact .inr hid

/-! ## Loose fields in a changed tree -/

theorem loose_of_releaseField (h : (tree.releaseField id).Loose x) :
    tree.Loose x ∧ x ≠ id := by
  have hs := releaseField_shrinks tree id
  obtain ⟨hlive, hnot⟩ := live_releaseField_iff.1 h.live
  refine ⟨⟨hlive, fun p hp ↦ ?_, fun node hn ↦ ?_⟩, ?_⟩
  · have hpl : (tree.releaseField id).Live p :=
      live_releaseField_iff.2 ⟨live_of_mem_parts hp, fun hh ↦ hnot (hh.tail hp)⟩
    exact h.not_part p (hs.parts hpl ▸ hp)
  · refine h.not_top node ?_
    rwa [topFields_eq_readNode, (SameNodes.releaseField tree id).readNode fun _ ↦ rfl,
      ← topFields_eq_readNode]
  · rintro rfl
    exact hnot .refl

theorem loose_of_releaseFields {ids : List FieldId} (h : (tree.releaseFields ids).Loose x) :
    tree.Loose x ∧ x ∉ ids := by
  induction ids generalizing tree with
  | nil => exact ⟨h, List.not_mem_nil⟩
  | cons id ids ih =>
      obtain ⟨hrest, hni⟩ := ih h
      obtain ⟨hx, hne⟩ := loose_of_releaseField hrest
      exact ⟨hx, fun hm ↦ (List.mem_cons.1 hm).elim hne hni⟩

theorem loose_of_insertField {field : Field} (h : (tree.insertField field).Loose x) :
    x = tree.nextField ∨ tree.Loose x ∧ x ∉ field.value.parts := by
  rcases (live_insertField tree field x).1 h.live with rfl | hlive
  · exact .inl rfl
  · refine .inr ⟨⟨hlive, fun p hp ↦ h.not_part p ?_, h.not_top⟩, fun hm ↦ ?_⟩
    · rwa [parts_insertField, if_neg (live_of_mem_parts hp).ne_nextField]
    · refine h.not_part tree.nextField ?_
      rwa [parts_insertField, if_pos rfl]

theorem loose_of_relink {dependent : FieldId} {source : Option Source}
    (h : (tree.relink dependent source).Loose x) : tree.Loose x := by
  refine h.congr (fun y ↦ (live_relink dependent source y).symm) ?_ ?_
  · exact (read_relink dependent source (fun _ _ _ ↦ rfl) []).symm
  · rw [topFields_eq_readNode, topFields_eq_readNode,
      readNode_relink dependent source fun _ _ ↦ rfl]

theorem loose_of_updateField {f : Field → Field}
    (hf : ∀ field, (f field).value.parts = field.value.parts)
    (h : (tree.updateField id f).Loose x) : tree.Loose x :=
  h.congr (fun y ↦ (live_updateField tree id f y).symm) (parts_updateField hf id).symm rfl

theorem loose_of_push {field : Field} (hf : tree.field? id = some field)
    (hlist : field.value.elements?.isSome) {group : List FieldId}
    (h : (tree.push id group).Loose x) : tree.Loose x ∧ x ∉ group := by
  have hparts : (tree.push id group).parts id = tree.parts id ++ group := by
    rw [push, parts_updateField_self hf, parts, read_of_some hf]
    cases hv : field.value <;> simp_all [Value.elements?, Value.mapElements, Value.parts]
  have hid := h.not_part id
  rw [hparts, List.mem_append, not_or] at hid
  refine ⟨⟨(live_updateField tree id _ x).1 h.live, fun p hp ↦ ?_, h.not_top⟩, hid.2⟩
  by_cases hpid : p = id
  · exact hid.1 (hpid ▸ hp)
  · refine h.not_part p ?_
    rwa [push, parts_updateField_of_ne hpid]

theorem loose_of_drop {field : Field} (hf : tree.field? id = some field)
    {f : List (List FieldId) → List (List FieldId)} {group : List FieldId}
    (hsplit : Splits f group field.value) (h : (tree.drop id f group).Loose x) : tree.Loose x := by
  obtain ⟨hx, hng⟩ := loose_of_releaseFields h
  refine ⟨(live_updateField tree id _ x).1 hx.live, fun p hp ↦ ?_, hx.not_top⟩
  by_cases hpid : p = id
  · subst hpid
    rw [parts, read_of_some hf] at hp
    rcases List.mem_append.1 (hsplit.symm.subset hp) with hkept | hgone
    · refine hx.not_part p ?_
      rwa [parts_updateField_self hf]
    · exact hng hgone
  · refine hx.not_part p ?_
    rwa [parts_updateField_of_ne hpid]

theorem loose_of_addTop {node : NodeId} (hnode : tree.LiveNode node)
    (h : (tree.addTop node id).Loose x) : tree.Loose x ∧ x ≠ id := by
  refine ⟨⟨h.live, h.not_part, fun n hn ↦ h.not_top n ?_⟩, ?_⟩
  · rw [topFields_addTop tree hnode]
    split
    · exact List.mem_append_left _ hn
    · exact hn
  · rintro rfl
    refine h.not_top node ?_
    rw [topFields_addTop tree hnode, if_pos rfl]
    exact List.mem_append_right _ (List.mem_singleton.2 rfl)

theorem loose_of_removeNode {node : NodeId} (h : (tree.removeNode node).Loose x) :
    tree.Loose x ∨ x ∈ tree.topFields node := by
  by_cases hx : x ∈ tree.topFields node
  · exact .inr hx
  · refine .inl ⟨h.live, h.not_part, fun n hn ↦ ?_⟩
    have hne : n ≠ node := by
      rintro rfl
      exact hx hn
    refine h.not_top n ?_
    rwa [topFields_removeNode, if_neg hne]

theorem loose_of_releaseNodeWithin (fuel : Nat) {node : NodeId}
    (h : (releaseNodeWithin fuel tree node).Loose x) : tree.Loose x := by
  induction fuel generalizing tree node with
  | zero => exact h
  | succ fuel ih =>
      by_cases hl : tree.LiveNode node
      · obtain ⟨n, hn⟩ := liveNode_iff.1 hl
        rw [releaseNodeWithin_of_live hn] at h
        have hfold : ∀ (list : List NodeId) (t : Tree),
            (list.foldl (releaseNodeWithin fuel) t).Loose x → t.Loose x := by
          intro list
          induction list with
          | nil => exact fun _ ht ↦ ht
          | cons c list ihl => exact fun t ht ↦ ih (ihl _ ht)
        obtain ⟨hx, hnot⟩ := loose_of_releaseFields h
        refine (loose_of_removeNode (hfold _ _ hx)).resolve_right fun htop ↦ hnot ?_
        rwa [topFields_eq_readNode, readNode_of_some hn] at htop
      · rwa [releaseNodeWithin_of_not_live hl] at h

/-- The second tree is homed, and only fields that were loose before are loose in it. -/
structure Houses (tree after : Tree) : Prop where
  abides : tree.Abides after
  homed : after.Homed
  loose : ∀ x, after.Loose x → tree.Loose x

theorem Houses.refl (h : tree.Homed) : tree.Houses tree :=
  ⟨.refl tree, h, fun _ hx ↦ hx⟩

theorem Houses.trans (h : tree.Houses mid) (h' : mid.Houses after) : tree.Houses after :=
  ⟨h.abides.trans h'.abides, h'.homed, fun x hx ↦ h.loose x (h'.loose x hx)⟩

/-- A change of nodes that leaves their fields alone. -/
theorem Houses.of_nodes (h : tree.Homed) (hfields : after.field? = tree.field?)
    (hsize : after.fields.size = tree.fields.size) (htops : after.topFields = tree.topFields) :
    tree.Houses after where
  abides := .of_field? hfields hsize
  homed := h.of_nodes hfields htops
  loose x hx := by
    refine hx.congr (fun y ↦ ?_) ?_ htops.symm
    · unfold Live
      rw [hfields]
    · unfold parts read
      rw [hfields]

theorem Houses.refresh (h : tree.Homed) :
    tree.Houses { tree with refreshes := tree.refreshes + 1 } :=
  .of_nodes h rfl rfl rfl

theorem Houses.updateField (ht : tree.Sound) (h : tree.Homed) {f : Field → Field}
    (ha : (tree.updateField id f).Sound) (hab : tree.Abides (tree.updateField id f))
    (hf : ∀ field, (f field).value.parts = field.value.parts) :
    tree.Houses (tree.updateField id f) where
  abides := hab
  homed := h.mono hab ht.owned ha.owned
    (fun p x hx ↦ .inl (by rwa [parts_updateField hf id] at hx)) fun _ _ hx ↦ .inl hx
  loose _ hx := loose_of_updateField hf hx

theorem Houses.setActive (ht : tree.Sound) (h : tree.Homed) (id : FieldId) (active : Bool) :
    tree.Houses (tree.updateField id ({ · with active })) :=
  .updateField ht h (ht.setActive id active) (.setActive tree id active) fun _ ↦ rfl

theorem Houses.drop (ht : tree.Sound) (h : tree.Homed) {field : Field}
    (hf : tree.field? id = some field) {f : List (List FieldId) → List (List FieldId)}
    {group : List FieldId} (hsplit : Splits f group field.value) :
    tree.Houses (tree.drop id f group) :=
  ⟨.drop tree id f group, h.drop ht hf hsplit, fun _ hx ↦ loose_of_drop hf hsplit hx⟩

theorem shelter?_of_list {field : Field} (hf : tree.field? id = some field) {linked : Bool}
    {template : List FieldDecl} {elements : List (List FieldId)}
    (hvalue : field.value = .list linked template elements) :
    tree.shelter? id = some (field.owner, some id) := by
  rw [shelter?, read_of_some hf, Field.shelter, hvalue]
  rfl

/-- A field that shelters others in itself is a list. -/
theorem Sound.list_of_shelter? (h : tree.Sound) {owner : NodeId}
    (hs : tree.shelter? id = some (owner, some id)) :
    ∃ field, tree.field? id = some field ∧ field.owner = owner ∧ field.value.elements?.isSome := by
  obtain ⟨field, hf⟩ := live_iff.1 (live_of_shelter?_eq_some hs)
  rw [shelter?, read_of_some hf, Field.shelter, Option.some.injEq, Prod.mk.injEq] at hs
  refine ⟨field, hf, hs.1, ?_⟩
  by_contra hnone
  rw [if_neg hnone] at hs
  have hself : tree.container? id = some id := by
    rw [container?_eq_read, read_of_some hf]
    exact hs.2
  exact Nat.lt_irrefl _ (h.ordered.container_lt id id hself)

end Tree

end LightTree
