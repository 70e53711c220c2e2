import LightTree.Proofs.Abiding
import LightTree.Proofs.Reachable

/-!
# Cascades at one node

In an insular tree a field belongs to the node of the source that it is linked to, of the list
around it and of the fields that it owns. So the dependents of a node belong to that node, and
together with what is new they form a region that no cascade leaves. What a cascade builds in the
region belongs to the node as well, which keeps the tree insular.
-/

namespace LightTree

open Relation Edit

namespace Tree

/-- The first field has to belong to the node of the second one: its source, its list or its
part. -/
def Tied (tree : Tree) (x y : FieldId) : Prop :=
  tree.link? x = some (.field y) ∨ tree.container? x = some y ∨ y ∈ tree.parts x

/-- A field has to belong to a node: it follows the children of the node or is at its top. -/
def Attends (tree : Tree) (x : FieldId) (node : NodeId) : Prop :=
  tree.link? x = some (.children node) ∨ x ∈ tree.topFields node

structure Insular (tree : Tree) : Prop extends tree.Sound where
  tied : ∀ x y, tree.Tied x y → tree.Live y → tree.owner? y = tree.owner? x
  attends : ∀ x node, tree.Attends x node → tree.owner? x = some node

variable {tree after : Tree} {id x y : FieldId} {node : NodeId}

theorem live_of_tied (h : tree.Tied x y) : tree.Live x := by
  rcases h with h | h | h
  · exact live_of_link?_eq_some h
  · exact live_of_container?_eq_some h
  · exact live_of_mem_parts h

theorem live_of_owner?_eq_some (h : tree.owner? x = some node) : tree.Live x :=
  live_of_read_ne (ne_of_eq_of_ne h (Option.some_ne_none node))

theorem Sound.lt_size_of_tied (h : tree.Sound) (hxy : tree.Tied x y) :
    y.index < tree.fields.size := by
  rcases hxy with hlink | hlist | hpart
  · exact h.ordered.link_issued x _ hlink
  · exact (h.ordered.container_lt x y hlist).trans (live_of_container?_eq_some hlist).lt_size
  · exact (h.owned.parts_live x y hpart).lt_size

theorem Sound.live_of_attends (h : tree.Sound) (hx : tree.Attends x node) : tree.Live x :=
  hx.elim live_of_link?_eq_some (h.owned.tops_live node x)

theorem Abides.owner? (h : tree.Abides after) (hx : x.index < tree.fields.size)
    (hl : after.Live x) : after.owner? x = tree.owner? x :=
  h.read (fun _ ↦ rfl) hx hl none

/-! ## Insular trees in a changed tree -/

/-- A tree stays insular if whatever is tied anew belongs where it has to. -/
theorem Insular.mono (h : tree.Insular) (ha : after.Sound) (hab : tree.Abides after)
    (htied : ∀ x y, after.Tied x y → after.Live y →
      tree.Tied x y ∨ after.owner? y = after.owner? x)
    (hattends : ∀ x node, after.Attends x node →
      tree.Attends x node ∨ after.owner? x = some node) : after.Insular where
  toSound := ha
  tied x y hxy hy := by
    rcases htied x y hxy hy with hold | hnew
    · have hlt := h.lt_size_of_tied hold
      rw [hab.owner? hlt hy, hab.owner? (live_of_tied hold).lt_size (live_of_tied hxy)]
      exact h.tied x y hold (hab.live hlt hy)
    · exact hnew
  attends x node hx := by
    rcases hattends x node hx with hold | hnew
    · rw [hab.owner? (h.live_of_attends hold).lt_size (ha.live_of_attends hx)]
      exact h.attends x node hold
    · exact hnew

theorem Shrinks.tied (h : tree.Shrinks after) (hxy : after.Tied x y) : tree.Tied x y := by
  have hl := live_of_tied hxy
  unfold Tied at hxy
  rwa [h.link? hl, h.container? hl, h.parts hl] at hxy

theorem Shrinks.attends (h : tree.Shrinks after) (hx : after.Attends x node) :
    tree.Attends x node :=
  hx.imp (fun hlink ↦ (h.link? (live_of_link?_eq_some hlink)).symm.trans hlink) h.mem_topFields

theorem Insular.of_shrinks (h : tree.Insular) (ha : after.Sound) (hs : tree.Shrinks after) :
    after.Insular :=
  h.mono ha (.of_shrinks hs) (fun _ _ hxy _ ↦ .inl (hs.tied hxy)) fun _ _ hx ↦
    .inl (hs.attends hx)

theorem Insular.releaseNode (h : tree.Insular) (node : NodeId) : (tree.releaseNode node).Insular :=
  h.of_shrinks (h.toSound.releaseNode node) (releaseNode_shrinks tree node)

theorem tied_congr (hfield : after.field? = tree.field?) : after.Tied = tree.Tied := by
  funext x y
  simp only [Tied, link?, parts, read, container?, hfield]

theorem attends_congr (hfield : after.field? = tree.field?)
    (htops : after.topFields = tree.topFields) : after.Attends = tree.Attends := by
  funext x node
  simp only [Attends, link?, read, hfield, htops]

/-- A change of nodes that leaves their fields alone. -/
theorem Insular.of_nodes (h : tree.Insular) (ha : after.Sound)
    (hfield : after.field? = tree.field?) (hsize : after.fields.size = tree.fields.size)
    (htops : after.topFields = tree.topFields) : after.Insular :=
  h.mono ha (.of_field? hfield hsize) (fun _ _ hxy _ ↦ .inl (tied_congr hfield ▸ hxy))
    fun _ _ hx ↦ .inl (attends_congr hfield htops ▸ hx)

theorem Insular.addTop (h : tree.Insular) (hnode : tree.LiveNode node) (hid : tree.Loose id)
    (howner : tree.owner? id = some node) : (tree.addTop node id).Insular := by
  refine h.mono (h.toSound.addTop hnode hid) (.of_field? rfl rfl) (fun _ _ hxy _ ↦ .inl hxy) ?_
  rintro x n (hlink | htop)
  · exact .inl (.inl hlink)
  · rcases mem_topFields_addTop hnode htop with hold | ⟨rfl, rfl⟩
    · exact .inl (.inr hold)
    · exact .inr howner

/-- A new field without a link belongs to the node that its list and its parts belong to. -/
theorem Insular.insertField (h : tree.Insular) {field : Field}
    (ha : (tree.insertField field).Sound) (hlink : field.link = none)
    (hties : ∀ y, (tree.insertField field).Live y →
      field.container = some y ∨ y ∈ field.value.parts →
        (tree.insertField field).owner? y = some field.owner) :
    (tree.insertField field).Insular := by
  have hnext : (tree.insertField field).owner? tree.nextField = some field.owner := by
    rw [Tree.owner?, read_insertField, if_pos rfl]
  refine h.mono ha (.insertField tree field) (fun x y hxy hy ↦ ?_) fun x n hx ↦
    .inl (hx.imp_left fun hl ↦ ?_)
  · unfold Tied at hxy
    rw [link?, container?_eq_read, parts_insertField, read_insertField, read_insertField] at hxy
    by_cases hx : x = tree.nextField
    · rw [if_pos hx, if_pos hx, if_pos hx, hlink] at hxy
      rw [hx, hnext]
      exact .inr (hties y hy (hxy.resolve_left (Option.some_ne_none _).symm))
    · rw [if_neg hx, if_neg hx, if_neg hx, ← container?_eq_read] at hxy
      exact .inl hxy
  · rw [link?, read_insertField] at hl
    split at hl
    · rw [hlink] at hl
      cases hl
    · exact hl

theorem Insular.relink (h : tree.Insular) {dependent : FieldId} {source : Option Source}
    (ha : (tree.relink dependent source).Sound) (hlive : tree.Live dependent)
    (hfield : ∀ y, source = some (.field y) → (tree.relink dependent source).Live y →
      (tree.relink dependent source).owner? y = (tree.relink dependent source).owner? dependent)
    (hchildren : ∀ n, source = some (.children n) →
      (tree.relink dependent source).owner? dependent = some n) :
    (tree.relink dependent source).Insular := by
  have hlink : ∀ {x new}, (tree.relink dependent source).link? x = some new →
      x = dependent ∧ source = some new ∨ tree.link? x = some new := by
    intro x new hx
    rw [link?_relink source hlive] at hx
    split at hx
    · next hself => exact .inl ⟨hself, hx⟩
    · exact .inr hx
  refine h.mono ha (.relink tree dependent source) (fun x y hxy hy ↦ ?_) fun x n hx ↦ ?_
  · rcases hxy with hl | hlist | hpart
    · rcases hlink hl with ⟨rfl, hsource⟩ | hold
      · exact .inr (hfield y hsource hy)
      · exact .inl (.inl hold)
    · exact .inl (.inr (.inl (container?_relink dependent source ▸ hlist)))
    · rw [parts, read_relink dependent source fun _ _ _ ↦ rfl] at hpart
      exact .inl (.inr (.inr hpart))
  · rcases hx with hl | htop
    · rcases hlink hl with ⟨rfl, hsource⟩ | hold
      · exact .inr (hchildren n hsource)
      · exact .inl (.inl hold)
    · rw [(SameNodes.relink tree dependent source).topFields] at htop
      exact .inl (.inr htop)

section

variable {f : Field → Field}

theorem tied_of_updateField (hf : Retouches f) (h : (tree.updateField id f).Tied x y) :
    tree.Tied x y ∨ x = id ∧ y ∈ (tree.updateField id f).parts id := by
  rcases h with hlink | hlist | hpart
  · exact .inl (.inl (link?_updateField hf.link id ▸ hlink))
  · exact .inl (.inr (.inl (container?_updateField hf.container id ▸ hlist)))
  · by_cases hx : x = id
    · exact .inr ⟨hx, hx ▸ hpart⟩
    · exact .inl (.inr (.inr (parts_updateField_of_ne hx ▸ hpart)))

theorem attends_of_updateField (hf : Retouches f) (h : (tree.updateField id f).Attends x node) :
    tree.Attends x node :=
  h.imp_left fun hlink ↦ link?_updateField hf.link id ▸ hlink

theorem Insular.updateField (h : tree.Insular) (hf : Retouches f)
    (ha : (tree.updateField id f).Sound) (hab : tree.Abides (tree.updateField id f))
    (hparts : ∀ y ∈ (tree.updateField id f).parts id,
      y ∈ tree.parts id ∨ (tree.updateField id f).owner? y = (tree.updateField id f).owner? id) :
    (tree.updateField id f).Insular := by
  refine h.mono ha hab (fun x y hxy _ ↦ ?_) fun _ _ hx ↦ .inl (attends_of_updateField hf hx)
  rcases tied_of_updateField hf hxy with hold | ⟨rfl, hy⟩
  · exact .inl hold
  · exact (hparts y hy).imp_left fun hold ↦ .inr (.inr hold)

theorem Insular.retouch (h : tree.Insular) (hf : Retouches f)
    (hparts : ∀ field, (f field).value.parts = field.value.parts)
    (hab : tree.Abides (tree.updateField id f)) : (tree.updateField id f).Insular := by
  refine h.updateField hf (h.toSound.retouch_of_parts hf hparts id) hab fun y hy ↦ .inl ?_
  rwa [parts_updateField hparts id] at hy

theorem Insular.drop (h : tree.Insular) {field : Field} (hf : tree.field? id = some field)
    {f : List (List FieldId) → List (List FieldId)} {group : List FieldId}
    (hsplit : Splits f group field.value) : (tree.drop id f group).Insular := by
  have hs := releaseFields_shrinks
    (tree.updateField id fun field ↦ { field with value := field.value.mapElements f }) group
  refine h.mono (h.toSound.drop hf hsplit) (.drop tree id f group) (fun x y hxy _ ↦ .inl ?_)
    fun _ _ hx ↦ .inl (attends_of_updateField (retouches_mapElements f) (hs.attends hx))
  rcases tied_of_updateField (retouches_mapElements f) (hs.tied hxy) with hold | ⟨rfl, hy⟩
  · exact hold
  · rw [parts_updateField_self hf] at hy
    refine .inr (.inr ?_)
    rw [parts, read_of_some hf]
    exact hsplit.subset (List.mem_append_left group hy)

end

end Tree

/-! ## Regions of one node -/

namespace Region

open LightTree.Tree

variable {region : Region} {tree after : Tree} {node : NodeId}

/-- All that is alive of a region belongs to one node. -/
structure BelongsTo (region : Region) (node : NodeId) (tree : Tree) : Prop where
  within : ∀ x, region.within x → tree.Live x → tree.owner? x = some node
  field : ∀ x, region.sources (.field x) → tree.Live x → tree.owner? x = some node
  children : ∀ other, region.sources (.children other) → other = node

theorem Change.belongsTo (h : region.Change tree after) (hb : region.BelongsTo node tree) :
    region.BelongsTo node after := by
  have howner : ∀ x, (tree.Live x → tree.owner? x = some node) → after.Live x →
      after.owner? x = some node := by
    intro x hx hl
    obtain ⟨field, hf⟩ := live_iff.1 hl
    have ho : after.owner? x = some field.owner := read_of_some hf _ _
    rcases h.owner? ho with hold | hoffers
    · rw [ho, ← hold, hx (live_of_owner?_eq_some hold)]
    · rw [ho, hb.children field.owner hoffers.1]
  exact ⟨fun x hx ↦ howner x (hb.within x hx), fun x hx ↦ howner x (hb.field x hx), hb.children⟩

theorem Change.abides (h : region.Change tree after) : tree.Abides after := by
  cases h with
  | insert => exact .insertField tree _
  | relink => exact .relink tree _ _
  | setActive => exact .setActive tree _ _
  | push => exact .mapElements tree _ _
  | drop => exact .drop tree _ _ _
  | refresh => exact .of_field? rfl rfl

/-- A step ties fields of the region to fields of the region only. -/
theorem Change.insular (h : region.Change tree after) (hg : region.Governs tree)
    (hb : region.BelongsTo node tree) (hi : tree.Insular) : after.Insular := by
  have ha := h.sound hi.toSound
  have hab := h.abides
  have hb' := h.belongsTo hb
  have hfresh : ∀ x : FieldId, region.base ≤ x.index → after.Live x →
      after.owner? x = some node := fun x hx ↦
    hb'.within x (hg.visited_within x (hg.fresh x hx))
  cases h with
  | @insert field link listeners container owner offers nodup loose =>
      have howner : field.owner = node := hb.children field.owner offers.1
      refine hi.insertField ha link fun y hy hties ↦ howner ▸ ?_
      rcases hties with hlist | hpart
      · exact hb'.within y (container y hlist).1 hy
      · exact hfresh y (loose y hpart).2 hy
  | @relink dependent source live new sources admits =>
      have hdependent := hfresh dependent new ((live_relink dependent source dependent).2 live)
      refine hi.relink ha live (fun y hy hl ↦ ?_) fun n hn ↦ ?_
      · exact (hb'.field y (sources _ hy) hl).trans hdependent.symm
      · rw [hdependent, hb.children n (sources _ hn)]
  | @setActive id visited active =>
      exact hi.retouch (retouches_setActive active) (fun _ ↦ rfl) hab
  | @push id group visited nodup loose =>
      refine hi.updateField (retouches_mapElements _) ha hab fun y hy ↦ ?_
      obtain ⟨more, hsub, hparts⟩ := parts_push tree id group
      have hlive := live_of_mem_parts hy
      have hy' : y ∈ tree.parts id ++ more := hparts ▸ hy
      refine (List.mem_append.1 hy').imp_right fun hmore ↦ ?_
      refine (hfresh y (loose y (hsub.subset hmore)).2 (ha.owned.parts_live id y hy)).trans ?_
      exact (hb'.within id (hg.visited_within id visited) hlive).symm
  | drop visited live splits => exact hi.drop live splits
  | refresh => exact hi.of_nodes ha rfl rfl rfl

theorem Leads.insular (h : region.Leads tree after) (hg : region.Governs tree)
    (hb : region.BelongsTo node tree) (hi : tree.Insular) :
    after.Insular ∧ region.BelongsTo node after := by
  induction h with
  | refl => exact ⟨hi, hb⟩
  | tail hl hc ih => exact ⟨hc.insular (Leads.governs hl hg) ih.2 ih.1, hc.belongsTo ih.2⟩

end Region

namespace Tree

variable {tree after : Tree} {x y : FieldId} {node : NodeId}

/-- No other node owns the field. -/
def Local (tree : Tree) (node : NodeId) (x : FieldId) : Prop :=
  ∀ other, tree.owner? x = some other → other = node

theorem local_of_owner? (h : tree.owner? x = some node) : tree.Local node x :=
  fun _ ho ↦ Option.some.inj (ho.symm.trans h)

theorem local_of_size_le (h : tree.fields.size ≤ x.index) : tree.Local node x :=
  fun _ ho ↦ absurd (live_of_owner?_eq_some ho).lt_size (Nat.not_lt_of_le h)

theorem Local.owner? (h : tree.Local node x) (hl : tree.Live x) : tree.owner? x = some node := by
  obtain ⟨field, hf⟩ := live_iff.1 hl
  have ho : tree.owner? x = some field.owner := read_of_some hf _ _
  rw [ho, h field.owner ho]

/-- The region of a node: its fields and what is new, which may be linked to these and to the
children of the node. -/
def precinct (tree : Tree) (node : NodeId) : Region where
  base := tree.fields.size
  visited := tree.Local node
  within := tree.Local node
  sources
    | .children other => other = node
    | .field x => tree.Local node x

theorem belongsTo_precinct (tree : Tree) (node : NodeId) :
    (tree.precinct node).BelongsTo node tree :=
  ⟨fun _ ↦ Local.owner?, fun _ ↦ Local.owner?, fun _ h ↦ h⟩

namespace Insular

theorem owner?_of_wraps (h : tree.Insular) (hxy : ReflTransGen tree.Wraps x y) :
    tree.owner? y = tree.owner? x := by
  induction hxy with
  | refl => rfl
  | tail _ hab ih =>
      exact (h.tied _ _ (.inr (.inr (mem_parts_of_inner? hab))) (h.owned.inner?_live hab)).trans ih

theorem owner?_of_mem_listeners (h : tree.Insular) (hy : y ∈ tree.listeners x) :
    tree.owner? y = tree.owner? x := by
  have hx := live_of_mem_listeners hy
  obtain ⟨s, hs, hwraps⟩ := (h.mirrored.mem_iff hx).1 hy
  have hlive : tree.Live s := by
    rcases hwraps.cases_head with rfl | ⟨t, hst, _⟩
    · exact hx
    · exact live_of_inner?_eq_some hst
  rw [h.owner?_of_wraps hwraps, h.tied y s (.inl hs) hlive]

theorem governs (h : tree.Insular) (node : NodeId) : (tree.precinct node).Governs tree where
  sound := h.toSound
  base_le := Nat.le_refl _
  fresh _ := local_of_size_le
  visited_within _ hx := hx
  listeners x d hx hd other ho := hx other ((h.owner?_of_mem_listeners hd).symm.trans ho)
  container x c hx hc other ho :=
    hx other ((h.tied x c (.inr (.inl hc)) (live_of_owner?_eq_some ho)).symm.trans ho)
  fresh_source _ := local_of_size_le
  offers x n hx hn := by
    rw [hx n hn]
    exact ⟨rfl, fun y hy ↦ local_of_owner? (h.attends y node (.inr hy))⟩

theorem hosts (h : tree.Insular) (hnode : node.index < tree.nodes.size) :
    (tree.precinct node).Hosts tree node none where
  offers := ⟨rfl, fun x hx ↦ local_of_owner? (h.attends x node (.inr hx))⟩
  owner := hnode
  container := nofun

/-- Whatever a cascade does in the region of a node, the tree stays insular. -/
theorem of_leads (h : tree.Insular) (hl : (tree.precinct node).Leads tree after) : after.Insular :=
  (hl.insular (h.governs node) (belongsTo_precinct tree node) h).1

end Insular

end Tree

end LightTree
