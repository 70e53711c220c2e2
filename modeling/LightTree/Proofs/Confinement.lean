import LightTree.Proofs.Region

/-!
# Cascades stay in their region

Every function of a cascade is a sequence of steps of a region, whether it ends with a value or
with a fault. What a visit does is taken as known until `notify`, where the induction on the fuel
closes the circle.
-/

namespace LightTree

open Relation Edit

/-- An edit is a sequence of steps, however it ends. -/
def Edit.Stays {α : Type} (edit : Edit α) (region : Region) (tree : Tree) : Prop :=
  edit.Meets tree (fun _ ↦ region.Leads tree) fun _ ↦ region.Leads tree

/-- An edit builds a new field that has no owner yet. -/
def Edit.Builds (edit : Edit FieldId) (region : Region) (tree : Tree) : Prop :=
  edit.Meets tree
    (fun id after ↦ region.Leads tree after ∧ after.Loose id ∧ region.base ≤ id.index)
    fun _ ↦ region.Leads tree

/-- Visits stay in every region that allows them. -/
def Confined (visit : FieldId → Edit Unit) : Prop :=
  ∀ (region : Region) (tree : Tree) (id : FieldId), region.Governs tree → region.visited id →
    (visit id).Stays region tree

namespace Region

variable {α : Type} {region : Region} {tree mid after : Tree} {visit : FieldId → Edit Unit}

theorem Leads.andThen (h : region.Leads tree mid) {edit : Edit α} (he : edit.Stays region mid) :
    edit.Meets mid (fun _ ↦ region.Leads tree) fun _ ↦ region.Leads tree :=
  he.imp (fun _ _ ↦ ReflTransGen.trans h) fun _ _ ↦ ReflTransGen.trans h

/-- Where new fields may be put: at a node that is there and whose sources the region offers, in a
list of the region. -/
structure Hosts (region : Region) (tree : Tree) (owner : NodeId) (container : Option FieldId) :
    Prop where
  offers : region.Offers tree owner
  owner : owner.index < tree.nodes.size
  container : ∀ c, container = some c → region.within c ∧ c.index < tree.fields.size

variable {owner : NodeId} {container : Option FieldId}

theorem Hosts.of_framed (h : region.Hosts tree owner container) {region' : Region}
    (hf : region'.Framed tree after) : region.Hosts after owner container where
  owner := hf.nodes.nodes_size ▸ h.owner
  container c hc := ⟨(h.container c hc).1, Nat.lt_of_lt_of_le (h.container c hc).2 hf.fields_size⟩
  offers := h.offers.of_sameNodes hf.nodes

theorem Hosts.raise (h : region.Hosts tree owner container) {base : Nat} :
    (region.raise base).Hosts tree owner container :=
  ⟨h.offers, h.owner, h.container⟩

/-- A field of the region hosts new fields in its list. -/
theorem Governs.hosts (hg : region.Governs tree) {id : FieldId} {field : Field}
    (hf : tree.field? id = some field) (hid : region.visited id) :
    region.Hosts tree field.owner (some id) where
  owner := hg.sound.ordered.owner_issued id _ (Tree.read_of_some hf _ _)
  container c hc := by
    cases hc
    exact ⟨hg.visited_within id hid, (Tree.live_of_some hf).lt_size⟩
  offers := hg.offers id field.owner hid (Tree.read_of_some hf _ _)

/-- The fields of a group are new, without an owner and different from one another. -/
structure Group (region : Region) (tree : Tree) (group : List FieldId) : Prop where
  nodup : group.Nodup
  loose : ∀ x ∈ group, tree.Loose x ∧ region.base ≤ x.index

theorem Group.nil : region.Group tree [] :=
  ⟨List.nodup_nil, fun _ hx ↦ absurd hx List.not_mem_nil⟩

end Region

namespace Confined

variable {region : Region} {tree : Tree} {visit : FieldId → Edit Unit} {owner : NodeId}
  {container : Option FieldId}

theorem forM (hv : Confined visit) (hg : region.Governs tree) {ids : List FieldId}
    (hids : ∀ d ∈ ids, region.visited d) : (ids.forM visit).Stays region tree := by
  refine meets_forM (fun rest after ↦ region.Leads tree after ∧ ∀ d ∈ rest, region.visited d)
    (fun _ h ↦ h.1) ?_ ids tree ⟨.refl, hids⟩
  rintro d rest after ⟨hl, hd⟩
  refine (hl.andThen (hv region after d (hl.governs hg) (hd d List.mem_cons_self))).imp ?_
    fun _ _ h ↦ h
  exact fun _ _ h ↦ ⟨h, fun x hx ↦ hd x (List.mem_cons_of_mem d hx)⟩

/-! ## Building fields -/

/-- Wiring a new field links it and visits it. What is loose, the new field included, stays so. -/
theorem rebindWith (hv : Confined visit) (hg : region.Governs tree) {dependent : FieldId}
    {source : Source} (hl : tree.Live dependent) (hnew : region.base ≤ dependent.index)
    (hlink : tree.link? dependent = none) (hsource : region.sources source)
    (hissued : tree.Issued source) :
    (rebindWith visit dependent source).Meets tree
      (fun _ after ↦ region.Leads tree after ∧ ∀ x, tree.Loose x → after.Loose x)
      fun _ ↦ region.Leads tree := by
  rw [meets_rebindWith]
  refine ⟨fun field hf ↦ ⟨fun _ ↦ .refl, fun hc ↦ ⟨fun _ _ ↦ .refl, fun _ ↦ ?_⟩⟩, fun _ ↦ .refl⟩
  have hstep : region.Change tree (tree.relink dependent (some source)) := by
    refine .relink hl hnew (fun s hs ↦ Option.some.inj hs ▸ hsource) fun s hs ↦ ?_
    cases hs
    exact ⟨hissued, Tree.admits_of_not_closesCycle hc⟩
  have hg' := hstep.governs hg
  have hnone : field.link = none := by
    rw [← hlink, Tree.link?, Tree.read_of_some hf]
  -- The new field is not new to the visit, so that it stays loose.
  apply (hv _ _ dependent hg'.raise (hg.fresh dependent hnew)).imp
  · intro _ after hafter
    refine ⟨.head hstep (hafter.of_raise hg'.base_le), fun x hx ↦ ?_⟩
    have hx' := hx.relink dependent (some source)
    exact (hafter.framed hg'.raise).loose x hx'.live.lt_size hx'
  · intro fault after hafter
    have hlead := hafter.of_raise hg'.base_le
    rw [meets_relink, hnone]
    refine ⟨fun hla ↦ (ReflTransGen.head hstep hlead).tail (.relink hla hnew ?_ ?_),
      fun _ ↦ .head hstep hlead⟩
    · exact fun s hs ↦ absurd hs.symm (Option.some_ne_none s)
    · exact fun s hs ↦ absurd hs.symm (Option.some_ne_none s)

theorem plant (hv : Confined visit) (hg : region.Governs tree)
    (hhost : region.Hosts tree owner container) {group : List FieldId}
    (hgroup : ∀ x ∈ group, region.sources (.field x)) (decl : FieldDecl)
    {value : Value} (hnodup : value.parts.Nodup)
    (hparts : ∀ c ∈ value.parts, tree.Loose c ∧ region.base ≤ c.index) :
    (plant visit owner group container decl value).Builds region tree := by
  unfold Builds
  rw [meets_plant]
  set field : Field := { name := decl.name, owner, value, container } with hfield
  have hstep : region.Change tree (tree.insertField field) :=
    .insert rfl rfl hhost.container hhost.owner hhost.offers hnodup hparts
  have hg' := hstep.governs hg
  have hloose : (tree.insertField field).Loose tree.nextField :=
    hg.sound.owned.loose_nextField fun c hc ↦ (hparts c hc).1
  have hlink : (tree.insertField field).link? tree.nextField = none := by
    rw [Tree.link?, Tree.read_insertField, if_pos rfl]
  apply (meets_resolve owner group decl).imp
  · rintro source after ⟨rfl, hsource⟩
    refine ⟨fun _ ↦ ⟨.single hstep, hloose, hg.base_le⟩, fun s hs ↦ ?_⟩
    have hscope : region.sources s ∧ (tree.insertField field).Issued s := by
      rcases hsource s hs with rfl | ⟨name, id, _, rfl, hfirst⟩
      · exact ⟨hhost.offers.1, hhost.owner⟩
      · refine ⟨?_, (Tree.live_of_firstNamed?_eq_some hfirst).lt_size⟩
        exact (List.mem_append.1 (List.mem_of_find?_eq_some hfirst)).elim (hgroup id)
          (hhost.offers.2 id)
    apply (hv.rebindWith hg' hloose.live hg.base_le hlink hscope.1 hscope.2).imp
    · exact fun _ after h ↦ ⟨.head hstep h.1, h.2 _ hloose, hg.base_le⟩
    · exact fun _ _ h ↦ .head hstep h
  · rintro fault after ⟨rfl, _⟩
    exact .single hstep

theorem instantiate (hv : Confined visit) (hg : region.Governs tree)
    (hhost : region.Hosts tree owner container) {group : List FieldId}
    (hgroup : ∀ x ∈ group, region.sources (.field x)) :
    ∀ decl : FieldDecl, (instantiate visit owner group container decl).Builds region tree
  | .scalar _ _ => hv.plant hg hhost hgroup _ List.nodup_nil nofun
  | .choice name options => by
    unfold Builds
    rw [meets_instantiate_choice]
    exact ⟨fun _ ↦ .refl, fun _ ↦ hv.plant hg hhost hgroup _ List.nodup_nil nofun⟩
  | .list _ _ _ => hv.plant hg hhost hgroup _ List.nodup_nil nofun
  | .gated name source condition inner => by
    unfold Builds
    rw [meets_instantiate_gated]
    refine (hv.instantiate hg hhost hgroup inner).imp ?_ fun _ _ h ↦ h
    rintro id mid ⟨hlead, hloose, hnew⟩
    have hhost' := hhost.of_framed (hlead.framed hg)
    have hnodup : (Value.gated condition id).parts.Nodup := List.nodup_singleton id
    refine (hv.plant (hlead.governs hg) hhost' hgroup _ hnodup fun c hc ↦ ?_).imp ?_ ?_
    · rw [List.mem_singleton.1 hc]
      exact ⟨hloose, hnew⟩
    · exact fun _ after h ↦ ⟨hlead.trans h.1, h.2⟩
    · exact fun _ _ h ↦ hlead.trans h

theorem instantiateGroup (hv : Confined visit) (hg : region.Governs tree)
    (hhost : region.Hosts tree owner container) {group : List FieldId}
    (hgroup : region.Group tree group) (decls : List FieldDecl) :
    (instantiateGroup visit owner container group decls).Meets tree
      (fun all after ↦ region.Leads tree after ∧ region.Group after all)
      fun _ ↦ region.Leads tree := by
  induction decls generalizing tree group with
  | nil => exact ⟨.refl, hgroup⟩
  | cons decl rest ih =>
      rw [meets_instantiateGroup_cons]
      -- The fields of the group are not new to the next field, so that they stay loose.
      have hsources : ∀ x ∈ group, region.sources (.field x) := fun x hx ↦
        hg.fresh_source x (hgroup.loose x hx).2
      refine (hv.instantiate hg.raise hhost.raise hsources decl).imp ?_
        fun _ _ h ↦ h.of_raise hg.base_le
      rintro id mid ⟨hlead, hloose, hnew⟩
      have hframed := hlead.framed hg.raise
      have hlead' := hlead.of_raise hg.base_le
      refine (ih (hlead'.governs hg) (hhost.of_framed hframed) ⟨?_, ?_⟩).imp ?_ ?_
      · refine List.nodup_append.2 ⟨hgroup.nodup, List.nodup_singleton id, ?_⟩
        rintro a ha b hb rfl
        rw [List.mem_singleton.1 hb] at ha
        exact Nat.not_lt_of_le hnew (hgroup.loose id ha).1.live.lt_size
      · intro x hx
        rcases List.mem_append.1 hx with hx | hx
        · obtain ⟨hxl, hxb⟩ := hgroup.loose x hx
          exact ⟨hframed.loose x hxl.live.lt_size hxl, hxb⟩
        · rw [List.mem_singleton.1 hx]
          exact ⟨hloose, Nat.le_trans hg.base_le hnew⟩
      · exact fun _ _ h ↦ ⟨hlead'.trans h.1, h.2⟩
      · exact fun _ _ h ↦ hlead'.trans h

/-! ## Linked lists -/

theorem grow (hv : Confined visit) (hg : region.Governs tree) {id : FieldId}
    (hid : region.visited id) (hhost : region.Hosts tree owner (some id))
    (template : List FieldDecl) (count : Nat) :
    (grow visit owner template id count).Stays region tree := by
  induction count generalizing tree with
  | zero => exact ReflTransGen.refl
  | succ count ih =>
      unfold Stays
      rw [meets_grow_succ]
      refine (hv.instantiateGroup hg hhost .nil template).imp ?_ fun _ _ h ↦ h
      rintro group mid ⟨hlead, hgroup⟩
      refine ⟨fun _ ↦ ?_, fun _ ↦ hlead⟩
      have hlead' : region.Leads tree (mid.push id group) :=
        hlead.tail (.push hid hgroup.nodup hgroup.loose)
      exact hlead'.andThen (ih (hlead'.governs hg) (hhost.of_framed (hlead'.framed hg)))

end Confined

theorem splits_dropLast (value : Value) :
    Tree.Splits (·.dropLast) ((value.elements?.bind (·.getLast?)).getD []) value := by
  unfold Tree.Splits
  cases value with
  | scalar | choice | gated => simp [Value.mapElements, Value.elements?]
  | list linked template elements =>
      rcases List.eq_nil_or_concat elements with rfl | ⟨init, last, rfl⟩
      · simp [Value.mapElements, Value.elements?, Value.parts]
      · simp [Value.mapElements, Value.elements?, Value.parts]

namespace Confined

variable {region : Region} {tree : Tree} {visit : FieldId → Edit Unit}

theorem shrink (hg : region.Governs tree) {id : FieldId} (hid : region.visited id) (count : Nat) :
    (shrink id count).Stays region tree := by
  induction count generalizing tree with
  | zero => exact ReflTransGen.refl
  | succ count ih =>
      unfold Stays
      rw [meets_shrink_succ]
      refine ⟨fun field hf ↦ ?_, fun _ ↦ .refl⟩
      have hstep := Region.Change.drop hid hf (splits_dropLast field.value)
      exact Region.Leads.andThen (.single hstep) (ih (hstep.governs hg))

theorem resize (hv : Confined visit) (hg : region.Governs tree) {id : FieldId}
    (hid : region.visited id) (length : Nat) : (resize visit id length).Stays region tree := by
  unfold Stays
  rw [meets_resize]
  refine ⟨fun field hf ↦ ⟨fun _ template elements _ ↦ ?_, fun _ ↦ .refl⟩, fun _ ↦ .refl⟩
  refine (hv.grow hg hid (hg.hosts hf hid) template _).imp ?_ fun _ _ h ↦ h
  exact fun _ _ h ↦ h.andThen (shrink (h.governs hg) hid _)

/-! ## Deriving and notifying -/

theorem recompute (hv : Confined visit) (hg : region.Governs tree) {id : FieldId}
    (hid : region.visited id) : (recompute visit id).Stays region tree := by
  unfold Stays
  rw [meets_recompute]
  refine ⟨fun field _ ↦ ⟨fun source condition _ _ _ ↦ ?_, fun source _ _ _ _ ↦ ?_, fun _ ↦ .refl⟩,
    fun _ ↦ .refl⟩
  · exact .single (.setActive hid _)
  · exact hv.resize hg hid _

theorem spread (hv : Confined visit) (hg : region.Governs tree) {ids : List FieldId}
    (hids : ∀ id ∈ ids, region.within id) : (spread visit ids).Stays region tree := by
  induction ids generalizing tree with
  | nil => exact ReflTransGen.refl
  | cons id outer ih =>
      unfold Stays
      rw [meets_spread_cons]
      refine ⟨fun _ ↦ ?_, fun _ ↦ .refl⟩
      have hid := hids id List.mem_cons_self
      refine (hv.forM hg fun d ↦ hg.listeners id d hid).imp ?_ fun _ _ h ↦ h
      exact fun _ _ h ↦ h.andThen
        (ih (h.governs hg) fun x hx ↦ hids x (List.mem_cons_of_mem id hx))

theorem propagate (hv : Confined visit) (hg : region.Governs tree) {id : FieldId}
    (hid : region.within id) : (propagate visit (.field id)).Stays region tree := by
  unfold Stays
  rw [meets_propagate_field]
  refine hv.spread hg fun x hx ↦ ?_
  have hreach := reflTransGen_of_mem_chain hx
  clear hx
  induction hreach with
  | refl => exact hid
  | tail _ hc ih => exact hg.container _ _ ih hc

theorem notify (fuel : Nat) :
    ∀ (refresh : Bool) (path : List FieldId), Confined (notify fuel refresh path) := by
  induction fuel with
  | zero => exact fun _ _ _ _ _ _ _ ↦ ReflTransGen.refl
  | succ fuel ih =>
      intro refresh path region tree id hg hid
      unfold Stays
      rw [meets_notify_succ]
      refine ⟨fun field _ ↦ ⟨fun _ _ ↦ .refl, fun _ ↦ ?_⟩, fun _ ↦ .refl⟩
      refine (recompute (ih false []) hg hid).imp ?_ fun _ _ h ↦ h
      intro _ after hlead
      have hrest : ∀ last, region.Leads tree last →
          (LightTree.propagate (LightTree.notify fuel refresh (id :: path)) (.field id)).Meets last
            (fun _ ↦ region.Leads tree) fun _ ↦ region.Leads tree := fun last hlast ↦
        hlast.andThen (propagate (ih refresh (id :: path)) (hlast.governs hg)
          (hg.visited_within id hid))
      split
      · exact hrest _ (hlead.tail .refresh)
      · exact hrest _ hlead

theorem enter (refresh : Bool) : Confined (enter refresh) := by
  intro region tree id hg hid
  unfold Stays
  rw [LightTree.enter, meets_bind, meets_get]
  exact notify _ refresh [] region tree id hg hid

end Confined

end LightTree
