import LightTree.Proofs.Blueprints
import LightTree.Proofs.Hierarchy
import LightTree.Proofs.Naming

/-!
# Nodes are created as their kinds describe them

Attaching a required child runs cascades in the unfinished node. They stay within what is new and
leave what has been built so far as it is, so the next child finds room and is never rejected, and
nothing that was there before changes.
-/

namespace LightTree

open Relation Edit

/-! ## Faults of checks -/

namespace FieldDecl

variable {fault : Fault}

theorem rejectsChild_of_checkSource {scope : List String} {decl : FieldDecl}
    (h : checkSource scope decl = .error fault) : fault.rejectsChild = false := by
  unfold checkSource at h
  split at h
  · split at h
    · cases h
    · cases h
      rfl
  · cases h

mutual

theorem rejectsChild_of_check {outer declared : List String} :
    ∀ {decl : FieldDecl}, check outer declared decl = .error fault → fault.rejectsChild = false
  | .scalar _ _, h => by
    rw [check] at h
    cases h
  | .choice name options, h => by
    rw [check] at h
    split at h
    · cases h
      rfl
    · cases h
  | .list name rule element, h => by
    rw [check] at h
    cases hs : checkSource (outer ++ declared) (.list name rule element) with
    | error cause =>
        rw [hs] at h
        cases h
        exact rejectsChild_of_checkSource hs
    | ok _ =>
        rw [hs] at h
        exact rejectsChild_of_checkGroup h
  | .gated name source condition inner, h => by
    rw [check] at h
    cases hs : checkSource (outer ++ declared) (.gated name source condition inner) with
    | error cause =>
        rw [hs] at h
        cases h
        exact rejectsChild_of_checkSource hs
    | ok _ =>
        rw [hs] at h
        exact rejectsChild_of_check h

theorem rejectsChild_of_checkGroup {outer declared : List String} :
    ∀ {group : List FieldDecl}, checkGroup outer declared group = .error fault →
      fault.rejectsChild = false
  | [], h => by
    rw [checkGroup] at h
    cases h
  | decl :: rest, h => by
    rw [checkGroup] at h
    by_cases hd : decl.name ∈ declared
    · simp only [hd, if_true] at h
      cases h
      rfl
    · simp only [hd, if_false] at h
      cases hc : check outer declared decl with
      | error cause =>
          rw [hc] at h
          cases h
          exact rejectsChild_of_check hc
      | ok _ =>
          rw [hc] at h
          exact rejectsChild_of_checkGroup h

end

end FieldDecl

theorem NodeKind.rejectsChild_of_checkBounds {kind : NodeKind} {fault : Fault}
    (h : kind.checkBounds = .error fault) : fault.rejectsChild = false := by
  unfold checkBounds at h
  split at h
  · split at h
    · cases h
    · cases h
      rfl
  · cases h

theorem NodeKind.rejectsChild_of_check {kind : NodeKind} {fault : Fault}
    (h : kind.check = .error fault) : fault.rejectsChild = false := by
  rw [NodeKind.check] at h
  cases hbounds : kind.checkBounds with
  | error cause =>
      rw [hbounds] at h
      cases h
      exact rejectsChild_of_checkBounds hbounds
  | ok _ =>
      rw [hbounds] at h
      by_cases hmatch : ((kind.maxChildren == some 0) != (kind.childCategory == .nothing)) = true
      · simp only [hmatch] at h
        cases h
        rfl
      · by_cases hcategory : (kind.category == .nothing) = true
        · simp only [hmatch, hcategory] at h
          cases h
          rfl
        · simp only [hmatch, hcategory] at h
          exact FieldDecl.rejectsChild_of_checkGroup h

/-- A kind allows the children that it requires. -/
theorem NodeKind.minChildren_le_of_check {kind : NodeKind} (hcheck : kind.check = .ok ())
    {most : Nat} (hmost : kind.maxChildren = some most) : kind.minChildren ≤ most := by
  obtain ⟨hbounds, -, -, -⟩ := NodeKind.of_check hcheck
  rw [NodeKind.checkBounds, hmost] at hbounds
  simp only at hbounds
  split at hbounds
  · assumption
  · cases hbounds

/-! ## Building fields -/

/-- Makes, out of what is new, a field of a node as it is declared. -/
def Edit.Supplies (edit : Edit FieldId) (base : Tree) (node : NodeId) (decl : FieldDecl)
    (tree : Tree) : Prop :=
  edit.Meets tree (fun x after ↦ base.Reared tree after ∧ base.Later (.field x) ∧
      after.Seated (node, none) x ∧ after.Fresh node decl x)
    fun fault after ↦ fault.rejectsChild = false ∧ base.Reared tree after

namespace Tree

variable {base tree mid after : Tree} {node id child : NodeId} {kind childKind : NodeKind}

theorem plant_reared (hfenced : base.Fenced tree) (htidy : tree.Tidy)
    (hnode : base.Later (.children node)) (decl : FieldDecl) {value : Value}
    (hparts : ∀ c ∈ value.parts, base.Later (.field c) ∧ tree.Seated
      (Field.shelter tree.nextField { name := decl.name, owner := node, value }) c) :
    (plant (enter false) node [] none decl value).Meets tree
      (fun x after ↦ base.Reared tree after ∧ base.Later (.field x) ∧
        after.Seated (node, none) x ∧ after.Shows node decl.name (·.settled = value.settled) x)
      fun fault after ↦ fault.rejectsChild = false ∧ base.Reared tree after := by
  set field : Field := { name := decl.name, owner := node, value } with hfield
  have hold := Outlasts.insertField tree field
  have hnew : base.Reared (tree.insertField field) (tree.insertField field) :=
    ⟨hfenced.insertField rfl rfl (fun c hc ↦ (hparts c hc).1) nofun hnode,
      htidy.insertField rfl rfl nofun fun c hc ↦ (hparts c hc).2, .refl _⟩
  have hkeep := upkeep_reared base (tree.insertField field)
  refine (hkeep.wire (hkeep.enter false) hnew hfenced.fields_size hnode
    fun x hx ↦ absurd hx List.not_mem_nil).imp ?_ ?_
  · rintro x after ⟨rfl, hafter, habides⟩
    obtain ⟨new, hn, hcore⟩ := hafter.outlasts.field tree.nextField field
      (tree.field?_insertField_self field) rfl
    refine ⟨⟨hafter.fenced, hafter.tidy, hold.trans hafter.outlasts⟩, hfenced.fields_size,
      (seated_insertField tree field).abides habides, new, hn, ?_⟩
    exact ⟨congrArg Field.name hcore, congrArg Field.owner hcore, congrArg Field.container hcore,
      congrArg Field.value hcore⟩
  · exact fun fault after ⟨hfault, ha⟩ ↦
      ⟨hfault, ha.fenced, ha.tidy, hold.trans ha.outlasts⟩

/-- A field that owns nothing yet. -/
theorem plant_supplies (hfenced : base.Fenced tree) (htidy : tree.Tidy)
    (hnode : base.Later (.children node)) (decl : FieldDecl) {value : Value}
    (hparts : value.parts = []) (hfresh : ∀ {after : Tree} {x : FieldId},
      after.Shows node decl.name (·.settled = value.settled) x → after.Fresh node decl x) :
    (plant (enter false) node [] none decl value).Supplies base node decl tree :=
  (plant_reared hfenced htidy hnode decl fun _ hc ↦
    absurd hc (hparts ▸ List.not_mem_nil)).imp
    (fun _ _ ⟨hreared, hlater, hseat, hshows⟩ ↦ ⟨hreared, hlater, hseat, hfresh hshows⟩)
    fun _ _ ha ↦ ha

theorem instantiate_supplies (hnode : base.Later (.children node)) :
    ∀ (decl : FieldDecl) {tree : Tree}, base.Fenced tree → tree.Tidy →
      (instantiate (enter false) node [] none decl).Supplies base node decl tree
  | .scalar _ _, _, hfenced, htidy =>
    plant_supplies hfenced htidy hnode _ rfl fun h ↦ h.imp fun _ hv ↦ Value.eq_of_settled hv nofun
  | .choice name options, _, hfenced, htidy => by
    unfold Supplies
    rw [meets_instantiate_choice]
    refine ⟨fun _ ↦ ⟨rfl, hfenced, htidy, .refl _⟩, fun hoptions ↦ ?_⟩
    exact plant_supplies hfenced htidy hnode _ rfl fun h ↦
      h.imp fun _ hv ↦ ⟨hoptions, Value.eq_of_settled hv nofun⟩
  | .list name rule element, _, hfenced, htidy =>
    plant_supplies hfenced htidy hnode _ rfl fun h ↦ h.imp fun value hv ↦ by
      by_cases hrule : rule = .free
      · subst hrule
        exact ⟨[], Value.eq_of_settled hv nofun, fun _ ↦ rfl⟩
      · rw [bne_iff_ne.2 hrule] at hv ⊢
        obtain ⟨elements, helements⟩ := Value.exists_of_settled hv
        exact ⟨elements, helements, fun hf ↦ absurd hf hrule⟩
  | .gated name source condition inner, tree, hfenced, htidy => by
    unfold Supplies
    rw [meets_instantiate_gated]
    refine (instantiate_supplies hnode inner hfenced htidy).imp ?_ fun _ _ ha ↦ ha
    rintro part mid ⟨hmid, hlater, hseat, hpart⟩
    refine (plant_reared hmid.fenced hmid.tidy hnode _ fun c hc ↦ ?_).imp ?_ ?_
    · rw [List.mem_singleton.1 hc]
      exact ⟨hlater, hseat⟩
    · rintro x after ⟨hafter, hx, hxseat, hshows⟩
      refine ⟨⟨hafter.fenced, hafter.tidy, hmid.outlasts.trans hafter.outlasts⟩, hx, hxseat, ?_⟩
      exact hshows.imp fun _ hv ↦
        ⟨part, Value.eq_of_settled hv nofun, hpart.outlast hafter.outlasts.field⟩
    · exact fun fault after ⟨hfault, ha⟩ ↦
        ⟨hfault, ha.fenced, ha.tidy, hmid.outlasts.trans ha.outlasts⟩

/-! ## Nodes under way -/

/-- A node without a parent that is being built out of what is new. So far it has the fields of some
declarations and some children of one kind. -/
structure Underway (base : Tree) (id : NodeId) (kind : NodeKind) (decls : List FieldDecl)
    (childKind : NodeKind) (count : Nat) (tree : Tree) : Prop where
  fenced : base.Fenced tree
  tidy : tree.Tidy
  later : base.Later (.children id)
  catalog : tree.catalog = base.catalog
  root : tree.root = base.root
  root_known : tree.Known tree.root
  node : ∃ node, tree.node? id = some node ∧ node.kind = kind ∧ node.parent = none ∧
    List.Forall₂ (tree.Fresh id) decls node.fields ∧ node.children.length = count ∧
    ∀ child ∈ node.children, tree.Built childKind (some id) child

/-- What a failure to build leaves behind: it has not been a child that was rejected. -/
def Aborted (base : Tree) (fault : Fault) (after : Tree) : Prop :=
  fault.rejectsChild = false ∧ base.Fenced after ∧ after.Tidy

namespace Underway

variable {decls : List FieldDecl} {count : Nat}

theorem aborted (h : base.Underway id kind decls childKind count tree) {fault : Fault}
    (hfault : fault.rejectsChild = false) : base.Aborted fault tree :=
  ⟨hfault, h.fenced, h.tidy⟩

theorem live (h : base.Underway id kind decls childKind count tree) : tree.LiveNode id := by
  obtain ⟨node, hn, _⟩ := h.node
  exact liveNode_of_some hn

theorem parentless (h : base.Underway id kind decls childKind count tree) :
    tree.parent? id = none := by
  obtain ⟨node, hn, _, hparent, _⟩ := h.node
  rw [parent?, hn, Option.bind_some, hparent]

theorem of_outlasts (h : base.Underway id kind decls childKind count tree)
    (hfenced : base.Fenced after) (htidy : after.Tidy) (ho : tree.Outlasts after)
    (hcatalog : after.catalog = tree.catalog) (hroot : after.root = tree.root)
    (hsize : tree.nodes.size ≤ after.nodes.size) :
    base.Underway id kind decls childKind count after where
  fenced := hfenced
  tidy := htidy
  later := h.later
  catalog := hcatalog.trans h.catalog
  root := hroot.trans h.root
  root_known := hroot ▸ Nat.lt_of_lt_of_le h.root_known hsize
  node := by
    obtain ⟨node, hn, hkind, hparent, hfields, hcount, hchildren⟩ := h.node
    obtain ⟨new, hnew, hbare⟩ := ho.node id node hn
    have hsame : new.children = node.children := congrArg (·.children) hbare
    refine ⟨new, hnew, (congrArg (·.kind) hbare).trans hkind,
      (congrArg (·.parent) hbare).trans hparent, ?_, hsame ▸ hcount,
      fun child hc ↦ (hchildren child (hsame ▸ hc)).outlast hcatalog ho⟩
    rw [show new.fields = node.fields from congrArg (·.fields) hbare]
    exact hfields.imp fun _ _ hx ↦ hx.outlast ho.field

/-- Cascades leave what has been built as it is. -/
theorem of_reared (h : base.Underway id kind decls childKind count tree)
    (hr : base.Reared tree after) (hs : tree.SameNodes after) :
    base.Underway id kind decls childKind count after :=
  h.of_outlasts hr.fenced hr.tidy hr.outlasts hs.catalog hs.root hs.nodes_size.ge

theorem addTop (h : base.Underway id kind decls childKind count tree) {x : FieldId}
    (hx : base.Later (.field x)) (hseat : tree.Seated (id, none) x) {decl : FieldDecl}
    (hfresh : tree.Fresh id decl x) :
    base.Underway id kind (decls ++ [decl]) childKind count (tree.addTop id x) where
  fenced := h.fenced.addTop h.later hx
  tidy := h.tidy.addTop h.live hseat
  later := h.later
  catalog := h.catalog
  root := h.root
  root_known := Nat.lt_of_lt_of_eq h.root_known (size_updateNode tree id _).symm
  node := by
    obtain ⟨node, hn, hkind, hparent, hfields, hcount, hchildren⟩ := h.node
    refine ⟨{ node with fields := node.fields ++ [x] }, ?_, hkind, hparent, ?_, hcount,
      fun child hc ↦ (hchildren child hc).updateNode h.parentless⟩
    · rw [Tree.addTop, node?_updateNode, if_pos rfl, hn]
      rfl
    · have hkept : tree.FieldsOutlast (tree.addTop id x) := .of_field? rfl
      exact List.rel_append (hfields.imp fun _ _ hy ↦ hy.outlast hkept)
        (.cons (hfresh.outlast hkept) .nil)

theorem furnish (decls : List FieldDecl) {done : List FieldDecl}
    (h : base.Underway id kind done childKind count tree) :
    (furnish id decls).Meets tree
      (fun _ ↦ base.Underway id kind (done ++ decls) childKind count) base.Aborted := by
  induction decls generalizing done tree with
  | nil =>
      rw [List.append_nil]
      exact h
  | cons decl rest ih =>
      rw [meets_furnish_cons]
      refine ((instantiate_supplies h.later decl h.fenced h.tidy).and
        (harmless_sameNodes.instantiate (harmless_sameNodes.enter false) [] none decl tree)).imp
        ?_ fun _ _ ha ↦ ⟨ha.1.1, ha.1.2.fenced, ha.1.2.tidy⟩
      rintro x mid ⟨⟨hmid, hx, hseat, hfresh⟩, hsame⟩
      rw [List.append_cons]
      exact ih ((h.of_reared hmid hsame).addTop hx hseat hfresh)

/-! ### Attaching required children -/

theorem adopt (h : base.Underway id kind decls childKind count tree)
    (hlater : base.Later (.children child)) (hne : child ≠ id)
    (hchild : tree.Built childKind none child) :
    base.Underway id kind decls childKind (count + 1) (tree.adopt id child) where
  fenced := h.fenced.adopt h.later hlater
  tidy := h.tidy.adopt id child
  later := h.later
  catalog := h.catalog
  root := h.root
  root_known := by
    refine Nat.lt_of_lt_of_eq h.root_known ?_
    rw [Tree.adopt, size_updateNode, size_updateNode]
  node := by
    obtain ⟨node, hn, hkind, hparent, hfields, hcount, hchildren⟩ := h.node
    have hkept : tree.FieldsOutlast (tree.adopt id child) := .of_field? rfl
    refine ⟨{ node with children := node.children ++ [child] }, ?_, hkind, hparent,
      hfields.imp fun _ _ hx ↦ hx.outlast hkept, ?_, fun c hc ↦ ?_⟩
    · rw [Tree.adopt, node?_updateNode, if_neg hne, node?_updateNode, if_pos rfl, hn]
      rfl
    · rw [List.length_append, hcount]
      rfl
    · rcases List.mem_append.1 hc with hc | hc
      · exact (hchildren c hc).adopt h.parentless hchild.parent?_eq
      · rw [List.mem_singleton.1 hc]
        exact hchild.adopted h.parentless hchild.parent?_eq hne

/-- A required child finds room. -/
theorem canAttach (h : base.Underway id kind decls childKind count tree)
    (hcheck : kind.check = .ok ()) (hcount : count < kind.minChildren)
    (hcategory : childKind.category = kind.childCategory) (hsome : kind.childCategory ≠ .nothing)
    (hne : child ≠ id) (hroot : child ≠ tree.root) (hchild : tree.Built childKind none child) :
    tree.canAttach id child = true := by
  have habove : tree.isAncestor child id = false := by
    rw [isAncestor, lineage, chain_of_none h.parentless]
    simpa using hne
  obtain ⟨target, ht, hkind, -, -, hlength, -⟩ := h.node
  cases hchild with
  | intro item grandKind found kind_eq parent_eq =>
      have hroom : target.isFull = false := by
        rw [Node.isFull, hkind]
        cases hmost : kind.maxChildren with
        | none => rfl
        | some most =>
            have hle := NodeKind.minChildren_le_of_check hcheck hmost
            exact decide_eq_false (by omega)
      have haccepts : target.accepts item.kind.category = true := by
        rw [Node.accepts, hroom, kind_eq, hkind, hcategory]
        simpa using hsome
      simp [Tree.canAttach, ht, found, parent_eq, hroot, habove, haccepts]

/-- A required child is attached, and the cascade that this begins leaves everything as it is. -/
theorem attach (h : base.Underway id kind decls childKind count tree)
    (hcheck : kind.check = .ok ()) (hcount : count < kind.minChildren)
    (hcategory : childKind.category = kind.childCategory) (hsome : kind.childCategory ≠ .nothing)
    (hlater : base.Later (.children child)) (hne : child ≠ id) (hroot : child ≠ tree.root)
    (hchild : tree.Built childKind none child) :
    (attach id child false).Meets tree
      (fun outcome after ↦ outcome = .applied ∧
        base.Underway id kind decls childKind (count + 1) after) base.Aborted := by
  rw [meets_attach]
  have hcan := h.canAttach hcheck hcount hcategory hsome hne hroot hchild
  refine ⟨fun hnot ↦ absurd (hcan.symm.trans hnot).symm Bool.false_ne_true, fun _ ↦
    ⟨fun fault hf ↦ ?_, fun _ ↦ ?_⟩⟩
  · exact h.aborted (Fault.rejectsChild_of_stopsCascade (stopsCascade_of_rehearse hf))
  have hadopted := h.adopt hlater hne hchild
  have hreared : base.Reared (tree.adopt id child) (tree.adopt id child) :=
    ⟨hadopted.fenced, hadopted.tidy, .refl _⟩
  have hsource : base.Later (.children id) := h.later
  exact (((upkeep_reared base (tree.adopt id child)).settleQuietly hreared hsource).and
    (harmless_sameNodes.toQuiet.settleQuietly (.children id) (tree.adopt id child))).imp
    (fun _ _ ha ↦ ⟨rfl, hadopted.of_reared ha.1 ha.2⟩)
    fun _ _ ha ↦ ⟨ha.1.1, ha.1.2.fenced, ha.1.2.tidy⟩

end Underway

/-! ## Creating -/

/-- A node that was created out of what is new, as its kind describes it and without a parent. -/
structure Created (tree : Tree) (kind : NodeKind) (id : NodeId) (after : Tree) : Prop where
  fenced : tree.Fenced after
  tidy : after.Tidy
  later : tree.Later (.children id)
  catalog : after.catalog = tree.catalog
  root : after.root = tree.root
  built : after.Built kind none id

/-- Makes nodes as their kinds describe them. -/
def Rears (make : NodeKind → Edit NodeId) : Prop :=
  ∀ kind tree, tree.Tidy → tree.Known tree.root →
    (make kind).Meets tree (tree.Created kind) tree.Aborted

namespace Rears

variable {make : NodeKind → Edit NodeId} {count : Nat}

theorem populateOne (hmake : Rears make)
    (h : base.Underway id kind kind.fields childKind count tree) (hcheck : kind.check = .ok ())
    (hcount : count < kind.minChildren) (hcategory : childKind.category = kind.childCategory)
    (hsome : kind.childCategory ≠ .nothing) :
    (populateOne make id kind childKind).Meets tree
      (fun _ ↦ base.Underway id kind kind.fields childKind (count + 1)) base.Aborted := by
  rw [meets_populateOne]
  refine (hmake childKind tree h.tidy h.root_known).imp (fun child mid hmid ↦ ?_)
    fun _ _ ⟨hfault, hf, ht⟩ ↦ ⟨hfault, h.fenced.trans hf, ht⟩
  have hunder := h.of_outlasts (h.fenced.trans hmid.fenced) hmid.tidy
    (.of_untouched hmid.fenced.toUntouched) hmid.catalog hmid.root hmid.fenced.nodes_size
  have hlater := h.fenced.toUntouched.later hmid.later
  have hne : child ≠ id := hmid.later.node_ne_of_lt h.live.lt_size
  have hroot : child ≠ mid.root := hmid.root ▸ hmid.later.node_ne_of_lt h.root_known
  refine (hunder.attach hcheck hcount hcategory hsome hlater hne hroot hmid.built).imp ?_ ?_
  · rintro outcome after ⟨rfl, hafter⟩
    exact ⟨nofun, fun _ ↦ hafter⟩
  · rintro fault after ⟨hfault, hf, ht⟩
    exact ⟨hfault, hf.releaseNode hlater, ht.releaseNode child⟩

theorem populate (hmake : Rears make) (hcheck : kind.check = .ok ())
    (hsome : kind.childCategory ≠ .nothing) {childKind? : Option NodeKind}
    (hchildKind : childKind? = base.catalog.first? kind.childCategory) {rest : Nat}
    (h : base.Underway id kind kind.fields (childKind?.getD kind) count tree)
    (hcount : count + rest = kind.minChildren) :
    (populate make id kind childKind? rest).Meets tree
      (fun _ after ↦
        base.Underway id kind kind.fields (childKind?.getD kind) kind.minChildren after ∧
          (0 < rest → childKind?.isSome)) base.Aborted := by
  induction rest generalizing count tree with
  | zero => exact ⟨hcount ▸ h, fun hpos ↦ absurd hpos (Nat.lt_irrefl 0)⟩
  | succ rest ih =>
      rw [meets_populate_succ]
      refine ⟨fun _ ↦ h.aborted rfl, ?_⟩
      rintro childKind rfl
      have hcategory : childKind.category = kind.childCategory := by
        simpa using List.find?_some hchildKind.symm
      have hnext : count + 1 + rest = kind.minChildren := by omega
      refine (hmake.populateOne h hcheck (by omega) hcategory hsome).imp (fun _ mid hmid ↦ ?_)
        fun _ _ ha ↦ ha
      exact (ih hmid hnext).imp (fun _ _ ha ↦ ⟨ha.1, fun _ ↦ rfl⟩) fun _ _ ha ↦ ha

/-- A new node is filled as its kind describes it. -/
theorem build (hmake : Rears make) (hcheck : kind.check = .ok ())
    (h : ∀ childKind, base.Underway id kind [] childKind 0 tree) :
    (build make id kind).Meets tree
      (fun _ after ↦ base.Created kind id after) base.Aborted := by
  rw [meets_build]
  set childKind? := base.catalog.first? kind.childCategory with hchildKind
  refine (Underway.furnish kind.fields (h (childKind?.getD kind))).imp (fun _ mid hmid ↦ ?_)
    fun _ _ ha ↦ ha
  rw [List.nil_append] at hmid
  have hcreated : ∀ {after : Tree},
      base.Underway id kind kind.fields (childKind?.getD kind) kind.minChildren after →
      (0 < kind.minChildren → childKind?.isSome) → base.Created kind id after := by
    intro after ha hpos
    refine ⟨ha.fenced, ha.tidy, ha.later, ha.catalog, ha.root, ?_⟩
    obtain ⟨node, hn, hkind, hparent, hfields, hcount, hchildren⟩ := ha.node
    refine .intro node _ hn hkind hparent hfields hcount (fun hp ↦ ?_) hchildren
    obtain ⟨found, hfound⟩ := Option.isSome_iff_exists.1 (hpos hp)
    rw [ha.catalog, ← hchildKind, hfound]
    rfl
  refine ⟨fun hsome ↦ ?_, fun hnothing ↦ ?_⟩
  · rw [hmid.catalog, ← hchildKind]
    exact (hmake.populate hcheck hsome hchildKind hmid (Nat.zero_add _)).imp
      (fun _ _ ha ↦ hcreated ha.1 ha.2) fun _ _ ha ↦ ha
  · have hzero := NodeKind.minChildren_of_check hcheck hnothing
    refine hcreated (hzero ▸ hmid) fun hpos ↦ ?_
    exact absurd hpos (hzero ▸ Nat.lt_irrefl 0)

end Rears

/-- A node that has just been inserted is under way. -/
theorem Tidy.underway (h : tree.Tidy) (hroot : (tree.insertNode { kind }).Known tree.root)
    (childKind : NodeKind) :
    tree.Underway tree.nextNode kind [] childKind 0 (tree.insertNode { kind }) where
  fenced := (Fenced.refl tree).insertNode kind
  tidy := h.insertNode kind
  later := Nat.le_refl _
  catalog := rfl
  root := rfl
  root_known := hroot
  node := ⟨{ kind }, tree.node?_insertNode_self _, rfl, rfl, .nil, rfl, fun _ hc ↦
    absurd hc List.not_mem_nil⟩

theorem createWithin_rears (depth : Nat) : Rears (createWithin depth) := by
  induction depth with
  | zero => exact fun _ tree h _ ↦ ⟨rfl, .refl tree, h⟩
  | succ depth ih =>
      intro kind tree h hroot
      rw [meets_createWithin_succ]
      refine ⟨fun fault hf ↦ ⟨NodeKind.rejectsChild_of_check hf, .refl tree, h⟩, fun hcheck ↦ ?_⟩
      have hknown : (tree.insertNode { kind }).Known tree.root := by
        refine Nat.lt_of_lt_of_le hroot ?_
        rw [size_insertNode]
        exact Nat.le_succ _
      refine (ih.build hcheck (h.underway hknown)).imp (fun _ _ ha ↦ ha) ?_
      rintro fault after ⟨hfault, hf, ht⟩
      exact ⟨hfault, hf.releaseNode (Nat.le_refl _), ht.releaseNode _⟩

theorem create_rears : Rears create :=
  createWithin_rears 5

/-! ## Histories -/

theorem lasting_nodes_size : Lasting fun tree after ↦ tree.nodes.size ≤ after.nodes.size where
  refl _ := Nat.le_refl _
  trans := Nat.le_trans
  insertField _ _ _ := Nat.le_refl _
  relink tree dependent source := (SameNodes.relink tree dependent source).nodes_size.ge
  setActive _ _ _ _ := Nat.le_refl _
  push _ _ _ := Nat.le_refl _
  drop tree id f group := (SameNodes.drop tree id f group).nodes_size.ge
  refresh _ := Nat.le_refl _
  addTop tree node _ := (size_updateNode tree node _).ge
  setValue _ _ _ _ _ _ _ := Nat.le_refl _
  insertNode tree _ := (Nat.le_succ _).trans_eq (size_insertNode tree _).symm
  adopt tree parent child := by rw [Tree.adopt, size_updateNode, size_updateNode]
  disown tree parent _ := (size_updateNode tree parent _).ge
  supplant tree parent old new := by rw [Tree.supplant, size_updateNode, size_updateNode]
  releaseNode tree id := (releaseNode_shrinks tree id).nodes_size.ge

/-- What is newer than a tree has not been alive in any of the trees that led to it. -/
theorem not_liveNode_of_later {operations done : List Operation} (hdone : done <+: operations)
    (h : (tree.run operations).2.Later (.children id)) : ¬(tree.run done).2.LiveNode id := by
  obtain ⟨rest, rfl⟩ := hdone
  rw [run_append] at h
  have hsize := lasting_nodes_size.run (tree.run done).2 rest
  exact fun hl ↦ Nat.not_lt_of_le (hsize.trans h) hl.lt_size

theorem Forest.root_known (h : tree.Forest) : tree.Known tree.root :=
  h.root_live.known

theorem create_keeps_tidy (kind : NodeKind) (h : tree.Tidy) (hf : tree.Forest) :
    (create kind).Meets tree (fun _ ↦ Tidy) fun _ ↦ Tidy :=
  (create_rears kind tree h hf.root_known).imp (fun _ _ ha ↦ ha.tidy) fun _ _ ha ↦ ha.2.2

theorem retype_keeps_tidy (node : NodeId) (symbol : String) (h : tree.Tidy) (hf : tree.Forest) :
    (retype node symbol).Meets tree (fun _ ↦ Tidy) fun _ ↦ Tidy := by
  refine meets_retype h fun _ parent kind _ _ _ ↦ ⟨fun _ _ ↦ h, fun _ ↦ ?_⟩
  refine (create_keeps_tidy kind h hf).imp (fun new mid hmid ↦ ⟨fun _ ↦ ?_, fun _ ↦ ?_⟩)
    fun _ _ ha ↦ ha
  · exact hmid.releaseNode new
  · exact childrenChanged_keeps_tidy parent true _ ((hmid.supplant parent node new).releaseNode node)

theorem invariant_tidy : Invariant (fun tree ↦ tree.Tidy ∧ tree.Forest)
    (fun _ tree ↦ tree.Tidy ∧ tree.Forest) fun _ ↦ True where
  catalog _ _ _ _ := trivial
  create kind _ tree h := (create_keeps_tidy kind h.1 h.2).and (create_keeps_forest kind tree h.2)
  addChild parent child tree h :=
    (addChild_keeps_tidy parent child tree h.1).and (addChild_keeps_forest parent child tree h.2)
  removeChild parent child tree h := (removeChild_keeps_tidy parent child tree h.1).and
    (removeChild_keeps_forest parent child tree h.2)
  retype node symbol tree h :=
    (retype_keeps_tidy node symbol h.1 h.2).and (retype_keeps_forest node symbol tree h.2)
  mutate field change hchange tree h := (mutate_keeps_tidy field hchange tree h.1).and
    (invariant_forest.mutate field change hchange tree h.2)
  appendElement field tree h :=
    (appendElement_keeps_tidy field tree h.1).and (invariant_forest.appendElement field tree h.2)
  removeElement field index tree h := (removeElement_keeps_tidy field index tree h.1).and
    (invariant_forest.removeElement field index tree h.2)

theorem Tidy.perform (h : tree.Tidy) (hf : tree.Forest) (operation : Operation) :
    (tree.perform operation).2.Tidy := by
  have hboth : (tree.perform operation).2.Tidy ∧ (tree.perform operation).2.Forest := by
    refine meets_const_iff.1 (invariant_tidy.operation ⟨h, hf⟩ operation (fun _ _ ↦ trivial) ?_)
    intro dependent source _
    exact (rebind_keeps_tidy dependent source tree h).and
      (keeps_forest_of_retains ((steady_retains _).rebind dependent source) tree hf)
  exact hboth.1

theorem Tidy.run (h : tree.Tidy) (hf : tree.Forest) (operations : List Operation) :
    (tree.run operations).2.Tidy := by
  induction operations generalizing tree with
  | nil => exact h
  | cons operation rest ih => exact ih (h.perform hf operation) (hf.perform operation)

theorem tidy_empty (catalog : Catalog) (settings : Settings) :
    ({ catalog, settings } : Tree).Tidy := by
  have hdead : ∀ x, ¬({ catalog, settings } : Tree).Live x := fun x hl ↦
    absurd (field?_empty catalog settings x) (Option.isSome_iff_ne_none.1 hl)
  have hgone : ∀ n, ¬({ catalog, settings } : Tree).LiveNode n := fun n hl ↦
    absurd (node?_empty catalog settings n) (Option.isSome_iff_ne_none.1 hl)
  refine ⟨fun a b hab ↦ absurd (live_of_inner?_eq_some hab) (hdead a),
    fun a b hab ↦ absurd (live_of_container?_eq_some hab) (hdead a), ⟨fun x _ ↦ ?_,
    fun x d _ hd ↦ absurd (live_of_mem_listeners hd) (hdead x), fun n ↦ ?_, fun n d hd ↦ ?_⟩,
    fun p x _ _ hx ↦ absurd (live_of_mem_parts hx) (hdead p),
    fun n x hx ↦ absurd (liveNode_of_mem_topFields hx) (hgone n)⟩
  · rw [listeners, field?_empty]
    exact List.nodup_nil
  · rw [nodeListeners, readNode, node?_empty]
    exact List.nodup_nil
  · exact absurd (liveNode_of_readNode_ne (List.ne_nil_of_mem hd)) (hgone n)

theorem tidy_start {catalog : Catalog} {settings : Settings}
    (h : start catalog settings = .ok tree) : tree.Tidy := by
  refine of_start ?_ h
  have hknown : (({ catalog, settings } : Tree).insertNode { kind := catalog.root }).Known ⟨0⟩ :=
    Nat.zero_lt_one
  have hcheck := catalog.check_of_mem catalog.root_mem
  exact (create_rears.build hcheck ((tidy_empty catalog settings).underway hknown)).imp
    (fun _ _ ha ↦ ha.tidy) fun _ _ _ ↦ trivial

/-- After any history, with any faults and rebinds in it, a new node is as its kind describes it:
it has not been handed out before and has no parent, its fields are those that the kind declares, in
order and with their first values, and it has the children that the kind requires, which are like
that themselves. Whatever the answer is, nothing that was alive changes and the view is not
refreshed, and no required child is ever rejected. -/
theorem created_run {catalog : Catalog} {settings : Settings} {tree : Tree}
    (hstart : start catalog settings = .ok tree) (operations : List Operation) {final : Tree}
    (hfinal : (tree.run operations).2 = final) (kind : NodeKind) {answer : Except Fault Answer}
    {after : Tree} (hafter : final.perform (.create kind) = (answer, after)) :
    (∀ id, answer = .ok (.created id) →
      (¬final.Known id ∧ ∀ done, done <+: operations → ¬(tree.run done).2.LiveNode id) ∧
        after.isDetached id = true ∧ after.Built kind none id) ∧
      ((∀ id node, final.node? id = some node → after.node? id = some node) ∧
        (∀ id field, final.field? id = some field → after.field? id = some field) ∧
        after.refreshes = final.refreshes) ∧
      ∀ parent child, answer ≠ .error (.schema (.childRejected parent child)) := by
  have hforest : final.Forest := hfinal ▸ (forest_start hstart).run operations
  have htidy : final.Tidy := hfinal ▸ (tidy_start hstart).run (forest_start hstart) operations
  have huntouched : ∀ {after : Tree}, final.Untouched after → after.refreshes = final.refreshes →
      (∀ id node, final.node? id = some node → after.node? id = some node) ∧
        (∀ id field, final.field? id = some field → after.field? id = some field) ∧
        after.refreshes = final.refreshes := fun hu hr ↦
    ⟨fun id node hn ↦ (hu.node id (liveNode_of_some hn).lt_size).trans hn,
      fun id field hf ↦ (hu.field id (live_of_some hf).lt_size).trans hf, hr⟩
  have hcreate := (create_rears kind final htidy hforest.root_known).and
    (growing_refreshes.create kind final)
  rw [perform, Operation.edit, runOn_bind] at hafter
  unfold Meets at hcreate
  rcases hr : (create kind).runOn final with ⟨fault | id, made⟩
  · rw [hr] at hcreate hafter
    obtain ⟨rfl, rfl⟩ := Prod.mk.inj hafter
    obtain ⟨⟨hfault, hfenced, -⟩, hrefreshes⟩ := hcreate
    refine ⟨nofun, huntouched hfenced.toUntouched hrefreshes, ?_⟩
    rintro parent child heq
    cases heq
    cases hfault
  · rw [hr] at hcreate hafter
    obtain ⟨rfl, rfl⟩ := Prod.mk.inj hafter
    obtain ⟨hcreated, hrefreshes⟩ := hcreate
    refine ⟨?_, huntouched hcreated.fenced.toUntouched hrefreshes, nofun⟩
    intro _ heq
    cases heq
    refine ⟨⟨Nat.not_lt_of_le hcreated.later, fun done hdone ↦ ?_⟩, ?_, hcreated.built⟩
    · exact not_liveNode_of_later hdone (hfinal ▸ hcreated.later)
    · have hroot : id ≠ made.root :=
        hcreated.root ▸ hcreated.later.node_ne_of_lt hforest.root_known
      cases hcreated.built with
      | intro node childKind found kind_eq parent_eq =>
          simp [isDetached, found, parent_eq, hroot]

/-- A generator is created beside an object. It comes with the object that it requires. -/
theorem created_run_standard :
    let kind := Catalog.standardKinds[2]
    let final := (standardTree.run [.addByCategory ⟨0⟩ .object]).2
    let after := (final.perform (.create kind)).2
    kind.minChildren = 1 ∧ (final.perform (.create kind)).1 = .ok (.created ⟨2⟩) ∧
      after.isDetached ⟨2⟩ = true ∧ after.Built kind none ⟨2⟩ ∧ after.children ⟨2⟩ = [⟨3⟩] ∧
      ∀ node, final.node? ⟨1⟩ = some node → after.node? ⟨1⟩ = some node := by
  intro kind final after
  have hanswer : (final.perform (.create kind)).1 = .ok (.created ⟨2⟩) := by
    decide +kernel
  have hchildren : after.children ⟨2⟩ = [⟨3⟩] := by
    decide +kernel
  obtain ⟨hnew, ⟨hkept, -⟩, -⟩ := created_run start_standard [.addByCategory ⟨0⟩ .object] rfl kind
    Prod.mk.eta.symm
  obtain ⟨-, hdetached, hbuilt⟩ := hnew ⟨2⟩ hanswer
  exact ⟨rfl, hanswer, hdetached, hbuilt, hchildren, hkept ⟨1⟩⟩

end Tree

end LightTree
