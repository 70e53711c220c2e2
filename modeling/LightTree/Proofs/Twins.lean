import LightTree.Proofs.Refusals

/-!
# Trees under other settings

An edit looks at the settings in two places: the guard of a cascade compares its path with the limit
of depth, and a dependent that has been derived anew may refresh the view. So under a limit that is
no lower, an edit that ends with a value ends with the same value in the same tree, and under the
same limit it does so however it ends. How often the view is refreshed may differ.
-/

namespace LightTree

open Edit

namespace Tree

/-- The same tree under other settings, with another count of refreshes. -/
def under (tree : Tree) (settings : Settings) (refreshes : Nat) : Tree :=
  { tree with settings, refreshes }

variable {settings : Settings} {n : Nat}

@[simp] theorem field?_under (tree : Tree) : (tree.under settings n).field? = tree.field? := rfl

@[simp] theorem node?_under (tree : Tree) : (tree.under settings n).node? = tree.node? := rfl

theorem foldl_under {β : Type} {f : Tree → β → Tree}
    (hf : ∀ tree b, f (tree.under settings n) b = (f tree b).under settings n) (list : List β)
    (tree : Tree) : list.foldl f (tree.under settings n) = (list.foldl f tree).under settings n :=
  List.foldl_hom (under · settings n) hf

theorem mapListeners_under (tree : Tree) (f : List FieldId → List FieldId)
    (source : Option Source) :
    (tree.under settings n).mapListeners f source =
      (tree.mapListeners f source).under settings n := by
  rcases source with _ | id | id
  · rfl
  · exact foldl_under (fun _ _ ↦ rfl) (tree.layers id) tree
  · rfl

theorem explore_under (tree : Tree) (fuel : Nat) (seen frontier : List FieldId) :
    (tree.under settings n).explore fuel seen frontier = tree.explore fuel seen frontier := by
  induction fuel generalizing seen frontier with
  | zero => rfl
  | succ fuel ih =>
      rw [explore, explore]
      simp only [ih]
      rfl

@[simp] theorem closesCycle_under (tree : Tree) (dependent : FieldId) (source : Source) :
    (tree.under settings n).closesCycle dependent source =
      tree.closesCycle dependent source := by
  cases source with
  | children id => rfl
  | field id => exact congrArg (·.any (tree.layers id).contains) (explore_under tree _ _ _)

theorem relink_under (tree : Tree) (dependent : FieldId) (source : Option Source) :
    (tree.under settings n).relink dependent source =
      (tree.relink dependent source).under settings n := by
  have hquit : (tree.under settings n).quit dependent = (tree.quit dependent).under settings n :=
    mapListeners_under tree _ (tree.link? dependent)
  rw [relink_eq, relink_eq, hquit, mapListeners_under]
  rfl

theorem releaseFieldWithin_under (fuel : Nat) (tree : Tree) (id : FieldId) :
    releaseFieldWithin fuel (tree.under settings n) id =
      (releaseFieldWithin fuel tree id).under settings n := by
  induction fuel generalizing tree id with
  | zero => rfl
  | succ fuel ih =>
      rw [releaseFieldWithin, releaseFieldWithin, field?_under]
      cases tree.field? id with
      | none => rfl
      | some field =>
          simp only [withSource_unsubscribe, mapListeners_under]
          exact foldl_under ih field.value.parts
            ((tree.mapListeners (List.filter (· ≠ id)) field.link).removeField id)

theorem releaseFields_under (tree : Tree) (ids : List FieldId) :
    (tree.under settings n).releaseFields ids = (tree.releaseFields ids).under settings n :=
  foldl_under (fun tree id ↦ releaseFieldWithin_under (tree.fields.size + 1) tree id) ids tree

theorem releaseNodeWithin_under (fuel : Nat) (tree : Tree) (id : NodeId) :
    releaseNodeWithin fuel (tree.under settings n) id =
      (releaseNodeWithin fuel tree id).under settings n := by
  induction fuel generalizing tree id with
  | zero => rfl
  | succ fuel ih =>
      rw [releaseNodeWithin, releaseNodeWithin, node?_under]
      cases tree.node? id with
      | none => rfl
      | some node =>
          have hchildren := foldl_under ih node.children (tree.removeNode id)
          simp only [← releaseFields_under, ← hchildren]
          rfl

theorem releaseNode_under (tree : Tree) (id : NodeId) :
    (tree.under settings n).releaseNode id = (tree.releaseNode id).under settings n :=
  releaseNodeWithin_under (tree.nodes.size + 1) tree id

end Tree

/-! ## Checks of twins -/

section

variable {α β : Type} {settings other : Settings}

/-- What a check gives under the first settings it gives under the second ones. Where the limits
differ this is said of values only. -/
def Agrees (settings other : Settings) (first second : Except Fault α) : Prop :=
  (∀ a, first = .ok a → second = .ok a) ∧ (settings.maxDepth = other.maxDepth → second = first)

namespace Agrees

variable {first second : Except Fault α}

theorem of_eq (h : second = first) : Agrees settings other first second :=
  ⟨fun _ ha ↦ h.trans ha, fun _ ↦ h⟩

theorem bind (h : Agrees settings other first second) {next next' : α → Except Fault β}
    (hnext : ∀ a, Agrees settings other (next a) (next' a)) :
    Agrees settings other (first >>= next) (second >>= next') := by
  constructor
  · intro b hb
    cases first with
    | error fault => cases hb
    | ok a => rw [h.1 a rfl]; exact (hnext a).1 b hb
  · intro hd
    rw [h.2 hd]
    cases first with
    | error fault => rfl
    | ok a => exact (hnext a).2 hd

theorem forM {visit visit' : β → Except Fault Unit}
    (hv : ∀ b, Agrees settings other (visit b) (visit' b)) (list : List β) :
    Agrees settings other (list.forM visit) (list.forM visit') := by
  induction list with
  | nil => exact of_eq rfl
  | cons b rest ih => exact (hv b).bind fun _ ↦ ih

end Agrees

namespace Tree

variable (hle : settings.maxDepth ≤ other.maxDepth) {tree : Tree} (hs : tree.settings = settings)

include hle hs

theorem guard_agrees (n : Nat) (path : List FieldId) (id : FieldId) (field : Field) :
    Agrees settings other (tree.guard path id field)
      ((tree.under other n).guard path id field) := by
  subst hs
  have hlimit : (tree.under other n).settings = other := rfl
  unfold guard
  rw [hlimit]
  split
  · exact .of_eq rfl
  · constructor
    · intro _ hok
      split at hok
      · cases hok
      · next hdepth => rw [if_neg (by omega)]
    · intro hd
      rw [hd]

theorem rehearseWithin_agrees (n fuel : Nat) (path : List FieldId) (id : FieldId) :
    Agrees settings other (tree.rehearseWithin fuel path id)
      ((tree.under other n).rehearseWithin fuel path id) := by
  induction fuel generalizing path id with
  | zero => exact .of_eq rfl
  | succ fuel ih =>
      rw [rehearseWithin, rehearseWithin, field?_under]
      cases tree.field? id with
      | none => exact .of_eq rfl
      | some field =>
          exact (guard_agrees hle hs n path id field).bind fun _ ↦ .forM (ih (id :: path)) _

theorem rehearse_agrees (n : Nat) (source : Source) :
    Agrees settings other (tree.rehearse source) ((tree.under other n).rehearse source) := by
  cases source with
  | children id => exact .forM (rehearseWithin_agrees hle hs n _ []) _
  | field id => exact .forM (rehearseWithin_agrees hle hs n _ []) _

end Tree

end

/-! ## Edits of twins -/

namespace Edit

variable {α β : Type} {settings other : Settings}

/-- An edit of a tree under the first settings ends as it does under the second ones, in the same
tree. Where the limits differ this is said of values only. -/
def Transfers (settings other : Settings) (edit : Edit α) : Prop :=
  ∀ tree n, tree.settings = settings → edit.Meets tree
    (fun a after ↦ after.settings = settings ∧
      ∃ m, edit.runOn (tree.under other n) = (.ok a, after.under other m))
    fun fault after ↦ after.settings = settings ∧ (settings.maxDepth = other.maxDepth →
      ∃ m, edit.runOn (tree.under other n) = (.error fault, after.under other m))

theorem transfers_pure (a : α) : (pure a : Edit α).Transfers settings other :=
  fun _ n hs ↦ ⟨hs, n, rfl⟩

theorem transfers_throw (fault : Fault) : (throw fault : Edit α).Transfers settings other :=
  fun _ n hs ↦ ⟨hs, fun _ ↦ ⟨n, rfl⟩⟩

theorem Transfers.bind {edit : Edit β} {next : β → Edit α} (he : edit.Transfers settings other)
    (hnext : ∀ b, (next b).Transfers settings other) :
    (edit >>= next).Transfers settings other := by
  intro tree n hs
  rw [meets_bind]
  refine (he tree n hs).imp ?_ ?_
  · rintro b mid ⟨hmid, m, hrun⟩
    rw [runOn_bind, hrun]
    exact hnext b mid m hmid
  · rintro fault after ⟨hafter, hfails⟩
    refine ⟨hafter, fun hd ↦ ?_⟩
    obtain ⟨m, hrun⟩ := hfails hd
    exact ⟨m, by rw [runOn_bind, hrun]⟩

theorem Transfers.discard {edit : Edit α} (he : edit.Transfers settings other) :
    (discard edit : Edit Unit).Transfers settings other :=
  he.bind fun _ ↦ transfers_pure ()

theorem Transfers.orElseUndo {edit : Edit α} {undo : Edit Unit}
    (he : edit.Transfers settings other) (hundo : undo.Transfers settings other) :
    (edit.orElseUndo undo).Transfers settings other := by
  intro tree n hs
  rw [meets_orElseUndo]
  refine (he tree n hs).imp ?_ ?_
  · rintro a after ⟨hafter, m, hrun⟩
    exact ⟨hafter, m, by rw [runOn_orElseUndo, hrun]⟩
  · rintro fault mid ⟨hmid, hfails⟩
    -- The undo runs after the same fault only where the limits agree.
    by_cases hd : settings.maxDepth = other.maxDepth
    · obtain ⟨m, hrun⟩ := hfails hd
      refine (hundo mid m hmid).imp ?_ ?_
      · rintro _ after ⟨hafter, k, hlast⟩
        refine ⟨hafter, fun _ ↦ ⟨k, ?_⟩⟩
        simp only [runOn_orElseUndo, hrun, hlast]
      · rintro _ after ⟨hafter, hlast⟩
        obtain ⟨k, hlast⟩ := hlast hd
        refine ⟨hafter, fun _ ↦ ⟨k, ?_⟩⟩
        simp only [runOn_orElseUndo, hrun, hlast]
    · exact (hundo mid n hmid).imp (fun _ _ ha ↦ ⟨ha.1, fun hd' ↦ absurd hd' hd⟩)
        fun _ _ ha ↦ ⟨ha.1, fun hd' ↦ absurd hd' hd⟩

/-- Reading the tree transfers if what is made of it does not look at the settings. -/
theorem transfers_get_bind {next : Tree → Edit α}
    (hread : ∀ tree n, next (tree.under other n) = next tree)
    (hnext : ∀ tree, (next tree).Transfers settings other) :
    (get >>= next).Transfers settings other := by
  intro tree n hs
  rw [meets_bind, meets_get, runOn_bind, runOn_get]
  simp only [hread]
  exact hnext tree tree n hs

theorem Transfers.ite {c : Prop} [Decidable c] {first second : Edit α}
    (h : first.Transfers settings other) (h' : second.Transfers settings other) :
    (if c then first else second).Transfers settings other := by
  split
  · exact h
  · exact h'

theorem transfers_modify {f : Tree → Tree}
    (hf : ∀ tree settings n, f (tree.under settings n) = (f tree).under settings n) :
    (modify f : Edit Unit).Transfers settings other := by
  intro tree n hs
  have hsame : f tree = (f tree).under tree.settings tree.refreshes :=
    hf tree tree.settings tree.refreshes
  exact ⟨(congrArg Tree.settings hsame).trans hs, n, by rw [runOn_modify, hf]⟩

theorem transfers_check {f : Tree → Except Fault α}
    (hf : ∀ tree n, tree.settings = settings →
      Agrees settings other (f tree) (f (tree.under other n))) :
    (check f).Transfers settings other := by
  intro tree n hs
  obtain ⟨hok, hsame⟩ := hf tree n hs
  rw [meets_check]
  constructor
  · intro a ha
    exact ⟨hs, n, by rw [runOn_check, hok a ha]⟩
  · intro fault hfault
    exact ⟨hs, fun hd ↦ ⟨n, by rw [runOn_check, hsame hd, hfault]⟩⟩

/-- A check that does not look at the settings. -/
theorem transfers_check_of_eq {f : Tree → Except Fault α}
    (hf : ∀ tree n, f (tree.under other n) = f tree) : (check f).Transfers settings other :=
  transfers_check fun tree n _ ↦ .of_eq (hf tree n)

theorem transfers_field (id : FieldId) : (field id).Transfers settings other :=
  transfers_check_of_eq fun _ _ ↦ rfl

theorem transfers_addField (field : Field) : (addField field).Transfers settings other :=
  fun _ n hs ↦ ⟨hs, n, rfl⟩

theorem transfers_addNode (node : Node) : (addNode node).Transfers settings other :=
  fun _ n hs ↦ ⟨hs, n, rfl⟩

theorem transfers_refresh : refresh.Transfers settings other :=
  fun _ n hs ↦ ⟨hs, n + 1, rfl⟩

/-- Whether the view is refreshed on the way may depend on the settings. -/
theorem Transfers.refreshBefore {rest : Edit α} (h : rest.Transfers settings other)
    (refreshes : Tree → Bool) :
    (get >>= fun tree ↦ if refreshes tree = true then refresh >>= fun _ ↦ rest else rest).Transfers
      settings other := by
  intro tree n hs
  rw [meets_bind, meets_get, runOn_bind, runOn_get]
  have hother : ∃ k, (if refreshes (tree.under other n) = true then refresh >>= fun _ ↦ rest
      else rest).runOn (tree.under other n) = rest.runOn (tree.under other k) := by
    split
    · exact ⟨n + 1, rfl⟩
    · exact ⟨n, rfl⟩
  obtain ⟨k, hk⟩ := hother
  simp only [hk]
  split
  · exact h tree.refreshed k hs
  · exact h tree k hs

theorem transfers_forM {visit : β → Edit Unit} (hv : ∀ b, (visit b).Transfers settings other)
    (list : List β) : (list.forM visit).Transfers settings other := by
  induction list with
  | nil => exact transfers_pure ()
  | cons b rest ih => exact (hv b).bind fun _ ↦ ih

end Edit

/-! ## Cascades -/

section

variable {settings other : Settings} (hle : settings.maxDepth ≤ other.maxDepth)
  {visit : FieldId → Edit Unit} (hv : ∀ id, (visit id).Transfers settings other)

theorem transfers_relink (dependent : FieldId) (source : Option Source) :
    (relink dependent source).Transfers settings other :=
  (transfers_field dependent).discard.bind fun _ ↦
    transfers_modify fun tree _ _ ↦ tree.relink_under dependent source

theorem transfers_resolve (owner : NodeId) (group : List FieldId) (decl : FieldDecl) :
    (resolve owner group decl).Transfers settings other := by
  unfold resolve
  split
  · exact transfers_pure _
  · split
    · exact transfers_pure _
    · exact transfers_check_of_eq fun _ _ ↦ rfl

theorem transfers_shrink (id : FieldId) (count : Nat) :
    (shrink id count).Transfers settings other := by
  induction count with
  | zero => exact transfers_pure ()
  | succ count ih =>
      refine (transfers_field id).bind fun field ↦ ?_
      refine (transfers_modify fun _ _ _ ↦ rfl).bind fun _ ↦ ?_
      exact (transfers_modify fun tree _ _ ↦ tree.releaseFields_under _).bind fun _ ↦ ih

include hv in
theorem transfers_spread (ids : List FieldId) : (spread visit ids).Transfers settings other := by
  induction ids with
  | nil => exact transfers_pure ()
  | cons id outer ih =>
      refine transfers_get_bind (fun _ _ ↦ rfl) fun tree ↦ ?_
      cases tree.field? id with
      | none => exact transfers_pure ()
      | some field => exact (transfers_forM hv field.listeners).bind fun _ ↦ ih

include hv in
theorem transfers_propagate (source : Source) :
    (propagate visit source).Transfers settings other := by
  cases source with
  | children id =>
      refine transfers_get_bind (fun _ _ ↦ rfl) fun tree ↦ ?_
      cases tree.node? id with
      | none => exact transfers_pure ()
      | some node => exact transfers_forM hv node.listeners
  | field id => exact transfers_get_bind (fun _ _ ↦ rfl) fun _ ↦ transfers_spread hv _

include hle hv

theorem transfers_rebindWith (dependent : FieldId) (source : Source) :
    (rebindWith visit dependent source).Transfers settings other := by
  refine (transfers_field dependent).bind fun field ↦ ?_
  refine transfers_get_bind (fun tree n ↦ ?_) fun tree ↦ ?_
  · simp only [Tree.closesCycle_under]
  refine .ite ((transfers_throw _).bind fun _ ↦ ?_) ?_
  all_goals
    refine (transfers_check fun tree n hs ↦ ?_).bind fun _ ↦ ?_
    · exact tree.rehearseWithin_agrees hle hs n _ [] dependent
    · exact (transfers_relink dependent _).bind fun _ ↦
        (hv dependent).orElseUndo (transfers_relink dependent _)

theorem transfers_plant (owner : NodeId) (group : List FieldId) (container : Option FieldId)
    (decl : FieldDecl) (value : Value) :
    (plant visit owner group container decl value).Transfers settings other := by
  refine (transfers_addField _).bind fun id ↦ ?_
  refine (transfers_resolve owner group decl).bind fun source ↦ ?_
  cases source with
  | none => exact transfers_pure id
  | some source => exact (transfers_rebindWith hle hv id source).bind fun _ ↦ transfers_pure id

theorem transfers_instantiate (owner : NodeId) (group : List FieldId)
    (container : Option FieldId) : ∀ decl : FieldDecl,
      (instantiate visit owner group container decl).Transfers settings other
  | .scalar _ _ => transfers_plant hle hv owner group container _ _
  | .choice _ _ => by
    rw [instantiate]
    refine .ite ((transfers_throw _).bind fun _ ↦ ?_) ?_
    all_goals exact transfers_plant hle hv owner group container _ _
  | .list _ _ _ => transfers_plant hle hv owner group container _ _
  | .gated _ _ _ inner => by
    rw [instantiate]
    exact (transfers_instantiate owner group container inner).bind fun _ ↦
      transfers_plant hle hv owner group container _ _

theorem transfers_instantiateGroup (owner : NodeId) (container : Option FieldId)
    (group : List FieldId) (decls : List FieldDecl) :
    (instantiateGroup visit owner container group decls).Transfers settings other := by
  induction decls generalizing group with
  | nil => exact transfers_pure group
  | cons decl rest ih =>
      exact (transfers_instantiate hle hv owner group container decl).bind fun id ↦
        ih (group ++ [id])

theorem transfers_grow (owner : NodeId) (template : List FieldDecl) (id : FieldId) (count : Nat) :
    (grow visit owner template id count).Transfers settings other := by
  induction count with
  | zero => exact transfers_pure ()
  | succ count ih =>
      refine (transfers_instantiateGroup hle hv owner (some id) [] template).bind fun group ↦ ?_
      refine (transfers_field id).discard.bind fun _ ↦ ?_
      exact (transfers_modify fun _ _ _ ↦ rfl).bind fun _ ↦ ih

theorem transfers_resize (id : FieldId) (length : Nat) :
    (resize visit id length).Transfers settings other := by
  refine (transfers_field id).bind fun field ↦ ?_
  split
  · exact (transfers_grow hle hv field.owner _ id _).bind fun _ ↦ transfers_shrink id _
  · exact transfers_throw _

theorem transfers_recompute (id : FieldId) : (recompute visit id).Transfers settings other := by
  refine (transfers_field id).bind fun field ↦ ?_
  split
  · exact transfers_pure ()
  · split
    · exact transfers_get_bind (fun _ _ ↦ rfl) fun _ ↦ transfers_modify fun _ _ _ ↦ rfl
    · exact transfers_get_bind (fun _ _ ↦ rfl) fun _ ↦ transfers_resize hle hv id _
    · exact transfers_pure ()

omit hv in
theorem transfers_notify (fuel : Nat) (refresh : Bool) (path : List FieldId) (id : FieldId) :
    (notify fuel refresh path id).Transfers settings other := by
  induction fuel generalizing refresh path id with
  | zero => exact transfers_throw _
  | succ fuel ih =>
      refine transfers_get_bind (fun _ _ ↦ rfl) fun tree ↦ ?_
      cases tree.field? id with
      | none => exact transfers_pure ()
      | some field =>
          refine (transfers_check fun tree n hs ↦ ?_).bind fun _ ↦ ?_
          · exact tree.guard_agrees hle hs n path id field
          · exact (transfers_recompute hle (ih false []) id).bind fun _ ↦
              (transfers_propagate (ih refresh (id :: path)) _).refreshBefore _

omit hv in
theorem transfers_enter (refresh : Bool) (id : FieldId) :
    (enter refresh id).Transfers settings other :=
  transfers_get_bind (fun _ _ ↦ rfl) fun _ ↦ transfers_notify hle _ refresh [] id

omit hv in
theorem transfers_settle (source : Source) : (settle source).Transfers settings other :=
  ((transfers_propagate (transfers_enter hle true) source).orElseUndo transfers_refresh).bind
    fun _ ↦ transfers_refresh

end

/-! ## Operations -/

section

variable {settings other : Settings} (hle : settings.maxDepth ≤ other.maxDepth)

theorem transfers_release (id : NodeId) : (release id).Transfers settings other :=
  transfers_modify fun tree _ _ ↦ tree.releaseNode_under id

include hle

theorem transfers_childrenChanged (parent : NodeId) (refresh : Bool) :
    (childrenChanged parent refresh).Transfers settings other :=
  .ite (transfers_settle hle _) (transfers_propagate (transfers_enter hle false) _)

theorem transfers_rehearse (source : Source) :
    (check (·.rehearse source)).Transfers settings other :=
  transfers_check fun tree n hs ↦ tree.rehearse_agrees hle hs n source

theorem transfers_attach (parent child : NodeId) (refresh : Bool) :
    (attach parent child refresh).Transfers settings other := by
  refine transfers_get_bind (fun _ _ ↦ rfl) fun tree ↦ .ite (transfers_pure _) ?_
  refine (transfers_rehearse hle _).bind fun _ ↦ (transfers_modify fun _ _ _ ↦ rfl).bind fun _ ↦ ?_
  exact (transfers_modify fun _ _ _ ↦ rfl).bind fun _ ↦
    (transfers_childrenChanged hle parent refresh).bind fun _ ↦ transfers_pure _

theorem transfers_furnish (id : NodeId) (decls : List FieldDecl) :
    (furnish id decls).Transfers settings other := by
  induction decls with
  | nil => exact transfers_pure ()
  | cons decl rest ih =>
      refine (transfers_instantiate hle (transfers_enter hle false) id [] none decl).bind fun _ ↦ ?_
      exact (transfers_modify fun _ _ _ ↦ rfl).bind fun _ ↦ ih

section

variable {make : NodeKind → Edit NodeId} (hmake : ∀ kind, (make kind).Transfers settings other)

include hmake

theorem transfers_populateOne (id : NodeId) (kind childKind : NodeKind) :
    (populateOne make id kind childKind).Transfers settings other := by
  refine (hmake childKind).bind fun child ↦ ?_
  refine ((transfers_attach hle id child false).orElseUndo (transfers_release child)).bind
    fun outcome ↦ ?_
  exact .ite ((transfers_release child).bind fun _ ↦ transfers_throw _) (transfers_pure ())

theorem transfers_populate (id : NodeId) (kind : NodeKind) (childKind? : Option NodeKind)
    (count : Nat) : (populate make id kind childKind? count).Transfers settings other := by
  induction count with
  | zero => exact transfers_pure ()
  | succ count ih =>
      unfold populate
      cases childKind? with
      | none => exact (transfers_throw _).bind fun _ ↦ ih
      | some childKind => exact (transfers_populateOne hle hmake id kind childKind).bind fun _ ↦ ih

theorem transfers_build (id : NodeId) (kind : NodeKind) :
    (build make id kind).Transfers settings other := by
  refine (transfers_furnish hle id kind.fields).bind fun _ ↦ .ite ?_ (transfers_pure ())
  exact transfers_get_bind (fun _ _ ↦ rfl) fun _ ↦ transfers_populate hle hmake id kind _ _

end

theorem transfers_create (kind : NodeKind) : (create kind).Transfers settings other := by
  unfold create
  generalize 5 = depth
  induction depth generalizing kind with
  | zero => exact transfers_throw _
  | succ depth ih =>
      refine (transfers_check_of_eq fun _ _ ↦ rfl).bind fun _ ↦ ?_
      refine (transfers_addNode _).bind fun id ↦ ?_
      exact ((transfers_build hle ih id kind).orElseUndo (transfers_release id)).bind
        fun _ ↦ transfers_pure id

theorem transfers_addChild (parent child : NodeId) :
    (addChild parent child).Transfers settings other := by
  have hgiveUp : (do if (← get).isDetached child then release child : Edit Unit).Transfers
      settings other :=
    transfers_get_bind (fun _ _ ↦ rfl) fun _ ↦ .ite (transfers_release child) (transfers_pure ())
  refine ((transfers_attach hle parent child true).orElseUndo hgiveUp).bind fun outcome ↦ ?_
  exact .ite (hgiveUp.bind fun _ ↦ transfers_pure outcome) (transfers_pure outcome)

theorem transfers_addByCategory (parent : NodeId) (category : Category) :
    (addByCategory parent category).Transfers settings other := by
  refine transfers_get_bind (fun _ _ ↦ rfl) fun tree ↦ .ite (transfers_pure _) ?_
  cases tree.catalog.first? category with
  | none => exact transfers_pure _
  | some kind =>
      exact (transfers_create hle kind).bind fun child ↦ transfers_addChild hle parent child

theorem transfers_removeChild (parent child : NodeId) :
    (removeChild parent child).Transfers settings other := by
  refine transfers_get_bind (fun _ _ ↦ rfl) fun tree ↦ .ite (transfers_pure _) ?_
  refine (transfers_rehearse hle _).bind fun _ ↦ (transfers_modify fun _ _ _ ↦ rfl).bind fun _ ↦ ?_
  exact (transfers_release child).bind fun _ ↦
    (transfers_childrenChanged hle parent true).bind fun _ ↦ transfers_pure _

theorem transfers_detach (id : NodeId) : (detach id).Transfers settings other := by
  refine transfers_get_bind (fun _ _ ↦ rfl) fun tree ↦ ?_
  cases tree.parent? id with
  | none => exact transfers_pure _
  | some parent => exact transfers_removeChild hle parent id

theorem transfers_retype (id : NodeId) (symbol : String) :
    (retype id symbol).Transfers settings other := by
  refine transfers_get_bind (fun _ _ ↦ rfl) fun tree ↦ ?_
  split
  · split
    · split
      · refine (transfers_rehearse hle _).bind fun _ ↦ (transfers_create hle _).bind fun new ↦ ?_
        refine transfers_get_bind (fun _ _ ↦ rfl) fun mid ↦ .ite ?_ ?_
        · exact (transfers_release new).bind fun _ ↦ transfers_pure _
        · refine Transfers.bind ?_ fun _ ↦ (transfers_release id).bind fun _ ↦
            (transfers_childrenChanged hle _ true).bind fun _ ↦ transfers_pure _
          exact (transfers_modify fun _ _ _ ↦ rfl).bind fun _ ↦ transfers_modify fun _ _ _ ↦ rfl
      · exact transfers_pure _
    · exact transfers_pure _
  · exact transfers_pure _

theorem transfers_target (id : FieldId) : (target id).Transfers settings other := by
  refine transfers_get_bind (fun _ _ ↦ rfl) fun tree ↦ ?_
  exact (transfers_rehearse hle _).bind fun _ ↦ (transfers_field _).bind fun _ ↦ transfers_pure _

theorem transfers_mutate (id : FieldId) (change : Field → Except Fault Value) :
    (mutate id change).Transfers settings other := by
  refine (transfers_target hle id).bind fun _ ↦ ?_
  refine (transfers_check_of_eq fun _ _ ↦ rfl).bind fun _ ↦ ?_
  exact (transfers_modify fun _ _ _ ↦ rfl).bind fun _ ↦ transfers_settle hle _

theorem transfers_appendElement (id : FieldId) :
    (appendElement id).Transfers settings other := by
  refine (transfers_target hle id).bind fun (id, field) ↦ ?_
  dsimp only
  split
  · refine (transfers_instantiateGroup hle (transfers_enter hle false) _ _ _ _).bind fun group ↦ ?_
    refine (transfers_field id).discard.bind fun _ ↦ ?_
    refine (transfers_modify fun _ _ _ ↦ rfl).bind fun _ ↦ ?_
    exact (transfers_settle hle _).bind fun _ ↦ transfers_pure group
  · exact transfers_throw _

theorem transfers_removeElement (id : FieldId) (index : Nat) :
    (removeElement id index).Transfers settings other := by
  refine (transfers_target hle id).bind fun (id, field) ↦ ?_
  dsimp only
  split
  · split
    · exact transfers_pure _
    · refine (transfers_modify fun _ _ _ ↦ rfl).bind fun _ ↦ ?_
      refine (transfers_modify fun tree _ _ ↦ tree.releaseFields_under _).bind fun _ ↦ ?_
      exact (transfers_settle hle _).bind fun _ ↦ transfers_pure _
  · exact transfers_throw _

theorem transfers_operation (operation : Operation) :
    operation.edit.Transfers settings other := by
  cases operation with
  | create kind => exact (transfers_create hle kind).bind fun _ ↦ transfers_pure _
  | addChild parent child =>
      exact (transfers_addChild hle parent child).bind fun _ ↦ transfers_pure _
  | addByCategory parent category =>
      exact (transfers_addByCategory hle parent category).bind fun _ ↦ transfers_pure _
  | removeChild parent child =>
      exact (transfers_removeChild hle parent child).bind fun _ ↦ transfers_pure _
  | detach id => exact (transfers_detach hle id).bind fun _ ↦ transfers_pure _
  | retype id symbol => exact (transfers_retype hle id symbol).bind fun _ ↦ transfers_pure _
  | setInteger id _ | setBoolean id _ | choose id _ | setText id _ | setColor id _ =>
      exact (transfers_mutate hle id _).bind fun _ ↦ transfers_pure _
  | appendElement id => exact (transfers_appendElement hle id).bind fun _ ↦ transfers_pure _
  | removeElement id index =>
      exact (transfers_removeElement hle id index).bind fun _ ↦ transfers_pure _
  | rebind dependent source =>
      exact (transfers_rebindWith hle (transfers_enter hle false) dependent source).bind
        fun _ ↦ transfers_pure _

end

/-! ## Histories -/

theorem Edit.Transfers.runOn_under {α : Type} {settings other : Settings} {edit : Edit α}
    (h : edit.Transfers settings other) {tree : Tree} (hs : tree.settings = settings)
    (hends : settings.maxDepth = other.maxDepth ∨ ∃ a, (edit.runOn tree).1 = .ok a) (n : Nat) :
    (edit.runOn tree).2.settings = settings ∧ ∃ m, edit.runOn (tree.under other n) =
      ((edit.runOn tree).1, (edit.runOn tree).2.under other m) := by
  have hmeets := h tree n hs
  unfold Edit.Meets at hmeets
  rcases hr : edit.runOn tree with ⟨fault | a, after⟩
  · rw [hr] at hmeets hends
    refine ⟨hmeets.1, hmeets.2 (hends.resolve_right ?_)⟩
    rintro ⟨a, ha⟩
    cases ha
  · rw [hr] at hmeets
    exact hmeets

namespace Tree

/-- The two trees differ in their settings and their refreshes at most. Their stores agree also in
how many numbers they have handed out. -/
structure Twin (tree other : Tree) : Prop where
  catalog : other.catalog = tree.catalog
  nodes : other.nodes = tree.nodes
  fields : other.fields = tree.fields
  root : other.root = tree.root

/-- The trees are twins before and after each operation, which has the same answer in both. -/
def RunsAlike (tree other : Tree) : List Operation → Prop
  | [] => tree.Twin other
  | operation :: rest => tree.Twin other ∧
    (other.perform operation).1 = (tree.perform operation).1 ∧
    (tree.perform operation).2.RunsAlike (other.perform operation).2 rest

variable {settings other : Settings}

theorem twin_under (tree : Tree) (n : Nat) : tree.Twin (tree.under other n) :=
  ⟨rfl, rfl, rfl, rfl⟩

theorem runsAlike_under (hle : settings.maxDepth ≤ other.maxDepth) {tree : Tree}
    (hs : tree.settings = settings) {operations : List Operation}
    (hends : settings.maxDepth = other.maxDepth ∨
      ∀ answer ∈ (tree.run operations).1, ∃ a, answer = .ok a) (n : Nat) :
    tree.RunsAlike (tree.under other n) operations := by
  induction operations generalizing tree n with
  | nil => exact tree.twin_under n
  | cons operation rest ih =>
      obtain ⟨hafter, m, hrun⟩ := (transfers_operation hle operation).runOn_under hs
        (hends.imp_right fun hok ↦ hok _ List.mem_cons_self) n
      have hanswer : ((tree.under other n).perform operation).1 = (tree.perform operation).1 :=
        congrArg (·.1) hrun
      refine ⟨tree.twin_under n, hanswer, ?_⟩
      have htwin : ((tree.under other n).perform operation).2 =
          (tree.perform operation).2.under other m := congrArg (·.2) hrun
      rw [htwin]
      exact ih hafter (hends.imp_right fun hok answer ha ↦ hok answer (List.mem_cons_of_mem _ ha)) m

/-- The first tree is made by an edit of an empty one, which transfers. -/
theorem start_under (hle : settings.maxDepth ≤ other.maxDepth) (catalog : Catalog) :
    (∀ tree, start catalog settings = .ok tree → tree.settings = settings ∧
      ∃ n, start catalog other = .ok (tree.under other n)) ∧
    (settings.maxDepth = other.maxDepth → ∀ fault, start catalog settings = .error fault →
      start catalog other = .error fault) := by
  set edit : Edit Unit := do
    let id ← Edit.addNode { kind := catalog.root }
    build create id catalog.root
  have hedit : edit.Transfers settings other :=
    (transfers_addNode _).bind fun id ↦ transfers_build hle (transfers_create hle) id catalog.root
  have hok : ∀ {settings tree}, edit.runOn { catalog, settings } = (.ok (), tree) →
      start catalog settings = .ok tree := by
    intro settings tree hr
    simp only [edit] at hr
    rw [start, hr]
  have herror : ∀ {settings fault tree}, edit.runOn { catalog, settings } = (.error fault, tree) →
      start catalog settings = .error fault := by
    intro settings fault tree hr
    simp only [edit] at hr
    rw [start, hr]
  have hempty : ({ catalog, settings := other } : Tree) =
      ({ catalog, settings } : Tree).under other 0 := rfl
  have hsettings : ({ catalog, settings } : Tree).settings = settings := rfl
  have hrun := hedit.runOn_under hsettings
  rcases hr : edit.runOn { catalog, settings } with ⟨fault | ⟨⟩, tree⟩
  · rw [herror hr]
    refine ⟨nofun, fun hd _ hfault ↦ ?_⟩
    obtain ⟨_, m, htwin⟩ := hrun (.inl hd) 0
    rw [← hempty, hr] at htwin
    rw [herror htwin]
    exact hfault
  · rw [hok hr]
    obtain ⟨hs, m, htwin⟩ := hrun (.inr ⟨(), by rw [hr]⟩) 0
    rw [← hempty, hr] at htwin
    rw [hr] at hs
    refine ⟨fun _ htree ↦ ?_, nofun⟩
    cases htree
    exact ⟨hs, m, hok htwin⟩

/-- The settings decide on refreshes of the view and on what is refused, and on nothing else. Under
the same limit of depth, two histories of the same operations are the same step by step, whatever
they answer and however often the view is refreshed. Under a limit that is no lower, a history
without a fault is the same step by step. -/
theorem runsAlike_start (catalog : Catalog) (settings other : Settings)
    (operations : List Operation) :
    (settings.maxDepth = other.maxDepth →
      (∀ fault, start catalog settings = .error fault → start catalog other = .error fault) ∧
      ∀ tree, start catalog settings = .ok tree →
        ∃ twin, start catalog other = .ok twin ∧ tree.RunsAlike twin operations) ∧
    (settings.maxDepth ≤ other.maxDepth → ∀ tree, start catalog settings = .ok tree →
      (∀ answer ∈ (tree.run operations).1, ∃ a, answer = .ok a) →
        ∃ twin, start catalog other = .ok twin ∧ tree.RunsAlike twin operations) := by
  constructor
  · intro hd
    obtain ⟨hok, herror⟩ := start_under hd.le catalog
    refine ⟨herror hd, fun tree hstart ↦ ?_⟩
    obtain ⟨hs, n, htwin⟩ := hok tree hstart
    exact ⟨_, htwin, runsAlike_under hd.le hs (.inl hd) n⟩
  · intro hle tree hstart hanswers
    obtain ⟨hs, n, htwin⟩ := (start_under hle catalog).1 tree hstart
    exact ⟨_, htwin, runsAlike_under hle hs (.inr hanswers) n⟩

/-- Colours are chosen and one is added. A cascade of one field does for that, and the view may be
told of every field on the way. -/
theorem runsAlike_start_standard :
    let operations : List Operation :=
      [.addByCategory ⟨0⟩ .object, .choose ⟨2⟩ "c", .appendElement ⟨6⟩]
    (∃ twin, start .standard { coalesce := false } = .ok twin ∧
      standardTree.RunsAlike twin operations) ∧
    ∃ twin, start .standard { maxDepth := 64, coalesce := false } = .ok twin ∧
      shallowTree.RunsAlike twin operations := by
  intro operations
  have hanswers : (shallowTree.run operations).1 =
      [.ok (.outcome .applied), .ok .done, .ok (.element [⟨7⟩])] := by
    decide +kernel
  have hok : ∀ answer ∈ (shallowTree.run operations).1, ∃ a, answer = .ok a := by
    rw [hanswers]
    simp
  exact ⟨((runsAlike_start .standard {} { coalesce := false } operations).1 rfl).2 _ start_standard,
    (runsAlike_start .standard { maxDepth := 1 } _ operations).2 (by decide) _ rfl hok⟩

end Tree

end LightTree
