import LightTree.Proofs.Frame
import LightTree.Proofs.Invariant

/-!
# What operations leave alone

A relation between trees holds across every operation, whatever it is asked and however it ends, if
it holds across the few changes that operations are made of.
-/

namespace LightTree

namespace Tree

/-- A relation that holds across each of the changes that building nodes is made of, which leaves
the view alone. -/
structure Growing (r : Tree → Tree → Prop) : Prop extends Quiet r where
  addTop : ∀ tree node id, r tree (tree.addTop node id)
  insertNode : ∀ tree kind, r tree (tree.insertNode { kind })
  adopt : ∀ tree parent child, r tree (tree.adopt parent child)
  releaseNode : ∀ tree id, r tree (tree.releaseNode id)

/-- A relation that holds across each of the changes that leave every node where it is. -/
structure Steady (r : Tree → Tree → Prop) : Prop extends Harmless r where
  addTop : ∀ tree node id, r tree (tree.addTop node id)
  setValue : ∀ tree id field value, tree.field? id = some field → field.value.IsLeaf →
    value.IsLeaf → r tree (tree.updateField id ({ · with value }))

/-- A relation that holds across each of the changes that operations are made of. -/
structure Lasting (r : Tree → Tree → Prop) : Prop extends Steady r, Growing r where
  disown : ∀ tree parent child, r tree (tree.disown parent child)
  supplant : ∀ tree parent old new, r tree (tree.supplant parent old new)

/-! ## Building nodes -/

theorem Quiet.furnish {r : Tree → Tree → Prop} (h : Quiet r)
    (htop : ∀ tree node id, r tree (tree.addTop node id)) (id : NodeId) (decls : List FieldDecl) :
    (furnish id decls).Respects r := by
  induction decls with
  | nil => exact h.refl
  | cons decl rest ih =>
      intro tree
      rw [Edit.meets_furnish_cons]
      exact (h.instantiate h.enterQuietly [] none decl tree).imp
        (fun field after ha ↦ h.after ih (h.trans ha (htop after id field))) fun _ _ ha ↦ ha

namespace Growing

open Edit

variable {r : Tree → Tree → Prop}

theorem attach (h : Growing r) {parent child : NodeId} {refresh : Bool}
    (hchanged : (childrenChanged parent refresh).Respects r) :
    (attach parent child refresh).Respects r := by
  intro tree
  rw [meets_attach]
  exact ⟨fun _ ↦ h.refl tree, fun _ ↦ ⟨fun _ _ ↦ h.refl tree, fun _ ↦
    h.after hchanged (h.adopt tree parent child)⟩⟩

theorem giveUp (h : Growing r) (tree : Tree) (child : NodeId) : r tree (tree.giveUp child) := by
  unfold Tree.giveUp
  split
  · exact h.releaseNode tree child
  · exact h.refl tree

section

variable {make : NodeKind → Edit NodeId}

theorem populateOne (h : Growing r) (hmake : ∀ kind, (make kind).Respects r) (id : NodeId)
    (kind childKind : NodeKind) : (populateOne make id kind childKind).Respects r := by
  intro tree
  rw [meets_populateOne]
  refine (hmake childKind tree).imp (fun child mid hmid ↦ ?_) fun _ _ ha ↦ ha
  have hattach : (LightTree.attach id child false).Respects r :=
    h.attach (h.settleQuietly (.children id))
  exact (h.after hattach hmid).imp
    (fun _ after ha ↦ ⟨fun _ ↦ h.trans ha (h.releaseNode after child), fun _ ↦ ha⟩)
    fun _ after ha ↦ h.trans ha (h.releaseNode after child)

theorem populate (h : Growing r) (hmake : ∀ kind, (make kind).Respects r) (id : NodeId)
    (kind : NodeKind) (childKind? : Option NodeKind) (count : Nat) :
    (populate make id kind childKind? count).Respects r := by
  induction count with
  | zero => exact h.refl
  | succ count ih =>
      intro tree
      rw [meets_populate_succ]
      exact ⟨fun _ ↦ h.refl tree, fun childKind _ ↦
        (h.populateOne hmake id kind childKind tree).imp (fun _ _ ↦ h.after ih) fun _ _ ha ↦ ha⟩

theorem build (h : Growing r) (hmake : ∀ kind, (make kind).Respects r) (id : NodeId)
    (kind : NodeKind) : (build make id kind).Respects r := by
  intro tree
  rw [meets_build]
  refine (h.toQuiet.furnish h.addTop id kind.fields tree).imp (fun _ mid hmid ↦ ?_) fun _ _ ha ↦ ha
  exact ⟨fun _ ↦ h.after (h.populate hmake id kind _ _) hmid, fun _ ↦ hmid⟩

end

theorem createWithin (h : Growing r) (depth : Nat) (kind : NodeKind) :
    (createWithin depth kind).Respects r := by
  induction depth generalizing kind with
  | zero => exact h.refl
  | succ depth ih =>
      intro tree
      rw [meets_createWithin_succ]
      refine ⟨fun _ _ ↦ h.refl tree, fun _ ↦ ?_⟩
      exact (h.after (h.build ih tree.nextNode kind) (h.insertNode tree kind)).imp
        (fun _ _ ha ↦ ha) fun _ after ha ↦ h.trans ha (h.releaseNode after _)

theorem create (h : Growing r) (kind : NodeKind) : (create kind).Respects r :=
  h.createWithin 5 kind

end Growing

/-! ## Operations -/

namespace Steady

open Edit

variable {r : Tree → Tree → Prop}

theorem childrenChanged (h : Steady r) (parent : NodeId) (refresh : Bool) :
    (childrenChanged parent refresh).Respects r := by
  unfold LightTree.childrenChanged
  split
  · exact h.toHarmless.settle _
  · exact h.toHarmless.settleQuietly _

theorem mutate (h : Steady r) (id : FieldId) {change : Field → Except Fault Value}
    (hchange : Leafy change) : (mutate id change).Respects r := by
  intro tree
  refine meets_mutate (fun _ ↦ h.refl tree) fun _ field value hf hv ↦ ?_
  obtain ⟨hold, hnew⟩ := hchange field value hv
  exact h.after (h.toHarmless.settle _) (h.setValue tree _ field value hf hold hnew)

theorem appendElement (h : Steady r) (id : FieldId) : (appendElement id).Respects r := by
  intro tree
  refine meets_appendElement (fun _ ↦ h.refl tree) fun _ field template elements _ _ ↦ ?_
  refine (h.toHarmless.instantiateGroup (h.enter false) _ [] template tree).imp ?_
    fun _ _ ha ↦ ha
  exact fun group mid hmid ↦ ⟨fun _ ↦ h.after (h.toHarmless.settle _)
    (h.trans hmid (h.push mid _ group)), fun _ ↦ hmid⟩

theorem removeElement (h : Steady r) (id : FieldId) (index : Nat) :
    (removeElement id index).Respects r := by
  intro tree
  refine meets_removeElement (fun _ ↦ h.refl tree) (h.refl tree) fun _ _ _ _ element _ _ _ ↦ ?_
  exact h.after (h.toHarmless.settle _) (h.drop tree _ _ element)

theorem rebind (h : Steady r) (dependent : FieldId) (source : Source) :
    (rebind dependent source).Respects r :=
  h.toHarmless.rebindWith (h.enter false) dependent source

end Steady

namespace Lasting

open Edit

variable {r : Tree → Tree → Prop}

theorem attach (h : Lasting r) (parent child : NodeId) (refresh : Bool) :
    (attach parent child refresh).Respects r :=
  h.toGrowing.attach (h.childrenChanged parent refresh)

theorem addChild (h : Lasting r) (parent child : NodeId) : (addChild parent child).Respects r := by
  intro tree
  rw [meets_addChild]
  exact (h.attach parent child true tree).imp
    (fun _ after ha ↦ ⟨fun _ ↦ h.trans ha (h.giveUp after child), fun _ ↦ ha⟩)
    fun _ after ha ↦ h.trans ha (h.giveUp after child)

theorem removeChild (h : Lasting r) (parent child : NodeId) :
    (removeChild parent child).Respects r := by
  intro tree
  rw [meets_removeChild]
  exact ⟨fun _ ↦ h.refl tree, fun _ ↦ ⟨fun _ _ ↦ h.refl tree, fun _ ↦
    h.after (h.childrenChanged parent true)
      (h.trans (h.disown tree parent child) (h.releaseNode _ child))⟩⟩

theorem retype (h : Lasting r) (id : NodeId) (symbol : String) : (retype id symbol).Respects r := by
  intro tree
  refine meets_retype (h.refl tree) fun node parent kind _ _ _ ↦ ⟨fun _ _ ↦ h.refl tree, fun _ ↦ ?_⟩
  refine (h.create kind tree).imp (fun new mid hmid ↦ ?_) fun _ _ ha ↦ ha
  exact ⟨fun _ ↦ h.trans hmid (h.releaseNode mid new), fun _ ↦
    h.after (h.childrenChanged parent true)
      (h.trans hmid (h.trans (h.supplant mid parent id new) (h.releaseNode _ id)))⟩

theorem invariant (h : Lasting r) (tree : Tree) :
    Invariant (r tree) (fun _ ↦ r tree) fun _ ↦ True where
  catalog _ _ _ _ := trivial
  create kind _ _ := h.after (h.create kind)
  addChild parent child _ := h.after (h.addChild parent child)
  removeChild parent child _ := h.after (h.removeChild parent child)
  retype id symbol _ := h.after (h.retype id symbol)
  mutate id _ hchange _ := h.after (h.mutate id hchange)
  appendElement id _ := h.after (h.appendElement id)
  removeElement id index _ := h.after (h.removeElement id index)

/-- The relation holds across every operation, with any arguments and any answer. -/
theorem perform (h : Lasting r) (tree : Tree) (operation : Operation) :
    r tree (tree.perform operation).2 := by
  refine meets_const_iff.1 ((h.invariant tree).operation (h.refl tree) operation
    (fun _ _ ↦ trivial) ?_)
  intro dependent source _
  exact h.rebind dependent source tree

theorem run (h : Lasting r) (tree : Tree) (operations : List Operation) :
    r tree (tree.run operations).2 := by
  induction operations generalizing tree with
  | nil => exact h.refl tree
  | cons operation rest ih => exact h.trans (h.perform tree operation) (ih _)

end Lasting

end Tree

end LightTree
