import LightTree.Proofs.StructureRules
import LightTree.Tree.Operation

/-!
# Invariants of operations

Every operation is one of a few edits. What these carry on, a rebind apart, every operation carries
on, with any arguments. A fault may leave something else behind than an invariant, and nodes may be
asked for of some kinds only.
-/

namespace LightTree

open Edit

/-- What carries an invariant on, or leaves `bad` behind with a fault, as long as new nodes are of
admitted kinds. -/
structure Invariant (inv : Tree → Prop) (bad : Fault → Tree → Prop) (admitted : NodeKind → Prop) :
    Prop where
  catalog : ∀ tree, inv tree → ∀ kind ∈ tree.catalog.kinds, admitted kind
  create : ∀ kind, admitted kind → (create kind).Carries inv bad
  addChild : ∀ parent child, (addChild parent child).Carries inv bad
  removeChild : ∀ parent child, (removeChild parent child).Carries inv bad
  retype : ∀ id symbol, (retype id symbol).Carries inv bad
  mutate : ∀ id change, Leafy change → (mutate id change).Carries inv bad
  appendElement : ∀ id, (appendElement id).Carries inv bad
  removeElement : ∀ id index, (removeElement id index).Carries inv bad

namespace Invariant

variable {inv : Tree → Prop} {bad : Fault → Tree → Prop} {admitted : NodeKind → Prop} {tree : Tree}

theorem addByCategory (h : Invariant inv bad admitted) (parent : NodeId) (category : Category) :
    (addByCategory parent category).Carries inv bad := by
  intro tree ht
  rw [meets_addByCategory]
  constructor
  · intro _
    exact ht
  · intro kind _ hkind
    have hadmitted := h.catalog tree ht kind (List.mem_of_find?_eq_some hkind)
    exact (h.create kind hadmitted tree ht).imp
      (fun child mid hm ↦ h.addChild parent child mid hm) fun _ _ hb ↦ hb

theorem detach (h : Invariant inv bad admitted) (id : NodeId) : (detach id).Carries inv bad := by
  intro tree ht
  rw [meets_detach]
  constructor
  · intro _
    exact ht
  · intro parent _
    exact h.removeChild parent id tree ht

theorem operation (h : Invariant inv bad admitted) (ht : inv tree) (operation : Operation)
    (hcreate : ∀ kind, operation = .create kind → admitted kind)
    (hrebind : ∀ dependent source, operation = .rebind dependent source →
      (rebind dependent source).Meets tree (fun _ ↦ inv) bad) :
    operation.edit.Meets tree (fun _ ↦ inv) bad := by
  cases operation with
  | create kind => exact (meets_bind ..).2 (h.create kind (hcreate kind rfl) tree ht)
  | addChild parent child => exact (meets_bind ..).2 (h.addChild parent child tree ht)
  | addByCategory parent category =>
      exact (meets_bind ..).2 (h.addByCategory parent category tree ht)
  | removeChild parent child => exact (meets_bind ..).2 (h.removeChild parent child tree ht)
  | detach id => exact (meets_bind ..).2 (h.detach id tree ht)
  | retype id symbol => exact (meets_bind ..).2 (h.retype id symbol tree ht)
  | setInteger id n => exact (meets_bind ..).2 (h.mutate id _ (leafy_setInteger n) tree ht)
  | setBoolean id b => exact (meets_bind ..).2 (h.mutate id _ (leafy_setBoolean b) tree ht)
  | choose id option => exact (meets_bind ..).2 (h.mutate id _ (leafy_choose option) tree ht)
  | setText id text => exact (meets_bind ..).2 (h.mutate id _ (leafy_setText text) tree ht)
  | setColor id text => exact (meets_bind ..).2 (h.mutate id _ (leafy_setColor text) tree ht)
  | appendElement id => exact (meets_bind ..).2 (h.appendElement id tree ht)
  | removeElement id index => exact (meets_bind ..).2 (h.removeElement id index tree ht)
  | rebind dependent source => exact (meets_bind ..).2 (hrebind dependent source rfl)

end Invariant

end LightTree
