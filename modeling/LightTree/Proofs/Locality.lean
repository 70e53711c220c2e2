import LightTree.Proofs.Hierarchy
import LightTree.Proofs.Nesting
import LightTree.Proofs.Vicinity
import LightTree.Wire

/-!
# Changes are local

The line of a node is made of what the node, the nodes below it and their fields show. It does not
depend on how many levels the walk may go down, as long as these are enough for all that is below.
So an operation leaves the line of every node alone that does not stand at or above the node that
the operation addresses.
-/

namespace LightTree

open Relation Edit

namespace Tree

variable {tree after : Tree} {x y : FieldId}

/-! ## Fields within fields -/

/-- What a field shows of itself. -/
def sight (tree : Tree) (x : FieldId) : Option (Value × Bool) :=
  (tree.field? x).map fun field ↦ (field.value, field.active)

theorem parts_eq_sight (tree : Tree) (x : FieldId) :
    tree.parts x = (tree.sight x).elim [] (·.1.parts) := by
  cases hf : tree.field? x with
  | none => rw [sight, parts, read_of_none hf, hf, Option.map_none, Option.elim_none]
  | some field => rw [sight, parts, read_of_some hf, hf, Option.map_some, Option.elim_some]

/-- A field and all that is kept in it show the same in both trees. -/
structure Matches (same : FieldId → Prop) (tree after : Tree) : Prop where
  sight : ∀ x, same x → after.sight x = tree.sight x
  part : ∀ x y, same x → y ∈ tree.parts x → same y

section

variable {same : FieldId → Prop} {depth depth' : Nat}

theorem Matches.parts (h : tree.Matches same after) (hx : same x) :
    after.parts x = tree.parts x := by
  rw [parts_eq_sight, h.sight x hx, ← parts_eq_sight]

theorem Matches.live_iff (h : tree.Matches same after) (hx : same x) :
    after.Live x ↔ tree.Live x := by
  have hsight := congrArg Option.isSome (h.sight x hx)
  rw [Tree.sight, Tree.sight, Option.isSome_map, Option.isSome_map] at hsight
  rw [Live, Live, hsight]

theorem fieldTokensWithin_of_not_live (hx : ¬tree.Live x) (depth : Nat) :
    tree.fieldTokensWithin depth x = [] := by
  cases depth with
  | zero => rfl
  | succ depth => rw [fieldTokensWithin, not_live_iff.1 hx]

theorem Matches.fieldTokensWithin_succ (h : tree.Matches same after) (hx : same x)
    (hbelow : ∀ y ∈ tree.parts x,
      after.fieldTokensWithin depth' y = tree.fieldTokensWithin depth y) :
    after.fieldTokensWithin (depth' + 1) x = tree.fieldTokensWithin (depth + 1) x := by
  have hsight := h.sight x hx
  unfold Tree.sight at hsight
  cases ho : tree.field? x with
  | none =>
      rw [ho] at hsight
      simp only [fieldTokensWithin, ho, Option.map_eq_none_iff.1 hsight]
  | some old =>
      rw [ho] at hsight
      obtain ⟨new, hn, hboth⟩ := Option.map_eq_some_iff.1 hsight
      obtain ⟨hvalue, hactive⟩ := Prod.mk.inj hboth
      rw [Tree.parts, read_of_some ho] at hbelow
      simp only [fieldTokensWithin, ho, hn, hvalue, hactive]
      cases hv : old.value with
      | scalar | choice => rfl
      | list linked template elements =>
          rw [hv] at hbelow
          have hflat : elements.flatten.flatMap (after.fieldTokensWithin depth') =
              elements.flatten.flatMap (tree.fieldTokensWithin depth) :=
            List.flatMap_congr hbelow
          simp only [hflat]
      | gated condition inner =>
          rw [hv] at hbelow
          simp only [hbelow inner (List.mem_singleton.2 rfl)]

/-- The induction goes down the fields, with levels to spare for the fields that are not above. -/
theorem Matches.fieldTokensWithin_eq (h : tree.Matches same after)
    (ht : tree.Tiered) (ha : after.Tiered)
    (hdepth : tree.fields.size < depth + (tree.keepers x).card)
    (hdepth' : after.fields.size < depth' + (after.keepers x).card) (hx : same x) :
    after.fieldTokensWithin depth' x = tree.fieldTokensWithin depth x := by
  induction depth generalizing depth' x with
  | zero => exact absurd (tree.card_keepers_le x) (by omega)
  | succ depth ih =>
      cases depth' with
      | zero => exact absurd (after.card_keepers_le x) (by omega)
      | succ depth' =>
          refine h.fieldTokensWithin_succ hx fun y hy ↦ ?_
          have hsame := h.part x y hx hy
          by_cases hl : tree.Live y
          · have hl' := (h.live_iff hsame).2 hl
            have hlt := ht.card_keepers_lt ⟨hy, hl⟩
            have hlt' := ha.card_keepers_lt ⟨h.parts hx ▸ hy, hl'⟩
            exact ih (by omega) (by omega) hsame
          · have hl' := mt (h.live_iff hsame).1 hl
            rw [fieldTokensWithin_of_not_live hl, fieldTokensWithin_of_not_live hl']

/-- As many levels down there is no need to count them. -/
theorem Matches.fieldTokens_eq (h : tree.Matches same after)
    (hsize : after.fields.size = tree.fields.size) (hx : same x) :
    after.fieldTokens x = tree.fieldTokens x := by
  have hlevels : ∀ depth x, same x →
      after.fieldTokensWithin depth x = tree.fieldTokensWithin depth x := by
    intro depth
    induction depth with
    | zero => exact fun _ _ ↦ rfl
    | succ depth ih =>
        exact fun x hx ↦ h.fieldTokensWithin_succ hx fun y hy ↦ ih y (h.part x y hx hy)
  rw [fieldTokens, fieldTokens, hsize]
  exact hlevels _ x hx

end

/-! ## Nodes below nodes -/

/-- A node and the nodes below it show the same in both trees. -/
structure MatchesNodes (same : NodeId → Prop) (tree after : Tree) : Prop where
  node : ∀ n, same n → ∃ old new, tree.node? n = some old ∧ after.node? n = some new ∧
    new.face = old.face
  fields : ∀ n x, same n → x ∈ tree.topFields n → after.fieldTokens x = tree.fieldTokens x
  child : ∀ n c, same n → c ∈ tree.children n → same c

section

variable {same : NodeId → Prop} {depth depth' : Nat} {n : NodeId}

theorem MatchesNodes.children (h : tree.MatchesNodes same after) (hn : same n) :
    after.children n = tree.children n := by
  obtain ⟨old, new, hold, hnew, hface⟩ := h.node n hn
  rw [children_eq_readNode, children_eq_readNode, readNode_of_some hold, readNode_of_some hnew]
  exact (congrArg Node.children hface :)

theorem MatchesNodes.nodeTokensWithin_succ (h : tree.MatchesNodes same after) (hn : same n)
    (hbelow : ∀ c ∈ tree.children n,
      after.nodeTokensWithin depth' c = tree.nodeTokensWithin depth c) :
    after.nodeTokensWithin (depth' + 1) n = tree.nodeTokensWithin (depth + 1) n := by
  obtain ⟨old, new, hold, hnew, hface⟩ := h.node n hn
  have hkind : new.kind = old.kind := (congrArg Node.kind hface :)
  have hfields : new.fields = old.fields := (congrArg Node.fields hface :)
  have hchildren : new.children = old.children := (congrArg Node.children hface :)
  have hcount : new.showsCount = old.showsCount := (congrArg Node.showsCount hface :)
  have htops : old.fields.flatMap after.fieldTokens = old.fields.flatMap tree.fieldTokens := by
    refine List.flatMap_congr fun x hx ↦ h.fields n x hn ?_
    rwa [topFields_eq_readNode, readNode_of_some hold]
  have hdown : old.children.flatMap (after.nodeTokensWithin depth') =
      old.children.flatMap (tree.nodeTokensWithin depth) := by
    refine List.flatMap_congr fun c hc ↦ hbelow c ?_
    rwa [children_eq_readNode, readNode_of_some hold]
  simp only [nodeTokensWithin, hold, hnew, hkind, hfields, hchildren, hcount, htops, hdown]

theorem MatchesNodes.nodeTokensWithin_eq (h : tree.MatchesNodes same after)
    (ht : tree.Forest) (ha : after.Forest)
    (hdepth : tree.nodes.size < depth + (tree.above n).card)
    (hdepth' : after.nodes.size < depth' + (after.above n).card) (hn : same n) :
    after.nodeTokensWithin depth' n = tree.nodeTokensWithin depth n := by
  induction depth generalizing depth' n with
  | zero => exact absurd (tree.card_above_le n) (by omega)
  | succ depth ih =>
      cases depth' with
      | zero => exact absurd (after.card_above_le n) (by omega)
      | succ depth' =>
          refine h.nodeTokensWithin_succ hn fun c hc ↦ ?_
          have hc' : c ∈ after.children n := h.children hn ▸ hc
          have hlt := ht.card_above_lt c n (ht.mem_children_iff.1 hc)
          have hlt' := ha.card_above_lt c n (ha.mem_children_iff.1 hc')
          exact ih (by omega) (by omega) (h.child n c hn hc)

theorem MatchesNodes.nodeLine_eq (h : tree.MatchesNodes same after)
    (hsize : after.nodes.size = tree.nodes.size) (hn : same n) :
    after.nodeLine n = tree.nodeLine n := by
  have hlevels : ∀ depth n, same n →
      after.nodeTokensWithin depth n = tree.nodeTokensWithin depth n := by
    intro depth
    induction depth with
    | zero => exact fun _ _ ↦ rfl
    | succ depth ih =>
        exact fun n hn ↦ h.nodeTokensWithin_succ hn fun c hc ↦ ih c (h.child n c hn hc)
  rw [nodeLine, nodeLine, nodeTokens, nodeTokens, hsize, hlevels _ n hn]

end

/-! ## Trees of histories without rebinds -/

/-- An insular forest whose fields are kept where their owners are. -/
structure Apportioned (tree : Tree) : Prop extends tree.Insular where
  homed : tree.Homed
  forest : tree.Forest

namespace Apportioned

variable {touched : NodeId → Prop}

/-- Fields of nodes that are not touched send the same tokens. -/
theorem fieldTokens_eq (ht : tree.Apportioned) (ha : after.Apportioned)
    (h : tree.DiffersAt touched after) {node : NodeId} (hnode : ¬touched node)
    (howner : tree.owner? x = some node) (hl : after.Live x) :
    after.fieldTokens x = tree.fieldTokens x := by
  have hmatch : tree.Matches (fun x ↦ tree.owner? x = some node ∧ after.Live x) after := by
    refine ⟨fun x hx ↦ ?_, fun x y hx hy ↦ ⟨?_, ?_⟩⟩
    · obtain ⟨old, new, ho, hn, hvalue, hactive⟩ := h.exists_fields hnode hx.1 hx.2
      rw [sight, sight, ho, hn, Option.map_some, Option.map_some, hvalue, hactive]
    · exact (ht.tied x y (.inr (.inr hy)) (ht.owned.parts_live x y hy)).trans hx.1
    · exact ha.owned.parts_live x y (h.parts hnode hx.1 hx.2 ▸ hy)
  exact hmatch.fieldTokensWithin_eq (ht.homed.tiered ht.ordered) (ha.homed.tiered ha.ordered)
    (by omega) (by omega) ⟨howner, hl⟩

/-- Nodes that are neither touched nor above a touched node send the same line. -/
theorem nodeLine_eq (ht : tree.Apportioned) (ha : after.Apportioned)
    (h : tree.DiffersAt touched after) {id : NodeId} (hbefore : tree.LiveNode id)
    (hafter : after.LiveNode id) (hfar : ∀ b, touched b → id ∉ tree.lineage b) :
    after.nodeLine id = tree.nodeLine id := by
  have hmatch : tree.MatchesNodes (fun n ↦ tree.LiveNode n ∧ after.LiveNode n ∧
      ∀ b, touched b → n ∉ tree.lineage b) after := by
    have huntouched : ∀ n, (∀ b, touched b → n ∉ tree.lineage b) → ¬touched n := fun n hn htouched ↦
      hn n htouched (mem_chain_self ..)
    refine ⟨fun n hn ↦ ?_, fun n x hn hx ↦ ?_, fun n c hn hc ↦ ?_⟩
    · exact h.exists_nodes (huntouched n hn.2.2) hn.1.lt_size hn.2.1
    · have hu := huntouched n hn.2.2
      exact ht.fieldTokens_eq ha h hu (ht.attends x n (.inr hx))
        (ha.owned.tops_live n x (h.topFields hu hn.1.lt_size hn.2.1 ▸ hx))
    · have hc' : c ∈ after.children n :=
        h.children (huntouched n hn.2.2) hn.1.lt_size hn.2.1 ▸ hc
      refine ⟨ht.forest.child_live hc, ha.forest.child_live hc', fun b hb hcb ↦ hn.2.2 b hb ?_⟩
      exact ht.forest.mem_lineage_iff.2
        ((ht.forest.mem_lineage_iff.1 hcb).tail (ht.forest.mem_children_iff.1 hc))
  exact congrArg wireLine (hmatch.nodeTokensWithin_eq ht.forest ha.forest (by omega) (by omega)
    ⟨hbefore, hafter, hfar⟩)

theorem perform (h : tree.Apportioned) {operation : Operation} (hop : operation.rebinds = false) :
    (tree.perform operation).2.Apportioned where
  toInsular := (h.toInsular.perform hop).insular
  homed := by
    refine (meets_const_iff.1 (invariant_housed.operation ⟨h.toSound, h.homed⟩ operation
      (fun _ _ ↦ trivial) fun dependent source he ↦ ?_)).homed
    rw [he] at hop
    cases hop
  forest := h.forest.perform operation

theorem run (h : tree.Apportioned) {operations : List Operation}
    (hops : ∀ operation ∈ operations, operation.rebinds = false) :
    (tree.run operations).2.Apportioned := by
  induction operations generalizing tree with
  | nil => exact h
  | cons operation rest ih =>
      obtain ⟨hop, hrest⟩ := List.forall_mem_cons.1 hops
      exact ih (h.perform hop) hrest

end Apportioned

theorem apportioned_start {catalog : Catalog} {settings : Settings}
    (h : start catalog settings = .ok tree) : tree.Apportioned :=
  ⟨insular_start h, (tenured_start h).homed, forest_start h⟩

/-- Changes are local. After any history without rebinds, whatever one more operation answers, each
node that is alive before and after it sends the same line as before, unless it is the node that the
operation addresses or stands above it. -/
theorem local_run {catalog : Catalog} {settings : Settings} {tree : Tree}
    (hstart : start catalog settings = .ok tree) {operations : List Operation}
    (hops : ∀ operation ∈ operations, operation.rebinds = false) {final : Tree}
    (hfinal : (tree.run operations).2 = final) {operation : Operation}
    (hop : operation.rebinds = false) {id : NodeId} (hbefore : final.LiveNode id)
    (hafter : (final.perform operation).2.LiveNode id)
    (hfar : ∀ b, operation.addressed? final = some b → id ∉ final.lineage b) :
    (final.perform operation).2.nodeLine id = final.nodeLine id := by
  have h : final.Apportioned := hfinal ▸ (apportioned_start hstart).run hops
  exact h.nodeLine_eq (h.perform hop) (h.toInsular.perform hop).toDiffersAt hbefore hafter hfar

/-- Two objects are added. Choosing how the first one is defined changes its line, but not the line
of the second one. -/
theorem local_run_standard :
    ∃ final, (standardTree.run [.addByCategory ⟨0⟩ .object, .addByCategory ⟨0⟩ .object]).2 = final ∧
      (final.perform (.choose ⟨2⟩ "c")).2.nodeLine ⟨2⟩ = final.nodeLine ⟨2⟩ ∧
      (final.perform (.choose ⟨2⟩ "c")).2.nodeLine ⟨1⟩ ≠ final.nodeLine ⟨1⟩ := by
  refine ⟨_, rfl, local_run start_standard (by simp [Operation.rebinds]) rfl rfl ?_ ?_ ?_, ?_⟩
  · decide +kernel
  · decide +kernel
  · decide +kernel
  · decide +kernel

end Tree

end LightTree
