import LightTree.Proofs.Reachable

/-!
# Who listens to what

The listeners of a field or a node are the live fields whose link leads there, each of them once,
after every history that names live sources in its rebinds.
-/

namespace LightTree

open Relation

/-- A list holds an element exactly once under a condition, and not at all otherwise. -/
def HoldsOnceIff {α : Type} [DecidableEq α] (list : List α) (a : α) (condition : Prop) : Prop :=
  (condition → list.count a = 1) ∧ (¬condition → a ∉ list)

theorem holdsOnceIff_of_nodup {α : Type} [DecidableEq α] {list : List α} {a : α}
    {condition : Prop} (hn : list.Nodup) (h : a ∈ list ↔ condition) :
    HoldsOnceIff list a condition :=
  ⟨fun hc ↦ List.count_eq_one_of_mem hn (h.2 hc), fun hc ha ↦ hc (h.1 ha)⟩

namespace Tree

variable {tree : Tree}

def LinkedTo (tree : Tree) (id : FieldId) (source : Source) : Prop :=
  ∃ field, tree.field? id = some field ∧ field.link = some source

theorem link?_eq_some_iff {id : FieldId} {source : Source} :
    tree.link? id = some source ↔ tree.LinkedTo id source := by
  unfold link? read LinkedTo
  cases tree.field? id <;> simp

theorem follows_iff {dependent id : FieldId} :
    tree.Follows dependent id ↔
      ∃ s, tree.LinkedTo dependent (.field s) ∧ ReflTransGen tree.Wraps s id := by
  simp only [Follows, Covers, link?_eq_some_iff]

theorem Mirrored.holdsOnceIff (h : tree.Mirrored) {id : FieldId} {field : Field}
    (hf : tree.field? id = some field) (d : FieldId) :
    HoldsOnceIff field.listeners d
      (∃ s, tree.LinkedTo d (.field s) ∧ ReflTransGen tree.Wraps s id) := by
  have hlist : tree.listeners id = field.listeners := by
    rw [listeners_eq_read, read_of_some hf]
  rw [← hlist]
  apply holdsOnceIff_of_nodup (h.nodup id not_false)
  rw [h.mem_iff (live_of_some hf), follows_iff]

theorem Mirrored.holdsOnceIff_node (h : tree.Mirrored) {id : NodeId} {node : Node}
    (hn : tree.node? id = some node) (d : FieldId) :
    HoldsOnceIff node.listeners d (tree.LinkedTo d (.children id)) := by
  have hlist : tree.nodeListeners id = node.listeners := readNode_of_some hn _ _
  rw [← hlist]
  apply holdsOnceIff_of_nodup (h.node_nodup id)
  rw [h.node_mem_iff id d (liveNode_iff.2 ⟨node, hn⟩), link?_eq_some_iff]

/-- A field listens exactly once to the source of its link and to the fields that the source wraps,
or to the children of a node, and it listens to nothing else. What has been released listens to
nothing. -/
theorem listeners_run {catalog : Catalog} {settings : Settings} {tree : Tree}
    {operations : List Operation} (hstart : start catalog settings = .ok tree)
    (hlive : tree.RebindsLive operations) {final : Tree}
    (hfinal : (tree.run operations).2 = final) :
    (∀ id field d, final.field? id = some field → HoldsOnceIff field.listeners d
      (∃ s, final.LinkedTo d (.field s) ∧ ReflTransGen final.Wraps s id)) ∧
    (∀ id node d, final.node? id = some node →
      HoldsOnceIff node.listeners d (final.LinkedTo d (.children id))) ∧
    (∀ id field d, final.field? id = some field → d ∈ field.listeners → final.Live d) ∧
    ∀ id node d, final.node? id = some node → d ∈ node.listeners → final.Live d := by
  have hmirrored : final.Mirrored := hfinal ▸ ((sound_start hstart).run hlive).mirrored
  refine ⟨fun id field d hf ↦ hmirrored.holdsOnceIff hf d,
    fun id node d hn ↦ hmirrored.holdsOnceIff_node hn d, ?_, ?_⟩
  · intro id field d hf hd
    by_contra hdead
    refine (hmirrored.holdsOnceIff hf d).2 ?_ hd
    rintro ⟨s, ⟨dependent, hdep, _⟩, _⟩
    exact hdead (live_of_some hdep)
  · intro id node d hn hd
    by_contra hdead
    refine (hmirrored.holdsOnceIff_node hn d).2 ?_ hd
    rintro ⟨dependent, hdep, _⟩
    exact hdead (live_of_some hdep)

/-- The position of an object lists the length that was moved onto it, once. -/
theorem listeners_run_standard :
    ∃ field, (standardTree.run standardHistory).2.field? ⟨0⟩ = some field ∧
      field.listeners.count ⟨4⟩ = 1 := by
  refine ⟨_, rfl, ?_⟩
  obtain ⟨hfields, -⟩ := listeners_run start_standard rebindsLive_standardHistory rfl
  exact (hfields ⟨0⟩ _ ⟨4⟩ rfl).1 ⟨⟨0⟩, ⟨_, rfl, rfl⟩, .refl⟩

end Tree

end LightTree
