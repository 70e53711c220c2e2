import LightTree.Proofs.Acyclicity
import LightTree.Proofs.Clearance
import LightTree.Proofs.Relocation

/-!
# The limit of the depth

A rehearsal walks every chain of dependents, where each one listens to the one before or to a list
around it. In a tree without cycles it therefore ends at the limit of the depth, and it does so
exactly if a chain is longer than the limit.
-/

namespace LightTree

open Relation

namespace Tree

variable {tree : Tree} {source : Source} {id : FieldId} {path : List FieldId} {fuel : Nat}

/-! ## Chains of dependents -/

/-- The dependent is alive and listens to the source or, if that is a field, to a list around it. -/
def Tells (tree : Tree) (source : Source) (dependent : FieldId) : Prop :=
  tree.Live dependent ∧
    match source with
    | .children node => dependent ∈ tree.nodeListeners node
    | .field id => ∃ c, (c = id ∨ tree.Encloses c id) ∧ dependent ∈ tree.listeners c

/-- Dependents that listen to a source and then each to the one before. -/
def ChainFrom (tree : Tree) (source : Source) : List FieldId → Prop
  | [] => True
  | dependent :: rest => tree.Tells source dependent ∧ tree.ChainFrom (.field dependent) rest

theorem Ordered.mem_enclosing_iff (h : tree.Ordered) {c : FieldId} :
    c ∈ tree.enclosing id ↔ c = id ∨ tree.Encloses c id := by
  rw [Encloses, ← reflTransGen_iff_eq_or_transGen]
  refine ⟨reflTransGen_of_mem_chain, fun hreach ↦ ?_⟩
  by_cases hlive : tree.Live id
  · exact mem_chain_of_reflTransGen FieldId.index h.container_lt (Nat.le_of_lt hlive.lt_size) hreach
  · rcases hreach.cases_head with rfl | ⟨b, hb, _⟩
    · exact mem_chain_self _ _ _
    · exact absurd (live_of_container?_eq_some hb) hlive

theorem Ordered.tells_iff (h : tree.Ordered) {dependent : FieldId} :
    tree.Tells source dependent ↔ tree.Live dependent ∧ dependent ∈ tree.audience source := by
  cases source with
  | children node => rw [Tells, audience_children]
  | field id => simp only [Tells, audience, List.mem_flatMap, h.mem_enclosing_iff]

/-! ## What a rehearsal says of the chains -/

theorem lt_maxDepth_of_guard {field : Field} (h : tree.guard path id field = .ok ()) :
    path.length < tree.settings.maxDepth := by
  unfold guard at h
  split at h
  · cases h
  · split at h
    · cases h
    · next hdepth => exact Nat.lt_of_not_le hdepth

/-- A rehearsal that ends well has had room for every chain. -/
theorem Ordered.length_le_of_rehearseWithin (h : tree.Ordered) (hlive : tree.Live id)
    (hok : tree.rehearseWithin fuel path id = .ok ()) {dependents : List FieldId}
    (hchain : tree.ChainFrom (.field id) dependents) :
    path.length + 1 + dependents.length ≤ tree.settings.maxDepth := by
  induction fuel generalizing path id dependents with
  | zero => cases hok
  | succ fuel ih =>
      obtain ⟨field, hf⟩ := live_iff.1 hlive
      obtain ⟨hguard, haudience⟩ := rehearseWithin_succ_eq_ok hf hok
      cases dependents with
      | nil => exact lt_maxDepth_of_guard hguard
      | cons dependent rest =>
          obtain ⟨hd, hmem⟩ := h.tells_iff.1 hchain.1
          have hrest := ih hd (haudience dependent hmem) hchain.2
          simp only [List.length_cons] at hrest ⊢
          omega

/-- A rehearsal without cycles that fails has come to the limit along a chain. The fields of its
path are all different, so the steps that it has are enough. -/
theorem Sound.exists_chain_of_rehearseWithin (h : tree.Sound)
    (hfuel : tree.fields.size < fuel + path.length) (hnodup : path.Nodup)
    (hpath : ∀ p ∈ path, TransGen tree.Feeds p id) {fault : Fault}
    (herror : tree.rehearseWithin fuel path id = .error fault) :
    tree.Live id ∧ fault = .tooDeep tree.settings.maxDepth ∧
      ∃ dependents, tree.ChainFrom (.field id) dependents ∧
        tree.settings.maxDepth < path.length + 1 + dependents.length := by
  induction fuel generalizing path id with
  | zero =>
      have hissued : path.map FieldId.index ⊆ List.range tree.fields.size := by
        intro i hi
        obtain ⟨p, hp, rfl⟩ := List.mem_map.1 hi
        obtain ⟨b, hb, _⟩ := TransGen.head'_iff.1 (hpath p hp)
        exact List.mem_range.2 (live_of_feeds hb).lt_size
      have hdistinct : (path.map FieldId.index).Nodup :=
        hnodup.map fun _ _ hab ↦ congrArg FieldId.mk hab
      have hlength := (hdistinct.subperm hissued).length_le
      rw [List.length_map, List.length_range] at hlength
      omega
  | succ fuel ih =>
      rw [rehearseWithin] at herror
      cases hf : tree.field? id with
      | none =>
          rw [hf] at herror
          cases herror
      | some field =>
          rw [hf] at herror
          have hlive := live_of_some hf
          have hnew : id ∉ path := fun hmem ↦ h.acyclic id (hpath id hmem)
          by_cases hdeep : tree.settings.maxDepth ≤ path.length
          · have hguard : tree.guard path id field = .error (.tooDeep tree.settings.maxDepth) := by
              rw [guard, if_neg hnew, if_pos hdeep]
            simp only [hguard] at herror
            cases herror
            exact ⟨hlive, rfl, [], trivial, Nat.lt_succ_of_le hdeep⟩
          · have hguard : tree.guard path id field = .ok () := by
              rw [guard, if_neg hnew, if_neg hdeep]
            simp only [hguard] at herror
            obtain ⟨d, hd, hv⟩ := exists_of_forM_eq_error herror
            have hreach := reaches_of_mem_audience hd
            have hpath' : ∀ p ∈ id :: path, TransGen tree.Feeds p d :=
              List.forall_mem_cons.2 ⟨hreach, fun p hp ↦ (hpath p hp).trans hreach⟩
            obtain ⟨hdlive, hfault, dependents, hchain, hlong⟩ :=
              ih (by rw [List.length_cons]; omega) (List.nodup_cons.2 ⟨hnew, hnodup⟩) hpath' hv
            refine ⟨hlive, hfault, d :: dependents,
              ⟨h.ordered.tells_iff.2 ⟨hdlive, hd⟩, hchain⟩, ?_⟩
            simp only [List.length_cons] at hlong ⊢
            omega

theorem Ordered.length_le_of_rehearse (h : tree.Ordered) (hok : tree.rehearse source = .ok ())
    {dependents : List FieldId} (hchain : tree.ChainFrom source dependents) :
    dependents.length ≤ tree.settings.maxDepth := by
  cases dependents with
  | nil => exact Nat.zero_le _
  | cons dependent rest =>
      obtain ⟨hlive, hmem⟩ := h.tells_iff.1 hchain.1
      have hroom := h.length_le_of_rehearseWithin hlive (eq_ok_of_forM_eq_ok hok _ hmem) hchain.2
      simp only [List.length_nil, List.length_cons] at hroom ⊢
      omega

theorem Sound.exists_chain_of_rehearse (h : tree.Sound) {fault : Fault}
    (herror : tree.rehearse source = .error fault) :
    fault = .tooDeep tree.settings.maxDepth ∧
      ∃ dependents, tree.ChainFrom source dependents ∧
        tree.settings.maxDepth < dependents.length := by
  obtain ⟨d, hd, hv⟩ := exists_of_forM_eq_error herror
  obtain ⟨hlive, hfault, dependents, hchain, hlong⟩ :=
    h.exists_chain_of_rehearseWithin (by simp only [List.length_nil]; omega) List.nodup_nil
      (by simp) hv
  refine ⟨hfault, d :: dependents, ⟨h.ordered.tells_iff.2 ⟨hlive, hd⟩, hchain⟩, ?_⟩
  simp only [List.length_nil, List.length_cons] at hlong ⊢
  omega

/-! ## Histories -/

/-- After any history that names live sources in its rebinds, the rehearsal of any source passes
exactly if no chain of dependents from it is longer than the limit, and otherwise says that the
limit has been reached. -/
theorem rehearse_run {catalog : Catalog} {settings : Settings} {tree : Tree}
    (hstart : Tree.start catalog settings = .ok tree) {operations : List Operation}
    (hlive : tree.RebindsLive operations) {final : Tree} (hfinal : (tree.run operations).2 = final)
    (source : Source) :
    (final.rehearse source = .ok () ↔
      ∀ dependents, final.ChainFrom source dependents → dependents.length ≤ settings.maxDepth) ∧
    (final.rehearse source ≠ .ok () →
      final.rehearse source = .error (.tooDeep settings.maxDepth)) := by
  have h : final.Sound := hfinal ▸ (sound_start hstart).run hlive
  have hsettings : final.settings = settings := by
    rw [← hfinal, lasting_settings.run tree operations, settings_start hstart]
  rw [← hsettings]
  cases hrehearse : final.rehearse source with
  | ok u =>
      have hshort : ∀ dependents, final.ChainFrom source dependents →
          dependents.length ≤ final.settings.maxDepth := fun _ hchain ↦
        h.ordered.length_le_of_rehearse hrehearse hchain
      exact ⟨iff_of_true rfl hshort, fun hne ↦ absurd rfl hne⟩
  | error fault =>
      obtain ⟨rfl, dependents, hchain, hlong⟩ := h.exists_chain_of_rehearse hrehearse
      have hshort : ¬∀ dependents, final.ChainFrom source dependents →
          dependents.length ≤ final.settings.maxDepth := fun hall ↦
        Nat.not_le_of_lt hlong (hall dependents hchain)
      exact ⟨iff_of_false nofun hshort, fun _ ↦ rfl⟩

/-- The persistence of an object is made a source of its position, and that a source of the choice
of its definition, which gates its length. No dependent of the position is out of reach where two
may follow one another, but the length is the third one of the persistence. -/
theorem rehearse_run_standard :
    let final := ({ standardTree with settings := { maxDepth := 2 } }.run
      [.addByCategory ⟨0⟩ .object, .rebind ⟨0⟩ (.field ⟨1⟩), .rebind ⟨2⟩ (.field ⟨0⟩)]).2
    (∀ dependents, final.ChainFrom (.field ⟨0⟩) dependents → dependents.length ≤ 2) ∧
      final.rehearse (.field ⟨1⟩) = .error (.tooDeep 2) := by
  intro final
  have hstart : Tree.start .standard { maxDepth := 2 } =
      .ok { standardTree with settings := { maxDepth := 2 } } := rfl
  have hlive : { standardTree with settings := { maxDepth := 2 } }.RebindsLive
      [.addByCategory ⟨0⟩ .object, .rebind ⟨0⟩ (.field ⟨1⟩), .rebind ⟨2⟩ (.field ⟨0⟩)] :=
    ⟨trivial, rfl, rfl, trivial⟩
  have hpasses : final.rehearse (.field ⟨0⟩) = .ok () := rfl
  have hfails : final.rehearse (.field ⟨1⟩) ≠ .ok () := nofun
  have hrun := rehearse_run hstart hlive (rfl : _ = final)
  exact ⟨(hrun (.field ⟨0⟩)).1.1 hpasses, (hrun (.field ⟨1⟩)).2 hfails⟩

end Tree

end LightTree
