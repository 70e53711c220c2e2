import LightTree.Proofs.Reachable

/-!
# No cycles

The path of a rehearsal leads from each of its fields to the field that is entered next. In a tree
without cycles a rehearsal may therefore end at the limit of its depth, but not at a field that it
enters again.
-/

namespace LightTree

open Relation

namespace Tree

variable {tree : Tree}

/-- A field reaches the dependents that a change of it tells itself. -/
theorem reaches_of_mem_audience {id d : FieldId} (h : d ∈ tree.audience (.field id)) :
    TransGen tree.Feeds id d := by
  obtain ⟨c, hc, hd⟩ := List.mem_flatMap.1 h
  have hreach : ReflTransGen tree.Feeds id c := by
    refine ReflTransGen.mono (fun a b hab ↦ ?_) _ _ (reflTransGen_of_mem_chain hc)
    exact feeds_iff.2 (.inr hab)
  exact TransGen.tail' hreach (feeds_iff.2 (.inl hd))

theorem rehearseWithin_ne_cycle (h : tree.Acyclic) (name : String) {fuel : Nat}
    {path : List FieldId} {id : FieldId} (hpath : ∀ p ∈ path, TransGen tree.Feeds p id) :
    tree.rehearseWithin fuel path id ≠ .error (.cycle name) := by
  induction fuel generalizing path id with
  | zero => exact nofun
  | succ fuel ih =>
      intro herror
      rw [rehearseWithin] at herror
      cases hf : tree.field? id with
      | none =>
          rw [hf] at herror
          cases herror
      | some field =>
          rw [hf] at herror
          have hnot : id ∉ path := fun hmem ↦ h id (hpath id hmem)
          by_cases hdeep : tree.settings.maxDepth ≤ path.length
          · have hguard : tree.guard path id field = .error (.tooDeep tree.settings.maxDepth) := by
              rw [guard, if_neg hnot, if_pos hdeep]
            simp only [hguard] at herror
            cases herror
          · have hguard : tree.guard path id field = .ok () := by
              rw [guard, if_neg hnot, if_neg hdeep]
            simp only [hguard] at herror
            obtain ⟨d, hd, hv⟩ := exists_of_forM_eq_error herror
            have hreach := reaches_of_mem_audience hd
            refine ih (fun p hp ↦ ?_) hv
            rcases List.mem_cons.1 hp with rfl | hp
            · exact hreach
            · exact (hpath p hp).trans hreach

theorem Acyclic.rehearse_ne_cycle (h : tree.Acyclic) (source : Source) (name : String) :
    tree.rehearse source ≠ .error (.cycle name) := by
  intro herror
  obtain ⟨d, _, hd⟩ := exists_of_forM_eq_error herror
  exact rehearseWithin_ne_cycle h name (by simp) hd

/-- After any history that names live sources in its rebinds, no change comes back to where it
began, and so no rehearsal reports a cycle, whatever the limit of its depth is. -/
theorem acyclic_run {catalog : Catalog} {settings : Settings} {tree : Tree}
    {operations : List Operation} (hstart : start catalog settings = .ok tree)
    (hlive : tree.RebindsLive operations) :
    (∀ id, ¬TransGen (tree.run operations).2.Feeds id id) ∧
      ∀ (settings : Settings) (source : Source) (name : String),
        ({ (tree.run operations).2 with settings } : Tree).rehearse source ≠
          .error (.cycle name) := by
  have hsound := (sound_start hstart).run hlive
  refine ⟨hsound.acyclic, fun settings source name ↦ ?_⟩
  have hacyclic : ({ (tree.run operations).2 with settings } : Tree).Acyclic :=
    hsound.acyclic.mono fun _ _ h ↦ h
  exact hacyclic.rehearse_ne_cycle source name

/-- The choice of an object does not come back to itself through the colours that it gates, and a
change of it is not refused as a cycle, even if no cascade may be long. -/
theorem acyclic_run_standard :
    ¬TransGen (standardTree.run standardHistory).2.Feeds ⟨2⟩ ⟨2⟩ ∧
      ({ (standardTree.run standardHistory).2 with settings := { maxDepth := 1 } } : Tree).rehearse
        (.field ⟨2⟩) ≠ .error (.cycle "colors") := by
  obtain ⟨hacyclic, hrehearse⟩ := acyclic_run start_standard rebindsLive_standardHistory
  exact ⟨hacyclic ⟨2⟩, hrehearse { maxDepth := 1 } (.field ⟨2⟩) "colors"⟩

end Tree

end LightTree
