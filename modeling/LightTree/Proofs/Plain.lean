import LightTree.Proofs.Annex
import LightTree.Proofs.Rehearsed
import LightTree.Proofs.Templates

/-!
# Elements that depend on nothing

A declaration is plain if neither it nor anything nested in it depends on another field or on the
children of a node. A plain group is built without a fault, and what was there before is not
touched. So where the elements of all lists are plain, a cascade that was rehearsed does not fail,
even if it builds elements on its way.
-/

namespace LightTree

open Edit

namespace FieldDecl

mutual

def isPlain : FieldDecl → Bool
  | scalar .. => true
  | choice _ options => !options.isEmpty
  | list _ rule element => decide (rule = .free) && groupIsPlain element
  | gated .. => false

def groupIsPlain : List FieldDecl → Bool
  | [] => true
  | decl :: rest => isPlain decl && groupIsPlain rest

end

theorem isPlain_of_mem {decl : FieldDecl} {group : List FieldDecl}
    (h : groupIsPlain group = true) (hd : decl ∈ group) : decl.isPlain = true := by
  induction group with
  | nil => exact absurd hd List.not_mem_nil
  | cons first rest ih =>
      rw [groupIsPlain, Bool.and_eq_true] at h
      rcases List.mem_cons.1 hd with rfl | hd
      · exact h.1
      · exact ih h.2 hd

end FieldDecl

/-- Groups of plain declarations, at any node. -/
def PlainGroup (_ : NodeId) (group : List FieldDecl) : Prop :=
  FieldDecl.groupIsPlain group = true

theorem nested_plainGroup : Nested PlainGroup := by
  intro _ group h decl hd element he
  have hplain := FieldDecl.isPlain_of_mem h hd
  cases decl with
  | scalar | choice => cases he
  | list name rule nested =>
      cases he
      rw [FieldDecl.isPlain, Bool.and_eq_true] at hplain
      exact hplain.2
  | gated => cases hplain

namespace Tree

variable {base tree mid after : Tree} {within : FieldId → Prop} {id : FieldId}
  {visit : FieldId → Edit Unit} {owner : NodeId} {container : Option FieldId}

theorem Untouched.abides (h : tree.Untouched after) : tree.Abides after where
  fields_size := h.fields_size
  field id new hid hn := ⟨new, (h.field id hid).symm.trans hn, rfl⟩

/-! ## Building plain groups -/

theorem plant_plain {decl : FieldDecl} (hplain : decl.isPlain = true) (group : List FieldId)
    (value : Value) (tree : Tree) :
    (plant visit owner group container decl value).Meets tree (fun _ ↦ tree.Untouched)
      fun _ _ ↦ False := by
  have hresolve : resolve owner group decl = pure none := by
    cases decl with
    | scalar | choice => rfl
    | list name rule element =>
        rw [FieldDecl.isPlain, Bool.and_eq_true, decide_eq_true_iff] at hplain
        rw [hplain.1]
        rfl
    | gated => cases hplain
  rw [meets_plant, hresolve, meets_pure]
  exact ⟨fun _ ↦ (Untouched.refl tree).insertField _,
    fun s hs ↦ absurd hs.symm (Option.some_ne_none s)⟩

theorem instantiate_plain {decl : FieldDecl} (hplain : decl.isPlain = true) (group : List FieldId)
    (tree : Tree) :
    (instantiate visit owner group container decl).Meets tree (fun _ ↦ tree.Untouched)
      fun _ _ ↦ False := by
  cases decl with
  | scalar name initial => exact plant_plain hplain group _ tree
  | choice name options =>
      rw [meets_instantiate_choice]
      refine ⟨fun hnone ↦ ?_, fun _ ↦ plant_plain hplain group _ tree⟩
      rw [hnone] at hplain
      cases hplain
  | list name rule element => exact plant_plain hplain group _ tree
  | gated => cases hplain

theorem instantiateGroup_plain {decls : List FieldDecl}
    (hplain : FieldDecl.groupIsPlain decls = true) (group : List FieldId) (tree : Tree) :
    (instantiateGroup visit owner container group decls).Meets tree (fun _ ↦ tree.Untouched)
      fun _ _ ↦ False := by
  induction decls generalizing group tree with
  | nil => exact .refl tree
  | cons decl rest ih =>
      rw [FieldDecl.groupIsPlain, Bool.and_eq_true] at hplain
      rw [meets_instantiateGroup_cons]
      refine (instantiate_plain hplain.1 group tree).imp (fun id mid hmid ↦ ?_) fun _ _ hf ↦ hf
      exact (ih hplain.2 (group ++ [id]) mid).imp (fun _ _ ↦ hmid.trans) fun _ _ hf ↦ hf

/-! ## Growing lists -/

namespace Echoes

theorem trans (h : base.Echoes within tree) (h' : tree.Echoes within after) :
    base.Echoes within after where
  toAbides := h.toAbides.trans h'.toAbides
  settings := h'.settings.trans h.settings
  listeners id hid := List.Subset.trans (h'.listeners id hid) (h.listeners id hid)

theorem of_untouched (h : tree.Untouched after)
    (hin : ∀ x, within x → x.index < tree.fields.size) : tree.Echoes within after where
  toAbides := h.abides
  settings := h.settings
  listeners id hid := by
    rw [listeners_eq_read, listeners_eq_read, h.read (hin id hid)]
    exact List.Subset.refl _

theorem of_thins (h : tree.Thins after) : tree.Echoes within after where
  toAbides := h.toAbides
  settings := h.settings
  listeners id _ := h.listeners id

/-- A change of nodes only. -/
theorem of_fields (hfields : after.fields = tree.fields)
    (hsettings : after.settings = tree.settings) : tree.Echoes within after := by
  have hfield : after.field? = tree.field? := by
    unfold field?
    rw [hfields]
  refine ⟨.of_field? hfield (by rw [hfields]), hsettings, fun id _ ↦ ?_⟩
  unfold Tree.listeners
  rw [hfield]
  exact List.Subset.refl _

theorem updateField {f : Field → Field} (hf : Retouches f)
    (hab : tree.Abides (tree.updateField id f)) : tree.Echoes within (tree.updateField id f) where
  toAbides := hab
  settings := rfl
  listeners x _ := by
    rw [listeners_updateField hf.listeners]
    exact List.Subset.refl _

theorem push (tree : Tree) (id : FieldId) (group : List FieldId) :
    tree.Echoes within (tree.push id group) :=
  updateField (retouches_mapElements _) (.mapElements tree id _)

end Echoes

theorem grow_plain {template : List FieldDecl} (hplain : FieldDecl.groupIsPlain template = true)
    (hin : ∀ x, within x → x.index < tree.fields.size) (hlive : tree.Live id) (count : Nat) :
    (grow visit owner template id count).Meets tree
      (fun _ after ↦ tree.Echoes within after ∧ after.Live id) fun _ _ ↦ False := by
  induction count generalizing tree with
  | zero => exact ⟨.of_untouched (.refl tree) hin, hlive⟩
  | succ count ih =>
      rw [meets_grow_succ]
      refine (instantiateGroup_plain hplain [] tree).imp (fun group mid hmid ↦ ?_) fun _ _ hf ↦ hf
      have hlive' : mid.Live id := by
        unfold Live
        rw [hmid.field id hlive.lt_size]
        exact hlive
      refine ⟨fun _ ↦ ?_, fun hdead ↦ hdead hlive'⟩
      have hpush := (Echoes.of_untouched hmid hin).trans (.push mid id group)
      refine (ih (fun x hx ↦ Nat.lt_of_lt_of_le (hin x hx) hpush.fields_size)
        ((live_updateField mid id _ id).2 hlive')).imp ?_ fun _ _ hf ↦ hf
      exact fun _ after ha ↦ ⟨hpush.trans ha.1, ha.2⟩

/-! ## Cascades -/

/-- A tree that follows a rehearsal and where all elements are plain. -/
structure Mild (base : Tree) (within : FieldId → Prop) (tree : Tree) : Prop
    extends base.Echoes within tree, tree.Housed where
  suits : tree.Suits PlainGroup

namespace Mild

theorem setActive (h : base.Mild within tree) (id : FieldId) (active : Bool) :
    base.Mild within (tree.updateField id ({ · with active })) where
  toEchoes :=
    h.toEchoes.trans (.updateField (retouches_setActive active) (.setActive tree id active))
  sound := h.sound.setActive id active
  homed := (Houses.setActive h.sound h.homed id active).homed
  suits := h.suits.of_abides (.setActive tree id active) (size_updateField tree id _)

theorem refreshed (h : base.Mild within tree) : base.Mild within tree.refreshed where
  toEchoes := h.toEchoes.trans (.of_thins (.refreshed tree))
  toHoused := h.toHoused.refresh.housed
  suits := h.suits

/-- A list that takes the length of its source builds plain elements only. -/
theorem resize (h : base.Mild within tree) (hin : ∀ x, within x → x.index < base.fields.size)
    (hlinked : tree.isLinked id = true) (fuel length : Nat) :
    (resize (notify fuel false []) id length).Meets tree (fun _ ↦ base.Mild within)
      fun _ _ ↦ False := by
  have hlive := live_of_isLinked hlinked
  rw [meets_resize]
  refine ⟨fun field hf ↦ ⟨fun linked template elements hv ↦ ?_, fun hv ↦ ?_⟩,
    fun hnone ↦ not_live_iff.2 hnone hlive⟩
  · have hconfined := Confined.notify fuel false []
    have hhost := h.sound.governs.hosts hf trivial
    have hplain := h.suits id field.owner template (template?_of_list hf hv)
    refine (((hconfined.grow h.sound.governs trivial hhost template _).and
      ((Housing.notify fuel false []).grow hconfined h.sound h.homed template _
        (shelter?_of_list hf hv))).and
      ((Nested.grow nested_plainGroup (Nested.notify nested_plainGroup fuel false []) hplain id _
        tree h.suits).and
      (grow_plain hplain (fun x hx ↦ Nat.lt_of_lt_of_le (hin x hx) h.fields_size) hlive _))).imp
      ?_ fun _ _ hfalse ↦ hfalse.2.2
    rintro _ mid ⟨⟨hlead, hhouses⟩, hsuits, hechoes, hlive'⟩
    have hlinked' := (hhouses.abides.isLinked hlive hlive').trans hlinked
    refine ((shrink_housed (h.sound.of_leads hlead) hhouses.homed hlinked' _).and
      (shrink_prunes (fun _ ↦ hlinked') _)).imp ?_ fun _ _ hfalse ↦ hfalse.1
    rintro _ after ⟨hafter, hp, _⟩
    exact ⟨(h.toEchoes.trans hechoes).trans (.of_thins hp.toThins), hafter,
      hsuits.of_abides hp.toAbides hp.size_eq⟩
  · obtain ⟨elements, hsome⟩ := elements?_of_isLinked hlinked hf
    cases hsome.symm.trans hv

theorem recompute (h : base.Mild within tree) (hin : ∀ x, within x → x.index < base.fields.size)
    (hlive : tree.Live id) (fuel : Nat) :
    (recompute (notify fuel false []) id).Meets tree (fun _ ↦ base.Mild within)
      fun _ _ ↦ False := by
  rw [meets_recompute]
  exact ⟨fun field hf ↦ ⟨fun source condition _ _ _ ↦ h.setActive id _,
    fun source template elements _ hv ↦ h.resize hin (isLinked_of_list hf hv) fuel _, fun _ ↦ h⟩,
    fun hnone ↦ not_live_iff.2 hnone hlive⟩

end Mild

theorem Ordered.rehearses_mild (h : base.Ordered)
    (hin : ∀ x, within x → x.index < base.fields.size)
    (hclosed : ∀ x y, within x → base.Feeds x y → within y) :
    base.Rehearses within (base.Mild within) where
  ordered := h
  issued := hin
  closed := hclosed
  echoes _ ht := ht.toEchoes
  refreshed _ ht := ht.refreshed
  recompute _ fuel _ ht _ hlive := ht.recompute hin hlive fuel

end Tree

end LightTree
