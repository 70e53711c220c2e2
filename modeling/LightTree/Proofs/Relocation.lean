import LightTree.Proofs.Annex
import LightTree.Proofs.Listeners
import LightTree.Proofs.Settlement
import LightTree.Proofs.Slots

/-!
# Moving a dependent

A dependent that moves onto another source takes the place of one listener for that of another, and
then its cascade runs. The cascade may shorten lists, the dependent itself among them, and nothing
asks whether the new source or the dependent stands in an element that goes. Where neither does, both
are left, and the dependent follows its new source.
-/

namespace LightTree

open Relation Edit

namespace Tree

variable {tree after : Tree} {dependent id list : FieldId} {source : Source}

/-- The fields that the cascade of a dependent may visit: the dependent, and what listens to a field
that a change of it reaches. -/
def Swept (tree : Tree) (dependent id : FieldId) : Prop :=
  id = dependent ∨ ∃ x, ReflTransGen tree.Feeds dependent x ∧ id ∈ tree.listeners x

/-- The field stands in an element of the list, or in one of a list that does. -/
def Encloses (tree : Tree) (list id : FieldId) : Prop :=
  TransGen (fun a b ↦ tree.container? a = some b) id list

theorem not_encloses (h : tree.container? id = none) : ¬tree.Encloses list id := by
  intro henclosed
  obtain ⟨c, hc, -⟩ := TransGen.head'_iff.1 henclosed
  exact Option.some_ne_none c (hc.symm.trans h)

/-! ## What a cascade of a dependent leaves alone -/

/-- The region of the cascade of a dependent. -/
def sweep (tree : Tree) (dependent : FieldId) : Region :=
  tree.span (tree.Swept dependent) (ReflTransGen tree.Feeds dependent)

theorem Sound.governs_sweep (h : tree.Sound) (dependent : FieldId) :
    (tree.sweep dependent).Governs tree := by
  refine h.governs_span ?_ (fun x d hx hd ↦ .inr ⟨x, hx, hd⟩) fun _ _ hx hc ↦
    hx.tail (feeds_iff.2 (.inr hc))
  rintro x (rfl | ⟨y, hy, hx⟩)
  · exact .refl
  · exact hy.tail (feeds_iff.2 (.inl hx))

/-- The move brings no other field into the cascade of the dependent. -/
theorem swept_of_swept_relink (h : tree.Sound) {next : Option Source}
    (hx : (tree.relink dependent next).Swept dependent id) : tree.Swept dependent id := by
  rcases hx with rfl | ⟨x, hx, hid⟩
  · exact .inl rfl
  · have hl := (live_relink dependent next x).1 (live_of_mem_listeners hid)
    rcases (mem_listeners_relink h.ordered.innerOlder hl).1 hid with ⟨hid, _⟩ | ⟨rfl, _⟩
    · exact .inr ⟨x, reach_of_reach_relink h.ordered hx, hid⟩
    · exact .inl rfl

/-- What a move of a dependent that does not fail leads to. -/
structure Moves (tree : Tree) (dependent : FieldId) (source : Source) (after : Tree) : Prop where
  live : tree.Live dependent
  moved : (tree.relink dependent (some source)).Sound
  framed : ((tree.relink dependent (some source)).sweep dependent).Framed
    (tree.relink dependent (some source)) after
  sound : after.Sound

theorem Sound.rebind_moves (h : tree.Sound) (hissued : tree.Issued source) :
    (rebind dependent source).Meets tree (fun _ ↦ tree.Moves dependent source) fun _ _ ↦ True := by
  rw [rebind, meets_rebindWith]
  refine ⟨fun field hf ↦ ⟨fun _ ↦ trivial, fun hc ↦ ⟨fun _ _ ↦ trivial, fun _ ↦ ?_⟩⟩,
    fun _ ↦ trivial⟩
  have hl := live_of_some hf
  have hs := h.relink_of_not_closesCycle hl hissued hc
  have hg := hs.governs_sweep dependent
  apply (Confined.enter false _ _ dependent hg (.inr (.inl rfl))).imp
  · exact fun _ after hlead ↦ ⟨hl, hs, hlead.framed hg, (hlead.governs hg).sound⟩
  · intro fault after _
    rw [meets_relink]
    exact ⟨fun _ ↦ trivial, fun _ ↦ trivial⟩

namespace Moves

variable {α : Type}

theorem old (_ : tree.Moves dependent source after) (hid : tree.Live id) :
    id.index < ((tree.relink dependent (some source)).sweep dependent).base :=
  hid.lt_size.trans_eq (fields_size_relink dependent _).symm

theorem link? (h : tree.Moves dependent source after) (hid : tree.Live id) (hl : after.Live id) :
    after.link? id = if id = dependent then some source else tree.link? id :=
  (h.framed.link? (h.old hid) hl).trans (link?_relink _ h.live id)

theorem inner? (h : tree.Moves dependent source after) (hid : tree.Live id) (hl : after.Live id) :
    after.inner? id = tree.inner? id :=
  (h.framed.inner? (h.old hid) hl).trans (congrFun (inner?_relink ..) id)

/-- A list outside the cascade of the dependent keeps its elements. -/
theorem elements (h : tree.Moves dependent source after) (ht : tree.Sound) (hl : after.Live list)
    (hlist : tree.Live list) (hswept : ¬tree.Swept dependent list) :
    after.elements list = tree.elements list := by
  obtain ⟨new, hn⟩ := live_iff.1 hl
  obtain ⟨mid, hm, -, hsame⟩ := h.framed.field list new (h.old hlist) hn
  have hvisited : ¬((tree.relink dependent (some source)).sweep dependent).visited list := by
    rintro (hnew | hx)
    · exact Nat.not_lt_of_le hnew (h.old hlist)
    · exact hswept (swept_of_swept_relink ht hx)
  have helements : (tree.relink dependent (some source)).elements = tree.elements :=
    read_relink dependent _ (fun _ _ _ ↦ rfl) []
  rw [← helements, Tree.elements, Tree.elements, read_of_some hn, read_of_some hm,
    (hsame hvisited).1]

theorem topFields (h : tree.Moves dependent source after) : after.topFields = tree.topFields :=
  h.framed.nodes.topFields.trans (SameNodes.relink tree dependent _).topFields

theorem liveNode_iff (h : tree.Moves dependent source after) {node : NodeId} :
    after.LiveNode node ↔ tree.LiveNode node :=
  (h.framed.nodes.liveNode node).trans ((SameNodes.relink tree dependent _).liveNode node)

/-- A field that stands in no element of a list in the cascade is left. The induction goes along the
slots from the node to the field. -/
theorem live_of_placed (h : tree.Moves dependent source after) (ht : tree.Tenured) {node : NodeId}
    {container : Option FieldId} (hp : tree.Placed id node container)
    (hclear : ∀ list, tree.Swept dependent list → ¬tree.Encloses list id) : after.Live id := by
  induction hp with
  | @top node position id slot =>
      have hslot : after.occupant? (.top node position) = some id := by
        rw [occupant?, h.topFields]
        exact slot
      exact h.sound.owned.occupant?_live hslot
  | @inner gate id node container slot outer ih =>
      have hcontainer : tree.container? gate = tree.container? id :=
        (container?_of_home? (ht.homed.home?_of_placed outer)).trans
          (container?_of_home? (ht.homed.home?_of_placed (.inner slot outer))).symm
      have hgate : after.Live gate := by
        refine ih fun list hlist henclosed ↦ hclear list hlist ?_
        obtain ⟨c, hc, hrest⟩ := TransGen.head'_iff.1 henclosed
        exact TransGen.head' (hcontainer.symm.trans hc) hrest
      have hslot : after.inner? gate = some id := by
        rw [h.inner? (live_of_inner?_eq_some slot) hgate]
        exact slot
      exact h.sound.owned.inner?_live hslot
  | @element list id index position node container slot outer ih =>
      have hstep : tree.container? id = some list :=
        container?_of_home? (ht.homed.home?_of_placed (.element slot outer))
      have hlist : after.Live list := ih fun other hother henclosed ↦
        hclear other hother (.head hstep henclosed)
      have hswept : ¬tree.Swept dependent list := fun hx ↦ hclear list hx (.single hstep)
      have hslot : after.occupant? (.element list index position) = some id := by
        rw [occupant?, h.elements ht.sound hlist (live_of_mem_parts (mem_parts_of_element slot))
          hswept]
        exact slot
      exact h.sound.owned.occupant?_live hslot

theorem live_of_not_enclosed (h : tree.Moves dependent source after) (ht : tree.Tenured)
    (hid : tree.Live id) (hclear : ∀ list, tree.Swept dependent list → ¬tree.Encloses list id) :
    after.Live id := by
  obtain ⟨field, hf⟩ := live_iff.1 hid
  exact h.live_of_placed ht (ht.placed hf) hclear

end Moves

/-! ## After any history -/

theorem of_perform_rebind {good : Tree → Prop} {bad : Fault → Tree → Prop} {answer : Answer}
    (h : tree.perform (.rebind dependent source) = (.ok answer, after))
    (hmeets : (rebind dependent source).Meets tree (fun _ ↦ good) bad) : good after := by
  have hedit : (Operation.rebind dependent source).edit.Meets tree (fun _ ↦ good) bad :=
    (meets_bind ..).2 hmeets
  exact hedit.of_runOn_ok h

/-- After a history without faults, a move of a dependent onto a live source that does not fail
neither refreshes the view nor touches the link of another field. If the dependent is left, its link
leads to the new source and it is registered once there and with what the source wraps, and nowhere
else; if the source is left as well, the activity or the length of the dependent derives from it.
Both are left unless one of them stands in an element of a list that the cascade of the dependent may
visit. -/
theorem rebind_run {catalog : Catalog} {settings : Settings} {tree : Tree}
    {operations : List Operation} (hstart : start catalog settings = .ok tree)
    (hlive : tree.RebindsLive operations)
    (hok : ∀ answer ∈ (tree.run operations).1, ∃ a, answer = .ok a) {final : Tree}
    (hfinal : (tree.run operations).2 = final) {dependent : FieldId} {source : Source}
    (hsource : final.SourceLive source) {answer : Answer} {after : Tree}
    (hrebind : final.perform (.rebind dependent source) = (.ok answer, after)) :
    after.refreshes = final.refreshes ∧
    (∀ id old new, id ≠ dependent → final.field? id = some old → after.field? id = some new →
      new.link = old.link) ∧
    (∀ moved, after.field? dependent = some moved → moved.link = some source ∧
      (∀ id field, after.field? id = some field → HoldsOnceIff field.listeners dependent
        (∃ s, source = .field s ∧ ReflTransGen after.Wraps s id)) ∧
      (∀ id node, after.node? id = some node →
        HoldsOnceIff node.listeners dependent (source = .children id)) ∧
      (after.SourceLive source →
        (∀ condition inner, moved.value = .gated condition inner →
          moved.active = after.holds source condition) ∧
        ∀ template elements, moved.value = .list true template elements →
          elements.length = after.sourceLength source)) ∧
    ((∀ list, final.Swept dependent list → ¬final.Encloses list dependent ∧
        ∀ s, source = .field s → ¬final.Encloses list s) →
      after.Live dependent ∧ after.SourceLive source) := by
  subst hfinal
  have hsettled := (settled_start hstart).run hlive hok
  have htenured := (tenured_start hstart).run hlive hok
  set final := (tree.run operations).2
  have hmoves : final.Moves dependent source after :=
    of_perform_rebind hrebind (hsettled.sound.rebind_moves hsource.issued)
  have hafter : after.Settled :=
    of_perform_rebind hrebind (rebind_keepsSettled hsettled dependent hsource)
  have hquiet : after.refreshes = final.refreshes :=
    of_perform_rebind hrebind
      (growing_refreshes.rebindWith growing_refreshes.enterQuietly dependent source final)
  have hlink : ∀ {id : FieldId} {old new : Field}, final.field? id = some old →
      after.field? id = some new →
      new.link = if id = dependent then some source else old.link := by
    intro id old new ho hn
    have heq := hmoves.link? (live_of_some ho) (live_of_some hn)
    rwa [link?, link?, read_of_some hn, read_of_some ho] at heq
  refine ⟨hquiet, fun id old new hne ho hn ↦ by rw [hlink ho hn, if_neg hne],
    fun moved hm ↦ ?_, fun hclear ↦ ?_⟩
  · obtain ⟨old, ho⟩ := live_iff.1 hmoves.live
    have hmoved : moved.link = some source := by rw [hlink ho hm, if_pos rfl]
    have hlinked : ∀ {other}, after.LinkedTo dependent other ↔ source = other := by
      intro other
      rw [← link?_eq_some_iff, link?, read_of_some hm, hmoved, Option.some.injEq]
    refine ⟨hmoved, fun id field hf ↦ ?_, fun id node hn ↦ ?_,
      hafter.upToDate dependent moved source hm hmoved⟩
    · have honce := hafter.sound.mirrored.holdsOnceIff hf dependent
      simpa only [hlinked] using honce
    · have honce := hafter.sound.mirrored.holdsOnceIff_node hn dependent
      simpa only [hlinked] using honce
  · have hkeeps : ∀ {id : FieldId}, final.Live id →
        (∀ list, final.Swept dependent list → ¬final.Encloses list id) → after.Live id :=
      hmoves.live_of_not_enclosed htenured
    refine ⟨hkeeps hmoves.live fun list hlist ↦ (hclear list hlist).1, ?_⟩
    cases source with
    | children node => exact hmoves.liveNode_iff.2 hsource
    | field s => exact hkeeps hsource fun list hlist ↦ (hclear list hlist).2 s rfl

/-- The length of an object moves onto its position. -/
theorem rebind_run_standard :
    let final := (standardTree.run [.addByCategory ⟨0⟩ .object, .choose ⟨2⟩ "c"]).2
    let after := (final.perform (.rebind ⟨4⟩ (.field ⟨0⟩))).2
    after.Live ⟨4⟩ ∧ after.SourceLive (.field ⟨0⟩) ∧ after.link? ⟨4⟩ = some (.field ⟨0⟩) ∧
      ∀ id field, after.field? id = some field → HoldsOnceIff field.listeners ⟨4⟩
        (∃ s, Source.field ⟨0⟩ = .field s ∧ ReflTransGen after.Wraps s id) := by
  intro final after
  have hok : ∀ answer ∈ (standardTree.run [.addByCategory ⟨0⟩ .object, .choose ⟨2⟩ "c"]).1,
      ∃ a, answer = .ok a := by
    have hanswers : (standardTree.run [.addByCategory ⟨0⟩ .object, .choose ⟨2⟩ "c"]).1 =
        [.ok (.outcome .applied), .ok .done] := by
      decide +kernel
    rw [hanswers]
    simp
  have hanswer : (final.perform (.rebind ⟨4⟩ (.field ⟨0⟩))).1 = .ok .done := by
    decide +kernel
  have hposition : final.Live ⟨0⟩ := by
    decide +kernel
  have houtside : final.container? ⟨4⟩ = none ∧ final.container? ⟨0⟩ = none := by
    decide +kernel
  have hfinal : (standardTree.run [.addByCategory ⟨0⟩ .object, .choose ⟨2⟩ "c"]).2 = final := rfl
  clear_value final
  have hrebinds : standardTree.RebindsLive [.addByCategory ⟨0⟩ .object, .choose ⟨2⟩ "c"] :=
    ⟨trivial, trivial, trivial⟩
  have hrebind : final.perform (.rebind ⟨4⟩ (.field ⟨0⟩)) = (.ok .done, after) :=
    Prod.ext hanswer rfl
  have hsource : final.SourceLive (.field ⟨0⟩) := hposition
  obtain ⟨-, -, hmoved, hlive⟩ := rebind_run start_standard hrebinds hok hfinal hsource hrebind
  obtain ⟨hdependent, hkept⟩ := hlive fun list _ ↦
    ⟨not_encloses houtside.1, fun s hs ↦ Source.field.inj hs ▸ not_encloses houtside.2⟩
  obtain ⟨moved, hm⟩ := live_iff.1 hdependent
  obtain ⟨hlink, honce, -⟩ := hmoved moved hm
  exact ⟨hdependent, hkept, (read_of_some hm _ _).trans hlink, honce⟩

/-- A kind with a list that its user sets, and one of the same length whose elements are lists. -/
def coupledKind : NodeKind :=
  loneKind [.list "a" .free [.scalar "x" (.integer 0)],
    .list "b" (.field "a") [.list "r" .free [.scalar "y" (.integer 0)]]]

/-- A linked list moves onto the list in its own first element. That list is empty, so the first one
becomes as short, and its new source is gone with the element. -/
theorem rebind_onto_own_element :
    let tree := loneTree coupledKind rfl
    let final := (tree.run [.appendElement ⟨0⟩]).2
    let last := final.perform (.rebind ⟨1⟩ (.field ⟨3⟩))
    start ⟨[coupledKind], rfl⟩ {} = .ok tree ∧
      (tree.run [.appendElement ⟨0⟩]).1 = [.ok (.element [⟨2⟩])] ∧ final.Live ⟨1⟩ ∧
      final.Live ⟨3⟩ ∧ last.1 = .ok .done ∧
      last.2.link? ⟨1⟩ = some (.field ⟨3⟩) ∧ ¬last.2.Live ⟨3⟩ := by
  intro tree final last
  refine ⟨rfl, ?_, ?_, ?_, ?_, ?_, ?_⟩
  · decide +kernel
  · decide +kernel
  · decide +kernel
  · decide +kernel
  · decide +kernel
  · decide +kernel

end Tree

end LightTree
