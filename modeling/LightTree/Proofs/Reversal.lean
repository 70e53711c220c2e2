import LightTree.Proofs.Charter
import LightTree.Proofs.Clearance
import LightTree.Proofs.Determined
import LightTree.Proofs.Withdrawal

/-!
# Additions that are taken back

An element or a child that has been added may be removed again at once. What the first request has
built, subscribed and switched goes with the second one: nothing new is left, every list has its old
elements again, and gates are where their sources had them.
-/

namespace LightTree

open Edit

namespace Tree

/-- The second tree has the live nodes and fields of the first one. Only more numbers have been
handed out, and the view may have been told of changes. -/
structure Restores (tree after : Tree) : Prop where
  catalog : after.catalog = tree.catalog
  settings : after.settings = tree.settings
  root : after.root = tree.root
  node : after.node? = tree.node?
  field : after.field? = tree.field?

variable {base tree mid after : Tree} {list other : FieldId} {parent child : NodeId}

/-- A settled tree that has sprouted without additions is the first one, if it has no new node. -/
theorem Sprouts.eq_base (h : base.Sprouts .none after) (hb : base.Settled) (ha : after.Settled)
    (ht : after.Tenured) (hnodes : ∀ node, after.LiveNode node → base.LiveNode node) :
    after.node? = base.node? ∧ after.field? = base.field? :=
  (Flickers.refl base).unique (h.flickers hb.sound hb.fitted ht ha.fitted hnodes) hb ha

/-! ## Elements -/

theorem live_of_live_unwrap (h : tree.Live (tree.unwrap list)) : tree.Live list := by
  rcases (wraps_unwrap tree list).cases_head with heq | ⟨x, hx, _⟩
  · rwa [← heq] at h
  · exact live_of_inner?_eq_some hx

theorem Settled.appendElement_sprouts (h : tree.Settled) (list : FieldId) :
    (appendElement list).Meets tree
      (fun group after ↦ ∃ field template elements, tree.field? (tree.unwrap list) = some field ∧
        field.value = .list false template elements ∧ (∀ x ∈ group, tree.Later (.field x)) ∧
        tree.Sprouts (.element (tree.unwrap list) group) after)
      fun _ _ ↦ True := by
  refine meets_appendElement (fun _ ↦ trivial) fun _ field template elements hf hv ↦ ?_
  have henter : Sprouting tree .none (enter false) := .enter h.sound h.fitted.short false
  have hnone : ∀ x ∈ ([] : List FieldId), tree.Later (.field x) := fun _ hx ↦ nomatch hx
  refine (henter.instantiateGroup h.sound field.owner (some (tree.unwrap list)) hnone template
    (.refl tree)).imp ?_ fun _ _ _ ↦ trivial
  rintro group mid ⟨hmid, hgroup⟩
  refine ⟨fun _ ↦ ?_, fun _ ↦ trivial⟩
  exact (Sprouting.settle h.sound h.fitted.short _ _ (hmid.push_added hf hv hgroup)).imp
    (fun _ _ ha ↦ ⟨field, template, elements, hf, hv, hgroup, ha⟩) fun _ _ _ ↦ trivial

/-- The last element of a list is the one that has been added. -/
theorem Sprouts.removeElement {id : FieldId} {group : List FieldId}
    (h : base.Sprouts (.element id group) mid) (hb : base.Sound) (hshort : base.Short)
    {field : Field} {template : List FieldDecl} {elements : List (List FieldId)}
    (hf : base.field? id = some field) (hv : field.value = .list false template elements)
    (hgroup : ∀ x ∈ group, base.Later (.field x)) (hlist : mid.unwrap other = id) {index : Nat}
    (hindex : index + 1 = mid.listLength other) :
    (removeElement other index).Meets mid
      (fun outcome after ↦ outcome = .applied → base.Sprouts .none after) fun _ _ ↦ True := by
  have helements : mid.elements id = elements ++ [group] := by
    obtain ⟨extra, hextra, _, hadded⟩ := h.exists_elements hf (by rw [hv]; rfl)
    rw [hextra, hadded fun hlinked ↦ by simp [hv, Value.isLinked] at hlinked]
    exact congrArg (elements ++ ·) (if_pos rfl)
  have hlast : index = elements.length := by
    rw [listLength_eq, hlist, helements, List.length_append] at hindex
    exact Nat.succ.inj hindex
  refine meets_removeElement (fun _ ↦ trivial) (fun ho ↦ by cases ho) fun _ new template' elements'
    element hn hn' he ↦ ?_
  rw [hlist] at hn ⊢
  have hsame : elements' = elements ++ [group] := by
    rw [← helements, Tree.elements, read_of_some hn, hn']
    rfl
  have helement : element = group := by simpa [hsame, hlast] using he.symm
  rw [hlast, helement]
  exact (Sprouting.settle hb hshort _ _ (h.drop_added hb.mirrored hf hv hgroup)).imp
    (fun _ _ ha _ ↦ ha) fun _ _ _ ↦ trivial

/-! ## Children -/

theorem apex_disown {x : NodeId} (h : (tree.disown parent child).Apex x) : tree.Apex x := by
  obtain ⟨hlive, hparent⟩ := h
  rw [disown_eq, parent?_mapChildren] at hparent
  exact ⟨(liveNode_mapChildren ..).1 (disown_eq tree parent child ▸ hlive), hparent⟩

theorem Settled.addByCategory_sprouts (h : tree.Settled) (hf : tree.Forest) (parent : NodeId)
    (category : Category) :
    (addByCategory parent category).Meets tree
      (fun outcome after ↦ outcome = .applied → tree.LiveNode parent ∧
        (∀ x, after.Apex x → tree.Apex x) ∧
        ∃ child, tree.Later (.children child) ∧ tree.Sprouts (.child parent child) after)
      fun _ _ ↦ True := by
  rw [meets_addByCategory]
  refine ⟨fun _ ↦ nofun, fun kind haccepts _ ↦ ?_⟩
  have hparent : tree.LiveNode parent := by
    cases hp : tree.node? parent with
    | none => simp [hp] at haccepts
    | some node => exact liveNode_of_some hp
  refine (create_withdraws h.sound hf kind).imp ?_ fun _ _ _ ↦ trivial
  rintro child mid ⟨hannexed, hforest, hlater, hapex⟩
  have hsprouts : (attach parent child true).Meets mid
      (fun outcome after ↦ outcome = .applied → tree.Sprouts (.child parent child) after)
      fun _ _ ↦ True := by
    rw [meets_attach]
    refine ⟨fun _ ↦ nofun, fun _ ↦ ⟨fun _ _ ↦ trivial, fun _ ↦ ?_⟩⟩
    have hmid : tree.Sprouts .none mid := .of_annexed h.sound.ordered hannexed
    exact (Sprouting.settle h.sound h.fitted.short _ _ (hmid.adopt hparent hlater)).imp
      (fun _ _ ha _ ↦ ha) fun _ _ _ ↦ trivial
  rw [meets_addChild]
  refine (hsprouts.and (attach_outcome parent child true mid)).imp ?_ fun _ _ _ ↦ trivial
  rintro outcome after ⟨hgrown, _, hattached⟩
  refine ⟨fun _ ↦ nofun, fun happlied _ ↦ ⟨hparent, fun x hx ↦ ?_, child, hlater, hgrown happlied⟩⟩
  obtain ⟨hne, hx⟩ := (hattached happlied).apex hx
  exact (hapex x hx).resolve_left hne

/-- The child that has been added goes with all that was built below it. -/
theorem Sprouts.removeChild (h : base.Sprouts (.child parent child) mid) (hb : base.Sound)
    (hshort : base.Short) (hparent : base.LiveNode parent) (hlater : base.Later (.children child))
    (hold : child ∉ base.children parent) (hapex : ∀ x, mid.Apex x → base.Apex x) :
    (removeChild parent child).Meets mid
      (fun outcome after ↦ outcome = .applied → base.Sprouts .none after ∧
        ∀ x, after.Apex x → base.Apex x)
      fun _ _ ↦ True := by
  rw [meets_removeChild]
  refine ⟨fun _ ↦ nofun, fun _ ↦ ⟨fun _ _ ↦ trivial, fun _ ↦ ?_⟩⟩
  have hgone := (h.disown hparent hold).releaseNode hb.mirrored hlater
  have hsettles := Sprouting.settle hb hshort (.children parent) _ hgone
  have hretains := (steady_retains fun _ ↦ True).childrenChanged parent true
    ((mid.disown parent child).releaseNode child)
  refine (Meets.and hsettles hretains).imp ?_ fun _ _ _ ↦ trivial
  rintro _ after ⟨hafter, hkept⟩ _
  refine ⟨hafter, fun x hx ↦ hapex x ?_⟩
  exact apex_disown (apex_releaseNode (hkept.apex hx)).2

/-! ## Histories -/

theorem perform_eq {operation : Operation} {result : Except Fault Answer}
    (h : (tree.perform operation).1 = result) :
    tree.perform operation = (result, (tree.perform operation).2) :=
  Prod.ext h rfl

/-- The answer to an operation is what its edit gives. -/
theorem runOn_of_perform {α : Type} {edit : Edit α} {answer : α → Answer} {operation : Operation}
    (hinj : Function.Injective answer) {a : α}
    (hedit : operation.edit = edit >>= fun a ↦ pure (answer a))
    (hp : tree.perform operation = (.ok (answer a), after)) : edit.runOn tree = (.ok a, after) := by
  rw [perform, hedit, runOn_bind] at hp
  rcases hr : edit.runOn tree with ⟨fault | b, last⟩
  · rw [hr] at hp
    cases hp
  · simp only [hr, runOn_pure, Prod.mk.injEq, Except.ok.injEq] at hp
    rw [hinj hp.1, hp.2]

section

variable {first second : Operation} {answer answer' : Answer}

theorem Settled.next (h : tree.Settled) (ht : tree.Tenured) (hl : first.NamesLive tree)
    (hp : tree.perform first = (.ok answer, mid)) : mid.Settled ∧ mid.Tenured := by
  have hok : (tree.perform first).1 = .ok answer := congrArg Prod.fst hp
  have hmid : (tree.perform first).2 = mid := congrArg Prod.snd hp
  exact ⟨hmid ▸ h.perform hl hok, hmid ▸ ht.perform hl hok⟩

/-- No operation changes the catalog, the settings or the root. Two that leave a settled tree as it
has sprouted, without additions and new nodes, restore it. -/
theorem Settled.restores (h : tree.Settled) (ht : tree.Tenured)
    (hfirst : tree.perform first = (.ok answer, mid)) (hl : first.NamesLive tree)
    (hsecond : mid.perform second = (.ok answer', after)) (hl' : second.NamesLive mid)
    (hsprouts : tree.Sprouts .none after)
    (hnodes : ∀ node, after.LiveNode node → tree.LiveNode node) : tree.Restores after := by
  obtain ⟨hmid, hmid'⟩ := h.next ht hl hfirst
  obtain ⟨hafter, hafter'⟩ := hmid.next hmid' hl' hsecond
  obtain ⟨hnode, hfield⟩ := hsprouts.eq_base h hafter hafter' hnodes
  have hm : (tree.perform first).2 = mid := congrArg Prod.snd hfirst
  have ha : (mid.perform second).2 = after := congrArg Prod.snd hsecond
  refine ⟨?_, ?_, ?_, hnode, hfield⟩
  · rw [← ha, lasting_catalog.perform, ← hm, lasting_catalog.perform]
  · rw [← ha, lasting_settings.perform, ← hm, lasting_settings.perform]
  · rw [← ha, lasting_root.perform, ← hm, lasting_root.perform]

end

theorem Settled.restores_append (h : tree.Settled) (ht : tree.Tenured) {group : List FieldId}
    (hadd : tree.perform (.appendElement list) = (.ok (.element group), mid))
    (hother : mid.unwrap other = mid.unwrap list) {index : Nat}
    (hindex : index + 1 = mid.listLength list)
    (hremove : mid.perform (.removeElement other index) = (.ok (.outcome .applied), after)) :
    tree.Restores after := by
  have hadd' := runOn_of_perform (fun _ _ ↦ Answer.element.inj) rfl hadd
  have hremove' := runOn_of_perform (fun _ _ ↦ Answer.outcome.inj) rfl hremove
  obtain ⟨field, template, elements, hf, hv, hgroup, hgrown⟩ :=
    (h.appendElement_sprouts list).of_runOn_ok hadd'
  have hlist : mid.unwrap other = tree.unwrap list :=
    hother.trans (hgrown.unwrap_eq h.sound (live_of_live_unwrap (live_of_some hf)))
  have hindex' : index + 1 = mid.listLength other := by
    rw [hindex, listLength_eq, listLength_eq, hother]
  have hsprouts := (hgrown.removeElement h.sound h.fitted.short hf hv hgroup hlist
    hindex').of_runOn_ok hremove' rfl
  have hmid := ((steady_retains fun _ ↦ True).appendElement list tree).of_runOn_ok hadd'
  have hafter := ((steady_retains fun _ ↦ True).removeElement other index mid).of_runOn_ok hremove'
  refine h.restores ht hadd trivial hremove trivial hsprouts fun node hn ↦ ?_
  exact (hmid.liveNode trivial).1 ((hafter.liveNode trivial).1 hn)

theorem Settled.restores_add (h : tree.Settled) (ht : tree.Tenured) (hforest : tree.Forest)
    {category : Category}
    (hadd : tree.perform (.addByCategory parent category) = (.ok (.outcome .applied), mid))
    (hlast : (mid.children parent).getLast? = some child)
    (hremove : mid.perform (.removeChild parent child) = (.ok (.outcome .applied), after)) :
    tree.Restores after := by
  have hadd' := runOn_of_perform (fun _ _ ↦ Answer.outcome.inj) rfl hadd
  have hremove' := runOn_of_perform (fun _ _ ↦ Answer.outcome.inj) rfl hremove
  obtain ⟨hparent, hapex, new, hlater, hgrown⟩ :=
    (h.addByCategory_sprouts hforest parent category).of_runOn_ok hadd' rfl
  have hchild : child = new := by
    rw [hgrown.children_eq hparent] at hlast
    have hnew : (Additions.child parent new).children parent = [new] := if_pos rfl
    rw [hnew, List.getLast?_concat, Option.some.injEq] at hlast
    exact hlast.symm
  subst hchild
  have hold : child ∉ tree.children parent := fun hc ↦
    hlater.node_ne_of_lt (hforest.child_live hc).lt_size rfl
  obtain ⟨hsprouts, hapex'⟩ := (hgrown.removeChild h.sound h.fitted.short hparent hlater hold
    hapex).of_runOn_ok hremove' rfl
  refine h.restores ht hadd trivial hremove trivial hsprouts fun node hn ↦ ?_
  have hafter : after.Forest := by
    have hperformed := (hforest.perform (.addByCategory parent category)).perform
      (.removeChild parent child)
    rwa [hadd, hremove] at hperformed
  refine hafter.liveNode_of_apex hforest hapex' (fun x hx ↦ ?_) hn
  rw [hsprouts.children_eq hx]
  exact List.append_nil _

/-- After a history without faults, an element that is appended to a list and then removed as its
last one, or a child that is added to a node and then removed as its last one, leaves all nodes and
fields as they were, with the order of their listeners. -/
theorem restored_run {catalog : Catalog} {settings : Settings} {tree : Tree}
    {operations : List Operation} (hstart : start catalog settings = .ok tree)
    (hlive : tree.RebindsLive operations)
    (hok : ∀ answer ∈ (tree.run operations).1, ∃ a, answer = .ok a) {final mid after : Tree}
    (hfinal : (tree.run operations).2 = final) :
    (∀ (list other : FieldId) (group : List FieldId) (index : Nat),
      final.perform (.appendElement list) = (.ok (.element group), mid) →
      mid.unwrap other = mid.unwrap list → index + 1 = mid.listLength list →
      mid.perform (.removeElement other index) = (.ok (.outcome .applied), after) →
      final.Restores after) ∧
    ∀ (parent child : NodeId) (category : Category),
      final.perform (.addByCategory parent category) = (.ok (.outcome .applied), mid) →
      (mid.children parent).getLast? = some child →
      mid.perform (.removeChild parent child) = (.ok (.outcome .applied), after) →
      final.Restores after := by
  subst hfinal
  have h := (settled_start hstart).run hlive hok
  have ht := (tenured_start hstart).run hlive hok
  have hforest := (forest_start hstart).run operations
  exact ⟨fun _ _ _ _ hadd hother hindex hremove ↦ h.restores_append ht hadd hother hindex hremove,
    fun _ _ _ hadd hlast hremove ↦ h.restores_add ht hforest hadd hlast hremove⟩

/-- An animation that is added below a state map makes its list of states one element long. Taken
out again, it leaves the list empty, with all else as it was. So does a colour of an object. -/
theorem restored_run_standard :
    let final := (standardTree.run
      [.addByCategory ⟨0⟩ .object, .addByCategory ⟨1⟩ .animation, .retype ⟨2⟩ "m"]).2
    (final.perform (.addByCategory ⟨3⟩ .animation)).2.listLength ⟨15⟩ = 1 ∧
      final.Restores
        ((final.perform (.addByCategory ⟨3⟩ .animation)).2.perform (.removeChild ⟨3⟩ ⟨4⟩)).2 ∧
      final.Restores
        ((final.perform (.appendElement ⟨6⟩)).2.perform (.removeElement ⟨6⟩ 0)).2 := by
  intro final
  have hlive : standardTree.RebindsLive
      [.addByCategory ⟨0⟩ .object, .addByCategory ⟨1⟩ .animation, .retype ⟨2⟩ "m"] :=
    ⟨trivial, trivial, trivial, trivial⟩
  have hanswers : (standardTree.run
      [.addByCategory ⟨0⟩ .object, .addByCategory ⟨1⟩ .animation, .retype ⟨2⟩ "m"]).1 =
      [.ok (.outcome .applied), .ok (.outcome .applied), .ok (.outcome .applied)] := by
    decide +kernel
  have hok : ∀ answer ∈ (standardTree.run
      [.addByCategory ⟨0⟩ .object, .addByCategory ⟨1⟩ .animation, .retype ⟨2⟩ "m"]).1,
      ∃ a, answer = .ok a := by
    rw [hanswers]
    simp
  have hadd : (final.perform (.addByCategory ⟨3⟩ .animation)).1 = .ok (.outcome .applied) := by
    decide +kernel
  have hlast : ((final.perform (.addByCategory ⟨3⟩ .animation)).2.children ⟨3⟩).getLast? =
      some ⟨4⟩ := by
    decide +kernel
  have hremove : ((final.perform (.addByCategory ⟨3⟩ .animation)).2.perform
      (.removeChild ⟨3⟩ ⟨4⟩)).1 = .ok (.outcome .applied) := by
    decide +kernel
  have happend : (final.perform (.appendElement ⟨6⟩)).1 = .ok (.element [⟨16⟩]) := by
    decide +kernel
  have hlength : 0 + 1 = (final.perform (.appendElement ⟨6⟩)).2.listLength ⟨6⟩ := by
    decide +kernel
  have hdrop : ((final.perform (.appendElement ⟨6⟩)).2.perform (.removeElement ⟨6⟩ 0)).1 =
      .ok (.outcome .applied) := by
    decide +kernel
  obtain ⟨-, hchild⟩ := restored_run start_standard hlive hok rfl
  obtain ⟨helement, -⟩ := restored_run start_standard hlive hok rfl
  exact ⟨by decide +kernel,
    hchild ⟨3⟩ ⟨4⟩ .animation (perform_eq hadd) hlast (perform_eq hremove),
    helement ⟨6⟩ ⟨6⟩ [⟨16⟩] 0 (perform_eq happend) rfl hlength (perform_eq hdrop)⟩

end Tree

end LightTree
