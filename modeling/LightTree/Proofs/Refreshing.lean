import LightTree.Proofs.UpToDate

/-!
# Cascades bring fields up to date

A visit that ends without a fault leaves the visited field up to date and spoils no other field. A
field that derives its state anew spoils its followers, which are the fields that are visited next.
While a linked list grows or shrinks, neither the list nor its source is visited by the cascades of
the new fields, so that its length comes out as the one that the source had at the beginning.
-/

namespace LightTree

open Relation Edit LightTree.Tree

/-- Visits that end without a fault bring the visited field up to date and spoil no other. -/
def Refreshing (visit : FieldId → Edit Unit) : Prop :=
  ∀ (tree : Tree) (id : FieldId), tree.Sound →
    (visit id).Meets tree (fun _ after ↦ tree.Keeps after ∧ after.UpToDate id) fun _ _ ↦ True

/-- An edit that ends without a fault spoils no field. -/
def Edit.Spares {α : Type} (edit : Edit α) (tree : Tree) : Prop :=
  edit.Meets tree (fun _ after ↦ tree.Keeps after) fun _ _ ↦ True

namespace Refreshing

variable {region : Region} {tree : Tree} {visit : FieldId → Edit Unit} {owner : NodeId}
  {container : Option FieldId}

/-! ## Building fields -/

theorem rebindWith (hr : Refreshing visit) (h : tree.Sound) {dependent : FieldId}
    {source : Source} (hissued : tree.Issued source) :
    (rebindWith visit dependent source).Meets tree
      (fun _ after ↦ tree.Keeps after ∧ after.UpToDate dependent) fun _ _ ↦ True := by
  rw [meets_rebindWith]
  refine ⟨fun field hf ↦ ⟨fun _ ↦ trivial, fun hc ↦ ⟨fun _ _ ↦ trivial, fun _ ↦ ?_⟩⟩,
    fun _ ↦ trivial⟩
  have hl := live_of_some hf
  have hs := h.relink_of_not_closesCycle hl hissued hc
  apply (hr _ dependent hs).imp
  · rintro _ after ⟨hkeeps, hdep⟩
    refine ⟨fun id hid ↦ ?_, hdep⟩
    by_cases he : id = dependent
    · exact he ▸ hdep
    · exact hkeeps id (hid.relink h hl hs he)
  · intro fault after _
    rw [meets_relink]
    exact ⟨fun _ ↦ trivial, fun _ ↦ trivial⟩

theorem plant (hr : Refreshing visit) (hg : region.Governs tree)
    (hhost : region.Hosts tree owner container) (group : List FieldId) (decl : FieldDecl)
    {value : Value} (hnodup : value.parts.Nodup) (hparts : ∀ c ∈ value.parts, tree.Loose c) :
    (plant visit owner group container decl value).Spares tree := by
  unfold Spares
  rw [meets_plant]
  set field : Field := { name := decl.name, owner, value, container } with hfield
  have hs : (tree.insertField field).Sound := hg.sound.insertField rfl rfl
    (fun c hc ↦ (hhost.container c hc).2) hhost.owner hnodup hparts
  have hkeeps := keeps_insertField hg.sound rfl hs
  refine (meets_resolve owner group decl).imp ?_ fun _ _ _ ↦ trivial
  rintro source after ⟨rfl, hsource⟩
  refine ⟨fun _ ↦ hkeeps, fun s hss ↦ ?_⟩
  have hissued : (tree.insertField field).Issued s := by
    rcases hsource s hss with rfl | ⟨name, id, _, rfl, hfirst⟩
    · exact hhost.owner
    · exact (live_of_firstNamed?_eq_some hfirst).lt_size
  exact (hr.rebindWith hs hissued).imp (fun _ _ h ↦ hkeeps.trans h.1) fun _ _ _ ↦ trivial

theorem instantiate (hv : Confined visit) (hr : Refreshing visit) (hg : region.Governs tree)
    (hhost : region.Hosts tree owner container) {group : List FieldId}
    (hgroup : ∀ x ∈ group, region.sources (.field x)) :
    ∀ decl : FieldDecl, (instantiate visit owner group container decl).Spares tree
  | .scalar _ _ => hr.plant hg hhost group _ List.nodup_nil nofun
  | .choice name options => by
    unfold Spares
    rw [meets_instantiate_choice]
    exact ⟨fun _ ↦ trivial, fun _ ↦ hr.plant hg hhost group _ List.nodup_nil nofun⟩
  | .list _ _ _ => hr.plant hg hhost group _ List.nodup_nil nofun
  | .gated name source condition inner => by
    unfold Spares
    rw [meets_instantiate_gated]
    refine ((hv.instantiate hg hhost hgroup inner).and
      (instantiate hv hr hg hhost hgroup inner)).imp ?_ fun _ _ _ ↦ trivial
    rintro id mid ⟨⟨hlead, hloose, _⟩, hkeeps⟩
    have hnodup : (Value.gated condition id).parts.Nodup := List.nodup_singleton id
    refine (hr.plant (hlead.governs hg) (hhost.of_framed (hlead.framed hg)) group _ hnodup
      fun c hc ↦ ?_).imp (fun _ _ h ↦ hkeeps.trans h) fun _ _ _ ↦ trivial
    rw [List.mem_singleton.1 hc]
    exact hloose

theorem instantiateGroup (hv : Confined visit) (hr : Refreshing visit) (hg : region.Governs tree)
    (hhost : region.Hosts tree owner container) {group : List FieldId}
    (hgroup : ∀ x ∈ group, region.sources (.field x)) (decls : List FieldDecl) :
    (instantiateGroup visit owner container group decls).Spares tree := by
  induction decls generalizing tree group with
  | nil => exact Keeps.refl tree
  | cons decl rest ih =>
      unfold Spares
      rw [meets_instantiateGroup_cons]
      refine ((hv.instantiate hg hhost hgroup decl).and
        (instantiate hv hr hg hhost hgroup decl)).imp ?_ fun _ _ _ ↦ trivial
      rintro id mid ⟨⟨hlead, _, hnew⟩, hkeeps⟩
      refine (ih (hlead.governs hg) (hhost.of_framed (hlead.framed hg)) fun x hx ↦ ?_).imp
        (fun _ _ h ↦ hkeeps.trans h) fun _ _ _ ↦ trivial
      exact (List.mem_append.1 hx).elim (hgroup x) fun hx ↦
        List.mem_singleton.1 hx ▸ hg.fresh_source id hnew

end Refreshing

/-! ## Sources of a changing field -/

namespace Tree

variable {tree after : Tree} {id : FieldId} {source : Source}

/-- The source of a field looks the same if all that the field follows does. -/
theorem sameSource_of_follows (ht : tree.Sound) (ha : after.Sound) (hnodes : tree.SameNodes after)
    (hlink : after.link? id = some source) (hlive : after.SourceLive source)
    (hsame : ∀ x, after.Live x → after.Follows id x → tree.SameAt after x) :
    tree.SourceLive source ∧ tree.SameSource after source := by
  cases source with
  | field s =>
      have hlayers : ∀ x, ReflTransGen after.Wraps s x → tree.SameAt after x := fun x hx ↦
        hsame x (ha.owned.wraps_live hx hlive) ⟨s, hlink, hx⟩
      obtain ⟨new, hn⟩ := live_iff.1 hlive
      obtain ⟨old, ho, _⟩ := hlayers s .refl new hn
      exact ⟨live_of_some ho, .of_layers ht.ordered ha.ordered ha.owned hlive hlayers⟩
  | children node =>
      obtain ⟨hl, hc⟩ := hnodes.children_of_liveNode node hlive
      exact ⟨hl, .of_children (iff_of_true hlive hl) hc⟩

/-- No layer of the source of a field is the field itself. -/
theorem Sound.ne_of_follows (h : tree.Sound) {x : FieldId} (hl : tree.Live x)
    (hf : tree.Follows id x) : x ≠ id := by
  rintro rfl
  exact h.not_feeds_self x (h.feeds_of_follows hl hf)

/-- A linked list has `count` elements, and its source has a length while it lives. -/
def Sized (tree : Tree) (id : FieldId) (source : Source) (length count : Nat) : Prop :=
  ∀ field, tree.field? id = some field → field.link = some source ∧
    (∃ template elements, field.value = .list true template elements ∧ elements.length = count) ∧
    (tree.SourceLive source → tree.sourceLength source = length)

variable {length count : Nat}

theorem Sized.upToDate (h : tree.Sized id source length length) : tree.UpToDate id := by
  intro field source' hf hlink hlive
  obtain ⟨hl, ⟨template, elements, hv, he⟩, hlen⟩ := h field hf
  rw [hl] at hlink
  cases hlink
  rw [hv]
  refine ⟨nofun, fun template' elements' hlist ↦ ?_⟩
  cases hlist
  rw [he, hlen hlive]

/-- Cascades beyond a list change neither the list nor the length of its source. -/
theorem Sized.of_leads (h : tree.Sized id source length count) (ht : tree.Sound)
    (hid : id.index < tree.fields.size) (hl : (tree.beyond id).Leads tree after) :
    after.Sized id source length count := by
  intro new hn
  have hg := ht.governs_beyond id
  have ha := hl.governs hg
  have hframed := hl.framed hg
  obtain ⟨old, ho, ⟨f, hf⟩, hstate⟩ := hframed.field id new hid hn
  obtain ⟨hlink, hcount, hlength⟩ := h old ho
  have hnew : new.link = some source := by
    rw [hf]
    exact hlink
  refine ⟨hnew, (hstate (ht.not_visited_beyond hid)).1 ▸ hcount, fun hlive ↦ ?_⟩
  have hafter : after.link? id = some source := by rw [link?, read_of_some hn, hnew]
  have hissued : tree.Issued source := ht.ordered.link_issued id source (by
    rw [link?, read_of_some ho, hlink])
  have hlayers : ∀ x, after.Live x → after.Follows id x → tree.SameAt after x := by
    intro x hx hfollows
    -- A layer of the source that was visited would feed the list, and the list would be visited.
    have hnot : ¬(tree.beyond id).visited x := fun hv ↦
      ht.not_visited_beyond hid (ha.listeners x id (ha.visited_within x hv)
        ((ha.sound.mirrored.mem_iff hx).2 hfollows))
    have hold : x.index < tree.fields.size := by
      obtain ⟨s, hs, hw⟩ := hfollows
      rw [hafter] at hs
      cases hs
      exact Nat.lt_of_le_of_lt (ha.sound.ordered.le_of_wraps hw) hissued
    intro layer hlayer
    obtain ⟨before, hbefore, _, hsame⟩ := hframed.field x layer hold hlayer
    exact ⟨before, hbefore, hsame hnot⟩
  obtain ⟨hlive', hsame⟩ :=
    sameSource_of_follows ht ha.sound hframed.nodes hafter hlive hlayers
  rw [hsame.length, hlength hlive']

/-- A change of the elements of a list changes nothing about its source. -/
theorem Sized.of_sameAt (h : tree.Sized id source length count) (ht : tree.Sound)
    (ha : after.Sound) (hnodes : tree.SameNodes after)
    (hsame : ∀ x, x ≠ id → tree.SameAt after x) {count' : Nat}
    (hself : ∀ new, after.field? id = some new → ∃ old, tree.field? id = some old ∧
      new.link = old.link ∧ ∀ template elements, old.value = .list true template elements →
        elements.length = count → ∃ elements', new.value = .list true template elements' ∧
          elements'.length = count') : after.Sized id source length count' := by
  intro new hn
  obtain ⟨old, ho, hlinks, hvalue⟩ := hself new hn
  obtain ⟨hlink, ⟨template, elements, hv, he⟩, hlength⟩ := h old ho
  obtain ⟨elements', hv', he'⟩ := hvalue template elements hv he
  refine ⟨hlinks.trans hlink, ⟨template, elements', hv', he'⟩, fun hlive ↦ ?_⟩
  have hafter : after.link? id = some source := by rw [link?, read_of_some hn, hlinks, hlink]
  obtain ⟨hlive', hsource⟩ := sameSource_of_follows ht ha hnodes hafter hlive
    fun x hx hf ↦ hsame x (ha.ne_of_follows hx hf)
  rw [hsource.length, hlength hlive']

theorem Sized.push (h : tree.Sized id source length count) (ht : tree.Sound)
    {group : List FieldId} (ha : (tree.push id group).Sound) :
    (tree.push id group).Sized id source length (count + 1) := by
  refine h.of_sameAt ht ha (.push tree id group) (fun x hx ↦ ?_) fun new hn ↦ ?_
  · exact .of_eq (by rw [Tree.push, field?_updateField, if_neg (Ne.symm hx)])
  · rw [Tree.push, field?_updateField, if_pos rfl] at hn
    obtain ⟨old, ho, rfl⟩ := Option.map_eq_some_iff.1 hn
    refine ⟨old, ho, rfl, fun template elements hv he ↦ ⟨elements ++ [group], ?_, ?_⟩⟩
    · simp only [hv, Value.mapElements]
    · simp [he]

theorem Sized.drop (h : tree.Sized id source length (count + 1)) (ht : tree.Sound)
    {group : List FieldId} (ha : (tree.drop id (·.dropLast) group).Sound) :
    (tree.drop id (·.dropLast) group).Sized id source length count := by
  have hs := releaseFields_shrinks (tree.updateField id fun field ↦
    { field with value := field.value.mapElements (·.dropLast) }) group
  refine h.of_sameAt ht ha (.drop tree id _ group) (fun x hx new hn ↦ ?_) fun new hn ↦ ?_
  · obtain ⟨mid, hm, hvalue, hactive⟩ := hs.sameAt x new hn
    rw [field?_updateField, if_neg (Ne.symm hx)] at hm
    exact ⟨mid, hm, hvalue, hactive⟩
  · obtain ⟨mid, hm, hnew, _⟩ := hs.field id new hn
    rw [field?_updateField, if_pos rfl] at hm
    obtain ⟨old, ho, rfl⟩ := Option.map_eq_some_iff.1 hm
    refine ⟨old, ho, by rw [hnew], fun template elements hv he ↦ ⟨elements.dropLast, ?_, ?_⟩⟩
    · rw [hnew]
      simp only [hv, Value.mapElements]
    · simp [he]

/-- Cascades that spoil no field and stay beyond one keep its followers. -/
theorem Keeps.keepsBut (h : tree.Keeps after) (ht : tree.Sound)
    (hl : (tree.beyond id).Leads tree after) : tree.KeepsBut after id := by
  have hg := ht.governs_beyond id
  have hframed := hl.framed hg
  intro j _ hold
  rcases hold with hold | hold
  · exact .inl (h j hold)
  · exact hold.persists (hl.governs hg).sound.owned
      (hframed.link? (live_of_follows hold).lt_size) fun x hx ↦ hframed.inner? hx.lt_size

end Tree

/-! ## Linked lists -/

/-- An edit that ends without a fault brings a field up to date and spoils its followers only. -/
def Edit.Settles {α : Type} (edit : Edit α) (tree : Tree) (id : FieldId) : Prop :=
  edit.Meets tree (fun _ after ↦ after.Sound ∧ after.UpToDate id ∧ tree.KeepsBut after id)
    fun _ _ ↦ True

namespace Refreshing

variable {tree : Tree} {visit : FieldId → Edit Unit} {owner : NodeId} {id : FieldId}
  {source : Source} {length : Nat}

theorem grow (hv : Confined visit) (hr : Refreshing visit) (h : tree.Sound)
    (hid : id.index < tree.fields.size) (howner : owner.index < tree.nodes.size)
    (template : List FieldDecl) (count : Nat) {had : Nat}
    (hsized : tree.Sized id source length had) :
    (grow visit owner template id count).Meets tree
      (fun _ after ↦ after.Sound ∧ after.Sized id source length (had + count) ∧
        tree.KeepsBut after id) fun _ _ ↦ True := by
  induction count generalizing tree had with
  | zero => exact ⟨h, hsized, .refl tree id⟩
  | succ count ih =>
      rw [meets_grow_succ]
      have hg := h.governs_beyond id
      have hhost : (tree.beyond id).Hosts tree owner (some id) := by
        refine ⟨⟨trivial, fun _ _ ↦ trivial⟩, howner, fun c hc ↦ ?_⟩
        cases hc
        exact ⟨.inr .refl, hid⟩
      refine ((hv.instantiateGroup hg hhost .nil template).and
        (instantiateGroup hv hr hg hhost (fun _ _ ↦ trivial) template)).imp ?_ fun _ _ _ ↦ trivial
      rintro group mid ⟨⟨hlead, hgroup⟩, hkeeps⟩
      refine ⟨fun hlive ↦ ?_, fun _ ↦ trivial⟩
      have hmid := (hlead.governs hg).sound
      have hpush : (mid.push id group).Sound :=
        hmid.push id hgroup.nodup fun x hx ↦ (hgroup.loose x hx).1
      have hsame : SameNodes tree (mid.push id group) :=
        (hlead.framed hg).nodes.trans (.push mid id group)
      have hsized' := (hsized.of_leads h hid hlead).push hmid hpush
      have hbut : tree.KeepsBut (mid.push id group) id :=
        (hkeeps.keepsBut h hlead).trans (keepsBut_updateField hmid (retouches_mapElements _) hpush)
      have hid' : id.index < (mid.push id group).fields.size := by
        rw [push, size_updateField]
        exact hlive.lt_size
      refine (ih hpush hid' (hsame.nodes_size ▸ howner) hsized').imp ?_ fun _ _ _ ↦ trivial
      rintro _ after ⟨ha, hs, hb⟩
      exact ⟨ha, by rwa [Nat.add_right_comm] at hs, hbut.trans hb⟩

theorem shrink (h : tree.Sound) (count : Nat) {left : Nat}
    (hsized : tree.Sized id source length (left + count)) :
    (shrink id count).Meets tree
      (fun _ after ↦ after.Sound ∧ after.Sized id source length left ∧ tree.KeepsBut after id)
      fun _ _ ↦ True := by
  induction count generalizing tree with
  | zero => exact ⟨h, hsized, .refl tree id⟩
  | succ count ih =>
      rw [meets_shrink_succ]
      refine ⟨fun field hf ↦ ?_, fun _ ↦ trivial⟩
      have hdrop := h.drop hf (splits_dropLast field.value)
      refine (ih hdrop (hsized.drop h hdrop)).imp ?_ fun _ _ _ ↦ trivial
      exact fun _ after ⟨ha, hs, hb⟩ ↦ ⟨ha, hs, (keepsBut_drop h hdrop).trans hb⟩

theorem resize (hv : Confined visit) (hr : Refreshing visit) (h : tree.Sound) {field : Field}
    (hf : tree.field? id = some field) (hlink : field.link = some source)
    {template : List FieldDecl} {elements : List (List FieldId)}
    (hvalue : field.value = .list true template elements) :
    (resize visit id (tree.sourceLength source)).Settles tree id := by
  unfold Settles
  rw [meets_resize]
  refine ⟨fun field' hf' ↦ ⟨fun linked template' elements' hvalue' ↦ ?_, fun _ ↦ trivial⟩,
    fun _ ↦ trivial⟩
  rw [hf] at hf'
  cases hf'
  rw [hvalue] at hvalue'
  cases hvalue'
  have hsized : tree.Sized id source (tree.sourceLength source) elements.length := by
    intro field' hf'
    rw [hf] at hf'
    cases hf'
    exact ⟨hlink, ⟨template, elements, hvalue, rfl⟩, fun _ ↦ rfl⟩
  have howner : field.owner.index < tree.nodes.size :=
    h.ordered.owner_issued id _ (read_of_some hf _ _)
  refine (grow hv hr h (live_of_some hf).lt_size howner template _ hsized).imp ?_
    fun _ _ _ ↦ trivial
  rintro _ mid ⟨hmid, hgrown, hbut⟩
  have htotal : elements.length + (tree.sourceLength source - elements.length) =
      tree.sourceLength source + (elements.length - tree.sourceLength source) := by omega
  rw [htotal] at hgrown
  refine (shrink hmid _ hgrown).imp ?_ fun _ _ _ ↦ trivial
  exact fun _ after ⟨ha, hs, hb⟩ ↦ ⟨ha, hs.upToDate, hbut.trans hb⟩

/-! ## Deriving and notifying -/

/-- A gated field that takes the activity its source determines is up to date. -/
theorem settles_setActive (h : tree.Sound) {field : Field} (hf : tree.field? id = some field)
    (hlink : field.link = some source) {condition : Condition} {inner : FieldId}
    (hvalue : field.value = .gated condition inner) :
    let after := tree.updateField id ({ · with active := tree.holds source condition })
    after.Sound ∧ after.UpToDate id ∧ tree.KeepsBut after id := by
  intro after
  have ha : after.Sound := h.setActive id _
  have hnew : after.field? id = some { field with active := tree.holds source condition } := by
    simp [after, field?_updateField, hf]
  refine ⟨ha, fun new source' hn hlink' hlive ↦ ?_,
    keepsBut_updateField h (retouches_setActive _) ha⟩
  rw [hnew] at hn
  cases hn
  cases hlink.symm.trans hlink'
  have hafter : after.link? id = some source := by rw [link?, read_of_some hnew, hlink]
  have hsame := (sameSource_of_follows h ha (.updateField tree id _) hafter hlive fun x hx hfx ↦
    .of_eq (by
      have hne := ha.ne_of_follows hx hfx
      rw [field?_updateField, if_neg (Ne.symm hne)])).2
  refine ⟨fun condition' inner' hv ↦ ?_, fun template elements hv ↦ ?_⟩
  · cases hvalue.symm.trans hv
    exact (hsame.holds condition).symm
  · cases hvalue.symm.trans hv

theorem recompute (hv : Confined visit) (hr : Refreshing visit) (h : tree.Sound) (id : FieldId) :
    (recompute visit id).Settles tree id := by
  unfold Settles
  rw [meets_recompute]
  refine ⟨fun field hf ↦ ⟨fun source condition inner hlink hvalue ↦ ?_,
    fun source template elements hlink hvalue ↦ ?_, fun hother ↦ ?_⟩, fun _ ↦ trivial⟩
  · exact settles_setActive h hf hlink hvalue
  · exact resize hv hr h hf hlink hvalue
  · refine ⟨h, ?_, .refl tree id⟩
    rcases hother with hnone | ⟨hinner, hlist⟩
    · exact upToDate_of_link?_eq_none (by rw [link?, read_of_some hf, hnone])
    · exact upToDate_of_underived hf hinner hlist

theorem forM (hv : Confined visit) (hr : Refreshing visit) (h : tree.Sound) (ids : List FieldId) :
    (ids.forM visit).Meets tree
      (fun _ after ↦ after.Sound ∧ ∀ id, tree.UpToDate id ∨ id ∈ ids → after.UpToDate id)
      fun _ _ ↦ True := by
  refine meets_forM (fun rest after ↦ after.Sound ∧
    ∀ id, tree.UpToDate id ∨ id ∈ ids ∧ id ∉ rest → after.UpToDate id) ?_ ?_ ids tree
    ⟨h, fun id hid ↦ hid.resolve_right fun hm ↦ hm.2 hm.1⟩
  · exact fun after ⟨ha, hdone⟩ ↦ ⟨ha, fun id hid ↦
      hdone id (hid.imp_right fun hm ↦ ⟨hm, List.not_mem_nil⟩)⟩
  · rintro b rest mid ⟨hmid, hdone⟩
    refine ((hv mid.whole mid b hmid.governs trivial).and (hr mid b hmid)).imp ?_
      fun _ _ _ ↦ trivial
    rintro _ after ⟨hlead, hkeeps, hb⟩
    refine ⟨hmid.of_leads hlead, fun id hid ↦ ?_⟩
    by_cases he : id = b
    · exact he ▸ hb
    · exact hkeeps id (hdone id (hid.imp_right fun hm ↦ ⟨hm.1, by simp [he, hm.2]⟩))

theorem spread (hv : Confined visit) (hr : Refreshing visit) (h : tree.Sound)
    (ids : List FieldId) :
    (spread visit ids).Meets tree (fun _ after ↦ after.Sound ∧ tree.Keeps after)
      fun _ _ ↦ True := by
  induction ids generalizing tree with
  | nil => exact ⟨h, .refl tree⟩
  | cons id outer ih =>
      rw [meets_spread_cons]
      refine ⟨fun _ ↦ ?_, fun _ ↦ ⟨h, .refl tree⟩⟩
      refine (forM hv hr h (tree.listeners id)).imp ?_ fun _ _ _ ↦ trivial
      rintro _ mid ⟨hmid, hdone⟩
      refine (ih hmid).imp ?_ fun _ _ _ ↦ trivial
      exact fun _ after ⟨ha, hk⟩ ↦ ⟨ha, fun j hj ↦ hk j (hdone j (.inl hj))⟩

/-- What follows a field that is gone has lost its source. -/
theorem upToDate_of_follows_dead (h : tree.Sound) {j : FieldId} (hdead : ¬tree.Live id)
    (hf : tree.Follows j id) : tree.UpToDate j := by
  obtain ⟨s, hs, hw⟩ := hf
  exact upToDate_of_source_not_live hs fun hlive ↦ hdead (h.owned.wraps_live hw hlive)

/-- Spreading a change of a field brings its followers up to date. -/
theorem propagate_field (hv : Confined visit) (hr : Refreshing visit) (h : tree.Sound)
    (id : FieldId) :
    (propagate visit (.field id)).Meets tree
      (fun _ after ↦ after.Sound ∧
        ∀ j, tree.UpToDate j ∨ tree.Follows j id → after.UpToDate j) fun _ _ ↦ True := by
  rw [meets_propagate_field]
  obtain ⟨outer, houter⟩ : ∃ outer, tree.enclosing id = id :: outer := by
    unfold enclosing
    cases hfuel : tree.fields.size with
    | zero => exact ⟨[], rfl⟩
    | succ fuel =>
        cases hc : tree.container? id with
        | none => exact ⟨[], chain_of_none hc _⟩
        | some c => exact ⟨_, chain_of_some hc fuel⟩
  rw [houter, meets_spread_cons]
  refine ⟨fun hlive ↦ ?_, fun hdead ↦ ⟨h, fun j hj ↦ ?_⟩⟩
  · refine (forM hv hr h (tree.listeners id)).imp ?_ fun _ _ _ ↦ trivial
    rintro _ mid ⟨hmid, hdone⟩
    refine (spread hv hr hmid outer).imp ?_ fun _ _ _ ↦ trivial
    rintro _ after ⟨ha, hk⟩
    refine ⟨ha, fun j hj ↦ hk j (hdone j (hj.imp_right fun hf ↦ ?_))⟩
    exact (h.mirrored.mem_iff hlive).2 hf
  · exact hj.elim (fun hj ↦ hj) (upToDate_of_follows_dead h hdead)

theorem notify (fuel : Nat) :
    ∀ (refresh : Bool) (path : List FieldId), Refreshing (notify fuel refresh path) := by
  induction fuel with
  | zero => exact fun _ _ _ _ _ ↦ trivial
  | succ fuel ih =>
      intro refresh path tree id h
      rw [meets_notify_succ]
      refine ⟨fun field hf ↦ ⟨fun _ _ ↦ trivial, fun _ ↦ ?_⟩, fun hf ↦ ?_⟩
      · refine (recompute (Confined.notify fuel false []) (ih false []) h id).imp ?_
          fun _ _ _ ↦ trivial
        rintro _ mid ⟨hmid, hid, hbut⟩
        have hrest : ∀ last : Tree, last.Sound → last.UpToDate id → tree.KeepsBut last id →
            (LightTree.propagate (LightTree.notify fuel refresh (id :: path)) (.field id)).Meets
              last
              (fun _ after ↦ tree.Keeps after ∧ after.UpToDate id) fun _ _ ↦ True := by
          intro last hlast hid hbut
          refine (propagate_field (Confined.notify fuel refresh (id :: path))
            (ih refresh (id :: path)) hlast id).imp ?_ fun _ _ _ ↦ trivial
          rintro _ after ⟨_, hdone⟩
          refine ⟨fun j hj ↦ hdone j ?_, hdone id (.inl hid)⟩
          by_cases he : j = id
          · exact .inl (he ▸ hid)
          · exact hbut j he (.inl hj)
        split
        · have hk := keeps_refresh hmid
          refine hrest _ hmid.refresh (hk id hid) fun j hj hold ↦ ?_
          exact (hbut j hj hold).imp (hk j) fun hf ↦ hf
        · exact hrest mid hmid hid hbut
      · exact ⟨.refl tree, upToDate_of_not_live (not_live_iff.2 hf)⟩

theorem enter (refresh : Bool) : Refreshing (enter refresh) := by
  intro tree id h
  rw [LightTree.enter, meets_bind, meets_get]
  exact notify _ refresh [] tree id h

end Refreshing

end LightTree
