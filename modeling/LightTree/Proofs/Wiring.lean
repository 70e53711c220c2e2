import LightTree.Proofs.Scope

/-!
# What names resolve to

A new field is linked to the field that its declaration means: the one that was declared under that
name before it in its own group or, if none was, one of that name at the top of its node. A field
inside a gate is linked as the gate is. No cascade moves the link of a field again.
-/

namespace LightTree

open Edit

namespace Tree

/-- The fields of a group have the names that have been declared, in order. -/
def Declares (tree : Tree) (group : List FieldId) (declared : List String) : Prop :=
  group.map tree.name? = declared.map some

/-- What a name means to a field that is declared after those of a group. -/
def Means (tree : Tree) (owner : NodeId) (group : List FieldId) (declared : List String)
    (name : String) (target : FieldId) : Prop :=
  (∃ i : Nat, group[i]? = some target ∧ declared[i]? = some name) ∨
    name ∉ declared ∧ target ∈ tree.topFields owner ∧ tree.name? target = some name

/-- A field is linked to what its declaration means, and so is the field inside it. -/
def Wired (tree : Tree) (means : String → FieldId → Prop) : FieldDecl → FieldId → Prop
  | .list _ (.field source) _, id => ∃ target, means source target ∧
    tree.link? id = some (.field target)
  | .gated _ source _ inner, id => (∃ target, means source target ∧
    tree.link? id = some (.field target)) ∧ ∃ x, tree.inner? id = some x ∧ tree.Wired means inner x
  | _, _ => True

variable {tree after last : Tree} {group : List FieldId} {declared : List String} {owner : NodeId}
  {name : String} {target id : FieldId} {meant meant' : String → FieldId → Prop}

theorem Declares.length_eq (h : tree.Declares group declared) : group.length = declared.length := by
  simpa using congrArg List.length h

theorem Declares.name?_eq (h : tree.Declares group declared) {i : Nat} (hi : group[i]? = some id) :
    tree.name? id = declared[i]? := by
  have hget := congrArg (·[i]?) h
  simp only [List.getElem?_map, hi, Option.map_some] at hget
  cases hd : declared[i]? with
  | none =>
      rw [hd] at hget
      cases hget
  | some name =>
      rw [hd] at hget
      exact Option.some.inj hget

theorem Declares.finds (h : tree.Declares group declared) (hname : name ∈ declared) :
    tree.Finds group name := by
  obtain ⟨i, hi⟩ := List.mem_iff_getElem?.1 hname
  have hlt : i < group.length := h.length_eq ▸ (List.getElem?_eq_some_iff.1 hi).1
  have hget := List.getElem?_eq_getElem hlt
  exact ⟨group[i], List.getElem_mem hlt, (h.name?_eq hget).trans hi⟩

theorem Declares.of_abides (h : tree.Declares group declared) (hab : tree.Abides after)
    (hlive : ∀ x ∈ group, tree.Live x ∧ after.Live x) : after.Declares group declared := by
  rw [Declares, ← h]
  exact List.map_congr_left fun x hx ↦ hab.name? (hlive x hx).1.lt_size (hlive x hx).2

theorem Declares.append (h : tree.Declares group declared) (hname : tree.name? id = some name) :
    tree.Declares (group ++ [id]) (declared ++ [name]) := by
  rw [Declares, List.map_append, List.map_append, h, List.map_singleton, hname]
  rfl

/-- The first field of a name is the one that the name means. -/
theorem Declares.means (h : tree.Declares group declared)
    (hfirst : tree.firstNamed? name (group ++ tree.topFields owner) = some target) :
    tree.Means owner group declared name target := by
  have hnamed : ∀ x, (tree.field? x).any (·.name == name) = true ↔ tree.name? x = some name := by
    intro x
    cases hf : tree.field? x with
    | none => simp [Tree.name?, read_of_none hf]
    | some field => simp [Tree.name?, read_of_some hf]
  rw [firstNamed?, List.find?_append, Option.or_eq_some_iff] at hfirst
  rcases hfirst with hgroup | ⟨hnone, htop⟩
  · obtain ⟨i, hi⟩ := List.mem_iff_getElem?.1 (List.mem_of_find?_eq_some hgroup)
    have hfound := List.find?_some hgroup
    exact .inl ⟨i, hi, (h.name?_eq hi).symm.trans ((hnamed target).1 hfound)⟩
  · have hfound := List.find?_some htop
    refine .inr ⟨fun hmem ↦ ?_, List.mem_of_find?_eq_some htop, (hnamed target).1 hfound⟩
    obtain ⟨x, hx, hxn⟩ := h.finds hmem
    exact List.find?_eq_none.1 hnone x hx ((hnamed x).2 hxn)

theorem Wired.imp (himp : ∀ name target, meant name target → meant' name target) :
    ∀ {decl : FieldDecl} {id : FieldId}, tree.Wired meant decl id → tree.Wired meant' decl id
  | .scalar .., _, _ => trivial
  | .choice .., _, _ => trivial
  | .list _ .free _, _, _ => trivial
  | .list _ .children _, _, _ => trivial
  | .list _ (.field _) _, _, ⟨target, hm, hl⟩ => ⟨target, himp _ _ hm, hl⟩
  | .gated .., _, ⟨⟨target, hm, hl⟩, x, hx, hw⟩ =>
    ⟨⟨target, himp _ _ hm, hl⟩, x, hx, hw.imp himp⟩

/-- What is left alive of the fields that were there before is linked as before and wraps what it
wrapped before. -/
structure KeepsWires (tree after : Tree) : Prop where
  fields_size : tree.fields.size ≤ after.fields.size
  field : ∀ x : FieldId, x.index < tree.fields.size → after.Live x →
    tree.Live x ∧ after.link? x = tree.link? x ∧ after.inner? x = tree.inner? x

namespace KeepsWires

theorem refl (tree : Tree) : tree.KeepsWires tree :=
  ⟨Nat.le_refl _, fun _ _ hl ↦ ⟨hl, rfl, rfl⟩⟩

theorem trans (h : tree.KeepsWires after) (h' : after.KeepsWires last) : tree.KeepsWires last where
  fields_size := h.fields_size.trans h'.fields_size
  field x hx hl := by
    obtain ⟨hmid, hlink, hinner⟩ := h'.field x (Nat.lt_of_lt_of_le hx h.fields_size) hl
    obtain ⟨hold, hlink', hinner'⟩ := h.field x hx hmid
    exact ⟨hold, hlink.trans hlink', hinner.trans hinner'⟩

theorem of_framed {region : Region} (h : region.Framed tree after)
    (hbase : region.base = tree.fields.size) : tree.KeepsWires after where
  fields_size := h.fields_size
  field _ hx hl := ⟨h.live (hbase ▸ hx) hl, h.link? (hbase ▸ hx) hl, h.inner? (hbase ▸ hx) hl⟩

theorem insertField (tree : Tree) (field : Field) : tree.KeepsWires (tree.insertField field) where
  fields_size := (Nat.le_succ _).trans_eq (size_insertField tree field).symm
  field x hx hl := by
    have hne := ne_nextField_of_lt_size hx
    rw [inner?_eq_read, inner?_eq_read, link?, link?, read_insertField, read_insertField,
      if_neg hne, if_neg hne]
    exact ⟨((live_insertField tree field x).1 hl).resolve_left hne, rfl, rfl⟩

/-- Linking a new field changes the link of no other one. -/
theorem insertLinked (tree : Tree) (field : Field) (source : Option Source) :
    tree.KeepsWires ((tree.insertField field).relink tree.nextField source) where
  fields_size := (insertField tree field).fields_size.trans_eq (fields_size_relink _ _).symm
  field x hx hl := by
    have hnew : (tree.insertField field).Live tree.nextField :=
      (live_insertField tree field _).2 (.inl rfl)
    obtain ⟨hold, hlink, hinner⟩ :=
      (insertField tree field).field x hx ((live_relink _ _ x).1 hl)
    refine ⟨hold, ?_, ?_⟩
    · rw [link?_relink _ hnew, if_neg (ne_nextField_of_lt_size hx), hlink]
    · rw [inner?_relink, hinner]

theorem push (tree : Tree) (id : FieldId) (group : List FieldId) :
    tree.KeepsWires (tree.push id group) where
  fields_size := (size_updateField tree id _).ge
  field x _ hl := by
    have hf := retouches_mapElements (· ++ [group])
    exact ⟨(live_updateField tree id _ x).1 hl, congrFun (link?_updateField hf.link id) x,
      congrFun (inner?_updateField hf.inner? id) x⟩

end KeepsWires

theorem Wired.of_keepsWires (hk : tree.KeepsWires after) (ht : tree.Owned) (ha : after.Owned) :
    ∀ {decl : FieldDecl} {id : FieldId}, tree.Wired meant decl id → tree.Live id → after.Live id →
      after.Wired meant decl id
  | .scalar .., _, _, _, _ => trivial
  | .choice .., _, _, _, _ => trivial
  | .list _ .free _, _, _, _, _ => trivial
  | .list _ .children _, _, _, _, _ => trivial
  | .list _ (.field _) _, _, ⟨target, hm, hl⟩, hold, hlive =>
    ⟨target, hm, (hk.field _ hold.lt_size hlive).2.1.trans hl⟩
  | .gated .., _, ⟨⟨target, hm, hl⟩, x, hx, hw⟩, hold, hlive => by
    obtain ⟨_, hlink, hinner⟩ := hk.field _ hold.lt_size hlive
    have hx' := hinner.trans hx
    exact ⟨⟨target, hm, hlink.trans hl⟩, x, hx',
      hw.of_keepsWires hk ht ha (ht.inner?_live hx) (ha.inner?_live hx')⟩

/-- The fields of the rest of a group are wired in order, each by what stands before it. -/
def WiresGroup (tree after : Tree) (owner : NodeId) (group : List FieldId)
    (declared : List String) : List FieldDecl → List FieldId → Prop
  | decl :: decls, id :: ids => after.Wired (tree.Means owner group declared) decl id ∧
    tree.WiresGroup after owner (group ++ [id]) (declared ++ [decl.name]) decls ids
  | [], [] => True
  | _, _ => False

theorem WiresGroup.imp {mid : Tree} (himp : ∀ group declared name target,
    mid.Means owner group declared name target → tree.Means owner group declared name target) :
    ∀ {decls : List FieldDecl} {ids group : List FieldId} {declared : List String},
      mid.WiresGroup after owner group declared decls ids →
        tree.WiresGroup after owner group declared decls ids
  | _ :: _, _ :: _, _, _, ⟨hw, hrest⟩ => ⟨hw.imp fun _ _ ↦ himp _ _ _ _, hrest.imp himp⟩
  | [], [], _, _, _ => trivial

theorem WiresGroup.length_eq :
    ∀ {decls : List FieldDecl} {ids group : List FieldId} {declared : List String},
      tree.WiresGroup after owner group declared decls ids → ids.length = decls.length
  | _ :: _, _ :: _, _, _, h => congrArg (· + 1) h.2.length_eq
  | [], [], _, _, _ => rfl

theorem WiresGroup.wired {decls : List FieldDecl} {ids : List FieldId}
    (h : tree.WiresGroup after owner group declared decls ids) {i : Nat} {decl : FieldDecl}
    (hd : decls[i]? = some decl) (hi : ids[i]? = some id) :
    after.Wired (tree.Means owner (group ++ ids.take i)
      (declared ++ (decls.take i).map (·.name))) decl id := by
  induction decls generalizing ids group declared i with
  | nil => cases hd
  | cons first rest ih =>
      cases ids with
      | nil => cases hi
      | cons x tail =>
          cases i with
          | zero =>
              obtain rfl := Option.some.inj hd
              obtain rfl := Option.some.inj hi
              simpa using h.1
          | succ i =>
              have hstep := ih h.2 hd hi
              rw [List.append_assoc, List.append_assoc] at hstep
              exact hstep

/-- What a name means does not change when fields are added. -/
theorem Means.of_abides (hab : tree.Abides after) (htop : after.topFields = tree.topFields)
    (ht : tree.Owned) (h : after.Means owner group declared name target) :
    tree.Means owner group declared name target := by
  refine h.imp_right fun ⟨hnot, hmem, hname⟩ ↦ ?_
  rw [htop] at hmem
  refine ⟨hnot, hmem, ?_⟩
  rw [← hab.name? (ht.tops_live owner target hmem).lt_size (live_of_name?_eq_some hname)]
  exact hname

end Tree

namespace Confined

open LightTree.Tree

variable {tree : Tree} {visit : FieldId → Edit Unit} {owner : NodeId} {container : Option FieldId}
  {group : List FieldId} {declared : List String}

/-- A new field is linked to what it depends on. -/
theorem plant_links (hv : Confined visit) (h : tree.Sound)
    (hhost : tree.whole.Hosts tree owner container) (hlive : ∀ x ∈ group, tree.Live x)
    (hd : tree.Declares group declared) (decl : FieldDecl) {name : String}
    (hname : decl.dependency? = some name) (value : Value) (hnodup : value.parts.Nodup)
    (hparts : ∀ c ∈ value.parts, tree.Loose c) :
    (LightTree.plant visit owner group container decl value).Meets tree
      (fun id after ↦ tree.KeepsWires after ∧ (after.Live id →
        (∃ target, tree.Means owner group declared name target ∧
          after.link? id = some (.field target)) ∧ after.inner? id = value.inner?))
      fun _ _ ↦ True := by
  rw [meets_plant]
  set field : Field := { name := decl.name, owner, value, container }
  have hab : tree.Abides (tree.insertField field) := .insertField tree field
  have hs : (tree.insertField field).Sound := h.insertField rfl rfl
    (fun c hc ↦ (hhost.container c hc).2) hhost.owner hnodup hparts
  have hnew : (tree.insertField field).Live tree.nextField :=
    (live_insertField tree field _).2 (.inl rfl)
  have hd' : (tree.insertField field).Declares group declared := hd.of_abides hab fun x hx ↦
    ⟨hlive x hx, (live_insertField tree field x).2 (.inr (hlive x hx))⟩
  refine (meets_resolve_of_dependency? hname).imp ?_ fun _ _ _ ↦ trivial
  rintro _ _ ⟨rfl, target, rfl, hfirst⟩
  refine ⟨nofun, fun s hss ↦ ?_⟩
  cases hss
  rw [meets_rebindWith]
  refine ⟨fun _ _ ↦ ⟨fun _ ↦ trivial, fun hc ↦ ⟨fun _ _ ↦ trivial, fun _ ↦ ?_⟩⟩, fun _ ↦ trivial⟩
  have htarget : (tree.insertField field).Issued (.field target) :=
    (live_of_firstNamed?_eq_some hfirst).lt_size
  have hlinked := hs.relink_of_not_closesCycle hnew htarget hc
  have hsize : tree.nextField.index <
      ((tree.insertField field).relink tree.nextField (some (.field target))).fields.size := by
    rw [fields_size_relink]
    exact hnew.lt_size
  refine (hv _ _ tree.nextField hlinked.governs trivial).imp (fun _ after hlead ↦ ?_) ?_
  · have hframed := hlead.framed hlinked.governs
    refine ⟨(KeepsWires.insertLinked tree field _).trans (.of_framed hframed rfl), fun hl ↦
      ⟨⟨target, (hd'.means hfirst).of_abides hab rfl h.owned, ?_⟩, ?_⟩⟩
    · rw [hframed.link? hsize hl, link?_relink _ hnew, if_pos rfl]
    · rw [hframed.inner? hsize hl, inner?_relink, inner?_eq_read, read_insertField, if_pos rfl]
  · intro fault after _
    rw [meets_relink]
    exact ⟨fun _ ↦ trivial, fun _ ↦ trivial⟩

theorem instantiate_wires (hv : Confined visit) (h : tree.Sound)
    (hhost : tree.whole.Hosts tree owner container) (hloose : ∀ x ∈ group, tree.Loose x)
    (hd : tree.Declares group declared) (decl : FieldDecl) :
    (LightTree.instantiate visit owner group container decl).Meets tree
      (fun id after ↦ after.Wired (tree.Means owner group declared) decl id) fun _ _ ↦ True := by
  have hlive : ∀ x ∈ group, tree.Live x := fun x hx ↦ (hloose x hx).live
  have hbuilds : ∀ decl : FieldDecl,
      (LightTree.instantiate visit owner group container decl).Builds tree.whole tree :=
    hv.instantiate h.governs hhost fun _ _ ↦ trivial
  induction decl using FieldDecl.template?.induct with
  | case1 name rule element =>
      cases rule with
      | free | children => exact (hbuilds _).imp (fun _ _ _ ↦ trivial) fun _ _ _ ↦ trivial
      | field source =>
          refine ((hbuilds (.list name (.field source) element)).and
            (hv.plant_links h hhost hlive hd _ rfl _ List.nodup_nil ?_)).imp
            (fun _ _ hbl ↦ (hbl.2.2 hbl.1.2.1.live).1) fun _ _ _ ↦ trivial
          exact fun _ hc ↦ absurd hc List.not_mem_nil
  | case2 name source condition inner ih =>
      have hwired : (LightTree.instantiate visit owner group container
          (.gated name source condition inner)).Meets tree (fun id after ↦ after.Live id →
            after.Owned → after.Wired (tree.Means owner group declared)
              (.gated name source condition inner) id) fun _ _ ↦ True := ?_
      · exact ((hbuilds _).and hwired).imp
          (fun _ _ hbw ↦ hbw.2 hbw.1.2.1.live (h.of_leads hbw.1.1).owned) fun _ _ _ ↦ trivial
      rw [meets_instantiate_gated]
      refine ((hbuilds inner).and ih).imp ?_ fun _ _ _ ↦ trivial
      rintro x mid ⟨⟨hlead, hx, _⟩, hw⟩
      have hmid := h.of_leads hlead
      have hframed := hlead.framed h.governs
      have hkept : ∀ y ∈ group, mid.Live y := fun y hy ↦
        (hframed.loose y (hlive y hy).lt_size (hloose y hy)).live
      have hdm := hd.of_abides (.of_framed hframed rfl) fun y hy ↦ ⟨hlive y hy, hkept y hy⟩
      refine (hv.plant_links hmid (h.hosts_of_leads hhost hlead) hkept hdm
        (.gated name source condition inner) rfl (.gated condition x) (List.nodup_singleton x)
        fun c hc ↦ List.mem_singleton.1 hc ▸ hx).imp ?_ fun _ _ _ ↦ trivial
      rintro gate after ⟨hk, hgate⟩ hl ha
      obtain ⟨⟨target, hm, hlink⟩, hinner⟩ := hgate hl
      exact ⟨⟨target, hm.of_abides (.of_framed hframed rfl) hframed.nodes.topFields h.owned, hlink⟩,
        x, hinner, hw.of_keepsWires hk hmid.owned ha hx.live (ha.inner?_live hinner)⟩
  | case3 decl hlist hgated =>
      cases decl with
      | scalar | choice => exact (hbuilds _).imp (fun _ _ _ ↦ trivial) fun _ _ _ ↦ trivial
      | list name rule element => exact (hlist name rule element rfl).elim
      | gated name source condition inner => exact (hgated name source condition inner rfl).elim

/-- The fields of a group are wired in order, each by what was declared before it. -/
theorem instantiateGroup_wires (hv : Confined visit) (ha : ∀ d, (visit d).Respects Abides)
    (h : tree.Sound) (hhost : tree.whole.Hosts tree owner container)
    (hloose : ∀ x ∈ group, tree.Loose x) (hd : tree.Declares group declared)
    (decls : List FieldDecl) :
    (LightTree.instantiateGroup visit owner container group decls).Meets tree
      (fun all after ↦ after.Sound ∧ tree.KeepsWires after ∧ (∀ x ∈ all, after.Live x) ∧
        ∃ rest, all = group ++ rest ∧ tree.WiresGroup after owner group declared decls rest)
      fun _ _ ↦ True := by
  induction decls generalizing tree group declared with
  | nil =>
      exact ⟨h, .refl tree, fun x hx ↦ (hloose x hx).live, [], (List.append_nil group).symm,
        trivial⟩
  | cons decl rest ih =>
      rw [meets_instantiateGroup_cons]
      refine (((hv.instantiate h.governs hhost (fun _ _ ↦ trivial) decl).and
        (Resolving.instantiate_named ha decl)).and
        (hv.instantiate_wires h hhost hloose hd decl)).imp ?_ fun _ _ _ ↦ trivial
      rintro id mid ⟨⟨⟨hlead, hid, _⟩, hname⟩, hw⟩
      have hframed := hlead.framed h.governs
      have hmid := h.of_leads hlead
      have hkept : ∀ x ∈ group, mid.Loose x := fun x hx ↦
        hframed.loose x (hloose x hx).live.lt_size (hloose x hx)
      have hdm := (hd.of_abides (.of_framed hframed rfl) fun y hy ↦
        ⟨(hloose y hy).live, (hkept y hy).live⟩).append (hname hid.live)
      refine (ih hmid (h.hosts_of_leads hhost hlead) (fun x hx ↦ ?_) hdm).imp ?_ fun _ _ _ ↦ trivial
      · rcases List.mem_append.1 hx with hx | hx
        · exact hkept x hx
        · exact List.mem_singleton.1 hx ▸ hid
      rintro all after ⟨hs, hk, hlive, tail, rfl, hwired⟩
      refine ⟨hs, (KeepsWires.of_framed hframed rfl).trans hk, hlive, id :: tail,
        (List.append_cons group id tail).symm, ?_, ?_⟩
      · exact hw.of_keepsWires hk hmid.owned hs.owned hid.live (hlive id (by simp))
      · exact hwired.imp fun _ _ _ _ hm ↦
          hm.of_abides (.of_framed hframed rfl) hframed.nodes.topFields h.owned

end Confined

namespace Tree

variable {tree : Tree}

/-- What is left alive of a new element of a list is wired to what its declarations meant before. -/
def WiresElement (tree after : Tree) (list : FieldId) (group : List FieldId) : Prop :=
  ∃ owner template, tree.template? list = some (owner, template) ∧
    group.length = template.length ∧
    ∀ i decl x, template[i]? = some decl → group[i]? = some x → after.Live x →
      after.Wired (tree.Means owner (group.take i) ((template.take i).map (·.name))) decl x

theorem appendElement_wires (h : tree.Sound) (id : FieldId) :
    (appendElement id).Meets tree (fun group after ↦ tree.WiresElement after (tree.unwrap id) group)
      fun _ _ ↦ True := by
  refine meets_appendElement (fun _ ↦ trivial) fun _ field template elements hf hvalue ↦ ?_
  have hv := Confined.enter false
  have hhost := h.governs.hosts hf trivial
  have hnone : ∀ x ∈ ([] : List FieldId), tree.Loose x := fun _ hx ↦ absurd hx List.not_mem_nil
  have hdeclares : tree.Declares [] [] := rfl
  refine ((hv.instantiateGroup h.governs hhost .nil template).and
    (hv.instantiateGroup_wires (lasting_abides.toHarmless.enter false) h hhost hnone hdeclares
      template)).imp ?_ fun _ _ _ ↦ trivial
  rintro group mid ⟨⟨hlead, hgroup⟩, hmid, _, hlive, _, rfl, hwired⟩
  refine ⟨fun _ ↦ ?_, fun _ ↦ trivial⟩
  have hpush := hmid.push (tree.unwrap id) hgroup.nodup fun x hx ↦ (hgroup.loose x hx).1
  refine (hpush.settle_stays _).imp (fun _ after hsettle ↦ ?_) fun _ _ _ ↦ trivial
  refine ⟨field.owner, template, template?_of_list hf hvalue, hwired.length_eq,
    fun i decl x hd hx hl ↦ ?_⟩
  have hkeeps := (KeepsWires.push mid (tree.unwrap id) _).trans
    (.of_framed (hsettle.framed hpush.governs) rfl)
  exact (hwired.wired hd hx).of_keepsWires hkeeps hmid.owned (hpush.of_leads hsettle).owned
    (hlive x (List.mem_of_getElem? hx)) hl

end Tree

end LightTree
