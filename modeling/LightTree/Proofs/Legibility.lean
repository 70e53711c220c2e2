import LightTree.Proofs.Decoding
import LightTree.Proofs.Standing

/-!
# The line of a tree says what the tree shows

Where a catalog is legible, each tree that operations lead to shows what can be read back: its
fields are as declared, a gate is open exactly if the field it depends on shows so, and the number
of children that is not sent is the one that the kind allows. Hence two trees send the same line
exactly if they show the same.
-/

namespace LightTree

open Relation Edit

section

variable {α β γ : Type} {as : List α} {bs : List β}

theorem exists_forall₂ {rel : α → β → Prop} (h : ∀ a ∈ as, ∃ b, rel a b) :
    ∃ bs, List.Forall₂ rel as bs := by
  induction as with
  | nil => exact ⟨[], .nil⟩
  | cons a as ih =>
      obtain ⟨⟨b, hb⟩, hrest⟩ := List.forall_mem_cons.1 h
      obtain ⟨bs, hbs⟩ := ih hrest
      exact ⟨b :: bs, .cons hb hbs⟩

theorem mapM_eq_of_forall₂ {f : α → Option β}
    (h : List.Forall₂ (fun a b ↦ f a = some b) as bs) : as.mapM f = some bs := by
  induction h with
  | nil => rfl
  | cons hfirst _ ih =>
      rw [List.mapM_cons, hfirst, ih]
      rfl

theorem flatMap_eq_of_forall₂ {f : α → List γ} {g : β → List γ}
    (h : List.Forall₂ (fun a b ↦ f a = g b) as bs) : as.flatMap f = bs.flatMap g := by
  induction h with
  | nil => rfl
  | cons hfirst _ ih => rw [List.flatMap_cons, List.flatMap_cons, hfirst, ih]

end

namespace FieldDecl

theorem nodup_of_checkGroup {outer declared : List String} {decls : List FieldDecl}
    (h : checkGroup outer declared decls = .ok ()) (hdeclared : declared.Nodup) :
    (declared ++ decls.map (·.name)).Nodup := by
  induction decls generalizing declared with
  | nil => simpa using hdeclared
  | cons decl rest ih =>
      obtain ⟨_, hrest⟩ := checkGroup_cons h
      have hfresh : decl.name ∉ declared := by
        intro hmem
        rw [checkGroup, if_pos hmem] at h
        cases h
      rw [List.map_cons, List.append_cons]
      exact ih hrest (List.concat_eq_append ▸ hdeclared.concat hfresh)

/-- A legible field depends on an open field at most. -/
theorem isLegible_of_mem {opened : List String} {decls : List FieldDecl} {decl : FieldDecl}
    (h : fieldsAreLegible opened decls = true) (hd : decl ∈ decls) :
    ∃ before, decl.isLegible before = true ∧ ∀ name ∈ before,
      name ∈ opened ∨ ∃ source ∈ decls, source.isOpen = true ∧ source.name = name := by
  induction decls generalizing opened with
  | nil => cases hd
  | cons first rest ih =>
      obtain ⟨hfirst, hrest⟩ := Bool.and_eq_true_iff.1 h
      rcases List.mem_cons.1 hd with rfl | hd
      · exact ⟨opened, hfirst, fun _ hname ↦ .inl hname⟩
      · obtain ⟨before, hlegible, hbefore⟩ := ih hrest hd
        refine ⟨before, hlegible, fun name hname ↦ ?_⟩
        rcases hbefore name hname with hopened | ⟨source, hmem, hsource⟩
        · split at hopened
          · next hopen =>
              rcases List.mem_cons.1 hopened with rfl | hopened
              · exact .inr ⟨first, List.mem_cons_self, hopen, rfl⟩
              · exact .inl hopened
          · exact .inl hopened
        · exact .inr ⟨source, List.mem_cons_of_mem _ hmem, hsource⟩

theorem inner?_of_isOpen {decl : FieldDecl} {value : Value} (h : decl.Admits value)
    (hopen : decl.isOpen = true) : value.inner? = none := by
  cases value with
  | scalar | choice | list => rfl
  | gated condition inner =>
      cases decl with
      | gated => cases hopen
      | scalar | choice | list => exact h.elim

theorem showsBare_of_admits {decl : FieldDecl} {value : Value} (h : decl.Admits value)
    (hbare : decl.isBare = true) (inside : FieldId → Shown) :
    decl.ShowsBare (value.shows inside) := by
  cases decl with
  | scalar name initial =>
      cases value with
      | scalar s => exact h
      | choice | list | gated => exact h.elim
  | choice name options =>
      cases value with
      | choice options' chosen =>
          obtain ⟨rfl, hchosen⟩ := h
          rw [Value.shows, List.getElem?_eq_getElem hchosen]
          exact ⟨_, List.getElem_mem hchosen, rfl⟩
      | scalar | list | gated => exact h.elim
  | list | gated => cases hbare

end FieldDecl

theorem Value.raw?_shows {value : Value} (h : value.inner? = none) (inside : FieldId → Shown) :
    (value.shows inside).raw? = value.raw? := by
  cases value with
  | scalar s => rfl
  | choice options chosen =>
      rw [shows, raw?]
      cases options[chosen]? <;> rfl
  | list linked template elements => simp [shows, raw?, Shown.raw?]
  | gated => cases h

namespace Tree

variable {tree : Tree} {catalog : Catalog} {decl : FieldDecl} {x : FieldId}

/-! ## What the field of a declaration shows -/

/-- An open field is always active, and wraps nothing. -/
theorem Bears.open_field (h : tree.Bears decl x) (hactive : tree.PlainActive)
    (hopen : decl.isOpen = true) : ∃ field, tree.field? x = some field ∧ field.active = true ∧
      decl.Admits field.value ∧ field.value.inner? = none := by
  obtain ⟨field, hf, _, hadmits⟩ := h
  have hinner := FieldDecl.inner?_of_isOpen hadmits hopen
  exact ⟨field, hf, hactive x field hf hinner, hadmits, hinner⟩

theorem Bears.showsBare (h : tree.Bears decl x) (hactive : tree.PlainActive)
    (hbare : decl.isBare = true) (depth : Nat) :
    decl.ShowsBare (tree.shownWithin (depth + 1) x) := by
  have hopen : decl.isOpen = true := by
    cases decl with
    | scalar | choice => exact hbare
    | list | gated => cases hbare
  obtain ⟨field, hf, ha, hadmits, _⟩ := h.open_field hactive hopen
  rw [shownWithin_of_some hf, if_pos ha]
  exact FieldDecl.showsBare_of_admits hadmits hbare _

theorem Bears.showsOpen (h : tree.Bears decl x) (hgrouped : tree.Grouped)
    (hactive : tree.PlainActive) (hopen : decl.isOpen = true) (depth : Nat) :
    decl.ShowsOpen (tree.shownWithin (depth + 2) x) := by
  cases decl with
  | list name rule element =>
      obtain ⟨field, hf, ha, hadmits, _⟩ := h.open_field hactive hopen
      rw [shownWithin_of_some hf, if_pos ha]
      cases hv : field.value with
      | list linked template elements =>
          rw [hv] at hadmits
          obtain ⟨_, rfl⟩ := hadmits
          intro group hgroup
          obtain ⟨ids, hids, rfl⟩ := List.mem_map.1 hgroup
          rw [List.forall₂_map_right_iff]
          have hboth := (List.forall₂_and_left template ids).2
            ⟨List.all_eq_true.1 hopen, hgrouped.of_list hf hv hids⟩
          exact hboth.imp fun bare y ⟨hb, hy⟩ ↦ hy.bears.showsBare hactive hb depth
      | scalar | choice | gated =>
          rw [hv] at hadmits
          exact hadmits.elim
  | scalar | choice => exact h.showsBare hactive hopen (depth + 1)
  | gated => cases hopen

/-- Dependents of an open field see what it shows. -/
theorem Bears.holds (h : tree.Bears decl x) (hordered : tree.Ordered) (hactive : tree.PlainActive)
    (hopen : decl.isOpen = true) (depth : Nat) (condition : Condition) :
    tree.holds (.field x) condition = (tree.shownWithin (depth + 1) x).meets condition := by
  obtain ⟨field, hf, ha, _, hinner⟩ := h.open_field hactive hopen
  have hunwrap : tree.unwrap x = x := by
    refine (eq_unwrap hordered .refl ?_).symm
    rw [inner?, hf, Option.bind_some, hinner]
  rw [shownWithin_of_some hf, if_pos ha]
  cases condition with
  | equals target =>
      rw [Tree.holds, sourceRaw?, Tree.raw?, hunwrap, hf, Option.bind_some, Shown.meets,
        Value.raw?_shows hinner]
  | present =>
      simp only [Tree.holds, isPresent, hunwrap, hf, ha]
      cases hv : field.value with
      | scalar s => cases s <;> simp [Value.shows, Shown.meets]
      | choice options chosen => cases ho : options[chosen]? <;> simp [Value.shows, Shown.meets, ho]
      | list => rfl
      | gated condition inner =>
          rw [hv] at hinner
          cases hinner

theorem Formed.gate {name source : String} {condition : Condition} {inner : FieldDecl}
    (h : tree.Formed (.gated name source condition inner) x) :
    ∃ field y, tree.field? x = some field ∧ field.value = .gated condition y ∧
      tree.Formed inner y := by
  obtain ⟨⟨field, hf, _, hadmits⟩, y, hy, hinside⟩ := h
  cases hv : field.value with
  | gated condition' y' =>
      rw [hv] at hadmits
      obtain rfl : condition' = condition := hadmits
      rw [inner?, hf, Option.bind_some, hv] at hy
      obtain rfl : y' = y := Option.some.inj hy
      exact ⟨field, y', hf, hv, hinside⟩
  | scalar | choice | list =>
      rw [hv] at hadmits
      exact hadmits.elim

theorem shown_gate {field : Field} {condition : Condition} {y : FieldId}
    (hf : tree.field? x = some field) (hv : field.value = .gated condition y) :
    tree.shown x = if field.active then tree.shownWithin tree.fields.size y else .nothing := by
  rw [shown, shownWithin_of_some hf, hv, Value.shows]

/-! ## What the fields of a node show -/

/-- What the first field at the top of a node shows that has a name. -/
def shownNamed (tree : Tree) (id : NodeId) (name : String) : Shown :=
  ((tree.fieldNamed? id name).map tree.shown).getD .nothing

theorem firstNamed?_of_nodup {group : List FieldId} (hnodup : (group.map tree.name?).Nodup)
    (hx : x ∈ group) {name : String} (hname : tree.name? x = some name) :
    tree.firstNamed? name group = some x := by
  have hfinds : tree.Finds group name := ⟨x, hx, hname⟩
  obtain ⟨y, hy⟩ := Option.ne_none_iff_exists'.1 (firstNamed?_ne_none hfinds)
  have hnamed : tree.name? y = some name := by
    have hfound := List.find?_some hy
    obtain ⟨field, hf, hfield⟩ := Option.any_eq_true _ _ |>.1 hfound
    rw [name?_of_some hf, beq_iff_eq.1 hfield]
  rw [hy]
  exact congrArg some (List.inj_on_of_nodup_map hnodup (List.mem_of_find?_eq_some hy) hx
    (hnamed.trans hname.symm))

/-- A standing tree as operations leave it. -/
structure Orderly (catalog : Catalog) (tree : Tree) : Prop extends Standing catalog tree where
  forest : tree.Forest
  plainActive : tree.PlainActive
  root : tree.kind? tree.root = some catalog.root

namespace Orderly

variable {id : NodeId} {node : Node}

theorem furnished_of (h : tree.Orderly catalog) (hn : tree.node? id = some node) :
    node.kind ∈ catalog.kinds ∧ tree.Furnished id node.kind.fields :=
  h.furnished id node hn not_false

theorem names (h : tree.Orderly catalog) (hn : tree.node? id = some node) :
    ((tree.topFields id).map tree.name?).Nodup := by
  obtain ⟨hkind, hfurnished⟩ := h.furnished_of hn
  have hcheck := NodeKind.checkGroup_of_check (catalog.check_of_mem hkind)
  have hnames : (tree.topFields id).map tree.name? = (node.kind.fields.map (·.name)).map some := by
    rw [List.map_map, ← List.forall₂_eq_eq_eq, List.forall₂_map_left_iff,
      List.forall₂_map_right_iff]
    exact hfurnished.flip.imp fun x decl hx ↦ hx.1.bears.name?
  rw [hnames]
  exact (FieldDecl.nodup_of_checkGroup hcheck List.nodup_nil).map (Option.some_injective String)

theorem shownNamed_eq (h : tree.Orderly catalog) (hn : tree.node? id = some node)
    (hx : x ∈ tree.topFields id) {name : String} (hname : tree.name? x = some name) :
    tree.shownNamed id name = tree.shown x := by
  rw [shownNamed, fieldNamed?, firstNamed?_of_nodup (h.names hn) hx hname]
  rfl

theorem showsOpen (h : tree.Orderly catalog) (hx : tree.Bears decl x)
    (hopen : decl.isOpen = true) : decl.ShowsOpen (tree.shown x) := by
  obtain ⟨depth, hdepth⟩ := Nat.exists_eq_add_of_lt hx.live.lt_size
  rw [shown, hdepth]
  exact hx.showsOpen h.toGroupedBy h.plainActive hopen (x.index + depth)

/-- A gate shows what the field inside it shows if the field that it depends on meets its
condition. -/
theorem showsGated (h : tree.Orderly catalog) {name sourceName : String} {condition : Condition}
    {inner source : FieldDecl} {target : FieldId}
    (hx : tree.Formed (.gated name sourceName condition inner) x)
    (hlink : tree.link? x = some (.field target)) (htarget : tree.Bears source target)
    (hsource : source.isOpen = true) (hinner : inner.isOpen = true) :
    if (tree.shown target).meets condition then inner.ShowsOpen (tree.shown x)
    else tree.shown x = .nothing := by
  obtain ⟨field, y, hf, hv, hy⟩ := hx.gate
  have hfield : field.link = some (.field target) := by rw [← hlink, link?, read_of_some hf]
  have hupToDate := h.upToDate x field (.field target) hf hfield htarget.live
  have hactive : field.active = (tree.shown target).meets condition :=
    (hupToDate.1 condition y hv).trans
      (htarget.holds h.ordered h.plainActive hsource tree.fields.size condition)
  rw [← hactive, shown_gate hf hv]
  split
  · have hlt := h.ordered.inner_lt x y (by rw [inner?, hf, Option.bind_some, hv]; rfl)
    have hsize : ∃ depth, tree.fields.size = depth + 2 :=
      Nat.exists_eq_add_of_le' (Nat.lt_of_le_of_lt (Nat.succ_le_of_lt (Nat.zero_lt_of_lt hlt))
        (live_of_some hf).lt_size)
    obtain ⟨depth, hdepth⟩ := hsize
    rw [hdepth]
    exact hy.bears.showsOpen h.toGroupedBy h.plainActive hinner depth
  · rfl

theorem shows (h : tree.Orderly catalog) (hcatalog : catalog.isLegible = true)
    (hn : tree.node? id = some node) (hdecl : decl ∈ node.kind.fields)
    (hx : tree.Formed decl x) (hwired : tree.Wired (tree.Tops id) decl x) :
    decl.Shows (tree.shownNamed id) (tree.shown x) := by
  obtain ⟨hkind, hfurnished⟩ := h.furnished_of hn
  have hfields := (Catalog.kind_of_isLegible hcatalog hkind).1
  simp only [NodeKind.isLegible, Bool.and_eq_true] at hfields
  obtain ⟨before, hlegible, hbefore⟩ := FieldDecl.isLegible_of_mem hfields.1.1 hdecl
  cases decl with
  | gated name sourceName condition inner =>
      obtain ⟨⟨target, ⟨htarget, htargetName⟩, hlink⟩, _⟩ := hwired
      obtain ⟨hsource, hinner⟩ := Bool.and_eq_true_iff.1 hlegible
      have hmem : sourceName ∈ before := by simpa using hsource
      obtain ⟨source, hs, hopen, rfl⟩ :=
        (hbefore sourceName hmem).resolve_left List.not_mem_nil
      obtain ⟨y, hy, hformed, _⟩ := exists_of_mem_right hfurnished.flip hs
      -- The names of the fields differ, so the gate is linked to the field that was sent before it.
      have hsame : y = target := List.inj_on_of_nodup_map (h.names hn) hy htarget
        (hformed.bears.name?.trans htargetName.symm)
      subst hsame
      rw [FieldDecl.Shows, h.shownNamed_eq hn hy htargetName]
      exact h.showsGated hx hlink hformed.bears hopen hinner
  | scalar | choice | list => exact h.showsOpen hx.bears hlegible

theorem row (h : tree.Orderly catalog) (hcatalog : catalog.isLegible = true)
    (hn : tree.node? id = some node) :
    FieldDecl.Row (tree.shownNamed id) node.kind.fields (node.fields.map tree.shown) := by
  have htops : tree.topFields id = node.fields := by
    rw [topFields_eq_readNode, readNode_of_some hn]
  rw [FieldDecl.Row, List.forall₂_map_right_iff, ← htops]
  obtain ⟨_, hfurnished⟩ := h.furnished_of hn
  have hmem := (List.forall₂_and_left node.kind.fields (tree.topFields id)).2
    ⟨fun _ hd ↦ hd, hfurnished⟩
  have hmem' := ((List.forall₂_and_left (tree.topFields id) node.kind.fields).2
    ⟨fun _ hx ↦ hx, hmem.flip⟩).flip
  apply hmem'.imp
  rintro decl x ⟨hx, hdecl, hformed, hwired⟩
  exact ⟨h.shownNamed_eq hn hx hformed.bears.name?, h.shows hcatalog hn hdecl hformed hwired⟩

end Orderly

/-! ## What nodes show -/

/-- Each node at or below the root whose kind allows one child has one. -/
def Filled (tree : Tree) : Prop :=
  ∀ id node, tree.Heads tree.root id → tree.node? id = some node →
    node.kind.maxChildren = some 1 → node.children.length = 1

theorem symbol_contentWithin {id : NodeId} {node : Node} {depth : Nat} {content : Content}
    (hn : tree.node? id = some node) (h : tree.contentWithin depth id = some content) :
    content.symbol = node.kind.symbol := by
  cases depth with
  | zero => cases h
  | succ depth =>
      rw [contentWithin, hn, Option.bind_eq_bind, Option.bind_some] at h
      obtain ⟨children, _, hcontent⟩ := Option.bind_eq_some_iff.1 h
      cases hcontent
      rfl

/-- A node shows something legible, and sends its tokens. -/
structure Displays (catalog : Catalog) (tree : Tree) (depth : Nat) (id : NodeId)
    (content : Content) : Prop where
  shown : tree.contentWithin depth id = some content
  tokens : tree.nodeTokensWithin depth id = content.tokens catalog
  legible : ∀ node, tree.node? id = some node → content.Legible catalog node.kind.category

namespace Orderly

variable {id : NodeId} {node : Node}

/-- A number of children that is not sent is the one that the kind allows. -/
theorem length_children (h : tree.Orderly catalog) (hfilled : tree.Filled)
    (hbelow : tree.Heads tree.root id) (hn : tree.node? id = some node)
    (hcount : node.showsCount = false) : some node.children.length = node.kind.maxChildren := by
  rw [Node.showsCount] at hcount
  cases hmost : node.kind.maxChildren with
  | none =>
      rw [hmost] at hcount
      cases hcount
  | some most =>
      rw [hmost, decide_eq_false_iff_not] at hcount
      have hkind : tree.kind? id = some node.kind := readNode_of_some hn ..
      have hfits := h.forest.fits id node.kind most hkind hmost
      rw [children_eq_readNode, readNode_of_some hn] at hfits
      have hone : most = 1 → node.children.length = 1 := fun he ↦
        hfilled id node hbelow hn (he ▸ hmost)
      rw [Option.some_inj]
      omega

theorem displays_succ (h : tree.Orderly catalog) (hcatalog : catalog.isLegible = true)
    (hfilled : tree.Filled) (hbelow : tree.Heads tree.root id) (hn : tree.node? id = some node)
    {depth : Nat} {contents : List Content}
    (hcontents : List.Forall₂ (tree.Displays catalog depth) node.children contents) :
    ∃ content, tree.Displays catalog (depth + 1) id content := by
  obtain ⟨hkind, _⟩ := h.furnished_of hn
  obtain ⟨_, hfind⟩ := Catalog.kind_of_isLegible hcatalog hkind
  have hlength := hcontents.length_eq
  refine ⟨.node node.kind.category node.kind.symbol (node.fields.map tree.shown) contents,
    ?_, ?_, ?_⟩
  · rw [contentWithin, hn, Option.bind_eq_bind, Option.bind_some,
      mapM_eq_of_forall₂ (hcontents.imp fun _ _ hc ↦ hc.shown)]
    rfl
  · have hbelow : node.children.flatMap (tree.nodeTokensWithin depth) =
        contents.flatMap (Content.tokens catalog) :=
      flatMap_eq_of_forall₂ (hcontents.imp fun _ _ hc ↦ hc.tokens)
    have hshows : catalog.showsCount node.kind.category node.kind.symbol = node.showsCount := by
      rw [Catalog.showsCount, hfind]
      rfl
    simp only [nodeTokensWithin, hn, Content.tokens, List.flatMap_map, tokens_shown, hshows,
      ← hlength, Content.childTokens_eq_flatMap, hbelow]
  · rintro other hother
    obtain rfl : node = other := Option.some.inj (hn.symm.trans hother)
    refine .node hkind rfl (h.row hcatalog hn) (fun hcount ↦ ?_) fun content hc ↦ ?_
    · rw [← hlength]
      exact h.length_children hfilled hbelow hn hcount
    · obtain ⟨child, hchild, hdisplays⟩ := exists_of_mem_right hcontents hc
      have hmem : child ∈ tree.children id := by
        rw [children_eq_readNode, readNode_of_some hn]
        exact hchild
      obtain ⟨below, hb⟩ := liveNode_iff.1 (h.forest.child_live hmem)
      have hkinds := h.forest.typed id child node.kind below.kind hmem (readNode_of_some hn ..)
        (readNode_of_some hb ..)
      exact hkinds.1 ▸ hdisplays.legible below hb

/-- The induction is on the depth, which is enough for the nodes that are not above. -/
theorem displays (h : tree.Orderly catalog) (hcatalog : catalog.isLegible = true)
    (hfilled : tree.Filled) (hbelow : tree.Heads tree.root id) (hl : tree.LiveNode id) {depth : Nat}
    (hdepth : tree.nodes.size < depth + (tree.above id).card) :
    ∃ content, tree.Displays catalog depth id content := by
  induction depth generalizing id with
  | zero =>
      rw [Nat.zero_add] at hdepth
      exact absurd (tree.card_above_le id) (Nat.not_le_of_lt hdepth)
  | succ depth ih =>
      obtain ⟨node, hn⟩ := liveNode_iff.1 hl
      have hchildren : ∀ child ∈ node.children, ∃ content,
          tree.Displays catalog depth child content := by
        intro child hchild
        have hmem : child ∈ tree.children id := by
          rw [children_eq_readNode, readNode_of_some hn]
          exact hchild
        have hlt := h.forest.card_above_lt child id (h.forest.mem_children_iff.1 hmem)
        exact ih (hbelow.tail hmem) (h.forest.child_live hmem) (by omega)
      obtain ⟨contents, hcontents⟩ := exists_forall₂ hchildren
      exact h.displays_succ hcatalog hfilled hbelow hn hcontents

/-- The root shows something that is legible, and its tokens are the line of the tree. -/
theorem displays_root (h : tree.Orderly catalog) (hcatalog : catalog.isLegible = true)
    (hfilled : tree.Filled) : ∃ content, tree.content = some content ∧
      content.symbol = catalog.root.symbol ∧ tree.line = wireLine (content.tokens catalog) ∧
      content.Legible catalog catalog.root.category := by
  obtain ⟨content, hcontent⟩ :=
    @displays _ _ _ h hcatalog hfilled .refl h.forest.root_live (tree.nodes.size + 1) (by omega)
  obtain ⟨root, hroot⟩ := liveNode_iff.1 h.forest.root_live
  have hkind : root.kind = catalog.root :=
    Option.some.inj ((readNode_of_some hroot ..).symm.trans h.root)
  have hlegible := hcontent.legible root hroot
  rw [hkind] at hlegible
  have hsymbol := symbol_contentWithin hroot hcontent.shown
  rw [hkind] at hsymbol
  exact ⟨content, hcontent.shown, hsymbol, congrArg wireLine hcontent.tokens, hlegible⟩

/-- Orderly trees send the same line exactly if they show the same. -/
theorem line_eq_line_iff {other : Tree} (h : tree.Orderly catalog) (hother : other.Orderly catalog)
    (hcatalog : catalog.isLegible = true) (hfilled : tree.Filled) (hfilled' : other.Filled) :
    ∃ content content', tree.content = some content ∧ other.content = some content' ∧
      (tree.line = other.line ↔ content = content') := by
  obtain ⟨content, hc, hsymbol, hline, hlegible⟩ := h.displays_root hcatalog hfilled
  obtain ⟨content', hc', hsymbol', hline', hlegible'⟩ := hother.displays_root hcatalog hfilled'
  refine ⟨content, content', hc, hc', ?_⟩
  rw [hline, hline']
  constructor
  · exact hlegible.eq_of_wireLine hcatalog hlegible' (hsymbol.trans hsymbol'.symm)
  · rintro rfl
    rfl

end Orderly

/-! ## Trees that operations lead to -/

/-- A number stays with its node, which keeps its kind. -/
structure KeepsKinds (tree after : Tree) : Prop where
  nodes_size : tree.nodes.size ≤ after.nodes.size
  root : after.root = tree.root
  kind : ∀ id kind, tree.Known id → after.kind? id = some kind → tree.kind? id = some kind

namespace KeepsKinds

variable {after last : Tree}

theorem trans (h : tree.KeepsKinds after) (h' : after.KeepsKinds last) : tree.KeepsKinds last where
  nodes_size := h.nodes_size.trans h'.nodes_size
  root := h'.root.trans h.root
  kind id kind hid hk :=
    h.kind id kind hid (h'.kind id kind (Nat.lt_of_lt_of_le hid h.nodes_size) hk)

theorem of_kind? (hkind : after.kind? = tree.kind?) (hsize : after.nodes.size = tree.nodes.size)
    (hroot : after.root = tree.root) : tree.KeepsKinds after where
  nodes_size := hsize.ge
  root := hroot
  kind _ _ _ hk := hkind ▸ hk

theorem of_sameNodes (h : tree.SameNodes after) : tree.KeepsKinds after :=
  .of_kind? (h.readNode (fun _ ↦ rfl) none) h.nodes_size h.root

theorem updateNode {f : Node → Node} (hf : ∀ node, (f node).kind = node.kind) (tree : Tree)
    (id : NodeId) : tree.KeepsKinds (tree.updateNode id f) := by
  refine .of_kind? (readNode_updateNode_of_keeps ?_ id none) (size_updateNode ..) rfl
  exact fun node ↦ congrArg some (hf node)

theorem insertNode (tree : Tree) (kind : NodeKind) :
    tree.KeepsKinds (tree.insertNode { kind }) where
  nodes_size := by simp
  root := rfl
  kind id k hid hk := by
    have hne : id ≠ tree.nextNode := fun he ↦ tree.not_known_nextNode (he ▸ hid)
    rwa [kind?_insertNode, if_neg hne] at hk

end KeepsKinds

theorem lasting_keepsKinds : Lasting KeepsKinds where
  refl tree := .of_sameNodes (.refl tree)
  trans := .trans
  insertField tree field _ := .of_sameNodes (.insertField tree field)
  relink tree dependent source := .of_sameNodes (.relink tree dependent source)
  setActive tree id _ _ := .of_sameNodes (.updateField tree id _)
  push tree id group := .of_sameNodes (.push tree id group)
  drop tree id f group := .of_sameNodes (.drop tree id f group)
  refresh tree := .of_sameNodes (.refresh tree)
  addTop tree node _ := .updateNode (fun _ ↦ by rfl) tree node
  setValue tree id _ _ _ _ _ := .of_sameNodes (.updateField tree id _)
  insertNode := .insertNode
  adopt tree parent child :=
    .trans (.updateNode (fun _ ↦ by rfl) tree parent) (.updateNode (fun _ ↦ by rfl) _ child)
  disown tree parent _ := .updateNode (fun _ ↦ by rfl) tree parent
  supplant tree parent _ new :=
    .trans (.updateNode (fun _ ↦ by rfl) tree parent) (.updateNode (fun _ ↦ by rfl) _ new)
  releaseNode tree id :=
    { nodes_size := (releaseNode_shrinks tree id).nodes_size.ge
      root := (releaseNode_shrinks tree id).root
      kind := fun _ _ _ hk ↦ (kind?_of_releaseNode hk).2 }

/-- The root keeps its kind as long as it lives. -/
theorem KeepsKinds.root_kind {after : Tree} {kind : NodeKind} (h : tree.KeepsKinds after)
    (hroot : tree.kind? tree.root = some kind) (hlive : after.LiveNode after.root) :
    after.kind? after.root = some kind := by
  obtain ⟨node, hn⟩ := liveNode_iff.1 hlive
  have hnew : after.kind? after.root = some node.kind := readNode_of_some hn ..
  have hknown := (liveNode_of_kind?_eq_some hroot).known
  have hold := h.kind tree.root node.kind hknown (h.root ▸ hnew)
  rw [hnew, ← hold, hroot]

theorem root_start {settings : Settings} (h : start catalog settings = .ok tree) :
    tree.kind? tree.root = some catalog.root := by
  have hgrowing := lasting_keepsKinds.toGrowing
  have hkeeps : (({ catalog, settings } : Tree).insertNode { kind := catalog.root }).KeepsKinds
      tree := by
    refine @of_start catalog settings tree (KeepsKinds _) ?_ h
    exact (hgrowing.build hgrowing.create ⟨0⟩ catalog.root _).imp (fun _ _ ha ↦ ha)
      fun _ _ _ ↦ trivial
  refine hkeeps.root_kind ?_ (forest_start h).root_live
  rw [kind?_insertNode]
  exact if_pos rfl

theorem orderly_run {settings : Settings} {operations : List Operation}
    (hkinds : ∀ kind ∈ catalog.kinds, kind.isPlain = true)
    (h : start catalog settings = .ok tree)
    (hnative : ∀ operation ∈ operations, operation.IsNative catalog) :
    (tree.run operations).2.Orderly catalog where
  toStanding := (standing_start hkinds h).run hnative
  forest := (forest_start h).run operations
  plainActive := lasting_plainActive.run tree operations (plainActive_start h)
  root := (lasting_keepsKinds.run tree operations).root_kind (root_start h)
    ((forest_start h).run operations).root_live

/-! ## The standard catalog -/

theorem isPlain_standard : ∀ kind ∈ Catalog.standard.kinds, kind.isPlain = true := by
  decide +kernel

theorem isLegible_standard : Catalog.standard.isLegible = true := by
  decide +kernel

/-- Each generator at or below the root has its child. -/
def GeneratorsFilled (tree : Tree) : Prop :=
  ∀ id node, tree.Heads tree.root id → tree.node? id = some node → node.kind.category = .object →
    node.kind.symbol = "g" → node.children.length = 1

/-- Generators alone are to have exactly one child. -/
theorem Orderly.filled (h : tree.Orderly .standard) (hfilled : tree.GeneratorsFilled) :
    tree.Filled := by
  have hgenerator : ∀ kind ∈ Catalog.standard.kinds, kind.maxChildren = some 1 →
      kind.category = .object ∧ kind.symbol = "g" := by
    decide +kernel
  intro id node hbelow hn hmost
  obtain ⟨hcategory, hsymbol⟩ := hgenerator node.kind (h.furnished_of hn).1 hmost
  exact hfilled id node hbelow hn hcategory hsymbol

/-- Two trees of the standard catalog in which each generator has its child, after any histories of
kinds of the catalog and without rebinds, send the same line exactly if they show the same. -/
theorem line_eq_line_iff_run {tree other : Tree} {settings settings' : Settings}
    {history history' : List Operation} (hstart : start .standard settings = .ok tree)
    (hstart' : start .standard settings' = .ok other)
    (hnative : ∀ operation ∈ history, operation.IsNative .standard)
    (hnative' : ∀ operation ∈ history', operation.IsNative .standard) {first second : Tree}
    (hfirst : (tree.run history).2 = first) (hsecond : (other.run history').2 = second)
    (hfilled : first.GeneratorsFilled) (hfilled' : second.GeneratorsFilled) :
    ∃ content content', first.content = some content ∧ second.content = some content' ∧
      (first.line = second.line ↔ content = content') := by
  have horderly : first.Orderly .standard := hfirst ▸ orderly_run isPlain_standard hstart hnative
  have horderly' : second.Orderly .standard :=
    hsecond ▸ orderly_run isPlain_standard hstart' hnative'
  exact horderly.line_eq_line_iff horderly' isLegible_standard (horderly.filled hfilled)
    (horderly'.filled hfilled')

/-- A generator that replaced the only object shows the same as one beside an object that was
removed. -/
theorem line_eq_line_iff_run_generator :
    let history : List Operation := [.addByCategory ⟨0⟩ .object, .retype ⟨1⟩ "g"]
    let history' : List Operation := [.addByCategory ⟨0⟩ .object, .addByCategory ⟨0⟩ .object,
      .retype ⟨1⟩ "g", .detach ⟨2⟩]
    ∃ content, (standardTree.run history).2.content = some content ∧
      (standardTree.run history').2.content = some content := by
  intro history history'
  have hfilled : ∀ tree : Tree, (∀ entry ∈ tree.liveNodes, entry.2.kind.category = .object →
      entry.2.kind.symbol = "g" → entry.2.children.length = 1) → tree.GeneratorsFilled :=
    fun tree h id node _ hn ↦ h (id, node) (mem_liveNodes_iff.2 hn)
  have hnative : ∀ operation ∈ history, operation.IsNative .standard := by
    simp [history, Operation.IsNative]
  have hnative' : ∀ operation ∈ history', operation.IsNative .standard := by
    simp [history', Operation.IsNative]
  have hline : (standardTree.run history).2.line = (standardTree.run history').2.line := by
    decide +kernel
  obtain ⟨content, content', hc, hc', hiff⟩ := line_eq_line_iff_run start_standard start_standard
    hnative hnative' rfl rfl (hfilled _ (by decide +kernel)) (hfilled _ (by decide +kernel))
  obtain rfl := hiff.1 hline
  exact ⟨content, hc, hc'⟩

end Tree

end LightTree
