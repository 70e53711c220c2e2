import LightTree.Proofs.Abiding
import LightTree.Proofs.Charter

/-!
# What elements are built from

A list keeps the declarations that its elements are built from, and a list inside an element is
built from a declaration among them. So what holds of a group of declarations and of every group
nested in it goes on to hold of all lists that cascades build from it, however they end.
-/

namespace LightTree

open Edit

def Value.template? : Value → Option (List FieldDecl)
  | list _ template _ => some template
  | _ => none

theorem Value.template?_frame (value : Value) : value.frame.template? = value.template? := by
  cases value <;> rfl

/-- The declarations that elements of a declared list are built from, whatever gates are around
it. -/
def FieldDecl.template? : FieldDecl → Option (List FieldDecl)
  | list _ _ element => some element
  | gated _ _ _ inner => inner.template?
  | _ => none

/-- A property of the groups at a node that passes on to the groups nested in them. -/
def Nested (fits : NodeId → List FieldDecl → Prop) : Prop :=
  ∀ owner group, fits owner group → ∀ decl ∈ group, ∀ element,
    decl.template? = some element → fits owner element

namespace Tree

/-- The node of a list and the declarations that its elements are built from. -/
def template? (tree : Tree) : FieldId → Option (NodeId × List FieldDecl) :=
  tree.read (fun field ↦ field.value.template?.map fun template ↦ (field.owner, template)) none

/-- The elements of every list are built from declarations that fit its node. -/
def Suits (tree : Tree) (fits : NodeId → List FieldDecl → Prop) : Prop :=
  ∀ id owner template, tree.template? id = some (owner, template) → fits owner template

variable {tree after : Tree} {fits : NodeId → List FieldDecl → Prop}

theorem live_of_template?_eq_some {id : FieldId} {template : NodeId × List FieldDecl}
    (h : tree.template? id = some template) : tree.Live id :=
  live_of_read_ne (ne_of_eq_of_ne h (Option.some_ne_none template))

theorem template?_of_list {id : FieldId} {field : Field} (hf : tree.field? id = some field)
    {linked : Bool} {template : List FieldDecl} {elements : List (List FieldId)}
    (hv : field.value = .list linked template elements) :
    tree.template? id = some (field.owner, template) := by
  rw [template?, read_of_some hf, hv]
  rfl

theorem Abides.template? (h : tree.Abides after) {id : FieldId} (hid : id.index < tree.fields.size)
    (hl : after.Live id) : after.template? id = tree.template? id :=
  h.read (fun field ↦ congrArg (Option.map _) field.value.template?_frame) hid hl none

namespace Suits

theorem imp (h : tree.Suits fits) {fits' : NodeId → List FieldDecl → Prop}
    (hfits : ∀ owner template, fits owner template → fits' owner template) : tree.Suits fits' :=
  fun id owner template ht ↦ hfits owner template (h id owner template ht)

theorem of_abides (h : tree.Suits fits) (hab : tree.Abides after)
    (hsize : after.fields.size = tree.fields.size) : after.Suits fits := by
  intro id owner template ht
  have hl := live_of_template?_eq_some ht
  exact h id owner template (hab.template? (hsize ▸ hl.lt_size) hl ▸ ht)

theorem insertField (h : tree.Suits fits) {field : Field}
    (hfield : ∀ template, field.value.template? = some template → fits field.owner template) :
    (tree.insertField field).Suits fits := by
  intro id owner template ht
  rw [template?, read_insertField] at ht
  split at ht
  · obtain ⟨_, hvalue, heq⟩ := Option.map_eq_some_iff.1 ht
    cases heq
    exact hfield template hvalue
  · exact h id owner template ht

theorem relink (h : tree.Suits fits) (dependent : FieldId) (source : Option Source) :
    (tree.relink dependent source).Suits fits :=
  h.of_abides (.relink tree dependent source) (fields_size_relink dependent source)

theorem push (h : tree.Suits fits) (id : FieldId) (group : List FieldId) :
    (tree.push id group).Suits fits :=
  h.of_abides (.mapElements tree id _) (size_updateField tree id _)

end Suits

end Tree

/-! ## The charter of lists -/

/-- Under this charter every list builds its elements from declarations that fit its node. -/
def fitting (fits : NodeId → List FieldDecl → Prop) : Charter where
  declared owner decl := ∀ element, decl.template? = some element → fits owner element
  stored owner value := ∀ template, value.template? = some template → fits owner template

/-- Whatever the node, the lists of a kind build their elements from declarations that fit it. -/
def NodeKind.Fits (fits : NodeId → List FieldDecl → Prop) (kind : NodeKind) : Prop :=
  ∀ owner, ∀ decl ∈ kind.fields, ∀ element, decl.template? = some element → fits owner element

variable {fits : NodeId → List FieldDecl → Prop}

theorem Nested.lawful (hn : Nested fits) : (fitting fits).Lawful where
  scalar _ _ _ _ := nofun
  choice _ _ _ _ := nofun
  list _ _ _ _ h := h
  gate _ _ _ _ _ _ _ := nofun
  inner _ _ _ _ _ h := h
  template owner _ _ _ h decl hd := hn owner _ (h _ rfl) decl hd
  mapElements _ value _ h := by cases value <;> exact h

/-- A leaf keeps no declarations, so any change between leaves may be made. -/
theorem permits_fitting {change : Field → Except Fault Value} (hchange : Leafy change) :
    (fitting fits).Permits change where
  leafy := hchange
  stored field value hv _ template ht := by
    have hleaf := (hchange field value hv).2
    cases value with
    | scalar | choice | gated => cases ht
    | list => exact hleaf.elim

namespace Tree

variable {tree after : Tree}

theorem suits_iff : tree.Suits fits ↔ tree.Obeys (fitting fits) := by
  constructor
  · intro h id field hf template ht
    refine h id field.owner template ?_
    rw [template?, read_of_some hf, ht]
    rfl
  · intro h id owner template ht
    obtain ⟨field, hf⟩ := live_iff.1 (live_of_template?_eq_some ht)
    rw [template?, read_of_some hf] at ht
    obtain ⟨_, hvalue, heq⟩ := Option.map_eq_some_iff.1 ht
    cases heq
    exact h id field hf template hvalue

/-- All lists suit, and so do those of the kinds in the catalog. -/
structure Stocked (tree : Tree) (fits : NodeId → List FieldDecl → Prop) : Prop where
  suits : tree.Suits fits
  kinds : ∀ kind ∈ tree.catalog.kinds, kind.Fits fits

theorem stocked_iff : tree.Stocked fits ↔ tree.Chartered (fitting fits) :=
  ⟨fun h ↦ ⟨suits_iff.1 h.suits, h.kinds⟩, fun h ↦ ⟨suits_iff.2 h.obeys, h.kinds⟩⟩

theorem Stocked.of_nodes (h : tree.Stocked fits) (hfields : after.fields = tree.fields)
    (hc : after.catalog = tree.catalog) : after.Stocked fits :=
  stocked_iff.2 ((stocked_iff.1 h).of_nodes hfields hc)

theorem Stocked.releaseNode (h : tree.Stocked fits) (id : NodeId) :
    (tree.releaseNode id).Stocked fits :=
  have hs := releaseNode_shrinks tree id
  ⟨h.suits.of_abides (.of_shrinks hs) hs.fields_size, hs.catalog ▸ h.kinds⟩

theorem Stocked.giveUp (h : tree.Stocked fits) (child : NodeId) :
    (tree.giveUp child).Stocked fits := by
  unfold Tree.giveUp
  split
  · exact h.releaseNode child
  · exact h

end Tree

/-- An edit keeps the stock of declarations, however it ends. -/
def Edit.KeepsStock {α : Type} (edit : Edit α) (fits : NodeId → List FieldDecl → Prop) : Prop :=
  edit.Keeps (Tree.Stocked · fits)

namespace Nested

open LightTree.Tree

variable {α : Type} {edit : Edit α}

theorem keepsSuits_iff : edit.Keeps (Suits · fits) ↔ edit.Keeps (Obeys · (fitting fits)) := by
  simp only [suits_iff]

theorem keepsStock_iff : edit.KeepsStock fits ↔ edit.KeepsTo (fitting fits) := by
  simp only [KeepsStock, KeepsTo, stocked_iff]

variable (hn : Nested fits)

include hn

/-! ## Cascades -/

section

variable {visit : FieldId → Edit Unit} {owner : NodeId} (hv : ∀ d, (visit d).Keeps (Suits · fits))

include hv

theorem instantiate (group : List FieldId) (container : Option FieldId) {decl : FieldDecl}
    (hdecl : ∀ element, decl.template? = some element → fits owner element) :
    (instantiate visit owner group container decl).Keeps (Suits · fits) :=
  keepsSuits_iff.2
    (hn.lawful.instantiate (fun d ↦ keepsSuits_iff.1 (hv d)) group container decl hdecl)

theorem instantiateGroup (container : Option FieldId) (group : List FieldId)
    {decls : List FieldDecl}
    (hdecls : ∀ decl ∈ decls, ∀ element, decl.template? = some element → fits owner element) :
    (instantiateGroup visit owner container group decls).Keeps (Suits · fits) :=
  keepsSuits_iff.2
    (hn.lawful.instantiateGroup (fun d ↦ keepsSuits_iff.1 (hv d)) container group hdecls)

theorem grow {template : List FieldDecl} (ht : fits owner template) (id : FieldId) (count : Nat) :
    (grow visit owner template id count).Keeps (Suits · fits) :=
  keepsSuits_iff.2
    (hn.lawful.grow (fun d ↦ keepsSuits_iff.1 (hv d)) (hn owner template ht) id count)

end

theorem notify (fuel : Nat) (refresh : Bool) (path : List FieldId) (id : FieldId) :
    (notify fuel refresh path id).Keeps (Suits · fits) :=
  keepsSuits_iff.2 (hn.lawful.notify fuel refresh path id)

theorem enter (refresh : Bool) (id : FieldId) : (enter refresh id).Keeps (Suits · fits) :=
  keepsSuits_iff.2 (hn.lawful.enter refresh id)

/-! ## Operations -/

theorem attach (parent child : NodeId) (refresh : Bool) :
    (attach parent child refresh).KeepsStock fits :=
  keepsStock_iff.2 (hn.lawful.attach parent child refresh)

theorem furnish (id : NodeId) {decls : List FieldDecl}
    (hdecls : ∀ owner, ∀ decl ∈ decls, ∀ element, decl.template? = some element →
      fits owner element) : (furnish id decls).KeepsStock fits :=
  keepsStock_iff.2 (hn.lawful.furnish id hdecls)

theorem build {make : NodeKind → Edit NodeId}
    (hmake : ∀ kind, kind.Fits fits → (make kind).KeepsStock fits) (id : NodeId) {kind : NodeKind}
    (hkind : kind.Fits fits) : (build make id kind).KeepsStock fits :=
  keepsStock_iff.2 (hn.lawful.build (fun kind hk ↦ keepsStock_iff.1 (hmake kind hk)) id hkind)

theorem create {kind : NodeKind} (hkind : kind.Fits fits) : (create kind).KeepsStock fits :=
  keepsStock_iff.2 (hn.lawful.create hkind)

theorem addChild (parent child : NodeId) : (addChild parent child).KeepsStock fits :=
  keepsStock_iff.2 (hn.lawful.addChild parent child)

theorem removeChild (parent child : NodeId) : (removeChild parent child).KeepsStock fits :=
  keepsStock_iff.2 (hn.lawful.removeChild parent child)

theorem retype (id : NodeId) (symbol : String) : (retype id symbol).KeepsStock fits :=
  keepsStock_iff.2 (hn.lawful.retype id symbol)

theorem mutate (id : FieldId) {change : Field → Except Fault Value} (hchange : Leafy change) :
    (mutate id change).KeepsStock fits :=
  keepsStock_iff.2 (hn.lawful.mutate id (permits_fitting hchange))

theorem appendElement (id : FieldId) : (appendElement id).KeepsStock fits :=
  keepsStock_iff.2 (hn.lawful.appendElement id)

theorem removeElement (id : FieldId) (index : Nat) : (removeElement id index).KeepsStock fits :=
  keepsStock_iff.2 (hn.lawful.removeElement id index)

theorem rebind (dependent : FieldId) (source : Source) :
    (rebind dependent source).KeepsStock fits :=
  keepsStock_iff.2 (hn.lawful.rebind dependent source)

theorem invariant : Invariant (Stocked · fits) (fun _ ↦ (Stocked · fits)) (NodeKind.Fits fits) where
  catalog _ h := h.kinds
  create _ := create hn
  addChild := addChild hn
  removeChild := removeChild hn
  retype := retype hn
  mutate id _ := mutate hn id
  appendElement := appendElement hn
  removeElement := removeElement hn

end Nested

end LightTree
