import LightTree.Proofs.Naming
import Mathlib.Data.List.Perm.Subperm
import Mathlib.Logic.Relation
import Mathlib.Order.WellFounded

/-!
# Required children

A catalog is accepted exactly if no kind begins an endless row of kinds each of which requires a
child of the next. Below a node of any kind, the kinds that are required in turn are then the first
ones of different categories, so building a node never builds nodes more than five levels deep.
-/

namespace LightTree

open Relation

namespace Catalog

/-- Nodes of one kind are built with children of another, the first one of the category of their
children. -/
def Requires (kinds : List NodeKind) (kind next : NodeKind) : Prop :=
  0 < kind.minChildren ∧ kinds.find? (·.category == kind.childCategory) = some next

/-- From this kind on, one kind after the other requires a child of the next. -/
def EndlessFrom (kinds : List NodeKind) (kind : NodeKind) : Prop :=
  ∃ row : Nat → NodeKind, row 0 = kind ∧ ∀ n, Requires kinds (row n) (row (n + 1))

variable {kinds : List NodeKind} {kind next : NodeKind}

namespace Requires

theorem mem (h : Requires kinds kind next) : next ∈ kinds :=
  List.mem_of_find?_eq_some h.2

/-- Whatever is required is the first kind of its category. -/
theorem find?_category (h : Requires kinds kind next) :
    kinds.find? (·.category == next.category) = some next := by
  have hmatch := List.find?_some h.2
  have hcategory : next.category = kind.childCategory := eq_of_beq hmatch
  rw [hcategory]
  exact h.2

end Requires

theorem not_endlessFrom_iff :
    ¬ EndlessFrom kinds kind ↔ Acc (fun next kind ↦ Requires kinds kind next) kind :=
  not_iff_comm.1 not_acc_iff_exists_descending_chain

/-- A kind that in the end requires a child of the same kind begins an endless row. -/
theorem endlessFrom_of_cycle (h : TransGen (Requires kinds) kind kind) :
    EndlessFrom kinds kind := by
  by_contra hends
  have hacc : Acc (TransGen fun next kind ↦ Requires kinds kind next) kind :=
    acc_transGen_iff.2 (not_endlessFrom_iff.1 hends)
  exact not_acc_iff_exists_descending_chain.2
    ⟨fun _ ↦ kind, rfl, fun _ ↦ transGen_swap.2 h⟩ hacc

/-! ## The check of a catalog -/

theorem requires_of_requiredChild? {position child : Nat} (hkind : kinds[position]? = some kind)
    (h : requiredChild? kinds position = some child) :
    ∃ next, kinds[child]? = some next ∧ Requires kinds kind next := by
  rw [requiredChild?, hkind] at h
  simp only at h
  split at h
  · cases h
  · next hmin =>
      obtain ⟨hlt, hmatch, hfirst⟩ := List.findIdx?_eq_some_iff_getElem.1 h
      refine ⟨kinds[child], List.getElem?_eq_getElem hlt, Nat.pos_of_ne_zero hmin, ?_⟩
      exact List.find?_eq_some_iff_getElem.2
        ⟨hmatch, child, hlt, rfl, fun j hj ↦ by simpa using hfirst j hj⟩

theorem requiredChild?_of_requires {position : Nat} (hkind : kinds[position]? = some kind)
    (h : Requires kinds kind next) :
    ∃ child, requiredChild? kinds position = some child ∧ kinds[child]? = some next := by
  obtain ⟨hmatch, child, hlt, hnext, hfirst⟩ := List.find?_eq_some_iff_getElem.1 h.2
  refine ⟨child, ?_, hnext ▸ List.getElem?_eq_getElem hlt⟩
  rw [requiredChild?, hkind]
  simp only [if_neg (Nat.ne_of_gt h.1)]
  exact List.findIdx?_eq_some_iff_getElem.2
    ⟨hlt, hnext ▸ hmatch, fun j hj ↦ by simpa using hfirst j hj⟩

/-- A kind whose row of required children is followed to an end begins no endless row. -/
theorem not_endlessFrom_of_followRequired {start fuel position : Nat} {seen : List Nat}
    (hfuel : kinds.length < fuel + seen.length) (hnodup : seen.Nodup)
    (hseen : ∀ place ∈ seen, place < kinds.length) (hkind : kinds[position]? = some kind)
    (h : followRequired kinds start fuel seen position = .ok ()) : ¬ EndlessFrom kinds kind := by
  rw [not_endlessFrom_iff]
  induction fuel generalizing seen position kind with
  | zero =>
      have hall : seen ⊆ List.range kinds.length := fun place hp ↦ List.mem_range.2 (hseen place hp)
      have hlength := (hnodup.subperm hall).length_le
      rw [List.length_range] at hlength
      omega
  | succ fuel ih =>
      refine .intro kind fun next hnext ↦ ?_
      obtain ⟨child, hchild, hat⟩ := requiredChild?_of_requires hkind hnext
      have hlt : child < kinds.length := (List.getElem?_eq_some_iff.1 hat).1
      rw [followRequired, hchild] at h
      simp only at h
      split at h
      · cases h
      · next hnew =>
          refine ih ?_ (List.nodup_cons.2 ⟨hnew, hnodup⟩) ?_ hat h
          · rw [List.length_cons]
            omega
          · exact List.forall_mem_cons.2 ⟨hlt, hseen⟩

/-- Where a row of required children is refused, it has come back to a kind it went through. -/
theorem exists_endlessFrom_of_followRequired {start fuel position : Nat} {seen : List Nat}
    {fault : Fault} (hkind : kinds[position]? = some kind)
    (hseen : ∀ place ∈ seen, ∃ earlier, kinds[place]? = some earlier ∧
      ReflTransGen (Requires kinds) earlier kind)
    (h : followRequired kinds start fuel seen position = .error fault) :
    ∃ kind ∈ kinds, EndlessFrom kinds kind := by
  induction fuel generalizing seen position kind with
  | zero => cases h
  | succ fuel ih =>
      rw [followRequired] at h
      cases hchild : requiredChild? kinds position with
      | none =>
          rw [hchild] at h
          cases h
      | some child =>
          obtain ⟨next, hnext, hrequires⟩ := requires_of_requiredChild? hkind hchild
          rw [hchild] at h
          simp only at h
          split at h
          · next hagain =>
              obtain ⟨earlier, hearlier, hpath⟩ := hseen child hagain
              obtain rfl : earlier = next := Option.some.inj (hearlier.symm.trans hnext)
              exact ⟨earlier, hrequires.mem, endlessFrom_of_cycle (.tail' hpath hrequires)⟩
          · refine ih hnext (List.forall_mem_cons.2 ⟨⟨next, hnext, .refl⟩, fun place hp ↦ ?_⟩) h
            obtain ⟨earlier, hearlier, hpath⟩ := hseen place hp
            exact ⟨earlier, hearlier, hpath.tail hrequires⟩

theorem checkRequired_eq_ok_iff :
    checkRequired kinds = .ok () ↔ ∀ kind ∈ kinds, ¬ EndlessFrom kinds kind := by
  constructor
  · intro h kind hk
    obtain ⟨start, hlt, rfl⟩ := List.getElem_of_mem hk
    have hfollow := eq_ok_of_forM_eq_ok h start (List.mem_range.2 hlt)
    refine not_endlessFrom_of_followRequired ?_ (List.nodup_singleton start)
      (List.forall_mem_singleton.2 hlt) (List.getElem?_eq_getElem hlt) hfollow
    rw [List.length_singleton]
    omega
  · intro hends
    cases h : checkRequired kinds with
    | ok u => rfl
    | error fault =>
        obtain ⟨start, hstart, hfollow⟩ := exists_of_forM_eq_error h
        have hat := List.getElem?_eq_getElem (List.mem_range.1 hstart)
        obtain ⟨kind, hk, hendless⟩ := exists_endlessFrom_of_followRequired hat
          (List.forall_mem_singleton.2 ⟨_, hat, .refl⟩) hfollow
        exact absurd hendless (hends kind hk)

theorem check_eq_ok_iff (hkinds : ∀ kind ∈ kinds, kind.check = .ok ())
    (hsystem : ∃ kind ∈ kinds, kind.category = .system) :
    check kinds = .ok () ↔ ∀ kind ∈ kinds, ¬ EndlessFrom kinds kind := by
  have hall : kinds.forM NodeKind.check = .ok () := by
    cases h : kinds.forM NodeKind.check with
    | ok u => rfl
    | error fault =>
        obtain ⟨kind, hk, hfault⟩ := exists_of_forM_eq_error h
        rw [hkinds kind hk] at hfault
        cases hfault
  have hany : kinds.any (·.category == .system) = true := by
    obtain ⟨kind, hk, hcategory⟩ := hsystem
    exact List.any_eq_true.2 ⟨kind, hk, beq_iff_eq.2 hcategory⟩
  rw [← checkRequired_eq_ok_iff, check, hall, hany]
  rfl

theorem not_endlessFrom (catalog : Catalog) (hk : kind ∈ catalog.kinds) :
    ¬ EndlessFrom catalog.kinds kind := by
  have hsystem : ∃ kind ∈ catalog.kinds, kind.category = .system := by
    obtain ⟨kind, hkind, hcategory⟩ := List.any_eq_true.1 (any_system_of_check catalog.checked)
    exact ⟨kind, hkind, eq_of_beq hcategory⟩
  exact (check_eq_ok_iff (fun _ ↦ catalog.check_of_mem) hsystem).1 catalog.checked kind hk

/-! ## Rows of required children -/

theorem transGen_of_isChain {row : List NodeKind} (h : List.IsChain (Requires kinds) (kind :: row))
    (hnext : next ∈ row) : TransGen (Requires kinds) kind next :=
  List.rel_of_pairwise_cons (h.imp fun _ _ ↦ TransGen.single).pairwise hnext

/-- The kinds that are required in turn have different categories. -/
theorem nodup_categories (catalog : Catalog) {row : List NodeKind}
    (h : List.IsChain (Requires catalog.kinds) (kind :: row)) :
    (row.map NodeKind.category).Nodup := by
  induction row generalizing kind with
  | nil => exact List.nodup_nil
  | cons next rest ih =>
      obtain ⟨hnext, hrest⟩ := List.isChain_cons_cons.1 h
      refine List.nodup_cons.2 ⟨fun hmem ↦ ?_, ih hrest⟩
      obtain ⟨again, hagain, hcategory⟩ := List.mem_map.1 hmem
      have hcycle := transGen_of_isChain hrest hagain
      obtain ⟨last, _, hlast⟩ := TransGen.tail'_iff.1 hcycle
      have hfirst := hlast.find?_category
      rw [hcategory, hnext.find?_category] at hfirst
      obtain rfl := Option.some.inj hfirst
      exact catalog.not_endlessFrom hnext.mem (endlessFrom_of_cycle hcycle)

/-- There are four categories for the kinds that are required in turn. -/
theorem length_le_of_isChain (catalog : Catalog) {row : List NodeKind}
    (h : List.IsChain (Requires catalog.kinds) (kind :: row)) : row.length ≤ 4 := by
  have hcategories : row.map NodeKind.category ⊆ [.system, .object, .animation, .function] := by
    intro category hmem
    obtain ⟨next, hnext, rfl⟩ := List.mem_map.1 hmem
    obtain ⟨last, _, hlast⟩ := TransGen.tail'_iff.1 (transGen_of_isChain h hnext)
    have hcheck := (NodeKind.of_check (catalog.check_of_mem hlast.mem)).2.2.1
    have hall := next.category.mem_all
    simp only [Category.all, List.mem_cons, List.not_mem_nil, or_false] at hall ⊢
    rcases hall with h | h | h | h | h
    · exact .inl h
    · exact .inr (.inl h)
    · exact .inr (.inr (.inl h))
    · exact .inr (.inr (.inr h))
    · simp [h] at hcheck
  have hlength := ((catalog.nodup_categories h).subperm hcategories).length_le
  rwa [List.length_map] at hlength

end Catalog

/-! ## Levels of building -/

/-- Makes a node of a kind; the nodes it requires below it are made by `make`. -/
def createWith (make : NodeKind → Edit NodeId) (kind : NodeKind) : Edit NodeId := do
  Edit.check fun _ ↦ kind.check
  let id ← Edit.addNode { kind }
  (build make id kind).orElseUndo (release id)
  return id

section

open Edit

variable {α β : Type} {tree : Tree}

theorem runOn_bind_congr {edit edit' : Edit α} {next next' : α → Edit β}
    (h : edit.runOn tree = edit'.runOn tree)
    (hnext : ∀ a after, edit'.runOn tree = (.ok a, after) →
      (next a).runOn after = (next' a).runOn after) :
    (edit >>= next).runOn tree = (edit' >>= next').runOn tree := by
  rw [runOn_bind, runOn_bind, h]
  rcases hrun : edit'.runOn tree with ⟨fault | a, after⟩
  · rfl
  · exact hnext a after hrun

/-- Two ways to make nodes have the same effect on every tree with the catalog. -/
def MakesAlike (catalog : Catalog) (make make' : NodeKind → Edit NodeId) (kind : NodeKind) : Prop :=
  ∀ tree : Tree, tree.catalog = catalog → (make kind).runOn tree = (make' kind).runOn tree

variable {catalog : Catalog} {make make' : NodeKind → Edit NodeId} {id : NodeId} {kind : NodeKind}

theorem populateOne_alike {childKind : NodeKind} (h : MakesAlike catalog make make' childKind)
    (hc : tree.catalog = catalog) :
    (populateOne make id kind childKind).runOn tree =
      (populateOne make' id kind childKind).runOn tree :=
  runOn_bind_congr (h tree hc) fun _ _ _ ↦ rfl

theorem populate_alike {childKind? : Option NodeKind} {count : Nat}
    (hmake : ∀ kind, (make' kind).Respects fun tree after ↦ after.catalog = tree.catalog)
    (h : 0 < count → ∀ childKind, childKind? = some childKind →
      MakesAlike catalog make make' childKind) (hc : tree.catalog = catalog) :
    (populate make id kind childKind? count).runOn tree =
      (populate make' id kind childKind? count).runOn tree := by
  induction count generalizing tree with
  | zero => rfl
  | succ count ih =>
      cases childKind? with
      | none => rfl
      | some childKind =>
          have hchild := h count.succ_pos childKind rfl
          refine runOn_bind_congr (populateOne_alike hchild hc) fun _ after hrun ↦ ?_
          have hafter := (Tree.lasting_catalog.populateOne hmake id kind childKind tree).of_runOn_ok hrun
          exact ih (fun _ _ hsome ↦ Option.some.inj hsome ▸ hchild) (hafter.trans hc)

theorem build_alike (hmake : ∀ kind, (make' kind).Respects fun tree after ↦
      after.catalog = tree.catalog)
    (h : ∀ next, Catalog.Requires catalog.kinds kind next → MakesAlike catalog make make' next)
    (hc : tree.catalog = catalog) :
    (build make id kind).runOn tree = (build make' id kind).runOn tree := by
  refine runOn_bind_congr rfl fun _ mid hrun ↦ ?_
  have hmid : mid.catalog = catalog :=
    ((Tree.lasting_catalog.toHarmless.furnish Tree.lasting_catalog.addTop id kind.fields
      tree).of_runOn_ok hrun).trans hc
  split
  · refine runOn_bind_congr rfl fun _ after hget ↦ ?_
    cases hget
    refine populate_alike hmake (fun hmin next hnext ↦ h next ⟨hmin, ?_⟩) hmid
    rwa [hmid] at hnext
  · rfl

theorem createWith_alike (hmake : ∀ kind, (make' kind).Respects fun tree after ↦
      after.catalog = tree.catalog)
    (h : ∀ next, Catalog.Requires catalog.kinds kind next → MakesAlike catalog make make' next) :
    MakesAlike catalog (createWith make) (createWith make') kind := by
  intro tree hc
  refine runOn_bind_congr rfl fun _ mid hcheck ↦ ?_
  have hmid : mid = tree := by
    rw [runOn_check] at hcheck
    exact (congrArg Prod.snd hcheck).symm
  subst hmid
  refine runOn_bind_congr rfl fun new after hadd ↦ ?_
  cases hadd
  refine runOn_bind_congr ?_ fun _ _ _ ↦ rfl
  rw [runOn_orElseUndo, runOn_orElseUndo, build_alike hmake h (by exact hc)]

/-- Where every row of required children is shorter than the levels, what is done below them makes no
difference. -/
theorem iterate_createWith_alike {levels : Nat} {beyond : NodeKind → Edit NodeId}
    (h : ∀ row, List.IsChain (Catalog.Requires catalog.kinds) (kind :: row) →
      row.length < levels) :
    MakesAlike catalog (createWith^[levels] beyond) (createWithin levels) kind := by
  induction levels generalizing kind with
  | zero => exact absurd (h [] (.singleton kind)) (Nat.not_lt_zero _)
  | succ levels ih =>
      rw [Function.iterate_succ_apply']
      refine createWith_alike (Tree.lasting_catalog.createWithin levels) fun next hnext ↦ ?_
      refine ih fun row hrow ↦ ?_
      exact Nat.lt_of_succ_lt_succ (h (next :: row) (List.isChain_cons_cons.2 ⟨hnext, hrow⟩))

theorem create_eq_iterate (tree : Tree) (kind : NodeKind) (beyond : NodeKind → Edit NodeId) :
    (createWith^[5] beyond kind).runOn tree = (create kind).runOn tree :=
  iterate_createWith_alike
    (fun _ hrow ↦ Nat.lt_succ_of_le (tree.catalog.length_le_of_isChain hrow)) tree rfl

/-- Making a node is its own recursion: the required children are made in the same way. -/
theorem create_eq_createWith (tree : Tree) (kind : NodeKind) :
    (create kind).runOn tree = (createWith create kind).runOn tree := by
  have h := create_eq_iterate tree kind (createWith fun _ ↦ throw .exhausted)
  exact h.symm

end

/-- Kinds that are accepted one by one and have a system among them make a catalog exactly if none
begins an endless row of required children. In a tree over any catalog, a node of any kind is made
by making the children it requires in the same way, and what would be done more than five levels
deep is never done. -/
theorem required_children_end (kinds : List NodeKind) (hkinds : ∀ kind ∈ kinds, kind.check = .ok ())
    (hsystem : ∃ kind ∈ kinds, kind.category = .system) :
    ((∃ catalog, Catalog.ofKinds kinds = .ok catalog) ↔
        ∀ kind ∈ kinds, ¬ Catalog.EndlessFrom kinds kind) ∧
      ∀ (tree : Tree) (kind : NodeKind),
        (create kind).runOn tree = (createWith create kind).runOn tree ∧
          ∀ beyond, (createWith^[5] beyond kind).runOn tree = (create kind).runOn tree := by
  refine ⟨?_, fun tree kind ↦ ⟨create_eq_createWith tree kind, create_eq_iterate tree kind⟩⟩
  rw [← Catalog.check_eq_ok_iff hkinds hsystem]
  constructor
  · rintro ⟨catalog, hcatalog⟩
    exact Catalog.ofKinds_eq_ok_iff.1 hcatalog ▸ catalog.checked
  · intro h
    exact ⟨⟨kinds, h⟩, Catalog.ofKinds_eq_ok_iff.2 rfl⟩

/-- The kind of a node with one child of the given category, or with none. -/
def rung (category childCategory : Category) : NodeKind where
  name := category.label
  symbol := ""
  category := category
  childCategory := childCategory
  minChildren := if childCategory = .nothing then 0 else 1
  maxChildren := if childCategory = .nothing then some 0 else some 1
  fields := []

/-- Below a system stand an object, an animation and a function. -/
def ladder : List NodeKind :=
  [rung .system .object, rung .object .animation, rung .animation .function, rung .function .nothing]

/-- A function that requires a system is no kind of the ladder, and is built five levels deep. -/
theorem required_children_end_ladder :
    (∀ kind ∈ ladder, kind.check = .ok ()) ∧ (∃ kind ∈ ladder, kind.category = .system) ∧
      (∀ kind ∈ ladder, ¬ Catalog.EndlessFrom ladder kind) ∧
      ∀ beyond, (createWith^[5] beyond (rung .function .system)).runOn
          { catalog := ⟨ladder, rfl⟩, settings := {} } =
        (create (rung .function .system)).runOn { catalog := ⟨ladder, rfl⟩, settings := {} } :=
  have hkinds : ∀ kind ∈ ladder, kind.check = .ok () := by decide +kernel
  have hsystem : ∃ kind ∈ ladder, kind.category = .system := by decide +kernel
  have h := required_children_end ladder hkinds hsystem
  ⟨hkinds, hsystem, h.1.1 ⟨⟨ladder, rfl⟩, rfl⟩, (h.2 _ (rung .function .system)).2⟩

end LightTree
