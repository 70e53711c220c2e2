import LightTree.Proofs.View

/-!
# Layers of gated fields

A gated field wraps the field inside it, which is older than the gate. The layers of a field are
therefore exactly what it wraps in any number of steps, and the innermost one wraps nothing.
-/

namespace LightTree

open Relation

/-! ## Chains -/

section

variable {α : Type} {next : α → Option α}

theorem reflTransGen_of_mem_chain {fuel : Nat} {a x : α} (h : x ∈ chain next fuel a) :
    ReflTransGen (fun a b ↦ next a = some b) a x := by
  induction fuel generalizing a with
  | zero =>
      rw [List.mem_singleton.1 h]
  | succ fuel ih =>
      cases hn : next a with
      | none =>
          rw [chain_of_none hn, List.mem_singleton] at h
          rw [h]
      | some b =>
          rw [chain_of_some hn] at h
          rcases List.mem_cons.1 h with rfl | h
          · exact .refl
          · exact .head hn (ih h)

/-- A chain that falls in rank is complete if there is fuel for the rank it starts from. -/
theorem mem_chain_of_reflTransGen (rank : α → Nat)
    (hrank : ∀ a b, next a = some b → rank b < rank a) {fuel : Nat} {a x : α}
    (hfuel : rank a ≤ fuel) (h : ReflTransGen (fun a b ↦ next a = some b) a x) :
    x ∈ chain next fuel a := by
  induction fuel generalizing a with
  | zero =>
      rcases h.cases_head with rfl | ⟨b, hb, _⟩
      · exact mem_chain_self next 0 a
      · have := hrank a b hb
        omega
  | succ fuel ih =>
      rcases h.cases_head with rfl | ⟨b, hb, hx⟩
      · exact mem_chain_self next _ a
      · rw [chain_of_some hb]
        have := hrank a b hb
        exact List.mem_cons_of_mem a (ih (by omega) hx)

theorem nodup_chain (rank : α → Nat) (hrank : ∀ a b, next a = some b → rank b < rank a)
    (fuel : Nat) (a : α) : (chain next fuel a).Nodup := by
  have hle : ∀ a x, ReflTransGen (fun a b ↦ next a = some b) a x → rank x ≤ rank a := by
    intro a x h
    induction h with
    | refl => exact Nat.le_refl _
    | tail _ hb ih => exact Nat.le_trans (Nat.le_of_lt (hrank _ _ hb)) ih
  induction fuel generalizing a with
  | zero => simp
  | succ fuel ih =>
      cases hn : next a with
      | none => simp [chain_of_none hn]
      | some b =>
          rw [chain_of_some hn, List.nodup_cons]
          refine ⟨fun h ↦ ?_, ih b⟩
          have := hle b a (reflTransGen_of_mem_chain h)
          have := hrank a b hn
          omega

theorem next_getLast_chain (rank : α → Nat) (hrank : ∀ a b, next a = some b → rank b < rank a)
    {fuel : Nat} {a : α} (hfuel : rank a ≤ fuel) :
    next ((chain next fuel a).getLast (chain_ne_nil next fuel a)) = none := by
  induction fuel generalizing a with
  | zero =>
      cases hn : next a with
      | none => simpa using hn
      | some b =>
          have := hrank a b hn
          omega
  | succ fuel ih =>
      cases hn : next a with
      | none => simpa [chain_of_none hn] using hn
      | some b =>
          have := hrank a b hn
          simpa [chain_of_some hn, List.getLast_cons (chain_ne_nil next fuel b)] using
            ih (a := b) (by omega)

/-- A chain that has come to an end is the same with more fuel, and wherever the same steps are
taken. -/
theorem chain_congr {next' : α → Option α} {fuel fuel' : Nat} (hle : fuel ≤ fuel') {a : α}
    (hsame : ∀ x ∈ chain next fuel a, next' x = next x)
    (hend : next ((chain next fuel a).getLast (chain_ne_nil next fuel a)) = none) :
    chain next' fuel' a = chain next fuel a := by
  induction fuel generalizing fuel' a with
  | zero =>
      have ha : next a = none := hend
      rw [chain_zero, chain_of_none ((hsame a (mem_chain_self next 0 a)).trans ha)]
  | succ fuel ih =>
      have ha := hsame a (mem_chain_self next (fuel + 1) a)
      cases hnext : next a with
      | none => rw [chain_of_none hnext, chain_of_none (ha.trans hnext)]
      | some b =>
          obtain ⟨more, rfl⟩ := Nat.exists_eq_add_of_le hle
          have hcons := chain_of_some hnext fuel
          simp only [hcons, List.mem_cons, forall_eq_or_imp] at hsame
          simp only [hcons, List.getLast_cons (chain_ne_nil next fuel b)] at hend
          rw [hcons, Nat.add_right_comm, chain_of_some (ha.trans hnext),
            ih (Nat.le_add_right fuel more) hsame.2 hend]

/-- Where some steps are not taken any more, a chain ends as before or at the first of those. -/
theorem getLast_chain_eq_or {next' : α → Option α} {alive : α → Prop}
    (hsame : ∀ x, alive x → next' x = next x) (hgone : ∀ x, ¬alive x → next' x = none)
    (fuel : Nat) (a : α) :
    (chain next' fuel a).getLast (chain_ne_nil next' fuel a) =
        (chain next fuel a).getLast (chain_ne_nil next fuel a) ∨
      ¬alive ((chain next' fuel a).getLast (chain_ne_nil next' fuel a)) := by
  induction fuel generalizing a with
  | zero => exact .inl rfl
  | succ fuel ih =>
      by_cases ha : alive a
      · cases hnext : next a with
        | none => simp [chain_of_none hnext, chain_of_none ((hsame a ha).trans hnext)]
        | some b =>
            have hnext' := (hsame a ha).trans hnext
            simpa only [chain_of_some hnext, chain_of_some hnext',
              List.getLast_cons (chain_ne_nil _ fuel b)] using ih b
      · refine .inr ?_
        simpa only [chain_of_none (hgone a ha), List.getLast_singleton] using ha

end

namespace Tree

/-! ## Order -/

def Issued (tree : Tree) : Source → Prop
  | .field id => id.index < tree.fields.size
  | .children id => id.index < tree.nodes.size

/-- What a field mentions has been handed out before it, or before its link was made. -/
structure Ordered (tree : Tree) : Prop where
  inner_lt : ∀ a b, tree.inner? a = some b → b.index < a.index
  container_lt : ∀ a b, tree.container? a = some b → b.index < a.index
  link_issued : ∀ a source, tree.link? a = some source → tree.Issued source
  owner_issued : ∀ a node, tree.owner? a = some node → node.index < tree.nodes.size

theorem Issued.mono {tree after : Tree} {source : Source} (h : tree.Issued source)
    (hfields : tree.fields.size ≤ after.fields.size)
    (hnodes : tree.nodes.size ≤ after.nodes.size) : after.Issued source := by
  cases source with
  | field id => exact Nat.lt_of_lt_of_le h hfields
  | children id => exact Nat.lt_of_lt_of_le h hnodes

theorem Ordered.mono {tree after : Tree} (h : tree.Ordered)
    (hinner : ∀ a b, after.inner? a = some b → tree.inner? a = some b)
    (hcontainer : ∀ a b, after.container? a = some b → tree.container? a = some b)
    (hlink : ∀ a source, after.link? a = some source → tree.link? a = some source)
    (howner : ∀ a node, after.owner? a = some node → tree.owner? a = some node)
    (hfields : tree.fields.size ≤ after.fields.size)
    (hnodes : tree.nodes.size ≤ after.nodes.size) : after.Ordered where
  inner_lt a b hab := h.inner_lt a b (hinner a b hab)
  container_lt a b hab := h.container_lt a b (hcontainer a b hab)
  link_issued a source ha := (h.link_issued a source (hlink a source ha)).mono hfields hnodes
  owner_issued a node ha := Nat.lt_of_lt_of_le (h.owner_issued a node (howner a node ha)) hnodes

/-- A new field keeps the order if it mentions older fields only. -/
theorem Ordered.insertField {tree : Tree} (h : tree.Ordered) {field : Field}
    (hinner : ∀ b, field.value.inner? = some b → b.index < tree.fields.size)
    (hcontainer : ∀ b, field.container = some b → b.index < tree.fields.size)
    (hlink : field.link = none) (howner : field.owner.index < tree.nodes.size) :
    (tree.insertField field).Ordered where
  inner_lt a b hab := by
    rw [inner?_eq_read, read_insertField] at hab
    split at hab
    · next ha => exact ha ▸ hinner b hab
    · exact h.inner_lt a b (by rwa [inner?_eq_read])
  container_lt a b hab := by
    rw [container?_eq_read, read_insertField] at hab
    split at hab
    · next ha => exact ha ▸ hcontainer b hab
    · exact h.container_lt a b (by rwa [container?_eq_read])
  link_issued a source ha := by
    rw [link?, read_insertField, hlink] at ha
    split at ha
    · exact absurd ha nofun
    · exact (h.link_issued a source ha).mono (by simp) (Nat.le_refl _)
  owner_issued a node ha := by
    rw [owner?, read_insertField] at ha
    split at ha
    · exact Option.some.inj ha ▸ howner
    · exact h.owner_issued a node ha

/-! ## Wrapping -/

def Wraps (tree : Tree) (a b : FieldId) : Prop :=
  tree.inner? a = some b

/-- A gate is newer than the field inside it. -/
def InnerOlder (tree : Tree) : Prop :=
  ∀ a b, tree.inner? a = some b → b.index < a.index

variable {tree : Tree}

theorem Ordered.innerOlder (h : tree.Ordered) : tree.InnerOlder :=
  h.inner_lt

theorem mem_layers_iff (h : tree.InnerOlder) {id x : FieldId} :
    x ∈ tree.layers id ↔ ReflTransGen tree.Wraps id x := by
  constructor
  · exact reflTransGen_of_mem_chain
  · intro hx
    by_cases hl : tree.Live id
    · exact mem_chain_of_reflTransGen FieldId.index h (Nat.le_of_lt hl.lt_size) hx
    · rcases hx.cases_head with rfl | ⟨b, hb, _⟩
      · exact mem_chain_self _ _ _
      · exact (hl (live_of_inner?_eq_some hb)).elim

theorem nodup_layers (h : tree.InnerOlder) (id : FieldId) : (tree.layers id).Nodup :=
  nodup_chain FieldId.index h _ _

theorem Ordered.le_of_wraps (h : tree.Ordered) {id x : FieldId}
    (hx : ReflTransGen tree.Wraps id x) : x.index ≤ id.index := by
  induction hx with
  | refl => exact Nat.le_refl _
  | tail _ hxy ih => exact Nat.le_trans (Nat.le_of_lt (h.inner_lt _ _ hxy)) ih

theorem wraps_insertField (field : Field) (a b : FieldId) :
    (tree.insertField field).Wraps a b ↔
      if a = tree.nextField then field.value.inner? = some b else tree.Wraps a b := by
  unfold Wraps
  rw [inner?_eq_read, inner?_eq_read, read_insertField]
  split <;> rfl

theorem Ordered.wraps_insertField_iff (h : tree.Ordered) (field : Field) {id x : FieldId}
    (hid : id.index < tree.fields.size) :
    ReflTransGen (tree.insertField field).Wraps id x ↔ ReflTransGen tree.Wraps id x := by
  constructor
  · intro hx
    induction hx with
    | refl => exact .refl
    | @tail a b _ hab ih =>
        have hne : a ≠ tree.nextField := by
          rintro rfl
          exact absurd (h.le_of_wraps ih) (Nat.not_le_of_lt hid)
        rw [wraps_insertField, if_neg hne] at hab
        exact ih.tail hab
  · refine fun hx ↦ ReflTransGen.mono (fun a b hab ↦ ?_) _ _ hx
    rwa [wraps_insertField, if_neg (live_of_inner?_eq_some hab).ne_nextField]

theorem wraps_unwrap (tree : Tree) (id : FieldId) :
    ReflTransGen tree.Wraps id (tree.unwrap id) :=
  reflTransGen_of_mem_chain (List.getLast_mem _)

theorem inner?_unwrap (h : tree.Ordered) (id : FieldId) :
    tree.inner? (tree.unwrap id) = none := by
  by_cases hl : tree.Live id
  · exact next_getLast_chain FieldId.index h.inner_lt (Nat.le_of_lt hl.lt_size)
  · have hn : tree.inner? id = none := by
      by_contra hne
      obtain ⟨b, hb⟩ := Option.ne_none_iff_exists'.1 hne
      exact hl (live_of_inner?_eq_some hb)
    simpa [unwrap, layers, chain_of_none hn] using hn

/-- The innermost layer is the one layer that wraps nothing. -/
theorem eq_unwrap (h : tree.Ordered) {id x : FieldId} (hx : ReflTransGen tree.Wraps id x)
    (hn : tree.inner? x = none) : x = tree.unwrap id := by
  have hdet : Relator.RightUnique tree.Wraps := by
    intro a b c hb hc
    exact Option.some.inj ((Eq.symm hb).trans hc)
  rcases ReflTransGen.total_of_right_unique hdet hx (tree.wraps_unwrap id) with hxu | hux
  · rcases hxu.cases_head with heq | ⟨b, hb, _⟩
    · exact heq
    · exact absurd (hn.symm.trans hb) nofun
  · rcases hux.cases_head with heq | ⟨b, hb, _⟩
    · exact heq.symm
    · exact absurd ((inner?_unwrap h id).symm.trans hb) nofun

end Tree

end LightTree
