/-!
# Stores

A store hands out numbers in order and keeps a value for each until it is removed. A number is
never handed out twice, so the slot of a removed value stays empty.
-/

namespace LightTree

structure Store (α : Type) where
  slots : Array (Option α) := #[]

namespace Store

variable {α : Type}

/-- How many numbers have been handed out; the next one is equal to it. -/
def size (store : Store α) : Nat := store.slots.size

def find? (store : Store α) (i : Nat) : Option α := store.slots[i]?.join

def insert (store : Store α) (a : α) : Store α := ⟨store.slots.push (some a)⟩

def update (store : Store α) (i : Nat) (f : α → α) : Store α :=
  ⟨store.slots.modify i (Option.map f)⟩

def remove (store : Store α) (i : Nat) : Store α := ⟨store.slots.setIfInBounds i none⟩

/-- The values that are kept, with their numbers in order. -/
def live (store : Store α) : List (Nat × α) :=
  (List.range store.size).filterMap fun i ↦ (store.find? i).map (i, ·)

def count (store : Store α) : Nat := store.live.length

@[simp] theorem size_insert (store : Store α) (a : α) : (store.insert a).size = store.size + 1 := by
  simp [insert, size]

@[simp] theorem size_update (store : Store α) (i : Nat) (f : α → α) :
    (store.update i f).size = store.size := by
  simp [update, size]

@[simp] theorem size_remove (store : Store α) (i : Nat) : (store.remove i).size = store.size := by
  simp [remove, size]

theorem find?_eq_none_of_size_le (store : Store α) {i : Nat} (h : store.size ≤ i) :
    store.find? i = none := by
  have hn : store.slots[i]? = none := Array.getElem?_eq_none h
  simp [find?, hn]

theorem lt_size_of_find? {store : Store α} {i : Nat} {a : α} (h : store.find? i = some a) :
    i < store.size := by
  apply Nat.lt_of_not_le
  intro hle
  simp [store.find?_eq_none_of_size_le hle] at h

@[simp] theorem find?_insert_self (store : Store α) (a : α) :
    (store.insert a).find? store.size = some a := by
  simp [find?, insert, size]

theorem find?_insert_of_ne (store : Store α) (a : α) {i : Nat} (h : i ≠ store.size) :
    (store.insert a).find? i = store.find? i := by
  simp [find?, insert, Array.getElem?_push, show i ≠ store.slots.size from h]

theorem find?_update (store : Store α) (i j : Nat) (f : α → α) :
    (store.update i f).find? j = if i = j then (store.find? j).map f else store.find? j := by
  simp only [find?, update, Array.getElem?_modify]
  split
  · cases store.slots[j]? <;> simp
  · rfl

@[simp] theorem find?_remove_self (store : Store α) (i : Nat) :
    (store.remove i).find? i = none := by
  simp only [find?, remove, Array.getElem?_setIfInBounds_self]
  split <;> rfl

theorem find?_remove_of_ne (store : Store α) {i j : Nat} (h : i ≠ j) :
    (store.remove i).find? j = store.find? j := by
  simp [find?, remove, Array.getElem?_setIfInBounds_ne h]

theorem mem_live_iff {store : Store α} {i : Nat} {a : α} :
    (i, a) ∈ store.live ↔ store.find? i = some a := by
  simp only [live, List.mem_filterMap, List.mem_range, Option.map_eq_some_iff, Prod.mk.injEq]
  constructor
  · rintro ⟨_, _, b, hb, rfl, rfl⟩
    exact hb
  · intro h
    exact ⟨i, lt_size_of_find? h, a, h, rfl, rfl⟩

end Store

end LightTree
