import Mathlib.Logic.Basic

/-!
# Heaps of objects

A heap lists the objects ever allocated, and a pointer is a place in that list.  A released
object leaves an empty cell behind: no address is handed out twice, and a pointer to a
released object can be told from one that was never handed out.

`LiveAt` is the only way the results speak about a heap; each operation comes with one
lemma that says which objects are live behind it.

## Main definitions

* `Heaps.Heap`, `Heaps.Ptr` — a heap and a place in it.
* `Heaps.alloc`, `Heaps.store`, `Heaps.release` — the operations.
* `Heaps.LiveAt` — a pointer leads to a live object.
* `Heaps.All` — a property of every live object.
-/

namespace Heaps

universe u

/-- The objects ever allocated, none where one was released. -/
abbrev Heap (α : Type u) := List (Option α)

abbrev Ptr := Nat

/-- What a pointer leads to. -/
inductive Cell (α : Type u)
  | live (a : α)
  | released
  /-- The pointer was never handed out. -/
  | unknown

variable {α : Type u} (heap : Heap α) (p : Ptr) (a : α)

def cell : Cell α :=
  match heap[p]? with
  | some (some a) => .live a
  | some none => .released
  | none => .unknown

/-- Allocate an object; its pointer is `fresh heap`. -/
def alloc : Heap α := heap ++ [some a]

def fresh : Ptr := heap.length

/-- Change a live object. -/
def store : Heap α := heap.set p (some a)

def release : Heap α := heap.set p none

def LiveAt : Prop := heap[p]? = some (some a)

/-- The object behind the pointer was released. -/
def ReleasedAt : Prop := heap[p]? = some none

variable {heap p a} {q : Ptr} {b c : α}

theorem cell_of_liveAt (h : LiveAt heap p a) : cell heap p = .live a := by
  unfold LiveAt at h
  rw [cell, h]

theorem cell_of_releasedAt (h : ReleasedAt heap p) : cell heap p = .released := by
  unfold ReleasedAt at h
  rw [cell, h]

theorem liveAt_of_cell (h : cell heap p = .live a) : LiveAt heap p a := by
  unfold cell at h
  split at h
  · rename_i c hc
    cases h
    exact hc
  · cases h
  · cases h

theorem LiveAt.lt (h : LiveAt heap p a) : p < heap.length :=
  (List.getElem?_eq_some_iff.mp h).1

/-- A pointer leads to one object. -/
theorem LiveAt.unique (h : LiveAt heap p a) (h' : LiveAt heap p b) : a = b :=
  Option.some.inj (Option.some.inj (h.symm.trans h'))

theorem LiveAt.ne_fresh (h : LiveAt heap p a) : p ≠ fresh heap := Nat.ne_of_lt h.lt

/-! ## Which objects are live after an operation -/

theorem liveAt_alloc_iff :
    LiveAt (alloc heap b) p a ↔ LiveAt heap p a ∨ p = fresh heap ∧ a = b := by
  unfold LiveAt alloc fresh
  rw [List.getElem?_append]
  split
  · rename_i h
    have hne : p ≠ heap.length := Nat.ne_of_lt h
    simp [hne]
  · rename_i h
    have hnone : heap[p]? = none := List.getElem?_eq_none (Nat.le_of_not_lt h)
    rw [hnone, List.getElem?_singleton]
    by_cases hp : p = heap.length
    · simp [hp, eq_comm]
    · have hne : p - heap.length ≠ 0 :=
        Nat.sub_ne_zero_of_lt (Nat.lt_of_le_of_ne (Nat.le_of_not_lt h) (Ne.symm hp))
      simp [hp, hne]

theorem liveAt_alloc_fresh : LiveAt (alloc heap b) (fresh heap) b :=
  liveAt_alloc_iff.mpr (.inr ⟨rfl, rfl⟩)

theorem LiveAt.alloc (h : LiveAt heap p a) : LiveAt (alloc heap b) p a :=
  liveAt_alloc_iff.mpr (.inl h)

theorem liveAt_store_iff (hp : LiveAt heap p a) :
    LiveAt (store heap p b) q c ↔ (q = p ∧ c = b) ∨ (q ≠ p ∧ LiveAt heap q c) := by
  unfold LiveAt store
  by_cases hq : q = p
  · subst hq
    simp [List.getElem?_set_self hp.lt, eq_comm]
  · rw [List.getElem?_set_ne (Ne.symm hq)]
    simp [hq]

theorem liveAt_store_self (hp : LiveAt heap p a) : LiveAt (store heap p b) p b :=
  (liveAt_store_iff hp).mpr (.inl ⟨rfl, rfl⟩)

theorem liveAt_release_iff : LiveAt (release heap p) q b ↔ q ≠ p ∧ LiveAt heap q b := by
  unfold LiveAt release
  by_cases hq : q = p
  · subst hq
    rw [List.getElem?_set]
    simp
  · rw [List.getElem?_set_ne (Ne.symm hq)]
    simp [hq]

theorem releasedAt_release (hp : LiveAt heap p a) : ReleasedAt (release heap p) p := by
  rw [ReleasedAt, release]
  rw [List.getElem?_set_self hp.lt]

/-! ## The cells an operation leaves alone -/

theorem getElem?_alloc_of_lt (h : q < heap.length) : (alloc heap b)[q]? = heap[q]? :=
  List.getElem?_append_left h

theorem getElem?_store_ne (h : q ≠ p) : (store heap p b)[q]? = heap[q]? :=
  List.getElem?_set_ne (Ne.symm h)

theorem getElem?_release_ne (h : q ≠ p) : (release heap p)[q]? = heap[q]? :=
  List.getElem?_set_ne (Ne.symm h)

theorem length_alloc : (alloc heap b).length = heap.length + 1 := by simp [alloc]

theorem length_store : (store heap p b).length = heap.length := List.length_set

theorem length_release : (release heap p).length = heap.length := List.length_set

/-! ## The objects around an object -/

section Around

variable {rest : Heap α}

theorem LiveAt.append (h : LiveAt heap p a) : LiveAt (heap ++ rest) p a := by
  rw [LiveAt, List.getElem?_append_left h.lt]
  exact h

theorem liveAt_append_self : LiveAt (heap ++ some a :: rest) heap.length a := by
  rw [LiveAt, List.getElem?_append_right (Nat.le_refl _), Nat.sub_self]
  rfl

theorem store_append (h : p < heap.length) : store (heap ++ rest) p b = store heap p b ++ rest :=
  List.set_append_left _ _ h

theorem store_append_self :
    store (heap ++ some a :: rest) heap.length b = heap ++ some b :: rest := by
  rw [store, List.set_append_right _ _ (Nat.le_refl _), Nat.sub_self, List.set_cons_zero]

theorem release_append_self :
    release (heap ++ some a :: rest) heap.length = heap ++ none :: rest := by
  rw [release, List.set_append_right _ _ (Nat.le_refl _), Nat.sub_self, List.set_cons_zero]

theorem store_store : store (store heap p a) p b = store heap p b := List.set_set _

theorem release_store : release (store heap p a) p = release heap p := List.set_set _

/-- A live object is stored where it is. -/
theorem store_self (h : LiveAt heap p a) : store heap p a = heap := by
  obtain ⟨hlt, hget⟩ := List.getElem?_eq_some_iff.mp h
  rw [store, ← hget, List.set_getElem_self]

theorem liveAt_split (h : LiveAt heap p a) :
    ∃ pre post, heap = pre ++ some a :: post ∧ pre.length = p := by
  obtain ⟨hlt, hget⟩ := List.getElem?_eq_some_iff.mp h
  refine ⟨heap.take p, heap.drop (p + 1), ?_, List.length_take_of_le (Nat.le_of_lt hlt)⟩
  rw [← hget, List.getElem_cons_drop, List.take_append_drop]

end Around

/-! ## Properties of all live objects -/

section All

/-- Every live object meets `P`. -/
def All (P : α → Prop) (heap : Heap α) : Prop := ∀ p a, LiveAt heap p a → P a

variable {P : α → Prop}

theorem all_empty : All P [] := by
  intro p a h
  exact absurd h.lt (Nat.not_lt_zero p)

theorem all_alloc_iff : All P (alloc heap b) ↔ All P heap ∧ P b := by
  constructor
  · intro h
    exact ⟨fun p a hp => h p a hp.alloc, h _ b liveAt_alloc_fresh⟩
  · rintro ⟨hall, hb⟩ p a hp
    rcases liveAt_alloc_iff.mp hp with hp | ⟨-, rfl⟩
    · exact hall p a hp
    · exact hb

theorem all_store_iff (hall : All P heap) (hp : LiveAt heap p a) :
    All P (store heap p b) ↔ P b := by
  constructor
  · intro h
    exact h p b (liveAt_store_self hp)
  · intro hb q c hq
    rcases (liveAt_store_iff hp).mp hq with ⟨-, rfl⟩ | ⟨-, hq⟩
    · exact hb
    · exact hall q c hq

theorem All.release (hall : All P heap) : All P (release heap p) := by
  intro q c hq
  exact hall q c (liveAt_release_iff.mp hq).2

end All

end Heaps
