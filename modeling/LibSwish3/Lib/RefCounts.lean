import Mathlib.Algebra.Order.Group.Multiset
import Mathlib.Data.Multiset.Count
import LibSwish3.Lib.Heaps

/-!
# Reference counts

Objects that are shared carry the number of references to them, and the last reference that is
dropped releases the object.  The references are a multiset of pointers: `Counted` says that
every count is right and that an object is live exactly when something refers to it.  There is
one lemma for each way a reference comes or goes.

The references that the live objects of a second heap hold are its `contents`.

## Main definitions

* `RefCounts.Counted` — the counts of a heap are right.
* `RefCounts.contents` — what the live objects of a heap refer to.
-/

namespace RefCounts

open Heaps

universe u v

variable {α : Type u} {β : Type v}

/-- Every live object counts its references, and an object lives as long as it has one. -/
structure Counted (count : α → Int) (heap : Heap α) (refs : Multiset Ptr) : Prop where
  count_eq : ∀ p a, LiveAt heap p a → count a = refs.count p
  live_iff : ∀ p, (∃ a, LiveAt heap p a) ↔ p ∈ refs

section Counted

variable {count : α → Int} {heap : Heap α} {refs : Multiset Ptr} {p : Ptr} {a b : α}

theorem counted_empty : Counted count [] 0 := by
  refine ⟨fun p a h => absurd h.lt (Nat.not_lt_zero p), fun p => ⟨?_, ?_⟩⟩
  · rintro ⟨a, h⟩
    exact absurd h.lt (Nat.not_lt_zero p)
  · intro h
    exact absurd h (Multiset.notMem_zero p)

theorem Counted.mem (h : Counted count heap refs) (hp : LiveAt heap p a) : p ∈ refs :=
  (h.live_iff p).mp ⟨a, hp⟩

theorem Counted.live (h : Counted count heap refs) (hp : p ∈ refs) : ∃ a, LiveAt heap p a :=
  (h.live_iff p).mpr hp

theorem Counted.lt (h : Counted count heap refs) (hp : p ∈ refs) : p < heap.length := by
  obtain ⟨a, ha⟩ := h.live hp
  exact ha.lt

theorem Counted.fresh_notMem (h : Counted count heap refs) : fresh heap ∉ refs :=
  fun hmem => Nat.lt_irrefl _ (h.lt hmem)

/-- A new object with one reference. -/
theorem Counted.alloc (h : Counted count heap refs) (hb : count b = 1) :
    Counted count (alloc heap b) (fresh heap ::ₘ refs) where
  count_eq q c hq := by
    rcases liveAt_alloc_iff.mp hq with hq | ⟨rfl, rfl⟩
    · rw [Multiset.count_cons_of_ne hq.ne_fresh]
      exact h.count_eq q c hq
    · rw [Multiset.count_cons_self, Multiset.count_eq_zero_of_notMem h.fresh_notMem, hb]
      rfl
  live_iff q := by
    rw [Multiset.mem_cons, ← h.live_iff q]
    constructor
    · rintro ⟨c, hq⟩
      rcases liveAt_alloc_iff.mp hq with hq | ⟨rfl, -⟩
      · exact .inr ⟨c, hq⟩
      · exact .inl rfl
    · rintro (rfl | ⟨c, hq⟩)
      · exact ⟨b, liveAt_alloc_fresh⟩
      · exact ⟨c, hq.alloc⟩

/-- One more reference. -/
theorem Counted.acquire (h : Counted count heap refs) (hp : LiveAt heap p a)
    (hb : count b = count a + 1) : Counted count (store heap p b) (p ::ₘ refs) where
  count_eq q c hq := by
    rcases (liveAt_store_iff hp).mp hq with ⟨rfl, rfl⟩ | ⟨hne, hq⟩
    · rw [Multiset.count_cons_self, hb, h.count_eq q a hp]
      rfl
    · rw [Multiset.count_cons_of_ne hne]
      exact h.count_eq q c hq
  live_iff q := by
    rw [Multiset.mem_cons, ← h.live_iff q]
    constructor
    · rintro ⟨c, hq⟩
      rcases (liveAt_store_iff hp).mp hq with ⟨rfl, -⟩ | ⟨-, hq⟩
      · exact .inl rfl
      · exact .inr ⟨c, hq⟩
    · rintro (rfl | ⟨c, hq⟩)
      · exact ⟨b, liveAt_store_self hp⟩
      · by_cases hqp : q = p
        · subst hqp
          exact ⟨b, liveAt_store_self hp⟩
        · exact ⟨c, (liveAt_store_iff hp).mpr (.inr ⟨hqp, hq⟩)⟩

/-- One reference less, and not the last. -/
theorem Counted.drop (h : Counted count heap (p ::ₘ refs)) (hp : LiveAt heap p a)
    (hb : count b = count a - 1) (hmem : p ∈ refs) :
    0 < count b ∧ Counted count (store heap p b) refs := by
  have hcount : count b = refs.count p := by
    rw [hb, h.count_eq p a hp, Multiset.count_cons_self]
    omega
  refine ⟨?_, ⟨?_, ?_⟩⟩
  · rw [hcount]
    exact Int.natCast_pos.mpr (Multiset.count_pos.mpr hmem)
  · intro q c hq
    rcases (liveAt_store_iff hp).mp hq with ⟨rfl, rfl⟩ | ⟨hne, hq⟩
    · exact hcount
    · rw [h.count_eq q c hq, Multiset.count_cons_of_ne hne]
  · intro q
    constructor
    · rintro ⟨c, hq⟩
      rcases (liveAt_store_iff hp).mp hq with ⟨rfl, -⟩ | ⟨hne, hq⟩
      · exact hmem
      · exact (Multiset.mem_cons.mp (h.mem hq)).resolve_left hne
    · intro hq
      by_cases hqp : q = p
      · subst hqp
        exact ⟨b, liveAt_store_self hp⟩
      · obtain ⟨c, hc⟩ := h.live (Multiset.mem_cons_of_mem hq)
        exact ⟨c, (liveAt_store_iff hp).mpr (.inr ⟨hqp, hc⟩)⟩

/-- The last reference is dropped, and the object is released. -/
theorem Counted.drop_last (h : Counted count heap (p ::ₘ refs)) (hp : LiveAt heap p a)
    (hb : count b = count a - 1) (hmem : p ∉ refs) :
    count b = 0 ∧ Counted count (release heap p) refs := by
  refine ⟨?_, ⟨?_, ?_⟩⟩
  · rw [hb, h.count_eq p a hp, Multiset.count_cons_self, Multiset.count_eq_zero_of_notMem hmem]
    rfl
  · intro q c hq
    obtain ⟨hne, hq⟩ := liveAt_release_iff.mp hq
    rw [h.count_eq q c hq, Multiset.count_cons_of_ne hne]
  · intro q
    constructor
    · rintro ⟨c, hq⟩
      obtain ⟨hne, hq⟩ := liveAt_release_iff.mp hq
      exact (Multiset.mem_cons.mp (h.mem hq)).resolve_left hne
    · intro hq
      obtain ⟨c, hc⟩ := h.live (Multiset.mem_cons_of_mem hq)
      refine ⟨c, liveAt_release_iff.mpr ⟨?_, hc⟩⟩
      rintro rfl
      exact hmem hq

end Counted

/-! ## The references that objects hold -/

/-- What the live objects of a heap refer to, where `f` says what one of them refers to. -/
def contents (f : β → Multiset Ptr) : Heap β → Multiset Ptr
  | [] => 0
  | none :: heap => contents f heap
  | some b :: heap => f b + contents f heap

section Contents

variable {f : β → Multiset Ptr} {heap : Heap β} {p q : Ptr} {a b : β}

theorem contents_append (heap heap' : Heap β) :
    contents f (heap ++ heap') = contents f heap + contents f heap' := by
  induction heap with
  | nil => rw [List.nil_append, contents, zero_add]
  | cons o heap ih =>
      cases o with
      | none => exact ih
      | some b => rw [List.cons_append, contents, contents, ih, add_assoc]

theorem contents_alloc : contents f (alloc heap b) = contents f heap + f b := by
  rw [alloc, contents_append, contents, contents, add_zero]

/-- Cells that were released refer to nothing. -/
theorem contents_append_released (heap : Heap β) (k : Nat) :
    contents f (heap ++ List.replicate k none) = contents f heap := by
  induction k with
  | zero => rw [List.replicate_zero, List.append_nil]
  | succ k ih =>
      rw [List.replicate_succ', ← List.append_assoc, contents_append, ih, contents, contents,
        add_zero]

theorem contents_store (hp : LiveAt heap p a) :
    contents f (store heap p b) + f a = contents f heap + f b := by
  obtain ⟨pre, post, rfl, rfl⟩ := liveAt_split hp
  rw [store_append_self, contents_append, contents_append, contents, contents]
  ac_rfl

theorem contents_release (hp : LiveAt heap p a) :
    contents f (release heap p) + f a = contents f heap := by
  obtain ⟨pre, post, rfl, rfl⟩ := liveAt_split hp
  rw [release_append_self, contents_append, contents_append, contents, contents]
  ac_rfl

/-- What a live object refers to is among the contents. -/
theorem mem_contents (hp : LiveAt heap p a) (hq : q ∈ f a) : q ∈ contents f heap := by
  rw [← contents_release hp]
  exact Multiset.mem_add.mpr (.inr hq)

end Contents

end RefCounts
