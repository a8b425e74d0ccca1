import Mathlib.Data.List.Count
import Mathlib.Data.List.Infix

/-!
# Items read off a text

A reader goes through a text and takes items from it, one behind the other.  A place says
where an item stands; `Laid` says that the places are inside the text, in order and apart, and
that each item comes from the characters at its place.

Items get running numbers that wrap at a limit, and a mark in the text skips a number.
`Numbered` is the number of an item in closed form: the items and the marks in front of it.  Both
are kept when the text goes on, when an item is added at its end and when two texts are joined,
and they determine how the numbers grow as long as the limit is not reached.

## Main definitions

* `Place`, `slice` — the characters from one index to another.
* `Laid`, `Numbered`.
* `Numbered.pairwise_lt`, `Numbered.pairwise_apart` — numbers grow, and skip at a mark.
-/

namespace Places

universe u v

variable {α : Type u} {β : Type v}

/-- An item, the index of its first character and the one behind its last. -/
structure Place (β : Type v) where
  item : β
  start : Nat
  stop : Nat

/-- The same item behind `k` more characters. -/
def Place.shift (k : Nat) (p : Place β) : Place β := ⟨p.item, k + p.start, k + p.stop⟩

@[simp] theorem Place.shift_item (k : Nat) (p : Place β) : (p.shift k).item = p.item := rfl
@[simp] theorem Place.shift_start (k : Nat) (p : Place β) : (p.shift k).start = k + p.start := rfl
@[simp] theorem Place.shift_stop (k : Nat) (p : Place β) : (p.shift k).stop = k + p.stop := rfl

/-- The characters from index `i` to index `j`. -/
def slice (text : List α) (i j : Nat) : List α := (text.take j).drop i

theorem slice_append_left {text : List α} (more : List α) (i : Nat) {j : Nat}
    (h : j ≤ text.length) : slice (text ++ more) i j = slice text i j := by
  rw [slice, List.take_append_of_le_length h, slice]

theorem slice_append_right (text more : List α) (i j : Nat) :
    slice (text ++ more) (text.length + i) (text.length + j) = slice more i j := by
  rw [slice, List.take_length_add_append, List.drop_length_add_append, slice]

theorem slice_end (pre word : List α) :
    slice (pre ++ word) pre.length (pre ++ word).length = word := by
  rw [slice, List.take_length, List.drop_left]

/-- What stands in front of index `j` is what stands in front of index `i` and what stands
between them. -/
theorem take_eq_append_slice (text : List α) {i j : Nat} (h : i ≤ j) :
    text.take j = text.take i ++ slice text i j := by
  have htake : text.take i = (text.take j).take i := by
    rw [List.take_take, Nat.min_eq_left h]
  rw [htake, slice, List.take_append_drop]

section Laid

variable {spells : List α → β → Prop} {text more : List α} {places : List (Place β)}

/-- The places are inside the text, in order and apart, and hold their items. -/
structure Laid (spells : List α → β → Prop) (text : List α) (places : List (Place β)) :
    Prop where
  within : ∀ p ∈ places, p.start < p.stop ∧ p.stop ≤ text.length
  spelled : ∀ p ∈ places, spells (slice text p.start p.stop) p.item
  ordered : places.Pairwise fun p q => p.stop ≤ q.start

theorem Laid.nil (text : List α) : Laid spells text [] :=
  ⟨by simp, by simp, List.Pairwise.nil⟩

/-- The text goes on. -/
theorem Laid.longer (h : Laid spells text places) (more : List α) :
    Laid spells (text ++ more) places where
  within p hp := by
    have := h.within p hp
    rw [List.length_append]
    omega
  spelled p hp := by
    rw [slice_append_left more p.start (h.within p hp).2]
    exact h.spelled p hp
  ordered := h.ordered

/-- An item is taken from the end of the text. -/
theorem Laid.push {pre word : List α} {b : β} (h : Laid spells (pre ++ word) places)
    (hstop : ∀ p ∈ places, p.stop ≤ pre.length) (hne : word ≠ []) (hb : spells word b) :
    Laid spells (pre ++ word) (places ++ [⟨b, pre.length, (pre ++ word).length⟩]) where
  within p hp := by
    rcases List.mem_append.mp hp with hp | hp
    · exact h.within p hp
    · rw [List.mem_singleton] at hp
      subst hp
      have hpos : 0 < word.length := List.length_pos_iff.mpr hne
      simp only [List.length_append]
      omega
  spelled p hp := by
    rcases List.mem_append.mp hp with hp | hp
    · exact h.spelled p hp
    · rw [List.mem_singleton] at hp
      subst hp
      simpa only [slice_end] using hb
  ordered := by
    refine List.pairwise_append.mpr ⟨h.ordered, List.pairwise_singleton _ _, ?_⟩
    intro p hp q hq
    rw [List.mem_singleton] at hq
    subst hq
    exact hstop p hp

/-- A second text is read behind the first one. -/
theorem Laid.append {places' : List (Place β)} (h : Laid spells text places)
    (h' : Laid spells more places') :
    Laid spells (text ++ more) (places ++ places'.map (Place.shift text.length)) where
  within p hp := by
    rcases List.mem_append.mp hp with hp | hp
    · exact (h.longer more).within p hp
    · obtain ⟨q, hq, rfl⟩ := List.mem_map.mp hp
      have := h'.within q hq
      simp only [Place.shift_start, Place.shift_stop, List.length_append]
      omega
  spelled p hp := by
    rcases List.mem_append.mp hp with hp | hp
    · exact (h.longer more).spelled p hp
    · obtain ⟨q, hq, rfl⟩ := List.mem_map.mp hp
      simpa only [Place.shift_start, Place.shift_stop, Place.shift_item, slice_append_right]
        using h'.spelled q hq
  ordered := by
    refine List.pairwise_append.mpr ⟨h.ordered, ?_, ?_⟩
    · rw [List.pairwise_map]
      refine h'.ordered.imp ?_
      intro p q hpq
      simpa using hpq
    · intro p hp q hq
      obtain ⟨q', -, rfl⟩ := List.mem_map.mp hq
      have := h.within p hp
      simp only [Place.shift_start]
      omega

end Laid

section Numbered

variable [DecidableEq α] {mark : α} {number : β → Nat} {limit base : Nat} {text more : List α}
  {places : List (Place β)}

/-- An item's number counts the items and the marks in front of it, from `base` on. -/
def Numbered (mark : α) (number : β → Nat) (limit base : Nat) (text : List α)
    (places : List (Place β)) : Prop :=
  ∀ k p, places[k]? = some p →
    number p.item = (base + k + (text.take p.start).count mark + 1) % limit

theorem Numbered.nil (mark : α) (number : β → Nat) (limit base : Nat) (text : List α) :
    Numbered mark number limit base text [] := by
  intro k p hp
  simp at hp

theorem Numbered.longer (h : Numbered mark number limit base text places)
    (hwithin : ∀ p ∈ places, p.start ≤ text.length) (more : List α) :
    Numbered mark number limit base (text ++ more) places := by
  intro k p hp
  rw [List.take_append_of_le_length (hwithin p (List.mem_of_getElem? hp))]
  exact h k p hp

/-- The next item gets the next number, when no mark stands in it. -/
theorem Numbered.push {pre word : List α} {b : β}
    (h : Numbered mark number limit base (pre ++ word) places) (hmark : mark ∉ word)
    (hb : number b = (base + places.length + (pre ++ word).count mark + 1) % limit)
    (stop : Nat) :
    Numbered mark number limit base (pre ++ word) (places ++ [⟨b, pre.length, stop⟩]) := by
  intro k p hp
  rcases Nat.lt_trichotomy k places.length with hk | rfl | hk
  · rw [List.getElem?_append_left hk] at hp
    exact h k p hp
  · simp only [List.getElem?_concat_length, Option.some.injEq] at hp
    subst hp
    rw [List.count_append, List.count_eq_zero.mpr hmark] at hb
    rw [List.take_left]
    exact hb
  · have hnone : (places ++ [(⟨b, pre.length, stop⟩ : Place β)])[k]? = none := by
      simp only [List.getElem?_eq_none_iff, List.length_append, List.length_singleton]
      omega
    rw [hnone] at hp
    cases hp

/-- The numbers of a second text go on where those of the first one end. -/
theorem Numbered.append {places' : List (Place β)} {next : Nat}
    (h : Numbered mark number limit base text places)
    (hwithin : ∀ p ∈ places, p.start ≤ text.length)
    (hnext : next % limit = (base + places.length + text.count mark) % limit)
    (h' : Numbered mark number limit next more places') :
    Numbered mark number limit base (text ++ more)
      (places ++ places'.map (Place.shift text.length)) := by
  intro k p hp
  by_cases hk : k < places.length
  · rw [List.getElem?_append_left hk] at hp
    exact h.longer hwithin more k p hp
  · rw [List.getElem?_append_right (Nat.le_of_not_lt hk), List.getElem?_map,
      Option.map_eq_some_iff] at hp
    obtain ⟨q, hq, rfl⟩ := hp
    rw [Place.shift_item, Place.shift_start, List.take_length_add_append, List.count_append,
      h' _ q hq]
    calc (next + (k - places.length) + (more.take q.start).count mark + 1) % limit
        = (next + (k - places.length + (more.take q.start).count mark + 1)) % limit := by
          simp only [Nat.add_assoc]
      _ = (base + places.length + text.count mark +
            (k - places.length + (more.take q.start).count mark + 1)) % limit := by
          rw [Nat.add_mod, hnext, ← Nat.add_mod]
      _ = (base + k + (text.count mark + (more.take q.start).count mark) + 1) % limit := by
          congr 1
          omega

variable {spells : List α → β → Prop}

/-- Below the limit a number is what it counts. -/
theorem Numbered.eq_of_lt (h : Numbered mark number limit base text places)
    (hlimit : base + places.length + text.count mark < limit) {k : Nat} {p : Place β}
    (hp : places[k]? = some p) :
    number p.item = base + k + (text.take p.start).count mark + 1 := by
  have hk : k < places.length := (List.getElem?_eq_some_iff.mp hp).1
  have hcount := (List.take_sublist p.start text).count_le mark
  rw [h k p hp]
  exact Nat.mod_eq_of_lt (by omega)

/-- Two items differ in their numbers by the items and the marks between them. -/
theorem Numbered.add_count (h : Numbered mark number limit base text places)
    (hlimit : base + places.length + text.count mark < limit) (hl : Laid spells text places)
    {i j : Nat} {p q : Place β} (hij : i < j) (hp : places[i]? = some p)
    (hq : places[j]? = some q) :
    number p.item + (j - i) + (slice text p.stop q.start).count mark ≤ number q.item := by
  have hle : p.stop ≤ q.start := by
    obtain ⟨hi, rfl⟩ := List.getElem?_eq_some_iff.mp hp
    obtain ⟨hj, rfl⟩ := List.getElem?_eq_some_iff.mp hq
    exact List.pairwise_iff_getElem.mp hl.ordered i j hi hj hij
  have hstart : p.start ≤ p.stop := (hl.within p (List.mem_of_getElem? hp)).1.le
  have hcount : (text.take q.start).count mark =
      (text.take p.start).count mark + (slice text p.start p.stop).count mark +
        (slice text p.stop q.start).count mark := by
    rw [take_eq_append_slice text hle, take_eq_append_slice text hstart, List.count_append,
      List.count_append]
  rw [h.eq_of_lt hlimit hp, h.eq_of_lt hlimit hq]
  omega

theorem Numbered.pairwise_lt (h : Numbered mark number limit base text places)
    (hlimit : base + places.length + text.count mark < limit) (hl : Laid spells text places) :
    places.Pairwise fun p q => number p.item < number q.item := by
  refine List.pairwise_iff_getElem.mpr fun i j hi hj hij => ?_
  have := h.add_count hlimit hl hij (List.getElem?_eq_getElem hi) (List.getElem?_eq_getElem hj)
  omega

/-- With a mark between them two items do not have adjacent numbers. -/
theorem Numbered.pairwise_apart (h : Numbered mark number limit base text places)
    (hlimit : base + places.length + text.count mark < limit) (hl : Laid spells text places) :
    places.Pairwise fun p q =>
      mark ∈ slice text p.stop q.start → number p.item + 1 < number q.item := by
  refine List.pairwise_iff_getElem.mpr fun i j hi hj hij hmark => ?_
  have hpos := List.count_pos_iff.mpr hmark
  have := h.add_count hlimit hl hij (List.getElem?_eq_getElem hi) (List.getElem?_eq_getElem hj)
  omega

end Numbered

end Places
