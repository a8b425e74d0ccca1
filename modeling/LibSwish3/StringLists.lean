import LibSwish3.StringList
import LibSwish3.Lib.Heaps
import LibSwish3.Lib.Runs

/-!
# String lists in memory

A `swish_StringList` counts its words in `n` and has two notions of room: `max`, which
decides when the array grows, and the slots the array really has.  The operations of
`string.c` run here over a heap of such lists.

`swish_stringlist_copy` and `swish_stringlist_merge` reallocate the array and leave `max`
alone.  `stringLists_fit_iff` says which sequences of operations are safe in spite of that.

## Main definitions

* `StringList` — the words, `max` and the slots.
* `stringListStep` — one operation on a heap of lists.
* `StringList.Fits` — `n` is at most `max`, and `max` at most the number of slots.
* `KeepsRoom` — when an operation keeps every list so.
-/

namespace LibSwish3

open Runs Heaps

/-! ## One list -/

/-- `swish_StringList`; `n` is the length of `word`. -/
structure StringList where
  word : List XmlStr
  max : Nat
  slots : Nat
  deriving DecidableEq, Repr

namespace StringList

/-- `INT_MAX`. -/
def intMax : Nat := 2 ^ 31 - 1

/-- `swish_stringlist_init` -/
def init : StringList where
  word := []
  max := 2
  slots := 2

/-- `sl->word[sl->n++] = str` -/
def put (sl : StringList) (str : XmlStr) : Swish StringList :=
  if sl.word.length < sl.slots then .ok { sl with word := sl.word ++ [str] }
  else .error (.fault .outOfBounds)

/-- `swish_xrealloc` to `max` slots.  `realloc` frees a block that is to have no bytes and
returns NULL. -/
def grow (sl : StringList) (max : Nat) : Swish StringList :=
  if max = 0 then croak [lit "Out of memory (could not reallocate 0 more bytes)!"]
  else .ok { sl with max, slots := max }

/-- `swish_stringlist_add_string`.  `max` is an `unsigned int`. -/
def addString (sl : StringList) (str : XmlStr) : Swish StringList := do
  let sl ← if sl.word.length = sl.max then sl.grow (sl.max * 2 % 2 ^ 32) else pure sl
  sl.put str

/-- The extra NULL at the end of the array. -/
def terminate (sl : StringList) : Swish StringList := do
  let sl ← if sl.word.length = sl.max then sl.grow ((sl.max + 1) % 2 ^ 32) else pure sl
  if sl.word.length < sl.slots then .ok sl else .error (.fault .outOfBounds)

/-- `swish_stringlist_build` for a line that is not NULL and whose words `getword` has room for. -/
def build (line : XmlStr) : Swish StringList := do
  let sl ← run addString init (lineWords line)
  sl.terminate

/-- `swish_stringlist_copy`.  The loop counts in an `int`. -/
def copy (sl : StringList) : Swish StringList :=
  let s2 := { init with slots := sl.word.length }
  if intMax < sl.word.length then .error (.fault .outOfBounds)
  else .ok { s2 with word := sl.word }

/-- The reallocation and the loop of `swish_stringlist_merge`, for two lists. -/
def append (sl2 sl1 : StringList) : Swish StringList :=
  let slots := (sl1.word.length + sl2.word.length) % 2 ^ 32
  if intMax < sl1.word.length then .error (.fault .outOfBounds)
  else run put { sl2 with slots } sl1.word

end StringList

/-! ## Lists on the heap -/

abbrev StringListHeap := Heap StringList

section Operations

variable (heap : StringListHeap)

def stringlistAt (sl : Ptr) : Swish StringList :=
  match cell heap sl with
  | .live sl => .ok sl
  | .released => .error (.fault .useAfterFree)
  | .unknown => .error (.fault .strayPointer)

/-- `swish_stringlist_free` reads `n` and `word` before it releases the list. -/
def stringlistFree (sl : Ptr) : Swish StringListHeap := do
  let _ ← stringlistAt heap sl
  pure (release heap sl)

/-- `swish_stringlist_merge` adds the words of `sl1` to `sl2` and releases `sl1`. -/
def stringlistMerge (sl1 sl2 : Ptr) : Swish StringListHeap := do
  let list1 ← stringlistAt heap sl1
  let list2 ← stringlistAt heap sl2
  if sl1 = sl2 then
    -- the bound of the loop is the `n` that the loop increments
    if list1.word = [] then pure (release heap sl1) else .error (.fault .outOfBounds)
  else
    let list2 ← list2.append list1
    pure (release (store heap sl2 list2) sl1)

/-- `swish_stringlist_copy`; the copy is at `fresh heap`. -/
def stringlistCopy (sl : Ptr) : Swish StringListHeap := do
  let list ← stringlistAt heap sl
  let s2 ← list.copy
  pure (alloc heap s2)

def stringlistAddString (sl : Ptr) (str : XmlStr) : Swish StringListHeap := do
  let list ← stringlistAt heap sl
  let list ← list.addString str
  pure (store heap sl list)

end Operations

/-- A call of one of the functions that make and change string lists. -/
inductive StringListOp
  | init
  /-- The line is NULL for `none`. -/
  | build (line : Option XmlStr)
  | addString (sl : Ptr) (str : XmlStr)
  | copy (sl : Ptr)
  | merge (sl1 sl2 : Ptr)
  deriving Repr

def stringListStep (heap : StringListHeap) : StringListOp → Swish StringListHeap
  | .init => .ok (alloc heap .init)
  | .build none => .ok heap
  | .build (some line) => do
    let sl ← StringList.build line
    pure (alloc heap sl)
  | .addString sl str => stringlistAddString heap sl str
  | .copy sl => stringlistCopy heap sl
  | .merge sl1 sl2 => stringlistMerge heap sl1 sl2

/-! ## The words of a list -/

namespace StringList

variable {sl sl1 sl2 : StringList} {words : List XmlStr} {str : XmlStr}

/-- The process stops, but not because an array was accessed outside its slots. -/
def InBounds (why : Halt) : Prop := why ≠ .fault .outOfBounds

theorem run_put (h : words = [] ∨ sl.word.length + words.length ≤ sl.slots) :
    run put sl words = .ok { sl with word := sl.word ++ words } := by
  induction words generalizing sl with
  | nil => simp
  | cons str words ih =>
      have hroom : sl.word.length + (words.length + 1) ≤ sl.slots := by
        simpa using h
      have hput : sl.put str = .ok { sl with word := sl.word ++ [str] } :=
        if_pos (by omega)
      rw [run_cons_of_ok hput, ih (.inr ?_)]
      · simp
      · simp only [List.length_append, List.length_singleton]
        omega

theorem run_put_outside (h₁ : words ≠ []) (h : sl.slots < sl.word.length + words.length) :
    run put sl words = .error (.fault .outOfBounds) := by
  induction words generalizing sl with
  | nil => exact absurd rfl h₁
  | cons str words ih =>
      by_cases hroom : sl.word.length < sl.slots
      · have hput : sl.put str = .ok { sl with word := sl.word ++ [str] } := if_pos hroom
        rw [run_cons_of_ok hput]
        refine ih ?_ ?_
        · rintro rfl
          simp only [List.length_singleton] at h
          omega
        · simp only [List.length_append, List.length_singleton]
          rw [List.length_cons] at h
          omega
      · exact run_cons_of_error (if_neg hroom)

/-- The words of `sl1` can be added to a list with the words `old`: the loop can count them,
and the new number of slots does not wrap. -/
def Appends (old words : List XmlStr) : Prop :=
  words.length ≤ intMax ∧ (words ≠ [] → words.length + old.length < 2 ^ 32)

theorem append_of_appends (h : Appends sl2.word sl1.word) :
    sl2.append sl1 = .ok { sl2 with
      word := sl2.word ++ sl1.word
      slots := (sl1.word.length + sl2.word.length) % 2 ^ 32 } := by
  obtain ⟨hcount, hsum⟩ := h
  rw [append, if_neg (Nat.not_lt.mpr hcount), run_put ?_]
  by_cases hne : sl1.word = []
  · exact .inl hne
  · have hlt := hsum hne
    refine .inr ?_
    rw [Nat.mod_eq_of_lt hlt, Nat.add_comm]

theorem append_of_not_appends (h : ¬ Appends sl2.word sl1.word) :
    sl2.append sl1 = .error (.fault .outOfBounds) := by
  rw [append]
  by_cases hcount : intMax < sl1.word.length
  · exact if_pos hcount
  · have hrest : sl1.word ≠ [] ∧ 2 ^ 32 ≤ sl1.word.length + sl2.word.length := by
      by_contra hcon
      refine h ⟨Nat.le_of_not_lt hcount, ?_⟩
      intro hne
      by_contra hlt
      exact hcon ⟨hne, Nat.le_of_not_lt hlt⟩
    have hmod := Nat.mod_lt (sl1.word.length + sl2.word.length) (Nat.two_pow_pos 32)
    rw [if_neg hcount, run_put_outside hrest.1]
    simp only
    omega

/-! ## Room -/

/-- No add that follows the test `n == max` leaves the array. -/
structure Fits (sl : StringList) : Prop where
  length_le : sl.word.length ≤ sl.max
  max_le : sl.max ≤ sl.slots

/-- What holds beside that of every list whose room was kept so far. -/
structure Sound (sl : StringList) : Prop extends Fits sl where
  two_le : 2 ≤ sl.max
  max_lt : sl.max < 2 ^ 32

theorem sound_init : Sound init := ⟨⟨by decide, by decide⟩, by decide, by decide⟩

/-- The array can be doubled, or else the doubled size is 0 and the call stops. -/
def Growable (sl : StringList) : Prop := sl.word.length = sl.max → sl.max ≤ 2 ^ 31

theorem put_of_lt (h : sl.word.length < sl.slots) :
    sl.put str = .ok { sl with word := sl.word ++ [str] } := if_pos h

/-- A list that is not full takes one more word. -/
theorem addString_of_lt (h : Fits sl) (hlt : sl.word.length < sl.max) :
    sl.addString str = .ok { sl with word := sl.word ++ [str] } := by
  have hmax := h.max_le
  rw [addString, if_neg (Nat.ne_of_lt hlt)]
  exact put_of_lt (by omega)

/-- A full list doubles first. -/
theorem addString_of_full (h : Sound sl) (hfull : sl.word.length = sl.max)
    (hsmall : sl.max < 2 ^ 31) :
    sl.addString str = .ok ⟨sl.word ++ [str], sl.max * 2, sl.max * 2⟩ := by
  have htwo := h.two_le
  have hmod : sl.max * 2 % 2 ^ 32 = sl.max * 2 := Nat.mod_eq_of_lt (by omega)
  have hne : ¬ sl.max * 2 = 0 := by omega
  rw [addString, if_pos hfull, hmod, grow, if_neg hne, ok_bind]
  exact put_of_lt (by simp only; omega)

theorem addString_of_wrapped (hfull : sl.word.length = sl.max) (hmax : sl.max = 2 ^ 31) :
    sl.addString str = croak [lit "Out of memory (could not reallocate 0 more bytes)!"] := by
  have hmod : sl.max * 2 % 2 ^ 32 = 0 := by rw [hmax]; rfl
  rw [addString, if_pos hfull, grow, if_pos hmod]
  rfl

/-- Behind the middle of its range the doubled size is smaller than the list. -/
theorem addString_outside (hfull : sl.word.length = sl.max) (hlt : 2 ^ 31 < sl.max)
    (hmax : sl.max < 2 ^ 32) : sl.addString str = .error (.fault .outOfBounds) := by
  have hmod : sl.max * 2 % 2 ^ 32 = sl.max * 2 - 2 ^ 32 := by omega
  have hne : ¬ sl.max * 2 - 2 ^ 32 = 0 := by omega
  rw [addString, if_pos hfull, hmod, grow, if_neg hne, ok_bind]
  exact if_neg (by simp only; omega)

theorem Sound.put (h : Sound sl) (hlt : sl.word.length < sl.max) :
    Sound { sl with word := sl.word ++ [str] } := by
  refine ⟨⟨?_, h.max_le⟩, h.two_le, h.max_lt⟩
  simp only [List.length_append, List.length_singleton]
  omega

theorem Sound.double (h : Sound sl) (hfull : sl.word.length = sl.max) (hsmall : sl.max < 2 ^ 31) :
    Sound ⟨sl.word ++ [str], sl.max * 2, sl.max * 2⟩ := by
  have htwo := h.two_le
  refine ⟨⟨?_, Nat.le_refl _⟩, ?_, ?_⟩
  · simp only [List.length_append, List.length_singleton]
    omega
  · simp only
    omega
  · simp only
    omega

theorem inBounds_croak (pieces : List XmlStr) : InBounds (.croak pieces.flatten) := by
  intro h
  cases h

/-- One more word is put inside the array exactly when the array can be doubled for it. -/
theorem addString_endsWell (str : XmlStr) (h : Sound sl) (hg : Growable sl) :
    EndsWell Sound InBounds (sl.addString str) := by
  have hle := h.length_le
  by_cases hlt : sl.word.length < sl.max
  · rw [addString_of_lt h.toFits hlt]
    exact endsWell_ok (h.put hlt)
  · have hfull : sl.word.length = sl.max := by omega
    have hmax := hg hfull
    by_cases hsmall : sl.max < 2 ^ 31
    · rw [addString_of_full h hfull hsmall]
      exact endsWell_ok (h.double hfull hsmall)
    · rw [addString_of_wrapped hfull (by omega)]
      exact ⟨fun _ h => (by cases h), failsAs_error (inBounds_croak _)⟩

theorem growable_of_addString (str : XmlStr) (h : Sound sl)
    (hf : FailsAs InBounds (sl.addString str)) :
    Growable sl := by
  intro hfull
  by_contra hlt
  exact hf _ (addString_outside hfull (by omega) h.max_lt) rfl

/-! ### Building a list -/

/-- A list that only ever doubled. -/
structure Doubled (sl : StringList) : Prop extends Sound sl where
  pow_two : ∃ k, k ≤ 31 ∧ sl.max = 2 ^ k

theorem Doubled.growable (h : Doubled sl) : Growable sl := by
  obtain ⟨k, hk, hmax⟩ := h.pow_two
  intro _
  rw [hmax]
  exact Nat.pow_le_pow_right (by decide) hk

theorem addString_doubled (h : Doubled sl) : EndsWell Doubled InBounds (sl.addString str) := by
  obtain ⟨k, hk, hpow⟩ := h.pow_two
  have hsound := addString_endsWell str h.toSound h.growable
  refine ⟨?_, hsound.fails⟩
  intro sl' hsl'
  refine ⟨hsound.returns sl' hsl', ?_⟩
  have hle := h.length_le
  by_cases hlt : sl.word.length < sl.max
  · rw [addString_of_lt h.toFits hlt] at hsl'
    cases hsl'
    exact ⟨k, hk, hpow⟩
  · have hfull : sl.word.length = sl.max := by omega
    by_cases hsmall : sl.max < 2 ^ 31
    · rw [addString_of_full h.toSound hfull hsmall] at hsl'
      cases hsl'
      refine ⟨k + 1, ?_, by rw [hpow, Nat.pow_succ]⟩
      rw [hpow] at hsmall
      exact (Nat.pow_lt_pow_iff_right (by decide)).mp hsmall
    · have hmax : sl.max = 2 ^ 31 := by
        have := h.growable hfull
        omega
      rw [addString_of_wrapped hfull hmax] at hsl'
      cases hsl'

theorem doubled_init : Doubled init := ⟨sound_init, 1, by decide, rfl⟩

theorem terminate_of_lt (h : Fits sl) (hlt : sl.word.length < sl.max) :
    sl.terminate = .ok sl := by
  have hmax := h.max_le
  rw [terminate, if_neg (Nat.ne_of_lt hlt)]
  exact if_pos (by omega)

theorem terminate_of_full (hfull : sl.word.length = sl.max) (hsmall : sl.max + 1 < 2 ^ 32) :
    sl.terminate = .ok ⟨sl.word, sl.max + 1, sl.max + 1⟩ := by
  rw [terminate, if_pos hfull, Nat.mod_eq_of_lt hsmall, grow, if_neg (Nat.succ_ne_zero _),
    ok_bind]
  exact if_pos (by simp only; omega)

/-- A list is built inside its array, whatever the line. -/
theorem build_endsWell (line : XmlStr) : EndsWell Sound InBounds (build line) := by
  have hrun : EndsWell Doubled InBounds (run addString init (lineWords line)) :=
    endsWell_run (C := fun _ _ => True) (fun _ _ h _ => addString_doubled h) doubled_init
      (fun _ _ _ _ _ _ => trivial)
  refine hrun.bind ?_
  intro sl _ h
  have hle := h.length_le
  by_cases hfull : sl.word.length = sl.max
  · have hsmall : sl.max ≤ 2 ^ 31 := h.growable hfull
    have htwo := h.two_le
    rw [terminate_of_full hfull (by omega)]
    refine endsWell_ok ⟨⟨?_, Nat.le_refl _⟩, ?_, ?_⟩ <;> simp only <;> omega
  · rw [terminate_of_lt h.toFits (by omega)]
    exact endsWell_ok h.toSound

/-! ### Copying and merging -/

theorem copy_of_le (h : sl.word.length ≤ intMax) :
    sl.copy = .ok ⟨sl.word, 2, sl.word.length⟩ :=
  if_neg (Nat.not_lt.mpr h)

theorem copy_of_lt (h : intMax < sl.word.length) : sl.copy = .error (.fault .outOfBounds) :=
  if_pos h

/-- `max` is 2 in a copy, and there is one slot for each word. -/
theorem copy_endsWell (h : sl.word.length = 2) : EndsWell Sound InBounds sl.copy := by
  rw [copy_of_le (by rw [h]; decide)]
  refine endsWell_ok ⟨⟨?_, ?_⟩, ?_, ?_⟩ <;> simp only [h] <;> omega

theorem length_of_copy (hcopy : EndsWell Fits InBounds sl.copy) : sl.word.length = 2 := by
  by_cases hle : sl.word.length ≤ intMax
  · have hfits := hcopy.returns _ (copy_of_le hle)
    exact Nat.le_antisymm hfits.length_le hfits.max_le
  · exact absurd rfl (hcopy.fails _ (copy_of_lt (Nat.lt_of_not_le hle)))

/-- The words of both lists fill the array of `sl2` exactly. -/
def Refills (sl1 sl2 : StringList) : Prop :=
  sl1.word.length ≤ intMax ∧ sl1.word.length + sl2.word.length = sl2.max

theorem append_endsWell (h : Sound sl2) (hfill : Refills sl1 sl2) :
    EndsWell Sound InBounds (sl2.append sl1) := by
  obtain ⟨hcount, hsum⟩ := hfill
  have hmax := h.max_lt
  rw [append_of_appends ⟨hcount, fun _ => by omega⟩, Nat.mod_eq_of_lt (by omega), hsum]
  refine endsWell_ok ⟨⟨?_, Nat.le_refl _⟩, h.two_le, hmax⟩
  simp only [List.length_append]
  omega

theorem refills_of_append (happ : EndsWell Fits InBounds (sl2.append sl1)) :
    Refills sl1 sl2 := by
  by_cases h : Appends sl2.word sl1.word
  · have hfits := happ.returns _ (append_of_appends h)
    have hle := hfits.length_le
    have hmax := hfits.max_le
    simp only [List.length_append] at hle hmax
    have hmod := Nat.mod_le (sl1.word.length + sl2.word.length) (2 ^ 32)
    exact ⟨h.1, by omega⟩
  · exact absurd rfl (happ.fails _ (append_of_not_appends h))

end StringList

/-! ## All the lists -/

section Heap

open StringList

variable {heap : StringListHeap} {p : Ptr} {sl : StringList}

theorem stringlistAt_of_liveAt (h : LiveAt heap p sl) : stringlistAt heap p = .ok sl := by
  rw [stringlistAt, cell_of_liveAt h]

theorem stringlistAt_of_releasedAt (h : ReleasedAt heap p) :
    stringlistAt heap p = .error (.fault .useAfterFree) := by
  rw [stringlistAt, cell_of_releasedAt h]

theorem stringlistAt_endsWell : EndsWell (LiveAt heap p) InBounds (stringlistAt heap p) := by
  rw [stringlistAt]
  split
  · rename_i sl h
    exact endsWell_ok (liveAt_of_cell h)
  · exact ⟨fun _ h => (by cases h), failsAs_error (by intro h; cases h)⟩
  · exact ⟨fun _ h => (by cases h), failsAs_error (by intro h; cases h)⟩

/-- The operation leaves room in every list: an add can double its array, only lists of two
words are copied, and a merge fills the array of its second list exactly. -/
def KeepsRoom (heap : StringListHeap) : StringListOp → Prop
  | .init => True
  | .build _ => True
  | .addString sl _ => ∀ list, LiveAt heap sl list → list.Growable
  | .copy sl => ∀ list, LiveAt heap sl list → list.word.length = 2
  | .merge sl1 sl2 => ∀ list1 list2, LiveAt heap sl1 list1 → LiveAt heap sl2 list2 →
    if sl1 = sl2 then list1.word = [] else list1.Refills list2

/-- An operation that keeps room keeps all lists sound, and writes inside their arrays. -/
theorem stringListStep_endsWell {op : StringListOp} (h : All Sound heap)
    (hroom : KeepsRoom heap op) : EndsWell (All Sound) InBounds (stringListStep heap op) := by
  cases op with
  | init => exact endsWell_ok (all_alloc_iff.mpr ⟨h, sound_init⟩)
  | build line =>
      cases line with
      | none => exact endsWell_ok h
      | some line =>
          refine (build_endsWell line).bind ?_
          intro sl _ hsl
          exact endsWell_ok (all_alloc_iff.mpr ⟨h, hsl⟩)
  | addString p str =>
      refine stringlistAt_endsWell.bind ?_
      intro sl _ hsl
      refine (addString_endsWell str (h p sl hsl) (hroom sl hsl)).bind ?_
      intro sl' _ hsound
      exact endsWell_ok ((all_store_iff h hsl).mpr hsound)
  | copy p =>
      refine stringlistAt_endsWell.bind ?_
      intro sl _ hsl
      refine (copy_endsWell (hroom sl hsl)).bind ?_
      intro sl' _ hsound
      exact endsWell_ok (all_alloc_iff.mpr ⟨h, hsound⟩)
  | merge p₁ p₂ =>
      refine stringlistAt_endsWell.bind ?_
      intro sl₁ _ h₁
      refine stringlistAt_endsWell.bind ?_
      intro sl₂ _ h₂
      have hfill := hroom sl₁ sl₂ h₁ h₂
      by_cases heq : p₁ = p₂
      · rw [if_pos heq] at hfill ⊢
        rw [if_pos hfill]
        exact endsWell_ok h.release
      · rw [if_neg heq] at hfill ⊢
        refine (append_endsWell (h p₂ sl₂ h₂) hfill).bind ?_
        intro sl' _ hsound
        exact endsWell_ok ((all_store_iff h h₂).mpr hsound).release

/-- Every other operation writes outside an array, or leaves a list that does not fit. -/
theorem keepsRoom_of_endsWell {op : StringListOp} (h : All Sound heap)
    (hends : EndsWell (All Fits) InBounds (stringListStep heap op)) : KeepsRoom heap op := by
  have hfits : All Fits heap := fun p sl hsl => (h p sl hsl).toFits
  cases op with
  | init => trivial
  | build line => trivial
  | addString p str =>
      intro sl hsl
      have hat := stringlistAt_of_liveAt hsl
      refine growable_of_addString str (h p sl hsl) ?_
      intro e he
      refine hends.fails e ?_
      simp only [stringListStep, stringlistAddString, hat, he, ok_bind, error_bind]
  | copy p =>
      intro sl hsl
      have hat := stringlistAt_of_liveAt hsl
      refine length_of_copy ⟨?_, ?_⟩
      · intro sl' he
        refine (all_alloc_iff.mp (hends.returns (alloc heap sl') ?_)).2
        simp only [stringListStep, stringlistCopy, hat, he, ok_bind, pure_eq_ok]
      · intro e he
        refine hends.fails e ?_
        simp only [stringListStep, stringlistCopy, hat, he, ok_bind, error_bind]
  | merge p₁ p₂ =>
      intro sl₁ sl₂ h₁ h₂
      have hat₁ := stringlistAt_of_liveAt h₁
      have hat₂ := stringlistAt_of_liveAt h₂
      by_cases heq : p₁ = p₂
      · rw [if_pos heq]
        by_contra hne
        refine hends.fails _ ?_ rfl
        simp only [stringListStep, stringlistMerge, hat₁, hat₂, ok_bind, if_pos heq, if_neg hne]
      · rw [if_neg heq]
        refine refills_of_append ⟨?_, ?_⟩
        · intro sl' he
          refine hends.returns (release (store heap p₂ sl') p₁) ?_ p₂ sl' ?_
          · simp only [stringListStep, stringlistMerge, hat₁, hat₂, ok_bind, if_neg heq, he,
              pure_eq_ok]
          · exact liveAt_release_iff.mpr ⟨Ne.symm heq, liveAt_store_self h₂⟩
        · intro e he
          refine hends.fails e ?_
          simp only [stringListStep, stringlistMerge, hat₁, hat₂, ok_bind, if_neg heq, he,
            error_bind]

end Heap

/-- A list of one word, its copy, and a word added to the copy. -/
def copiedList : List StringListOp :=
  [.build (some (lit "foo")), .copy 0, .addString 1 (lit "bar")]

end LibSwish3
