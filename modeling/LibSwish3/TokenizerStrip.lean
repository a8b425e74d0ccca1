import LibSwish3.Lib.Runs
import LibSwish3.Tokenizer

/-!
# What stripping leaves of an ASCII word

`core w` is `w` without the characters that may not start or end a word, and
`strip_ascii_chrs` leaves the core.

## Main definitions

* `core` — the part of a word between its first and its last character that may stand there.
* `stripAsciiChrs_append` — `strip_ascii_chrs` leaves it.
* `stripped` — a word without the ends that the tables ignore; `StripsWord`, `stripsWord`.
-/

namespace LibSwish3

open Runs

/-! ## The work block -/

section Block

variable {b z w : XmlStr} {c x : XmlChar} {i : Nat}

@[simp] theorem load_append : load (w ++ x :: z) w.length = .ok x := by
  simp [load]

@[simp] theorem load_cons_zero : load (x :: z) 0 = .ok x := rfl

@[simp] theorem store_append : store (w ++ x :: z) w.length c = .ok (w ++ c :: z) := by
  simp [store]

@[simp] theorem store_cons_zero : store (x :: z) 0 c = .ok (c :: z) := by
  simp [store]

theorem store_ok_iff {b' : XmlStr} :
    store b i c = .ok b' ↔ i < b.length ∧ b' = b.set i c := by
  rw [store]
  by_cases h : i < b.length
  · simp [h, eq_comm]
  · simp [h]

/-- `memcpy` of one byte. -/
theorem storeAll_singleton : storeAll b i [c] = store b i c := by
  rw [storeAll, store]
  by_cases h : i < b.length
  · rw [if_pos (by simpa using Nat.succ_le_of_lt h), if_pos h,
      List.set_eq_take_append_cons_drop, if_pos h]
    simp
  · rw [if_neg (by simpa using Nat.lt_succ_of_le (Nat.le_of_not_lt h)), if_neg h]

theorem strAt_append (hw : (0 : XmlChar) ∉ w) :
    strAt (b ++ (w ++ 0 :: z)) b.length = .ok w := by
  rw [strAt, List.drop_left, cstr_append hw, if_pos (by simp)]

theorem strAt_zero_append (hw : (0 : XmlChar) ∉ w) : strAt (w ++ 0 :: z) 0 = .ok w := by
  simpa using strAt_append (b := []) (z := z) hw

end Block

/-! ## Characters -/

section Chars

variable {loc : Locale} {c : XmlChar} {ignore : XmlChar → Bool}

/-- In a table that ignores DEL an entry is what the function says. -/
theorem asciiTable_of_lt (hdel : ignore 127 = true) (hc : c < 0x80) :
    asciiTable ignore c = .ok (!ignore c) := by
  rw [asciiTable, if_pos hc]
  by_cases h : c < 127
  · simp [h]
  · have heq : c = 127 := by
      rw [UInt8.lt_iff_toNat_lt] at hc h
      simp only [UInt8.reduceToNat] at hc h
      refine UInt8.toNat_inj.mp ?_
      simp only [UInt8.reduceToNat]
      omega
    simp [heq, hdel]

theorem asciiWordTable_of_lt (hc : c < 0x80) :
    asciiWordTable c = .ok (!isIgnoreWordAscii c) := asciiTable_of_lt rfl hc

theorem asciiStartTable_of_lt (hc : c < 0x80) :
    asciiStartTable c = .ok (!isIgnoreAscii c) := asciiTable_of_lt rfl hc

theorem asciiEndTable_of_lt (hc : c < 0x80) :
    asciiEndTable c = .ok (!isIgnoreAscii c) := asciiTable_of_lt rfl hc

theorem isIgnoreUtf8_of_lt (ha : loc.AsciiAgrees) (hc : c < 0x80) :
    isIgnoreUtf8 loc c.toNat = isIgnoreAscii c := by
  have hzero : (c.toNat = 0) = (c = 0) := by
    rw [← UInt8.toNat_inj]
    rfl
  rw [isIgnoreUtf8, isIgnoreAscii, ha.iswspace c hc, ha.iswcntrl c hc, ha.iswpunct c hc]
  simp only [hzero]

theorem isIgnoreWordUtf8_of_lt (ha : loc.AsciiAgrees) (hc : c < 0x80) :
    isIgnoreWordUtf8 loc c.toNat = isIgnoreWordAscii c := by
  have hquote : (c.toNat = 39) = (c = 39) := by
    rw [← UInt8.toNat_inj]
    rfl
  have hunder : (c.toNat = 95) = (c = 95) := by
    rw [← UInt8.toNat_inj]
    rfl
  simp only [isIgnoreWordUtf8, isIgnoreWordAscii, hquote, hunder, isIgnoreUtf8_of_lt ha hc]

@[simp] theorem utf8Codepoint_cons {s : XmlStr} (hc : c < 0x80) :
    utf8Codepoint (c :: s) = .ok c.toNat := by
  simp [utf8Codepoint, utf8ChrLen, xmlUTF8Size, hc]

/-- A byte of a word is no NUL. -/
theorem ne_zero_of_word (h : isIgnoreWordAscii c = false) : c ≠ 0 := by
  rintro rfl
  exact absurd h (by decide)

end Chars

/-! ## The part that stays -/

/-- A word of ASCII characters. -/
structure IsWord (w : XmlStr) : Prop where
  ascii : ∀ c ∈ w, c < 0x80
  word : ∀ c ∈ w, isIgnoreWordAscii c = false

/-- A word without the characters that may not start or end one. -/
def core (w : XmlStr) : XmlStr :=
  (w.rdropWhile isIgnoreAscii).dropWhile isIgnoreAscii

section Core

variable {w : XmlStr} {c : XmlChar}

theorem isWord_nil : IsWord [] := ⟨by simp, by simp⟩

theorem IsWord.concat (h : IsWord w) (hc : c < 0x80) (hword : isIgnoreWordAscii c = false) :
    IsWord (w ++ [c]) := by
  refine ⟨?_, ?_⟩
  · intro d hd
    rcases List.mem_append.mp hd with hd | hd
    · exact h.ascii d hd
    · rw [List.mem_singleton.mp hd]
      exact hc
  · intro d hd
    rcases List.mem_append.mp hd with hd | hd
    · exact h.word d hd
    · rw [List.mem_singleton.mp hd]
      exact hword

theorem IsWord.zero_notMem (h : IsWord w) : (0 : XmlChar) ∉ w :=
  fun hmem => ne_zero_of_word (h.word 0 hmem) rfl

theorem zero_notMem_rdropWhile (h : (0 : XmlChar) ∉ w) :
    (0 : XmlChar) ∉ w.rdropWhile isIgnoreAscii :=
  fun hmem => h ((List.rdropWhile_prefix _ w).mem hmem)

theorem core_sublist : (core w).Sublist w :=
  (List.dropWhile_sublist _).trans (List.rdropWhile_prefix _ w).sublist

theorem zero_notMem_core (h : (0 : XmlChar) ∉ w) : (0 : XmlChar) ∉ core w :=
  fun hmem => h (core_sublist.mem hmem)

theorem core_eq_nil_iff : core w = [] ↔ w.rdropWhile isIgnoreAscii = [] := by
  refine ⟨fun h => ?_, fun h => by rw [core, h]; rfl⟩
  by_contra hne
  have hall := List.dropWhile_eq_nil_iff.mp h
  exact List.rdropWhile_last_not isIgnoreAscii w hne (hall _ (List.getLast_mem hne))

end Core

/-! ## `strip_ascii_chrs` -/

section Ascii

variable {w z : XmlStr}

theorem stripAsciiEnd_append (hw : ∀ c ∈ w, c < 0x80) :
    stripAsciiEnd (w ++ z) w.length =
      .ok (w.rdropWhile isIgnoreAscii ++
        (List.replicate (w.rtakeWhile isIgnoreAscii).length 0 ++ z)) := by
  induction w using List.reverseRecOn generalizing z with
  | nil => rfl
  | append_singleton w c ih =>
      have hc : c < 0x80 := hw c (by simp)
      have hinit : ∀ d ∈ w, d < 0x80 := fun d hd => hw d (by simp [hd])
      rw [List.length_append, List.length_singleton, List.append_assoc, List.singleton_append,
        stripAsciiEnd, load_append]
      simp only [ok_bind, asciiEndTable_of_lt hc, store_append]
      by_cases h : isIgnoreAscii c = true
      · simp only [h, Bool.not_true, Bool.false_eq_true, if_false]
        rw [ih hinit, List.rdropWhile_concat_pos _ _ _ h, List.rtakeWhile_concat_pos _ _ _ h]
        simp [List.replicate_succ']
      · simp only [h, Bool.not_false, if_true]
        rw [List.rdropWhile_concat_neg _ _ _ h, List.rtakeWhile_concat_neg _ _ _ h]
        simp

theorem stripAsciiStart_append (hw : ∀ c ∈ w, c < 0x80) (hzero : (0 : XmlChar) ∉ w) :
    stripAsciiStart (w ++ 0 :: z) = .ok (w.takeWhile isIgnoreAscii).length := by
  induction w with
  | nil => simp [stripAsciiStart]
  | cons c w ih =>
      have hc : c < 0x80 := hw c (by simp)
      have hne : c ≠ 0 := fun h => hzero (by simp [h])
      have htail := ih (fun d hd => hw d (by simp [hd])) (fun h => hzero (by simp [h]))
      rw [List.cons_append, stripAsciiStart, if_neg hne]
      simp only [asciiStartTable_of_lt hc, ok_bind]
      by_cases h : isIgnoreAscii c = true
      · simp [h, htail]
      · simp [h]

/-- The block after the loop over the end. -/
theorem stripAsciiEnd_word (hw : ∀ c ∈ w, c < 0x80) :
    stripAsciiEnd (w ++ 0 :: z) (w.length + 1) =
      .ok (w.rdropWhile isIgnoreAscii ++
        0 :: (List.replicate (w.rtakeWhile isIgnoreAscii).length 0 ++ z)) := by
  have hnul : ∀ c ∈ w ++ [0], c < 0x80 := by
    intro c hc
    rcases List.mem_append.mp hc with hc | hc
    · exact hw c hc
    · rw [List.mem_singleton.mp hc]
      decide
  have h := stripAsciiEnd_append (z := z) hnul
  rw [List.rdropWhile_concat_pos _ _ _ (by decide), List.rtakeWhile_concat_pos _ _ _ (by decide)]
    at h
  simpa [List.replicate_succ] using h

/-- `strip_ascii_chrs` leaves the core of a word.  It writes no byte behind the terminator. -/
theorem stripAsciiChrs_word (hw : ∀ c ∈ w, c < 0x80) (hzero : (0 : XmlChar) ∉ w) :
    ∃ y, stripAsciiChrs (w ++ 0 :: z) (w.length + 1) =
        .ok (core w ++ 0 :: (y ++ z), (core w).length + 1) ∧
      (core w).length + y.length = w.length := by
  have hsub := (List.rdropWhile_prefix isIgnoreAscii w).subset
  have hr : ∀ c ∈ w.rdropWhile isIgnoreAscii, c < 0x80 := fun c hc => hw c (hsub hc)
  have hstart := stripAsciiStart_append
    (z := List.replicate (w.rtakeWhile isIgnoreAscii).length 0 ++ z) hr
    (zero_notMem_rdropWhile hzero)
  have hsplit : (w.rdropWhile isIgnoreAscii).takeWhile isIgnoreAscii ++ core w =
      w.rdropWhile isIgnoreAscii := List.takeWhile_append_dropWhile
  have hstr := strAt_append (b := (w.rdropWhile isIgnoreAscii).takeWhile isIgnoreAscii)
    (z := List.replicate (w.rtakeWhile isIgnoreAscii).length 0 ++ z)
    (zero_notMem_core hzero)
  rw [← List.append_assoc, hsplit] at hstr
  have hlength : (w.rdropWhile isIgnoreAscii).length + (w.rtakeWhile isIgnoreAscii).length =
      w.length := by
    rw [← List.length_append, List.rdropWhile_append_rtakeWhile]
  rw [stripAsciiChrs, stripAsciiEnd_word hw, ok_bind, hstart, ok_bind, hstr, ok_bind]
  by_cases hnone : ((w.rdropWhile isIgnoreAscii).takeWhile isIgnoreAscii).length = 0
  · rw [List.length_eq_zero_iff.mp hnone, List.nil_append] at hsplit
    rw [if_pos hnone, hsplit]
    refine ⟨List.replicate (w.rtakeWhile isIgnoreAscii).length 0, rfl, ?_⟩
    rw [List.length_replicate]
    exact hlength
  · -- the bytes of the old core that the shift has not overwritten stay behind the NUL
    rw [if_neg hnone]
    have hcore : (core w).length + 1 ≤ (w.rdropWhile isIgnoreAscii).length := by
      rw [← hsplit, List.length_append]
      omega
    rw [List.drop_append_of_le_length hcore]
    refine ⟨(w.rdropWhile isIgnoreAscii).drop ((core w).length + 1) ++
      0 :: List.replicate (w.rtakeWhile isIgnoreAscii).length 0, by simp, ?_⟩
    simp only [List.length_append, List.length_drop, List.length_cons, List.length_replicate]
    omega

/-- The same with the bytes behind the core left open. -/
theorem stripAsciiChrs_append (hw : ∀ c ∈ w, c < 0x80) (hzero : (0 : XmlChar) ∉ w) :
    ∃ z', stripAsciiChrs (w ++ 0 :: z) (w.length + 1) =
        .ok (core w ++ 0 :: z', (core w).length + 1) ∧
      (core w ++ 0 :: z').length = (w ++ 0 :: z).length := by
  obtain ⟨y, hstrip, hlength⟩ := stripAsciiChrs_word (z := z) hw hzero
  refine ⟨y ++ z, hstrip, ?_⟩
  simp only [List.length_append, List.length_cons]
  omega

end Ascii

/-! ## The ends of a word by the tables -/

/-- The longest start of a word whose characters have the entry 0 in the start table. -/
def ignoredStart (w : XmlStr) : XmlStr := w.takeWhile fun c => asciiStartTable c = .ok false

/-- The longest end of a word whose characters have the entry 0 in the end table. -/
def ignoredEnd (w : XmlStr) : XmlStr := w.rtakeWhile fun c => asciiEndTable c = .ok false

/-- A word without both. -/
def stripped (w : XmlStr) : XmlStr :=
  (w.take (w.length - (ignoredEnd w).length)).drop (ignoredStart w).length

/-- What a call leaves of the word `w` that stands in front of `z`. -/
structure StripsWord (w z : XmlStr) : Prop where
  /-- The stripped word and its NUL are in the first `|w| + 1` bytes; `z` is what it was. -/
  result : ∃ y, stripAsciiChrs (w ++ 0 :: z) (w.length + 1) =
      .ok (stripped w ++ 0 :: (y ++ z), (stripped w).length + 1) ∧
    (stripped w).length + y.length = w.length
  /-- A second call with the length that the first one returned changes nothing. -/
  again : ∀ block len, stripAsciiChrs (w ++ 0 :: z) (w.length + 1) = .ok (block, len) →
    stripAsciiChrs block len = .ok (block, len)

section Stripped

variable {w z : XmlStr}

theorem ignoredStart_eq (hw : ∀ c ∈ w, c < 0x80) : ignoredStart w = w.takeWhile isIgnoreAscii := by
  induction w with
  | nil => rfl
  | cons c w ih =>
      have htail := ih fun d hd => hw d (List.mem_cons_of_mem c hd)
      simp only [ignoredStart] at htail ⊢
      rw [List.takeWhile_cons, List.takeWhile_cons, htail,
        asciiStartTable_of_lt (hw c List.mem_cons_self)]
      cases isIgnoreAscii c <;> simp

theorem ignoredEnd_eq (hw : ∀ c ∈ w, c < 0x80) : ignoredEnd w = w.rtakeWhile isIgnoreAscii := by
  have hsame : ignoredEnd w = (ignoredStart w.reverse).reverse := rfl
  rw [hsame, ignoredStart_eq fun c hc => hw c (List.mem_reverse.mp hc)]
  rfl

/-- The two ends overlap only in a word that has nothing else. -/
theorem stripped_eq_core (hw : ∀ c ∈ w, c < 0x80) : stripped w = core w := by
  have hsplit : w.rdropWhile isIgnoreAscii ++ w.rtakeWhile isIgnoreAscii = w :=
    List.rdropWhile_append_rtakeWhile
  have htake : w.take (w.length - (w.rtakeWhile isIgnoreAscii).length) =
      w.rdropWhile isIgnoreAscii := by
    have hlength := congrArg List.length hsplit
    rw [List.length_append] at hlength
    conv_lhs => rw [← hsplit]
    rw [List.take_append_of_le_length (by rw [hsplit]; omega), List.take_of_length_le]
    rw [hsplit]
    omega
  rw [stripped, ignoredEnd_eq hw, ignoredStart_eq hw, htake]
  by_cases hnil : w.rdropWhile isIgnoreAscii = []
  · rw [hnil, List.drop_nil, core_eq_nil_iff.mpr hnil]
  have hlast : ¬ ((w.rdropWhile isIgnoreAscii).takeWhile isIgnoreAscii).length =
      (w.rdropWhile isIgnoreAscii).length := by
    intro hall
    have hself := (List.takeWhile_prefix isIgnoreAscii).eq_of_length hall
    exact List.rdropWhile_last_not isIgnoreAscii w hnil
      (List.takeWhile_eq_self_iff.mp hself _ (List.getLast_mem hnil))
  have hstart : w.takeWhile isIgnoreAscii =
      (w.rdropWhile isIgnoreAscii).takeWhile isIgnoreAscii := by
    conv_lhs => rw [← hsplit]
    rw [List.takeWhile_append, if_neg hlast]
  have hcore : (w.rdropWhile isIgnoreAscii).takeWhile isIgnoreAscii ++ core w =
      w.rdropWhile isIgnoreAscii := List.takeWhile_append_dropWhile
  rw [hstart]
  have hdrop : ((w.rdropWhile isIgnoreAscii).takeWhile isIgnoreAscii ++ core w).drop
      ((w.rdropWhile isIgnoreAscii).takeWhile isIgnoreAscii).length = core w := List.drop_left
  rwa [hcore] at hdrop

/-- The core of a core is the core. -/
theorem core_core (w : XmlStr) : core (core w) = core w := by
  have hsuffix : core w <:+ w.rdropWhile isIgnoreAscii := List.dropWhile_suffix _
  have hend : (core w).rdropWhile isIgnoreAscii = core w := by
    refine List.rdropWhile_eq_self_iff.mpr fun hne => ?_
    rw [hsuffix.getLast hne]
    exact List.rdropWhile_last_not _ _ (hsuffix.ne_nil hne)
  rw [core, hend]
  exact List.dropWhile_idempotent isIgnoreAscii (w.rdropWhile isIgnoreAscii)

/-- **`strip_ascii_chrs` takes the ignored start and the ignored end off every ASCII word, inside
the bytes of the word, and a second call finds nothing to take.** -/
theorem stripsWord (hw : ∀ c ∈ w, c < 0x80) (hzero : (0 : XmlChar) ∉ w) : StripsWord w z := by
  obtain ⟨y, hstrip, hlength⟩ := stripAsciiChrs_word (z := z) hw hzero
  have heq := stripped_eq_core hw
  refine ⟨⟨y, by rw [heq]; exact ⟨hstrip, hlength⟩⟩, ?_⟩
  intro block len hfirst
  obtain ⟨rfl, rfl⟩ := Prod.mk.inj (Except.ok.inj (hstrip.symm.trans hfirst))
  have hascii : ∀ c ∈ core w, c < 0x80 := fun c hc => hw c (core_sublist.mem hc)
  obtain ⟨y', hagain, hsame⟩ :=
    stripAsciiChrs_word (z := y ++ z) hascii (zero_notMem_core hzero)
  -- nothing was taken, so there is no room between the NUL and what stood behind it
  rw [core_core] at hagain hsame
  rw [List.length_eq_zero_iff.mp (by omega : y'.length = 0), List.nil_append] at hagain
  exact hagain

/-- Both ends of a word, and a byte behind its NUL. -/
theorem stripsWord_quoted : StripsWord (lit "'ab.'") [7] ∧
    stripAsciiChrs (lit "'ab.'" ++ [0, 7]) 6 = .ok (lit "ab" ++ [0, 0, 0, 0, 7], 3) ∧
    stripped (lit "'ab.'") = lit "ab" :=
  ⟨stripsWord (by decide +kernel) (by decide), by decide, by decide⟩

end Stripped

end LibSwish3
