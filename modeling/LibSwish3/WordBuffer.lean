import LibSwish3.Lib.Runs
import LibSwish3.StringList

/-!
# The array of `getword`

The bytes of a word are written one behind the other, so that the largest index is the length of the
word: the terminator's.  A backslash at the end of a quoted text is a byte of the word.  The list
builder has a result exactly if all words fit, and it is the words of the line.

## Main definitions

* `WordGoesOn`, `LongWord` — the text of a word that does not fit.
* `WordsFit` — all words fit.
* `getwordWrites_le_iff`, `stringlistBuild_ok_iff`.
-/

namespace LibSwish3

open Runs

/-! ## The indices -/

section Indices

variable {quote : Option XmlChar} {backslash : Bool} {word s : XmlStr} {cur : Nat}

theorem length_le_lineWordScan (quote : Option XmlChar) (backslash : Bool) (word s : XmlStr) :
    word.length ≤ (lineWordScan quote backslash word s).1.length := by
  induction s generalizing backslash word with
  | nil => cases backslash <;> simp [lineWordScan]
  | cons uc s ih =>
      rw [lineWordScan]
      split
      · exact ih true word
      · split
        · cases backslash <;> simp
        · split
          · exact Nat.le_refl _
          · have hlonger := ih false (word ++ [uc])
            rw [List.length_append] at hlonger
            omega

/-- The bytes are written one behind the other. -/
theorem getwordScanWrites_eq (quote : Option XmlChar) (backslash : Bool) (word s : XmlStr) :
    getwordScanWrites quote backslash word.length s =
      List.range' word.length
        ((lineWordScan quote backslash word s).1.length - word.length + 1) := by
  have hend : ∀ (backslash : Bool) (word : XmlStr),
      (if backslash then [word.length, word.length + 1] else [word.length]) =
        List.range' word.length
          ((if backslash then word ++ [92] else word).length - word.length + 1) := by
    intro backslash word
    cases backslash <;> simp [List.range'_succ]
  induction s generalizing backslash word with
  | nil => exact hend backslash word
  | cons uc s ih =>
      rw [getwordScanWrites, lineWordScan]
      split
      · exact ih true word
      · split
        · exact hend backslash word
        · split
          · simp
          · have hlonger := length_le_lineWordScan quote false (word ++ [uc]) s
            have hrest := ih false (word ++ [uc])
            rw [List.length_append, List.length_singleton] at hlonger hrest
            rw [hrest, ← List.range'_succ]
            congr 1
            omega

/-- `getword` writes up to the length of its word. -/
theorem getwordWrites_eq (h : strSkipWs s ≠ []) :
    getwordWrites s = List.range ((lineWord s).1.length + 1) := by
  rw [getwordWrites, lineWord, List.range_eq_range']
  cases hs : strSkipWs s with
  | nil => exact absurd hs h
  | cons c rest =>
      simp only
      split
      · exact getwordScanWrites_eq (some c) false [] rest
      · exact getwordScanWrites_eq none false [] (c :: rest)

theorem lineWord_of_blank (h : strSkipWs s = []) : lineWord s = ([], []) := by
  rw [lineWord, h]

/-- All writes stay within a room if the word does. -/
theorem getwordWrites_le (room : Nat) :
    (∀ i ∈ getwordWrites s, i ≤ room) ↔ (lineWord s).1.length ≤ room := by
  by_cases h : strSkipWs s = []
  · simp [getwordWrites, lineWord_of_blank h, h]
  · rw [getwordWrites_eq h]
    simp only [List.mem_range]
    constructor
    · intro hle
      exact hle _ (Nat.lt_succ_self _)
    · intro hle i hi
      omega

end Indices

/-! ## Words that do not fit -/

/-- A byte that stands for itself, in quotes or outside. -/
def PlainByte (quote : Option XmlChar) (c : XmlChar) : Prop :=
  match quote with
  | none => isspace c = false
  | some q => c ≠ q ∧ c ≠ 92 ∧ c ≠ 10 ∧ c ≠ 13

instance : (quote : Option XmlChar) → (c : XmlChar) → Decidable (PlainByte quote c)
  | none, c => inferInstanceAs (Decidable (isspace c = false))
  | some q, c => inferInstanceAs (Decidable (c ≠ q ∧ c ≠ 92 ∧ c ≠ 10 ∧ c ≠ 13))

/-- The line does not go on. -/
def AtLineEnd (s : XmlStr) : Prop := ∀ c, s.head? = some c → c = 10 ∨ c = 13

/-- The text goes on with at least that many bytes of a word.  In quotes a backslash and the byte
behind it make one, and so does a backslash at the end of the line. -/
inductive WordGoesOn (quote : Option XmlChar) : Nat → XmlStr → Prop
  | zero (s : XmlStr) : WordGoesOn quote 0 s
  | byte {n : Nat} {c : XmlChar} {s : XmlStr} : PlainByte quote c → WordGoesOn quote n s →
      WordGoesOn quote (n + 1) (c :: s)
  | escaped {n : Nat} {c : XmlChar} {s : XmlStr} : quote.isSome → c ≠ 10 → c ≠ 13 →
      WordGoesOn quote n s → WordGoesOn quote (n + 1) (92 :: c :: s)
  | backslash {s : XmlStr} : quote.isSome → AtLineEnd s → WordGoesOn quote 1 (92 :: s)

/-- The next word of the line has more bytes than `getword` has room for. -/
def LongWord (s : XmlStr) : Prop :=
  match strSkipWs s with
  | [] => False
  | c :: rest =>
    if c = 34 ∨ c = 39 then WordGoesOn (some c) (Swish.maxWordLen + 1) rest
    else WordGoesOn none (Swish.maxWordLen + 1) (c :: rest)

section LongWord

variable {quote : Option XmlChar} {n cur : Nat} {c : XmlChar} {s : XmlStr}

theorem mem_getwordScanWrites_self (backslash : Bool) :
    cur ∈ getwordScanWrites quote backslash cur s := by
  induction s generalizing backslash with
  | nil => cases backslash <;> simp [getwordScanWrites]
  | cons uc s ih =>
      rw [getwordScanWrites]
      split
      · exact ih true
      · split
        · cases backslash <;> simp
        · split <;> simp

/-- In quotes, the byte behind a backslash decides. -/
theorem wordGoesOn_backslash_iff (h : quote.isSome) :
    WordGoesOn quote (n + 1) (92 :: s) ↔
      AtLineEnd s ∧ n = 0 ∨ ∃ c t, s = c :: t ∧ c ≠ 10 ∧ c ≠ 13 ∧ WordGoesOn quote n t := by
  obtain ⟨q, rfl⟩ := Option.isSome_iff_exists.mp h
  constructor
  · intro hgoes
    cases hgoes with
    | byte hplain _ => exact absurd rfl hplain.2.1
    | escaped _ hnl hcr hrest => exact .inr ⟨_, _, rfl, hnl, hcr, hrest⟩
    | backslash _ hend => exact .inl ⟨hend, rfl⟩
  · rintro (⟨hend, rfl⟩ | ⟨c, t, rfl, hnl, hcr, hrest⟩)
    · exact .backslash h hend
    · exact .escaped h hnl hcr hrest

/-- Any other byte stands for itself or ends the word. -/
theorem wordGoesOn_byte_iff (h : quote.isSome → c ≠ 92) :
    WordGoesOn quote (n + 1) (c :: s) ↔ PlainByte quote c ∧ WordGoesOn quote n s := by
  constructor
  · intro hgoes
    cases hgoes with
    | byte hplain hrest => exact ⟨hplain, hrest⟩
    | escaped hsome _ _ _ => exact absurd rfl (h hsome)
    | backslash hsome _ => exact absurd rfl (h hsome)
  · rintro ⟨hplain, hrest⟩
    exact .byte hplain hrest

/-- The scan goes on behind a byte that stands for itself, and ends at any other. -/
theorem getwordScanWrites_byte (h : quote.isSome → c ≠ 92) :
    getwordScanWrites quote false cur (c :: s) = 
      cur :: (if PlainByte quote c then getwordScanWrites quote false (cur + 1) s else []) := by
  have hfirst : ¬ (c = 92 ∧ (!false) = true ∧ quote.isSome = true) := fun hc => h hc.2.2 hc.1
  rw [getwordScanWrites, if_neg hfirst]
  cases quote with
  | none =>
      by_cases hspace : isspace c = true
      · rw [if_neg (show ¬ PlainByte none c by simp [PlainByte, hspace])]
        split <;> simp [hspace]
      · have hend : ¬ (c = 10 ∨ c = 13) := fun hc => hspace (isspace_newline hc)
        rw [if_pos (show PlainByte none c by simpa [PlainByte] using hspace), if_neg hend]
        simp [hspace]
  | some q =>
      have hne : c ≠ 92 := h rfl
      by_cases hend : c = 10 ∨ c = 13
      · have hnot : ¬ PlainByte (some q) c := by
          rcases hend with rfl | rfl <;> simp [PlainByte]
        rw [if_pos hend, if_neg hnot]
        rfl
      · rw [if_neg hend]
        by_cases hq : c = q
        · simp [PlainByte, hq]
        · simp only [not_or] at hend
          simp [PlainByte, hq, hne, hend]

/-- Behind a backslash the next byte is written as it is. -/
theorem getwordScanWrites_pending :
    getwordScanWrites quote true cur (c :: s) =
      cur :: if c = 10 ∨ c = 13 then [cur + 1]
        else getwordScanWrites quote false (cur + 1) s := by
  rw [getwordScanWrites]
  by_cases hend : c = 10 ∨ c = 13 <;> simp [hend]

/-- A word goes on with `n` bytes exactly if the scan writes `n` bytes further on. -/
theorem wordGoesOn_iff (n cur : Nat) :
    (WordGoesOn quote n s ↔ cur + n ∈ getwordScanWrites quote false cur s) ∧
      (quote.isSome → (WordGoesOn quote (n + 1) (92 :: s) ↔
        cur + (n + 1) ∈ getwordScanWrites quote true cur s)) := by
  induction s generalizing n cur with
  | nil =>
      refine ⟨?_, fun hsome => ?_⟩
      · cases n with
        | zero => simp [getwordScanWrites, WordGoesOn.zero]
        | succ n =>
            simp only [getwordScanWrites, Bool.false_eq_true, if_false, List.mem_singleton]
            refine iff_of_false (fun hgoes => ?_) (by omega)
            cases hgoes
      · rw [wordGoesOn_backslash_iff hsome]
        simp [getwordScanWrites, AtLineEnd]
  | cons c s ih =>
      refine ⟨?_, fun hsome => ?_⟩
      · cases n with
        | zero => exact iff_of_true (.zero _) (mem_getwordScanWrites_self false)
        | succ n =>
            by_cases hescape : quote.isSome ∧ c = 92
            · obtain ⟨hsome, rfl⟩ := hescape
              rw [(ih n cur).2 hsome, getwordScanWrites]
              simp [hsome]
            · have hbyte : quote.isSome → c ≠ 92 := fun hs hc => hescape ⟨hs, hc⟩
              rw [wordGoesOn_byte_iff hbyte, getwordScanWrites_byte hbyte]
              by_cases hplain : PlainByte quote c
              · rw [if_pos hplain, (ih n (cur + 1)).1]
                simp [hplain, Nat.add_assoc, Nat.add_comm 1 n]
              · simp [hplain]
      · rw [wordGoesOn_backslash_iff hsome, getwordScanWrites_pending]
        by_cases hend : c = 10 ∨ c = 13
        · rcases hend with rfl | rfl <;> simp [AtLineEnd]
        · have hne : cur + (n + 1) ≠ cur := by omega
          rw [if_neg hend, List.mem_cons, or_iff_right hne,
            show cur + (n + 1) = cur + 1 + n by omega, ← (ih n (cur + 1)).1]
          simp only [not_or] at hend
          simp [AtLineEnd, hend]

/-- A word is too long if the index behind the array is written. -/
theorem longWord_iff : LongWord s ↔ Swish.maxWordLen + 1 ∈ getwordWrites s := by
  have hgoes : ∀ (quote : Option XmlChar) (t : XmlStr), WordGoesOn quote (Swish.maxWordLen + 1) t ↔
      Swish.maxWordLen + 1 ∈ getwordScanWrites quote false 0 t := by
    intro quote t
    rw [(wordGoesOn_iff _ 0).1, Nat.zero_add]
  rw [LongWord, getwordWrites]
  cases strSkipWs s with
  | nil => simp
  | cons c rest =>
      simp only
      split
      · exact hgoes (some c) rest
      · exact hgoes none (c :: rest)

theorem length_lineWord_le_iff : (lineWord s).1.length ≤ Swish.maxWordLen ↔ ¬ LongWord s := by
  rw [longWord_iff]
  by_cases h : strSkipWs s = []
  · simp [getwordWrites, lineWord_of_blank h, h]
  · rw [getwordWrites_eq h, List.mem_range]
    omega

end LongWord

/-- `getword` writes inside its array exactly if the word fits. -/
theorem getwordWrites_le_iff (line : XmlStr) :
    (∀ i ∈ getwordWrites line, i ≤ Swish.maxWordLen) ↔ ¬ LongWord line := by
  rw [getwordWrites_le, length_lineWord_le_iff]

/-- A word of 257 bytes: its terminator is written behind the array. -/
theorem getwordWrites_outside :
    ¬ ∀ line : XmlStr, ∀ i ∈ getwordWrites line, i ≤ Swish.maxWordLen := by
  intro h
  have hword : Swish.maxWordLen + 1 ∈ getwordWrites (List.replicate 257 97) := by decide +kernel
  exact absurd (h _ _ hword) (by decide)

/-! ## The list builder -/

section Build

variable {line : XmlStr} {words : List XmlStr}

theorem getword_of_le (h : (lineWord line).1.length ≤ Swish.maxWordLen) :
    getword line = .ok (lineWord line) := if_pos ((getwordWrites_le _).mpr h)

theorem getword_of_gt (h : ¬ (lineWord line).1.length ≤ Swish.maxWordLen) :
    getword line = .error (.fault .outOfBounds) :=
  if_neg (mt (getwordWrites_le _).mp h)

/-- All words fit. -/
def WordsFit (words : List XmlStr) : Prop := ∀ word ∈ words, word.length ≤ Swish.maxWordLen

instance (words : List XmlStr) : Decidable (WordsFit words) :=
  inferInstanceAs (Decidable (∀ word ∈ words, _))

theorem wordsFit_cons_iff {word : XmlStr} :
    WordsFit (word :: words) ↔ word.length ≤ Swish.maxWordLen ∧ WordsFit words :=
  List.forall_mem_cons

/-- The words are read exactly if they fit. -/
theorem stringlistWords_eq (fuel : Nat) (line : XmlStr) :
    stringlistWords fuel line =
      if WordsFit (lineWordsFrom fuel line) then .ok (lineWordsFrom fuel line)
      else .error (.fault .outOfBounds) := by
  induction fuel generalizing line with
  | zero => exact (if_pos (List.forall_mem_nil _)).symm
  | succ fuel ih =>
      rw [stringlistWords, lineWordsFrom]
      cases hword : lineWord line with
      | mk word rest =>
          by_cases hfits : word.length ≤ Swish.maxWordLen
          · rw [getword_of_le (by rw [hword]; exact hfits), hword, ok_bind]
            cases word with
            | nil => exact (if_pos (List.forall_mem_nil _)).symm
            | cons c word =>
                simp only [List.isEmpty_cons, Bool.false_eq_true, if_false, ih, wordsFit_cons_iff,
                  hfits, true_and]
                split_ifs <;> rfl
          · rw [getword_of_gt (by rw [hword]; exact hfits), error_bind]
            cases word with
            | nil => exact absurd (Nat.zero_le _) hfits
            | cons c word => exact (if_neg fun hall => hfits (wordsFit_cons_iff.mp hall).1).symm

theorem stringlistBuild_of_fit (h : WordsFit (lineWords line)) :
    stringlistBuild line = .ok (lineWords line) :=
  (stringlistWords_eq _ _).trans (if_pos h)

/-- A word that does not fit is written over the end of the array. -/
theorem stringlistBuild_of_not_fit (h : ¬WordsFit (lineWords line)) :
    stringlistBuild line = .error (.fault .outOfBounds) :=
  (stringlistWords_eq _ _).trans (if_neg h)

theorem stringlistBuild_ok_iff : stringlistBuild line = .ok words ↔
    lineWords line = words ∧ WordsFit words := by
  by_cases h : WordsFit (lineWords line)
  · rw [stringlistBuild_of_fit h, Except.ok.injEq]
    refine (and_iff_left_of_imp ?_).symm
    rintro rfl
    exact h
  · rw [stringlistBuild_of_not_fit h]
    refine iff_of_false (by simp) ?_
    rintro ⟨rfl, hfits⟩
    exact h hfits

end Build

end LibSwish3
