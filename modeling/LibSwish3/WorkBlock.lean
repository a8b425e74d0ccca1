import LibSwish3.Lib.Segments
import LibSwish3.TokenizerWords
import LibSwish3.Utf8Chars

/-!
# The bounds of the work block

The loops write the bytes of a word into the work block, and a NUL or two behind it when they
end it.  Where they write depends on where they stand, on the width of the next character and
on whether it is the last one, and not on what stripping leaves: the length of a word is counted
anew from its first character on.  So the indices can be read off the text, and the calls that
return have written at no others.

Stripping writes below the NUL that the loop has written, so that its indices are smaller.

## Main definitions

* `asciiWrites`, `utf8Writes` — the indices that a call writes.
* `tokenizeAscii_writes`, `tokenizeUtf8_writes` — a call that returns has written inside.
* `AsciiRoom`, `Utf8Room` — a run of word characters fits.
-/

namespace LibSwish3

open Runs Segments

/-! ## The indices -/

/-- Where a loop stands: outside of a word, or inside with that many of its bytes copied. -/
abbrev Cursor := Option Nat

def TokenizeState.cursor (st : TokenizeState) : Cursor :=
  if st.insideToken then some st.tokenLen else none

section Indices

variable (loc : Locale) (a : Analyzer)

/-- The indices that one byte makes the loop write, and where the loop stands behind it. -/
def asciiCursor : Cursor → (ignored last : Bool) → List Nat × Cursor
  | some len, true, _ => ([len], none)
  | none, true, _ => ([], none)
  | some len, false, last =>
    if a.maxwordlen ≤ len + 1 ∨ last then ([len, len + 1], none) else ([len], some (len + 1))
  | none, false, last =>
    if last ∧ a.minwordlen = 1 then ([0, 1], none) else ([0], some 1)

def asciiWritesFrom : Cursor → XmlStr → List Nat
  | _, [] => []
  | cur, c :: rest =>
    (asciiCursor a cur (isIgnoreWordAscii c) rest.isEmpty).1 ++
      asciiWritesFrom (asciiCursor a cur (isIgnoreWordAscii c) rest.isEmpty).2 rest

/-- The indices that `swish_tokenize_ascii` writes. -/
def asciiWrites (buf : XmlStr) : List Nat :=
  0 :: asciiWritesFrom a none (asciiStrTolower (cstr buf))

/-- The indices that one character of `n` bytes makes the loop write. -/
def utf8Cursor : Cursor → (ignored : Bool) → (n : Nat) → (last : Bool) → List Nat × Cursor
  | some len, true, _, _ => ([len + 1], none)
  | none, true, _, _ => ([], none)
  | some len, false, n, last =>
    if a.maxwordlen < n + len then ([], some len)
    else if a.maxwordlen ≤ len + n ∨ last then
      ((List.range n).map (len + ·) ++ [len + n, len + n + 1], none)
    else ((List.range n).map (len + ·) ++ [len + n], some (len + n))
  | none, false, n, last =>
    if a.maxwordlen < n then ([0], some 0)
    else if last ∧ a.minwordlen = 1 then (0 :: (List.range n ++ [n, n]), none)
    else (0 :: (List.range n ++ [n]), some n)

def utf8WritesFrom : Cursor → List XmlStr → List Nat
  | _, [] => []
  | cur, chr :: rest =>
    match utf8Codepoint chr with
    | .error _ => []
    | .ok cp =>
      (utf8Cursor a cur (isIgnoreWordUtf8 loc cp) chr.length rest.isEmpty).1 ++
        utf8WritesFrom (utf8Cursor a cur (isIgnoreWordUtf8 loc cp) chr.length rest.isEmpty).2 rest

/-- The indices that `swish_tokenize_utf8` writes. -/
def utf8Writes (buf : XmlStr) : List Nat :=
  match utf8StrTolower loc (cstr buf) with
  | .error _ => []
  | .ok bufLower => utf8WritesFrom loc a none (utf8Chrs bufLower)

end Indices

/-! ## The calls write there -/

section Calls

variable {loc : Locale} {a : Analyzer} {m : Option MetaName} {context : XmlStr}
  {st st' : TokenizeState} {block block' : XmlStr} {c nextc : XmlChar} {last : Bool}

theorem length_of_store {i : Nat} (h : store block i c = .ok block') :
    block'.length = block.length := by
  obtain ⟨-, rfl⟩ := store_ok_iff.mp h
  exact List.length_set

theorem length_of_storeAll {i : Nat} {bytes : XmlStr} (h : storeAll block i bytes = .ok block') :
    block'.length = block.length ∧ i + bytes.length ≤ block.length := by
  unfold storeAll at h
  by_cases hfits : i + bytes.length ≤ block.length
  · rw [if_pos hfits] at h
    cases h
    refine ⟨?_, hfits⟩
    simp
    omega
  · rw [if_neg hfits] at h
    cases h

/-- Stripping keeps the size of the block. -/
theorem length_of_stripAsciiChrs {len len' : Nat}
    (h : stripAsciiChrs block len = .ok (block', len')) : block'.length = block.length := by
  have hend : ∀ (n : Nat) (word word' : XmlStr), stripAsciiEnd word n = .ok word' →
      word'.length = word.length := by
    intro n
    induction n with
    | zero =>
        intro word word' hok
        cases hok
        rfl
    | succ n ih =>
        intro word word' hok
        obtain ⟨d, -, hok⟩ := bind_ok_iff.mp hok
        obtain ⟨isEnd, -, hok⟩ := bind_ok_iff.mp hok
        cases isEnd with
        | true =>
            cases hok
            rfl
        | false =>
            obtain ⟨word₁, hstore, hok⟩ := bind_ok_iff.mp hok
            rw [ih _ _ hok, length_of_store hstore]
  obtain ⟨word, hword, h⟩ := bind_ok_iff.mp h
  obtain ⟨i, -, h⟩ := bind_ok_iff.mp h
  obtain ⟨rest, hrest, h⟩ := bind_ok_iff.mp h
  cases h
  rw [← hend _ _ _ hword]
  unfold strAt at hrest
  split at hrest
  · rename_i hzero
    cases hrest
    by_cases hi : i = 0
    · rw [if_pos hi]
    · have hlt : (cstr (word.drop i)).length < (word.drop i).length := by
        refine lt_of_le_of_ne (List.takeWhile_sublist _).length_le fun heq => ?_
        have hall := (List.takeWhile_sublist _).eq_of_length heq
        exact absurd (hall ▸ hzero) (zero_notMem_cstr _)
      rw [if_neg hi]
      simp only [List.length_drop, List.length_append, List.length_cons] at hlt ⊢
      omega
  · cases hrest

theorem length_of_stripUtf8Chrs {len len' : Nat}
    (h : stripUtf8Chrs loc block len = .ok (block', len')) : block'.length = block.length := by
  have hend : ∀ (i skipped : Nat) (token token' : XmlStr),
      stripUtf8End loc len i skipped token = .ok token' → token'.length = token.length := by
    intro i
    induction i with
    | zero =>
        intro skipped token token' hok
        cases hok
        rfl
    | succ i ih =>
        intro skipped token token' hok
        rw [stripUtf8End] at hok
        split at hok
        · obtain ⟨chr, -, hok⟩ := bind_ok_iff.mp hok
          obtain ⟨cp, -, hok⟩ := bind_ok_iff.mp hok
          split at hok
          · obtain ⟨token₁, hstore, hok⟩ := bind_ok_iff.mp hok
            rw [ih _ _ _ hok, length_of_store hstore]
          · cases hok
            rfl
        · exact ih _ _ _ hok
  obtain ⟨token, htoken, h⟩ := bind_ok_iff.mp h
  obtain ⟨i, -, h⟩ := bind_ok_iff.mp h
  obtain ⟨rest, -, h⟩ := bind_ok_iff.mp h
  cases h
  exact hend _ _ _ _ htoken

theorem block_of_addStripped {token : XmlStr} {len : Nat}
    (h : addStripped a m context st token len = .ok st') :
    st'.token = token ∧ st'.insideToken = false := by
  obtain ⟨d, -, h⟩ := bind_ok_iff.mp h
  split at h
  · obtain ⟨tl, -, h⟩ := bind_ok_iff.mp h
    cases h
    exact ⟨rfl, rfl⟩
  · cases h
    exact ⟨rfl, rfl⟩

/-- What a step of a loop does with the block: it writes at the given indices, and the loop
stands where it says. -/
structure Writes (st st' : TokenizeState) (next : List Nat × Cursor) : Prop where
  length : st'.token.length = st.token.length
  cursor : st'.cursor = next.2
  inside : ∀ i ∈ next.1, i < st.token.length

theorem Writes.bump {next : List Nat × Cursor} (h : Writes st st' next) (isBumper : Bool) :
    Writes st (st'.bump isBumper) next := by
  cases isBumper with
  | false => exact h
  | true => exact ⟨h.length, h.cursor, h.inside⟩

theorem writes_endAscii (hok : endAscii a m context st = .ok st') :
    Writes st st' ([st.tokenLen], none) := by
  obtain ⟨token, hstore, hok⟩ := bind_ok_iff.mp hok
  obtain ⟨⟨token', len⟩, hstrip, hok⟩ := bind_ok_iff.mp hok
  obtain ⟨htoken, hinside⟩ := block_of_addStripped hok
  refine ⟨?_, ?_, ?_⟩
  · rw [htoken, length_of_stripAsciiChrs hstrip, length_of_store hstore]
  · rw [TokenizeState.cursor, hinside]
    rfl
  · intro i hi
    rw [List.mem_singleton.mp hi]
    exact (store_ok_iff.mp hstore).1

theorem writes_appendAscii (hlast : nextc = 0 ↔ last = true)
    (hok : appendAscii a m context st c nextc = .ok st') (hinside : st.insideToken = true) :
    Writes st st' (asciiCursor a (some st.tokenLen) false last) := by
  obtain ⟨token, hstore, hok⟩ := bind_ok_iff.mp hok
  have hlen := length_of_store hstore
  have hlt := (store_ok_iff.mp hstore).1
  simp only [hlast] at hok
  rw [asciiCursor]
  by_cases hend : a.maxwordlen ≤ st.tokenLen + 1 ∨ last = true
  · rw [if_pos hend] at hok ⊢
    obtain ⟨st₁, hok₁, hok⟩ := bind_ok_iff.mp hok
    cases hok
    obtain ⟨hlength, hcursor, hin⟩ := writes_endAscii hok₁
    have hall : Writes st st₁ ([st.tokenLen, st.tokenLen + 1], none) := by
      refine ⟨hlength.trans hlen, hcursor, ?_⟩
      intro i hi
      rcases List.mem_cons.mp hi with rfl | hi
      · exact hlt
      · rw [← hlen]
        exact hin i hi
    exact hall.bump _
  · rw [if_neg hend] at hok ⊢
    cases hok
    refine Writes.bump ⟨hlen, ?_, ?_⟩ _
    · rw [TokenizeState.cursor, if_pos hinside]
    · intro i hi
      rw [List.mem_singleton.mp hi]
      exact hlt

theorem writes_startAscii (hlast : nextc = 0 ↔ last = true)
    (hok : startAscii a m context st c nextc = .ok st') :
    Writes st st' (asciiCursor a none false last) := by
  obtain ⟨token, hstore, hok⟩ := bind_ok_iff.mp hok
  have hlen := length_of_store hstore
  have hlt := (store_ok_iff.mp hstore).1
  simp only [hlast] at hok
  rw [asciiCursor]
  by_cases hwhole : last = true ∧ a.minwordlen = 1
  · rw [if_pos hwhole] at hok ⊢
    obtain ⟨token', hstore', hok⟩ := bind_ok_iff.mp hok
    obtain ⟨tl, -, hok⟩ := bind_ok_iff.mp hok
    cases hok
    refine Writes.bump ⟨(length_of_store hstore').trans hlen, rfl, ?_⟩ _
    have hlt' := (store_ok_iff.mp hstore').1
    rw [hlen] at hlt'
    simp only [List.forall_mem_cons]
    exact ⟨hlt, hlt', by simp⟩
  · rw [if_neg hwhole] at hok ⊢
    cases hok
    exact Writes.bump ⟨hlen, rfl, by simpa using hlt⟩ _

theorem writes_asciiStep (hlast : nextc = 0 ↔ last = true) (hc : c < 0x80)
    (hok : asciiStep a m context st c nextc = .ok st') :
    Writes st st' (asciiCursor a st.cursor (isIgnoreWordAscii c) last) := by
  rw [asciiStep, asciiWordTable_of_lt hc, ok_bind] at hok
  cases hignore : isIgnoreWordAscii c with
  | true =>
      simp only [hignore, Bool.not_true, Bool.false_eq_true, if_false, ignoreAscii] at hok
      cases hinside : st.insideToken with
      | true =>
          simp only [hinside, if_true] at hok
          obtain ⟨st₁, hok₁, hok⟩ := bind_ok_iff.mp hok
          cases hok
          rw [TokenizeState.cursor, if_pos hinside]
          exact (writes_endAscii hok₁).bump _
      | false =>
          simp only [hinside, Bool.false_eq_true, if_false] at hok
          cases hok
          rw [TokenizeState.cursor, if_neg (by simp [hinside])]
          refine Writes.bump ⟨rfl, ?_, by simp [asciiCursor]⟩ _
          rw [TokenizeState.cursor, if_neg (by simp [hinside])]
          rfl
  | false =>
      simp only [hignore, Bool.not_false, if_true] at hok
      cases hinside : st.insideToken with
      | true =>
          simp only [hinside, if_true] at hok
          rw [TokenizeState.cursor, if_pos hinside]
          exact writes_appendAscii hlast hok hinside
      | false =>
          simp only [hinside, Bool.false_eq_true, if_false] at hok
          rw [TokenizeState.cursor, if_neg (by simp [hinside])]
          exact writes_startAscii hlast hok

theorem writes_endUtf8 (hok : endUtf8 loc a m context st = .ok st') :
    Writes st st' ([st.tokenLen + 1], none) := by
  obtain ⟨token, hstore, hok⟩ := bind_ok_iff.mp hok
  obtain ⟨⟨token', len⟩, hstrip, hok⟩ := bind_ok_iff.mp hok
  obtain ⟨htoken, hinside⟩ := block_of_addStripped hok
  refine ⟨?_, ?_, ?_⟩
  · rw [htoken, length_of_stripUtf8Chrs hstrip, length_of_store hstore]
  · rw [TokenizeState.cursor, hinside]
    rfl
  · intro i hi
    rw [List.mem_singleton.mp hi]
    exact (store_ok_iff.mp hstore).1

theorem mem_range_map_add {len n i : Nat} :
    i ∈ (List.range n).map (len + ·) ↔ len ≤ i ∧ i < len + n := by
  rw [List.mem_map]
  refine ⟨?_, fun h => ⟨i - len, List.mem_range.mpr (by omega), by omega⟩⟩
  rintro ⟨k, hk, rfl⟩
  have := List.mem_range.mp hk
  omega

variable {chr : XmlStr} {cp : Nat}

theorem writes_appendUtf8 (hok : appendUtf8 loc a m context st chr cp last = .ok st')
    (hinside : st.insideToken = true) :
    Writes st st' (utf8Cursor a (some st.tokenLen) false chr.length last) := by
  unfold appendUtf8 at hok
  rw [utf8Cursor]
  by_cases hlong : a.maxwordlen < chr.length + st.tokenLen
  · rw [if_pos hlong] at hok ⊢
    cases hok
    refine ⟨rfl, ?_, by simp⟩
    rw [TokenizeState.cursor, if_pos hinside]
  · rw [if_neg hlong] at hok ⊢
    obtain ⟨token, hall, hok⟩ := bind_ok_iff.mp hok
    obtain ⟨token', hstore, hok⟩ := bind_ok_iff.mp hok
    obtain ⟨hlen, -⟩ := length_of_storeAll hall
    have hlen' := (length_of_store hstore).trans hlen
    have hlt := (store_ok_iff.mp hstore).1
    rw [hlen] at hlt
    have hbytes : ∀ i ∈ (List.range chr.length).map (st.tokenLen + ·), i < st.token.length := by
      intro i hi
      have := mem_range_map_add.mp hi
      omega
    simp only at hok
    by_cases hend : a.maxwordlen ≤ st.tokenLen + chr.length ∨ last = true
    · rw [if_pos hend] at hok ⊢
      obtain ⟨st₁, hok₁, hok⟩ := bind_ok_iff.mp hok
      cases hok
      obtain ⟨hlength, hcursor, hin⟩ := writes_endUtf8 hok₁
      have hall : Writes st st₁ ((List.range chr.length).map (st.tokenLen + ·) ++
          [st.tokenLen + chr.length, st.tokenLen + chr.length + 1], none) := by
        refine ⟨hlength.trans hlen', hcursor, ?_⟩
        intro i hi
        rcases List.mem_append.mp hi with hi | hi
        · exact hbytes i hi
        · rcases List.mem_cons.mp hi with rfl | hi
          · exact hlt
          · rw [← hlen']
            exact hin i hi
      exact hall.bump _
    · rw [if_neg hend] at hok ⊢
      cases hok
      refine Writes.bump ⟨hlen', ?_, ?_⟩ _
      · rw [TokenizeState.cursor, if_pos hinside]
      · intro i hi
        rcases List.mem_append.mp hi with hi | hi
        · exact hbytes i hi
        · rw [List.mem_singleton.mp hi]
          exact hlt

theorem writes_startUtf8 (hok : startUtf8 a m context st chr cp last = .ok st') :
    Writes st st' (utf8Cursor a none false chr.length last) := by
  obtain ⟨token, hstore, hok⟩ := bind_ok_iff.mp hok
  have hlen := length_of_store hstore
  have hfirst := (store_ok_iff.mp hstore).1
  rw [utf8Cursor]
  by_cases hlong : a.maxwordlen < chr.length
  · rw [if_pos hlong] at hok ⊢
    cases hok
    exact ⟨hlen, rfl, by simpa using hfirst⟩
  · rw [if_neg hlong] at hok ⊢
    obtain ⟨token₁, hall, hok⟩ := bind_ok_iff.mp hok
    obtain ⟨token₂, hstore₂, hok⟩ := bind_ok_iff.mp hok
    obtain ⟨hlen₁, -⟩ := length_of_storeAll hall
    have hlen₂ := (length_of_store hstore₂).trans (hlen₁.trans hlen)
    have hlt := (store_ok_iff.mp hstore₂).1
    rw [hlen₁, hlen] at hlt
    have hbytes : ∀ i ∈ List.range chr.length, i < st.token.length := by
      intro i hi
      have := List.mem_range.mp hi
      omega
    by_cases hwhole : last = true ∧ a.minwordlen = 1
    · rw [if_pos hwhole] at hok ⊢
      obtain ⟨token₃, hstore₃, hok⟩ := bind_ok_iff.mp hok
      obtain ⟨tl, -, hok⟩ := bind_ok_iff.mp hok
      cases hok
      refine Writes.bump ⟨(length_of_store hstore₃).trans hlen₂, rfl, ?_⟩ _
      simp only [List.forall_mem_cons, List.forall_mem_append]
      exact ⟨hfirst, hbytes, hlt, hlt, by simp⟩
    · rw [if_neg hwhole] at hok ⊢
      cases hok
      refine Writes.bump ⟨hlen₂, rfl, ?_⟩ _
      simp only [List.forall_mem_cons, List.forall_mem_append]
      exact ⟨hfirst, hbytes, hlt, by simp⟩

theorem writes_utf8Step (hcp : utf8Codepoint chr = .ok cp)
    (hok : utf8Step loc a m context st chr last = .ok st') :
    Writes st st' (utf8Cursor a st.cursor (isIgnoreWordUtf8 loc cp) chr.length last) := by
  rw [utf8Step, hcp, ok_bind] at hok
  cases hignore : isIgnoreWordUtf8 loc cp with
  | true =>
      simp only [hignore, if_true, ignoreUtf8] at hok
      cases hinside : st.insideToken with
      | true =>
          simp only [hinside, if_true] at hok
          obtain ⟨st₁, hok₁, hok⟩ := bind_ok_iff.mp hok
          cases hok
          rw [TokenizeState.cursor, if_pos hinside]
          exact (writes_endUtf8 hok₁).bump _
      | false =>
          simp only [hinside, Bool.false_eq_true, if_false] at hok
          cases hok
          rw [TokenizeState.cursor, if_neg (by simp [hinside])]
          refine Writes.bump ⟨rfl, ?_, by simp [utf8Cursor]⟩ _
          rw [TokenizeState.cursor, if_neg (by simp [hinside])]
          rfl
  | false =>
      simp only [hignore, Bool.false_eq_true, if_false] at hok
      cases hinside : st.insideToken with
      | true =>
          simp only [hinside, if_true] at hok
          rw [TokenizeState.cursor, if_pos hinside]
          exact writes_appendUtf8 hok hinside
      | false =>
          simp only [hinside, Bool.false_eq_true, if_false] at hok
          rw [TokenizeState.cursor, if_neg (by simp [hinside])]
          exact writes_startUtf8 hok

theorem asciiLoop_writes {s : XmlStr} (hs : ∀ c ∈ s, c < 0x80) (hzero : (0 : XmlChar) ∉ s)
    (hok : asciiLoop a m context st s = .ok st') :
    ∀ i ∈ asciiWritesFrom a st.cursor (asciiStrTolower s), i < st.token.length := by
  induction s generalizing st with
  | nil => simp [asciiStrTolower, asciiWritesFrom]
  | cons b rest ih =>
      obtain ⟨st₁, hstep, hok⟩ := bind_ok_iff.mp hok
      have hrest : (0 : XmlChar) ∉ rest := fun h => hzero (by simp [h])
      obtain ⟨hlength, hcursor, hin⟩ := writes_asciiStep
        (tolower_headD_eq_zero_iff hrest) (tolower_lt (hs b (by simp))) hstep
      have htail := ih (fun c hc => hs c (by simp [hc])) hrest hok
      rw [asciiStrTolower, List.map_cons, asciiWritesFrom]
      intro i hi
      rcases List.mem_append.mp hi with hi | hi
      · exact hin i hi
      · rw [← hlength]
        rw [hcursor] at htail
        exact htail i hi

theorem utf8Loop_writes {chrs : List XmlStr} (hok : utf8Loop loc a m context st chrs = .ok st') :
    ∀ i ∈ utf8WritesFrom loc a st.cursor chrs, i < st.token.length := by
  induction chrs generalizing st with
  | nil => simp [utf8WritesFrom]
  | cons chr rest ih =>
      obtain ⟨st₁, hstep, hok⟩ := bind_ok_iff.mp hok
      rw [utf8WritesFrom]
      cases hcp : utf8Codepoint chr with
      | error e => simp
      | ok cp =>
          obtain ⟨hlength, hcursor, hin⟩ := writes_utf8Step hcp hstep
          have htail := ih hok
          intro i hi
          rcases List.mem_append.mp hi with hi | hi
          · exact hin i hi
          · rw [← hlength]
            rw [hcursor] at htail
            exact htail i hi

/-- A call on ASCII text that returns has written inside of its block. -/
theorem tokenizeAscii_writes {tl tl' : TokenList} {buf : XmlStr} {n : Nat}
    (hascii : ∀ c ∈ cstr buf, c < 0x80)
    (hok : tokenizeAscii a m context block tl buf = .ok (tl', n)) :
    ∀ i ∈ asciiWrites a buf, i < block.length := by
  obtain ⟨token, hstore, hok⟩ := bind_ok_iff.mp hok
  obtain ⟨st, hloop, -⟩ := bind_ok_iff.mp hok
  have hin := asciiLoop_writes hascii (zero_notMem_cstr buf) hloop
  simp only [TokenizeState.cursor, Bool.false_eq_true, if_false, length_of_store hstore] at hin
  rw [asciiWrites, List.forall_mem_cons]
  exact ⟨(store_ok_iff.mp hstore).1, hin⟩

/-- A call on UTF-8 text that returns has written inside of its block. -/
theorem tokenizeUtf8_writes {tl tl' : TokenList} {buf : XmlStr} {n : Nat}
    (hok : tokenizeUtf8 loc a m context block tl buf = .ok (tl', n)) :
    ∀ i ∈ utf8Writes loc a buf, i < block.length := by
  obtain ⟨bufLower, hlower, hok⟩ := bind_ok_iff.mp hok
  obtain ⟨st, hloop, -⟩ := bind_ok_iff.mp hok
  rw [utf8Writes, hlower]
  exact utf8Loop_writes hloop

end Calls

/-! ## Runs that fit -/

section Room

variable (a : Analyzer)

/-- A run of single bytes is shorter than the block.  The last byte of a text that stands alone
is only copied when a word of one character is too short. -/
def AsciiRoom (run : XmlStr) (atEnd : Bool) : Prop :=
  run = [] ∨ run.length < a.maxwordlen ∨ atEnd = true ∧ run.length = 1 ∧ a.minwordlen ≠ 1

instance (run : XmlStr) (atEnd : Bool) : Decidable (AsciiRoom a run atEnd) := by
  rw [AsciiRoom]
  infer_instance

/-- The bytes that are copied of a run: a character that would make them more than
`maxwordlen` is left out. -/
def keptBytes (maxwordlen : Nat) (run : List Nat) : Nat :=
  run.foldl (fun n c =>
    if maxwordlen < (encodeChar c).length + n then n else n + (encodeChar c).length) 0

/-- The loop ends the word of a run at the character behind it, or at its last one, if that is
neither its first nor left out. -/
def Utf8Closes (maxwordlen : Nat) (run : List Nat) (atEnd : Bool) : Prop :=
  atEnd = false ∨ 2 ≤ run.length ∧ keptBytes maxwordlen run.dropLast < keptBytes maxwordlen run

/-- What is copied of a run, and the NULs behind it, is shorter than the block. -/
def Utf8Room (run : List Nat) (atEnd : Bool) : Prop :=
  run = [] ∨ keptBytes a.maxwordlen run < a.maxwordlen ∧
    (Utf8Closes a.maxwordlen run atEnd → keptBytes a.maxwordlen run + 1 < a.maxwordlen)

instance (run : List Nat) (atEnd : Bool) : Decidable (Utf8Room a run atEnd) := by
  rw [Utf8Room, Utf8Closes]
  infer_instance

/-- The characters of a lowered buffer. -/
def lowerChars (loc : Locale) (buf : XmlStr) : List Nat :=
  match utf8StrTolower loc (cstr buf) with
  | .error _ => []
  | .ok bufLower => (mbstowcs bufLower).getD []

end Room

section Fits

variable {loc : Locale} {a : Analyzer} {w s : XmlStr} {vs ws : List Nat} {c : Nat}

/-- Where the ASCII loop stands behind a run that fits. -/
def asciiAt (w : XmlStr) : Cursor := if w = [] then none else some w.length

@[simp] theorem asciiAt_nil : asciiAt [] = none := rfl

theorem asciiAt_of_ne_nil (hw : w ≠ []) : asciiAt w = some w.length := if_neg hw

/-- The last byte of a text. -/
theorem asciiRoom_last (hmax : 1 ≤ a.maxwordlen) (c : XmlChar) :
    (∀ i ∈ (asciiCursor a (asciiAt w) false true).1, i < a.maxwordlen) ↔
      AsciiRoom a (w ++ [c]) true := by
  by_cases hw : w = []
  · subst hw
    rw [asciiAt_nil, asciiCursor]
    by_cases hmin : a.minwordlen = 1
    · rw [if_pos ⟨rfl, hmin⟩]
      simp [AsciiRoom, hmin]
      omega
    · rw [if_neg (by simp [hmin])]
      simp [AsciiRoom, hmin]
      omega
  · have hlen : w.length ≠ 0 := fun h => hw (List.length_eq_zero_iff.mp h)
    rw [asciiAt_of_ne_nil hw, asciiCursor, if_pos (.inr rfl)]
    simp [AsciiRoom, hw]
    omega

/-- Behind a byte that fills the block the run does not fit. -/
theorem not_asciiRoom_of_full {w s : XmlStr} (h₁ : 2 ≤ w.length) (h₂ : a.maxwordlen ≤ w.length) :
    ¬ ∀ r ∈ segmentsFrom isIgnoreWordAscii w s, AsciiRoom a r.1 r.2 := by
  intro hall
  obtain ⟨r, hr, hpre⟩ := exists_mem_segmentsFrom isIgnoreWordAscii w s
  have hlen := hpre.length_le
  rcases hall r hr with h | h | ⟨-, h, -⟩
  · rw [h, List.length_nil] at hlen
    omega
  · omega
  · omega

/-- The indices that are written for a text go on from where the run before it ends. -/
theorem asciiWritesFrom_lt_iff (hmax : 1 ≤ a.maxwordlen)
    (hw : w ≠ [] → s ≠ [] ∧ (w.length < a.maxwordlen ∨ w.length = 1)) :
    (∀ i ∈ asciiWritesFrom a (asciiAt w) s, i < a.maxwordlen) ↔
      ∀ r ∈ segmentsFrom isIgnoreWordAscii w s, AsciiRoom a r.1 r.2 := by
  induction s generalizing w with
  | nil =>
      have hnil : w = [] := by
        by_contra hne
        exact (hw hne).1 rfl
      subst hnil
      simp [asciiWritesFrom, AsciiRoom]
  | cons c rest ih =>
      rw [asciiWritesFrom, List.forall_mem_append]
      cases hc : isIgnoreWordAscii c with
      | true =>
          have hrest := ih (w := []) (by simp)
          rw [segmentsFrom_sep hc, List.forall_mem_cons, segments, ← hrest]
          refine and_congr ?_ (by cases asciiAt w <;> rfl)
          by_cases hne : w = []
          · subst hne
            simp [asciiCursor, AsciiRoom]
          · rw [asciiAt_of_ne_nil hne]
            simp [asciiCursor, AsciiRoom, hne]
      | false =>
          rw [segmentsFrom_word hc]
          by_cases hlast : rest = []
          · subst hlast
            rw [List.isEmpty_nil, asciiRoom_last hmax c]
            simp [asciiWritesFrom]
          · rw [List.isEmpty_eq_false_iff.mpr hlast]
            by_cases hne : w = []
            · subst hne
              have hnext := ih (w := [c]) (by simp [hlast])
              rw [List.nil_append, ← hnext, asciiAt_nil, asciiCursor, if_neg (by simp)]
              simp [asciiAt]
              omega
            · have hlen : w.length ≠ 0 := fun h => hne (List.length_eq_zero_iff.mp h)
              rw [asciiAt_of_ne_nil hne, asciiCursor]
              by_cases hfull : a.maxwordlen ≤ w.length + 1
              · rw [if_pos (.inl hfull)]
                refine iff_of_false ?_ (not_asciiRoom_of_full (by simp; omega) (by simpa))
                simp
                omega
              · have hnext := ih (w := w ++ [c]) (fun _ => ⟨hlast, .inl (by simp; omega)⟩)
                rw [if_neg (by simp [hfull]), ← hnext, asciiAt_of_ne_nil (by simp)]
                simp
                omega

/-! ### UTF-8 -/

theorem keptBytes_concat (max : Nat) (ws : List Nat) (c : Nat) :
    keptBytes max (ws ++ [c]) =
      if max < (encodeChar c).length + keptBytes max ws then keptBytes max ws
      else keptBytes max ws + (encodeChar c).length := by
  rw [keptBytes, List.foldl_append]
  rfl

@[simp] theorem keptBytes_nil (max : Nat) : keptBytes max [] = 0 := rfl

theorem keptBytes_singleton (max c : Nat) :
    keptBytes max [c] = if max < (encodeChar c).length then 0 else (encodeChar c).length := by
  simpa using keptBytes_concat max [] c

theorem keptBytes_mono (max : Nat) (h : ws <+: vs) : keptBytes max ws ≤ keptBytes max vs := by
  obtain ⟨us, rfl⟩ := h
  induction us using List.reverseRecOn with
  | nil => simp
  | append_singleton us c ih =>
      rw [← List.append_assoc, keptBytes_concat]
      split
      · exact ih
      · omega

/-- Where the UTF-8 loop stands behind a run that fits. -/
def utf8At (a : Analyzer) (ws : List Nat) : Cursor :=
  if ws = [] then none else some (keptBytes a.maxwordlen ws)

@[simp] theorem utf8At_nil : utf8At a [] = none := rfl

theorem utf8At_of_ne_nil (hws : ws ≠ []) : utf8At a ws = some (keptBytes a.maxwordlen ws) :=
  if_neg hws

theorem utf8Room_iff (hws : ws ≠ []) (atEnd : Bool) :
    Utf8Room a ws atEnd ↔ keptBytes a.maxwordlen ws < a.maxwordlen ∧
      (Utf8Closes a.maxwordlen ws atEnd → keptBytes a.maxwordlen ws + 1 < a.maxwordlen) :=
  or_iff_right hws

/-- A character that is ignored. -/
theorem utf8Room_behind (hmax : keptBytes a.maxwordlen ws < a.maxwordlen) (n : Nat)
    (last : Bool) :
    (∀ i ∈ (utf8Cursor a (utf8At a ws) true n last).1, i < a.maxwordlen) ↔
      Utf8Room a ws false := by
  by_cases hws : ws = []
  · subst hws
    simp [utf8Cursor, Utf8Room]
  · rw [utf8At_of_ne_nil hws, utf8Room_iff hws]
    simp [utf8Cursor, Utf8Closes, hmax]

/-- The indices of a first character of `n` bytes. -/
theorem start_lt_iff {max n : Nat} {more : List Nat} (hmax : 0 < max) :
    (∀ i ∈ 0 :: (List.range n ++ n :: more), i < max) ↔ n < max ∧ ∀ i ∈ more, i < max := by
  simp only [List.forall_mem_cons, List.forall_mem_append, List.mem_range]
  refine ⟨fun h => h.2.2, fun h => ⟨hmax, fun i hi => ?_, h⟩⟩
  exact hi.trans h.1

/-- The last character of a text. -/
theorem utf8Room_last (hws : keptBytes a.maxwordlen ws < a.maxwordlen)
    (hc : isScalar c) :
    (∀ i ∈ (utf8Cursor a (utf8At a ws) false (encodeChar c).length true).1, i < a.maxwordlen) ↔
      Utf8Room a (ws ++ [c]) true := by
  have hwidth := (length_encodeChar hc).1
  rw [utf8Room_iff (by simp)]
  by_cases hnil : ws = []
  · subst hnil
    rw [keptBytes_nil] at hws
    have hopen : ¬ Utf8Closes a.maxwordlen [c] true := by simp [Utf8Closes]
    rw [utf8At_nil, utf8Cursor, List.nil_append, keptBytes_singleton]
    by_cases hlong : a.maxwordlen < (encodeChar c).length
    · rw [if_pos hlong, if_pos hlong]
      simp [hopen]
    · rw [if_neg hlong, if_neg hlong]
      by_cases hmin : a.minwordlen = 1
      · rw [if_pos ⟨rfl, hmin⟩, start_lt_iff hws]
        simp [hopen]
      · rw [if_neg (by simp [hmin]), start_lt_iff hws]
        simp [hopen]
  · have hcloses : Utf8Closes a.maxwordlen (ws ++ [c]) true ↔
        keptBytes a.maxwordlen ws < keptBytes a.maxwordlen (ws ++ [c]) := by
      have hpos := List.length_pos_iff.mpr hnil
      rw [Utf8Closes, List.dropLast_concat]
      simp only [List.length_append, List.length_singleton, Bool.true_eq_false, false_or]
      exact and_iff_right (by omega)
    have hkept := keptBytes_concat a.maxwordlen ws c
    rw [utf8At_of_ne_nil hnil, utf8Cursor, hcloses]
    by_cases hlong : a.maxwordlen < (encodeChar c).length + keptBytes a.maxwordlen ws
    · rw [if_pos hlong] at hkept
      rw [if_pos hlong, hkept]
      simp [hws]
    · rw [if_neg hlong] at hkept
      rw [if_neg hlong, if_pos (.inr rfl), hkept, List.forall_mem_append]
      simp only [mem_range_map_add, List.forall_mem_cons]
      constructor
      · rintro ⟨-, hlt, hlt', -⟩
        exact ⟨hlt, fun _ => hlt'⟩
      · rintro ⟨hlt, hlt'⟩
        exact ⟨fun i hi => by omega, hlt, hlt' (by omega), by simp⟩

/-- Where what is copied fills the block the run does not fit. -/
theorem not_utf8Room_of_full {xs : List Nat} (hws : ws ≠ [])
    (hfull : a.maxwordlen ≤ keptBytes a.maxwordlen ws) :
    ¬ ∀ r ∈ segmentsFrom (isIgnoreWordUtf8 loc) ws xs, Utf8Room a r.1 r.2 := by
  intro hall
  obtain ⟨r, hr, hpre⟩ := exists_mem_segmentsFrom (isIgnoreWordUtf8 loc) ws xs
  have hkept := keptBytes_mono a.maxwordlen hpre
  have hne : r.1 ≠ [] := by
    intro hnil
    rw [hnil] at hpre
    exact hws (List.prefix_nil.mp hpre)
  have := ((utf8Room_iff hne r.2).mp (hall r hr)).1
  omega

/-- A character that is not the last one of the text. -/
theorem utf8Cursor_word (hws : keptBytes a.maxwordlen ws < a.maxwordlen) (hc : isScalar c) :
    ((∀ i ∈ (utf8Cursor a (utf8At a ws) false (encodeChar c).length false).1, i < a.maxwordlen) ↔
      keptBytes a.maxwordlen (ws ++ [c]) < a.maxwordlen) ∧
    (keptBytes a.maxwordlen (ws ++ [c]) < a.maxwordlen →
      (utf8Cursor a (utf8At a ws) false (encodeChar c).length false).2 = utf8At a (ws ++ [c])) := by
  have hwidth := (length_encodeChar hc).1
  rw [utf8At_of_ne_nil (List.append_ne_nil_of_right_ne_nil ws (List.cons_ne_nil c []))]
  by_cases hnil : ws = []
  · subst hnil
    rw [keptBytes_nil] at hws
    rw [utf8At_nil, utf8Cursor, List.nil_append, keptBytes_singleton]
    by_cases hlong : a.maxwordlen < (encodeChar c).length
    · rw [if_pos hlong, if_pos hlong]
      exact ⟨by simp, fun _ => rfl⟩
    · rw [if_neg hlong, if_neg hlong, if_neg (by simp), start_lt_iff hws]
      exact ⟨by simp, fun _ => rfl⟩
  · rw [utf8At_of_ne_nil hnil, utf8Cursor, keptBytes_concat]
    by_cases hlong : a.maxwordlen < (encodeChar c).length + keptBytes a.maxwordlen ws
    · rw [if_pos hlong, if_pos hlong]
      exact ⟨by simp [hws], fun _ => rfl⟩
    · rw [if_neg hlong, if_neg hlong]
      by_cases hfull : a.maxwordlen ≤ keptBytes a.maxwordlen ws + (encodeChar c).length
      · rw [if_pos (.inl hfull), List.forall_mem_append]
        refine ⟨iff_of_false ?_ (Nat.not_lt.mpr hfull), fun h => absurd h (Nat.not_lt.mpr hfull)⟩
        rintro ⟨-, h⟩
        exact absurd (h _ (by simp)) (Nat.not_lt.mpr hfull)
      · rw [if_neg (by simp [hfull]), List.forall_mem_append]
        simp only [mem_range_map_add, List.forall_mem_cons]
        refine ⟨⟨fun h => h.2.1, fun h => ⟨fun i hi => by omega, h, by simp⟩⟩, fun _ => ?_⟩
        trivial

/-- The indices that are written for a text go on from where the run before it ends. -/
theorem utf8WritesFrom_lt_iff (loc : Locale) (ws : List Nat) {xs : List Nat}
    (hmax : 1 ≤ a.maxwordlen) (hxs : ∀ c ∈ xs, isScalar c)
    (hkept : keptBytes a.maxwordlen ws < a.maxwordlen)
    (hws : ws ≠ [] → xs ≠ []) :
    (∀ i ∈ utf8WritesFrom loc a (utf8At a ws) (xs.map encodeChar), i < a.maxwordlen) ↔
      ∀ r ∈ segmentsFrom (isIgnoreWordUtf8 loc) ws xs, Utf8Room a r.1 r.2 := by
  induction xs generalizing ws with
  | nil =>
      have hnil : ws = [] := by
        by_contra hne
        exact hws hne rfl
      subst hnil
      simp [utf8WritesFrom, Utf8Room]
  | cons c rest ih =>
      have hc : isScalar c := hxs c (by simp)
      have hrest : ∀ d ∈ rest, isScalar d := fun d hd => hxs d (by simp [hd])
      have hstart : keptBytes a.maxwordlen [] < a.maxwordlen := hmax
      have hwidth := (length_encodeChar hc).1
      rw [List.map_cons, utf8WritesFrom, utf8Codepoint_encodeChar hc]
      simp only [List.forall_mem_append, List.isEmpty_map]
      cases hsep : isIgnoreWordUtf8 loc c with
      | true =>
          have hnext := ih [] hrest hstart (by simp)
          rw [segmentsFrom_sep hsep, List.forall_mem_cons, segments, ← hnext]
          refine and_congr (utf8Room_behind hkept _ _) ?_
          cases utf8At a ws <;> rfl
      | false =>
          rw [segmentsFrom_word hsep]
          by_cases hlast : rest = []
          · subst hlast
            rw [List.isEmpty_nil, utf8Room_last hkept hc]
            simp [utf8WritesFrom]
          · rw [List.isEmpty_eq_false_iff.mpr hlast]
            have hnext := fun h => ih (ws ++ [c]) hrest h fun _ => hlast
            have hstep := utf8Cursor_word hkept hc
            by_cases hfull : a.maxwordlen ≤ keptBytes a.maxwordlen (ws ++ [c])
            · refine iff_of_false (fun h => ?_) (not_utf8Room_of_full (by simp) hfull)
              exact absurd (hstep.1.mp h.1) (Nat.not_lt.mpr hfull)
            · have hlt := Nat.not_le.mp hfull
              rw [hstep.2 hlt, hnext hlt]
              exact and_iff_right (hstep.1.mpr hlt)

/-- A text that was lowered is the text of characters. -/
theorem utf8StrTolower_ok {t : XmlStr} (h : utf8StrTolower loc s = .ok t) :
    ∃ us, wcstombs us = some t ∧ us.all isScalar = true := by
  unfold utf8StrTolower at h
  cases hs : mbstowcs s with
  | none =>
      rw [hs] at h
      cases h
  | some us =>
      simp only [hs] at h
      by_cases hall : (us.map loc.towlower).all isScalar = true
      · rw [wcstombs, if_pos hall] at h
        cases h
        exact ⟨us.map loc.towlower, if_pos hall, hall⟩
      · rw [wcstombs, if_neg hall] at h
        cases h

/-- A lowered text is what the loop walks over. -/
theorem utf8Writes_eq (loc : Locale) (a : Analyzer) (buf : XmlStr) :
    utf8Writes loc a buf = utf8WritesFrom loc a none ((lowerChars loc buf).map encodeChar) ∧
      ∀ c ∈ lowerChars loc buf, isScalar c := by
  rw [utf8Writes, lowerChars]
  cases hlower : utf8StrTolower loc (cstr buf) with
  | error e => exact ⟨rfl, by simp⟩
  | ok bufLower =>
      obtain ⟨vs, hvs, hscalar⟩ := utf8StrTolower_ok hlower
      simp only [mbstowcs_wcstombs hvs, Option.getD_some]
      rw [wcstombs, if_pos hscalar, Option.some.injEq] at hvs
      have hall := List.all_eq_true.mp hscalar
      rw [← hvs, utf8Chrs_flatMap hall]
      exact ⟨rfl, hall⟩

end Fits

/-- **The loops write inside of the block** of `maxwordlen` bytes exactly if every run of word
characters fits. -/
theorem tokenWrites_lt_iff {a : Analyzer} (hmax : 1 ≤ a.maxwordlen) :
    (∀ buf : XmlStr, (∀ c ∈ cstr buf, c < 0x80) →
      ((∀ i ∈ asciiWrites a buf, i < a.maxwordlen) ↔
        ∀ r ∈ segments isIgnoreWordAscii (asciiStrTolower (cstr buf)), AsciiRoom a r.1 r.2)) ∧
    ∀ (loc : Locale) (buf : XmlStr), (mbstowcs (cstr buf)).isSome →
      ((∀ i ∈ utf8Writes loc a buf, i < a.maxwordlen) ↔
        ∀ r ∈ segments (isIgnoreWordUtf8 loc) (lowerChars loc buf), Utf8Room a r.1 r.2) := by
  refine ⟨fun buf _ => ?_, fun loc buf _ => ?_⟩
  · have h := asciiWritesFrom_lt_iff (a := a) (w := []) (s := asciiStrTolower (cstr buf)) hmax
      (by simp)
    rw [asciiWrites, List.forall_mem_cons, segments, ← h]
    exact and_iff_right hmax
  · obtain ⟨heq, hscalar⟩ := utf8Writes_eq loc a buf
    have h := utf8WritesFrom_lt_iff loc [] hmax hscalar hmax (by simp)
    rw [heq, segments, ← h]
    rfl

/-- Words of at most two bytes fit into a block of four. -/
theorem tokenWrites_short :
    (∀ i ∈ asciiWrites ⟨4, 1, true, fun tl _ _ _ => .ok (tl, 0)⟩ (lit "to be"), i < 4) ∧
      ∀ i ∈ utf8Writes .posix ⟨4, 1, true, fun tl _ _ _ => .ok (tl, 0)⟩
        (encodeChar 233 ++ lit " to"), i < 4 := by
  obtain ⟨hascii, hutf8⟩ :=
    tokenWrites_lt_iff (a := ⟨4, 1, true, fun tl _ _ _ => .ok (tl, 0)⟩) (by decide)
  refine ⟨(hascii (lit "to be") (by decide +kernel)).mpr ?_,
    (hutf8 .posix (encodeChar 233 ++ lit " to") (by decide +kernel)).mpr ?_⟩
  · decide +kernel
  · decide +kernel

/-- A word of four bytes is ended behind a block of four, and so is one of three bytes by the
loop over UTF-8 characters. -/
theorem tokenWrites_outside :
    ¬ (∀ i ∈ asciiWrites ⟨4, 1, true, fun tl _ _ _ => .ok (tl, 0)⟩ (lit "word"), i < 4) ∧
      ¬ ∀ i ∈ utf8Writes .posix ⟨4, 1, true, fun tl _ _ _ => .ok (tl, 0)⟩
        (encodeChar 233 ++ lit "t"), i < 4 := by
  refine ⟨?_, ?_⟩
  · decide +kernel
  · decide +kernel

end LibSwish3
