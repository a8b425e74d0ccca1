import LibSwish3.TokenizerStrip

/-!
# The words of an ASCII text

`scan` is the token list that the words of a text make: a word ends at a character that belongs
to none, at the maximal length and at the end of the text, and its core is added.  The loop of
`swish_tokenize_ascii` returns this list when the words fit into the work block.

## Main definitions

* `scan` — the token list that the words of a text make.
* `endedWords` — the words that are stripped.
* `asciiLoop_scan` — the loop over single bytes.
-/

namespace LibSwish3

open Runs

/-! ## The words of a text -/

/-- Add a token. -/
def TokenList.push (tl : TokenList) (value : XmlStr) (m : MetaName) (context : XmlStr) :
    TokenList where
  pos := tl.pos + 1
  tokens := tl.tokens ++ [⟨value ++ [0], value.length, tl.pos + 1, m, context⟩]

section Words

variable (a : Analyzer) (m : MetaName) (context : XmlStr)

/-- The core of a word is added unless it is too short. -/
def addCore (tl : TokenList) (w : XmlStr) : TokenList :=
  if core w ≠ [] ∧ a.minwordlen ≤ (core w).length + 1 then tl.push (core w) m context else tl

/-- A word ends at its maximal length and at the end of the text. -/
def Ends (w : XmlStr) (last : Bool) : Prop := a.maxwordlen ≤ w.length + 1 ∨ last

instance (w : XmlStr) (last : Bool) : Decidable (Ends a w last) := by
  rw [Ends]
  infer_instance

/-- The word that is begun behind the character `c`, if `w` is begun before it. -/
def nextWord (w : XmlStr) (c : XmlChar) (last : Bool) : XmlStr :=
  if isIgnoreWordAscii c then []
  else if w = [] then if last ∧ a.minwordlen = 1 then [] else [c]
  else if Ends a w last then [] else w ++ [c]

/-- The word that `c` ends. -/
def endedWord (w : XmlStr) (c : XmlChar) (last : Bool) : Option XmlStr :=
  if w = [] then none
  else if isIgnoreWordAscii c then some w
  else if Ends a w last then some (w ++ [c]) else none

/-- The tokens behind the character `c`. -/
def scanChar (tl : TokenList) (w : XmlStr) (c : XmlChar) (last : Bool) : TokenList :=
  if isIgnoreWordAscii c then
    if c = tokenposBumper then (addCore a m context tl w).bump else addCore a m context tl w
  else if w = [] then if last ∧ a.minwordlen = 1 then tl.push [c] m context else tl
  else if Ends a w last then addCore a m context tl (w ++ [c]) else tl

/-- The tokens of a text before which the word `w` is begun. -/
def scan : TokenList → XmlStr → XmlStr → TokenList
  | tl, _, [] => tl
  | tl, w, c :: rest =>
    scan (scanChar a m context tl w c rest.isEmpty) (nextWord a w c rest.isEmpty) rest

/-- The words of the text that are stripped. -/
def endedWords : XmlStr → XmlStr → List XmlStr
  | _, [] => []
  | w, c :: rest =>
    (endedWord a w c rest.isEmpty).toList ++ endedWords (nextWord a w c rest.isEmpty) rest

end Words

/-! ## A word in the work block -/

/-- The state between two characters: the tokens so far and the word that is begun. -/
structure Holds (room : Nat) (tl : TokenList) (w : XmlStr) (st : TokenizeState) : Prop where
  tl : st.tl = tl
  room : st.token.length = room
  insideToken : st.insideToken = !w.isEmpty
  tokenLen : w ≠ [] → st.tokenLen = w.length
  token : w <+: st.token

section Tokens

variable {a : Analyzer} {m : MetaName} {context : XmlStr} {tl : TokenList} {v w rest : XmlStr}
  {c : XmlChar} {last : Bool} {room : Nat} {st st' : TokenizeState} {loc : Locale}

theorem addCore_nil : addCore a m context tl [] = tl := rfl

@[simp] theorem TokenizeState.bump_of_word (h : isIgnoreWordAscii c = false) :
    st.bump (decide (c = tokenposBumper)) = st := by
  have hne : c ≠ tokenposBumper := by
    rintro rfl
    exact absurd h (by decide)
  simp [TokenizeState.bump, hne]

theorem tokenListAddToken_append (hne : v ≠ []) (hzero : (0 : XmlChar) ∉ v) :
    tokenListAddToken tl (v ++ 0 :: rest) (v.length + 1) (some m) context =
      .ok (tl.push v m context) := by
  have htake : (v ++ 0 :: rest).take (v.length + 1) = v ++ [0] := by
    rw [List.take_length_add_append]
    rfl
  rw [tokenListAddToken, cstr_append hzero, if_neg (by simpa using hne), htake]
  rfl

theorem addStripped_append (hzero : (0 : XmlChar) ∉ v) :
    addStripped a (some m) context st (v ++ 0 :: rest) (v.length + 1) =
      .ok ⟨if v ≠ [] ∧ a.minwordlen ≤ v.length + 1 then st.tl.push v m context else st.tl,
        false, v ++ 0 :: rest, v.length + 1⟩ := by
  cases v with
  | nil => simp [addStripped]
  | cons c v =>
      have hc : c ≠ 0 := fun h => hzero (by simp [h])
      rw [addStripped, List.cons_append, load_cons_zero, ok_bind]
      by_cases hmin : a.minwordlen ≤ (c :: v).length + 1
      · rw [if_pos ⟨hc, hmin⟩, if_pos ⟨by simp, hmin⟩, ← List.cons_append,
          tokenListAddToken_append (by simp) hzero]
        rfl
      · rw [if_neg fun h => hmin h.2, if_neg fun h => hmin h.2]
        rfl

/-- A word that is begun is followed by a byte of the block. -/
theorem Holds.split (h : Holds room tl w st) (hroom : w.length < room) :
    ∃ x rest, st.token = w ++ x :: rest ∧ w.length + 1 + rest.length = room := by
  obtain ⟨rest, hrest⟩ := h.token
  cases rest with
  | nil =>
      have hlen := congrArg List.length hrest
      rw [h.room] at hlen
      simp at hlen
      omega
  | cons x rest =>
      refine ⟨x, rest, hrest.symm, ?_⟩
      have hlen := congrArg List.length hrest
      rw [h.room] at hlen
      simp at hlen
      omega

theorem holds_nil (htl : st.tl = tl) (hinside : st.insideToken = false)
    (hroom : st.token.length = room) : Holds room tl [] st :=
  ⟨htl, hroom, hinside, fun h => absurd rfl h, List.nil_prefix⟩

theorem Holds.bump (h : Holds room tl [] st) (isBumper : Bool) :
    Holds room (if isBumper then tl.bump else tl) [] (st.bump isBumper) := by
  cases isBumper with
  | false => exact h
  | true =>
      obtain ⟨rfl, hroom, hinside, -, -⟩ := h
      exact holds_nil rfl hinside hroom

/-! ## Single bytes -/

variable (a m context) in
theorem endAscii_holds (h : Holds room tl w st) (hne : w ≠ []) (hw : IsWord w)
    (hroom : w.length < room) :
    ∃ st', endAscii a (some m) context st = .ok st' ∧
      Holds room (addCore a m context tl w) [] st' := by
  obtain ⟨x, rest, htoken, hlen⟩ := h.split hroom
  obtain ⟨rest', hstrip, hlen'⟩ :=
    stripAsciiChrs_append (z := rest) hw.ascii hw.zero_notMem
  refine ⟨⟨addCore a m context tl w, false, core w ++ 0 :: rest', (core w).length + 1⟩, ?_,
    holds_nil rfl rfl ?_⟩
  · rw [endAscii, htoken, h.tokenLen hne, store_append, ok_bind, hstrip, ok_bind, ← h.tl]
    exact addStripped_append (zero_notMem_core hw.zero_notMem)
  · rw [hlen']
    simp
    omega

/-- The start of a block with room for two bytes. -/
theorem Holds.two (h : Holds room tl w st) (hroom : 2 ≤ room) :
    ∃ x y rest, st.token = x :: y :: rest ∧ rest.length + 2 = room := by
  obtain ⟨-, hlen, -, -, -⟩ := h
  match hblock : st.token with
  | x :: y :: rest => exact ⟨x, y, rest, rfl, by simpa [hblock] using hlen⟩
  | [x] =>
      simp [hblock] at hlen
      omega
  | [] =>
      simp [hblock] at hlen
      omega

theorem startAscii_holds (h : Holds room tl [] st) (hword : isIgnoreWordAscii c = false)
    {nextc : XmlChar} (hlast : nextc = 0 ↔ last = true) (hroom : 2 ≤ room) :
    ∃ st', startAscii a (some m) context st c nextc = .ok st' ∧
      Holds room (if last ∧ a.minwordlen = 1 then tl.push [c] m context else tl)
        (if last ∧ a.minwordlen = 1 then [] else [c]) st' := by
  obtain ⟨x, y, rest, htoken, hlen⟩ := h.two hroom
  have hzero : (0 : XmlChar) ∉ [c] := by simpa using (ne_zero_of_word hword).symm
  by_cases hwhole : last = true ∧ a.minwordlen = 1
  · refine ⟨⟨tl.push [c] m context, false, c :: 0 :: rest, 2⟩, ?_, ?_⟩
    · rw [startAscii, htoken, store_cons_zero, ok_bind,
        if_pos ⟨hlast.mpr hwhole.1, hwhole.2⟩,
        show store (c :: y :: rest) 1 0 = .ok (c :: 0 :: rest) by simp [store], ok_bind,
        show c :: 0 :: rest = [c] ++ 0 :: rest from rfl, h.tl]
      rw [show (2 : Nat) = [c].length + 1 from rfl,
        tokenListAddToken_append (by simp) hzero, ok_bind]
      exact congrArg _ (TokenizeState.bump_of_word hword)
    · rw [if_pos hwhole, if_pos hwhole]
      exact holds_nil rfl rfl (by simpa using hlen)
  · refine ⟨⟨tl, true, c :: y :: rest, 1⟩, ?_, ?_⟩
    · rw [startAscii, htoken, store_cons_zero, ok_bind,
        if_neg fun hc => hwhole ⟨hlast.mp hc.1, hc.2⟩, h.tl]
      exact congrArg _ (TokenizeState.bump_of_word hword)
    · rw [if_neg hwhole, if_neg hwhole]
      exact ⟨rfl, by simpa using hlen, rfl, fun _ => rfl, by simp⟩

/-- The word grows by a byte, and there is one more behind it. -/
theorem Holds.append (h : Holds room tl w st) (hne : w ≠ []) (hroom : w.length < room) :
    ∃ token, store st.token st.tokenLen c = .ok token ∧
      Holds room tl (w ++ [c]) { st with token := token, tokenLen := st.tokenLen + 1 } := by
  obtain ⟨x, rest, htoken, hlen⟩ := h.split hroom
  refine ⟨w ++ c :: rest, ?_, ⟨h.tl, ?_, ?_, ?_, ?_⟩⟩
  · rw [htoken, h.tokenLen hne, store_append]
  · simp
    omega
  · simp [h.insideToken, List.isEmpty_eq_false_iff.mpr hne]
  · intro _
    simp [h.tokenLen hne]
  · simp

variable (a m context) in
theorem appendAscii_holds (h : Holds room tl w st) (hne : w ≠ []) (hw : IsWord (w ++ [c]))
    {nextc : XmlChar} (hlast : nextc = 0 ↔ last = true) (hroom : w.length < room)
    (hended : Ends a w last → w.length + 1 < room) :
    ∃ st', appendAscii a (some m) context st c nextc = .ok st' ∧
      Holds room (if Ends a w last then addCore a m context tl (w ++ [c]) else tl)
        (if Ends a w last then [] else w ++ [c]) st' := by
  have hword : isIgnoreWordAscii c = false := hw.word c (by simp)
  obtain ⟨token, hstore, h₁⟩ := h.append (c := c) hne hroom
  have hends : (a.maxwordlen ≤ st.tokenLen + 1 ∨ nextc = 0) ↔ Ends a w last := by
    rw [Ends, h.tokenLen hne, hlast]
  rw [appendAscii, hstore, ok_bind]
  by_cases hend : Ends a w last
  · obtain ⟨st₂, hok, h₂⟩ := endAscii_holds a m context h₁ (by simp) hw
      (by simpa using hended hend)
    refine ⟨st₂, ?_, by simpa [hend] using h₂⟩
    rw [if_pos (hends.mpr hend), hok, ok_bind, TokenizeState.bump_of_word hword]
    rfl
  · refine ⟨_, ?_, by simpa [hend] using h₁⟩
    rw [if_neg fun h => hend (hends.mp h), TokenizeState.bump_of_word hword]
    rfl

variable (a m context) in
theorem asciiStep_holds (h : Holds room tl w st) (hw : IsWord w) (hc : c < 0x80)
    {nextc : XmlChar} (hlast : nextc = 0 ↔ last = true) (hmax : a.maxwordlen ≤ room)
    (hended : ∀ v ∈ endedWord a w c last, v.length < room)
    (hstart : isIgnoreWordAscii c = false → 2 ≤ room) :
    ∃ st', asciiStep a (some m) context st c nextc = .ok st' ∧
      Holds room (scanChar a m context tl w c last) (nextWord a w c last) st' := by
  rw [asciiStep, asciiWordTable_of_lt hc, ok_bind]
  by_cases hignore : isIgnoreWordAscii c = true
  · simp only [scanChar, nextWord, hignore, Bool.not_true, Bool.false_eq_true, if_false, if_true,
      ignoreAscii, h.insideToken]
    by_cases hne : w = []
    · subst hne
      simpa [addCore_nil] using h.bump (decide (c = tokenposBumper))
    · obtain ⟨st₁, hend, h₁⟩ := endAscii_holds a m context h hne hw
        (hended w (by simp [endedWord, hne, hignore]))
      simpa [hne, hend] using h₁.bump (decide (c = tokenposBumper))
  · have hword : isIgnoreWordAscii c = false := by simpa using hignore
    simp only [scanChar, nextWord, hword, Bool.not_false, Bool.false_eq_true, if_false, if_true,
      h.insideToken]
    by_cases hne : w = []
    · subst hne
      exact startAscii_holds h hword hlast (hstart hword)
    · have hroom : Ends a w last → w.length + 1 < room := by
        intro hend
        simpa using hended (w ++ [c]) (by simp [endedWord, hne, hword, hend])
      have hfits : w.length < room := by
        by_cases hend : Ends a w last
        · exact Nat.lt_of_succ_lt (hroom hend)
        · have : ¬ a.maxwordlen ≤ w.length + 1 := fun h => hend (.inl h)
          omega
      simpa [hne] using appendAscii_holds a m context h hne
        (hw.concat hc hword) hlast hfits hroom

theorem isWord_nextWord (hw : IsWord w) (hc : c < 0x80) : IsWord (nextWord a w c last) := by
  rw [nextWord]
  by_cases hignore : isIgnoreWordAscii c = true
  · simpa [hignore] using isWord_nil
  · have hword : isIgnoreWordAscii c = false := by simpa using hignore
    rw [if_neg hignore]
    by_cases hne : w = []
    · rw [if_pos hne]
      split
      · exact isWord_nil
      · exact isWord_nil.concat hc hword
    · rw [if_neg hne]
      split
      · exact isWord_nil
      · exact hw.concat hc hword

theorem tolower_eq_zero_iff : tolower c = 0 ↔ c = 0 := by
  simp only [← UInt8.toNat_inj, toNat_tolower, UInt8.reduceToNat]
  split <;> omega

/-- A lowered text ends where the text does. -/
theorem tolower_headD_eq_zero_iff {s : XmlStr} (hzero : (0 : XmlChar) ∉ s) :
    tolower (s.headD 0) = 0 ↔ (asciiStrTolower s).isEmpty = true := by
  cases s with
  | nil => simp [asciiStrTolower, tolower_eq_zero_iff]
  | cons d s =>
      have hd : d ≠ 0 := fun h => hzero (by simp [h])
      simp [asciiStrTolower, tolower_eq_zero_iff, hd]

variable (a m context) in
/-- `swish_tokenize_ascii` adds the words that `scan` says, where they fit. -/
theorem asciiLoop_scan {s : XmlStr} (h : Holds room tl w st) (hw : IsWord w)
    (hs : ∀ c ∈ s, c < 0x80) (hzero : (0 : XmlChar) ∉ s) (hmax : a.maxwordlen ≤ room)
    (hended : ∀ v ∈ endedWords a w (asciiStrTolower s), v.length < room)
    (hstart : ∀ c ∈ asciiStrTolower s, isIgnoreWordAscii c = false → 2 ≤ room) :
    ∃ st', asciiLoop a (some m) context st s = .ok st' ∧
      st'.tl = scan a m context tl w (asciiStrTolower s) := by
  induction s generalizing st tl w with
  | nil => exact ⟨st, rfl, h.tl⟩
  | cons b rest ih =>
      have hb : tolower b < 0x80 := tolower_lt (hs b (by simp))
      have hrest : (0 : XmlChar) ∉ rest := fun h => hzero (by simp [h])
      obtain ⟨st₁, hstep, h₁⟩ := asciiStep_holds a m context h hw hb
        (tolower_headD_eq_zero_iff hrest) hmax
        (fun v hv => hended v (by simp [asciiStrTolower, endedWords] at hv ⊢; exact .inl hv))
        (hstart (tolower b) (by simp [asciiStrTolower]))
      obtain ⟨st₂, hloop, h₂⟩ := ih h₁ (isWord_nextWord hw hb) (fun c hc => hs c (by simp [hc]))
        hrest
        (fun v hv => hended v (by simp [asciiStrTolower, endedWords] at hv ⊢; exact .inr hv))
        (fun c hc => hstart c (by simp [asciiStrTolower] at hc ⊢; exact .inr hc))
      exact ⟨st₂, by rw [asciiLoop, hstep, ok_bind, hloop], h₂⟩

end Tokens

end LibSwish3
