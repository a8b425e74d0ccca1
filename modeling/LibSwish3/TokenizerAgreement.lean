import LibSwish3.TokenizerWords
import LibSwish3.Utf8Strip

/-!
# The two tokenizers on ASCII text

Both loops cut the text into the same words, as long as no word is longer than the limit, and
add the core of each word to the token list.  `tokenizeAscii` always does when the words fit
into the work block.  `tokenizeUtf8` does exactly when it strips every word as it should: it
needs one more byte in the block, its array `chr` has to hold the end of the word, and the word
may not start with an apostrophe or an underscore unless nothing else is in it.

## Main definitions

* `KeptWord` — a word of which both tokenizers keep the same.
* `KeepsWords` — a text all of whose words are kept.
* `tokenizers_agree` — the tokenizers agree where all words are kept.
-/

namespace LibSwish3

open Runs

section Tokens

variable {a : Analyzer} {m : MetaName} {context : XmlStr} {tl : TokenList} {v w rest : XmlStr}
  {c : XmlChar} {last : Bool} {room : Nat} {st st' : TokenizeState} {loc : Locale}

/-! ## UTF-8 characters -/

/-- A word that both tokenizers strip to its core. -/
structure KeptWord (maxwordlen room : Nat) (w : XmlStr) : Prop where
  /-- No character was dropped. -/
  short : w.length ≤ maxwordlen
  /-- There is room for two NULs behind it. -/
  room : w.length + 2 ≤ room
  trailing : TrailingFits w
  /-- Once its end is stripped, nothing is left to strip at its start. -/
  starts : core w = w.rdropWhile isIgnoreAscii

instance (maxwordlen room : Nat) (w : XmlStr) : Decidable (KeptWord maxwordlen room w) :=
  decidable_of_iff (w.length ≤ maxwordlen ∧ w.length + 2 ≤ room ∧ TrailingFits w ∧
      core w = w.rdropWhile isIgnoreAscii)
    ⟨fun ⟨h₁, h₂, h₃, h₄⟩ => ⟨h₁, h₂, h₃, h₄⟩, fun ⟨h₁, h₂, h₃, h₄⟩ => ⟨h₁, h₂, h₃, h₄⟩⟩

/-- The state between two characters; the word is a string already. -/
structure HoldsStr (room : Nat) (tl : TokenList) (w : XmlStr) (st : TokenizeState) : Prop
    extends Holds room tl w st where
  nul : w ≠ [] → w ++ [0] <+: st.token

theorem Holds.str (h : Holds room tl [] st) : HoldsStr room tl [] st :=
  ⟨h, fun hne => absurd rfl hne⟩

/-- The second NUL has to fit. -/
theorem endUtf8_room (h : Holds room tl w st) (hne : w ≠ [])
    (hok : endUtf8 loc a (some m) context st = .ok st') : w.length + 2 ≤ room := by
  obtain ⟨token, hstore, -⟩ := bind_ok_iff.mp hok
  obtain ⟨hlt, -⟩ := store_ok_iff.mp hstore
  rw [h.tokenLen hne, h.room] at hlt
  omega

variable (a m context loc) in
/-- Then the word is stripped. -/
theorem endUtf8_eq (h : HoldsStr room tl w st) (hne : w ≠ []) (hroom : w.length + 2 ≤ room) :
    ∃ rest, w.length + 1 + rest.length = room ∧
      endUtf8 loc a (some m) context st = (do
        let p ← stripUtf8Chrs loc (w ++ 0 :: rest) (w.length + 1)
        addStripped a (some m) context st p.1 p.2) := by
  obtain ⟨rest, hrest⟩ := h.nul hne
  have hlen := congrArg List.length hrest
  rw [h.room] at hlen
  cases rest with
  | nil =>
      simp at hlen
      omega
  | cons x rest =>
      refine ⟨0 :: rest, by simpa [Nat.add_assoc, Nat.add_comm, Nat.add_left_comm] using hlen, ?_⟩
      have hstore : store st.token (st.tokenLen + 1) 0 = .ok (w ++ 0 :: 0 :: rest) := by
        have hafter := store_append (w := w ++ [0]) (x := x) (z := rest) (c := 0)
        rw [← hrest, h.tokenLen hne]
        simpa using hafter
      rw [endUtf8, hstore, ok_bind, h.tokenLen hne]

variable (a m context) in
theorem endUtf8_holds (ha : loc.AsciiAgrees) (h : HoldsStr room tl w st) (hne : w ≠ [])
    (hw : IsWord w) (hkept : KeptWord a.maxwordlen room w) :
    ∃ st', endUtf8 loc a (some m) context st = .ok st' ∧
      Holds room (addCore a m context tl w) [] st' := by
  obtain ⟨rest, hlen, heq⟩ := endUtf8_eq a m context loc h hne
    hkept.room
  obtain ⟨rest', hstrip, hlen'⟩ := stripUtf8Chrs_append (z := rest) ha hw hkept.trailing
    hkept.starts
  refine ⟨⟨addCore a m context tl w, false, core w ++ 0 :: rest', (core w).length + 1⟩, ?_,
    holds_nil rfl rfl ?_⟩
  · rw [heq, hstrip, ok_bind, ← h.tl]
    exact addStripped_append (zero_notMem_core hw.zero_notMem)
  · rw [hlen']
    simp
    omega

theorem addStripped_ok {token : XmlStr} {len : Nat}
    (hok : addStripped a (some m) context st token len = .ok st') :
    st'.insideToken = false ∧ st'.token = token ∧
      (st'.tl = st.tl ∨ token.head? ≠ some 0 ∧
        ∃ t, st'.tl.tokens = st.tl.tokens ++ [t] ∧ t.value = token.take (len - 1)) := by
  obtain ⟨c, hload, hok⟩ := bind_ok_iff.mp hok
  by_cases hadd : c ≠ 0 ∧ a.minwordlen ≤ len
  · rw [if_pos hadd] at hok
    obtain ⟨tl', htl, hok⟩ := bind_ok_iff.mp hok
    cases hok
    unfold tokenListAddToken at htl
    split at htl
    · cases htl
    · cases htl
      refine ⟨rfl, rfl, .inr ⟨?_, _, rfl, ?_⟩⟩
      · cases token with
        | nil => simp
        | cons d token =>
            cases hload
            simpa using hadd.1
      · simp [Token.value, List.take_take]
  · rw [if_neg hadd] at hok
    cases hok
    exact ⟨rfl, rfl, .inl rfl⟩

/-- A stripped word that starts as the core is the core. -/
theorem core_eq_of_head {z : XmlStr} {n : Nat} (hcore : core w ≠ [])
    (h : (w.rdropWhile isIgnoreAscii ++ z).take n = core w) :
    core w = w.rdropWhile isIgnoreAscii := by
  unfold core at hcore h ⊢
  cases hr : w.rdropWhile isIgnoreAscii with
  | nil => rfl
  | cons c r =>
      rw [hr] at hcore h
      by_cases hc : isIgnoreAscii c = true
      · cases n with
        | zero => exact absurd h.symm hcore
        | succ n =>
            have hnot := List.head_dropWhile_not isIgnoreAscii hcore
            have hsome : ((c :: r).dropWhile isIgnoreAscii).head hcore = c := by
              simp only [← h, List.cons_append, List.take_succ_cons, List.head_cons]
            rw [hsome, hc] at hnot
            cases hnot
      · rw [List.dropWhile_cons_of_neg hc]

/-- What ending any word can add. -/
theorem endUtf8_ok (ha : loc.AsciiAgrees) (h : HoldsStr room tl w st) (hne : w ≠ [])
    (hw : IsWord w) (hok : endUtf8 loc a (some m) context st = .ok st') :
    TrailingFits w ∧ st'.insideToken = false ∧ st'.token.length = room ∧
      (st'.tl = tl ∨ core w ≠ [] ∧ ∃ t, st'.tl.tokens = tl.tokens ++ [t] ∧
        (t.value = core w → core w = w.rdropWhile isIgnoreAscii)) := by
  have hroom := endUtf8_room h.toHolds hne hok
  obtain ⟨rest, hlen, heq⟩ := endUtf8_eq a m context loc h hne
    hroom
  rw [heq] at hok
  obtain ⟨⟨token, len⟩, hstrip, hadd⟩ := bind_ok_iff.mp hok
  obtain ⟨htrailing, htoken⟩ := stripUtf8Chrs_ok ha hw.ascii hstrip
  obtain ⟨hinside, hblock, htl⟩ := addStripped_ok hadd
  have hlength : (w.rdropWhile isIgnoreAscii).length + (w.rtakeWhile isIgnoreAscii).length =
      w.length := by
    rw [← List.length_append, List.rdropWhile_append_rtakeWhile]
  refine ⟨htrailing, hinside, ?_, ?_⟩
  · rw [hblock, htoken]
    simp
    omega
  · rcases htl with htl | ⟨hhead, t, htokens, hvalue⟩
    · exact .inl (htl.trans h.tl)
    · have hcore : core w ≠ [] := by
        intro hnil
        rw [core_eq_nil_iff.mp hnil] at htoken
        exact hhead (by rw [htoken]; rfl)
      refine .inr ⟨hcore, t, by rw [htokens, h.tl], ?_⟩
      intro heq'
      rw [hvalue, htoken] at heq'
      exact core_eq_of_head hcore heq'

@[simp] theorem TokenizeState.bump_of_word_toNat (h : isIgnoreWordAscii c = false) :
    st.bump (decide (c.toNat = tokenposBumper.toNat)) = st := by
  rw [show decide (c.toNat = tokenposBumper.toNat) = decide (c = tokenposBumper) from
    decide_eq_decide.mpr UInt8.toNat_inj, TokenizeState.bump_of_word h]

/-- The string grows by a byte. -/
theorem HoldsStr.append (h : HoldsStr room tl w st) (hne : w ≠ []) (hroom : w.length + 2 ≤ room) :
    ∃ token token', store st.token st.tokenLen c = .ok token ∧
      store token (st.tokenLen + 1) 0 = .ok token' ∧
      HoldsStr room tl (w ++ [c]) { st with token := token', tokenLen := st.tokenLen + 1 } := by
  obtain ⟨x, rest, htoken, hlen⟩ := h.split (by omega)
  cases rest with
  | nil =>
      simp at hlen
      omega
  | cons y rest =>
      have hafter := store_append (w := w ++ [c]) (x := y) (z := rest) (c := 0)
      refine ⟨w ++ c :: y :: rest, w ++ c :: 0 :: rest, ?_, ?_, ⟨h.tl, ?_, ?_, ?_, ?_⟩, ?_⟩
      · rw [htoken, h.tokenLen hne, store_append]
      · rw [h.tokenLen hne]
        simpa using hafter
      · simp at hlen ⊢
        omega
      · simp [h.insideToken, List.isEmpty_eq_false_iff.mpr hne]
      · intro _
        simp [h.tokenLen hne]
      · simp
      · intro _
        simp

variable (a m context last loc) in
/-- A byte that is not dropped is added to the word, which may end it. -/
theorem appendUtf8_eq (h : HoldsStr room tl w st) (hne : w ≠ [])
    (hword : isIgnoreWordAscii c = false) (hshort : w.length + 1 ≤ a.maxwordlen)
    (hroom : w.length + 2 ≤ room) :
    ∃ st₁, HoldsStr room tl (w ++ [c]) st₁ ∧
      appendUtf8 loc a (some m) context st [c] c.toNat last =
        if Ends a w last then endUtf8 loc a (some m) context st₁ else .ok st₁ := by
  obtain ⟨token, token', hstore, hstore', h₁⟩ := h.append (c := c) hne hroom
  have hfits : ¬ a.maxwordlen < [c].length + st.tokenLen := by
    rw [h.tokenLen hne, List.length_singleton]
    omega
  refine ⟨_, h₁, ?_⟩
  rw [appendUtf8, if_neg hfits, storeAll_singleton, hstore, ok_bind, List.length_singleton,
    hstore', ok_bind]
  simp only [TokenizeState.bump_of_word_toNat hword, h.tokenLen hne, pure_eq_ok]
  by_cases hend : Ends a w last
  · have hend' : a.maxwordlen ≤ w.length + 1 ∨ last = true := hend
    rw [if_pos hend', if_pos hend]
    cases endUtf8 loc a (some m) context
      { st with token := token', tokenLen := w.length + 1 } with
    | ok st' => simp
    | error e => rfl
  · have hend' : ¬ (a.maxwordlen ≤ w.length + 1 ∨ last = true) := hend
    rw [if_neg hend', if_neg hend]

theorem appendUtf8_room (h : HoldsStr room tl w st) (hne : w ≠ [])
    (hshort : w.length + 1 ≤ a.maxwordlen)
    (hok : appendUtf8 loc a (some m) context st [c] c.toNat last = .ok st') :
    w.length + 2 ≤ room := by
  have hfits : ¬ a.maxwordlen < [c].length + st.tokenLen := by
    rw [h.tokenLen hne, List.length_singleton]
    omega
  rw [appendUtf8, if_neg hfits] at hok
  obtain ⟨token, hstore, hok⟩ := bind_ok_iff.mp hok
  obtain ⟨token', hstore', -⟩ := bind_ok_iff.mp hok
  rw [storeAll_singleton] at hstore
  obtain ⟨-, rfl⟩ := store_ok_iff.mp hstore
  obtain ⟨hlt, -⟩ := store_ok_iff.mp hstore'
  rw [List.length_set, h.room, h.tokenLen hne, List.length_singleton] at hlt
  omega

variable (a m context last) in
theorem startUtf8_holds (h : Holds room tl [] st) (hword : isIgnoreWordAscii c = false)
    (hmax : 1 ≤ a.maxwordlen) (hroom : 2 ≤ room) :
    ∃ st', startUtf8 a (some m) context st [c] c.toNat last = .ok st' ∧
      HoldsStr room (if last ∧ a.minwordlen = 1 then tl.push [c] m context else tl)
        (if last ∧ a.minwordlen = 1 then [] else [c]) st' := by
  obtain ⟨x, y, rest, htoken, hlen⟩ := h.two hroom
  have hzero : (0 : XmlChar) ∉ [c] := by simpa using (ne_zero_of_word hword).symm
  have hstore : ∀ z, store (c :: z :: rest) 1 0 = .ok (c :: 0 :: rest) := by
    intro z
    simp [store]
  rw [startUtf8, htoken, store_cons_zero, ok_bind, List.length_singleton,
    if_neg (Nat.not_lt.mpr hmax), storeAll_singleton, store_cons_zero, ok_bind, hstore, ok_bind]
  by_cases hwhole : last = true ∧ a.minwordlen = 1
  · refine ⟨⟨tl.push [c] m context, false, c :: 0 :: rest, 2⟩, ?_, ?_⟩
    · rw [if_pos hwhole, hstore, ok_bind, h.tl, show c :: 0 :: rest = [c] ++ 0 :: rest from rfl,
        show (1 : Nat) + 1 = [c].length + 1 from rfl, tokenListAddToken_append (by simp) hzero,
        ok_bind]
      exact congrArg _ (TokenizeState.bump_of_word_toNat hword)
    · rw [if_pos hwhole, if_pos hwhole]
      exact Holds.str (holds_nil rfl rfl (by simpa using hlen))
  · refine ⟨⟨tl, true, c :: 0 :: rest, 1⟩, ?_, ?_⟩
    · rw [if_neg hwhole, h.tl]
      exact congrArg _ (TokenizeState.bump_of_word_toNat hword)
    · rw [if_neg hwhole, if_neg hwhole]
      exact ⟨⟨rfl, by simpa using hlen, rfl, fun _ => rfl, by simp⟩, fun _ => by simp⟩

theorem startUtf8_room (h : Holds room tl [] st) (hmax : 1 ≤ a.maxwordlen)
    (hok : startUtf8 a (some m) context st [c] c.toNat last = .ok st') : 2 ≤ room := by
  obtain ⟨token, hstore, hok⟩ := bind_ok_iff.mp hok
  rw [List.length_singleton, if_neg (Nat.not_lt.mpr hmax)] at hok
  obtain ⟨token₁, hstore₁, hok⟩ := bind_ok_iff.mp hok
  obtain ⟨token₂, hstore₂, -⟩ := bind_ok_iff.mp hok
  obtain ⟨-, rfl⟩ := store_ok_iff.mp hstore
  rw [storeAll_singleton] at hstore₁
  obtain ⟨-, rfl⟩ := store_ok_iff.mp hstore₁
  obtain ⟨hlt, -⟩ := store_ok_iff.mp hstore₂
  rw [List.length_set, List.length_set, h.room] at hlt
  omega

theorem Holds.bump_toNat (h : Holds room tl [] st) (c : XmlChar) :
    Holds room (if c = tokenposBumper then tl.bump else tl) []
      (st.bump (decide (c.toNat = tokenposBumper.toNat))) := by
  rw [show decide (c.toNat = tokenposBumper.toNat) = decide (c = tokenposBumper) from
    decide_eq_decide.mpr UInt8.toNat_inj]
  simpa using h.bump (decide (c = tokenposBumper))

variable (a m context last) in
/-- A character that ends only words of which both tokenizers keep the same. -/
theorem utf8Step_holds (ha : loc.AsciiAgrees) (h : HoldsStr room tl w st) (hw : IsWord w)
    (hc : c < 0x80) (hpos : 1 ≤ a.maxwordlen) (hmax : a.maxwordlen ≤ room)
    (hended : ∀ v ∈ endedWord a w c last, KeptWord a.maxwordlen room v)
    (hstart : isIgnoreWordAscii c = false → 2 ≤ room) :
    ∃ st', utf8Step loc a (some m) context st [c] last = .ok st' ∧
      HoldsStr room (scanChar a m context tl w c last) (nextWord a w c last) st' := by
  rw [utf8Step, utf8Codepoint_cons hc, ok_bind, isIgnoreWordUtf8_of_lt ha hc]
  by_cases hignore : isIgnoreWordAscii c = true
  · simp only [scanChar, nextWord, hignore, if_true, ignoreUtf8, h.insideToken]
    by_cases hne : w = []
    · subst hne
      simpa [addCore_nil] using (h.toHolds.bump_toNat c).str
    · obtain ⟨st₁, hend, h₁⟩ := endUtf8_holds a m context ha h hne hw
        (hended w (by simp [endedWord, hne, hignore]))
      simpa [hne, hend] using (h₁.bump_toNat c).str
  · have hword : isIgnoreWordAscii c = false := by simpa using hignore
    simp only [scanChar, nextWord, hword, Bool.false_eq_true, if_false, h.insideToken]
    by_cases hne : w = []
    · subst hne
      exact startUtf8_holds a m context _ h.toHolds hword hpos (hstart hword)
    · have hkept : Ends a w last → KeptWord a.maxwordlen room (w ++ [c]) := fun hend =>
        hended (w ++ [c]) (by simp [endedWord, hne, hword, hend])
      have hshort : w.length + 1 ≤ a.maxwordlen ∧ w.length + 2 ≤ room := by
        by_cases hend : Ends a w last
        · have hlen := (hkept hend).short
          have hroom := (hkept hend).room
          simp at hlen hroom
          omega
        · have : ¬ a.maxwordlen ≤ w.length + 1 := fun h => hend (.inl h)
          omega
      obtain ⟨st₁, h₁, heq⟩ := appendUtf8_eq a m context last loc h hne hword hshort.1 hshort.2
      rw [if_neg hne, if_neg hne]
      simp only [List.isEmpty_eq_false_iff.mpr hne, Bool.not_false, if_true, heq]
      by_cases hend : Ends a w last
      · obtain ⟨st₂, hok, h₂⟩ := endUtf8_holds a m context ha h₁
          (by simp) (hw.concat hc hword) (hkept hend)
        exact ⟨st₂, by rw [if_pos hend, hok], by simpa [hend] using h₂.str⟩
      · exact ⟨st₁, by rw [if_neg hend], by simpa [hend] using h₁⟩

variable (a m context) in
/-- Where the words are kept, `swish_tokenize_utf8` adds what `scan` says. -/
theorem utf8Loop_scan {s : XmlStr} (ha : loc.AsciiAgrees) (h : HoldsStr room tl w st)
    (hw : IsWord w) (hs : ∀ c ∈ s, c < 0x80) (hpos : 1 ≤ a.maxwordlen) (hmax : a.maxwordlen ≤ room)
    (hended : ∀ v ∈ endedWords a w s, KeptWord a.maxwordlen room v)
    (hstart : ∀ c ∈ s, isIgnoreWordAscii c = false → 2 ≤ room) :
    ∃ st', utf8Loop loc a (some m) context st (s.map ([·])) = .ok st' ∧
      st'.tl = scan a m context tl w s := by
  induction s generalizing st tl w with
  | nil => exact ⟨st, rfl, h.tl⟩
  | cons c rest ih =>
      have hc : c < 0x80 := hs c (by simp)
      obtain ⟨st₁, hstep, h₁⟩ := utf8Step_holds a m context rest.isEmpty ha h hw hc hpos hmax
        (fun v hv => hended v (by simp [endedWords] at hv ⊢; exact .inl hv))
        (hstart c (by simp))
      obtain ⟨st₂, hloop, h₂⟩ := ih h₁ (isWord_nextWord hw hc) (fun d hd => hs d (by simp [hd]))
        (fun v hv => hended v (by simp [endedWords] at hv ⊢; exact .inr hv))
        (fun d hd => hstart d (by simp [hd]))
      refine ⟨st₂, ?_, h₂⟩
      rw [List.map_cons, utf8Loop, show (rest.map ([·])).isEmpty = rest.isEmpty by simp, hstep,
        ok_bind, hloop]

/-! ## Words that are not kept -/

/-- The number of tokens that a stripped word makes. -/
def coreCount (w : XmlStr) : Nat := if core w = [] then 0 else 1

/-- The number of tokens that the character `c` makes. -/
def charCount (a : Analyzer) (w : XmlStr) (c : XmlChar) (last : Bool) : Nat :=
  if isIgnoreWordAscii c then coreCount w
  else if w = [] then if last ∧ a.minwordlen = 1 then 1 else 0
  else if Ends a w last then coreCount (w ++ [c]) else 0

/-- The number of tokens that a text makes. -/
def textCount (a : Analyzer) : XmlStr → XmlStr → Nat
  | _, [] => 0
  | w, c :: rest =>
    charCount a w c rest.isEmpty + textCount a (nextWord a w c rest.isEmpty) rest

/-- A list got at most `n` tokens. -/
structure Adds (tl tl' : TokenList) (n : Nat) : Prop where
  keeps : tl.tokens <+: tl'.tokens
  most : tl'.tokens.length ≤ tl.tokens.length + n

theorem Adds.refl (tl : TokenList) : Adds tl tl 0 := ⟨List.prefix_refl _, Nat.le_refl _⟩

theorem Adds.bump {tl' : TokenList} {n : Nat} (h : Adds tl tl' n) (isBumper : Prop)
    [Decidable isBumper] : Adds tl (if isBumper then tl'.bump else tl') n := by
  split
  · exact ⟨h.keeps, h.most⟩
  · exact h

theorem Adds.trans {tl₁ tl₂ tl₃ : TokenList} {n k : Nat} (h₁ : Adds tl₁ tl₂ n)
    (h₂ : Adds tl₂ tl₃ k) : Adds tl₁ tl₃ (n + k) := by
  refine ⟨h₁.keeps.trans h₂.keeps, ?_⟩
  have := h₁.most
  have := h₂.most
  omega

variable (a m context tl w) in
theorem tokens_addCore (hmin : a.minwordlen ≤ 2) :
    tl.tokens <+: (addCore a m context tl w).tokens ∧
      (addCore a m context tl w).tokens.length = tl.tokens.length + coreCount w := by
  rw [addCore, coreCount]
  by_cases hcore : core w = []
  · simp [hcore]
  · have hlen : 0 < (core w).length := List.length_pos_iff.mpr hcore
    rw [if_pos ⟨hcore, by omega⟩, if_neg hcore]
    simp [TokenList.push]

variable (a m context tl w c last) in
theorem tokens_scanChar (hmin : a.minwordlen ≤ 2) :
    tl.tokens <+: (scanChar a m context tl w c last).tokens ∧
      (scanChar a m context tl w c last).tokens.length =
        tl.tokens.length + charCount a w c last := by
  rw [scanChar, charCount]
  split
  · split
    · exact tokens_addCore _ _ _ _ _ hmin
    · exact tokens_addCore _ _ _ _ _ hmin
  · split
    · split
      · simp [TokenList.push]
      · simp
    · split
      · exact tokens_addCore _ _ _ _ _ hmin
      · simp

variable (a m context tl w) in
theorem tokens_scan (s : XmlStr) (hmin : a.minwordlen ≤ 2) :
    tl.tokens <+: (scan a m context tl w s).tokens ∧
      (scan a m context tl w s).tokens.length = tl.tokens.length + textCount a w s := by
  induction s generalizing tl w with
  | nil => simp [scan, textCount]
  | cons c rest ih =>
      obtain ⟨hkeeps, hlen⟩ := tokens_scanChar a m context tl w c rest.isEmpty hmin
      obtain ⟨hkeeps', hlen'⟩ := ih (scanChar a m context tl w c rest.isEmpty)
        (nextWord a w c rest.isEmpty)
      refine ⟨hkeeps.trans hkeeps', ?_⟩
      rw [scan, textCount, hlen', hlen]
      omega

/-- What ending any word adds, compared with its core. -/
theorem endUtf8_adds (ha : loc.AsciiAgrees) (h : HoldsStr room tl w st) (hne : w ≠ [])
    (hw : IsWord w) (hmin : a.minwordlen ≤ 2)
    (hok : endUtf8 loc a (some m) context st = .ok st') :
    Holds room st'.tl [] st' ∧ w.length + 2 ≤ room ∧ TrailingFits w ∧
      Adds tl st'.tl (coreCount w) ∧
      (st'.tl.tokens = (addCore a m context tl w).tokens →
        core w = w.rdropWhile isIgnoreAscii) := by
  have hroom := endUtf8_room h.toHolds hne hok
  obtain ⟨htrailing, hinside, hlen, htl⟩ := endUtf8_ok ha h hne hw hok
  refine ⟨holds_nil rfl hinside hlen, hroom, htrailing, ?_⟩
  rcases htl with htl | ⟨hcore, t, htokens, hvalue⟩
  · rw [htl]
    refine ⟨⟨List.prefix_refl _, Nat.le_add_right _ _⟩, ?_⟩
    intro heq
    have hcount := (tokens_addCore a m context tl w hmin).2
    rw [← heq] at hcount
    have hnil : core w = [] := by
      by_contra hcore
      rw [coreCount, if_neg hcore] at hcount
      omega
    rw [hnil, core_eq_nil_iff.mp hnil]
  · refine ⟨⟨by rw [htokens]; exact List.prefix_append _ _, ?_⟩, ?_⟩
    · rw [htokens, coreCount, if_neg hcore, List.length_append, List.length_singleton]
    · intro heq
      have hpos : 0 < (core w).length := List.length_pos_iff.mpr hcore
      rw [htokens, addCore, if_pos ⟨hcore, by omega⟩, TokenList.push,
        List.append_cancel_left_eq] at heq
      exact hvalue (by simp [List.singleton_inj.mp heq, Token.value])

/-- What a character did that did not stop the call. -/
structure StepAdds (a : Analyzer) (m : MetaName) (context : XmlStr) (room : Nat) (tl : TokenList)
    (w : XmlStr) (c : XmlChar) (last : Bool) (st' : TokenizeState) : Prop where
  holds : HoldsStr room st'.tl (nextWord a w c last) st'
  ended : ∀ v ∈ endedWord a w c last,
    v.length ≤ a.maxwordlen ∧ v.length + 2 ≤ room ∧ TrailingFits v
  start : isIgnoreWordAscii c = false → 2 ≤ room
  adds : Adds tl st'.tl (charCount a w c last)
  starts : st'.tl.tokens = (scanChar a m context tl w c last).tokens →
    ∀ v ∈ endedWord a w c last, core v = v.rdropWhile isIgnoreAscii

theorem stepAdds_ignore (ha : loc.AsciiAgrees) (h : HoldsStr room tl w st) (hw : IsWord w)
    (hignore : isIgnoreWordAscii c = true) (hlen : w.length < a.maxwordlen)
    (hmin : a.minwordlen ≤ 2)
    (hok : ignoreUtf8 loc a (some m) context st c.toNat = .ok st') :
    StepAdds a m context room tl w c last st' := by
  have hbumped : ∀ {st₁ : TokenizeState} {n : Nat}, Holds room st₁.tl [] st₁ → Adds tl st₁.tl n →
      st' = st₁.bump (decide (c.toNat = tokenposBumper.toNat)) →
      Holds room st'.tl [] st' ∧ Adds tl st'.tl n ∧ st'.tl.tokens = st₁.tl.tokens := by
    rintro st₁ n h₁ hadds rfl
    have hbump := h₁.bump_toNat c
    rw [← hbump.tl] at hbump
    refine ⟨hbump, ?_, ?_⟩
    · rw [(h₁.bump_toNat c).tl]
      exact hadds.bump _
    · rw [(h₁.bump_toNat c).tl]
      split <;> rfl
  unfold ignoreUtf8 at hok
  by_cases hne : w = []
  · subst hne
    rw [h.insideToken] at hok
    obtain ⟨h₁, hadds, -⟩ := @hbumped st 0 (by rw [h.tl]; exact h.toHolds)
      (by rw [h.tl]; exact .refl tl) (by simpa using hok.symm)
    refine ⟨?_, by simp [endedWord], by simp [hignore], ?_, by simp [endedWord]⟩
    · simpa [nextWord, hignore] using h₁.str
    · simpa [charCount, hignore, coreCount, core] using hadds
  · rw [h.insideToken, List.isEmpty_eq_false_iff.mpr hne] at hok
    obtain ⟨st₁, hend, hok⟩ := bind_ok_iff.mp hok
    obtain ⟨h₁, hroom, htrailing, hadds, hstarts⟩ := endUtf8_adds ha h hne hw hmin hend
    obtain ⟨h₂, hadds₂, htokens⟩ := hbumped h₁ hadds (by simpa using hok.symm)
    have hended : endedWord a w c last = some w := by simp [endedWord, hne, hignore]
    refine ⟨?_, ?_, by simp [hignore], ?_, ?_⟩
    · simpa [nextWord, hignore] using h₂.str
    · rw [hended]
      intro v hv
      cases hv
      exact ⟨by omega, hroom, htrailing⟩
    · simpa [charCount, hignore] using hadds₂
    · rw [hended]
      intro heq v hv
      cases hv
      refine hstarts ?_
      rw [← htokens, heq, scanChar, if_pos hignore]
      split <;> rfl

theorem stepAdds_append (ha : loc.AsciiAgrees) (h : HoldsStr room tl w st) (hne : w ≠ [])
    (hw : IsWord (w ++ [c])) (hlen : w.length < a.maxwordlen) (hmin : a.minwordlen ≤ 2)
    (hok : appendUtf8 loc a (some m) context st [c] c.toNat last = .ok st') :
    StepAdds a m context room tl w c last st' := by
  have hword : isIgnoreWordAscii c = false := hw.word c (by simp)
  have hroom := appendUtf8_room h hne hlen hok
  obtain ⟨st₁, h₁, heq⟩ := appendUtf8_eq a m context last loc h hne hword hlen hroom
  rw [heq] at hok
  by_cases hend : Ends a w last
  · rw [if_pos hend] at hok
    obtain ⟨h₂, hroom₂, htrailing, hadds, hstarts⟩ := endUtf8_adds ha h₁ (by simp) hw hmin hok
    have hended : endedWord a w c last = some (w ++ [c]) := by
      simp [endedWord, hne, hword, hend]
    refine ⟨?_, ?_, fun _ => by omega, ?_, ?_⟩
    · simpa [nextWord, hword, hne, hend] using h₂.str
    · rw [hended]
      intro v hv
      cases hv
      exact ⟨by simpa using Nat.succ_le_of_lt hlen, hroom₂, htrailing⟩
    · simpa [charCount, hword, hne, hend] using hadds
    · rw [hended]
      intro heq' v hv
      cases hv
      exact hstarts (by rw [heq']; simp [scanChar, hword, hne, hend])
  · rw [if_neg hend] at hok
    cases hok
    have hended : endedWord a w c last = none := by simp [endedWord, hne, hword, hend]
    refine ⟨?_, by simp [hended], fun _ => by omega, ?_, by simp [hended]⟩
    · rw [h₁.tl]
      simpa [nextWord, hword, hne, hend] using h₁
    · rw [h₁.tl]
      simpa [charCount, hword, hne, hend] using Adds.refl tl

theorem stepAdds_start (h : Holds room tl [] st) (hword : isIgnoreWordAscii c = false)
    (hpos : 1 ≤ a.maxwordlen)
    (hok : startUtf8 a (some m) context st [c] c.toNat last = .ok st') :
    StepAdds a m context room tl [] c last st' := by
  have hroom := startUtf8_room h hpos hok
  obtain ⟨st₁, hstart, h₁⟩ := startUtf8_holds a m context last h hword hpos hroom
  obtain rfl : st₁ = st' := Except.ok.inj (hstart.symm.trans hok)
  refine ⟨?_, by simp [endedWord], fun _ => hroom, ?_, by simp [endedWord]⟩
  · rw [h₁.tl]
    simpa [nextWord, hword] using h₁
  · rw [h₁.tl]
    by_cases hwhole : last = true ∧ a.minwordlen = 1
    · have hcount : charCount a [] c last = 1 := by simp [charCount, hword, hwhole]
      rw [if_pos hwhole, hcount]
      exact ⟨List.prefix_append _ _, by simp [TokenList.push]⟩
    · have hcount : charCount a [] c last = 0 := by
        rw [charCount, if_neg (by simp [hword]), if_pos rfl, if_neg hwhole]
      rw [if_neg hwhole, hcount]
      exact .refl tl

theorem utf8Step_adds (ha : loc.AsciiAgrees) (h : HoldsStr room tl w st) (hw : IsWord w)
    (hc : c < 0x80) (hlen : w.length < a.maxwordlen) (hmin : a.minwordlen ≤ 2)
    (hok : utf8Step loc a (some m) context st [c] last = .ok st') :
    StepAdds a m context room tl w c last st' := by
  rw [utf8Step, utf8Codepoint_cons hc, ok_bind, isIgnoreWordUtf8_of_lt ha hc] at hok
  by_cases hignore : isIgnoreWordAscii c = true
  · rw [if_pos hignore] at hok
    exact stepAdds_ignore ha h hw hignore hlen hmin hok
  · have hword : isIgnoreWordAscii c = false := by simpa using hignore
    rw [if_neg hignore, h.insideToken] at hok
    by_cases hne : w = []
    · subst hne
      exact stepAdds_start h.toHolds hword (by omega) (by simpa using hok)
    · rw [List.isEmpty_eq_false_iff.mpr hne] at hok
      exact stepAdds_append ha h hne (hw.concat hc hword) hlen hmin (by simpa using hok)

theorem length_nextWord (hmax : 2 ≤ a.maxwordlen) :
    (nextWord a w c last).length < a.maxwordlen := by
  rw [nextWord]
  split
  · simpa using (by omega : 0 < a.maxwordlen)
  · split
    · split
      · simpa using (by omega : 0 < a.maxwordlen)
      · simpa using (by omega : 1 < a.maxwordlen)
    · split
      · simpa using (by omega : 0 < a.maxwordlen)
      · rename_i hend
        simpa using fun h => hend (.inl h)

/-- A run over a text that did not stop: the words fit, and where it made the tokens that
`scan` says, they are kept. -/
theorem utf8Loop_kept {s : XmlStr} (ha : loc.AsciiAgrees) (h : HoldsStr room tl w st)
    (hw : IsWord w) (hs : ∀ c ∈ s, c < 0x80) (hlen : w.length < a.maxwordlen)
    (hmax : 2 ≤ a.maxwordlen) (hblock : a.maxwordlen ≤ room) (hmin : a.minwordlen ≤ 2)
    (hok : utf8Loop loc a (some m) context st (s.map ([·])) = .ok st') :
    Adds tl st'.tl (textCount a w s) ∧
      (∀ v ∈ endedWords a w s, v.length + 2 ≤ room) ∧
      (∀ c ∈ s, isIgnoreWordAscii c = false → 2 ≤ room) ∧
      (st'.tl = scan a m context tl w s →
        ∀ v ∈ endedWords a w s, KeptWord a.maxwordlen room v) := by
  induction s generalizing st tl w with
  | nil =>
      cases hok
      refine ⟨?_, by simp [endedWords], by simp, by simp [endedWords]⟩
      rw [h.tl]
      exact .refl tl
  | cons c rest ih =>
      have hc : c < 0x80 := hs c (by simp)
      rw [List.map_cons, utf8Loop, show (rest.map ([·])).isEmpty = rest.isEmpty by simp] at hok
      obtain ⟨st₁, hstep, hok⟩ := bind_ok_iff.mp hok
      have h₁ := utf8Step_adds ha h hw hc hlen hmin hstep
      obtain ⟨hadds, hended, hstart, hkept⟩ := ih h₁.holds (isWord_nextWord hw hc)
        (fun d hd => hs d (by simp [hd])) (length_nextWord hmax) hok
      refine ⟨h₁.adds.trans hadds, ?_, ?_, ?_⟩
      · intro v hv
        rcases List.mem_append.mp hv with hv | hv
        · exact (h₁.ended v (by simpa using hv)).2.1
        · exact hended v hv
      · intro d hd
        rcases List.mem_cons.mp hd with rfl | hd
        · exact h₁.start
        · exact hstart d hd
      · intro hscan
        -- The two lists end equal, so neither step can have added less than the other.
        have hF := tokens_scan a m context (scanChar a m context tl w c rest.isEmpty)
          (nextWord a w c rest.isEmpty) rest hmin
        have hS := tokens_scanChar a m context tl w c rest.isEmpty hmin
        rw [scan] at hscan
        rw [← hscan] at hF
        have hcount : st₁.tl.tokens.length =
            (scanChar a m context tl w c rest.isEmpty).tokens.length := by
          have := hadds.most
          have := h₁.adds.most
          omega
        have htokens : st₁.tl.tokens = (scanChar a m context tl w c rest.isEmpty).tokens :=
          (List.prefix_of_prefix_length_le hadds.keeps hF.1 hcount.le).eq_of_length hcount
        have hnow : ∀ v ∈ endedWord a w c rest.isEmpty, KeptWord a.maxwordlen room v := fun v hv =>
          ⟨(h₁.ended v hv).1, (h₁.ended v hv).2.1, (h₁.ended v hv).2.2, h₁.starts htokens v hv⟩
        obtain ⟨st₂, hstep₂, h₂⟩ := utf8Step_holds a m context _ ha h hw hc
          (by omega) hblock hnow h₁.start
        obtain rfl : st₂ = st₁ := Except.ok.inj (hstep₂.symm.trans hstep)
        intro v hv
        rcases List.mem_append.mp hv with hv | hv
        · exact hnow v (by simpa using hv)
        · exact hkept (by rw [hscan, h₂.tl]) v hv

end Tokens

/-! ## The result -/

section Result

variable {loc : Locale} {a : Analyzer} {m : MetaName} {context : XmlStr} {room : Nat}
  {s buf block block' : XmlStr} {tl : TokenList}

/-- Both tokenizers return, with the same tokens, position and count. -/
def TokenizersAgree (loc : Locale) (a : Analyzer) (m : MetaName) (context block block' : XmlStr)
    (tl : TokenList) (buf : XmlStr) : Prop :=
  ∃ tl' n, tokenizeAscii a (some m) context block tl buf = .ok (tl', n) ∧
    tokenizeUtf8 loc a (some m) context block' tl buf = .ok (tl', n)

/-- Every word of the text that is stripped is one of which both tokenizers keep the same, and
the work block holds a character and a NUL. -/
def KeepsWords (a : Analyzer) (room : Nat) (buf : XmlStr) : Prop :=
  (∀ v ∈ endedWords a [] (asciiStrTolower (cstr buf)), KeptWord a.maxwordlen room v) ∧
    ∀ c ∈ asciiStrTolower (cstr buf), isIgnoreWordAscii c = false → 2 ≤ room

instance (a : Analyzer) (room : Nat) (buf : XmlStr) : Decidable (KeepsWords a room buf) := by
  rw [KeepsWords]
  letI : Decidable (∀ c ∈ asciiStrTolower (cstr buf), isIgnoreWordAscii c = false → 2 ≤ room) :=
    List.decidableBAll _ _
  infer_instance

/-- On ASCII text the tokenizers agree where every word is kept.  With a limit of at least two
characters, and a least length that no core falls below, they agree nowhere else. -/
theorem tokenizers_agree (ha : loc.AsciiAgrees) (hascii : ∀ c ∈ buf, c < 0x80)
    (hpos : 1 ≤ a.maxwordlen) (hroom : a.maxwordlen ≤ room) (hblock : block.length = room)
    (hblock' : block'.length = room) :
    (KeepsWords a room buf → TokenizersAgree loc a m context block block' tl buf) ∧
      (2 ≤ a.maxwordlen → a.minwordlen ≤ 2 →
        TokenizersAgree loc a m context block block' tl buf → KeepsWords a room buf) := by
  have hcstr : ∀ c ∈ cstr buf, c < 0x80 :=
    fun c hc => hascii c ((List.takeWhile_prefix _).mem hc)
  have hlower : ∀ c ∈ asciiStrTolower (cstr buf), c < 0x80 := by
    intro c hc
    obtain ⟨b, hb, rfl⟩ := List.mem_map.mp hc
    exact tolower_lt (hcstr b hb)
  -- The ASCII loop begins in a block that starts with a NUL.
  have hnul : store block 0 0 = .ok (block.set 0 0) := by
    rw [store, if_pos (by omega)]
  have hA : Holds room tl [] ⟨tl, false, block.set 0 0, 0⟩ :=
    holds_nil rfl rfl (by simpa using hblock)
  have hU : HoldsStr room tl [] ⟨tl, false, block', 0⟩ := Holds.str (holds_nil rfl rfl hblock')
  have hascii_ok : (∀ v ∈ endedWords a [] (asciiStrTolower (cstr buf)), v.length + 2 ≤ room) →
      (∀ c ∈ asciiStrTolower (cstr buf), isIgnoreWordAscii c = false → 2 ≤ room) →
      tokenizeAscii a (some m) context block tl buf =
        .ok (scan a m context tl [] (asciiStrTolower (cstr buf)),
          (scan a m context tl [] (asciiStrTolower (cstr buf))).n - tl.n) := by
    intro hended hstart
    obtain ⟨st, hloop, hst⟩ := asciiLoop_scan a m context hA isWord_nil hcstr
      (zero_notMem_cstr buf) hroom (fun v hv => by have := hended v hv; omega) hstart
    rw [tokenizeAscii, hnul, ok_bind, hloop, ok_bind, hst]
    rfl
  refine ⟨?_, ?_⟩
  · rintro ⟨hkept, hstart⟩
    have hok := hascii_ok (fun v hv => (hkept v hv).room) hstart
    obtain ⟨st, hloop, hst⟩ := utf8Loop_scan a m context ha hU isWord_nil hlower
      hpos hroom hkept hstart
    refine ⟨_, _, hok, ?_⟩
    rw [tokenizeUtf8, utf8StrTolower_of_ascii ha hcstr, ok_bind, utf8Chrs_of_ascii hlower, hloop,
      ok_bind, hst]
    rfl
  · intro hmax hmin hagree
    obtain ⟨tl', n, hok, hok'⟩ := hagree
    rw [tokenizeUtf8, utf8StrTolower_of_ascii ha hcstr, ok_bind, utf8Chrs_of_ascii hlower] at hok'
    obtain ⟨st, hloop, hst⟩ := bind_ok_iff.mp hok'
    obtain ⟨-, hended, hstart, hkept⟩ := utf8Loop_kept ha hU isWord_nil hlower hpos hmax hroom hmin
      hloop
    have hscan := (hascii_ok hended hstart).symm.trans hok
    refine ⟨hkept ?_, hstart⟩
    have htl := congrArg Prod.fst (Except.ok.inj hst)
    exact htl.trans (congrArg Prod.fst (Except.ok.inj hscan)).symm

/-- A contraction is kept. -/
theorem tokenizers_agree_contraction :
    TokenizersAgree .posix ⟨256, 1, true, fun tl _ _ _ => .ok (tl, 0)⟩
      (metanameInit (lit "swishdefault")) (lit "doc") (List.replicate 256 0)
      (List.replicate 256 7) .init (lit "Don't") :=
  (tokenizers_agree Locale.posix_asciiAgrees (by decide +kernel) (by decide) (Nat.le_refl 256)
    List.length_replicate List.length_replicate).1 (by decide +kernel)

/-- A word that starts with an apostrophe keeps it, and loses its last character. -/
theorem tokenizers_differ :
    ¬ ∀ (loc : Locale) (a : Analyzer) m context block block' tl buf, loc.AsciiAgrees →
      (∀ c ∈ buf, c < 0x80) → 1 ≤ a.maxwordlen → 1 ≤ a.minwordlen →
      a.maxwordlen ≤ block.length → a.maxwordlen ≤ block'.length →
      TokenizersAgree loc a m context block block' tl buf := by
  intro h
  obtain ⟨tl', n, hok, hok'⟩ := h .posix ⟨256, 1, true, fun tl _ _ _ => .ok (tl, 0)⟩
    (metanameInit (lit "swishdefault")) (lit "doc") (List.replicate 256 0)
    (List.replicate 256 0) .init (lit "'ab") Locale.posix_asciiAgrees (by decide +kernel)
    (by decide) (by decide) List.length_replicate.ge List.length_replicate.ge
  have heq := congrArg (fun r => r.toOption.map fun p => p.1.tokens.map Token.value)
    (hok.trans hok'.symm)
  exact absurd heq (by decide +kernel)

end Result

end LibSwish3
