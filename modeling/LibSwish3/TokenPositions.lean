import LibSwish3.Lib.Places
import LibSwish3.TokenizerWords
import LibSwish3.Utf8Chars

/-!
# Token positions

The position counter of a token list counts the tokens and the bumpers, in 32 bits.  The loops
change it in many branches: a word can be ended by a character, by its length or by the text, can
be stripped to nothing or be too short, and a bumper can stand inside or outside of a word.  What
they keep is `Positioned`: the tokens stand in the text that was read so far, one behind the
other, and a token's number counts the tokens and the bumpers in front of it.

A bumper is a control character, so that it ends every word and stands in none.

## Main definitions

* `Spells` — the word of the text that a token comes from.
* `Positioned` — the token list after a text was read.
* `tokenize_positions` — the positions of a call and of a sequence of calls.
-/

namespace LibSwish3

open Runs Places

/-! ## Strings that lose their end -/

section Prefixes

variable {a b z : XmlStr}

theorem cstr_isPrefix (b : XmlStr) : cstr b <+: b := List.takeWhile_prefix _

theorem cstr_cons {c : XmlChar} (hc : c ≠ 0) : cstr (c :: b) = c :: cstr b := by
  simp [cstr, hc]

/-- A NUL ends the string, if nothing else does. -/
theorem cstr_append_zero_isPrefix (a b z : XmlStr) : cstr (a ++ b ++ 0 :: z) <+: cstr a ++ b := by
  induction a with
  | nil =>
      rw [List.nil_append]
      induction b with
      | nil => simp [cstr]
      | cons c b ih =>
          by_cases hc : c = 0
          · simp [hc, cstr]
          · rw [List.cons_append, cstr_cons hc]
            simpa [cstr] using ih
  | cons c a ih =>
      by_cases hc : c = 0
      · simp [hc, cstr]
      · rw [List.cons_append, List.cons_append, cstr_cons hc, cstr_cons hc]
        simpa using ih

/-- A byte that becomes NUL cuts the string there or leaves it. -/
theorem cstr_set_zero_isPrefix (b : XmlStr) (i : Nat) : cstr (b.set i 0) <+: cstr b := by
  induction b generalizing i with
  | nil => simp
  | cons c b ih =>
      cases i with
      | zero => simp [cstr]
      | succ i =>
          by_cases hc : c = 0
          · simp [hc, cstr]
          · rw [List.set_cons_succ, cstr_cons hc, cstr_cons hc]
            simpa using ih i

theorem cstr_take_isPrefix (b : XmlStr) (n : Nat) : cstr (b.take n) <+: cstr b := by
  induction b generalizing n with
  | nil => simp
  | cons c b ih =>
      cases n with
      | zero => simp [cstr]
      | succ n =>
          by_cases hc : c = 0
          · simp [hc, cstr]
          · rw [List.take_succ_cons, cstr_cons hc, cstr_cons hc]
            simpa using ih n

/-- Behind what was taken off a prefix. -/
theorem prefix_drop (h : a <+: b) (i : Nat) : a.drop i <+: b.drop i := by
  obtain ⟨t, rfl⟩ := h
  rw [List.drop_append]
  exact List.prefix_append _ _

theorem prefix_of_set_zero {n : Nat} (h : n < b.length) : cstr (b.set n 0) <+: b.take n := by
  rw [List.set_eq_take_append_cons_drop, if_pos h]
  have := cstr_append_zero_isPrefix (b.take n) [] (b.drop (n + 1))
  simp only [List.append_nil] at this
  exact this.trans (cstr_isPrefix _)

end Prefixes

/-! ## What stripping keeps -/

section Strip

variable {loc : Locale} {word word' : XmlStr} {len len' i n : Nat}

theorem stripAsciiEnd_isPrefix (h : stripAsciiEnd word i = .ok word') :
    cstr word' <+: cstr word := by
  induction i generalizing word with
  | zero =>
      cases h
      exact List.prefix_refl _
  | succ i ih =>
      obtain ⟨c, -, h⟩ := bind_ok_iff.mp h
      obtain ⟨ignored, -, h⟩ := bind_ok_iff.mp h
      split at h
      · cases h
        exact List.prefix_refl _
      · obtain ⟨word₁, hstore, h⟩ := bind_ok_iff.mp h
        obtain ⟨-, rfl⟩ := store_ok_iff.mp hstore
        exact (ih h).trans (cstr_set_zero_isPrefix _ _)

/-- The loop over the start stops inside of the string. -/
theorem cstr_drop_stripAsciiStart (h : stripAsciiStart word = .ok n) :
    cstr (word.drop n) = (cstr word).drop n := by
  induction word generalizing n with
  | nil => cases h
  | cons c word ih =>
      unfold stripAsciiStart at h
      split at h
      · cases h
        rfl
      · rename_i hc
        obtain ⟨ignored, -, h⟩ := bind_ok_iff.mp h
        split at h
        · cases h
          rfl
        · obtain ⟨k, hk, h⟩ := bind_ok_iff.mp h
          cases h
          rw [cstr_cons hc, List.drop_succ_cons, List.drop_succ_cons, ih hk]

/-- The bytes a word keeps stand behind the ones its start loses. -/
theorem stripAsciiChrs_isPrefix (h : stripAsciiChrs word len = .ok (word', len')) :
    ∃ k, cstr word' <+: (cstr word).drop k := by
  obtain ⟨word₁, hend, h⟩ := bind_ok_iff.mp h
  obtain ⟨k, hstart, h⟩ := bind_ok_iff.mp h
  obtain ⟨rest, hrest, h⟩ := bind_ok_iff.mp h
  simp only [pure_eq_ok, Except.ok.injEq, Prod.mk.injEq] at h
  obtain ⟨rfl, -⟩ := h
  have hrest : cstr (word₁.drop k) = rest := by
    unfold strAt at hrest
    split at hrest
    · exact Except.ok.inj hrest
    · cases hrest
  refine ⟨k, ?_⟩
  have hkept : rest <+: (cstr word).drop k := by
    rw [← hrest, cstr_drop_stripAsciiStart hstart]
    exact prefix_drop (stripAsciiEnd_isPrefix hend) k
  by_cases hk : k = 0
  · subst hk
    rw [if_pos rfl]
    rwa [← hrest, List.drop_zero] at hkept
  · rw [if_neg hk, cstr_append]
    · exact hkept
    · rw [← hrest]
      exact zero_notMem_cstr _

theorem stripUtf8End_isPrefix {skipped : Nat}
    (h : stripUtf8End loc len i skipped word = .ok word') : cstr word' <+: cstr word := by
  induction i generalizing word skipped with
  | zero =>
      cases h
      exact List.prefix_refl _
  | succ i ih =>
      rw [stripUtf8End] at h
      split at h
      · obtain ⟨chr, -, h⟩ := bind_ok_iff.mp h
        obtain ⟨cp, -, h⟩ := bind_ok_iff.mp h
        split at h
        · obtain ⟨word₁, hstore, h⟩ := bind_ok_iff.mp h
          obtain ⟨-, rfl⟩ := store_ok_iff.mp hstore
          exact (ih h).trans (cstr_set_zero_isPrefix _ _)
        · cases h
          exact List.prefix_refl _
      · exact ih h

theorem stripUtf8Chrs_isPrefix (h : stripUtf8Chrs loc word len = .ok (word', len')) :
    cstr word' <+: cstr word := by
  obtain ⟨word₁, hend, h⟩ := bind_ok_iff.mp h
  obtain ⟨start, -, h⟩ := bind_ok_iff.mp h
  obtain ⟨rest, -, h⟩ := bind_ok_iff.mp h
  cases h
  exact stripUtf8End_isPrefix hend

end Strip

/-! ## The tokens of a text -/

/-- The bytes of a word in the lowered text. -/
def lowerWord (loc : Locale) (word : List Nat) : XmlStr :=
  word.flatMap fun c => encodeChar (loc.towlower c)

/-- The token starts with the first byte of the word, and up to its NUL it has bytes of the
word in their order.  No bumper stands in the word. -/
structure Spells (loc : Locale) (word : List Nat) (t : Token) : Prop where
  nonempty : cstr t.bytes ≠ []
  head : (cstr t.bytes).head? = (lowerWord loc word).head?
  bytes : (cstr t.bytes).Sublist (lowerWord loc word)
  noBumper : tokenposBumper.toNat ∉ word

/-- The position as a number. -/
def Token.number (t : Token) : Nat := t.pos.toNat

/-- What the tokens at `places` have added to the list `tl₀`, after the text `seen` was read
to its end. -/
structure Positioned (loc : Locale) (tl₀ tl : TokenList) (seen : List Nat)
    (places : List (Place Token)) : Prop where
  tokens : tl.tokens = tl₀.tokens ++ places.map Place.item
  laid : Laid (Spells loc) seen places
  numbered : Numbered tokenposBumper.toNat Token.number (2 ^ 32) tl₀.pos.toNat seen places
  pos : tl.pos.toNat =
    (tl₀.pos.toNat + places.length + seen.count tokenposBumper.toNat) % 2 ^ 32

/-- The work block has bytes of a word. -/
structure Written (loc : Locale) (word : List Nat) (v : XmlStr) : Prop where
  head : v ≠ [] → v.head? = (lowerWord loc word).head?
  bytes : v.Sublist (lowerWord loc word)

/-- The text that was read ends with a word behind the places. -/
def OpenWord (loc : Locale) (seen : List Nat) (places : List (Place Token)) (v : XmlStr) :
    Prop :=
  ∃ pre word, seen = pre ++ word ∧ (∀ p ∈ places, p.stop ≤ pre.length) ∧
    tokenposBumper.toNat ∉ word ∧ Written loc word v

section Positions

variable {loc : Locale} {a : Analyzer} {m : Option MetaName} {context : XmlStr}
  {tl₀ tl tl' : TokenList} {seen word : List Nat} {places : List (Place Token)}
  {st st' : TokenizeState} {v v' token : XmlStr} {c len : Nat}

theorem toNat_next (pos : UInt32) : (pos + 1).toNat = (pos.toNat + 1) % 2 ^ 32 := by
  rw [UInt32.toNat_add, UInt32.toNat_one]

theorem Positioned.refl (tl : TokenList) : Positioned loc tl tl [] [] :=
  ⟨by simp, Laid.nil _, Numbered.nil _ _ _ _ _, (Nat.mod_eq_of_lt tl.pos.toNat_lt).symm⟩

theorem Positioned.stop_le (h : Positioned loc tl₀ tl seen places) :
    ∀ p ∈ places, p.stop ≤ seen.length := fun p hp => (h.laid.within p hp).2

theorem Positioned.start_le (h : Positioned loc tl₀ tl seen places) :
    ∀ p ∈ places, p.start ≤ seen.length := by
  intro p hp
  have := h.laid.within p hp
  omega

/-- A character is read, and a bumper skips a position. -/
theorem Positioned.skip (h : Positioned loc tl₀ st.tl seen places) (isBumper : Bool)
    (hc : isBumper = true ↔ c = tokenposBumper.toNat) :
    Positioned loc tl₀ (st.bump isBumper).tl (seen ++ [c]) places := by
  have hlaid := h.laid.longer [c]
  have hnumbered := h.numbered.longer h.start_le [c]
  by_cases hb : isBumper = true
  · refine ⟨?_, hlaid, hnumbered, ?_⟩
    · rw [TokenizeState.bump, if_pos hb]
      exact h.tokens
    · rw [TokenizeState.bump, if_pos hb, hc.mp hb, List.count_append, List.count_singleton_self]
      rw [TokenList.bump, toNat_next, h.pos]
      omega
  · have hne : c ≠ tokenposBumper.toNat := fun he => hb (hc.mpr he)
    rw [TokenizeState.bump, if_neg hb]
    refine ⟨h.tokens, hlaid, hnumbered, ?_⟩
    rw [List.count_append, List.count_singleton, if_neg (by simpa using hne)]
    exact h.pos

theorem Written.of_isPrefix (h : Written loc word v) (hv : v' <+: v) : Written loc word v' := by
  refine ⟨fun hne => ?_, hv.sublist.trans h.bytes⟩
  obtain ⟨t, rfl⟩ := hv
  have hhead := h.head (by simp [hne])
  rwa [List.head?_append_of_ne_nil _ hne] at hhead

theorem Written.lower_ne_nil (h : Written loc word v) (hne : v ≠ []) : lowerWord loc word ≠ [] := by
  intro heq
  have hbytes := h.bytes
  rw [heq, List.sublist_nil] at hbytes
  exact hne hbytes

theorem OpenWord.of_isPrefix (h : OpenWord loc seen places v) (hv : v' <+: v) :
    OpenWord loc seen places v' := by
  obtain ⟨pre, word, hseen, hstop, hbumper, hw⟩ := h
  exact ⟨pre, word, hseen, hstop, hbumper, hw.of_isPrefix hv⟩

/-- A token is added for the word at the end of the text. -/
theorem Positioned.add (h : Positioned loc tl₀ tl seen places)
    (hopen : OpenWord loc seen places (cstr token))
    (hadd : tokenListAddToken tl token len m context = .ok tl') :
    ∃ places', Positioned loc tl₀ tl' seen places' := by
  obtain ⟨pre, word, rfl, hstop, hbumper, hw⟩ := hopen
  unfold tokenListAddToken at hadd
  split at hadd
  · cases hadd
  · rename_i hguard
    rw [not_or] at hguard
    have hne : cstr (token.take len) ≠ [] := by
      cases htoken : token with
      | nil => simp [htoken, cstr] at hguard
      | cons d rest =>
          have hd : d ≠ 0 := by
            rintro rfl
            simp [htoken, cstr] at hguard
          cases hlen : len with
          | zero => exact absurd hlen hguard.1
          | succ n =>
              rw [List.take_succ_cons, cstr_cons hd]
              exact List.cons_ne_nil _ _
    have hw' := hw.of_isPrefix (cstr_take_isPrefix token len)
    have hword : word ≠ [] := by
      rintro rfl
      exact hne (List.sublist_nil.mp hw'.bytes)
    split at hadd
    · cases hadd
    · rename_i mn
      cases hadd
      have hspells : Spells loc word ⟨token.take len, len - 1, tl.pos + 1, mn, context⟩ :=
        ⟨hne, hw'.head hne, hw'.bytes, hbumper⟩
      refine ⟨_, ?_, h.laid.push hstop hword hspells, h.numbered.push hbumper ?_ _, ?_⟩
      · simp [h.tokens]
      · rw [Token.number, toNat_next, h.pos]
        omega
      · rw [toNat_next, h.pos, List.length_append, List.length_singleton]
        omega

/-- No word is open, and the tokens are where the text says. -/
def Between (loc : Locale) (tl₀ : TokenList) (seen : List Nat) (st : TokenizeState) : Prop :=
  st.insideToken = false ∧ ∃ places, Positioned loc tl₀ st.tl seen places

theorem Between.skip (h : Between loc tl₀ seen st) {isBumper : Bool}
    (hc : isBumper = true ↔ c = tokenposBumper.toNat) :
    Between loc tl₀ (seen ++ [c]) (st.bump isBumper) := by
  obtain ⟨hinside, places, hpos⟩ := h
  refine ⟨?_, places, hpos.skip _ hc⟩
  cases isBumper with
  | false => exact hinside
  | true => exact hinside

/-- A word ends: it becomes a token or is dropped. -/
theorem between_addStripped (h : Positioned loc tl₀ st.tl seen places)
    (hopen : OpenWord loc seen places (cstr token))
    (hok : addStripped a m context st token len = .ok st') : Between loc tl₀ seen st' := by
  obtain ⟨d, -, hok⟩ := bind_ok_iff.mp hok
  split at hok
  · obtain ⟨tl', hadd, hok⟩ := bind_ok_iff.mp hok
    cases hok
    exact ⟨rfl, h.add hopen hadd⟩
  · cases hok
    exact ⟨rfl, places, h⟩

end Positions

/-! ## Single bytes -/

section Ascii

variable {loc : Locale} {a : Analyzer} {m : Option MetaName} {context : XmlStr}
  {tl₀ tl tl' : TokenList} {seen : List Nat} {places : List (Place Token)}
  {st st' : TokenizeState} {v w : XmlStr} {b nextc : XmlChar}

/-- The bytes `w` at the end of the text are a word, which the work block has in lower case. -/
structure AsciiWord (seen : List Nat) (places : List (Place Token)) (st : TokenizeState)
    (w : XmlStr) : Prop where
  text : ∃ pre, seen = pre ++ w.map UInt8.toNat ∧ ∀ p ∈ places, p.stop ≤ pre.length
  bytes : ∀ b ∈ w, b < 0x80 ∧ b ≠ tokenposBumper
  block : st.token.take st.tokenLen = w.map tolower
  len : st.tokenLen = w.length

/-- The tokens are where the text says, and the open word ends it. -/
def AsciiAt (loc : Locale) (tl₀ : TokenList) (seen : List Nat) (st : TokenizeState) : Prop :=
  ∃ places, Positioned loc tl₀ st.tl seen places ∧
    (st.insideToken = true → ∃ w, AsciiWord seen places st w)

theorem Between.asciiAt (h : Between loc tl₀ seen st) : AsciiAt loc tl₀ seen st := by
  obtain ⟨hinside, places, hpos⟩ := h
  refine ⟨places, hpos, ?_⟩
  simp [hinside]

theorem lowerWord_map_toNat (ha : loc.AsciiAgrees) (hw : ∀ b ∈ w, b < 0x80) :
    lowerWord loc (w.map UInt8.toNat) = w.map tolower := by
  induction w with
  | nil => rfl
  | cons b w ih =>
      have hb : b < 0x80 := hw b (by simp)
      have htail := ih fun d hd => hw d (by simp [hd])
      rw [lowerWord] at htail ⊢
      rw [List.map_cons, List.flatMap_cons, htail, ha.towlower b hb,
        encodeChar_toNat (tolower_lt hb)]
      rfl

/-- What is left of the word behind its first `k` bytes. -/
theorem AsciiWord.openWord (h : AsciiWord seen places st w) (ha : loc.AsciiAgrees) {k : Nat}
    (hv : v <+: (w.map tolower).drop k) : OpenWord loc seen places v := by
  obtain ⟨pre, rfl, hstop⟩ := h.text
  refine ⟨pre ++ (w.take k).map UInt8.toNat, (w.drop k).map UInt8.toNat, ?_, ?_, ?_, ?_⟩
  · rw [List.append_assoc, ← List.map_append, List.take_append_drop]
  · intro p hp
    have := hstop p hp
    rw [List.length_append]
    omega
  · intro hmem
    obtain ⟨b, hb, heq⟩ := List.mem_map.mp hmem
    exact (h.bytes b (List.mem_of_mem_drop hb)).2 (UInt8.toNat_inj.mp heq)
  · refine Written.of_isPrefix (v := (w.map tolower).drop k) ?_ hv
    have hlower : lowerWord loc ((w.drop k).map UInt8.toNat) = (w.map tolower).drop k := by
      rw [lowerWord_map_toNat ha fun b hb => (h.bytes b (List.mem_of_mem_drop hb)).1,
        List.map_drop]
    rw [← hlower]
    exact ⟨fun _ => rfl, List.Sublist.refl _⟩

theorem between_endAscii (ha : loc.AsciiAgrees) (hw : AsciiWord seen places st w)
    (h : Positioned loc tl₀ st.tl seen places) (hok : endAscii a m context st = .ok st') :
    Between loc tl₀ seen st' := by
  obtain ⟨token, hstore, hok⟩ := bind_ok_iff.mp hok
  obtain ⟨hroom, rfl⟩ := store_ok_iff.mp hstore
  obtain ⟨⟨token', len'⟩, hstrip, hok⟩ := bind_ok_iff.mp hok
  obtain ⟨k, hk⟩ := stripAsciiChrs_isPrefix hstrip
  have hbytes : cstr token' <+: (w.map tolower).drop k := by
    refine hk.trans (prefix_drop ?_ k)
    rw [← hw.block]
    exact prefix_of_set_zero hroom
  exact between_addStripped h (hw.openWord ha hbytes) hok

theorem tolower_eq_bumper_iff : tolower b = tokenposBumper ↔ b = tokenposBumper := by
  simp only [← UInt8.toNat_inj, toNat_tolower, tokenposBumper, UInt8.reduceToNat]
  split <;> omega

/-- The test for a bumper is made on the byte in lower case. -/
theorem isBumper_iff : decide (tolower b = tokenposBumper) = true ↔
    b.toNat = tokenposBumper.toNat := by
  rw [decide_eq_true_iff, tolower_eq_bumper_iff, UInt8.toNat_inj]

theorem ignoreAscii_at (ha : loc.AsciiAgrees) (h : AsciiAt loc tl₀ seen st)
    (hok : ignoreAscii a m context st (tolower b) = .ok st') :
    AsciiAt loc tl₀ (seen ++ [b.toNat]) st' := by
  obtain ⟨places, hpos, hword⟩ := h
  unfold ignoreAscii at hok
  by_cases hinside : st.insideToken = true
  · obtain ⟨w, hw⟩ := hword hinside
    rw [if_pos hinside] at hok
    obtain ⟨st₁, hend, hok⟩ := bind_ok_iff.mp hok
    cases hok
    exact ((between_endAscii ha hw hpos hend).skip isBumper_iff).asciiAt
  · rw [if_neg hinside] at hok
    cases hok
    have hbetween : Between loc tl₀ seen st := ⟨by simpa using hinside, places, hpos⟩
    exact (hbetween.skip isBumper_iff).asciiAt

theorem ne_bumper_of_word (h : isIgnoreWordAscii b = false) : b ≠ tokenposBumper := by
  rintro rfl
  exact absurd h (by decide)

theorem lt_of_tolower_lt (h : tolower b < 0x80) : b < 0x80 := by
  simp only [UInt8.lt_iff_toNat_lt, UInt8.reduceToNat, toNat_tolower] at h ⊢
  split at h <;> omega

/-- A byte is added to the open word. -/
theorem AsciiWord.append (h : AsciiWord seen places st w) (hlow : b < 0x80)
    (hbumper : b ≠ tokenposBumper) (hroom : st.tokenLen < st.token.length) :
    AsciiWord (seen ++ [b.toNat]) places
      { st with token := st.token.set st.tokenLen (tolower b), tokenLen := st.tokenLen + 1 }
      (w ++ [b]) where
  text := by
    obtain ⟨pre, rfl, hstop⟩ := h.text
    exact ⟨pre, by simp, hstop⟩
  bytes := by
    intro d hd
    rcases List.mem_append.mp hd with hd | hd
    · exact h.bytes d hd
    · rw [List.mem_singleton] at hd
      subst hd
      exact ⟨hlow, hbumper⟩
  block := by
    have hlen : (st.token.take st.tokenLen).length = st.tokenLen := by
      rw [List.length_take, Nat.min_eq_left hroom.le]
    have htake := @List.take_length_add_append _ (st.token.take st.tokenLen)
      (tolower b :: st.token.drop (st.tokenLen + 1)) 1
    rw [hlen] at htake
    rw [List.set_eq_take_append_cons_drop, if_pos hroom, htake, h.block]
    simp
  len := by simp [h.len]

/-- A byte that is no bumper is passed over. -/
theorem Positioned.read (h : Positioned loc tl₀ st.tl seen places) (hb : b ≠ tokenposBumper) :
    Positioned loc tl₀ st.tl (seen ++ [b.toNat]) places :=
  h.skip false (by simpa [UInt8.toNat_inj] using hb)

theorem appendAscii_at (ha : loc.AsciiAgrees) (h : Positioned loc tl₀ st.tl seen places)
    (hw : AsciiWord seen places st w) (hlow : b < 0x80) (hbumper : b ≠ tokenposBumper)
    (hok : appendAscii a m context st (tolower b) nextc = .ok st') :
    AsciiAt loc tl₀ (seen ++ [b.toNat]) st' := by
  have hbump : decide (tolower b = tokenposBumper) = false := by
    simpa [tolower_eq_bumper_iff] using hbumper
  have hread := h.read hbumper
  obtain ⟨token, hstore, hok⟩ := bind_ok_iff.mp hok
  obtain ⟨hroom, rfl⟩ := store_ok_iff.mp hstore
  have hword := hw.append hlow hbumper hroom
  simp only [hbump] at hok
  split at hok
  · obtain ⟨st₁, hend, hok⟩ := bind_ok_iff.mp hok
    cases hok
    exact (between_endAscii ha hword hread hend).asciiAt
  · cases hok
    exact ⟨places, hread, fun _ => ⟨_, hword⟩⟩

theorem startAscii_at (ha : loc.AsciiAgrees) (h : Positioned loc tl₀ st.tl seen places)
    (hlow : b < 0x80) (hbumper : b ≠ tokenposBumper)
    (hok : startAscii a m context st (tolower b) nextc = .ok st') :
    AsciiAt loc tl₀ (seen ++ [b.toNat]) st' := by
  have hbump : decide (tolower b = tokenposBumper) = false := by
    simpa [tolower_eq_bumper_iff] using hbumper
  have hread := h.read hbumper
  obtain ⟨token, hstore, hok⟩ := bind_ok_iff.mp hok
  obtain ⟨hroom, rfl⟩ := store_ok_iff.mp hstore
  have hempty : AsciiWord seen places { st with tokenLen := 0 } [] :=
    ⟨⟨seen, by simp, h.stop_le⟩, by simp, by simp, rfl⟩
  have hword := hempty.append hlow hbumper hroom
  simp only [hbump] at hok
  split at hok
  · obtain ⟨token, hstore, hok⟩ := bind_ok_iff.mp hok
    obtain ⟨hroom', rfl⟩ := store_ok_iff.mp hstore
    obtain ⟨tl', hadd, hok⟩ := bind_ok_iff.mp hok
    cases hok
    have hbytes := prefix_of_set_zero hroom'
    have hblock : (st.token.set 0 (tolower b)).take 1 = [b].map tolower := hword.block
    rw [hblock] at hbytes
    obtain ⟨places', hpos⟩ := hread.add (hword.openWord ha (k := 0) hbytes) hadd
    exact Between.asciiAt ⟨rfl, places', hpos⟩
  · cases hok
    exact ⟨places, hread, fun _ => ⟨[b], hword.text, hword.bytes, hword.block, hword.len⟩⟩

/-- One byte is read. -/
theorem asciiStep_at (ha : loc.AsciiAgrees) (h : AsciiAt loc tl₀ seen st)
    (hok : asciiStep a m context st (tolower b) nextc = .ok st') :
    b < 0x80 ∧ AsciiAt loc tl₀ (seen ++ [b.toNat]) st' := by
  obtain ⟨isWord, htable, hok⟩ := bind_ok_iff.mp hok
  have hlow : tolower b < 0x80 := by
    by_contra hge
    rw [asciiWordTable, asciiTable, if_neg hge] at htable
    cases htable
  rw [asciiWordTable_of_lt hlow, Except.ok.injEq] at htable
  have hb := lt_of_tolower_lt hlow
  refine ⟨hb, ?_⟩
  by_cases hisWord : isWord = true
  · have hbumper : b ≠ tokenposBumper := by
      have := ne_bumper_of_word (b := tolower b) (by simpa [hisWord] using htable)
      rwa [Ne, tolower_eq_bumper_iff] at this
    rw [if_pos hisWord] at hok
    obtain ⟨places, hpos, hword⟩ := h
    by_cases hinside : st.insideToken = true
    · obtain ⟨w, hw⟩ := hword hinside
      rw [if_pos hinside] at hok
      exact appendAscii_at ha hpos hw hb hbumper hok
    · rw [if_neg hinside] at hok
      exact startAscii_at ha hpos hb hbumper hok
  · rw [if_neg hisWord] at hok
    exact ignoreAscii_at ha h hok

/-- Every byte of the text is read. -/
theorem asciiLoop_at (ha : loc.AsciiAgrees) {s : XmlStr} (h : AsciiAt loc tl₀ seen st)
    (hok : asciiLoop a m context st s = .ok st') :
    (∀ b ∈ s, b < 0x80) ∧ AsciiAt loc tl₀ (seen ++ s.map UInt8.toNat) st' := by
  induction s generalizing st seen with
  | nil =>
      cases hok
      refine ⟨by simp, ?_⟩
      simpa using h
  | cons b s ih =>
      obtain ⟨st₁, hstep, hok⟩ := bind_ok_iff.mp hok
      obtain ⟨hb, hat⟩ := asciiStep_at ha h hstep
      obtain ⟨hs, hat'⟩ := ih hat hok
      refine ⟨List.forall_mem_cons.mpr ⟨hb, hs⟩, ?_⟩
      simpa using hat'

end Ascii

/-! ## UTF-8 characters -/

section Utf8

variable {loc : Locale} {a : Analyzer} {m : Option MetaName} {context : XmlStr}
  {tl₀ tl tl' : TokenList} {seen : List Nat} {places : List (Place Token)}
  {st st' : TokenizeState} {v token token' token'' chr : XmlStr} {c n : Nat} {last : Bool}

/-- The tokens are where the text says, and the word in the work block ends it. -/
def Utf8At (loc : Locale) (tl₀ : TokenList) (seen : List Nat) (st : TokenizeState) : Prop :=
  ∃ places, Positioned loc tl₀ st.tl seen places ∧
    (st.insideToken = true → OpenWord loc seen places (cstr st.token))

theorem Between.utf8At (h : Between loc tl₀ seen st) : Utf8At loc tl₀ seen st := by
  obtain ⟨hinside, places, hpos⟩ := h
  refine ⟨places, hpos, ?_⟩
  simp [hinside]

theorem between_endUtf8 (hok : endUtf8 loc a m context st = .ok st')
    (hw : OpenWord loc seen places (cstr st.token)) (h : Positioned loc tl₀ st.tl seen places) :
    Between loc tl₀ seen st' := by
  obtain ⟨token, hstore, hok⟩ := bind_ok_iff.mp hok
  obtain ⟨-, rfl⟩ := store_ok_iff.mp hstore
  obtain ⟨⟨token', len'⟩, hstrip, hok⟩ := bind_ok_iff.mp hok
  have hbytes := (stripUtf8Chrs_isPrefix hstrip).trans (cstr_set_zero_isPrefix _ _)
  exact between_addStripped h (hw.of_isPrefix hbytes) hok

/-- A character and a NUL are written behind the first `n` bytes. -/
theorem cstr_storeAll_isPrefix (hall : storeAll token n chr = .ok token')
    (hzero : store token' (n + chr.length) 0 = .ok token'') :
    cstr token'' <+: cstr (token.take n) ++ chr := by
  unfold storeAll at hall
  split at hall
  · rename_i hroom
    cases hall
    obtain ⟨hlt, rfl⟩ := store_ok_iff.mp hzero
    have hlen : (token.take n ++ chr).length = n + chr.length := by
      rw [List.length_append, List.length_take, Nat.min_eq_left (by omega)]
    have hset (rest : XmlStr) : (token.take n ++ chr ++ rest).set (n + chr.length) 0 =
        token.take n ++ chr ++ rest.set 0 0 := by
      rw [← hlen, List.set_append_right _ _ (Nat.le_refl _), Nat.sub_self]
    rw [hset]
    cases hrest : token.drop (n + chr.length) with
    | nil =>
        rw [hrest, List.append_nil, hlen] at hlt
        exact absurd hlt (Nat.lt_irrefl _)
    | cons d rest => exact cstr_append_zero_isPrefix _ _ _
  · cases hall

theorem lowerWord_append (word word' : List Nat) :
    lowerWord loc (word ++ word') = lowerWord loc word ++ lowerWord loc word' := by
  simp [lowerWord]

theorem lowerWord_singleton (c : Nat) : lowerWord loc [c] = encodeChar (loc.towlower c) := by
  simp [lowerWord]

/-- A word starts with its first character. -/
theorem openWord_singleton (hstop : ∀ p ∈ places, p.stop ≤ seen.length)
    (hbumper : c ≠ tokenposBumper.toNat) (hv : v <+: encodeChar (loc.towlower c)) :
    OpenWord loc (seen ++ [c]) places v := by
  refine ⟨seen, [c], rfl, hstop, by simpa using hbumper.symm, Written.of_isPrefix ?_ hv⟩
  rw [← lowerWord_singleton]
  exact ⟨fun _ => rfl, List.Sublist.refl _⟩

/-- A character is written behind the first `n` bytes of the open word. -/
theorem OpenWord.append (h : OpenWord loc seen places (cstr token))
    (hstop : ∀ p ∈ places, p.stop ≤ seen.length) (hbumper : c ≠ tokenposBumper.toNat)
    (hv : v <+: cstr (token.take n) ++ encodeChar (loc.towlower c)) :
    OpenWord loc (seen ++ [c]) places v := by
  by_cases hempty : cstr (token.take n) = []
  · rw [hempty, List.nil_append] at hv
    exact openWord_singleton hstop hbumper hv
  · obtain ⟨pre, word, rfl, hstops, hword, hw⟩ := h
    have hkept := hw.of_isPrefix (cstr_take_isPrefix token n)
    have hne := hkept.lower_ne_nil hempty
    refine ⟨pre, word ++ [c], List.append_assoc _ _ _, hstops, ?_, Written.of_isPrefix ?_ hv⟩
    · simp only [List.mem_append, List.mem_singleton, not_or]
      exact ⟨hword, hbumper.symm⟩
    · rw [← lowerWord_singleton]
      refine ⟨fun _ => ?_, ?_⟩
      · rw [lowerWord_append, List.head?_append_of_ne_nil _ hempty,
          List.head?_append_of_ne_nil _ hne, hkept.head hempty]
      · rw [lowerWord_append]
        exact hkept.bytes.append (List.Sublist.refl _)

/-- A character that was skipped inside of an open word. -/
theorem OpenWord.skip (h : OpenWord loc seen places v) (hbumper : c ≠ tokenposBumper.toNat) :
    OpenWord loc (seen ++ [c]) places v := by
  obtain ⟨pre, word, rfl, hstops, hword, hw⟩ := h
  refine ⟨pre, word ++ [c], List.append_assoc _ _ _, hstops, ?_, ?_, ?_⟩
  · simp only [List.mem_append, List.mem_singleton, not_or]
    exact ⟨hword, hbumper.symm⟩
  · intro hne
    rw [lowerWord_append, List.head?_append_of_ne_nil _ (hw.lower_ne_nil hne), hw.head hne]
  · rw [lowerWord_append]
    exact hw.bytes.trans (List.sublist_append_left _ _)

theorem towlower_eq_bumper_iff (ha : loc.AsciiAgrees) (hl : loc.LowersToLetters) :
    loc.towlower c = tokenposBumper.toNat ↔ c = tokenposBumper.toNat := by
  constructor
  · intro h
    rcases hl.towlower_eq_or c with heq | hcntrl
    · rw [← heq, h]
    · rw [h, ha.iswcntrl tokenposBumper (by decide)] at hcntrl
      exact absurd hcntrl (by decide)
  · rintro rfl
    exact ha.towlower tokenposBumper (by decide)

theorem ne_bumper_of_word_utf8 (ha : loc.AsciiAgrees)
    (h : isIgnoreWordUtf8 loc (loc.towlower c) = false) : c ≠ tokenposBumper.toNat := by
  rintro rfl
  rw [ha.towlower tokenposBumper (by decide)] at h
  have hbumper := isIgnoreWordUtf8_of_lt ha (c := tokenposBumper) (by decide)
  exact absurd (hbumper.symm.trans h) (by decide)

theorem ignoreUtf8_at (ha : loc.AsciiAgrees) (hl : loc.LowersToLetters)
    (h : Utf8At loc tl₀ seen st)
    (hok : ignoreUtf8 loc a m context st (loc.towlower c) = .ok st') :
    Utf8At loc tl₀ (seen ++ [c]) st' := by
  have hbump : decide (loc.towlower c = tokenposBumper.toNat) = true ↔
      c = tokenposBumper.toNat := by
    rw [decide_eq_true_iff, towlower_eq_bumper_iff ha hl]
  obtain ⟨places, hpos, hword⟩ := h
  unfold ignoreUtf8 at hok
  by_cases hinside : st.insideToken = true
  · rw [if_pos hinside] at hok
    obtain ⟨st₁, hend, hok⟩ := bind_ok_iff.mp hok
    cases hok
    exact ((between_endUtf8 hend (hword hinside) hpos).skip hbump).utf8At
  · rw [if_neg hinside] at hok
    cases hok
    have hbetween : Between loc tl₀ seen st := ⟨by simpa using hinside, places, hpos⟩
    exact (hbetween.skip hbump).utf8At

theorem appendUtf8_at (hbump : decide (loc.towlower c = tokenposBumper.toNat) = false)
    (hbumper : c ≠ tokenposBumper.toNat) (h : Positioned loc tl₀ st.tl seen places)
    (hw : OpenWord loc seen places (cstr st.token))
    (hok : appendUtf8 loc a m context st (encodeChar (loc.towlower c)) (loc.towlower c) last =
      .ok st') : Utf8At loc tl₀ (seen ++ [c]) st' := by
  have hread : Positioned loc tl₀ st.tl (seen ++ [c]) places :=
    h.skip false (by simpa using hbumper)
  unfold appendUtf8 at hok
  split at hok
  · cases hok
    exact ⟨places, hread, fun _ => hw.skip hbumper⟩
  · obtain ⟨token, hall, hok⟩ := bind_ok_iff.mp hok
    obtain ⟨token', hzero, hok⟩ := bind_ok_iff.mp hok
    have hword := hw.append h.stop_le hbumper (cstr_storeAll_isPrefix hall hzero)
    simp only [hbump] at hok
    split at hok
    · obtain ⟨st₁, hend, hok⟩ := bind_ok_iff.mp hok
      cases hok
      exact (between_endUtf8 hend hword hread).utf8At
    · cases hok
      exact ⟨places, hread, fun _ => hword⟩

theorem startUtf8_at (hbump : decide (loc.towlower c = tokenposBumper.toNat) = false)
    (hbumper : c ≠ tokenposBumper.toNat) (h : Positioned loc tl₀ st.tl seen places)
    (hok : startUtf8 a m context st (encodeChar (loc.towlower c)) (loc.towlower c) last =
      .ok st') : Utf8At loc tl₀ (seen ++ [c]) st' := by
  have hread : Positioned loc tl₀ st.tl (seen ++ [c]) places :=
    h.skip false (by simpa using hbumper)
  obtain ⟨token₀, hstore, hok⟩ := bind_ok_iff.mp hok
  split at hok
  · cases hok
    obtain ⟨-, rfl⟩ := store_ok_iff.mp hstore
    refine ⟨places, hread, fun _ => openWord_singleton h.stop_le hbumper ?_⟩
    cases st.token with
    | nil => simp [cstr]
    | cons d rest => simp [cstr]
  · obtain ⟨token, hall, hok⟩ := bind_ok_iff.mp hok
    obtain ⟨token', hzero, hok⟩ := bind_ok_iff.mp hok
    have hbytes : cstr token' <+: encodeChar (loc.towlower c) := by
      simpa [cstr] using cstr_storeAll_isPrefix (n := 0) hall (by simpa using hzero)
    simp only [hbump] at hok
    split at hok
    · obtain ⟨token'', hzero', hok⟩ := bind_ok_iff.mp hok
      obtain ⟨-, rfl⟩ := store_ok_iff.mp hzero'
      obtain ⟨tl', hadd, hok⟩ := bind_ok_iff.mp hok
      cases hok
      have hword := openWord_singleton h.stop_le hbumper
        ((cstr_set_zero_isPrefix token' (encodeChar (loc.towlower c)).length).trans hbytes)
      obtain ⟨places', hpos⟩ := hread.add hword hadd
      exact Between.utf8At ⟨rfl, places', hpos⟩
    · cases hok
      exact ⟨places, hread, fun _ => openWord_singleton h.stop_le hbumper hbytes⟩

/-- One character is read. -/
theorem utf8Step_at (ha : loc.AsciiAgrees) (hl : loc.LowersToLetters)
    (h : Utf8At loc tl₀ seen st) (hc : isScalar (loc.towlower c))
    (hok : utf8Step loc a m context st (encodeChar (loc.towlower c)) last = .ok st') :
    Utf8At loc tl₀ (seen ++ [c]) st' := by
  rw [utf8Step, utf8Codepoint_encodeChar hc, ok_bind] at hok
  by_cases hignore : isIgnoreWordUtf8 loc (loc.towlower c) = true
  · rw [if_pos hignore] at hok
    exact ignoreUtf8_at ha hl h hok
  · have hbumper := ne_bumper_of_word_utf8 ha (by simpa using hignore)
    have hbump : decide (loc.towlower c = tokenposBumper.toNat) = false := by
      simpa [towlower_eq_bumper_iff ha hl] using hbumper
    rw [if_neg hignore] at hok
    obtain ⟨places, hpos, hword⟩ := h
    by_cases hinside : st.insideToken = true
    · rw [if_pos hinside] at hok
      exact appendUtf8_at hbump hbumper hpos (hword hinside) hok
    · rw [if_neg hinside] at hok
      exact startUtf8_at hbump hbumper hpos hok

/-- Every character of the text is read. -/
theorem utf8Loop_at (ha : loc.AsciiAgrees) (hl : loc.LowersToLetters) {ws : List Nat}
    (h : Utf8At loc tl₀ seen st) (hws : ∀ c ∈ ws, isScalar (loc.towlower c))
    (hok : utf8Loop loc a m context st (ws.map fun c => encodeChar (loc.towlower c)) =
      .ok st') : Utf8At loc tl₀ (seen ++ ws) st' := by
  induction ws generalizing st seen with
  | nil =>
      cases hok
      simpa using h
  | cons c ws ih =>
      obtain ⟨st₁, hstep, hok⟩ := bind_ok_iff.mp hok
      have hat := utf8Step_at ha hl h (hws c (by simp)) hstep
      simpa using ih hat (fun d hd => hws d (by simp [hd])) hok

end Utf8

/-! ## Calls -/

/-- A call of one of the two tokenizers. -/
structure TokenizeCall where
  isAscii : Bool
  analyzer : Analyzer
  metaname : Option MetaName
  context : XmlStr
  block : XmlStr
  buf : XmlStr

def TokenizeCall.run (loc : Locale) (call : TokenizeCall) (tl : TokenList) :
    Swish (TokenList × Nat) :=
  if call.isAscii then
    tokenizeAscii call.analyzer call.metaname call.context call.block tl call.buf
  else tokenizeUtf8 loc call.analyzer call.metaname call.context call.block tl call.buf

/-- One more call on the token list. -/
def tokenizeNext (loc : Locale) (tl : TokenList) (call : TokenizeCall) : Swish TokenList := do
  let (tl, _) ← call.run loc tl
  pure tl

/-- Calls on one token list, one after the other. -/
def tokenizeCalls (loc : Locale) : TokenList → List TokenizeCall → Swish TokenList :=
  Runs.run (tokenizeNext loc)

/-- The characters of a call's buffer. -/
def TokenizeCall.text (call : TokenizeCall) : List Nat := (mbstowcs (cstr call.buf)).getD []

/-- What a call that returns `n` has changed. -/
structure CallPositions (loc : Locale) (tl tl' : TokenList) (n : Nat) (buf : XmlStr)
    (text : List Nat) : Prop where
  pos : tl'.pos = tl.pos + UInt32.ofNat (n + (cstr buf).count tokenposBumper)
  tokens : ∃ places, places.length = n ∧ Positioned loc tl tl' text places

/-- The positions grow, and a bumper between two tokens keeps them from being adjacent. -/
def GrowingPositions (text : List Nat) (places : List (Place Token)) : Prop :=
  places.Pairwise (fun p q => p.item.number < q.item.number) ∧
    places.Pairwise fun p q =>
      tokenposBumper.toNat ∈ slice text p.stop q.start → p.item.number + 1 < q.item.number

/-- What a sequence of calls has changed: their tokens stand in the text of all of them, and their
positions grow unless the counter wraps. -/
def RunPositions (loc : Locale) (tl tl' : TokenList) (text : List Nat) : Prop :=
  ∃ places, Positioned loc tl tl' text places ∧
    (tl.pos.toNat + places.length + text.count tokenposBumper.toNat < 2 ^ 32 →
      GrowingPositions text places)

section Calls

variable {loc : Locale} {tl₀ tl tl' : TokenList} {text more : List Nat}
  {places places' : List (Place Token)} {call : TokenizeCall} {n : Nat}

/-- A second text is tokenized into the same list. -/
theorem Positioned.trans (h : Positioned loc tl₀ tl text places)
    (h' : Positioned loc tl tl' more places') :
    Positioned loc tl₀ tl' (text ++ more) (places ++ places'.map (Place.shift text.length)) where
  tokens := by
    rw [h'.tokens, h.tokens, List.map_append, List.map_map, List.append_assoc]
    rfl
  laid := h.laid.append h'.laid
  numbered := by
    refine h.numbered.append h.start_le ?_ h'.numbered
    rw [h.pos, Nat.mod_mod]
  pos := by
    rw [h'.pos, h.pos, List.length_append, List.length_map, List.count_append]
    omega

/-- Either tokenizer reads its text to the end. -/
theorem TokenizeCall.run_positioned (ha : loc.AsciiAgrees) (hl : loc.LowersToLetters)
    (htext : mbstowcs (cstr call.buf) = some text) (hok : call.run loc tl = .ok (tl', n)) :
    ∃ places, places.length = n ∧ Positioned loc tl tl' text places := by
  have hcount : ∀ places, Positioned loc tl tl' text places → places.length = tl'.n - tl.n := by
    intro places h
    simp [TokenList.n, h.tokens]
  unfold TokenizeCall.run at hok
  by_cases hascii : call.isAscii = true
  · rw [if_pos hascii] at hok
    obtain ⟨token, -, hok⟩ := bind_ok_iff.mp hok
    obtain ⟨st, hloop, hok⟩ := bind_ok_iff.mp hok
    cases hok
    have hstart : AsciiAt loc tl [] ⟨tl, false, token, 0⟩ :=
      Between.asciiAt ⟨rfl, [], Positioned.refl tl⟩
    obtain ⟨hbytes, places, hpos, -⟩ := asciiLoop_at ha hstart hloop
    rw [mbstowcs_of_ascii hbytes, Option.some.injEq] at htext
    rw [List.nil_append, htext] at hpos
    exact ⟨places, hcount places hpos, hpos⟩
  · rw [if_neg hascii] at hok
    obtain ⟨bufLower, hlower, hok⟩ := bind_ok_iff.mp hok
    obtain ⟨st, hloop, hok⟩ := bind_ok_iff.mp hok
    cases hok
    have hstart : Utf8At loc tl [] ⟨tl, false, call.block, 0⟩ :=
      Between.utf8At ⟨rfl, [], Positioned.refl tl⟩
    simp only [utf8StrTolower, htext, wcstombs] at hlower
    by_cases hscalar : (text.map loc.towlower).all isScalar = true
    · rw [if_pos hscalar, Except.ok.injEq] at hlower
      subst hlower
      have hchars : ∀ c ∈ text, isScalar (loc.towlower c) := by
        intro c hc
        exact List.all_eq_true.mp hscalar _ (List.mem_map_of_mem hc)
      rw [utf8Chrs_flatMap (List.all_eq_true.mp hscalar), List.map_map] at hloop
      obtain ⟨places, hpos, -⟩ := utf8Loop_at ha hl hstart hchars hloop
      exact ⟨places, hcount places hpos, hpos⟩
    · rw [if_neg hscalar] at hlower
      cases hlower

/-- The texts of a sequence of calls are read like one text. -/
theorem tokenizeCalls_positioned (ha : loc.AsciiAgrees) (hl : loc.LowersToLetters)
    {calls : List TokenizeCall} (hvalid : ∀ call ∈ calls, (mbstowcs (cstr call.buf)).isSome)
    (hok : tokenizeCalls loc tl calls = .ok tl') :
    ∃ places, Positioned loc tl tl' (calls.flatMap TokenizeCall.text) places := by
  induction calls generalizing tl with
  | nil =>
      cases hok
      exact ⟨[], Positioned.refl tl'⟩
  | cons call calls ih =>
      obtain ⟨tl₁, hcall, hok⟩ := run_cons_ok_iff.mp hok
      obtain ⟨⟨tl₁, n⟩, hcall, heq⟩ := bind_ok_iff.mp hcall
      cases heq
      obtain ⟨text, htext⟩ := Option.isSome_iff_exists.mp (hvalid call (by simp))
      obtain ⟨places, -, h⟩ := call.run_positioned ha hl htext hcall
      obtain ⟨places', h'⟩ := ih (fun c hc => hvalid c (by simp [hc])) hok
      refine ⟨places ++ places'.map (Place.shift text.length), ?_⟩
      rw [List.flatMap_cons, TokenizeCall.text, htext]
      exact h.trans h'

/-- A call moves the position counter by its tokens and its bumpers, and a token's position
counts the tokens and the bumpers in front of its first character, in 32 bits.  Over a sequence
of calls that does not reach the limit positions grow, and a bumper keeps tokens from being
adjacent. -/
theorem tokenize_positions (ha : loc.AsciiAgrees) (hl : loc.LowersToLetters) :
    (∀ (call : TokenizeCall) (tl tl' : TokenList) (n : Nat) (text : List Nat),
      mbstowcs (cstr call.buf) = some text → call.run loc tl = .ok (tl', n) →
      CallPositions loc tl tl' n call.buf text) ∧
    ∀ (calls : List TokenizeCall) (tl tl' : TokenList),
      (∀ call ∈ calls, (mbstowcs (cstr call.buf)).isSome) →
      tokenizeCalls loc tl calls = .ok tl' →
      RunPositions loc tl tl' (calls.flatMap TokenizeCall.text) := by
  refine ⟨fun call tl tl' n text htext hok => ?_, fun calls tl tl' hvalid hok => ?_⟩
  · obtain ⟨places, hn, h⟩ := call.run_positioned ha hl htext hok
    refine ⟨?_, places, hn, h⟩
    rw [← UInt32.toNat_inj, h.pos, hn, UInt32.toNat_add, UInt32.toNat_ofNat',
      count_of_mbstowcs (by decide) htext]
    omega
  · obtain ⟨places, h⟩ := tokenizeCalls_positioned ha hl hvalid hok
    exact ⟨places, h, fun hlimit =>
      ⟨h.numbered.pairwise_lt hlimit h.laid, h.numbered.pairwise_apart hlimit h.laid⟩⟩

end Calls

/-- An ASCII text with a bumper between its two words. -/
def bumperBetween : TokenizeCall where
  isAscii := true
  analyzer := ⟨256, 1, true, fun tl _ _ _ => .ok (tl, 0)⟩
  metaname := some ⟨0, lit "a", 0, .null⟩
  context := lit "a"
  block := List.replicate 8 1
  buf := lit "to" ++ 3 :: lit "be"

/-- A text in UTF-8 that starts with a bumper. -/
def bumperFirst : TokenizeCall :=
  { bumperBetween with isAscii := false, buf := 3 :: encodeChar 233 ++ lit "t" }

theorem tokenize_positions_bumpers :
    (∃ tl, bumperBetween.run .posix .init = .ok (tl, 2) ∧
      CallPositions .posix .init tl 2 bumperBetween.buf bumperBetween.text) ∧
    ∃ tl, tokenizeCalls .posix .init [bumperBetween, bumperFirst] = .ok tl ∧
      tl.tokens.map Token.pos = [1, 3, 5] ∧
      ∃ places, Positioned .posix .init tl (bumperBetween.text ++ (bumperFirst.text ++ [])) places ∧
        GrowingPositions (bumperBetween.text ++ (bumperFirst.text ++ [])) places := by
  obtain ⟨hcall, hrun⟩ :=
    tokenize_positions Locale.posix_asciiAgrees Locale.posix_lowersToLetters
  constructor
  · obtain ⟨⟨tl, n⟩, hok, hn⟩ := exists_ok_of_map (f := Prod.snd)
      (show (bumperBetween.run .posix .init).toOption.map Prod.snd = some 2 by decide +kernel)
    simp only at hn
    subst hn
    exact ⟨tl, hok, hcall _ _ _ _ _ (by decide +kernel) hok⟩
  · obtain ⟨tl, hok, hpos⟩ := exists_ok_of_map (f := fun tl : TokenList => tl.tokens.map Token.pos)
      (show (tokenizeCalls .posix .init [bumperBetween, bumperFirst]).toOption.map
        (fun tl : TokenList => tl.tokens.map Token.pos) = some [1, 3, 5] by decide +kernel)
    obtain ⟨places, hplaces, hgrow⟩ :=
      hrun [bumperBetween, bumperFirst] .init tl (by decide +kernel) hok
    refine ⟨tl, hok, hpos, places, hplaces, hgrow ?_⟩
    have hlen : places.length = 3 := by
      simpa [hplaces.tokens, TokenList.init] using congrArg List.length hpos
    rw [hlen]
    decide +kernel

/-- Two positions below the limit the second of two tokens gets a lower position. -/
theorem tokenize_positions_wrap :
    ¬ ∀ (loc : Locale), loc.AsciiAgrees → loc.LowersToLetters →
      ∀ (calls : List TokenizeCall) (tl tl' : TokenList),
      (∀ call ∈ calls, (mbstowcs (cstr call.buf)).isSome) → tokenizeCalls loc tl calls = .ok tl' →
      ∃ places, Positioned loc tl tl' (calls.flatMap TokenizeCall.text) places ∧
        GrowingPositions (calls.flatMap TokenizeCall.text) places := by
  intro h
  obtain ⟨tl', hok, hnumbers⟩ := exists_ok_of_map
    (f := fun tl : TokenList => tl.tokens.map Token.number)
    (show (tokenizeCalls .posix ⟨4294967294, []⟩ [bumperBetween]).toOption.map
      (fun tl : TokenList => tl.tokens.map Token.number) = some [4294967295, 1] by decide +kernel)
  obtain ⟨places, hplaces, hgrow, -⟩ := h .posix Locale.posix_asciiAgrees
    Locale.posix_lowersToLetters [bumperBetween] ⟨4294967294, []⟩ tl' (by decide +kernel) hok
  simp only [hplaces.tokens, List.nil_append, List.map_map] at hnumbers
  have hsorted : ((places.map (Token.number ∘ Place.item)).Pairwise (· < ·)) :=
    List.pairwise_map.mpr hgrow
  rw [hnumbers] at hsorted
  simp at hsorted

end LibSwish3
