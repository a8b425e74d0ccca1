import LibSwish3.Utf8Strip
import LibSwish3.WorkBlock

/-!
# The words of a UTF-8 text

A run of word characters goes into the work block character by character; one that would make
the word longer than `maxwordlen` bytes is left out.  The word is ended by the character behind
the run, or at the last character of the text if that one is copied.  So a run is lost when its
last character ends the text and is left out, or when all its letters are left out.

## Main definitions

* `keptChars` — what is copied of a run.
* `RunKept`, `KeepsWords` — the words of a run are added.
* `Survives` — a run of which a word is added.
* `tokenizeUtf8_keepsWords` — where the call loses no word.
-/

namespace LibSwish3

open Runs Segments

/-! ## The block -/

section Block

/-- `memcpy` and a NUL behind. -/
theorem storeAll_nul (block bytes : XmlStr) (i : Nat) (h : i + bytes.length < block.length) :
    ∃ block', storeAll block i bytes = .ok block' ∧
      store block' (i + bytes.length) 0 =
        .ok (block.take i ++ bytes ++ 0 :: block.drop (i + bytes.length + 1)) := by
  have hlen : (block.take i ++ bytes).length = i + bytes.length := by
    simp
    omega
  obtain ⟨x, hx⟩ : ∃ x, block.drop (i + bytes.length) =
      x :: block.drop (i + bytes.length + 1) :=
    ⟨_, List.drop_eq_getElem_cons h⟩
  refine ⟨block.take i ++ bytes ++ block.drop (i + bytes.length), ?_, ?_⟩
  · rw [storeAll, if_pos h.le]
  · rw [hx, ← hlen]
    exact store_append

end Block

/-! ## Inside and outside of a word -/

/-- What is copied of a run. -/
def keptChars (maxwordlen : Nat) (run : List Nat) : List Nat :=
  run.foldl (fun ws c =>
    if maxwordlen < (encodeChar c).length + (ws.flatMap encodeChar).length then ws
    else ws ++ [c]) []

/-- The loop stands outside of a word. -/
structure Outside (room : Nat) (toks : List Token) (st : TokenizeState) : Prop where
  tokens : st.tl.tokens = toks
  room : st.token.length = room
  inside : st.insideToken = false

/-- The loop stands in a word and has copied `ws`. -/
structure InWord (room : Nat) (toks : List Token) (ws : List Nat) (st : TokenizeState) :
    Prop where
  tokens : st.tl.tokens = toks
  room : st.token.length = room
  inside : st.insideToken = true
  tokenLen : st.tokenLen = (ws.flatMap encodeChar).length
  token : ∃ rest, st.token = ws.flatMap encodeChar ++ 0 :: rest

section Steps

variable {loc : Locale} {a : Analyzer} {m : MetaName} {context : XmlStr} {room cp : Nat}
  {toks : List Token} {ws run : List Nat} {c : Nat} {st st' : TokenizeState} {last : Bool}

theorem keptChars_concat (max : Nat) (run : List Nat) (c : Nat) :
    keptChars max (run ++ [c]) =
      if max < (encodeChar c).length + ((keptChars max run).flatMap encodeChar).length then
        keptChars max run
      else keptChars max run ++ [c] := by
  rw [keptChars, List.foldl_append]
  rfl

theorem keptBytes_eq (max : Nat) (run : List Nat) :
    keptBytes max run = ((keptChars max run).flatMap encodeChar).length := by
  induction run using List.reverseRecOn with
  | nil => rfl
  | append_singleton run c ih =>
      rw [keptBytes_concat, keptChars_concat, ih]
      split
      · rfl
      · simp

theorem keptChars_sublist (max : Nat) (run : List Nat) : (keptChars max run).Sublist run := by
  induction run using List.reverseRecOn with
  | nil => exact List.Sublist.refl _
  | append_singleton run c ih =>
      rw [keptChars_concat]
      split
      · exact ih.trans (List.sublist_append_left _ _)
      · exact ih.append_right _

/-- A run that is short enough is copied whole. -/
theorem keptChars_of_le {max : Nat} (h : (run.flatMap encodeChar).length ≤ max) :
    keptChars max run = run := by
  induction run using List.reverseRecOn with
  | nil => rfl
  | append_singleton run c ih =>
      simp only [List.flatMap_append, List.flatMap_singleton, List.length_append] at h
      rw [keptChars_concat, ih (by omega), if_neg (by omega)]

theorem Outside.bump (h : Outside room toks st) (isBumper : Bool) :
    Outside room toks (st.bump isBumper) := by
  cases isBumper with
  | false => exact h
  | true => exact ⟨h.tokens, h.room, h.inside⟩

theorem InWord.bump (h : InWord room toks ws st) (isBumper : Bool) :
    InWord room toks ws (st.bump isBumper) := by
  cases isBumper with
  | false => exact h
  | true => exact ⟨h.tokens, h.room, h.inside, h.tokenLen, h.token⟩

/-- The first character of a run, with more text behind it. -/
theorem Outside.start (context : XmlStr) (cp : Nat) (h : Outside room toks st)
    (hmax : (encodeChar c).length ≤ a.maxwordlen)
    (hroom : (encodeChar c).length < room) :
    ∃ st', startUtf8 a (some m) context st (encodeChar c) cp false = .ok st' ∧
      InWord room toks [c] st' := by
  obtain ⟨htokens, hlen, -⟩ := h
  have hfirst : store st.token 0 0 = .ok (st.token.set 0 0) := by
    rw [store, if_pos (by omega)]
  obtain ⟨block, hall, hnul⟩ := storeAll_nul (st.token.set 0 0) (encodeChar c) 0
    (by simp; omega)
  rw [Nat.zero_add] at hnul
  rw [List.take_zero, List.nil_append] at hnul
  have hin : InWord room toks [c]
      { st with
        insideToken := true
        token := encodeChar c ++ 0 :: (st.token.set 0 0).drop ((encodeChar c).length + 1)
        tokenLen := (encodeChar c).length } := by
    refine ⟨htokens, ?_, rfl, by simp, ⟨_, by simp; rfl⟩⟩
    simp
    omega
  rw [startUtf8, hfirst, ok_bind, if_neg (Nat.not_lt.mpr hmax), hall, ok_bind, hnul, ok_bind,
    if_neg (by simp)]
  exact ⟨_, rfl, hin.bump _⟩

/-- The only character of a run that ends the text is added as it is. -/
theorem Outside.whole (context : XmlStr) (cp : Nat) (h : Outside room toks st)
    (hmin : a.minwordlen = 1) (hc : isScalar c)
    (hne : c ≠ 0) (hmax : (encodeChar c).length ≤ a.maxwordlen)
    (hroom : (encodeChar c).length < room) :
    ∃ st' t, startUtf8 a (some m) context st (encodeChar c) cp true = .ok st' ∧
      Outside room (toks ++ [t]) st' ∧ t.value = encodeChar c := by
  obtain ⟨htokens, hlen, -⟩ := h
  have hwidth := length_encodeChar hc
  have hfirst : store st.token 0 0 = .ok (st.token.set 0 0) := by
    rw [store, if_pos (by omega)]
  obtain ⟨block, hall, hnul⟩ := storeAll_nul (st.token.set 0 0) (encodeChar c) 0
    (by simp; omega)
  rw [Nat.zero_add, List.take_zero, List.nil_append] at hnul
  have hadd : tokenListAddToken st.tl
      (encodeChar c ++ 0 :: (st.token.set 0 0).drop ((encodeChar c).length + 1))
      ((encodeChar c).length + 1) (some m) context = .ok (st.tl.push (encodeChar c) m context) :=
    tokenListAddToken_append (encodeChar_ne_nil hc) (zero_notMem_encodeChar hc hne)
  rw [startUtf8, hfirst, ok_bind, if_neg (Nat.not_lt.mpr hmax), hall, ok_bind, hnul, ok_bind,
    if_pos ⟨rfl, hmin⟩, store_append, ok_bind, hadd, ok_bind]
  refine ⟨_, ⟨encodeChar c ++ [0], (encodeChar c).length, st.tl.pos + 1, m, context⟩, rfl,
    Outside.bump ⟨?_, ?_, rfl⟩ _, by simp [Token.value]⟩
  · rw [← htokens]
    rfl
  · simp
    omega

/-- A character that would make the word too long is left out. -/
theorem InWord.drop (h : InWord room toks ws st)
    (hlong : a.maxwordlen < (encodeChar c).length + (ws.flatMap encodeChar).length) :
    appendUtf8 loc a (some m) context st (encodeChar c) cp last = .ok st := by
  rw [appendUtf8, h.tokenLen, if_pos hlong]

/-- A character of the word, which may end it. -/
theorem InWord.append (loc : Locale) (context : XmlStr) (cp : Nat) (last : Bool)
    (h : InWord room toks ws st)
    (hshort : (encodeChar c).length + (ws.flatMap encodeChar).length ≤ a.maxwordlen)
    (hroom : (ws.flatMap encodeChar).length + (encodeChar c).length < room) :
    ∃ st₁, InWord room toks (ws ++ [c]) st₁ ∧
      appendUtf8 loc a (some m) context st (encodeChar c) cp last =
        if a.maxwordlen ≤ (ws.flatMap encodeChar).length + (encodeChar c).length ∨ last = true then
          (endUtf8 loc a (some m) context st₁).map (·.bump (cp = tokenposBumper.toNat))
        else .ok (st₁.bump (cp = tokenposBumper.toNat)) := by
  obtain ⟨htokens, hlen, hinside, htokenLen, rest, htoken⟩ := h
  obtain ⟨block, hall, hnul⟩ := storeAll_nul st.token (encodeChar c) st.tokenLen
    (by rw [htokenLen, hlen]; exact hroom)
  have htake : st.token.take st.tokenLen = ws.flatMap encodeChar := by
    rw [htoken, htokenLen, List.take_left]
  rw [htake] at hnul
  have hin : InWord room toks (ws ++ [c])
      { st with
        token := ws.flatMap encodeChar ++ encodeChar c ++
          0 :: st.token.drop (st.tokenLen + (encodeChar c).length + 1)
        tokenLen := st.tokenLen + (encodeChar c).length } := by
    refine ⟨htokens, ?_, hinside, by simp [htokenLen], ⟨_, by simp; rfl⟩⟩
    simp only [List.length_append, List.length_cons, List.length_drop]
    omega
  refine ⟨_, hin, ?_⟩
  rw [appendUtf8, if_neg (by rw [htokenLen]; omega), hall, ok_bind, hnul, ok_bind]
  simp only [htokenLen]
  split
  · cases endUtf8 loc a (some m) context _ <;> rfl
  · rfl

/-! ### The end of a word -/

/-- Ending a word strips what stands in front of two NULs. -/
theorem InWord.endUtf8_eq (loc : Locale) (context : XmlStr) (h : InWord room toks ws st)
    (hroom : (ws.flatMap encodeChar).length + 1 < room) :
    ∃ z, endUtf8 loc a (some m) context st =
      stripUtf8Chrs loc (ws.flatMap encodeChar ++ 0 :: z) ((ws.flatMap encodeChar).length + 1) >>=
        fun r => addStripped a (some m) context st r.1 r.2 := by
  obtain ⟨-, hlen, -, htokenLen, rest, htoken⟩ := h
  cases rest with
  | nil =>
      rw [htoken, List.length_append, List.length_singleton] at hlen
      omega
  | cons x rest =>
      have hstore := store_append (w := ws.flatMap encodeChar ++ [0]) (x := x) (z := rest) (c := 0)
      refine ⟨0 :: rest, ?_⟩
      rw [endUtf8, htokenLen, htoken]
      rw [List.append_assoc, List.append_assoc, List.length_append, List.length_singleton] at hstore
      simp only [List.singleton_append] at hstore
      rw [hstore, ok_bind]

/-- A word that has a letter is added when it is ended. -/
theorem InWord.endUtf8_ok (h : InWord room toks ws st) (hmin : a.minwordlen = 1)
    (hroom : (ws.flatMap encodeChar).length + 1 < room) (hws : IsWordUtf8 loc ws)
    (hok : endUtf8 loc a (some m) context st = .ok st') :
    EndFits loc ws ∧ ∃ added, Outside room (toks ++ added) st' ∧
      (added ≠ [] ↔ ∃ c ∈ ws, isIgnoreUtf8 loc c = false) := by
  have hwrites := writes_endUtf8 hok
  obtain ⟨z, heq⟩ := h.endUtf8_eq (a := a) (m := m) loc context hroom
  rw [heq] at hok
  obtain ⟨⟨token, len⟩, hstrip, hadd⟩ := bind_ok_iff.mp hok
  obtain ⟨hfits, hstr⟩ := stripUtf8Chrs_end hws hstrip
  have hlen : 1 ≤ len := by
    obtain ⟨_, -, hrest⟩ := bind_ok_iff.mp hstrip
    obtain ⟨_, -, hrest⟩ := bind_ok_iff.mp hrest
    obtain ⟨rest, -, hrest⟩ := bind_ok_iff.mp hrest
    cases hrest
    exact Nat.le_add_left _ _
  have hletters : (∃ c ∈ ws, isIgnoreUtf8 loc c = false) ↔
      ws.rdropWhile (isIgnoreUtf8 loc) ≠ [] := by
    rw [Ne, List.rdropWhile_eq_nil_iff]
    simp
  have hkept : IsWordUtf8 loc (ws.rdropWhile (isIgnoreUtf8 loc)) :=
    hws.sublist (List.rdropWhile_prefix _ ws).sublist
  have hinside := (block_of_addStripped hadd).2
  have hlength := hwrites.length.trans h.room
  obtain ⟨d, hload, hadd⟩ := bind_ok_iff.mp hadd
  cases token with
  | nil => cases hload
  | cons e token =>
      cases hload
      refine ⟨hfits, ?_⟩
      rw [hletters]
      by_cases hzero : d = 0
      · subst hzero
        have hnil : ws.rdropWhile (isIgnoreUtf8 loc) = [] := by
          cases hr : ws.rdropWhile (isIgnoreUtf8 loc) with
          | nil => rfl
          | cons c vs =>
              rw [hr] at hstr hkept
              have hbytes := (length_encodeChar (hkept c (by simp)).1).1
              have hempty := congrArg List.length hstr
              simp [cstr] at hempty
              omega
        rw [if_neg (by simp)] at hadd
        cases hadd
        exact ⟨[], ⟨by simpa using h.tokens, hlength, rfl⟩, by simp [hnil]⟩
      · have hsome : ws.rdropWhile (isIgnoreUtf8 loc) ≠ [] := by
          intro hnil
          rw [hnil] at hstr
          simp [cstr, hzero] at hstr
        rw [if_pos ⟨hzero, by omega⟩] at hadd
        obtain ⟨tl', htl, hadd⟩ := bind_ok_iff.mp hadd
        cases hadd
        unfold tokenListAddToken at htl
        split at htl
        · cases htl
        · cases htl
          exact ⟨[_], ⟨by rw [h.tokens], hlength, hinside⟩, by simp [hsome]⟩

/-- A word that starts as it may and whose end fits is ended, and its core is added. -/
theorem InWord.endUtf8_core (context : XmlStr) (h : InWord room toks ws st)
    (hmin : a.minwordlen = 1) (hroom : (ws.flatMap encodeChar).length + 1 < room)
    (hws : IsWordUtf8 loc ws) (hfits : EndFits loc ws) (hstart : StartsLegally loc ws) :
    ∃ st' added, endUtf8 loc a (some m) context st = .ok st' ∧ Outside room (toks ++ added) st' ∧
      added.map Token.value =
        if coreChars loc ws = [] then [] else [(coreChars loc ws).flatMap encodeChar] := by
  obtain ⟨z, heq⟩ := h.endUtf8_eq (a := a) (m := m) loc context hroom
  obtain ⟨z', hz'⟩ := blank_append_eq_cons (ws.rtakeWhile (isIgnoreUtf8 loc)) z
  have hsub : (coreChars loc ws).Sublist ws :=
    (List.dropWhile_sublist _).trans (List.rdropWhile_prefix _ ws).sublist
  have hcore := hws.sublist hsub
  have hstrip := stripUtf8Chrs_core (z := z) hws hfits hstart
  rw [hz'] at hstrip
  rw [hstrip, ok_bind, addStripped_append hcore.zero_notMem] at heq
  have hlength := (writes_endUtf8 heq).length.trans h.room
  have hne : (coreChars loc ws).flatMap encodeChar ≠ [] ↔ coreChars loc ws ≠ [] := by
    refine not_congr ⟨fun hnil => ?_, fun hnil => by rw [hnil]; rfl⟩
    have := length_flatMap_encodeChar_le hcore.scalar
    rw [hnil] at this
    exact List.length_eq_zero_iff.mp (Nat.le_zero.mp this)
  refine ⟨_, if coreChars loc ws = [] then [] else
    [⟨(coreChars loc ws).flatMap encodeChar ++ [0], ((coreChars loc ws).flatMap encodeChar).length,
      st.tl.pos + 1, m, context⟩], heq, ⟨?_, hlength, rfl⟩, ?_⟩
  · by_cases hnil : coreChars loc ws = []
    · rw [if_neg (by simp [hnil]), if_pos hnil, List.append_nil]
      exact h.tokens
    · rw [if_pos ⟨hne.mpr hnil, by omega⟩, if_neg hnil, ← h.tokens]
      rfl
  · by_cases hnil : coreChars loc ws = []
    · rw [if_pos hnil, if_pos hnil]
      rfl
    · rw [if_neg hnil, if_neg hnil]
      simp [Token.value]

end Steps

/-! ## Parts of a text -/

section Parts

variable (loc : Locale) (a : Analyzer) (m : Option MetaName) (context : XmlStr)

/-- The loop over characters that have others behind them. -/
def utf8LoopBefore (behind : List XmlStr) : TokenizeState → List XmlStr → Swish TokenizeState
  | st, [] => .ok st
  | st, chr :: rest => do
    let st ← utf8Step loc a m context st chr (rest ++ behind).isEmpty
    utf8LoopBefore behind st rest

variable {loc a m context}

theorem utf8LoopBefore_append (behind : List XmlStr) (st : TokenizeState) (pre post : List XmlStr) :
    utf8LoopBefore loc a m context behind st (pre ++ post) =
      utf8LoopBefore loc a m context (post ++ behind) st pre >>= fun st =>
        utf8LoopBefore loc a m context behind st post := by
  induction pre generalizing st with
  | nil => rfl
  | cons chr pre ih =>
      rw [List.cons_append, utf8LoopBefore, utf8LoopBefore, List.append_assoc]
      cases utf8Step loc a m context st chr (pre ++ (post ++ behind)).isEmpty with
      | ok st₁ => exact ih st₁
      | error e => rfl

theorem utf8Loop_eq (st : TokenizeState) (chrs : List XmlStr) :
    utf8Loop loc a m context st chrs = utf8LoopBefore loc a m context [] st chrs := by
  induction chrs generalizing st with
  | nil => rfl
  | cons chr rest ih =>
      rw [utf8Loop, utf8LoopBefore, List.append_nil]
      cases utf8Step loc a m context st chr rest.isEmpty with
      | ok st₁ => exact ih st₁
      | error e => rfl

theorem utf8LoopBefore_singleton (behind : List XmlStr) (st : TokenizeState) (chr : XmlStr) :
    utf8LoopBefore loc a m context behind st [chr] =
      utf8Step loc a m context st chr behind.isEmpty := by
  rw [utf8LoopBefore, List.nil_append]
  cases utf8Step loc a m context st chr behind.isEmpty <;> rfl

/-- A character of the text, by its code point. -/
theorem utf8Step_encodeChar {c : Nat} (hc : isScalar c) (st : TokenizeState) (last : Bool) :
    utf8Step loc a m context st (encodeChar c) last =
      if isIgnoreWordUtf8 loc c then ignoreUtf8 loc a m context st c
      else if st.insideToken then appendUtf8 loc a m context st (encodeChar c) c last
      else startUtf8 a m context st (encodeChar c) c last := by
  rw [utf8Step, utf8Codepoint_encodeChar hc]
  rfl

/-- Behind a character that is ignored the loop stands outside of a word. -/
theorem outside_of_utf8LoopBefore {behind : List XmlStr} {pre : List Nat} {st st' : TokenizeState}
    (hpre : ∀ c ∈ pre.getLast?, isIgnoreWordUtf8 loc c = true) (hscalar : ∀ c ∈ pre, isScalar c)
    (hinside : st.insideToken = false)
    (hok : utf8LoopBefore loc a m context behind st (pre.map encodeChar) = .ok st') :
    Outside st.token.length st'.tl.tokens st' := by
  have hlength : ∀ (chrs : List Nat) (rest : List XmlStr) (st : TokenizeState),
      (∀ c ∈ chrs, isScalar c) →
      utf8LoopBefore loc a m context rest st (chrs.map encodeChar) = .ok st' →
      st'.token.length = st.token.length := by
    intro chrs
    induction chrs with
    | nil =>
        intro rest st _ hok
        cases hok
        rfl
    | cons c chrs ih =>
        intro rest st hchrs hok
        obtain ⟨st₁, hstep, hok⟩ := bind_ok_iff.mp hok
        rw [ih rest st₁ (fun d hd => hchrs d (by simp [hd])) hok]
        exact (writes_utf8Step (utf8Codepoint_encodeChar (hchrs c (by simp))) hstep).length
  refine ⟨rfl, hlength pre behind st hscalar hok, ?_⟩
  cases pre using List.reverseRecOn with
  | nil =>
      cases hok
      exact hinside
  | append_singleton pre d =>
      rw [List.map_append, utf8LoopBefore_append] at hok
      obtain ⟨st₁, -, hok⟩ := bind_ok_iff.mp hok
      rw [List.map_singleton, utf8LoopBefore_singleton] at hok
      have hcursor := (writes_utf8Step (utf8Codepoint_encodeChar (hscalar d (by simp))) hok).cursor
      rw [hpre d (by simp)] at hcursor
      cases hd : st'.insideToken with
      | false => rfl
      | true =>
          rw [TokenizeState.cursor, if_pos hd] at hcursor
          cases hst₁ : st₁.cursor <;> simp [hst₁, utf8Cursor] at hcursor

end Parts

/-! ## Runs -/

section RunsOfText

variable {loc : Locale} {a : Analyzer} {m : MetaName} {context : XmlStr} {toks : List Token}
  {run : List Nat} {st : TokenizeState} {behind : List XmlStr}

theorem width_le_of_four_le (hmax : 4 ≤ a.maxwordlen) {c : Nat} (hc : isScalar c) :
    (encodeChar c).length ≤ a.maxwordlen := (length_encodeChar hc).2.trans hmax

theorem keptChars_singleton (hmax : 4 ≤ a.maxwordlen) {c : Nat} (hc : isScalar c) :
    keptChars a.maxwordlen [c] = [c] :=
  keptChars_of_le (by simpa using width_le_of_four_le hmax hc)

/-- The loop copies a run that fits and has more text behind it. -/
theorem Outside.copy (context : XmlStr) (behind : List XmlStr)
    (hst : Outside a.maxwordlen toks st) (hmax : 4 ≤ a.maxwordlen)
    (hrun : IsWordUtf8 loc run) (hne : run ≠ [])
    (hkept : keptBytes a.maxwordlen run < a.maxwordlen) (hbehind : behind ≠ []) :
    ∃ st', utf8LoopBefore loc a (some m) context behind st (run.map encodeChar) = .ok st' ∧
      InWord a.maxwordlen toks (keptChars a.maxwordlen run) st' := by
  induction run using List.reverseRecOn generalizing behind with
  | nil => exact absurd rfl hne
  | append_singleton run c ih =>
      obtain ⟨hc, hword⟩ := hrun c (by simp)
      by_cases hfirst : run = []
      · subst hfirst
        rw [List.nil_append] at hkept ⊢
        rw [keptBytes_eq, keptChars_singleton hmax hc, List.flatMap_singleton] at hkept
        obtain ⟨st', hok, hin⟩ := hst.start (a := a) (m := m) context c
          (width_le_of_four_le hmax hc) hkept
        refine ⟨st', ?_, by rwa [keptChars_singleton hmax hc]⟩
        rw [List.map_singleton, utf8LoopBefore_singleton, utf8Step_encodeChar hc, hword, hst.inside,
          List.isEmpty_eq_false_iff.mpr hbehind]
        exact hok
      · have hmono := keptBytes_mono a.maxwordlen (List.prefix_append run [c])
        obtain ⟨st₁, hok₁, hin₁⟩ := ih ([c].map encodeChar ++ behind)
          (hrun.sublist (List.sublist_append_left run [c])) hfirst (hmono.trans_lt hkept) (by simp)
        rw [List.map_append, utf8LoopBefore_append, hok₁, ok_bind, List.map_singleton,
          utf8LoopBefore_singleton, utf8Step_encodeChar hc, hword, hin₁.inside,
          List.isEmpty_eq_false_iff.mpr hbehind, keptChars_concat]
        rw [keptBytes_concat, keptBytes_eq] at hkept
        by_cases hlong : a.maxwordlen < (encodeChar c).length +
            ((keptChars a.maxwordlen run).flatMap encodeChar).length
        · rw [if_pos hlong]
          exact ⟨st₁, hin₁.drop hlong, hin₁⟩
        · rw [if_neg hlong] at hkept ⊢
          obtain ⟨st₂, hin₂, heq⟩ := hin₁.append (a := a) (m := m) loc context c
            false (Nat.not_lt.mp hlong) hkept
          rw [if_neg (by simp only [Bool.false_eq_true, or_false]; omega)] at heq
          exact ⟨_, heq, hin₂.bump _⟩

/-- A run with a character behind it that is ignored. -/
theorem Outside.run_behind (context : XmlStr) (behind : List XmlStr)
    (hst : Outside a.maxwordlen toks st) (hmax : 4 ≤ a.maxwordlen)
    (hrun : IsWordUtf8 loc run) (hne : run ≠ []) (hroom : Utf8Room a run false) {d : Nat}
    (hd : isScalar d) (hsep : isIgnoreWordUtf8 loc d = true) :
    ∃ st₁ isBumper, InWord a.maxwordlen toks (keptChars a.maxwordlen run) st₁ ∧
      utf8LoopBefore loc a (some m) context behind st ((run ++ [d]).map encodeChar) =
        (endUtf8 loc a (some m) context st₁).map (·.bump isBumper) := by
  have hkept := ((utf8Room_iff hne false).mp hroom).1
  obtain ⟨st₁, hok, hin⟩ := hst.copy (m := m) context
    ([d].map encodeChar ++ behind) hmax hrun hne hkept (by simp)
  refine ⟨st₁, decide (d = tokenposBumper.toNat), hin, ?_⟩
  rw [List.map_append, utf8LoopBefore_append, hok, ok_bind, List.map_singleton,
    utf8LoopBefore_singleton, utf8Step_encodeChar hd, hsep, if_pos rfl, ignoreUtf8, hin.inside,
    if_pos rfl]
  cases endUtf8 loc a (some m) context st₁ <;> rfl

/-- A run at the end of the text that the loop ends. -/
theorem Outside.run_last (context : XmlStr) (hst : Outside a.maxwordlen toks st)
    (hmax : 4 ≤ a.maxwordlen)
    (hrun : IsWordUtf8 loc run) (hroom : Utf8Room a run true)
    (hcloses : Utf8Closes a.maxwordlen run true) :
    ∃ st₁ isBumper, InWord a.maxwordlen toks (keptChars a.maxwordlen run) st₁ ∧
      utf8LoopBefore loc a (some m) context [] st (run.map encodeChar) =
        (endUtf8 loc a (some m) context st₁).map (·.bump isBumper) := by
  cases run using List.reverseRecOn with
  | nil => simp [Utf8Closes] at hcloses
  | append_singleton run c =>
      obtain ⟨hc, hword⟩ := hrun c (by simp)
      rcases hcloses with h | ⟨hlen, hlt⟩
      · cases h
      have hfirst : run ≠ [] := by
        rintro rfl
        simp at hlen
      have hkept := ((utf8Room_iff (by simp) true).mp hroom).1
      rw [List.dropLast_concat] at hlt
      obtain ⟨st₁, hok, hin⟩ := hst.copy (m := m) context
        ([c].map encodeChar) hmax (hrun.sublist (List.sublist_append_left run [c])) hfirst
        (hlt.trans hkept) (by simp)
      have hshort : ¬ a.maxwordlen < (encodeChar c).length +
          ((keptChars a.maxwordlen run).flatMap encodeChar).length := by
        intro hlong
        rw [← keptBytes_eq] at hlong
        rw [keptBytes_concat, if_pos hlong] at hlt
        exact absurd hlt (Nat.lt_irrefl _)
      rw [keptBytes_eq, keptChars_concat, if_neg hshort, List.flatMap_append, List.length_append,
        List.flatMap_singleton] at hkept
      obtain ⟨st₂, hin₂, heq⟩ := hin.append (a := a) (m := m) loc context c
        true (Nat.not_lt.mp hshort) hkept
      refine ⟨st₂, decide (c = tokenposBumper.toNat), ?_, ?_⟩
      · rw [keptChars_concat, if_neg hshort]
        exact hin₂
      · rw [List.map_append, utf8LoopBefore_append, List.append_nil, hok, ok_bind,
          List.map_singleton, utf8LoopBefore_singleton, utf8Step_encodeChar hc, hword, hin.inside]
        rw [if_pos (.inr rfl)] at heq
        exact heq

/-- A run at the end of the text that the loop leaves open, because its last character is left
out: nothing is added. -/
theorem Outside.run_open (context : XmlStr) (hst : Outside a.maxwordlen toks st)
    (hmax : 4 ≤ a.maxwordlen)
    (hrun : IsWordUtf8 loc run) (hlen : 2 ≤ run.length) (hroom : Utf8Room a run true)
    (hopen : ¬ Utf8Closes a.maxwordlen run true) :
    ∃ st', utf8LoopBefore loc a (some m) context [] st (run.map encodeChar) = .ok st' ∧
      st'.tl.tokens = toks := by
  cases run using List.reverseRecOn with
  | nil => simp at hlen
  | append_singleton run c =>
      obtain ⟨hc, hword⟩ := hrun c (by simp)
      have hfirst : run ≠ [] := by
        rintro rfl
        simp at hlen
      have hkept := ((utf8Room_iff (by simp) true).mp hroom).1
      have hlong : a.maxwordlen < (encodeChar c).length +
          ((keptChars a.maxwordlen run).flatMap encodeChar).length := by
        by_contra hshort
        refine hopen (.inr ⟨hlen, ?_⟩)
        have hbytes := (length_encodeChar hc).1
        rw [List.dropLast_concat, keptBytes_concat, keptBytes_eq, if_neg hshort]
        omega
      have hmono := keptBytes_mono a.maxwordlen (List.prefix_append run [c])
      obtain ⟨st₁, hok, hin⟩ := hst.copy (m := m) context
        ([c].map encodeChar) hmax (hrun.sublist (List.sublist_append_left run [c])) hfirst
        (hmono.trans_lt hkept) (by simp)
      refine ⟨st₁, ?_, hin.tokens⟩
      rw [List.map_append, utf8LoopBefore_append, List.append_nil, hok, ok_bind,
        List.map_singleton, utf8LoopBefore_singleton, utf8Step_encodeChar hc, hword, hin.inside]
      exact hin.drop hlong

/-- A lone character at the end of the text. -/
theorem Outside.run_whole (context : XmlStr) (hst : Outside a.maxwordlen toks st)
    (hmax : 4 ≤ a.maxwordlen)
    (hmin : a.minwordlen = 1) {c : Nat} (hc : isScalar c)
    (hword : isIgnoreWordUtf8 loc c = false) (hroom : Utf8Room a [c] true) :
    ∃ st' t, utf8LoopBefore loc a (some m) context [] st ([c].map encodeChar) = .ok st' ∧
      st'.tl.tokens = toks ++ [t] ∧ t.value = encodeChar c := by
  have hkept := ((utf8Room_iff (by simp) true).mp hroom).1
  rw [keptBytes_eq, keptChars_singleton hmax hc, List.flatMap_singleton] at hkept
  obtain ⟨st', t, hok, hout, hvalue⟩ := hst.whole (a := a) (m := m) context c
    hmin hc (ne_zero_of_wordUtf8 hword) (width_le_of_four_le hmax hc) hkept
  refine ⟨st', t, ?_, hout.tokens, hvalue⟩
  rw [List.map_singleton, utf8LoopBefore_singleton, utf8Step_encodeChar hc, hword, hst.inside]
  exact hok

end RunsOfText

/-! ## The words of a text -/

section Words

variable (loc : Locale) (a : Analyzer) (m : MetaName) (context : XmlStr)

/-- A letter or a digit: a word character that may start and end a word. -/
def HasLetter (run : List Nat) : Prop := ∃ c ∈ run, isIgnoreUtf8 loc c = false

/-- No apostrophe or underscore. -/
def Plain (c : Nat) : Prop := c ≠ 39 ∧ c ≠ 95

/-- From the start of a run on, to the character behind it, the loop adds a token for a run that
has a letter, and the run itself if it is short enough and its ends are plain. -/
def RunKept (st : TokenizeState) (run post : List Nat) : Prop :=
  ∃ st' added, utf8LoopBefore loc a (some m) context ((post.drop 1).map encodeChar) st
      ((run ++ post.take 1).map encodeChar) = .ok st' ∧
    st'.tl.tokens = st.tl.tokens ++ added ∧ (HasLetter loc run → added ≠ []) ∧
    ((run.flatMap encodeChar).length ≤ a.maxwordlen → (∀ c ∈ run.head?, Plain c) →
      (∀ c ∈ run.getLast?, Plain c) → added.map Token.value = [run.flatMap encodeChar])

/-- The call returns, and keeps every run of word characters. -/
def KeepsRuns (block : XmlStr) (tl : TokenList) (buf : XmlStr) (text : List Nat) : Prop :=
  (∃ r, tokenizeUtf8 loc a (some m) context block tl buf = .ok r) ∧
    ∀ pre run post, text = pre ++ run ++ post → Maximal (isIgnoreWordUtf8 loc) pre run post →
      run ≠ [] → ∃ st, utf8LoopBefore loc a (some m) context ((run ++ post).map encodeChar)
        ⟨tl, false, block, 0⟩ (pre.map encodeChar) = .ok st ∧ RunKept loc a m context st run post

/-- What the loop needs of a run: that it fits into the block, that the end of its word fits
into `chr` if the word is ended, and that a letter of it is copied and its word is ended. -/
structure Survives (run : List Nat) (atEnd : Bool) : Prop where
  room : Utf8Room a run atEnd
  stripped : Utf8Closes a.maxwordlen run atEnd → EndFits loc (keptChars a.maxwordlen run)
  kept : HasLetter loc run → HasLetter loc (keptChars a.maxwordlen run) ∧
    (Utf8Closes a.maxwordlen run atEnd ∨ run.length = 1)

/-- The word of a run that is ended starts as it may. -/
def StartsWell (run : List Nat) (atEnd : Bool) : Prop :=
  Utf8Closes a.maxwordlen run atEnd → StartsLegally loc (keptChars a.maxwordlen run)

end Words

section Kept

variable {loc : Locale} {a : Analyzer} {m : MetaName} {context : XmlStr} {toks : List Token}
  {run post ws : List Nat} {st : TokenizeState} {atEnd : Bool}

/-- A plain word character may start a word. -/
theorem legal_of_plain {c : Nat} (hword : isIgnoreWordUtf8 loc c = false) (hplain : Plain c) :
    isIgnoreUtf8 loc c = false := by
  rw [isIgnoreWordUtf8, if_neg hplain.1, if_neg hplain.2] at hword
  exact hword

theorem coreChars_ne_nil (hstart : StartsLegally loc ws) (hletter : HasLetter loc ws) :
    coreChars loc ws ≠ [] := by
  rw [coreChars_eq_self (head?_rdropWhile_legal hstart), Ne, List.rdropWhile_eq_nil_iff]
  obtain ⟨c, hc, hlegal⟩ := hletter
  intro hall
  rw [hall c hc] at hlegal
  cases hlegal

/-- A run with plain ends is its core. -/
theorem coreChars_of_plain (hrun : IsWordUtf8 loc run) (hfirst : ∀ c ∈ run.head?, Plain c)
    (hlast : ∀ c ∈ run.getLast?, Plain c) : coreChars loc run = run := by
  have hself : run.rdropWhile (isIgnoreUtf8 loc) = run := by
    rw [List.rdropWhile_eq_self_iff]
    intro hne
    have hmem := List.getLast?_eq_some_getLast hne
    rw [legal_of_plain (hrun _ (List.getLast_mem hne)).2 (hlast _ hmem)]
    simp
  rw [coreChars_eq_self, hself]
  rw [hself]
  intro c hc
  exact legal_of_plain (hrun c (List.mem_of_mem_head? hc)).2 (hfirst c hc)

/-- A word that is ended well: the loop goes on outside of it. -/
theorem Survives.closed (context : XmlStr) (h : Survives loc a run atEnd) (hmin : a.minwordlen = 1)
    (hrun : IsWordUtf8 loc run) (hne : run ≠ []) (hstart : StartsWell loc a run atEnd)
    (hcloses : Utf8Closes a.maxwordlen run atEnd) {st₁ : TokenizeState} (isBumper : Bool)
    (hin : InWord a.maxwordlen toks (keptChars a.maxwordlen run) st₁) :
    ∃ st₂ added,
      (endUtf8 loc a (some m) context st₁).map (·.bump isBumper) = .ok st₂ ∧
        Outside a.maxwordlen (toks ++ added) st₂ ∧ (HasLetter loc run → added ≠ []) ∧
        ((run.flatMap encodeChar).length ≤ a.maxwordlen → (∀ c ∈ run.head?, Plain c) →
          (∀ c ∈ run.getLast?, Plain c) →
            added.map Token.value = [run.flatMap encodeChar]) := by
  have hroom := ((utf8Room_iff hne atEnd).mp h.room).2 hcloses
  rw [keptBytes_eq] at hroom
  obtain ⟨st₂, added, hok, hout, hvalues⟩ := hin.endUtf8_core (m := m) context
    hmin hroom (hrun.sublist (keptChars_sublist _ run)) (h.stripped hcloses)
    (hstart hcloses)
  refine ⟨st₂.bump isBumper, added, by rw [hok]; rfl, hout.bump isBumper, ?_, ?_⟩
  · intro hletter hnil
    have hcore := coreChars_ne_nil (hstart hcloses) (h.kept hletter).1
    rw [hnil, if_neg hcore] at hvalues
    cases hvalues
  · intro hshort hfirst hlast
    rw [hvalues, keptChars_of_le hshort, coreChars_of_plain hrun hfirst hlast, if_neg hne]

/-- A run that survives is kept. -/
theorem Survives.runKept (h : Survives loc a run post.isEmpty) (hmax : 4 ≤ a.maxwordlen)
    (hmin : a.minwordlen = 1) (hrun : IsWordUtf8 loc run) (hne : run ≠ [])
    (hstart : StartsWell loc a run post.isEmpty) (hpost : ∀ c ∈ post, isScalar c)
    (hbehind : ∀ c ∈ post.head?, isIgnoreWordUtf8 loc c = true)
    (hst : Outside a.maxwordlen toks st) : RunKept loc a m context st run post := by
  obtain ⟨htokens, -, -⟩ := id hst
  cases post with
  | cons d post =>
      obtain ⟨st₁, isBumper, hin, hloop⟩ := hst.run_behind (m := m) context
        (post.map encodeChar) hmax hrun hne h.room (hpost d (by simp)) (hbehind d rfl)
      obtain ⟨st₂, added, hok, hout, hletter, hwhole⟩ := h.closed (m := m) context hmin
        hrun hne hstart (.inl rfl) isBumper hin
      exact ⟨st₂, added, hloop.trans hok, htokens ▸ hout.tokens, hletter, hwhole⟩
  | nil =>
      rw [List.isEmpty_nil] at h hstart
      by_cases hcloses : Utf8Closes a.maxwordlen run true
      · obtain ⟨st₁, isBumper, hin, hloop⟩ := hst.run_last (m := m) context hmax hrun
          h.room hcloses
        obtain ⟨st₂, added, hok, hout, hletter, hwhole⟩ := h.closed (m := m) context
          hmin hrun hne hstart hcloses isBumper hin
        refine ⟨st₂, added, ?_, htokens ▸ hout.tokens, hletter, hwhole⟩
        simpa using hloop.trans hok
      · by_cases hlen : run.length = 1
        · obtain ⟨c, rfl⟩ := List.length_eq_one_iff.mp hlen
          obtain ⟨hc, hword⟩ := hrun c (by simp)
          obtain ⟨st', t, hok, ht, hvalue⟩ := hst.run_whole (m := m) context hmax hmin hc
            hword h.room
          refine ⟨st', [t], ?_, htokens ▸ ht, fun _ => by simp, fun _ _ _ => ?_⟩
          · simpa using hok
          · simp [hvalue]
        · have hpos := List.length_pos_iff.mpr hne
          obtain ⟨st', hok, htoks⟩ := hst.run_open (m := m) context hmax hrun (by omega)
            h.room hcloses
          have hnone : ¬ HasLetter loc run := fun hletter =>
            (h.kept hletter).2.elim hcloses hlen
          refine ⟨st', [], ?_, ?_, fun hletter => absurd hletter hnone, fun _ hfirst _ => ?_⟩
          · simpa using hok
          · rw [htoks, htokens, List.append_nil]
          · refine absurd ⟨run.head hne, List.head_mem hne, ?_⟩ hnone
            exact legal_of_plain (hrun _ (List.head_mem hne)).2
              (hfirst _ (List.head?_eq_some_head hne))

/-- What a word that is ended has added. -/
theorem survives_of_closed (hmin : a.minwordlen = 1)
    (hrun : IsWordUtf8 loc run) (hne : run ≠ []) (hroom : Utf8Room a run atEnd)
    (hcloses : Utf8Closes a.maxwordlen run atEnd) {st₁ st₂ : TokenizeState} {isBumper : Bool}
    {added : List Token} (hin : InWord a.maxwordlen toks (keptChars a.maxwordlen run) st₁)
    (hok : (endUtf8 loc a (some m) context st₁).map (·.bump isBumper) = .ok st₂)
    (htokens : st₂.tl.tokens = toks ++ added) (hadded : HasLetter loc run → added ≠ []) :
    Survives loc a run atEnd := by
  have hlt := ((utf8Room_iff hne atEnd).mp hroom).2 hcloses
  rw [keptBytes_eq] at hlt
  cases hend : endUtf8 loc a (some m) context st₁ with
  | error e =>
      rw [hend] at hok
      cases hok
  | ok st' =>
      rw [hend] at hok
      cases hok
      obtain ⟨hfits, added', hout, hiff⟩ := hin.endUtf8_ok hmin hlt
        (hrun.sublist (keptChars_sublist _ run)) hend
      have heq : added = added' :=
        List.append_cancel_left (htokens.symm.trans (hout.bump isBumper).tokens)
      exact ⟨hroom, fun _ => hfits, fun hletter => ⟨hiff.mp (heq ▸ hadded hletter), .inl hcloses⟩⟩

/-- A run that is kept survives. -/
theorem RunKept.survives (h : RunKept loc a m context st run post) (hmax : 4 ≤ a.maxwordlen)
    (hmin : a.minwordlen = 1) (hrun : IsWordUtf8 loc run) (hne : run ≠ [])
    (hroom : Utf8Room a run post.isEmpty) (hpost : ∀ c ∈ post, isScalar c)
    (hbehind : ∀ c ∈ post.head?, isIgnoreWordUtf8 loc c = true)
    (hst : Outside a.maxwordlen toks st) : Survives loc a run post.isEmpty := by
  obtain ⟨st', added, hok, htokens, hadded, -⟩ := h
  rw [hst.tokens] at htokens
  cases post with
  | cons d post =>
      obtain ⟨st₁, isBumper, hin, hloop⟩ := hst.run_behind (m := m) context
        (post.map encodeChar) hmax hrun hne hroom (hpost d (by simp)) (hbehind d rfl)
      exact survives_of_closed hmin hrun hne hroom (.inl rfl) hin (hloop.symm.trans hok)
        htokens hadded
  | nil =>
      rw [List.isEmpty_nil] at hroom ⊢
      simp only [List.drop_nil, List.take_nil, List.map_nil, List.append_nil] at hok
      by_cases hcloses : Utf8Closes a.maxwordlen run true
      · obtain ⟨st₁, isBumper, hin, hloop⟩ := hst.run_last (m := m) context hmax hrun
          hroom hcloses
        exact survives_of_closed hmin hrun hne hroom hcloses hin (hloop.symm.trans hok)
          htokens hadded
      · refine ⟨hroom, fun hc => absurd hc hcloses, fun hletter => ?_⟩
        by_cases hlen : run.length = 1
        · obtain ⟨c, rfl⟩ := List.length_eq_one_iff.mp hlen
          rw [keptChars_singleton hmax (hrun c (by simp)).1]
          exact ⟨hletter, .inr rfl⟩
        · have hpos := List.length_pos_iff.mpr hne
          obtain ⟨st₂, hok₂, htoks⟩ := hst.run_open (m := m) context hmax hrun
            (by omega) hroom hcloses
          cases hok.symm.trans hok₂
          rw [htoks] at htokens
          exact absurd (List.self_eq_append_right.mp htokens) (hadded hletter)

/-- Text up to a character that is ignored, all of whose runs survive. -/
theorem Outside.parts (context : XmlStr) (run pre rest : List Nat) (behind : List XmlStr)
    (hst : Outside a.maxwordlen toks st) (hmax : 4 ≤ a.maxwordlen) (hmin : a.minwordlen = 1)
    (hrun : IsWordUtf8 loc run) (hpre : ∀ c ∈ pre, isScalar c)
    (hlast : ∀ c ∈ (run ++ pre).getLast?, isIgnoreWordUtf8 loc c = true)
    (hgood : ∀ r ∈ segmentsFrom (isIgnoreWordUtf8 loc) run (pre ++ rest),
      Survives loc a r.1 r.2 ∧ StartsWell loc a r.1 r.2) :
    ∃ st' toks', utf8LoopBefore loc a (some m) context behind st ((run ++ pre).map encodeChar) =
      .ok st' ∧ Outside a.maxwordlen toks' st' := by
  induction pre generalizing run st toks with
  | nil =>
      have hnil : run = [] := by
        by_contra hne
        rw [List.append_nil] at hlast
        have hsep := hlast _ (List.getLast?_eq_some_getLast hne)
        rw [(hrun _ (List.getLast_mem hne)).2] at hsep
        cases hsep
      subst hnil
      exact ⟨st, toks, rfl, hst⟩
  | cons d pre ih =>
      have hd : isScalar d := hpre d (by simp)
      have hrest : ∀ c ∈ pre, isScalar c := fun c hc => hpre c (by simp [hc])
      by_cases hsep : isIgnoreWordUtf8 loc d = true
      · have hsplit : (run ++ d :: pre).map encodeChar =
            (run ++ [d]).map encodeChar ++ ([] ++ pre).map encodeChar := by simp
        have hlast' : ∀ c ∈ ([] ++ pre).getLast?, isIgnoreWordUtf8 loc c = true := by
          intro c hc
          refine hlast c ?_
          rw [List.nil_append] at hc
          rw [List.getLast?_append, List.getLast?_cons, hc]
          rfl
        rw [List.cons_append, segmentsFrom_sep hsep, List.forall_mem_cons] at hgood
        rw [hsplit, utf8LoopBefore_append]
        by_cases hne : run = []
        · subst hne
          obtain ⟨st', toks', hok, hout⟩ := ih [] (hst.bump (decide (d = tokenposBumper.toNat)))
            hrun hrest hlast' hgood.2
          refine ⟨st', toks', ?_, hout⟩
          rw [show (([] : List Nat) ++ [d]).map encodeChar = [encodeChar d] from rfl,
            utf8LoopBefore_singleton, utf8Step_encodeChar hd, hsep, if_pos rfl, ignoreUtf8,
            hst.inside, if_neg Bool.false_ne_true]
          exact hok
        · obtain ⟨st₁, isBumper, hin, hloop⟩ := hst.run_behind (m := m) context
            (([] ++ pre).map encodeChar ++ behind) hmax hrun hne hgood.1.1.room hd hsep
          obtain ⟨st₂, added, hok₂, hout₂, -⟩ := hgood.1.1.closed (m := m) context hmin
            hrun hne hgood.1.2 (.inl rfl) isBumper hin
          obtain ⟨st', toks', hok, hout⟩ := ih [] hout₂ (by simp [IsWordUtf8]) hrest hlast'
            hgood.2
          exact ⟨st', toks', by rw [hloop, hok₂, ok_bind, hok], hout⟩
      · have hword : isIgnoreWordUtf8 loc d = false := by simpa using hsep
        have hgrow : IsWordUtf8 loc (run ++ [d]) := by
          intro c hc
          rcases List.mem_append.mp hc with hc | hc
          · exact hrun c hc
          · rw [List.mem_singleton.mp hc]
            exact ⟨hd, hword⟩
        rw [List.cons_append, segmentsFrom_word hword] at hgood
        obtain ⟨st', toks', hok, hout⟩ := ih (run ++ [d]) hst hgrow hrest
          (by rw [List.append_assoc]; exact hlast) hgood
        refine ⟨st', toks', ?_, hout⟩
        rw [List.append_assoc] at hok
        exact hok

end Kept

/-! ## The result -/

section Result

variable {loc : Locale} {a : Analyzer} {m : MetaName} {context block : XmlStr} {tl : TokenList}
  {buf : XmlStr} {text : List Nat}

/-- A lowered text goes to the loop as it is. -/
theorem tokenizeUtf8_eq (context block : XmlStr) (tl : TokenList)
    (htext : mbstowcs (cstr buf) = some text)
    (hlower : ∀ c ∈ text, loc.towlower c = c) :
    utf8StrTolower loc (cstr buf) = .ok (text.flatMap encodeChar) ∧
      tokenizeUtf8 loc a (some m) context block tl buf =
        (utf8LoopBefore loc a (some m) context [] ⟨tl, false, block, 0⟩ (text.map encodeChar)).map
          fun st => (st.tl, st.tl.n - tl.n) := by
  have hscalar := isScalar_of_mbstowcs htext
  have hsame : text.map loc.towlower = text := by
    rw [List.map_congr_left hlower, List.map_id']
  have heq : utf8StrTolower loc (cstr buf) = .ok (text.flatMap encodeChar) := by
    rw [utf8StrTolower, htext]
    simp only [hsame, wcstombs, if_pos (List.all_eq_true.mpr hscalar)]
  refine ⟨heq, ?_⟩
  rw [tokenizeUtf8, heq, ok_bind, utf8Chrs_flatMap hscalar, utf8Loop_eq]
  cases utf8LoopBefore loc a (some m) context [] ⟨tl, false, block, 0⟩ (text.map encodeChar) <;>
    rfl

theorem isWordUtf8_of_maximal {pre run post : List Nat} (hscalar : ∀ c ∈ text, isScalar c)
    (heq : text = pre ++ run ++ post) (hmaximal : Maximal (isIgnoreWordUtf8 loc) pre run post) :
    IsWordUtf8 loc run := by
  intro c hc
  exact ⟨hscalar c (by rw [heq]; simp [hc]), hmaximal.free c hc⟩

/-- Where every run survives and starts as it may, the loop reaches each of them and keeps it. -/
theorem runKept_of_survives (context : XmlStr) (tl : TokenList) (hscalar : ∀ c ∈ text, isScalar c)
    (hmax : 4 ≤ a.maxwordlen) (hmin : a.minwordlen = 1) (hblock : block.length = a.maxwordlen)
    (hgood : ∀ r ∈ segments (isIgnoreWordUtf8 loc) text,
      Survives loc a r.1 r.2 ∧ StartsWell loc a r.1 r.2)
    {pre run post : List Nat} (heq : text = pre ++ run ++ post)
    (hmaximal : Maximal (isIgnoreWordUtf8 loc) pre run post) :
    ∃ st, utf8LoopBefore loc a (some m) context ((run ++ post).map encodeChar)
        ⟨tl, false, block, 0⟩ (pre.map encodeChar) = .ok st ∧
      (run ≠ [] → RunKept loc a m context st run post) := by
  have hstart : Outside a.maxwordlen tl.tokens ⟨tl, false, block, 0⟩ := ⟨rfl, hblock, rfl⟩
  obtain ⟨st, toks, hok, hout⟩ := hstart.parts (m := m) context [] pre
    (run ++ post) ((run ++ post).map encodeChar) hmax hmin
    (by simp [IsWordUtf8]) (fun c hc => hscalar c (by rw [heq]; simp [hc]))
    (by simpa using hmaximal.before) (by
      rw [← List.append_assoc, ← heq]
      exact hgood)
  have hmem := hmaximal.mem_segments
  rw [← heq] at hmem
  obtain ⟨hsurvives, hlegal⟩ := hgood _ hmem
  have hword := isWordUtf8_of_maximal hscalar heq hmaximal
  exact ⟨st, hok, fun hne => hsurvives.runKept hmax hmin hword hne hlegal
    (fun c hc => hscalar c (by rw [heq]; simp [hc])) hmaximal.behind hout⟩

/-- The loop over such a text returns: it keeps the last run. -/
theorem utf8LoopBefore_returns (context : XmlStr) (tl : TokenList)
    (hscalar : ∀ c ∈ text, isScalar c) (hmax : 4 ≤ a.maxwordlen) (hmin : a.minwordlen = 1)
    (hblock : block.length = a.maxwordlen)
    (hgood : ∀ r ∈ segments (isIgnoreWordUtf8 loc) text,
      Survives loc a r.1 r.2 ∧ StartsWell loc a r.1 r.2) :
    ∃ st, utf8LoopBefore loc a (some m) context [] ⟨tl, false, block, 0⟩
      (text.map encodeChar) = .ok st := by
  obtain ⟨run, hlast⟩ := exists_last_segment (isIgnoreWordUtf8 loc) text
  obtain ⟨pre, post, heq, hmaximal, hend⟩ := mem_segments_iff.mp hlast
  obtain rfl : post = [] := by simpa using hend.symm
  obtain ⟨st, hok, hrun⟩ :=
    runKept_of_survives (m := m) context tl hscalar hmax hmin hblock hgood heq hmaximal
  rw [heq, List.append_nil, List.map_append, utf8LoopBefore_append, List.append_nil]
  rw [List.append_nil] at hok
  rw [hok, ok_bind]
  by_cases hne : run = []
  · subst hne
    exact ⟨_, rfl⟩
  · obtain ⟨st', added, hok', -⟩ := hrun hne
    simp only [List.drop_nil, List.take_nil, List.map_nil, List.append_nil] at hok'
    exact ⟨st', hok'⟩

/-- A call that keeps every run stays inside the block, so each run survives. -/
theorem survives_of_keepsRuns (htext : mbstowcs (cstr buf) = some text)
    (hlower : ∀ c ∈ text, loc.towlower c = c) (hmax : 4 ≤ a.maxwordlen)
    (hmin : a.minwordlen = 1) (hblock : block.length = a.maxwordlen)
    (h : KeepsRuns loc a m context block tl buf text) :
    ∀ r ∈ segments (isIgnoreWordUtf8 loc) text, Survives loc a r.1 r.2 := by
  have hscalar := isScalar_of_mbstowcs htext
  obtain ⟨hlow, -⟩ := tokenizeUtf8_eq (a := a) (m := m) context block tl htext hlower
  obtain ⟨⟨⟨tl', n⟩, hok⟩, hruns⟩ := h
  have hwrites := tokenizeUtf8_writes hok
  have hroom : ∀ r ∈ segments (isIgnoreWordUtf8 loc) text, Utf8Room a r.1 r.2 := by
    refine (utf8WritesFrom_lt_iff loc [] (by omega) hscalar (by simp; omega)
      (by simp)).mp ?_
    rw [utf8Writes, hlow, hblock] at hwrites
    simp only [utf8Chrs_flatMap hscalar] at hwrites
    exact hwrites
  intro r hr
  by_cases hne : r.1 = []
  · refine ⟨hroom r hr, fun _ => ?_, ?_⟩
    · rw [hne]
      simp [keptChars, EndFits]
    · rintro ⟨c, hc, -⟩
      rw [hne] at hc
      cases hc
  · obtain ⟨pre, post, heq, hmaximal, hend⟩ := mem_segments_iff.mp hr
    obtain ⟨st, hpre, hkept⟩ := hruns pre r.1 post heq hmaximal hne
    have hout := outside_of_utf8LoopBefore hmaximal.before
      (fun c hc => hscalar c (by rw [heq]; simp [hc])) rfl hpre
    rw [hblock] at hout
    rw [hend]
    exact hkept.survives hmax hmin (isWordUtf8_of_maximal hscalar heq hmaximal) hne
      (hend ▸ hroom r hr) (fun c hc => hscalar c (by rw [heq]; simp [hc])) hmaximal.behind hout

/-- **`swish_tokenize_utf8` keeps every run** that fits into the block, of which a letter is
copied, and whose word is ended, starts as it may and ends within `chr`.  Of these only the
start of the word is not needed everywhere. -/
theorem tokenizeUtf8_keepsRuns (htext : mbstowcs (cstr buf) = some text)
    (hlower : ∀ c ∈ text, loc.towlower c = c) (hmax : 4 ≤ a.maxwordlen)
    (hmin : a.minwordlen = 1) (hblock : block.length = a.maxwordlen) :
    ((∀ r ∈ segments (isIgnoreWordUtf8 loc) text,
        Survives loc a r.1 r.2 ∧ StartsWell loc a r.1 r.2) →
      KeepsRuns loc a m context block tl buf text) ∧
    (KeepsRuns loc a m context block tl buf text →
      ∀ r ∈ segments (isIgnoreWordUtf8 loc) text, Survives loc a r.1 r.2) := by
  have hscalar := isScalar_of_mbstowcs htext
  refine ⟨fun hgood => ⟨?_, ?_⟩, survives_of_keepsRuns htext hlower hmax hmin hblock⟩
  · obtain ⟨st, hok⟩ :=
      utf8LoopBefore_returns (m := m) context tl hscalar hmax hmin hblock hgood
    obtain ⟨-, hcall⟩ := tokenizeUtf8_eq (a := a) (m := m) context block tl htext hlower
    rw [hcall, hok]
    exact ⟨_, rfl⟩
  · intro pre run post heq hmaximal hne
    obtain ⟨st, hok, hkept⟩ :=
      runKept_of_survives context tl hscalar hmax hmin hblock hgood heq hmaximal
    exact ⟨st, hok, hkept hne⟩

end Result

/-- A word with a letter of two bytes is kept. -/
theorem tokenizeUtf8_keepsRuns_accent :
    KeepsRuns .posix ⟨8, 1, true, fun tl _ _ _ => .ok (tl, 0)⟩ (metanameInit (lit "swishdefault"))
      (lit "doc") (List.replicate 8 7) .init (encodeChar 233 ++ lit "t") [233, 116] := by
  have hlower : ∀ c ∈ [233, 116], Locale.posix.towlower c = c := by decide
  have htext : mbstowcs (cstr (encodeChar 233 ++ lit "t")) = some [233, 116] := by decide +kernel
  refine (tokenizeUtf8_keepsRuns htext hlower (by decide) rfl rfl).1 ?_
  have hsegments : segments (isIgnoreWordUtf8 .posix) [233, 116] = [([233, 116], true)] := by
    decide +kernel
  rw [hsegments, List.forall_mem_singleton]
  refine ⟨⟨by decide +kernel, fun _ => by decide +kernel, fun _ => ⟨⟨116, ?_, ?_⟩, .inl (.inr ?_)⟩⟩,
    fun _ => .inl ?_⟩
  · decide +kernel
  · decide +kernel
  · decide +kernel
  · decide +kernel

/-- A letter of two bytes that would make a word of three bytes too long is left out, and with it
the end of the word. -/
theorem tokenizeUtf8_loses_run :
    ¬ KeepsRuns .posix ⟨4, 1, true, fun tl _ _ _ => .ok (tl, 0)⟩ (metanameInit (lit "swishdefault"))
      (lit "doc") (List.replicate 4 7) .init (lit "aaa" ++ encodeChar 233) [97, 97, 97, 233] := by
  rintro ⟨-, hruns⟩
  obtain ⟨st, hpre, st', added, hok, htokens, hadded, -⟩ := hruns [] [97, 97, 97, 233] [] rfl
    ⟨by decide +kernel, by simp, by simp⟩ (by simp)
  cases hpre
  have hrun : (utf8LoopBefore .posix ⟨4, 1, true, fun tl _ _ _ => .ok (tl, 0)⟩
      (some (metanameInit (lit "swishdefault"))) (lit "doc") []
      ⟨.init, false, List.replicate 4 7, 0⟩ ([97, 97, 97, 233].map encodeChar)).toOption.map
        (fun st => st.tl.tokens) = some [] := by decide +kernel
  have hnone : st'.tl.tokens = [] := by
    rw [show utf8LoopBefore .posix ⟨4, 1, true, fun tl _ _ _ => .ok (tl, 0)⟩
      (some (metanameInit (lit "swishdefault"))) (lit "doc") []
      ⟨.init, false, List.replicate 4 7, 0⟩ ([97, 97, 97, 233].map encodeChar) = .ok st' from hok]
      at hrun
    exact Option.some.inj hrun
  rw [hnone] at htokens
  exact hadded ⟨97, by simp, by decide⟩ (List.append_eq_nil_iff.mp htokens.symm).2

end LibSwish3
