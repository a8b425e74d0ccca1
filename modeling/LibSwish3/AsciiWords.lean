import LibSwish3.TokenizerRules
import LibSwish3.WorkBlock

/-!
# The words of an ASCII text by their specification

The tokens of an ASCII text are specified without a loop: lower the text, take its maximal runs
of word characters, cut each from the left into pieces of `maxwordlen` characters, and leave out
what may not start or end a word.  `swish_tokenize_ascii` does that except in three places: a
piece has two characters at least, a character that begins a piece and ends the text is added as
it is, and a piece needs a byte more than the work block may have.

## Main definitions

* `asciiSpec` — the specification.
* `SplitsAsSpecified` — a call meets it.
* `CutFrom` — how the loop cuts the rest of a text.
* `tokenizeAscii_spec_iff` — where a call does.
-/

namespace LibSwish3

open Runs Segments

section Spec

/-- What is added of a piece. -/
def coreValues (p : XmlStr) : List XmlStr := if core p = [] then [] else [core p]

/-- The tokens of a text by their specification. -/
def asciiSpec (maxwordlen : Nat) (buf : XmlStr) : List XmlStr :=
  (((asciiStrTolower (cstr buf)).splitOnP isIgnoreWordAscii).flatMap (pieces maxwordlen)).flatMap
    coreValues

/-- A word that may start and end as it does. -/
def LegalEnds (w : XmlStr) : Prop :=
  ∃ h : w ≠ [], isIgnoreAscii (w.head h) = false ∧ isIgnoreAscii (w.getLast h) = false

/-- A call returns and appends the tokens of the specification, whose words start and end as
they may. -/
def SplitsAsSpecified (a : Analyzer) (m : MetaName) (context block : XmlStr) (tl : TokenList)
    (buf : XmlStr) : Prop :=
  ∃ tl' n added, tokenizeAscii a (some m) context block tl buf = .ok (tl', n) ∧
    tl'.tokens = tl.tokens ++ added ∧ added.map Token.value = asciiSpec a.maxwordlen buf ∧
    ∀ t ∈ added, LegalEnds t.value

/-- The number of characters at which the loop ends a piece: the first one is added without a
look at the limit. -/
def pieceLen (a : Analyzer) : Nat := max 2 a.maxwordlen

/-- The runs of a text, with the mark of the one at its end. -/
def asciiRuns (buf : XmlStr) : List (XmlStr × Bool) :=
  segments isIgnoreWordAscii (asciiStrTolower (cstr buf))

/-- Every piece of the runs is shorter than the block. -/
def PiecesFit (a : Analyzer) (room : Nat) (runs : List (XmlStr × Bool)) : Prop :=
  ∀ r ∈ runs, ∀ p ∈ pieces (pieceLen a) r.1, p.length < room

/-- Where the loop does what the specification says: every piece is shorter than the block, no
lone character that may not start a word ends the text, and pieces of two characters keep at
most one if the limit is one. -/
structure SplitsWell (a : Analyzer) (room : Nat) (buf : XmlStr) : Prop where
  fits : PiecesFit a room (asciiRuns buf)
  last : ∀ r ∈ asciiRuns buf, r.2 = true → ∀ c, (pieces (pieceLen a) r.1).getLast? = some [c] →
    isIgnoreAscii c = false
  limit : a.maxwordlen = 1 → ∀ r ∈ asciiRuns buf, ∀ p ∈ pieces 2 r.1, (core p).length ≤ 1

end Spec

/-! ## What the loop adds -/

/-- The words of a run that is cut into the given pieces: the last character of the text is a
word as it is. -/
def wordValues : List XmlStr → (atEnd : Bool) → List XmlStr
  | [], _ => []
  | [p], atEnd => if atEnd = true ∧ p.length = 1 then [p] else coreValues p
  | p :: q :: ps, atEnd => coreValues p ++ wordValues (q :: ps) atEnd

section Loop

variable {a : Analyzer} {m : MetaName} {context : XmlStr} {tl : TokenList} {w s p : XmlStr}
  {ps : List XmlStr} {atEnd : Bool}

@[simp] theorem wordValues_nil : wordValues [] atEnd = [] := rfl

theorem wordValues_singleton :
    wordValues [p] atEnd = if atEnd = true ∧ p.length = 1 then [p] else coreValues p := rfl

theorem wordValues_cons (h : 2 ≤ p.length) :
    wordValues (p :: ps) atEnd = coreValues p ++ wordValues ps atEnd := by
  cases ps with
  | nil => rw [wordValues_singleton, if_neg (by omega), wordValues_nil, List.append_nil]
  | cons q ps => rfl

theorem wordValues_false : wordValues ps false = ps.flatMap coreValues := by
  induction ps with
  | nil => rfl
  | cons p ps ih =>
      cases ps with
      | nil => simp [wordValues]
      | cons q ps => rw [wordValues, ih, List.flatMap_cons (x := p)]

/-- The values of the tokens. -/
def TokenList.values (tl : TokenList) : List XmlStr := tl.tokens.map Token.value

@[simp] theorem TokenList.values_bump : tl.bump.values = tl.values := rfl

@[simp] theorem TokenList.values_push (v : XmlStr) :
    (tl.push v m context).values = tl.values ++ [v] := by
  simp [TokenList.values, TokenList.push, Token.value]

theorem values_addCore (hmin : a.minwordlen = 1) :
    (addCore a m context tl w).values = tl.values ++ coreValues w := by
  by_cases hcore : core w = []
  · rw [addCore, if_neg (by simp [hcore]), coreValues, if_pos hcore, List.append_nil]
  · rw [addCore, if_pos ⟨hcore, by omega⟩, coreValues, if_neg hcore, TokenList.values_push]

theorem ends_iff (hw : w ≠ []) (last : Bool) :
    Ends a w last ↔ pieceLen a ≤ w.length + 1 ∨ last = true := by
  have hpos := List.length_pos_iff.mpr hw
  rw [Ends, pieceLen, max_le_iff]
  exact or_congr_left (iff_and_self.mpr fun _ => by omega)

theorem two_le_pieceLen (a : Analyzer) : 2 ≤ pieceLen a := Nat.le_max_left _ _

/-- How the rest of a text is cut: `w` holds the characters of the piece that is begun, which is
ended by a character between words, by the last of the text and at the limit. -/
inductive CutFrom (a : Analyzer) : (w s : XmlStr) → Prop
  | done : CutFrom a [] []
  | between (w : XmlStr) (c : XmlChar) (rest : XmlStr) (hc : isIgnoreWordAscii c = true)
      (hw : w.length < pieceLen a) (hrest : CutFrom a [] rest) : CutFrom a w (c :: rest)
  | lone (c : XmlChar) (hc : isIgnoreWordAscii c = false) : CutFrom a [] [c]
  | begins (c : XmlChar) (rest : XmlStr) (hc : isIgnoreWordAscii c = false) (hlast : rest ≠ [])
      (hrest : CutFrom a [c] rest) : CutFrom a [] (c :: rest)
  | full (w : XmlStr) (c : XmlChar) (rest : XmlStr) (hc : isIgnoreWordAscii c = false)
      (hne : w ≠ []) (hw : w.length + 1 = pieceLen a) (hrest : CutFrom a [] rest) :
      CutFrom a w (c :: rest)
  | ends (w : XmlStr) (c : XmlChar) (hc : isIgnoreWordAscii c = false) (hne : w ≠ [])
      (hw : w.length + 1 < pieceLen a) : CutFrom a w [c]
  | goesOn (w : XmlStr) (c : XmlChar) (rest : XmlStr) (hc : isIgnoreWordAscii c = false)
      (hne : w ≠ []) (hw : w.length + 1 < pieceLen a) (hlast : rest ≠ [])
      (hrest : CutFrom a (w ++ [c]) rest) : CutFrom a w (c :: rest)

theorem cutFrom (hw : w.length < pieceLen a) (hs : w ≠ [] → s ≠ []) : CutFrom a w s := by
  have htwo := two_le_pieceLen a
  induction s generalizing w with
  | nil =>
      have hnil : w = [] := by
        by_contra hne
        exact hs hne rfl
      rw [hnil]
      exact .done
  | cons c rest ih =>
      have hrest : CutFrom a [] rest := ih (by simp only [List.length_nil]; omega) (by simp)
      cases hc : isIgnoreWordAscii c with
      | true => exact .between w c rest hc hw hrest
      | false =>
          by_cases hne : w = []
          · rw [hne]
            by_cases hlast : rest = []
            · rw [hlast]
              exact .lone c hc
            · have hlen : [c].length < pieceLen a := by simp only [List.length_singleton]; omega
              exact .begins c rest hc hlast (ih hlen fun _ => hlast)
          · by_cases hfull : w.length + 1 < pieceLen a
            · by_cases hlast : rest = []
              · rw [hlast]
                exact .ends w c hc hne hfull
              · have hlen : (w ++ [c]).length < pieceLen a := by simpa using hfull
                exact .goesOn w c rest hc hne hfull hlast (ih hlen fun _ => hlast)
            · exact .full w c rest hc hne (by omega) hrest

/-- At the start of a text no piece is begun. -/
theorem cutFrom_nil (a : Analyzer) (s : XmlStr) : CutFrom a [] s := by
  have htwo := two_le_pieceLen a
  exact cutFrom (by simp only [List.length_nil]; omega) (by simp)

/-- The piece in front of a character between words. -/
theorem pieces_short (hw : w.length < pieceLen a) :
    pieces (pieceLen a) w = if w = [] then [] else [w] := by
  by_cases hne : w = []
  · rw [if_pos hne, hne]
    rfl
  · rw [if_neg hne, pieces_of_length_le hne hw.le]

/-- The piece that the last character ends. -/
theorem pieces_concat {c : XmlChar} (hw : w.length + 1 ≤ pieceLen a) :
    pieces (pieceLen a) (w ++ [c]) = [w ++ [c]] :=
  pieces_of_length_le (by simp) (by simpa using hw)

/-- The tokens of a text before which the piece `w` is begun. -/
theorem values_scan (hmin : a.minwordlen = 1) (hcut : CutFrom a w s) :
    (scan a m context tl w s).values = tl.values ++
      (segmentsFrom isIgnoreWordAscii w s).flatMap
        fun r => wordValues (pieces (pieceLen a) r.1) r.2 := by
  have htwo := two_le_pieceLen a
  induction hcut generalizing tl with
  | done => simp [scan]
  | between w c rest hc hw _ ih =>
      have hchar : (scanChar a m context tl w c rest.isEmpty).values =
          tl.values ++ coreValues w := by
        rw [scanChar, hc, if_pos rfl]
        split
        · rw [TokenList.values_bump, values_addCore hmin]
        · exact values_addCore hmin
      have hnext : nextWord a w c rest.isEmpty = [] := by rw [nextWord, hc, if_pos rfl]
      have hpiece : wordValues (pieces (pieceLen a) w) false = coreValues w := by
        rw [pieces_short hw, wordValues_false]
        split
        · subst w
          rfl
        · exact List.flatMap_singleton ..
      rw [scan, hnext, ih, hchar, segmentsFrom_sep hc, List.flatMap_cons, hpiece, segments,
        List.append_assoc]
  | lone c hc =>
      rw [scan, scanChar, nextWord, hc, segmentsFrom_word hc, List.nil_append]
      simp [scan, hmin, pieces_of_length_le, htwo.trans' one_le_two, wordValues]
  | begins c rest hc hlast _ ih =>
      rw [scan, scanChar, nextWord, hc, segmentsFrom_word hc, List.nil_append, ← ih]
      simp [hlast]
  | full w c rest hc hne hfull _ ih =>
      obtain ⟨r, e, others, hsplit⟩ := segmentsFrom_eq_cons isIgnoreWordAscii rest
      have hend : Ends a w rest.isEmpty := (ends_iff hne _).mpr (.inl hfull.ge)
      have hlen : (w ++ [c]).length = pieceLen a := by simpa using hfull
      rw [scan, scanChar, nextWord, hc, segmentsFrom_word hc]
      simp only [Bool.false_eq_true, if_false, hne, if_pos hend]
      rw [ih, values_addCore hmin, hsplit, hsplit, List.flatMap_cons, List.flatMap_cons,
        List.nil_append, pieces_append _ hlen (by omega), wordValues_cons (by omega)]
      simp only [List.append_assoc]
  | ends w c hc hne hopen =>
      have hend : Ends a w true := (ends_iff hne _).mpr (.inr rfl)
      have hpos := List.length_pos_iff.mpr hne
      rw [scan, scanChar, nextWord, hc, segmentsFrom_word hc]
      simp only [Bool.false_eq_true, if_false, hne, List.isEmpty_nil, if_pos hend]
      rw [scan, values_addCore hmin, segmentsFrom_nil, List.flatMap_singleton,
        pieces_concat hopen.le, wordValues_cons (by rw [List.length_append]; simp; omega),
        wordValues_nil, List.append_nil]
  | goesOn w c rest hc hne hopen hlast _ ih =>
      have hend : ¬ Ends a w rest.isEmpty := by
        rw [ends_iff hne]
        simp [hlast, hopen]
      rw [scan, scanChar, nextWord, hc, segmentsFrom_word hc]
      simp only [Bool.false_eq_true, if_false, hne, if_neg hend]
      exact ih

/-! ## Where it returns -/

theorem asciiCursor_snd (c : XmlChar) (last : Bool) :
    (asciiCursor a (asciiAt w) (isIgnoreWordAscii c) last).2 = asciiAt (nextWord a w c last) := by
  rw [nextWord]
  cases hc : isIgnoreWordAscii c with
  | true =>
      rw [if_pos rfl]
      cases asciiAt w <;> rfl
  | false =>
      rw [if_neg Bool.false_ne_true]
      by_cases hne : w = []
      · subst hne
        rw [if_pos rfl, asciiAt_nil, asciiCursor]
        split <;> rfl
      · rw [if_neg hne, asciiAt_of_ne_nil hne, asciiCursor]
        by_cases hend : a.maxwordlen ≤ w.length + 1 ∨ last = true
        · rw [if_pos hend, if_pos (show Ends a w last from hend)]
          rfl
        · rw [if_neg hend, if_neg (show ¬ Ends a w last from hend)]
          simp [asciiAt]

/-- A word is ended at the index behind it. -/
theorem endedWord_mem {c : XmlChar} {last : Bool} {v : XmlStr}
    (hv : v ∈ endedWord a w c last) :
    v.length ∈ (asciiCursor a (asciiAt w) (isIgnoreWordAscii c) last).1 := by
  unfold endedWord at hv
  by_cases hne : w = []
  · rw [if_pos hne] at hv
    cases hv
  · rw [if_neg hne] at hv
    rw [asciiAt_of_ne_nil hne]
    cases hc : isIgnoreWordAscii c with
    | true =>
        rw [hc, if_pos rfl, Option.mem_some_iff] at hv
        simp [asciiCursor, hv]
    | false =>
        rw [hc, if_neg Bool.false_ne_true] at hv
        by_cases hend : Ends a w last
        · rw [if_pos hend, Option.mem_some_iff] at hv
          rw [asciiCursor, if_pos (show a.maxwordlen ≤ w.length + 1 ∨ last = true from hend), ← hv]
          simp
        · rw [if_neg hend] at hv
          cases hv

theorem endedWords_lt {room : Nat} (h : ∀ i ∈ asciiWritesFrom a (asciiAt w) s, i < room) :
    ∀ v ∈ endedWords a w s, v.length < room := by
  induction s generalizing w with
  | nil => simp [endedWords]
  | cons c rest ih =>
      rw [asciiWritesFrom, List.forall_mem_append, asciiCursor_snd] at h
      intro v hv
      rw [endedWords] at hv
      rcases List.mem_append.mp hv with hv | hv
      · exact h.1 _ (endedWord_mem (by simpa using hv))
      · exact ih h.2 v hv

/-- A piece that is begun becomes one that is no shorter. -/
theorem exists_piece (hw : w.length ≤ pieceLen a) (hne : w ≠ []) :
    ∃ r ∈ segmentsFrom isIgnoreWordAscii w s, ∃ p ∈ pieces (pieceLen a) r.1,
      w.length ≤ p.length := by
  obtain ⟨r, hr, hpre⟩ := exists_mem_segmentsFrom isIgnoreWordAscii w s
  have hpos := List.length_pos_iff.mpr hne
  have hlen := hpre.length_le
  refine ⟨r, hr, r.1.take (pieceLen a), ?_, ?_⟩
  · rw [pieces_eq_take (by omega) (List.length_pos_iff.mp (by omega))]
    simp
  · rw [List.length_take]
    omega

theorem piecesFit_cons {room : Nat} {r : XmlStr × Bool} {rs : List (XmlStr × Bool)} :
    PiecesFit a room (r :: rs) ↔
      (∀ p ∈ pieces (pieceLen a) r.1, p.length < room) ∧ PiecesFit a room rs :=
  List.forall_mem_cons

theorem piecesFit_singleton {room : Nat} {r : XmlStr × Bool} :
    PiecesFit a room [r] ↔ ∀ p ∈ pieces (pieceLen a) r.1, p.length < room :=
  List.forall_mem_singleton

/-- The indices are below the end of the block exactly if the pieces are. -/
theorem asciiWritesFrom_lt_iff_pieces {room : Nat} (hmin : a.minwordlen = 1) (hroom : 1 ≤ room)
    (hcut : CutFrom a w s) :
    (∀ i ∈ asciiWritesFrom a (asciiAt w) s, i < room) ↔
      PiecesFit a room (segmentsFrom isIgnoreWordAscii w s) := by
  have htwo := two_le_pieceLen a
  induction hcut with
  | done => simp [asciiWritesFrom, piecesFit_singleton]
  | between w c rest hc hw _ ih =>
      have hrest : (∀ i ∈ asciiWritesFrom a (asciiAt []) rest, i < room) ↔
          PiecesFit a room (segments isIgnoreWordAscii rest) := ih
      rw [asciiWritesFrom, List.forall_mem_append, asciiCursor_snd, nextWord, hc, if_pos rfl,
        hrest, segmentsFrom_sep hc, piecesFit_cons, pieces_short hw]
      by_cases hne : w = []
      · simp [hne, asciiCursor]
      · simp [asciiAt_of_ne_nil hne, hne, asciiCursor]
  | lone c hc =>
      rw [asciiWritesFrom, hc, segmentsFrom_word hc, segmentsFrom_nil, piecesFit_singleton,
        pieces_concat (by simp only [List.length_nil]; omega), asciiAt_nil, asciiCursor,
        if_pos ⟨rfl, hmin⟩]
      simp [asciiWritesFrom]
      omega
  | begins c rest hc hlast _ ih =>
      have hrest : (∀ i ∈ asciiWritesFrom a (some 1) rest, i < room) ↔
          PiecesFit a room (segmentsFrom isIgnoreWordAscii [c] rest) := ih
      rw [asciiWritesFrom, hc, segmentsFrom_word hc, List.nil_append, ← hrest, asciiAt_nil,
        asciiCursor, if_neg (by simp [hlast])]
      simp
      omega
  | full w c rest hc hne hfull _ ih =>
      obtain ⟨r, e, others, hsplit⟩ := segmentsFrom_eq_cons isIgnoreWordAscii rest
      have hend : a.maxwordlen ≤ w.length + 1 ∨ rest.isEmpty = true :=
        (ends_iff hne _).mpr (.inl hfull.ge)
      have hlen : (w ++ [c]).length = pieceLen a := by simpa using hfull
      have hrest : (∀ i ∈ asciiWritesFrom a none rest, i < room) ↔
          (∀ p ∈ pieces (pieceLen a) r, p.length < room) ∧ PiecesFit a room others := by
        rw [asciiAt_nil, hsplit, piecesFit_cons, List.nil_append] at ih
        exact ih
      rw [asciiWritesFrom, hc, asciiAt_of_ne_nil hne, asciiCursor, if_pos hend,
        List.forall_mem_append, segmentsFrom_word hc, hsplit, piecesFit_cons,
        pieces_append _ hlen (by omega), List.forall_mem_cons (a := w ++ [c]), and_assoc, ← hrest]
      refine and_congr ?_ Iff.rfl
      simp
      omega
  | ends w c hc hne hopen =>
      have hend : a.maxwordlen ≤ w.length + 1 ∨ true = true := .inr rfl
      rw [asciiWritesFrom, hc, asciiAt_of_ne_nil hne, asciiCursor, List.isEmpty_nil, if_pos hend,
        segmentsFrom_word hc, segmentsFrom_nil, piecesFit_singleton, pieces_concat hopen.le]
      simp [asciiWritesFrom]
      omega
  | goesOn w c rest hc hne hopen hlast _ ih =>
      have hend : ¬ (a.maxwordlen ≤ w.length + 1 ∨ rest.isEmpty = true) := by
        refine mt (ends_iff hne rest.isEmpty).mp ?_
        simp [hlast, hopen]
      have hrest : (∀ i ∈ asciiWritesFrom a (some (w.length + 1)) rest, i < room) ↔
          PiecesFit a room (segmentsFrom isIgnoreWordAscii (w ++ [c]) rest) := by
        have hnext : asciiAt (w ++ [c]) = some (w.length + 1) := by simp [asciiAt]
        exact hnext ▸ ih
      rw [asciiWritesFrom, hc, asciiAt_of_ne_nil hne, asciiCursor, if_neg hend,
        List.forall_mem_append, segmentsFrom_word hc, hrest]
      refine and_iff_right_of_imp fun h => ?_
      obtain ⟨r, hr, p, hp, hle⟩ := exists_piece (a := a) (w := w ++ [c]) (s := rest)
        (by simpa using hopen.le) (by simp)
      have hlt := h r hr p hp
      rw [List.length_append, List.length_singleton] at hle
      simp
      omega

/-- Where the pieces fit, the call returns what its words make. -/
theorem tokenizeAscii_of_fits (context : XmlStr) (tl : TokenList) {block buf : XmlStr}
    (hascii : ∀ c ∈ cstr buf, c < 0x80) (hpos : 1 ≤ a.maxwordlen) (hmin : a.minwordlen = 1)
    (hroom : a.maxwordlen ≤ block.length) (hfits : PiecesFit a block.length (asciiRuns buf)) :
    ∃ tl' n added, tokenizeAscii a (some m) context block tl buf = .ok (tl', n) ∧
      tl'.tokens = tl.tokens ++ added ∧ added.map Token.value =
        (asciiRuns buf).flatMap fun r => wordValues (pieces (pieceLen a) r.1) r.2 := by
  have htwo := two_le_pieceLen a
  have hnul : store block 0 0 = .ok (block.set 0 0) := by rw [store, if_pos (by omega)]
  have hstart : Holds block.length tl [] ⟨tl, false, block.set 0 0, 0⟩ :=
    holds_nil rfl rfl (by simp)
  have hwrites : ∀ i ∈ asciiWritesFrom a (asciiAt []) (asciiStrTolower (cstr buf)),
      i < block.length :=
    (asciiWritesFrom_lt_iff_pieces hmin (by omega) (cutFrom_nil a _)).mpr hfits
  have hword : ∀ c ∈ asciiStrTolower (cstr buf), isIgnoreWordAscii c = false →
      2 ≤ block.length := by
    intro c hc hcw
    obtain ⟨r, hr, hcr⟩ := exists_segment_of_mem (w := []) hc hcw
    have hlen := hfits r hr (r.1.take (pieceLen a)) (by
      rw [pieces_eq_take (by omega) (List.ne_nil_of_mem hcr)]
      simp)
    have := List.length_pos_of_mem hcr
    rw [List.length_take] at hlen
    omega
  obtain ⟨st, hloop, hst⟩ := asciiLoop_scan a m context hstart isWord_nil hascii
    (zero_notMem_cstr buf) hroom (endedWords_lt hwrites) hword
  have hgrown := (grows_listKept tl (some m) context).asciiLoop (List.prefix_refl _) hloop
  obtain ⟨added, hadded⟩ := hgrown
  refine ⟨st.tl, st.tl.n - tl.n, added, ?_, hadded.symm, ?_⟩
  · rw [tokenizeAscii, hnul, ok_bind, hloop, ok_bind]
    rfl
  · have hvalues : (scan a m context tl [] (asciiStrTolower (cstr buf))).values =
        tl.values ++ (segmentsFrom isIgnoreWordAscii [] (asciiStrTolower (cstr buf))).flatMap
          fun r => wordValues (pieces (pieceLen a) r.1) r.2 :=
      values_scan hmin (cutFrom_nil a _)
    rw [← hst, TokenList.values, ← hadded, List.map_append] at hvalues
    exact List.append_cancel_left hvalues

/-! ## What the specification says -/

theorem asciiSpec_eq (maxwordlen : Nat) (buf : XmlStr) :
    asciiSpec maxwordlen buf =
      (asciiRuns buf).flatMap fun r => (pieces maxwordlen r.1).flatMap coreValues := by
  rw [asciiSpec, ← map_fst_segments, List.flatMap_assoc, List.flatMap_map]
  rfl

theorem mem_coreValues {v : XmlStr} : v ∈ coreValues p ↔ v ≠ [] ∧ v = core p := by
  rw [coreValues]
  by_cases h : core p = []
  · simp [h]
  · rw [if_neg h, List.mem_singleton]
    exact ⟨fun hv => ⟨hv ▸ h, hv⟩, fun hv => hv.2⟩

theorem legalEnds_core (h : core p ≠ []) : LegalEnds (core p) := by
  refine ⟨h, ?_, ?_⟩
  · have hfirst := List.head_dropWhile_not isIgnoreAscii h
    simpa only [core, Bool.not_eq_true] using hfirst
  · have hne : p.rdropWhile isIgnoreAscii ≠ [] := fun hnil => h (core_eq_nil_iff.mpr hnil)
    have hlast := List.rdropWhile_last_not isIgnoreAscii p hne
    have hsuffix : core p <:+ p.rdropWhile isIgnoreAscii := List.dropWhile_suffix _
    rw [hsuffix.getLast h]
    simpa using hlast

theorem asciiSpec_legal {maxwordlen : Nat} {buf v : XmlStr} (hv : v ∈ asciiSpec maxwordlen buf) :
    LegalEnds v := by
  obtain ⟨p, -, hp⟩ := List.mem_flatMap.mp hv
  obtain ⟨hne, rfl⟩ := mem_coreValues.mp hp
  exact legalEnds_core hne

theorem core_singleton (c : XmlChar) : core [c] = if isIgnoreAscii c then [] else [c] := by
  cases hc : isIgnoreAscii c <;> simp [core, List.rdropWhile_singleton, hc]

/-- The last character of a text is no different from others if it may start a word. -/
theorem wordValues_eq (h : atEnd = true → ∀ c, ps.getLast? = some [c] → isIgnoreAscii c = false) :
    wordValues ps atEnd = ps.flatMap coreValues := by
  induction ps with
  | nil => rfl
  | cons p ps ih =>
      cases ps with
      | nil =>
          rw [wordValues_singleton, List.flatMap_singleton]
          by_cases hwhole : atEnd = true ∧ p.length = 1
          · obtain ⟨c, rfl⟩ := List.length_eq_one_iff.mp hwhole.2
            have hc := h hwhole.1 c rfl
            rw [if_pos hwhole, coreValues, core_singleton, hc]
            rfl
          · rw [if_neg hwhole]
      | cons q ps =>
          rw [List.flatMap_cons, ← ih fun hend c hc => h hend c (by simpa using hc)]
          rfl

/-- A lone character at the end of a text is among its words. -/
theorem singleton_mem_wordValues {c : XmlChar} (h : ps.getLast? = some [c]) :
    [c] ∈ wordValues ps true := by
  induction ps with
  | nil => cases h
  | cons p ps ih =>
      cases ps with
      | nil =>
          cases h
          simp [wordValues_singleton]
      | cons q ps => exact List.mem_append_right _ (ih (by simpa using h))

theorem core_mem_wordValues (hp : p ∈ ps) (htwo : 2 ≤ p.length) (hcore : core p ≠ []) :
    core p ∈ wordValues ps atEnd := by
  have hmem : core p ∈ coreValues p := mem_coreValues.mpr ⟨hcore, rfl⟩
  induction ps with
  | nil => cases hp
  | cons q ps ih =>
      rcases List.mem_cons.mp hp with rfl | hp
      · rw [wordValues_cons htwo]
        exact List.mem_append_left _ hmem
      · cases ps with
        | nil => cases hp
        | cons q' ps => exact List.mem_append_right _ (ih hp)

theorem core_pair (c d : XmlChar) :
    core [c, d] =
      if isIgnoreAscii d then core [c] else if isIgnoreAscii c then [d] else [c, d] := by
  have hpair : [c, d] = [c] ++ [d] := rfl
  cases hd : isIgnoreAscii d with
  | true =>
      rw [if_pos rfl, hpair, core, List.rdropWhile_concat_pos _ _ _ hd]
      rfl
  | false =>
      rw [if_neg Bool.false_ne_true, hpair, core, List.rdropWhile_concat_neg _ _ _ (by simp [hd])]
      cases hc : isIgnoreAscii c <;> simp [hc, hd]

/-- Pieces of two characters that keep at most one make the words of single characters. -/
theorem flatMap_pieces_two (h : ∀ p ∈ pieces 2 s, (core p).length ≤ 1) :
    (pieces 2 s).flatMap coreValues = (pieces 1 s).flatMap coreValues := by
  induction s using List.twoStepInduction with
  | nil => rfl
  | singleton c => rfl
  | cons_cons c d s ih _ =>
      have htwo : pieces 2 (c :: d :: s) = [c, d] :: pieces 2 s :=
        pieces_append s (w := [c, d]) rfl Nat.zero_lt_two
      have hone : pieces 1 (c :: d :: s) = [c] :: [d] :: pieces 1 s := by
        have hd := pieces_append s (w := [d]) rfl Nat.zero_lt_one
        have hc := pieces_append (d :: s) (w := [c]) rfl Nat.zero_lt_one
        exact hc.trans (congrArg _ hd)
      rw [htwo, List.forall_mem_cons] at h
      obtain ⟨hcd, hs⟩ := h
      rw [htwo, hone, List.flatMap_cons, ih hs, List.flatMap_cons, List.flatMap_cons,
        ← List.append_assoc]
      congr 1
      rw [core_pair] at hcd
      rw [coreValues, coreValues, coreValues, core_pair, core_singleton, core_singleton]
      cases hc : isIgnoreAscii c with
      | true => cases hd : isIgnoreAscii d <;> simp
      | false =>
          cases hd : isIgnoreAscii d with
          | true => simp
          | false => simp [hc, hd] at hcd

end Loop

/-! ## The result -/

/-- **`swish_tokenize_ascii` splits a text as specified** exactly if the pieces fit into the
block, no lone character that may not start a word ends the text, and with a limit of one no
piece keeps two characters. -/
theorem tokenizeAscii_spec_iff {a : Analyzer} {m : MetaName} {context block : XmlStr}
    {tl : TokenList} {buf : XmlStr} (hascii : ∀ c ∈ cstr buf, c < 0x80) (hpos : 1 ≤ a.maxwordlen)
    (hmin : a.minwordlen = 1) (hroom : a.maxwordlen ≤ block.length) :
    SplitsAsSpecified a m context block tl buf ↔ SplitsWell a block.length buf := by
  refine ⟨fun h => ?_, fun h => ?_⟩
  · obtain ⟨tl', n, added, hok, htokens, hvalues, -⟩ := h
    have hwrites := tokenizeAscii_writes hascii hok
    rw [asciiWrites, List.forall_mem_cons] at hwrites
    have hfits : PiecesFit a block.length (asciiRuns buf) :=
      (asciiWritesFrom_lt_iff_pieces hmin hwrites.1 (cutFrom_nil a _)).mp hwrites.2
    obtain ⟨tl₂, n₂, added₂, hok₂, htokens₂, hvalues₂⟩ := tokenizeAscii_of_fits (a := a) (m := m)
      context tl hascii hpos hmin hroom hfits
    cases hok.symm.trans hok₂
    rw [List.append_cancel_left (htokens.symm.trans htokens₂), hvalues₂] at hvalues
    refine ⟨hfits, ?_, ?_⟩
    · intro r hr hend c hc
      have hmem : [c] ∈ asciiSpec a.maxwordlen buf := by
        rw [← hvalues]
        refine List.mem_flatMap.mpr ⟨r, hr, ?_⟩
        rw [hend]
        exact singleton_mem_wordValues hc
      obtain ⟨_, hlegal, _⟩ := asciiSpec_legal hmem
      exact hlegal
    · intro hone r hr p hp
      have hk : pieceLen a = 2 := by rw [pieceLen, hone]; rfl
      by_contra hlong
      have hlen := core_sublist (w := p).length_le
      have hmem : core p ∈ asciiSpec a.maxwordlen buf := by
        rw [← hvalues]
        refine List.mem_flatMap.mpr ⟨r, hr, ?_⟩
        rw [hk]
        exact core_mem_wordValues hp (by omega) (List.length_pos_iff.mp (by omega))
      obtain ⟨q, hq, hcore⟩ := List.mem_flatMap.mp hmem
      obtain ⟨run, -, hq⟩ := List.mem_flatMap.mp hq
      rw [hone] at hq
      have hq' := length_le_of_mem_pieces Nat.zero_lt_one hq
      have hcq := core_sublist (w := q).length_le
      rw [(mem_coreValues.mp hcore).2] at hlong
      omega
  · obtain ⟨hfits, hlast, hlimit⟩ := h
    obtain ⟨tl', n, added, hok, htokens, hvalues⟩ := tokenizeAscii_of_fits (a := a) (m := m)
      context tl hascii hpos hmin hroom hfits
    have hspec : added.map Token.value = asciiSpec a.maxwordlen buf := by
      rw [hvalues, asciiSpec_eq]
      refine List.flatMap_congr fun r hr => ?_
      rw [wordValues_eq (hlast r hr)]
      by_cases hone : a.maxwordlen = 1
      · have hk : pieceLen a = 2 := by rw [pieceLen, hone]; rfl
        rw [hk, hone, flatMap_pieces_two (hlimit hone r hr)]
      · have hk : pieceLen a = a.maxwordlen := Nat.max_eq_right (by omega)
        rw [hk]
    refine ⟨tl', n, added, hok, htokens, hspec, fun t ht => ?_⟩
    exact asciiSpec_legal (hspec ▸ List.mem_map_of_mem ht)

/-- A text of which every word is kept. -/
theorem tokenizeAscii_spec_quote :
    SplitsAsSpecified ⟨16, 1, true, fun tl _ _ _ => .ok (tl, 0)⟩
      (metanameInit (lit "swishdefault")) (lit "doc") (List.replicate 16 7) .init
      (lit "He said 'Go'") := by
  refine (tokenizeAscii_spec_iff (by decide +kernel) (by decide) rfl (by decide)).mpr ⟨?_, ?_, ?_⟩
  · rw [PiecesFit]
    decide +kernel
  · have hpieces : ∀ r ∈ asciiRuns (lit "He said 'Go'"), r.2 = true →
        (pieces 16 r.1).getLast? = some (lit "'go'") := by decide +kernel
    intro r hr hend c hc
    cases (hpieces r hr hend).symm.trans hc
  · intro h
    exact absurd h (by decide)

/-- The apostrophe that ends a text is added as a word. -/
theorem tokenizeAscii_not_spec :
    ¬ SplitsAsSpecified ⟨16, 1, true, fun tl _ _ _ => .ok (tl, 0)⟩
      (metanameInit (lit "swishdefault")) (lit "doc") (List.replicate 16 7) .init
      (lit "Go.'") := by
  rintro ⟨tl', n, added, hok, htokens, hvalues, -⟩
  have hrun : (tokenizeAscii ⟨16, 1, true, fun tl _ _ _ => .ok (tl, 0)⟩
      (some (metanameInit (lit "swishdefault"))) (lit "doc") (List.replicate 16 7) .init
      (lit "Go.'")).toOption.map (fun r => r.1.tokens.map Token.value) =
        some [lit "go", lit "'"] := by decide +kernel
  have hspec : asciiSpec 16 (lit "Go.'") = [lit "go"] := by decide +kernel
  have hadded : tl'.tokens = added := htokens
  rw [hok, show (Except.ok (tl', n) : Swish (TokenList × Nat)).toOption = some (tl', n) from rfl,
    Option.map_some, hadded, hvalues, hspec] at hrun
  exact absurd hrun (by decide)

end LibSwish3
