import LibSwish3.WordBuffer

/-!
# Lines of words

A line spells a list of words: gaps between them, and in each place a text that stands for the
word.  `stringlistBuild` gives the words back, whatever the gaps and the texts are, as long as
`getword` reads each text as its word (`Readable`).

So it does for words in quotes and for bare words, and `stringlistBuild_of_rendered` is the
inverse law.  It does too for words in the text of an XML element, but there the gaps can be line
breaks, and the list builder stops at the first of them.

## Main definitions

* `WordLine`, `Readable` — lines that spell words, texts that are read as words.
* `Rendered`, `stringlistBuild_of_rendered` — words with and without quotes.
* `Unquoted`, `listedWords_iff` — words in the text of an element.
-/

namespace LibSwish3

/-! ## Lines -/

/-- The text is empty or begins with a gap. -/
def StartsWithGap (isGap : XmlChar → Bool) (s : XmlStr) : Prop := ∀ c, s.head? = some c → isGap c

/-- The line consists of texts for the words, with gaps in front of them and behind. -/
inductive WordLine (isGap : XmlChar → Bool) (Spells : XmlStr → XmlStr → Prop) :
    List XmlStr → XmlStr → Prop
  | gap {s : XmlStr} : s.all isGap → WordLine isGap Spells [] s
  | word {gap text word rest : XmlStr} {words : List XmlStr} : gap.all isGap → Spells word text →
      StartsWithGap isGap rest → WordLine isGap Spells words rest →
        WordLine isGap Spells (word :: words) (gap ++ (text ++ rest))

/-- `getword` reads each text as its word.  It may go on behind the gap that ends the word. -/
structure Readable (isGap : XmlChar → Bool) (Spells : XmlStr → XmlStr → Prop) : Prop where
  space : ∀ c, isGap c → isspace c
  word_ne : ∀ word text, Spells word text → word ≠ []
  starts : ∀ word text, Spells word text → ∃ c s, text = c :: s ∧ isspace c = false
  reads : ∀ word text rest, Spells word text → StartsWithGap isGap rest →
    lineWord (text ++ rest) = (word, rest) ∨ lineWord (text ++ rest) = (word, rest.tail)

section Lines

variable {isGap : XmlChar → Bool} {Spells : XmlStr → XmlStr → Prop} {words : List XmlStr}
  {s gap : XmlStr} {c : XmlChar}

theorem strSkipWs_gap (h : gap.all isspace) (s : XmlStr) : strSkipWs (gap ++ s) = strSkipWs s := by
  induction gap with
  | nil => rfl
  | cons c gap ih =>
      simp only [List.all_cons, Bool.and_eq_true] at h
      rw [List.cons_append, strSkipWs, List.dropWhile_cons_of_pos h.1, ← strSkipWs, ih h.2]

theorem lineWord_gap (h : gap.all isspace) (s : XmlStr) : lineWord (gap ++ s) = lineWord s := by
  rw [lineWord, lineWord, strSkipWs_gap h]

theorem Readable.gap_space (h : Readable isGap Spells) (hgap : gap.all isGap) :
    gap.all isspace := by
  rw [List.all_eq_true] at hgap ⊢
  exact fun c hc => h.space c (hgap c hc)

/-- A line with a longer first gap is a line. -/
theorem WordLine.cons (hc : isGap c) (h : WordLine isGap Spells words s) :
    WordLine isGap Spells words (c :: s) := by
  cases h with
  | gap hall => exact .gap (by rw [List.all_cons, hc, hall]; rfl)
  | @word gap text word rest words hgap hspells hrest hwords =>
      have hlonger : (c :: gap).all isGap := by rw [List.all_cons, hc, hgap]; rfl
      exact .word hlonger hspells hrest hwords

/-- A line that begins with a word. -/
theorem WordLine.first {word text rest : XmlStr} (hspells : Spells word text)
    (hrest : StartsWithGap isGap rest) (h : WordLine isGap Spells words rest) :
    WordLine isGap Spells (word :: words) (text ++ rest) := by
  have hgap : ([] : XmlStr).all isGap := rfl
  exact .word hgap hspells hrest h

/-- A line without its first gap is a line. -/
theorem WordLine.tail (hread : Readable isGap Spells) (h : WordLine isGap Spells words (c :: s))
    (hc : isGap c) : WordLine isGap Spells words s := by
  generalize hline : c :: s = line at h
  cases h with
  | gap hall =>
      rw [← hline, List.all_cons, Bool.and_eq_true] at hall
      exact .gap hall.2
  | @word gap text word rest words hgap hspells hrest hwords =>
      cases gap with
      | nil =>
          obtain ⟨d, text', rfl, hd⟩ := hread.starts word text hspells
          obtain ⟨rfl, -⟩ := List.cons.inj hline
          rw [hread.space c hc] at hd
          cases hd
      | cons d gap =>
          obtain ⟨rfl, rfl⟩ := List.cons.inj hline
          rw [List.all_cons, Bool.and_eq_true] at hgap
          exact .word hgap.2 hspells hrest hwords

/-- `getword` reads the words of a line one after the other. -/
theorem lineWordsFrom_of_line (hread : Readable isGap Spells)
    (h : WordLine isGap Spells words s) {fuel : Nat} (hfuel : words.length < fuel) :
    lineWordsFrom fuel s = words := by
  induction fuel generalizing words s with
  | zero => cases hfuel
  | succ fuel ih =>
      rw [lineWordsFrom]
      cases h with
      | gap hall =>
          have hblank := strSkipWs_gap (hread.gap_space hall) []
          rw [List.append_nil] at hblank
          rw [lineWord_of_blank (hblank.trans rfl)]
      | @word gap text word rest words hgap hspells hrest hwords =>
          have hlt : words.length < fuel := by simpa using hfuel
          have htail : WordLine isGap Spells words rest.tail := by
            cases rest with
            | nil => exact hwords
            | cons c rest => exact hwords.tail hread (hrest c rfl)
          obtain ⟨c, word, rfl⟩ := List.exists_cons_of_ne_nil (hread.word_ne word text hspells)
          rw [lineWord_gap (hread.gap_space hgap)]
          rcases hread.reads _ text rest hspells hrest with hword | hword
          · rw [hword]
            simp only [ih hwords hlt]
          · rw [hword]
            simp only [ih htail hlt]

theorem WordLine.imp {Spells' : XmlStr → XmlStr → Prop}
    (himp : ∀ word text, word ∈ words → Spells word text → Spells' word text)
    (h : WordLine isGap Spells words s) : WordLine isGap Spells' words s := by
  induction h with
  | gap hall => exact .gap hall
  | word hgap hspells hrest _ ih =>
      exact .word hgap (himp _ _ List.mem_cons_self hspells) hrest
        (ih fun word text hmem => himp word text (List.mem_cons_of_mem _ hmem))

/-- A byte of a line is in a gap or in the text of a word. -/
theorem WordLine.mem (h : WordLine isGap Spells words s) (hc : c ∈ s) :
    isGap c ∨ ∃ word text, word ∈ words ∧ Spells word text ∧ c ∈ text := by
  induction h with
  | gap hall => exact .inl (List.all_eq_true.mp hall c hc)
  | word hgap hspells _ _ ih =>
      rcases List.mem_append.mp hc with hc | hc
      · exact .inl (List.all_eq_true.mp hgap c hc)
      · rcases List.mem_append.mp hc with hc | hc
        · exact .inr ⟨_, _, List.mem_cons_self, hspells, hc⟩
        · obtain hgap | ⟨word, text, hmem, hspells, hc⟩ := ih hc
          · exact .inl hgap
          · exact .inr ⟨word, text, List.mem_cons_of_mem _ hmem, hspells, hc⟩

/-- A line has a byte for each word. -/
theorem WordLine.length_le (hread : Readable isGap Spells) (h : WordLine isGap Spells words s) :
    words.length ≤ s.length := by
  induction h with
  | gap _ => exact Nat.zero_le _
  | @word gap text word rest words _ hspells _ _ ih =>
      obtain ⟨c, text', rfl, -⟩ := hread.starts word text hspells
      simp only [List.length_cons, List.length_append]
      omega

/-- A line without a line break gives its words back. -/
theorem lineWords_of_line (hread : Readable isGap Spells)
    (h : WordLine isGap Spells words s) (hline : (10 : XmlChar) ∉ s) :
    lineWords s = words := by
  have hcut : s.takeWhile (· ≠ 10) = s := by
    rw [List.takeWhile_eq_self_iff]
    intro c hc
    have hne : c ≠ 10 := fun heq => hline (heq ▸ hc)
    simpa using hne
  rw [lineWords]
  simp only [hcut]
  exact lineWordsFrom_of_line hread h (Nat.lt_succ_of_le (h.length_le hread))

end Lines

/-! ## Bare words -/

/-- A byte that does not end a bare word. -/
def isBareByte (c : XmlChar) : Bool := !isspace c

/-- A non-empty word without blanks that does not begin with a quote character. -/
def Bare (word : XmlStr) : Prop :=
  word ≠ [] ∧ word.all isBareByte ∧ word.head? ≠ some 34 ∧ word.head? ≠ some 39

instance (word : XmlStr) : Decidable (Bare word) := by
  rw [Bare]
  infer_instance

/-- A bare word is read up to the blank behind it. -/
theorem lineWordScan_bare_append {word rest acc : XmlStr} (h : word.all isBareByte)
    (hrest : StartsWithGap isspace rest) :
    lineWordScan none false acc (word ++ rest) = (acc ++ word, rest.tail) := by
  induction word generalizing acc with
  | nil =>
      rw [List.nil_append, List.append_nil]
      cases rest with
      | nil => rfl
      | cons c rest =>
          have hspace : isspace c = true := hrest c rfl
          rw [lineWordScan]
          simp [hspace]
  | cons c word ih =>
      simp only [List.all_cons, Bool.and_eq_true, isBareByte, Bool.not_eq_true'] at h
      have hnl : ¬ (c = 10 ∨ c = 13) := by
        intro hc
        rw [isspace_newline hc] at h
        exact absurd h.1 (by decide)
      rw [List.cons_append, lineWordScan]
      simp only [Option.isSome_none, Bool.false_eq_true, and_false, if_false, hnl, h.1,
        reduceCtorEq, Option.isNone_none, or_self]
      rw [ih h.2, List.append_assoc, List.singleton_append]

theorem Bare.starts {word : XmlStr} (h : Bare word) : ∃ c s, word = c :: s ∧ isspace c = false := by
  obtain ⟨c, s, rfl⟩ := List.exists_cons_of_ne_nil h.1
  refine ⟨c, s, rfl, ?_⟩
  have hall := h.2.1
  simp only [List.all_cons, Bool.and_eq_true, isBareByte, Bool.not_eq_true'] at hall
  exact hall.1

theorem lineWord_bare {word rest : XmlStr} (h : Bare word) (hrest : StartsWithGap isspace rest) :
    lineWord (word ++ rest) = (word, rest.tail) := by
  obtain ⟨c, s, rfl, hspace⟩ := h.starts
  have hquote : ¬ (c = 34 ∨ c = 39) := by
    have hfirst := h.2.2
    simpa using hfirst
  have hskip : strSkipWs (c :: s ++ rest) = c :: s ++ rest := by simp [strSkipWs, hspace]
  rw [lineWord, hskip]
  simp only [List.cons_append, if_neg hquote]
  exact lineWordScan_bare_append h.2.1 hrest

/-! ## Words in quotes -/

/-- In quotes a backslash stands before each backslash and each quote character. -/
def escapeWord (quote : XmlChar) (word : XmlStr) : XmlStr :=
  word.flatMap fun c => if c = 92 ∨ c = quote then [92, c] else [c]

/-- A text for a word: the word itself, or the word in quotes. -/
inductive Rendered (word : XmlStr) : XmlStr → Prop
  | bare : Bare word → Rendered word word
  | quoted (quote : XmlChar) : quote = 34 ∨ quote = 39 →
      Rendered word (quote :: (escapeWord quote word ++ [quote]))

/-- A word that a line can list. -/
structure Listable (word : XmlStr) : Prop where
  ne_nil : word ≠ []
  length_le : word.length ≤ Swish.maxWordLen
  noNul : (0 : XmlChar) ∉ word
  noNewline : (10 : XmlChar) ∉ word
  noReturn : (13 : XmlChar) ∉ word

/-- A space or a tab. -/
def isBlank (c : XmlChar) : Bool := c = 32 || c = 9

theorem isspace_of_isBlank (c : XmlChar) (h : isBlank c) : isspace c = true := by
  simp only [isBlank, Bool.or_eq_true, decide_eq_true_eq] at h
  rcases h with rfl | rfl <;> rfl

/-- In quotes the scan takes the backslashes away and ends at the quote. -/
theorem lineWordScan_quoted {quote : XmlChar} {word acc : XmlStr} (rest : XmlStr)
    (hquote : quote = 34 ∨ quote = 39) (hnl : (10 : XmlChar) ∉ word) (hcr : (13 : XmlChar) ∉ word) :
    lineWordScan (some quote) false acc (escapeWord quote word ++ quote :: rest) =
      (acc ++ word, rest) := by
  have hne : quote ≠ 92 ∧ quote ≠ 10 ∧ quote ≠ 13 := by
    rcases hquote with rfl | rfl <;> decide
  induction word generalizing acc with
  | nil =>
      rw [escapeWord, List.flatMap_nil, List.nil_append, lineWordScan]
      simp [hne]
  | cons c word ih =>
      simp only [List.mem_cons, not_or] at hnl hcr
      have hrest : ∀ acc, lineWordScan (some quote) false acc (escapeWord quote word ++
          quote :: rest) = (acc ++ word, rest) := fun _ => ih hnl.2 hcr.2
      have hend : ¬ (c = 10 ∨ c = 13) := fun hc => hc.elim (Ne.symm hnl.1) (Ne.symm hcr.1)
      rw [escapeWord, List.flatMap_cons, ← escapeWord]
      by_cases hescape : c = 92 ∨ c = quote
      · -- the backslash is taken, and the byte behind it whatever it is
        rw [if_pos hescape, List.cons_append, List.cons_append, lineWordScan, if_pos (by simp),
          List.cons_append, List.cons_append, List.nil_append, lineWordScan]
        simp only [Bool.not_true, Bool.false_eq_true, false_and, and_false, if_false, hend]
        rw [hrest, List.append_assoc, List.singleton_append]
      · rw [if_neg hescape, List.cons_append, List.cons_append, List.nil_append, lineWordScan]
        simp only [not_or] at hescape
        simp only [hescape, false_and, if_false, hend, Option.some.injEq, Option.isNone_some,
          Bool.false_eq_true, or_self, and_false]
        rw [hrest, List.append_assoc, List.singleton_append]

theorem lineWord_quoted {quote : XmlChar} {word : XmlStr} (rest : XmlStr)
    (hquote : quote = 34 ∨ quote = 39) (hnl : (10 : XmlChar) ∉ word) (hcr : (13 : XmlChar) ∉ word) :
    lineWord (quote :: (escapeWord quote word ++ [quote]) ++ rest) = (word, rest) := by
  have hspace : isspace quote = false := by rcases hquote with rfl | rfl <;> rfl
  rw [List.cons_append, List.append_assoc, List.singleton_append, lineWord, strSkipWs,
    List.dropWhile_cons_of_neg (by simp [hspace])]
  simp only [if_pos hquote]
  exact lineWordScan_quoted rest hquote hnl hcr

/-- Both texts are read as the word. -/
theorem readable_rendered :
    Readable isBlank fun word text => Listable word ∧ Rendered word text where
  space := isspace_of_isBlank
  word_ne word text h := h.1.ne_nil
  starts word text h := by
    obtain ⟨-, hbare | ⟨quote, hquote⟩⟩ := h
    · exact hbare.starts
    · exact ⟨quote, _, rfl, by rcases hquote with rfl | rfl <;> rfl⟩
  reads word text rest h hrest := by
    obtain ⟨hlist, hbare | ⟨quote, hquote⟩⟩ := h
    · exact .inr (lineWord_bare hbare fun c hc => isspace_of_isBlank c (hrest c hc))
    · exact .inl (lineWord_quoted rest hquote hlist.noNewline hlist.noReturn)

theorem newline_notMem_rendered {word text : XmlStr} (hword : (10 : XmlChar) ∉ word)
    (h : Rendered word text) : (10 : XmlChar) ∉ text := by
  cases h with
  | bare _ => exact hword
  | quoted quote hquote =>
      have hne : (10 : XmlChar) ≠ quote := by rcases hquote with rfl | rfl <;> decide
      have hescape : (10 : XmlChar) ∉ escapeWord quote word := by
        intro hmem
        obtain ⟨c, hc, hmem⟩ := List.mem_flatMap.mp hmem
        have hten : (10 : XmlChar) ≠ c := fun heq => hword (heq ▸ hc)
        split at hmem <;> simp [hten] at hmem
      simp [hne, hescape]

/-- Reading a line of words inverts writing it, with quotes or without. -/
theorem stringlistBuild_of_rendered {words : List XmlStr} {line : XmlStr}
    (hwords : ∀ word ∈ words, Listable word) (hline : WordLine isBlank Rendered words line) :
    stringlistBuild line = .ok words := by
  have hlisted : WordLine isBlank (fun word text => Listable word ∧ Rendered word text) words
      line := hline.imp fun word _ hmem htext => ⟨hwords word hmem, htext⟩
  have hnl : (10 : XmlChar) ∉ line := by
    intro hmem
    obtain hgap | ⟨word, text, hmem, htext, hten⟩ := hline.mem hmem
    · exact absurd hgap (by decide)
    · exact newline_notMem_rendered (hwords word hmem).noNewline htext hten
  exact stringlistBuild_ok_iff.mpr
    ⟨lineWords_of_line readable_rendered hlisted hnl, fun word hmem =>
      (hwords word hmem).length_le⟩

instance (word : XmlStr) : Decidable (Listable word) :=
  decidable_of_iff (word ≠ [] ∧ word.length ≤ Swish.maxWordLen ∧ (0 : XmlChar) ∉ word ∧
    (10 : XmlChar) ∉ word ∧ (13 : XmlChar) ∉ word)
    ⟨fun h => ⟨h.1, h.2.1, h.2.2.1, h.2.2.2.1, h.2.2.2.2⟩,
      fun h => ⟨h.ne_nil, h.length_le, h.noNul, h.noNewline, h.noReturn⟩⟩

/-- A line with a bare word and one in quotes. -/
theorem stringlistBuild_of_rendered_two :
    stringlistBuild (lit "e\\f 'c\\'d '") = .ok [lit "e\\f", lit "c'd "] := by
  have hquoted : WordLine isBlank Rendered [lit "c'd "] (lit "'c\\'d '") :=
    .first (Rendered.quoted 39 (.inr rfl)) nofun (.gap rfl)
  have hline : WordLine isBlank Rendered [lit "e\\f", lit "c'd "] (lit "e\\f 'c\\'d '") :=
    .first (Rendered.bare (by decide : Bare (lit "e\\f"))) (by rintro _ ⟨⟩; rfl)
      (hquoted.cons (by decide : isBlank 32))
  exact stringlistBuild_of_rendered (by decide) hline

/-! ## Words in the text of an element -/

/-- White space in XML. -/
def isXmlSpace (c : XmlChar) : Bool := c = 32 || c = 9 || c = 13 || c = 10

/-- A word without blanks, quotes and backslashes. -/
structure Unquoted (word : XmlStr) : Prop where
  ne_nil : word ≠ []
  noNul : (0 : XmlChar) ∉ word
  noBlank : ∀ c ∈ word, isspace c = false
  noQuote : ∀ c ∈ word, c ≠ 34 ∧ c ≠ 39 ∧ c ≠ 92

instance (word : XmlStr) : Decidable (Unquoted word) :=
  decidable_of_iff (word ≠ [] ∧ (0 : XmlChar) ∉ word ∧ word.all (isspace · = false) ∧
    word.all fun c => c ≠ 34 ∧ c ≠ 39 ∧ c ≠ 92)
    ⟨fun h => ⟨h.1, h.2.1, fun c hc => of_decide_eq_true (List.all_eq_true.mp h.2.2.1 c hc),
        fun c hc => of_decide_eq_true (List.all_eq_true.mp h.2.2.2 c hc)⟩,
      fun h => ⟨h.ne_nil, h.noNul,
        List.all_eq_true.mpr fun c hc => decide_eq_true (h.noBlank c hc),
        List.all_eq_true.mpr fun c hc => decide_eq_true (h.noQuote c hc)⟩⟩

/-- A text for an unquoted word is the word. -/
def SpellsItself (word text : XmlStr) : Prop := Unquoted word ∧ text = word

section Listed

variable {words : List XmlStr} {word text : XmlStr}

theorem Unquoted.bare (h : Unquoted word) : Bare word := by
  obtain ⟨c, s, rfl⟩ := List.exists_cons_of_ne_nil h.ne_nil
  have hfirst := h.noQuote c List.mem_cons_self
  refine ⟨h.ne_nil, ?_, by simpa using hfirst.1, by simpa using hfirst.2.1⟩
  rw [List.all_eq_true]
  intro d hd
  rw [isBareByte, h.noBlank d hd]
  rfl

theorem isspace_of_isXmlSpace (c : XmlChar) (h : isXmlSpace c) : isspace c = true := by
  simp only [isXmlSpace, Bool.or_eq_true, decide_eq_true_eq] at h
  rcases h with ((rfl | rfl) | rfl) | rfl <;> rfl

theorem readable_spellsItself {isGap : XmlChar → Bool} (hgap : ∀ c, isGap c → isspace c) :
    Readable isGap SpellsItself where
  space := hgap
  word_ne _ _ h := h.1.ne_nil
  starts _ _ h := h.2 ▸ h.1.bare.starts
  reads word text rest h hrest := by
    obtain ⟨hword, rfl⟩ := h
    exact .inr (lineWord_bare hword.bare fun c hc => hgap c (hrest c hc))

theorem newline_notMem_spellsItself (h : SpellsItself word text) : (10 : XmlChar) ∉ text := by
  obtain ⟨hword, rfl⟩ := h
  exact fun hmem => absurd (hword.noBlank 10 hmem) (by decide)

/-- A text without a line break stays on the first line. -/
theorem ne_newline {pre : XmlStr} (h : (10 : XmlChar) ∉ pre) :
    ∀ c ∈ pre, decide (c ≠ 10) = true := by
  intro c hc
  have hne : c ≠ 10 := fun heq => h (heq ▸ hc)
  simpa using hne

theorem startsWithGap_takeWhile {isGap : XmlChar → Bool} {s : XmlStr} (p : XmlChar → Bool)
    (h : StartsWithGap isGap s) : StartsWithGap isGap (s.takeWhile p) := by
  intro c hc
  cases s with
  | nil => cases hc
  | cons d s =>
      rw [List.takeWhile_cons] at hc
      split at hc
      · exact h c hc
      · cases hc

/-- The first line of a text, and what is behind it, list the words between them. -/
theorem WordLine.split (h : WordLine isXmlSpace SpellsItself words text) :
    ∃ first behind, words = first ++ behind ∧
      WordLine isXmlSpace SpellsItself first (text.takeWhile (· ≠ 10)) ∧
      WordLine isXmlSpace SpellsItself behind (text.dropWhile (· ≠ 10)) := by
  induction h with
  | @gap s hall =>
      rw [List.all_eq_true] at hall
      refine ⟨[], [], rfl, .gap ?_, .gap ?_⟩
      · exact List.all_eq_true.mpr fun c hc => hall c ((List.takeWhile_sublist _).subset hc)
      · exact List.all_eq_true.mpr fun c hc => hall c ((List.dropWhile_sublist _).subset hc)
  | @word gap text word rest words hgap hspells hrest hwords ih =>
      by_cases hnl : (10 : XmlChar) ∈ gap
      · -- the line ends in front of the word
        obtain ⟨pre, post, rfl, hpre⟩ := List.eq_append_cons_of_mem hnl
        rw [List.all_append, Bool.and_eq_true] at hgap
        rw [List.append_assoc, List.cons_append, List.takeWhile_append_of_pos (ne_newline hpre),
          List.dropWhile_append_of_pos (ne_newline hpre)]
        refine ⟨[], word :: words, rfl, .gap ?_, ?_⟩
        · simpa using hgap.1
        · exact .word hgap.2 hspells hrest hwords
      · have htext := newline_notMem_spellsItself hspells
        rw [List.takeWhile_append_of_pos (ne_newline hnl),
          List.dropWhile_append_of_pos (ne_newline hnl),
          List.takeWhile_append_of_pos (ne_newline htext),
          List.dropWhile_append_of_pos (ne_newline htext)]
        obtain ⟨first, behind, rfl, hfirst, hbehind⟩ := ih
        exact ⟨word :: first, behind, rfl,
          .word hgap hspells (startsWithGap_takeWhile _ hrest) hfirst, hbehind⟩

/-- Only blanks list no word. -/
theorem WordLine.eq_nil_iff (h : WordLine isXmlSpace SpellsItself words text) :
    words = [] ↔ ∀ c ∈ text, isXmlSpace c := by
  cases h with
  | gap hall => exact iff_of_true rfl (List.all_eq_true.mp hall)
  | @word gap text word rest words hgap hspells hrest hwords =>
      refine iff_of_false (by simp) fun hall => ?_
      obtain ⟨c, s, rfl, hspace⟩ :=
        (readable_spellsItself isspace_of_isXmlSpace).starts word text hspells
      have hc := isspace_of_isXmlSpace c (hall c (by simp))
      rw [hc] at hspace
      cases hspace

end Listed

/-- Every word of the text of an element is listed exactly if none stands behind the first line
break. -/
theorem listedWords_iff {words : List XmlStr} {text : XmlStr}
    (hwords : ∀ word ∈ words, word.length ≤ Swish.maxWordLen)
    (htext : WordLine isXmlSpace SpellsItself words text) :
    stringlistBuild text = .ok words ↔ ∀ c ∈ text.dropWhile (· ≠ 10), isXmlSpace c := by
  obtain ⟨first, behind, rfl, hfirst, hbehind⟩ := htext.split
  have hread := readable_spellsItself isspace_of_isXmlSpace
  have hbuild : lineWords text = first :=
    lineWordsFrom_of_line hread hfirst (Nat.lt_succ_of_le (hfirst.length_le hread))
  have hfit : WordsFit (first ++ behind) := hwords
  rw [stringlistBuild_ok_iff, hbuild, and_iff_left hfit, ← hbehind.eq_nil_iff]
  exact List.self_eq_append_right

/-- A line with one word. -/
theorem wordLine_singleton {word : XmlStr} (h : Unquoted word) :
    WordLine isXmlSpace SpellsItself [word] word := by
  have hline : WordLine isXmlSpace SpellsItself [word] (word ++ []) :=
    .first ⟨h, rfl⟩ nofun (.gap rfl)
  rwa [List.append_nil] at hline

/-- Two words in one line. -/
theorem listedWords_oneLine :
    stringlistBuild (lit "foo bar") = .ok [lit "foo", lit "bar"] := by
  have hfoo : SpellsItself (lit "foo") (lit "foo") := ⟨by decide, rfl⟩
  have hbar : WordLine isXmlSpace SpellsItself [lit "bar"] (lit " bar") :=
    (wordLine_singleton (by decide)).cons (by decide : isXmlSpace 32)
  have htext : WordLine isXmlSpace SpellsItself [lit "foo", lit "bar"] (lit "foo bar") :=
    .first hfoo (by rintro _ ⟨⟩; rfl) hbar
  have hline : (lit "foo bar").dropWhile (· ≠ 10) = [] := by decide
  refine (listedWords_iff (by decide) htext).mpr ?_
  rw [hline]
  exact List.forall_mem_nil _

/-- A word is not listed where the text begins with a line break. -/
theorem listedWords_secondLine :
    ¬ ∀ (words : List XmlStr) (text : XmlStr),
      (∀ word ∈ words, word.length ≤ Swish.maxWordLen) →
      WordLine isXmlSpace SpellsItself words text → stringlistBuild text = .ok words := by
  intro h
  have htext : WordLine isXmlSpace SpellsItself [lit "foo"] (lit "\nfoo") :=
    (wordLine_singleton (by decide)).cons (by decide : isXmlSpace 10)
  exact absurd (h [lit "foo"] (lit "\nfoo") (by decide) htext) (by decide)

end LibSwish3
