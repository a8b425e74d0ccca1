import LibSwish3.Config
import LibSwish3.Utf8Chars
import LibSwish3.WordLines

/-!
# Sort strings

A sort string lists property names, each with a direction behind it or without.
`swish_stringlist_parse_sort_string` reads the words, writes them out with the missing directions
and reads them again.  It lowers the string first, but the words are read from the string as it
was: a direction in upper case is taken for a name.

What the words are made of does not matter to the pairing (`pairUp`), which gives pairs on every
list of words and leaves pairs alone.

## Main definitions

* `parseSortString` — `swish_stringlist_parse_sort_string`.
* `SortTerm`, `Normalizes` — names with directions, and what is to become of them.
* `normalizes_iff`.
-/

namespace LibSwish3

open Runs

/-! ## The function -/

def IsDirection (word : XmlStr) : Prop := word = lit "asc" ∨ word = lit "desc"

instance (word : XmlStr) : Decidable (IsDirection word) := inferInstanceAs (Decidable (_ ∨ _))

/-- With a config each name must be one of its Properties. -/
def checkSortProp (cfg : Option Config) (prop : XmlStr) : Swish Unit :=
  match cfg with
  | none => .ok ()
  | some cfg => (propertyGetId prop cfg.properties).map fun _ => ()

/-- The loop that writes the normalized string: each name, and the direction behind it or `asc`.
A direction is looked for behind a name only. -/
def normalizeSort (cfg : Option Config) : List XmlStr → Swish XmlStr
  | [] => .ok []
  | [prop] => do
    checkSortProp cfg prop
    pure (32 :: prop ++ 32 :: lit "asc")
  | prop :: dir :: rest => do
    checkSortProp cfg prop
    if IsDirection dir then pure (32 :: prop ++ 32 :: dir ++ (← normalizeSort cfg rest))
    else pure (32 :: prop ++ 32 :: lit "asc" ++ (← normalizeSort cfg (dir :: rest)))

/-- `swish_stringlist_parse_sort_string`.  The lowered string is not used. -/
def parseSortString (loc : Locale) (sortString : XmlStr) (cfg : Option Config) :
    Swish (List XmlStr) := do
  let _ ← strTolower loc sortString
  let sl ← stringlistBuild sortString
  -- the string was cut at its newline, and twice its length is allocated
  if sortString.takeWhile (· ≠ 10) = [] then .error (.fault .outOfBounds)
  else stringlistBuild (← normalizeSort cfg sl)

/-! ## Pairs -/

/-- The words with the missing directions. -/
def pairUp : List XmlStr → List XmlStr
  | [] => []
  | [prop] => [prop, lit "asc"]
  | prop :: dir :: rest =>
    if IsDirection dir then prop :: dir :: pairUp rest
    else prop :: lit "asc" :: pairUp (dir :: rest)

/-- Words with a space in front of each. -/
def spaced (words : List XmlStr) : XmlStr := words.flatMap (32 :: ·)

/-- Words with a space between them. -/
def joined (words : List XmlStr) : XmlStr := (spaced words).tail

section Pairs

variable {words : List XmlStr} {word : XmlStr}

/-- The normalized string lists the pairs. -/
theorem normalizeSort_eq (words : List XmlStr) :
    normalizeSort none words = .ok (spaced (pairUp words)) := by
  induction words using pairUp.induct with
  | case1 => rfl
  | case2 prop => simp [normalizeSort, checkSortProp, pairUp, spaced]
  | case3 prop dir rest hdir ih =>
      simp [normalizeSort, checkSortProp, pairUp, hdir, ih, spaced]
  | case4 prop dir rest hdir ih =>
      rw [normalizeSort]
      simp [checkSortProp, pairUp, hdir, ih, spaced]

/-- There are as many directions as names. -/
theorem even_length_pairUp (words : List XmlStr) : Even (pairUp words).length := by
  induction words using pairUp.induct with
  | case1 => exact ⟨0, rfl⟩
  | case2 prop => exact ⟨1, rfl⟩
  | case3 prop dir rest hdir ih =>
      rw [pairUp, if_pos hdir, List.length_cons, List.length_cons]
      exact ih.add_one.add_one
  | case4 prop dir rest hdir ih =>
      rw [pairUp, if_neg hdir, List.length_cons, List.length_cons]
      exact ih.add_one.add_one

/-- Pairs stay as they are. -/
theorem pairUp_pairUp (words : List XmlStr) : pairUp (pairUp words) = pairUp words := by
  have hasc : IsDirection (lit "asc") := .inl rfl
  induction words using pairUp.induct with
  | case1 => rfl
  | case2 prop => rw [pairUp, pairUp, if_pos hasc, pairUp]
  | case3 prop dir rest hdir ih => rw [pairUp, if_pos hdir, pairUp, if_pos hdir, ih]
  | case4 prop dir rest hdir ih => rw [pairUp, if_neg hdir, pairUp, if_pos hasc, ih]

/-- Every word is listed again. -/
theorem mem_pairUp (h : word ∈ words) : word ∈ pairUp words := by
  induction words using pairUp.induct with
  | case1 => cases h
  | case2 prop =>
      rw [List.mem_singleton.mp h]
      exact List.mem_cons_self
  | case3 prop dir rest hdir ih =>
      rw [pairUp, if_pos hdir, List.mem_cons, List.mem_cons]
      rw [List.mem_cons, List.mem_cons] at h
      exact h.imp_right (Or.imp_right ih)
  | case4 prop dir rest hdir ih =>
      rw [pairUp, if_neg hdir, List.mem_cons, List.mem_cons]
      exact (List.mem_cons.mp h).imp_right fun hmem => .inr (ih hmem)

/-- Beside the words only `asc` is listed. -/
theorem mem_of_mem_pairUp (h : word ∈ pairUp words) : word ∈ words ∨ word = lit "asc" := by
  induction words using pairUp.induct with
  | case1 => cases h
  | case2 prop => simpa [pairUp] using h
  | case3 prop dir rest hdir ih =>
      rw [pairUp, if_pos hdir, List.mem_cons, List.mem_cons] at h
      rw [List.mem_cons, List.mem_cons]
      rcases h with hword | hword | hmem
      · exact .inl (.inl hword)
      · exact .inl (.inr (.inl hword))
      · exact (ih hmem).imp_left fun hmem => .inr (.inr hmem)
  | case4 prop dir rest hdir ih =>
      rw [pairUp, if_neg hdir, List.mem_cons, List.mem_cons] at h
      rw [List.mem_cons]
      rcases h with hword | hword | hmem
      · exact .inl (.inl hword)
      · exact .inr hword
      · exact (ih hmem).imp_left .inr

theorem forall_mem_pairUp {P : XmlStr → Prop} (h : ∀ word ∈ words, P word) (hasc : P (lit "asc")) :
    ∀ word ∈ pairUp words, P word := by
  intro word hmem
  rcases mem_of_mem_pairUp hmem with hmem | rfl
  · exact h word hmem
  · exact hasc

theorem pairUp_ne_nil (h : words ≠ []) : pairUp words ≠ [] := by
  obtain ⟨word, rest, rfl⟩ := List.exists_cons_of_ne_nil h
  exact List.ne_nil_of_mem (mem_pairUp (List.mem_cons_self (l := rest)))

end Pairs

/-! ## Words separated by spaces -/

section Spaced

variable {loc : Locale} {words : List XmlStr}

theorem startsWithGap_spaced (words : List XmlStr) : StartsWithGap isBlank (spaced words) := by
  cases words with
  | nil => exact nofun
  | cons word words =>
      rintro _ ⟨⟩
      rfl

theorem wordLine_spaced (h : ∀ word ∈ words, Unquoted word) :
    WordLine isBlank SpellsItself words (spaced words) := by
  induction words with
  | nil => exact .gap rfl
  | cons word words ih =>
      rw [List.forall_mem_cons] at h
      exact (WordLine.first ⟨h.1, rfl⟩ (startsWithGap_spaced words) (ih h.2)).cons
        (by decide : isBlank 32)

theorem spaced_eq_joined (h : words ≠ []) : spaced words = 32 :: joined words := by
  obtain ⟨word, words, rfl⟩ := List.exists_cons_of_ne_nil h
  rfl

theorem wordLine_joined (h : ∀ word ∈ words, Unquoted word) :
    WordLine isBlank SpellsItself words (joined words) := by
  have hline := wordLine_spaced h
  by_cases hne : words = []
  · subst hne
    exact .gap rfl
  · rw [spaced_eq_joined hne] at hline
    exact hline.tail (readable_spellsItself isspace_of_isBlank) (by decide)

/-- Words separated by spaces are read as they are, if they fit. -/
theorem lineWords_of_blanks {line : XmlStr} (h : WordLine isBlank SpellsItself words line) :
    lineWords line = words := by
  refine lineWords_of_line (readable_spellsItself isspace_of_isBlank) h fun hmem => ?_
  obtain hgap | ⟨word, text, -, hspells, hten⟩ := h.mem hmem
  · exact absurd hgap (by decide)
  · exact newline_notMem_spellsItself hspells hten

theorem joined_cons (word : XmlStr) (words : List XmlStr) :
    joined (word :: words) = word ++ spaced words := rfl

/-- A text lowers if its words do. -/
theorem strTolower_joined (ha : loc.AsciiAgrees)
    (h : ∀ word ∈ words, ∃ low, strTolower loc word = .ok low) :
    ∃ low, strTolower loc (joined words) = .ok low := by
  have hspaced : ∀ words : List XmlStr, (∀ word ∈ words, ∃ low, strTolower loc word = .ok low) →
      ∃ low, strTolower loc (spaced words) = .ok low := by
    intro words h
    induction words with
    | nil => exact ⟨[], rfl⟩
    | cons word words ih =>
        rw [List.forall_mem_cons] at h
        obtain ⟨low, hlow⟩ := h.1
        obtain ⟨lows, hlows⟩ := ih h.2
        have hspace : strTolower loc [32] = .ok [32] := rfl
        exact ⟨_, strTolower_append ha (strTolower_append ha hspace hlow) hlows⟩
  cases words with
  | nil => exact ⟨[], rfl⟩
  | cons word words =>
      rw [List.forall_mem_cons] at h
      obtain ⟨low, hlow⟩ := h.1
      obtain ⟨lows, hlows⟩ := hspaced words h.2
      exact ⟨_, strTolower_append ha hlow hlows⟩

/-- What the function returns for words separated by spaces: their pairs, if they fit. -/
theorem parseSortString_joined_iff {out : List XmlStr} (ha : loc.AsciiAgrees) (hne : words ≠ [])
    (hwords : ∀ word ∈ words, Unquoted word)
    (hlow : ∀ word ∈ words, ∃ low, strTolower loc word = .ok low) :
    parseSortString loc (joined words) none = .ok out ↔
      out = pairUp words ∧ ∀ word ∈ words, word.length ≤ Swish.maxWordLen := by
  obtain ⟨low, hlowered⟩ := strTolower_joined ha hlow
  have hbuild := lineWords_of_blanks (wordLine_joined hwords)
  have hpairs : ∀ word ∈ pairUp words, Unquoted word := forall_mem_pairUp hwords (by decide)
  have hcut : (joined words).takeWhile (· ≠ 10) ≠ [] := by
    obtain ⟨word, rest, rfl⟩ := List.exists_cons_of_ne_nil hne
    have hword := hwords word List.mem_cons_self
    obtain ⟨c, s, rfl⟩ := List.exists_cons_of_ne_nil hword.ne_nil
    have hc : c ≠ 10 := by
      rintro rfl
      exact absurd (hword.noBlank 10 List.mem_cons_self) (by decide)
    simp [joined_cons, hc]
  rw [parseSortString, hlowered, ok_bind]
  by_cases hfits : ∀ word ∈ words, word.length ≤ Swish.maxWordLen
  · rw [stringlistBuild_ok_iff.mpr ⟨hbuild, hfits⟩, ok_bind, if_neg hcut, normalizeSort_eq,
      ok_bind, stringlistBuild_ok_iff, lineWords_of_blanks (wordLine_spaced hpairs)]
    constructor
    · rintro ⟨rfl, -⟩
      exact ⟨rfl, hfits⟩
    · rintro ⟨rfl, -⟩
      exact ⟨rfl, forall_mem_pairUp hfits (by decide)⟩
  · refine iff_of_false (fun hok => ?_) (fun h => hfits h.2)
    obtain ⟨sl, hsl, -⟩ := bind_ok_iff.mp hok
    obtain ⟨hwords', hall⟩ := stringlistBuild_ok_iff.mp hsl
    rw [hbuild] at hwords'
    exact hfits (hwords' ▸ hall)

/-- The pairs are words as well, and of pairs the function makes the same pairs. -/
theorem parseSortString_pairUp (ha : loc.AsciiAgrees) (hne : words ≠ [])
    (hwords : ∀ word ∈ words, Unquoted word)
    (hlow : ∀ word ∈ words, ∃ low, strTolower loc word = .ok low)
    (hfits : ∀ word ∈ words, word.length ≤ Swish.maxWordLen) :
    parseSortString loc (joined (pairUp words)) none = .ok (pairUp words) := by
  have hpairs : ∀ word ∈ pairUp words, Unquoted word := forall_mem_pairUp hwords (by decide)
  have hlower : ∀ word ∈ pairUp words, ∃ low, strTolower loc word = .ok low :=
    forall_mem_pairUp hlow ⟨_, rfl⟩
  rw [parseSortString_joined_iff ha (pairUp_ne_nil hne) hpairs hlower, pairUp_pairUp]
  exact ⟨rfl, forall_mem_pairUp hfits (by decide)⟩

end Spaced

/-! ## Names with directions -/

/-- A property name of a sort string, and the direction behind it. -/
structure SortTerm where
  prop : XmlStr
  dir : Option XmlStr
  deriving DecidableEq, Repr

def SortTerm.words (term : SortTerm) : List XmlStr := term.prop :: term.dir.toList

/-- The words of a list of terms. -/
def sortWords (terms : List SortTerm) : List XmlStr := terms.flatMap SortTerm.words

/-- A name that is no direction, and a direction, in any letter case. -/
structure SortTerm.WellFormed (term : SortTerm) : Prop where
  unquoted : Unquoted term.prop
  not_asc : strCaseEq term.prop (lit "asc") = false
  not_desc : strCaseEq term.prop (lit "desc") = false
  direction : ∀ dir, term.dir = some dir → strCaseEq dir (lit "asc") ∨ strCaseEq dir (lit "desc")

/-- The name and the direction in lower case, `asc` where there is none. -/
def SortTerm.normalized (loc : Locale) (term : SortTerm) : List XmlStr :=
  [lowered loc term.prop, (term.dir.map (lowered loc)).getD (lit "asc")]

/-- The string lists the normalized terms, which are pairs, and they stay as they are. -/
structure Normalizes (loc : Locale) (terms : List SortTerm) : Prop where
  returns : parseSortString loc (joined (sortWords terms)) none =
    .ok (terms.flatMap (SortTerm.normalized loc))
  even : Even (terms.flatMap (SortTerm.normalized loc)).length
  again : parseSortString loc (joined (terms.flatMap (SortTerm.normalized loc))) none =
    .ok (terms.flatMap (SortTerm.normalized loc))

/-- A term that is in lower case and short enough. -/
structure SortTerm.Kept (loc : Locale) (term : SortTerm) : Prop where
  prop : strTolower loc term.prop = .ok term.prop
  length_le : term.prop.length ≤ Swish.maxWordLen
  dir : ∀ dir, term.dir = some dir → IsDirection dir

section Terms

variable {loc : Locale} {term : SortTerm} {terms : List SortTerm} {word dir : XmlStr}

/-- The bytes whose lower case stands in one of the two directions. -/
theorem direction_byte (c : XmlChar) (h : tolower c ∈ lit "asc" ++ lit "desc") :
    isspace c = false ∧ c ≠ 0 ∧ (c ≠ 34 ∧ c ≠ 39 ∧ c ≠ 92) ∧ c < 0x80 := by
  have hbytes : ∀ n < 256, tolower (UInt8.ofNat n) ∈ lit "asc" ++ lit "desc" →
      isspace (UInt8.ofNat n) = false ∧ UInt8.ofNat n ≠ 0 ∧
        (UInt8.ofNat n ≠ 34 ∧ UInt8.ofNat n ≠ 39 ∧ UInt8.ofNat n ≠ 92) ∧
        UInt8.ofNat n < 0x80 := by decide +kernel
  have hc := hbytes c.toNat (UInt8.toNat_lt c)
  rw [UInt8.ofNat_toNat] at hc
  exact hc h

theorem map_tolower_direction (h : strCaseEq dir (lit "asc") ∨ strCaseEq dir (lit "desc")) :
    IsDirection (dir.map tolower) := by
  rw [strCaseEq, strCaseEq, beq_iff_eq, beq_iff_eq] at h
  exact h

theorem tolower_mem_direction (h : strCaseEq dir (lit "asc") ∨ strCaseEq dir (lit "desc")) :
    ∀ c ∈ dir, tolower c ∈ lit "asc" ++ lit "desc" := by
  intro c hc
  have hmem : tolower c ∈ dir.map tolower := List.mem_map_of_mem hc
  rw [List.mem_append]
  rcases map_tolower_direction h with hword | hword
  · exact .inl (hword ▸ hmem)
  · exact .inr (hword ▸ hmem)

theorem unquoted_direction (h : strCaseEq dir (lit "asc") ∨ strCaseEq dir (lit "desc")) :
    Unquoted dir where
  ne_nil := by
    rintro rfl
    exact absurd (map_tolower_direction h) (by decide)
  noNul hmem := (direction_byte 0 (tolower_mem_direction h 0 hmem)).2.1 rfl
  noBlank c hc := (direction_byte c (tolower_mem_direction h c hc)).1
  noQuote c hc := (direction_byte c (tolower_mem_direction h c hc)).2.2.1

/-- The lower case of a direction. -/
theorem strTolower_direction (h : strCaseEq dir (lit "asc") ∨ strCaseEq dir (lit "desc")) :
    strTolower loc dir = .ok (dir.map tolower) := by
  have hascii : isAscii dir = true := by
    rw [isAscii, Bool.and_eq_true, Bool.not_eq_true', List.isEmpty_eq_false_iff, List.all_eq_true]
    refine ⟨(unquoted_direction h).ne_nil, fun c hc => ?_⟩
    simpa using (direction_byte c (tolower_mem_direction h c hc)).2.2.2
  rw [strTolower, if_pos hascii]
  rfl

theorem mem_words_iff : word ∈ term.words ↔ word = term.prop ∨ term.dir = some word := by
  rw [SortTerm.words, List.mem_cons, Option.mem_toList]

theorem forall_mem_sortWords {P : XmlStr → Prop} (h : ∀ term ∈ terms, ∀ word ∈ term.words, P word) :
    ∀ word ∈ sortWords terms, P word := by
  intro word hmem
  obtain ⟨term, hterm, hword⟩ := List.mem_flatMap.mp hmem
  exact h term hterm word hword

theorem sortWords_ne_nil (h : terms ≠ []) : sortWords terms ≠ [] := by
  obtain ⟨term, rest, rfl⟩ := List.exists_cons_of_ne_nil h
  simp [sortWords, SortTerm.words]

theorem SortTerm.WellFormed.word_unquoted (h : term.WellFormed) (hword : word ∈ term.words) :
    Unquoted word := by
  rcases mem_words_iff.mp hword with rfl | hdir
  · exact h.unquoted
  · exact unquoted_direction (h.direction word hdir)

theorem SortTerm.WellFormed.word_lowers (h : term.WellFormed)
    (hlow : ∃ low, strTolower loc term.prop = .ok low) (hword : word ∈ term.words) :
    ∃ low, strTolower loc word = .ok low := by
  rcases mem_words_iff.mp hword with rfl | hdir
  · exact hlow
  · exact ⟨_, strTolower_direction (h.direction word hdir)⟩

theorem SortTerm.Kept.word_length_le (h : term.Kept loc) (hword : word ∈ term.words) :
    word.length ≤ Swish.maxWordLen := by
  rcases mem_words_iff.mp hword with rfl | hdir
  · exact h.length_le
  · rcases h.dir word hdir with rfl | rfl <;> decide

/-- A term whose words are in lower case, with a name short enough. -/
theorem SortTerm.WellFormed.kept (h : term.WellFormed)
    (hnormal : ∀ word ∈ term.words, strTolower loc word = .ok word)
    (hfits : term.prop.length ≤ Swish.maxWordLen) : term.Kept loc where
  prop := hnormal _ (mem_words_iff.mpr (.inl rfl))
  length_le := hfits
  dir dir hdir := by
    have hcase := h.direction dir hdir
    have hlow := hnormal dir (mem_words_iff.mpr (.inr hdir))
    have hsame := (strTolower_direction hcase).symm.trans hlow
    rw [← Except.ok.inj hsame]
    exact map_tolower_direction hcase

theorem SortTerm.WellFormed.not_direction (h : term.WellFormed) : ¬ IsDirection term.prop := by
  rintro (hasc | hdesc)
  · exact absurd h.not_asc (by rw [hasc]; decide)
  · exact absurd h.not_desc (by rw [hdesc]; decide)

/-- Terms in lower case are paired up as they should be. -/
theorem pairUp_sortWords (hterms : ∀ term ∈ terms, term.WellFormed)
    (hkept : ∀ term ∈ terms, term.Kept loc) :
    pairUp (sortWords terms) = terms.flatMap (SortTerm.normalized loc) := by
  induction terms with
  | nil => rfl
  | cons term terms ih =>
      rw [List.forall_mem_cons] at hterms hkept
      have hrest := ih hterms.2 hkept.2
      have hprop := lowered_of_ok hkept.1.prop
      obtain ⟨prop, _ | dir⟩ := term
      · -- the word behind a name without a direction is a name
        cases terms with
        | nil => simp [sortWords, SortTerm.words, SortTerm.normalized, pairUp, hprop]
        | cons next terms =>
            have hnext := (hterms.2 next List.mem_cons_self).not_direction
            rw [List.flatMap_cons, ← hrest]
            simp only [sortWords, List.flatMap_cons, SortTerm.words, Option.toList_none,
              List.cons_append, List.nil_append, pairUp, if_neg hnext, SortTerm.normalized, hprop]
            rfl
      · have hdir := hkept.1.dir dir rfl
        have hlow : lowered loc dir = dir := by rcases hdir with rfl | rfl <;> rfl
        rw [List.flatMap_cons, ← hrest]
        simp only [sortWords, List.flatMap_cons, SortTerm.words, Option.toList_some,
          List.cons_append, List.nil_append, pairUp, if_pos hdir, SortTerm.normalized, hprop,
          Option.map_some, Option.getD_some, hlow]

/-- Normalized words are in lower case. -/
theorem strTolower_normalized (ha : loc.AsciiAgrees) (hl : loc.Lowers) (hterm : term.WellFormed)
    (hlow : ∃ low, strTolower loc term.prop = .ok low) (hword : word ∈ term.normalized loc) :
    strTolower loc word = .ok word := by
  obtain ⟨low, hlow⟩ := hlow
  rw [SortTerm.normalized, lowered_of_ok hlow, List.mem_cons, List.mem_singleton] at hword
  rcases hword with rfl | rfl
  · exact strTolower_idem ha hl hlow
  · cases hdir : term.dir with
    | none => rfl
    | some dir =>
        have hlower : strTolower loc dir = .ok (dir.map tolower) :=
          strTolower_direction (hterm.direction dir hdir)
        rw [Option.map_some, Option.getD_some, lowered_of_ok hlower]
        exact strTolower_idem ha hl hlower

end Terms

/-- A sort string is normalized exactly if it is in lower case and its names are short enough. -/
theorem normalizes_iff {loc : Locale} {terms : List SortTerm} (ha : loc.AsciiAgrees)
    (hl : loc.Lowers) (hne : terms ≠ []) (hterms : ∀ term ∈ terms, term.WellFormed)
    (hlow : ∀ term ∈ terms, ∃ low, strTolower loc term.prop = .ok low) :
    Normalizes loc terms ↔ ∀ term ∈ terms, term.Kept loc := by
  have hwordsNe := sortWords_ne_nil hne
  have hunquoted : ∀ word ∈ sortWords terms, Unquoted word :=
    forall_mem_sortWords fun term hterm _ hword => (hterms term hterm).word_unquoted hword
  have hlower : ∀ word ∈ sortWords terms, ∃ low, strTolower loc word = .ok low :=
    forall_mem_sortWords fun term hterm _ hword =>
      (hterms term hterm).word_lowers (hlow term hterm) hword
  have hparse : ∀ out, parseSortString loc (joined (sortWords terms)) none = .ok out ↔
      out = pairUp (sortWords terms) ∧ ∀ word ∈ sortWords terms, word.length ≤ Swish.maxWordLen :=
    fun _ => parseSortString_joined_iff ha hwordsNe hunquoted hlower
  constructor
  · rintro ⟨hreturns, -, -⟩ term hterm
    obtain ⟨hpairs, hfits⟩ := (hparse _).mp hreturns
    have hmem : ∀ word ∈ term.words, word ∈ sortWords terms := fun word hword =>
      List.mem_flatMap.mpr ⟨term, hterm, hword⟩
    have hnormal : ∀ word ∈ term.words, strTolower loc word = .ok word := by
      intro word hword
      have hout : word ∈ pairUp (sortWords terms) := mem_pairUp (hmem word hword)
      rw [← hpairs] at hout
      obtain ⟨term', hterm', hword'⟩ := List.mem_flatMap.mp hout
      exact strTolower_normalized ha hl (hterms term' hterm') (hlow term' hterm') hword'
    exact (hterms term hterm).kept hnormal (hfits _ (hmem _ (mem_words_iff.mpr (.inl rfl))))
  · intro hkept
    have hpairs := pairUp_sortWords hterms hkept
    have hfits : ∀ word ∈ sortWords terms, word.length ≤ Swish.maxWordLen :=
      forall_mem_sortWords fun term hterm _ hword => (hkept term hterm).word_length_le hword
    refine ⟨(hparse _).mpr ⟨hpairs.symm, hfits⟩, hpairs ▸ even_length_pairUp _, ?_⟩
    rw [← hpairs]
    exact parseSortString_pairUp ha hwordsNe hunquoted hlower hfits

/-- A name with a direction and one without. -/
theorem normalizes_lower :
    Normalizes .posix [⟨lit "title", some (lit "desc")⟩, ⟨lit "size", none⟩] := by
  refine (normalizes_iff Locale.posix_asciiAgrees Locale.posix_lowers (by decide) ?_ ?_).mpr ?_
  · simp only [List.forall_mem_cons]
    refine ⟨⟨by decide, by decide, by decide, ?_⟩, ⟨by decide, by decide, by decide, nofun⟩, nofun⟩
    rintro _ ⟨⟩
    exact .inr (by decide)
  · simp only [List.forall_mem_cons]
    exact ⟨⟨_, rfl⟩, ⟨_, rfl⟩, nofun⟩
  · simp only [List.forall_mem_cons]
    refine ⟨⟨rfl, by decide, ?_⟩, ⟨rfl, by decide, nofun⟩, nofun⟩
    rintro _ ⟨⟩
    exact .inr rfl

/-- In `title DESC` the direction is taken for a name. -/
theorem not_normalizes_upper :
    ¬ ∀ (loc : Locale) (terms : List SortTerm), loc.AsciiAgrees → loc.Lowers → terms ≠ [] →
      (∀ term ∈ terms, term.WellFormed) →
      (∀ term ∈ terms, ∃ low, strTolower loc term.prop = .ok low) → Normalizes loc terms := by
  intro h
  have hnormal := h .posix [⟨lit "title", some (lit "DESC")⟩] Locale.posix_asciiAgrees
    Locale.posix_lowers (by decide) ?_ ?_
  · exact absurd hnormal.returns (by decide)
  · simp only [List.forall_mem_cons]
    refine ⟨⟨by decide, by decide, by decide, ?_⟩, nofun⟩
    rintro _ ⟨⟩
    exact .inr (by decide)
  · simp only [List.forall_mem_cons]
    exact ⟨⟨_, rfl⟩, nofun⟩

end LibSwish3
