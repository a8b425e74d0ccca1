import LibSwish3.AppendCounts
import LibSwish3.Lib.Runs
import LibSwish3.Lib.Segments
import LibSwish3.Tokenizer

/-!
# The values of a buffer

Texts that `swish_nb_add_str` adds to a buffer stand behind one another with the joiner between
them, and are told apart by it.  Blank text is skipped, but whether a text is blank is asked
before it is cleaned, and cleaning makes a text of control bytes blank: that adds a joiner and
nothing behind it.  Control bytes stay in a text that is not ASCII, the joiner among them.

Both can be seen from the bytes of the texts, no two of which depend on each other except through
their order (`Separable`).

## Main definitions

* `addValue` — one text more.
* `Decodes` — the buffer can be taken apart.
* `Separable`, `decodes_iff` — the texts for which it can.
-/

namespace LibSwish3

open Runs Segments

/-- A call of `swish_nb_add_str` that cleans, with a bumper for a joiner. -/
def addValue (name : XmlStr) (autovivify : Bool) (nb : NamedBuffer) (str : XmlStr) :
    Swish NamedBuffer :=
  nbAddStr nb name str Swish.tokenposBumper true autovivify

/-- Splitting the buffer at its bumpers gives the cleaned texts, those of which nothing is left
not among them. -/
def Decodes (nb : NamedBuffer) (name : XmlStr) (autovivify : Bool) (strs : List XmlStr) : Prop :=
  ∃ nb', run (addValue name autovivify) nb strs = .ok nb' ∧
    valuesOf tokenposBumper (nb'.content name) = (strs.map (cleanedText true)).filter (· ≠ [])

/-- No text that is not ASCII has a bumper, and behind a text that has a printable character no
text consists of control bytes and blanks, but for blank ones. -/
def Separable (strs : List XmlStr) : Prop :=
  (∀ s ∈ strs, tokenposBumper ∈ s → ∀ c ∈ s, c < 0x80) ∧
    strs.Pairwise fun s t => (∃ c ∈ s, 32 < c) → (∀ c ∈ t, c ≤ 32) → strAllWs t

section Values

variable {nb nb' : NamedBuffer} {name str : XmlStr} {autovivify : Bool} {strs : List XmlStr}

/-! ## Cleaned text -/

theorem joinText_tokenposBumper (buf text : XmlStr) :
    joinText buf Swish.tokenposBumper text = joinAt tokenposBumper buf text := by
  cases buf <;> simp [joinText, joinAt, Swish.tokenposBumper, tokenposBumper]

theorem isspace_of_gt {c : XmlChar} (h : 32 < c) : isspace c = false := by
  simp only [UInt8.lt_iff_toNat_lt, UInt8.reduceToNat] at h
  simp only [isspace, Bool.or_eq_false_iff, decide_eq_false_iff_not, Bool.and_eq_false_iff,
    UInt8.le_iff_toNat_le, ← UInt8.toNat_inj, UInt8.reduceToNat]
  omega

theorem le_of_isspace {c : XmlChar} (h : isspace c = true) : c ≤ 32 := by
  by_contra hgt
  rw [isspace_of_gt (UInt8.not_le.mp hgt)] at h
  cases h

theorem strTrimWs_strSkipWs_eq_nil_iff {s : XmlStr} :
    strTrimWs (strSkipWs s) = [] ↔ strAllWs s = true := by
  rw [strAllWs, List.all_eq_true]
  constructor
  · intro hnil c hc
    by_contra hspace
    have hmem := (mem_trimmed_iff (by simpa using hspace)).mpr hc
    rw [hnil] at hmem
    cases hmem
  · intro hall
    have hskip : strSkipWs s = [] := by simpa [strSkipWs] using hall
    rw [hskip]
    rfl

theorem isAscii_iff {s : XmlStr} : isAscii s = true ↔ s ≠ [] ∧ ∀ c ∈ s, c < 0x80 := by
  simp [isAscii]

/-- Where a text is ASCII its control bytes are blanks, and where it is not it has a byte that
stays. -/
theorem strAllWs_strCtrlToWs_iff {s : XmlStr} :
    strAllWs (strCtrlToWs s) = true ↔ ∀ c ∈ s, c ≤ 32 := by
  rw [strAllWs, List.all_eq_true, strCtrlToWs]
  split
  · constructor
    · intro hall c hc
      have hblank := hall _ (List.mem_map_of_mem hc)
      split at hblank
      · rename_i hlow
        exact UInt8.le_of_lt hlow
      · exact le_of_isspace hblank
    · intro hall c hc
      obtain ⟨d, hd, rfl⟩ := List.mem_map.mp hc
      split
      · rfl
      · rename_i hlow
        have heq : d = 32 := UInt8.le_antisymm (hall d hd) (UInt8.not_lt.mp hlow)
        rw [heq]
        rfl
  · rename_i hascii
    refine ⟨fun hall c hc => le_of_isspace (hall c hc), fun hall => ?_⟩
    have hnil : s = [] := by
      by_contra hne
      exact hascii (isAscii_iff.mpr
        ⟨hne, fun c hc => UInt8.lt_of_le_of_lt (hall c hc) (by decide)⟩)
    simp [hnil]

/-- Nothing is left of a text of control bytes and blanks. -/
theorem cleanedText_eq_nil_iff (hnul : 0 ∉ str) :
    cleanedText true str = [] ↔ ∀ c ∈ str, c ≤ 32 := by
  rw [cleanedText, if_pos rfl, cstr_of_noNul hnul, strTrimWs_strSkipWs_eq_nil_iff,
    strAllWs_strCtrlToWs_iff]

/-- A bumper is left in a text that is not ASCII. -/
theorem bumper_mem_cleanedText_iff (hnul : 0 ∉ str) :
    tokenposBumper ∈ cleanedText true str ↔ tokenposBumper ∈ str ∧ ¬ ∀ c ∈ str, c < 0x80 := by
  rw [cleanedText, if_pos rfl, cstr_of_noNul hnul, mem_trimmed_iff (by decide), strCtrlToWs]
  split
  · rename_i hascii
    refine iff_of_false ?_ fun h => h.2 (isAscii_iff.mp hascii).2
    intro hmem
    obtain ⟨c, -, hc⟩ := List.mem_map.mp hmem
    split at hc
    · cases hc
    · rename_i hlow
      rw [hc] at hlow
      exact hlow (by decide)
  · rename_i hascii
    refine ⟨fun hmem => ⟨hmem, fun hlow => ?_⟩, And.left⟩
    exact hascii (isAscii_iff.mpr ⟨List.ne_nil_of_mem hmem, hlow⟩)

/-! ## The run -/

/-- The texts that are added. -/
def addedTexts (strs : List XmlStr) : List XmlStr :=
  (strs.filter fun s => !strAllWs (cstr s)).map (cleanedText true)

/-- A call joins its text to what is there, unless it is blank. -/
theorem addValue_content (h : addValue name autovivify nb str = .ok nb') :
    nb'.content name = (addedTexts [str]).foldl (joinAt tokenposBumper) (nb.content name) := by
  rw [content_nbAddStr h name, addedTexts]
  cases hblank : strAllWs (cstr str) with
  | true => simp [hblank]
  | false => simp [hblank, joinText_tokenposBumper]

theorem addValue_ok (hname : name ∈ nb) (str : XmlStr) :
    ∃ nb', addValue name autovivify nb str = .ok nb' ∧ name ∈ nb' := by
  obtain ⟨nb', hadd⟩ := nbAddStr_ok_of str Swish.tokenposBumper true (.inr hname)
  exact ⟨nb', hadd, (mem_of_nbAddStr hadd name).mpr (.inl hname)⟩

theorem addedTexts_cons (s : XmlStr) (strs : List XmlStr) :
    addedTexts (s :: strs) = addedTexts [s] ++ addedTexts strs := by
  rw [addedTexts, addedTexts, addedTexts, ← List.map_append, ← List.filter_append]
  rfl

/-- A run joins the texts one after the other. -/
theorem run_addValue (hname : name ∈ nb) :
    ∃ nb', run (addValue name autovivify) nb strs = .ok nb' ∧
      nb'.content name = (addedTexts strs).foldl (joinAt tokenposBumper) (nb.content name) := by
  induction strs generalizing nb with
  | nil => exact ⟨nb, rfl, rfl⟩
  | cons s strs ih =>
      obtain ⟨nb₁, hadd, hname₁⟩ : ∃ nb₁, addValue name autovivify nb s = .ok nb₁ ∧ name ∈ nb₁ :=
        addValue_ok hname s
      obtain ⟨nb', hrun, hcontent⟩ := ih hname₁
      refine ⟨nb', (run_cons_of_ok hadd).trans hrun, ?_⟩
      rw [hcontent, addValue_content hadd, addedTexts_cons s strs, List.foldl_append]

/-! ## The values -/

/-- Blank texts clean to nothing. -/
theorem filter_addedTexts (hnul : ∀ s ∈ strs, 0 ∉ s) :
    (addedTexts strs).filter (· ≠ []) = (strs.map (cleanedText true)).filter (· ≠ []) := by
  rw [addedTexts, List.filter_map, List.filter_map, List.filter_filter]
  congr 1
  refine List.filter_congr fun s hs => ?_
  have hblank : strAllWs (cstr s) = true → cleanedText true s = [] := by
    intro h
    rw [cstr_of_noNul (hnul s hs)] at h
    exact (cleanedText_eq_nil_iff (hnul s hs)).mpr
      fun c hc => le_of_isspace (List.all_eq_true.mp h c hc)
  by_cases h : strAllWs (cstr s) = true
  · simp [h, hblank h]
  · simp [h]

/-- What is blank has no bumper. -/
theorem bumper_notMem_of_blank (h : strAllWs str = true) : tokenposBumper ∉ str := by
  intro hmem
  have hspace := List.all_eq_true.mp h _ hmem
  revert hspace
  decide

theorem ne_nil_cleanedText_iff (hnul : 0 ∉ str) :
    cleanedText true str ≠ [] ↔ ∃ c ∈ str, 32 < c := by
  rw [ne_eq, cleanedText_eq_nil_iff hnul]
  simp

/-- The texts that are added can be told apart if and only if those that are given can. -/
theorem addedTexts_separable_iff (hnul : ∀ s ∈ strs, 0 ∉ s) :
    ((∀ t ∈ addedTexts strs, tokenposBumper ∉ t) ∧
      (addedTexts strs).Pairwise fun t u => t ≠ [] → u ≠ []) ↔ Separable strs := by
  rw [addedTexts, List.pairwise_map, List.pairwise_filter, Separable]
  refine and_congr ?_ (List.Pairwise.iff_of_mem ?_)
  · simp only [List.forall_mem_map, List.mem_filter, Bool.not_eq_true', and_imp]
    refine forall_congr' fun s => forall_congr' fun hs => ?_
    rw [cstr_of_noNul (hnul s hs), bumper_mem_cleanedText_iff (hnul s hs)]
    constructor
    · intro h hmem
      cases hblank : strAllWs s with
      | true => exact absurd hmem (bumper_notMem_of_blank hblank)
      | false => exact not_not.mp fun hlow => h hblank ⟨hmem, hlow⟩
    · exact fun h _ hmem => hmem.2 (h hmem.1)
  · intro s t hs ht
    rw [cstr_of_noNul (hnul s hs), cstr_of_noNul (hnul t ht), ne_nil_cleanedText_iff (hnul s hs),
      ne_eq, cleanedText_eq_nil_iff (hnul t ht), Bool.not_eq_true', Bool.not_eq_true']
    constructor
    · intro h hprints hctrl
      have hnot : strAllWs s = false := by
        obtain ⟨c, hc, hgt⟩ := hprints
        refine Bool.eq_false_iff.mpr fun hblank => ?_
        exact UInt8.not_lt.mpr (le_of_isspace (List.all_eq_true.mp hblank c hc)) hgt
      by_contra hblank
      exact h hnot (by simpa using hblank) hprints hctrl
    · intro h _ hblank hprints hctrl
      rw [h hprints hctrl] at hblank
      cases hblank

/-- The texts can be told apart in the buffer if and only if cleaning leaves no bumper in one and
does not make one empty that stands behind another. -/
theorem decodes_iff (hname : name ∈ nb) (hempty : nb.content name = [])
    (hnul : ∀ s ∈ strs, 0 ∉ s) : Decodes nb name autovivify strs ↔ Separable strs := by
  obtain ⟨nb', hrun, hcontent⟩ : ∃ nb', run (addValue name autovivify) nb strs = .ok nb' ∧
      nb'.content name = (addedTexts strs).foldl (joinAt tokenposBumper) (nb.content name) :=
    run_addValue hname
  rw [hempty] at hcontent
  have hdecodes : Decodes nb name autovivify strs ↔
      valuesOf tokenposBumper (nb'.content name) =
        (strs.map (cleanedText true)).filter (· ≠ []) := by
    constructor
    · rintro ⟨nb'', hrun', hvalues⟩
      cases hrun.symm.trans hrun'
      exact hvalues
    · exact fun hvalues => ⟨nb', hrun, hvalues⟩
  rw [hdecodes, hcontent, ← filter_addedTexts hnul, valuesOf_foldl_joinAt_iff,
    addedTexts_separable_iff hnul]

end Values

/-- Two texts in a buffer, and a control byte in front of them. -/
theorem decodes_iff_ascii :
    Decodes ((∅ : NamedBuffer).insert (lit "p") []) (lit "p") false [[1], lit "a", lit "b"] ↔
      Separable [[1], lit "a", lit "b"] :=
  decodes_iff (by decide) (by decide) (by decide)

/-- A control byte between two texts adds an empty value. -/
theorem not_decodes_control :
    ¬ ∀ nb name autovivify strs, name ∈ nb → nb.content name = [] →
      (∀ s ∈ strs, 0 ∉ s ∧ (mbstowcs s).isSome) → Decodes nb name autovivify strs := by
  intro hall
  have hname : lit "p" ∈ (∅ : NamedBuffer).insert (lit "p") [] := by decide
  obtain ⟨nb', hrun, hvalues⟩ :=
    hall _ (lit "p") false [lit "a", [1], lit "b"] hname (by decide) (by decide)
  obtain ⟨nb'', hrun', hcontent⟩ : ∃ nb'', run (addValue (lit "p") false) _
      [lit "a", [1], lit "b"] = .ok nb'' ∧ nb''.content (lit "p") =
        (addedTexts [lit "a", [1], lit "b"]).foldl (joinAt tokenposBumper) _ :=
    run_addValue hname
  cases hrun.symm.trans hrun'
  rw [hcontent] at hvalues
  revert hvalues
  decide

end LibSwish3
