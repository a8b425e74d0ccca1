import LibSwish3.HeaderFields
import LibSwish3.HeaderRules

/-!
# Numerals that are read exactly

`swish_string_to_int` reads a `long`, exits when the numeral is outside its range, and returns the
`long` as an `int`.  The check is made at one width and the result is handed on at another: a
numeral between the two limits comes back without its upper half, and every number in a head or in
a configuration file goes through here.

## Main definitions

* `Decimal` — a numeral: a sign or none, and digits.
* `ExactOrExit` — the number that is read and stored is the one that the numeral stands for.
* `exactOrExit_iff`.
-/

namespace LibSwish3

open Runs

/-- A decimal numeral with an optional sign and any number of digits. -/
structure Decimal where
  text : XmlStr
  ne_nil : unsigned text ≠ []
  isdigit_of_mem : ∀ c ∈ unsigned text, isdigit c = true

namespace Decimal

/-- The integer that the numeral stands for. -/
def value (d : Decimal) : Int := numeral d.text

theorem strtol_text (d : Decimal) : strtol d.text = d.value := strtol_eq_numeral d.isdigit_of_mem

end Decimal

/-- A call returns the value, or it takes the error exit. -/
def ReturnsOrExits {α : Type} (result : Swish α) (a : α) : Prop :=
  result = .ok a ∨ result = .error .exitFailure

/-- A call that goes on with the value. -/
theorem ReturnsOrExits.bind {α β : Type} {result : Swish α} {a : α} {f : α → Swish β} {b : β}
    (h : ReturnsOrExits result a) (hf : ReturnsOrExits (f a) b) :
    ReturnsOrExits (result >>= f) b := by
  rcases h with rfl | rfl
  · exact hf
  · exact .inr rfl

/-- The text is read as the integer it stands for or not at all, and so are the headers and the
attributes that have it as their value. -/
structure ExactOrExit (d : Decimal) : Prop where
  text : ReturnsOrExits (stringToInt d.text) d.value
  contentLength : ∀ info line, headerValue line = some d.text →
    strnCaseEq line (lit "Content-Length") 14 = true →
    ReturnsOrExits (headerLine info line) { info with size := d.value }
  lastModified : ∀ info line, headerValue line = some d.text →
    strnCaseEq line (lit "Last-Modified") 13 = true →
    ReturnsOrExits (headerLine info line) { info with mtime := d.value }
  bias : ∀ env h m (attr : Attr), attr.name = lit "bias" → attr.value = d.text →
    ReturnsOrExits (readMetanameAttr env (h, m) attr) (h, { m with bias := d.value })
  metaId : ∀ env (h : Headmaker) m (attr : Attr), attr.name = lit "id" → attr.value = d.text →
    d.text ∉ h.config.flags.metaIds →
    ∃ h', ReturnsOrExits (readMetanameAttr env (h, m) attr) (h', { m with id := d.value })
  propId : ∀ env (h : Headmaker) prop (attr : Attr), attr.name = lit "id" →
    attr.value = d.text → d.text ∉ h.config.flags.propIds →
    ∃ h', ReturnsOrExits (readPropertyAttr env (h, prop) attr) (h', { prop with id := d.value })

section Decimals

variable {d : Decimal}

/-- What the call does in the two ranges. -/
theorem stringToInt_decimal (d : Decimal) : stringToInt d.text =
    if d.value < -2 ^ 63 ∨ 2 ^ 63 ≤ d.value then .error .exitFailure else .ok (toInt d.value) := by
  simp only [stringToInt, d.strtol_text]

theorem returnsOrExits_stringToInt_iff : ReturnsOrExits (stringToInt d.text) d.value ↔
    IsInt d.value ∨ d.value < -2 ^ 63 ∨ 2 ^ 63 ≤ d.value := by
  rw [stringToInt_decimal]
  by_cases hlong : d.value < -2 ^ 63 ∨ 2 ^ 63 ≤ d.value
  · rw [if_pos hlong]
    exact iff_of_true (.inr rfl) (.inr hlong)
  rw [if_neg hlong]
  constructor
  · rintro (hok | hexit)
    · have hint := isInt_toInt d.value
      rw [Except.ok.inj hok] at hint
      exact .inl hint
    · cases hexit
  · rintro (hint | hrange)
    · exact .inl (congrArg Except.ok (toInt_of_isInt hint))
    · exact absurd hrange hlong

/-! ## Where the number goes -/

section Stored

variable (hd : ReturnsOrExits (stringToInt d.text) d.value)

include hd

theorem headerLine_contentLength (info : HeadInfo) {line : XmlStr}
    (hvalue : headerValue line = some d.text)
    (hname : strnCaseEq line (lit "Content-Length") 14 = true) :
    ReturnsOrExits (headerLine info line) { info with size := d.value } := by
  simp only [headerLine, hvalue, if_pos hname]
  exact hd.bind (.inl rfl)

theorem headerLine_lastModified (info : HeadInfo) {line : XmlStr}
    (hvalue : headerValue line = some d.text)
    (hname : strnCaseEq line (lit "Last-Modified") 13 = true) :
    ReturnsOrExits (headerLine info line) { info with mtime := d.value } := by
  have hother : ¬ strnCaseEq line (lit "Content-Length") 14 = true := by
    intro hlength
    have hfalse := strnCaseEq_false (k := 13) (u := lit "Last-Modified") hlength (by decide)
      (by decide)
    rw [hname] at hfalse
    cases hfalse
  simp only [headerLine, hvalue, if_neg hother, if_pos hname]
  exact hd.bind (.inl rfl)

theorem readMetanameAttr_bias_decimal (env : HeaderEnv) (h : Headmaker) (m : MetaName) {attr : Attr}
    (hname : attr.name = lit "bias") (hvalue : attr.value = d.text) :
    ReturnsOrExits (readMetanameAttr env (h, m) attr) (h, { m with bias := d.value }) := by
  simp only [readMetanameAttr, if_pos hname, hvalue]
  exact hd.bind (.inl rfl)

theorem readMetanameAttr_id_decimal (env : HeaderEnv) (h : Headmaker) (m : MetaName) {attr : Attr}
    (hname : attr.name = lit "id") (hvalue : attr.value = d.text)
    (hfresh : d.text ∉ h.config.flags.metaIds) :
    ∃ h', ReturnsOrExits (readMetanameAttr env (h, m) attr) (h', { m with id := d.value }) := by
  have hbias : ¬ attr.name = lit "bias" := by
    rw [hname]
    decide
  have hlookup : h.config.flags.metaIds.lookup d.text = none := AList.lookup_eq_none.mpr hfresh
  simp only [readMetanameAttr, if_neg hbias, if_pos hname]
  rw [hvalue, hlookup]
  exact ⟨_, hd.bind (.inl (by rw [hashAdd, if_neg hfresh]; rfl))⟩

theorem readPropertyAttr_id_decimal (env : HeaderEnv) (h : Headmaker) (prop : Property)
    {attr : Attr} (hname : attr.name = lit "id") (hvalue : attr.value = d.text)
    (hfresh : d.text ∉ h.config.flags.propIds) :
    ∃ h', ReturnsOrExits (readPropertyAttr env (h, prop) attr)
      (h', { prop with id := d.value }) := by
  have hlookup : h.config.flags.propIds.lookup d.text = none := AList.lookup_eq_none.mpr hfresh
  have hother : ∀ name ∈ [lit "ignore_case", lit "max", lit "verbatim", lit "sort",
      lit "presort", lit "sort_length"], ¬ attr.name = name := by
    rw [hname]
    decide
  simp only [List.forall_mem_cons] at hother
  obtain ⟨hcase, hmax, hverbatim, hsort, hpresort, hlength, -⟩ := hother
  simp only [readPropertyAttr, if_neg hcase, if_neg hmax, if_neg hverbatim, if_neg hsort,
    if_neg hpresort, if_neg hlength, if_pos hname]
  rw [hvalue, hlookup]
  exact ⟨_, hd.bind (.inl (by rw [hashAdd, if_neg hfresh]; rfl))⟩

end Stored

/-- **A numeral is read exactly, or the process exits, if and only if it is in the range of an
`int` or outside the range of a `long`.** -/
theorem exactOrExit_iff (d : Decimal) :
    ExactOrExit d ↔ IsInt d.value ∨ d.value < -2 ^ 63 ∨ 2 ^ 63 ≤ d.value := by
  rw [← returnsOrExits_stringToInt_iff]
  constructor
  · intro hexact
    exact hexact.text
  · intro hd
    exact
      { text := hd
        contentLength := fun info _ hvalue hname => headerLine_contentLength hd info hvalue hname
        lastModified := fun info _ hvalue hname => headerLine_lastModified hd info hvalue hname
        bias := fun env h m _ hname hvalue => readMetanameAttr_bias_decimal hd env h m hname hvalue
        metaId := fun env h m _ hname hvalue hfresh =>
          readMetanameAttr_id_decimal hd env h m hname hvalue hfresh
        propId := fun env h prop _ hname hvalue hfresh =>
          readPropertyAttr_id_decimal hd env h prop hname hvalue hfresh }

end Decimals

/-- The numeral of `2 ^ 32`. -/
def twoPow32 : Decimal := ⟨lit "4294967296", by decide, by decide +kernel⟩

/-- It is read as 0, and a `Content-Length` line with it stores 0. -/
theorem not_exactOrExit_twoPow32 : ¬ ExactOrExit twoPow32 ∧
    stringToInt twoPow32.text = .ok 0 ∧ twoPow32.value = 2 ^ 32 ∧
    (headerLine headInfoInit (lit "Content-Length: 4294967296")).map HeadInfo.size = .ok 0 := by
  refine ⟨?_, by decide, by decide, by decide⟩
  intro hexact
  rcases hexact.text with hok | hexit
  · exact absurd hok (by decide)
  · exact absurd hexit (by decide)

end LibSwish3
