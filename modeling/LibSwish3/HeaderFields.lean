import LibSwish3.Messages

/-!
# The fields of a head

`head_to_docinfo` compares every line with the names of the headers, one after the other and
each over a length of its own.  A comparison that is not longer than the name on the line tells
the names apart; a longer one meets the colon and fails.  So a list of header lines gives every
member of the docinfo the value of the last line for it, in whatever order the lines for
different members stand.  Only the header `Action` is lost: its name has six letters and eleven
are compared.

## Main definitions

* `HeaderName`, `HeaderField`, `HeaderEntry` — a line with one of the names.
* `HeadInfo.describedBy` — the docinfo that the lines describe.
* `headToDocinfo_entries`, `fieldsReach_iff`.
-/

namespace LibSwish3

open Runs

/-! ## Header lines -/

/-- The members of a docinfo that a header names. -/
inductive HeaderField
  | size | mtime | uri | parser | mime | encoding | action
  deriving DecidableEq, Repr

inductive HeaderName
  | contentLength | lastModified | lastMtime | contentLocation | pathName | documentType
  | parserType | contentType | encoding | charset | action
  deriving DecidableEq, Repr

def HeaderName.text : HeaderName → XmlStr
  | contentLength => lit "Content-Length"
  | lastModified => lit "Last-Modified"
  | lastMtime => lit "Last-Mtime"
  | contentLocation => lit "Content-Location"
  | pathName => lit "Path-Name"
  | documentType => lit "Document-Type"
  | parserType => lit "Parser-Type"
  | contentType => lit "Content-Type"
  | encoding => lit "Encoding"
  | charset => lit "Charset"
  | action => lit "Action"

def HeaderName.field : HeaderName → HeaderField
  | contentLength => .size
  | lastModified | lastMtime => .mtime
  | contentLocation | pathName => .uri
  | documentType | parserType => .parser
  | contentType => .mime
  | encoding | charset => .encoding
  | action => .action

def HeaderField.isNumber : HeaderField → Bool
  | size | mtime => true
  | _ => false

/-- The number that a decimal with an optional sign stands for. -/
def numeral (s : XmlStr) : Int :=
  if s.head? = some 45 then -digitsValue s.tail
  else if s.head? = some 43 then digitsValue s.tail
  else digitsValue s

/-- The digits of a decimal, without its sign. -/
def unsigned (s : XmlStr) : XmlStr :=
  if s.head? = some 45 ∨ s.head? = some 43 then s.tail else s

/-- A decimal in the range of an `int`. -/
def IsNumeral (s : XmlStr) : Prop :=
  unsigned s ≠ [] ∧ (∀ c ∈ unsigned s, isdigit c) ∧ -2 ^ 31 ≤ numeral s ∧ numeral s < 2 ^ 31

instance (s : XmlStr) : Decidable (IsNumeral s) := inferInstanceAs (Decidable (_ ∧ _))

/-- A header line: a name in any letter case, and a value. -/
structure HeaderEntry where
  name : HeaderName
  spelling : XmlStr
  value : XmlStr
  spelling_eq : strCaseEq spelling name.text = true
  isNumeral : name.field.isNumber = true → IsNumeral (strSkipWs value)

def HeaderEntry.line (e : HeaderEntry) : XmlStr := e.spelling ++ 58 :: e.value

/-- The value without the blanks in front of it. -/
def HeaderEntry.text (e : HeaderEntry) : XmlStr := strSkipWs e.value

/-- The value of the last line for a member. -/
def lastValue (entries : List HeaderEntry) (field : HeaderField) : Option XmlStr :=
  (entries.filter (·.name.field = field)).getLast?.map HeaderEntry.text

/-- What the lines make of a docinfo; a member without a line keeps its value. -/
def HeadInfo.describedBy (info : HeadInfo) (entries : List HeaderEntry) : HeadInfo where
  uri := (lastValue entries .uri).or info.uri
  size := ((lastValue entries .size).map numeral).getD info.size
  mtime := ((lastValue entries .mtime).map numeral).getD info.mtime
  mime := (lastValue entries .mime).or info.mime
  parser := (lastValue entries .parser).or info.parser
  encoding := (lastValue entries .encoding).getD info.encoding
  action := (lastValue entries .action).or info.action
  ext := info.ext

/-- The lines for each member stand in the same order. -/
def SameFieldOrder (entries entries' : List HeaderEntry) : Prop :=
  ∀ field : HeaderField,
    entries'.filter (·.name.field = field) = entries.filter (·.name.field = field)

/-- The lines reach the docinfo, and lines for different members can change places. -/
def FieldsReach (entries : List HeaderEntry) : Prop :=
  ∀ bodyStart,
    headToDocinfo ⟨entries.map (·.line), bodyStart⟩ = .ok (headInfoInit.describedBy entries) ∧
    ∀ entries', SameFieldOrder entries entries' →
      headToDocinfo ⟨entries'.map (·.line), bodyStart⟩ =
        headToDocinfo ⟨entries.map (·.line), bodyStart⟩

/-! ## Numbers -/

theorem strtol_eq_numeral {s : XmlStr} (hdigits : ∀ c ∈ unsigned s, isdigit c) :
    strtol s = numeral s := by
  cases s with
  | nil => rfl
  | cons c rest =>
      by_cases hminus : c = 45
      · subst hminus
        have hrest : rest.takeWhile isdigit = rest :=
          List.takeWhile_eq_self_iff.mpr (by simpa [unsigned] using hdigits)
        simp [strtol, strSkipWs, isspace, numeral, hrest]
      · by_cases hplus : c = 43
        · subst hplus
          have hrest : rest.takeWhile isdigit = rest :=
            List.takeWhile_eq_self_iff.mpr (by simpa [unsigned] using hdigits)
          simp [strtol, strSkipWs, isspace, numeral, hrest]
        · have hall : unsigned (c :: rest) = c :: rest := by simp [unsigned, hminus, hplus]
          rw [hall] at hdigits
          simp [strtol_of_digits hdigits, numeral, hminus, hplus]

theorem stringToInt_of_numeral {s : XmlStr} (h : IsNumeral s) :
    stringToInt s = .ok (numeral s) := by
  obtain ⟨-, hdigits, hmin, hmax⟩ := h
  simp only [stringToInt, strtol_eq_numeral hdigits]
  rw [if_neg (by omega), toInt, Int.bmod_eq_of_le (by omega) (by omega)]

/-! ## Names -/

section Names

variable (e : HeaderEntry)

theorem HeaderEntry.map_spelling : e.spelling.map tolower = e.name.text.map tolower := by
  simpa [strCaseEq] using e.spelling_eq

theorem HeaderEntry.length_spelling : e.spelling.length = e.name.text.length := by
  simpa using congrArg List.length e.map_spelling

/-- No name has a colon. -/
theorem HeaderEntry.colon_notMem : 58 ∉ e.spelling := by
  intro h
  have hlower : 58 ∈ e.name.text.map tolower := by
    rw [← e.map_spelling]
    exact List.mem_map.mpr ⟨58, h, by decide⟩
  cases hname : e.name <;> rw [hname] at hlower <;> revert hlower <;> decide

@[simp] theorem HeaderEntry.headerValue_line : headerValue e.line = some e.text := by
  have hall : ∀ c ∈ e.spelling, decide (c ≠ 58) = true := by
    intro c hc
    simpa using fun h : c = 58 => e.colon_notMem (h ▸ hc)
  rw [headerValue, HeaderEntry.line, List.dropWhile_append_of_pos hall]
  simp [HeaderEntry.text]

/-- A comparison of a line with a name: one that reaches the colon fails. -/
theorem HeaderEntry.strnCaseEq_line {u : XmlStr} (hcolon : 58 ∉ u.map tolower) (k : Nat) :
    strnCaseEq e.line u k = (decide (k ≤ e.name.text.length) && strnCaseEq e.name.text u k) := by
  by_cases hk : k ≤ e.name.text.length
  · have htake : (e.line.take k).map tolower = (e.name.text.take k).map tolower := by
      rw [HeaderEntry.line, List.take_append_of_le_length (by rw [e.length_spelling]; exact hk),
        List.map_take, List.map_take, e.map_spelling]
    simp [strnCaseEq, strCaseEq, htake, hk]
  · have hne : (e.line.take k).map tolower ≠ (u.take k).map tolower := by
      intro h
      have hmem : 58 ∈ (e.line.take k).map tolower := by
        refine List.mem_map.mpr ⟨58, ?_, by decide⟩
        rw [HeaderEntry.line, List.take_append, e.length_spelling]
        refine List.mem_append.mpr (.inr ?_)
        rw [show k - e.name.text.length = k - e.name.text.length - 1 + 1 by omega,
          List.take_succ_cons]
        simp
      rw [h, List.map_take] at hmem
      exact hcolon (List.mem_of_mem_take hmem)
    simpa [strnCaseEq, strCaseEq, hk] using hne

end Names

/-! ## The comparisons as a table -/

/-- A member gets a value. -/
def HeadInfo.setField (info : HeadInfo) (val : XmlStr) : HeaderField → Swish HeadInfo
  | .size => do pure { info with size := ← stringToInt val }
  | .mtime => do pure { info with mtime := ← stringToInt val }
  | .uri => pure { info with uri := some val }
  | .parser => pure { info with parser := some val }
  | .mime => pure { info with mime := some val }
  | .encoding => pure { info with encoding := val }
  | .action => pure { info with action := some val }

/-- What a line is compared with, over how many bytes, and the member it is for. -/
def headerTable : List (HeaderName × Nat × HeaderField) :=
  [(.contentLength, 14, .size), (.lastModified, 13, .mtime), (.lastMtime, 10, .mtime),
    (.contentLocation, 16, .uri), (.pathName, 9, .uri), (.documentType, 13, .parser),
    (.parserType, 11, .parser), (.contentType, 12, .mime), (.encoding, 8, .encoding),
    (.charset, 7, .encoding), (.action, 11, .action)]

/-- The first row that matches decides. -/
def headerRows (info : HeadInfo) (line val : XmlStr) :
    List (HeaderName × Nat × HeaderField) → Swish HeadInfo
  | [] => .ok info
  | (name, k, field) :: rows =>
    if strnCaseEq line name.text k then info.setField val field
    else headerRows info line val rows

theorem headerLine_eq_rows {info : HeadInfo} {line val : XmlStr}
    (hval : headerValue line = some val) :
    headerLine info line = headerRows info line val headerTable := by
  rw [headerLine, hval]
  simp only [headerText, ite_or, apply_ite pure]
  rfl

/-- A line reaches the member of its name, but no row matches `Action`. -/
theorem headerLine_entry (info : HeadInfo) (e : HeaderEntry) :
    headerLine info e.line =
      if e.name = .action then .ok info else info.setField e.text e.name.field := by
  have hcompare : ∀ (name : HeaderName) (k : Nat), strnCaseEq e.line name.text k =
      (decide (k ≤ e.name.text.length) && strnCaseEq e.name.text name.text k) :=
    fun name k => e.strnCaseEq_line (by cases name <;> decide) k
  rw [headerLine_eq_rows e.headerValue_line]
  simp only [headerTable, headerRows, hcompare]
  cases e.name <;> rfl

/-! ## All lines -/

theorem field_eq_action_iff (name : HeaderName) : name.field = .action ↔ name = .action := by
  cases name <;> decide

section Lines

variable {info : HeadInfo} {entries entries' : List HeaderEntry} {bodyStart : Nat}

theorem lastValue_cons (e : HeaderEntry) (entries : List HeaderEntry) (field : HeaderField) :
    lastValue (e :: entries) field =
      (lastValue entries field).or (if e.name.field = field then some e.text else none) := by
  rw [lastValue, lastValue]
  by_cases hfield : e.name.field = field
  · rw [List.filter_cons_of_pos (by simpa using hfield), if_pos hfield, List.getLast?_cons]
    cases (entries.filter (·.name.field = field)).getLast? <;> rfl
  · rw [List.filter_cons_of_neg (by simpa using hfield), if_neg hfield, Option.or_none]

/-- A line sets its member for the lines behind it. -/
private theorem setField_entry (info : HeadInfo) {e : HeaderEntry} (haction : e.name ≠ .action)
    (entries : List HeaderEntry) :
    ∃ info', info.setField e.text e.name.field = .ok info' ∧
      info'.describedBy entries = info.describedBy (e :: entries) ∧
      info'.action = info.action := by
  have hnumber : e.name.field.isNumber = true → stringToInt e.text = .ok (numeral e.text) :=
    fun h => stringToInt_of_numeral (e.isNumeral h)
  cases hfield : e.name.field with
  | size =>
      rw [HeadInfo.setField, hnumber (by rw [hfield]; rfl)]
      refine ⟨_, rfl, ?_, rfl⟩
      cases hlast : lastValue entries .size <;>
        simp [HeadInfo.describedBy, lastValue_cons, hfield, hlast]
  | mtime =>
      rw [HeadInfo.setField, hnumber (by rw [hfield]; rfl)]
      refine ⟨_, rfl, ?_, rfl⟩
      cases hlast : lastValue entries .mtime <;>
        simp [HeadInfo.describedBy, lastValue_cons, hfield, hlast]
  | action => exact absurd ((field_eq_action_iff _).mp hfield) haction
  | encoding =>
      refine ⟨_, rfl, ?_, rfl⟩
      cases hlast : lastValue entries .encoding <;>
        simp [HeadInfo.describedBy, lastValue_cons, hfield, hlast]
  | uri | parser | mime =>
      exact ⟨_, rfl, by simp [HeadInfo.describedBy, lastValue_cons, hfield], rfl⟩

/-- The last of the lines for a member decides, and `action` keeps its value. -/
theorem headerLines_entries (info : HeadInfo) (entries : List HeaderEntry) :
    headerLines info (entries.map (·.line)) =
      .ok { info.describedBy entries with action := info.action } := by
  induction entries generalizing info with
  | nil => rfl
  | cons e entries ih =>
      rw [List.map_cons, headerLines, headerLine_entry]
      by_cases haction : e.name = .action
      · rw [if_pos haction, ok_bind, ih]
        simp [HeadInfo.describedBy, lastValue_cons, haction, HeaderName.field]
      · obtain ⟨info', hset, hdescribed, hkeep⟩ := setField_entry info haction entries
        rw [if_neg haction, hset, ok_bind, ih, hdescribed, hkeep]

/-- A list of header lines is read, and describes all members but `action`. -/
theorem headToDocinfo_entries (entries : List HeaderEntry) (bodyStart : Nat) :
    headToDocinfo ⟨entries.map (·.line), bodyStart⟩ =
      .ok { headInfoInit.describedBy entries with action := none } :=
  headerLines_entries headInfoInit entries

theorem describedBy_congr (h : SameFieldOrder entries entries') :
    info.describedBy entries' = info.describedBy entries := by
  simp only [HeadInfo.describedBy, lastValue, h _]

theorem lastValue_eq_none_iff (field : HeaderField) :
    lastValue entries field = none ↔ ∀ e ∈ entries, e.name.field ≠ field := by
  simp [lastValue]

/-- The lines reach the docinfo exactly if none is for `action`. -/
theorem fieldsReach_iff (entries : List HeaderEntry) :
    FieldsReach entries ↔ ∀ e ∈ entries, e.name ≠ .action := by
  have hnone : lastValue entries .action = none ↔ ∀ e ∈ entries, e.name ≠ .action := by
    simp only [lastValue_eq_none_iff, ne_eq, field_eq_action_iff]
  rw [← hnone]
  refine ⟨fun h => ?_, fun h bodyStart => ⟨?_, fun entries' hsame => ?_⟩⟩
  · have hread := (h 0).1
    rw [headToDocinfo_entries] at hread
    have haction := congrArg HeadInfo.action (Except.ok.inj hread)
    simpa [HeadInfo.describedBy, headInfoInit] using haction.symm
  · rw [headToDocinfo_entries, HeadInfo.describedBy, h]
    rfl
  · rw [headToDocinfo_entries, headToDocinfo_entries, describedBy_congr hsame]

end Lines

/-- The line for `action` that the Perl bindings write does not reach the docinfo. -/
theorem not_fieldsReach_action :
    ¬ FieldsReach [⟨.action, lit "Action", lit " Index", by decide, by decide⟩] := by
  intro h
  exact absurd (h 0).1 (by decide +kernel)

end LibSwish3
