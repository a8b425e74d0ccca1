import LibSwish3.Numerals
import LibSwish3.ParseFhRules

/-!
# Streams of messages

A stream of well-formed messages is read message by message: each is handed over with the
docinfo of its own head and with its own body, and nothing is left of the stream.  A body with
a NUL has newlines in place of its NULs and bumpers.

The same message in a buffer is handed over alike, if its body is as long as the head says.
The length is that of the last line that starts with `Content-Length`, whatever follows.

## Main definitions

* `Message.WellFormed`, `ReadsMessages` — every message is handed over once.
* `EntryPointsAgree`, `contentLength`.
* `parseFh_messages`, `entryPoints_agree_iff`.
-/

namespace LibSwish3

open Runs Tables

/-! ## Reading a head -/

section Head

variable {loc : Locale} {config : Config} {info info' : HeadInfo} {line val : XmlStr}
  {lines : List XmlStr} {head : Head}

def isContentLength (line : XmlStr) : Bool := strnCaseEq line (lit "Content-Length") 14

/-- The lines whose value is read as a number. -/
def isNumeric (line : XmlStr) : Bool :=
  isContentLength line || strnCaseEq line (lit "Last-Modified") 13 ||
    strnCaseEq line (lit "Last-Mtime") 10

/-- The lines that name the document. -/
def isLocation (line : XmlStr) : Bool :=
  strnCaseEq line (lit "Content-Location") 16 || strnCaseEq line (lit "Path-Name") 9

/-- The number in a header line, as an `int`. -/
def headerNumber (line : XmlStr) : Int := toInt (strtol ((headerValue line).getD []))

/-- The number of the last line that starts with `Content-Length`, and `size` without one. -/
def contentLengthFrom (size : Int) (lines : List XmlStr) : Int :=
  lines.foldl (fun size line => if isContentLength line then headerNumber line else size) size

/-- The length of the body that a head says. -/
def contentLength (lines : List XmlStr) : Int := contentLengthFrom 0 lines

theorem stringToInt_eq {i : Int} (h : stringToInt val = .ok i) : i = toInt (strtol val) := by
  simp only [stringToInt] at h
  split at h
  · cases h
  · exact (Except.ok.inj h).symm

theorem headerText_size : (headerText info line val).size = info.size := by
  simp only [headerText, apply_ite HeadInfo.size, ite_self]

theorem headerText_uri : (headerText info line val).uri = info.uri ∨
    isLocation line = true ∧ (headerText info line val).uri = some val := by
  rw [headerText]
  by_cases hlocation : strnCaseEq line (lit "Content-Location") 16 = true
  · rw [if_pos hlocation]
    exact .inr ⟨by rw [isLocation, hlocation, Bool.true_or], rfl⟩
  rw [if_neg hlocation]
  by_cases hpath : strnCaseEq line (lit "Path-Name") 9 = true
  · rw [if_pos hpath]
    exact .inr ⟨by rw [isLocation, hpath, Bool.or_true], rfl⟩
  rw [if_neg hpath]
  simp only [apply_ite HeadInfo.uri, ite_self, true_or]

/-- What a line can change. -/
theorem headerLine_cases (h : headerLine info line = .ok info') :
    (isContentLength line = true ∧ info' = { info with size := headerNumber line }) ∨
      (isContentLength line = false ∧ info'.size = info.size ∧
        (info'.uri = info.uri ∨ isLocation line = true ∧ info'.uri = headerValue line)) := by
  unfold headerLine at h
  cases hval : headerValue line with
  | none => rw [hval] at h; cases h
  | some val =>
      rw [hval] at h
      simp only at h
      by_cases hlength : isContentLength line = true
      · refine .inl ⟨hlength, ?_⟩
        rw [isContentLength] at hlength
        rw [if_pos hlength] at h
        obtain ⟨size, hsize, h⟩ := bind_ok_iff.mp h
        cases h
        rw [stringToInt_eq hsize, headerNumber, hval, Option.getD_some]
      · refine .inr ⟨by simpa using hlength, ?_⟩
        rw [isContentLength] at hlength
        rw [if_neg hlength] at h
        by_cases hmodified : strnCaseEq line (lit "Last-Modified") 13 = true
        · rw [if_pos hmodified] at h
          obtain ⟨mtime, -, h⟩ := bind_ok_iff.mp h
          cases h
          exact ⟨rfl, .inl rfl⟩
        rw [if_neg hmodified] at h
        by_cases hmtime : strnCaseEq line (lit "Last-Mtime") 10 = true
        · rw [if_pos hmtime] at h
          obtain ⟨mtime, -, h⟩ := bind_ok_iff.mp h
          cases h
          exact ⟨rfl, .inl rfl⟩
        rw [if_neg hmtime] at h
        cases h
        exact ⟨headerText_size, headerText_uri⟩

theorem headerLines_size (h : headerLines info lines = .ok info') :
    info'.size = contentLengthFrom info.size lines := by
  induction lines generalizing info with
  | nil => cases h; rfl
  | cons line lines ih =>
      obtain ⟨info₁, hline, h⟩ := bind_ok_iff.mp h
      rw [ih h, contentLengthFrom, contentLengthFrom, List.foldl_cons]
      rcases headerLine_cases hline with ⟨hlength, rfl⟩ | ⟨hlength, hsize, -⟩
      · rw [if_pos hlength]
      · rw [if_neg (by simp [hlength]), hsize]

theorem docinfoCheck_size (h : docinfoCheck loc config info = .ok info') :
    info'.size = info.size ∧ info.size ≠ 0 := by
  unfold docinfoCheck at h
  split at h
  · cases h
  · split_ifs at h with hmissing hzero
    · cases h
    · cases h
    · obtain ⟨ext, -, h⟩ := bind_ok_iff.mp h
      obtain ⟨parser, -, h⟩ := bind_ok_iff.mp h
      cases h
      exact ⟨rfl, hzero⟩

/-- The docinfo has the length that the head says. -/
theorem docinfoOf_size (h : docinfoOf loc config head = .ok info) :
    info.size = contentLength head.lines ∧ info.size ≠ 0 := by
  obtain ⟨read, hread, h⟩ := bind_ok_iff.mp h
  obtain ⟨hsize, hne⟩ := docinfoCheck_size h
  rw [hsize]
  exact ⟨headerLines_size hread, hne⟩

theorem toInt_contentLength : toInt (contentLength lines) = contentLength lines := by
  have hfrom : ∀ size : Int, toInt size = size →
      toInt (contentLengthFrom size lines) = contentLengthFrom size lines := by
    induction lines with
    | nil => exact fun size h => h
    | cons line lines ih =>
        intro size h
        rw [contentLengthFrom, List.foldl_cons]
        by_cases hlength : isContentLength line = true
        · rw [if_pos hlength]
          exact ih _ (toInt_toInt _)
        · rw [if_neg hlength]
          exact ih _ h
  exact hfrom 0 rfl

end Head

/-! ## Heads that are accepted -/

section Accepted

variable {loc : Locale} {config : Config} {info info' : HeadInfo} {line val : XmlStr}
  {lines : List XmlStr}

/-- The value is a decimal that fits into an `int`. -/
def IsDecimal (val : XmlStr) : Prop := (∀ c ∈ val, isdigit c) ∧ digitsValue val < 2 ^ 31

instance (val : XmlStr) : Decidable (IsDecimal val) := inferInstanceAs (Decidable (_ ∧ _))

theorem stringToInt_of_decimal (h : IsDecimal val) : stringToInt val = .ok (digitsValue val) := by
  have hlt := h.2
  simp only [stringToInt, strtol_of_digits h.1]
  rw [if_neg (by omega), toInt_of_lt hlt]

theorem exists_headerValue (h : 58 ∈ line) : ∃ val, headerValue line = some val := by
  induction line with
  | nil => cases h
  | cons c line ih =>
      by_cases hc : c = 58
      · subst hc
        exact ⟨_, rfl⟩
      · obtain ⟨val, hval⟩ := ih (by simpa [Ne.symm hc] using h)
        refine ⟨val, ?_⟩
        rw [← hval, headerValue, headerValue, List.dropWhile_cons_of_pos (by simpa using hc)]

/-- A line with a colon is accepted, if it has a number where one is read. -/
theorem exists_headerLine (info : HeadInfo) (hcolon : 58 ∈ line)
    (hnumeric : isNumeric line → IsDecimal ((headerValue line).getD [])) :
    ∃ info', headerLine info line = .ok info' := by
  obtain ⟨val, hval⟩ := exists_headerValue hcolon
  rw [hval, Option.getD_some] at hnumeric
  have hnumber : isNumeric line = true → stringToInt val = .ok (digitsValue val : Int) :=
    fun h => stringToInt_of_decimal (hnumeric h)
  rw [headerLine, hval]
  simp only
  by_cases hlength : strnCaseEq line (lit "Content-Length") 14 = true
  · rw [if_pos hlength,
      hnumber (by rw [isNumeric, isContentLength, hlength, Bool.true_or, Bool.true_or])]
    exact ⟨_, rfl⟩
  rw [if_neg hlength]
  by_cases hmodified : strnCaseEq line (lit "Last-Modified") 13 = true
  · rw [if_pos hmodified, hnumber (by rw [isNumeric, hmodified, Bool.or_true, Bool.true_or])]
    exact ⟨_, rfl⟩
  rw [if_neg hmodified]
  by_cases hmtime : strnCaseEq line (lit "Last-Mtime") 10 = true
  · rw [if_pos hmtime, hnumber (by rw [isNumeric, hmtime, Bool.or_true])]
    exact ⟨_, rfl⟩
  · rw [if_neg hmtime]
    exact ⟨_, rfl⟩

theorem strnCaseEq_take {s t : XmlStr} {n k : Nat} (h : strnCaseEq s t n = true) (hk : k ≤ n) :
    (s.take k).map tolower = (t.take k).map tolower := by
  have heq : (s.take n).map tolower = (t.take n).map tolower := by
    simpa [strnCaseEq, strCaseEq] using h
  have htake := congrArg (List.take k) heq
  rwa [← List.map_take, ← List.map_take, List.take_take, List.take_take, Nat.min_eq_left hk]
    at htake

/-- Two names of which neither starts the other are not told apart by their common start. -/
theorem strnCaseEq_false {s t u : XmlStr} {n k : Nat} (h : strnCaseEq s t n = true)
    (hk : k ≤ n) (hne : (t.take k).map tolower ≠ (u.take k).map tolower) :
    strnCaseEq s u k = false := by
  by_contra hu
  have hu : strnCaseEq s u k = true := by simpa using hu
  exact hne ((strnCaseEq_take h hk).symm.trans (strnCaseEq_take hu (Nat.le_refl k)))

/-- A `Content-Location` line sets the name of the document. -/
theorem headerLine_location (hline : strnCaseEq line (lit "Content-Location") 16 = true)
    (h : headerLine info line = .ok info') : info'.uri = headerValue line := by
  have hlength := strnCaseEq_false (k := 14) (u := lit "Content-Length") hline (by decide)
    (by decide)
  have hmodified := strnCaseEq_false (k := 13) (u := lit "Last-Modified") hline (by decide)
    (by decide)
  have hmtime := strnCaseEq_false (k := 10) (u := lit "Last-Mtime") hline (by decide) (by decide)
  unfold headerLine at h
  cases hval : headerValue line with
  | none => rw [hval] at h; cases h
  | some val =>
      rw [hval] at h
      simp only [hlength, hmodified, hmtime, Bool.false_eq_true, if_false] at h
      cases h
      rw [headerText, if_pos hline]

theorem headerLines_uri (h : headerLines info lines = .ok info') :
    info'.uri = info.uri ∨ ∃ line ∈ lines, isLocation line = true ∧
      info'.uri = headerValue line := by
  induction lines generalizing info with
  | nil => cases h; exact .inl rfl
  | cons line lines ih =>
      obtain ⟨info₁, hline, h⟩ := bind_ok_iff.mp h
      rcases ih h with huri | ⟨next, hnext, hloc, huri⟩
      · rcases headerLine_cases hline with ⟨-, rfl⟩ | ⟨-, -, huri₁ | ⟨hloc, huri₁⟩⟩
        · exact .inl huri
        · exact .inl (huri.trans huri₁)
        · exact .inr ⟨line, by simp, hloc, huri.trans huri₁⟩
      · exact .inr ⟨next, by simp [hnext], hloc, huri⟩

/-- A head with a `Content-Location` names the document. -/
theorem headerLines_location (h : headerLines info lines = .ok info')
    (hlines : ∃ line ∈ lines, strnCaseEq line (lit "Content-Location") 16 = true) :
    ∃ line ∈ lines, isLocation line = true ∧ info'.uri = headerValue line := by
  induction lines generalizing info with
  | nil => simp at hlines
  | cons line lines ih =>
      obtain ⟨info₁, hline, hrest⟩ := bind_ok_iff.mp h
      obtain ⟨named, hnamed, hloc⟩ := hlines
      rcases List.mem_cons.mp hnamed with rfl | hnamed
      · have hset := headerLine_location hloc hline
        rcases headerLines_uri hrest with huri | ⟨next, hnext, hloc', huri⟩
        · exact ⟨named, by simp, by simp [isLocation, hloc], huri.trans hset⟩
        · exact ⟨next, by simp [hnext], hloc', huri⟩
      · obtain ⟨next, hnext, hloc', huri⟩ := ih hrest ⟨named, hnamed, hloc⟩
        exact ⟨next, by simp [hnext], hloc', huri⟩

theorem exists_headerLines (info : HeadInfo) (hcolon : ∀ line ∈ lines, 58 ∈ line)
    (hnumeric : ∀ line ∈ lines, isNumeric line → IsDecimal ((headerValue line).getD [])) :
    ∃ info', headerLines info lines = .ok info' := by
  induction lines generalizing info with
  | nil => exact ⟨info, rfl⟩
  | cons line lines ih =>
      obtain ⟨info₁, hline⟩ :=
        exists_headerLine info (hcolon line (by simp)) (hnumeric line (by simp))
      obtain ⟨info', h⟩ := ih info₁ (fun l hl => hcolon l (by simp [hl]))
        fun l hl => hnumeric l (by simp [hl])
      refine ⟨info', ?_⟩
      rw [headerLines, hline, ok_bind, h]

end Accepted

/-! ## One message in a stream and in a buffer -/

/-- A head that both entry points can read, and a body without a NUL. -/
structure Message.Plain (m : Message) : Prop where
  min : 2 ≤ m.lines.length
  max : m.lines.length ≤ maxHeaders
  lines : ∀ line ∈ m.lines, HeaderLine line
  body : m.body ≠ []
  noNul : (0 : XmlChar) ∉ m.body

/-- Whatever takes the message, a stream that holds it does what the buffer does, and counts
it. -/
def EntryPointsAgree (loc : Locale) (config : Config) (m : Message) : Prop :=
  ∀ {π σ : Type} (consumer : Consumer π σ) (app : σ),
    parseFh loc config consumer m.bytes app =
      (do let (_, app) ← parseBuffer loc config consumer m.bytes app
          pure (1, app))

section Agreement

variable {loc : Locale} {config : Config} {m : Message} {π σ : Type} {consumer : Consumer π σ}
  {app : σ}

theorem length_headBytes_ge (lines : List XmlStr) : lines.length ≤ (headBytes lines).length := by
  induction lines with
  | nil => simp
  | cons line lines ih =>
      simp only [headBytes_cons, List.length_append, List.length_cons]
      omega

theorem Message.length_bytes_gt (m : Message) :
    m.lines.length + m.body.length < m.bytes.length := by
  have := length_headBytes_ge m.lines
  simp only [Message.bytes, List.length_append, List.length_cons]
  omega

theorem zero_notMem_headBytes {lines : List XmlStr} (h : ∀ line ∈ lines, HeaderLine line) :
    (0 : XmlChar) ∉ headBytes lines := by
  simp only [headBytes, List.mem_flatMap, List.mem_append, List.mem_singleton, not_exists,
    not_and, not_or]
  exact fun line hline => ⟨(h line hline).noNul, by decide⟩

theorem noNulls_of_noNul {s : XmlStr} (h : (0 : XmlChar) ∉ s) : noNulls s = s := by
  rw [noNulls, cstr_of_noNul h, if_neg (Nat.lt_irrefl _)]

/-- The buffer is cut behind its blank line. -/
theorem parseBuffer_message (h : m.Plain) :
    parseBuffer loc config consumer m.bytes app =
      (do let docinfo ← docinfoOf loc config m.head
          handOver consumer docinfo m.body (xmlStrlen m.body) app) := by
  have hne : m.lines ≠ [] := by
    intro hnil
    simpa [hnil] using h.min
  have hnul : (0 : XmlChar) ∉ m.bytes := by
    simp only [Message.bytes, List.mem_append, List.mem_cons, not_or]
    exact ⟨zero_notMem_headBytes h.lines, by decide, h.noNul⟩
  have hhead : bufToHead m.bytes = .ok m.head :=
    bufToHead_headBytes (.inr List.head?_cons) h.lines hne h.max
  have hdrop : m.bytes.drop m.head.bodyStart = m.body := by
    rw [Message.bytes, Message.head, List.drop_length_add_append, List.drop_succ_cons,
      List.drop_zero]
  have hroom : ¬ m.bytes.length < m.head.bodyStart := by
    simp [Message.bytes, Message.head]
  simp only [parseBuffer, cstr_of_noNul hnul, hhead, ok_bind, if_neg hroom, hdrop]

variable (loc config consumer app) in
/-- The stream is read as far as the head says. -/
theorem parseFh_message (h : m.Plain) : ∃ fuel,
    parseFh loc config consumer m.bytes app =
      (do let docinfo ← docinfoOf loc config m.head
          let (readBuffer, fh) ← slurpFh m.body docinfo.size
          let (_, app) ← handOver consumer docinfo readBuffer docinfo.size app
          fhLoop loc config consumer (fuel + 1) ⟨fh, [], 0, 1, app⟩) := by
  have hlen := m.length_bytes_gt
  refine ⟨m.bytes.length - m.lines.length - 1, ?_⟩
  have hfuel : m.bytes.length + 1 =
      m.bytes.length - m.lines.length - 1 + 1 + 1 + m.lines.length := by omega
  rw [parseFh, hfuel, ← List.append_nil m.bytes, fhLoop_message h.lines h.min h.max]
  simp only [List.append_nil, UInt32.zero_add]

/-- A body of the length that the head says is read whole. -/
theorem entryPointsAgree_of_length (h : m.Plain)
    (hlength : contentLength m.lines = m.body.length) : EntryPointsAgree loc config m := by
  intro π σ consumer app
  obtain ⟨fuel, hfh⟩ := parseFh_message loc config consumer app h
  rw [hfh, parseBuffer_message h]
  cases hdocinfo : docinfoOf loc config m.head with
  | error e => rfl
  | ok docinfo =>
      have hsize : docinfo.size = m.body.length := by
        rw [(docinfoOf_size hdocinfo).1]
        exact hlength
      have hstrlen : xmlStrlen m.body = m.body.length := by
        rw [xmlStrlen, ← hlength, toInt_contentLength]
      have hslurp : slurpFh m.body m.body.length = .ok (m.body, []) := by
        simpa [noNulls_of_noNul h.noNul] using slurpFh_append m.body []
      simp only [ok_bind, hsize, hslurp, hstrlen]
      cases handOver consumer docinfo m.body m.body.length app with
      | error e => rfl
      | ok result =>
          simp only [ok_bind, fhLoop_nil]
          rfl

/-- A consumer that stops at a body of its own choice in one way and at any other one in
another. -/
private def tellApart (body : XmlStr) : Consumer Unit Unit where
  initParserData _ := ()
  docparser _ handed _ _ :=
    if handed = body then .error (.fault .nullDeref) else .error (.fault .useAfterFree)
  handler _ _ := .ok ()

/-- A body of another length is cut off, or cannot be read. -/
theorem length_of_entryPointsAgree (h : m.Plain) {docinfo : HeadInfo}
    (hdocinfo : docinfoOf loc config m.head = .ok docinfo)
    (hagree : EntryPointsAgree loc config m) : contentLength m.lines = m.body.length := by
  obtain ⟨hsize, hzero⟩ := docinfoOf_size hdocinfo
  obtain ⟨fuel, hfh⟩ := parseFh_message loc config (tellApart m.body) () h
  have heq := hagree (tellApart m.body) ()
  rw [hfh, parseBuffer_message h] at heq
  simp only [hdocinfo, ok_bind, handOver, tellApart, if_true, error_bind] at heq
  by_contra hne
  change docinfo.size = contentLength m.lines at hsize
  rw [← hsize] at hne
  unfold slurpFh at heq
  split_ifs at heq with hneg hshort
  · cases heq
  · cases heq
  · have hlt : docinfo.size.toNat < m.body.length := by omega
    have hcut : noNulls (m.body.take docinfo.size.toNat) ≠ m.body := by
      rw [noNulls_of_noNul fun hmem => h.noNul (List.mem_of_mem_take hmem)]
      intro htake
      have := congrArg List.length htake
      rw [List.length_take] at this
      omega
    simp only [ok_bind, if_neg hcut, error_bind] at heq
    cases heq

/-- The two entry points agree on a message whose body has the length that they read in its
head, and on one whose head they both refuse. -/
theorem entryPoints_agree_iff (h : m.Plain) :
    EntryPointsAgree loc config m ↔
      contentLength m.lines = m.body.length ∨
        (docinfoOf loc config m.head).toOption = none := by
  constructor
  · intro hagree
    cases hdocinfo : docinfoOf loc config m.head with
    | error e => exact .inr rfl
    | ok docinfo => exact .inl (length_of_entryPointsAgree h hdocinfo hagree)
  · rintro (hlength | hrefused)
    · exact entryPointsAgree_of_length h hlength
    · intro π σ consumer app
      obtain ⟨fuel, hfh⟩ := parseFh_message loc config consumer app h
      rw [hfh, parseBuffer_message h]
      cases hdocinfo : docinfoOf loc config m.head with
      | error e => rfl
      | ok docinfo =>
          rw [hdocinfo] at hrefused
          cases hrefused

end Agreement

/-- A message of two bytes. -/
def twoBytes : Message where
  lines := [lit "Content-Location: a", lit "Content-Length: 2", lit "Content-Type: text/plain",
    lit "Parser-Type: TXT"]
  body := lit "xy"

theorem entryPoints_agree_twoBytes :
    EntryPointsAgree .posix (configSetDefault (lit "C")) twoBytes :=
  (entryPoints_agree_iff ⟨by decide, by decide, by decide +kernel, by decide, by decide⟩).mpr
    (.inl (by decide))

/-- The same message with one more line, whose name starts with `Content-Length`. -/
def rawLength : Message :=
  { twoBytes with lines := twoBytes.lines ++ [lit "Content-Length-Raw: 1"] }

/-- The stream hands over the first byte, and the buffer both. -/
theorem entryPoints_differ :
    rawLength.Plain ∧
      ¬ EntryPointsAgree .posix (configSetDefault (lit "C")) rawLength := by
  refine ⟨⟨by decide, by decide, by decide +kernel, by decide, by decide⟩, fun hagree => ?_⟩
  have heq := congrArg Except.toOption (hagree
    { initParserData := fun _ => ()
      docparser := fun _ body _ _ => .ok (0, (), body)
      handler := fun _ app => if app = lit "xy" then .ok app else .error .exitFailure } [])
  revert heq
  decide +kernel

/-! ## Streams -/

/-- A message that names its document and says the length of its body, in every line that is
taken for it. -/
structure Message.WellFormed (m : Message) : Prop where
  min : 2 ≤ m.lines.length
  max : m.lines.length ≤ maxHeaders
  lines : ∀ line ∈ m.lines, HeaderLine line
  numbers : ∀ line ∈ m.lines, isNumeric line → IsDecimal ((headerValue line).getD [])
  length : ∃ line ∈ m.lines, isContentLength line
  length_eq : ∀ line ∈ m.lines, isContentLength line →
    digitsValue ((headerValue line).getD []) = m.body.length
  location : ∃ line ∈ m.lines, strnCaseEq line (lit "Content-Location") 16
  body : m.body ≠ []

/-- The extension of the document's name can be lowered: it is ASCII or valid in the locale. -/
def Message.ExtLowers (loc : Locale) (m : Message) : Prop :=
  ∀ line ∈ m.lines, isLocation line →
    (fsGetFileExt loc ((headerValue line).getD [])).toOption.isSome

instance (loc : Locale) (m : Message) : Decidable (m.ExtLowers loc) :=
  inferInstanceAs (Decidable (∀ line ∈ m.lines, isLocation line →
    (fsGetFileExt loc ((headerValue line).getD [])).toOption.isSome))

section Streams

variable {loc : Locale} {config : Config} {m : Message} {ms : List Message} {π σ : Type}

/-- One message, whose body is handed over as `hand` makes it. -/
def deliver (loc : Locale) (config : Config) (hand : XmlStr → XmlStr) (consumer : Consumer π σ)
    (app : σ) (m : Message) : Swish σ := do
  let docinfo ← docinfoOf loc config m.head
  let (_, app) ← handOver consumer docinfo (hand m.body) m.body.length app
  pure app

/-- The stream of the messages is read to its end: they are delivered in their order, each
once, and counted in 32 bits. -/
def ReadsMessages (loc : Locale) (config : Config) (hand : XmlStr → XmlStr)
    (ms : List Message) : Prop :=
  ∀ {π σ : Type} (consumer : Consumer π σ) (app : σ),
    parseFh loc config consumer (ms.flatMap Message.bytes) app =
      (do let app ← run (deliver loc config hand consumer) app ms
          pure (UInt32.ofNat ms.length, app))

theorem Message.WellFormed.contentLength (h : m.WellFormed) :
    contentLength m.lines = m.body.length := by
  have hnumber : ∀ line ∈ m.lines, isContentLength line = true →
      headerNumber line = m.body.length := by
    intro line hline hlength
    have hdecimal := h.numbers line hline (by simp [isNumeric, hlength])
    rw [headerNumber, strtol_of_digits hdecimal.1, toInt_of_lt hdecimal.2,
      h.length_eq line hline hlength]
  have hfold : ∀ lines ⊆ m.lines, ∀ size : Int,
      ((∃ line ∈ lines, isContentLength line) ∨ size = m.body.length) →
      contentLengthFrom size lines = m.body.length := by
    intro lines
    induction lines with
    | nil =>
        rintro - size (⟨line, hline, -⟩ | hsize)
        · simp at hline
        · exact hsize
    | cons line lines ih =>
        intro hsub size hor
        have hline := hsub (List.mem_cons_self)
        have hrest := ih fun l hl => hsub (List.mem_cons_of_mem _ hl)
        rw [contentLengthFrom, List.foldl_cons]
        by_cases hlength : isContentLength line = true
        · rw [if_pos hlength]
          exact hrest _ (.inr (hnumber line hline hlength))
        · rw [if_neg hlength]
          refine hrest _ ?_
          rcases hor with ⟨l, hl, hcl⟩ | hsize
          · rcases List.mem_cons.mp hl with rfl | hl
            · exact absurd hcl hlength
            · exact .inl ⟨l, hl, hcl⟩
          · exact .inr hsize
  exact hfold m.lines (List.Subset.refl _) 0 (.inl h.length)

/-- The head of a well-formed message is accepted. -/
theorem Message.WellFormed.docinfo (h : m.WellFormed) (hext : m.ExtLowers loc)
    (hdefault : (config.parsers.lookup Swish.defaultParser).isSome) :
    ∃ docinfo, docinfoOf loc config m.head = .ok docinfo ∧ docinfo.size = m.body.length := by
  have hbody : m.body.length ≠ 0 := by simpa using h.body
  obtain ⟨info, hinfo⟩ :=
    exists_headerLines headInfoInit (fun line hline => (h.lines line hline).colon) h.numbers
  have hsize : info.size = m.body.length := (headerLines_size hinfo).trans h.contentLength
  obtain ⟨line, hline, hlocation, huri⟩ := headerLines_location hinfo h.location
  obtain ⟨uri, hval⟩ := exists_headerValue (h.lines line hline).colon
  obtain ⟨ext, hok⟩ : ∃ ext, fsGetFileExt loc uri = .ok ext := by
    have hsome := hext line hline hlocation
    rw [hval, Option.getD_some] at hsome
    cases hlower : fsGetFileExt loc uri with
    | error e => rw [hlower] at hsome; cases hsome
    | ok ext => exact ⟨ext, rfl⟩
  obtain ⟨parser, hparser⟩ : ∃ parser, parserOf config (info.mime.getD (mimeGetType config
      (some (ext.getD (lit "none"))))) info.parser = .ok parser := by
    obtain ⟨fallback, hfallback⟩ := Option.isSome_iff_exists.mp hdefault
    cases info.parser with
    | some parser => exact ⟨parser, rfl⟩
    | none =>
        simp only [parserOf, mimeGetParser, hfallback]
        split
        · exact ⟨_, rfl⟩
        · exact ⟨_, rfl⟩
  have hread : headToDocinfo m.head = .ok info := hinfo
  rw [docinfoOf, hread, ok_bind, docinfoCheck, huri, hval]
  simp only
  rw [if_neg (by omega), if_neg (by omega), hok, ok_bind, hparser, ok_bind]
  exact ⟨_, rfl, hsize⟩

/-- The loop reads message after message. -/
theorem fhLoop_messages (hdefault : (config.parsers.lookup Swish.defaultParser).isSome)
    (hms : ∀ m ∈ ms, m.WellFormed ∧ m.ExtLowers loc) (consumer : Consumer π σ)
    {fuel : Nat} {fileCnt : UInt32} {app : σ} (hfuel : (ms.flatMap Message.bytes).length < fuel) :
    fhLoop loc config consumer fuel ⟨ms.flatMap Message.bytes, [], 0, fileCnt, app⟩ =
      (do let app ← run (deliver loc config noNulls consumer) app ms
          pure (fileCnt + UInt32.ofNat ms.length, app)) := by
  induction ms generalizing fuel fileCnt app with
  | nil =>
      obtain ⟨fuel, rfl⟩ := Nat.exists_eq_succ_of_ne_zero (Nat.ne_of_gt hfuel)
      rw [List.flatMap_nil, fhLoop_nil]
      exact congrArg (fun n => Except.ok (n, app)) (UInt32.add_zero fileCnt).symm
  | cons m ms ih =>
      obtain ⟨hm, hext⟩ := hms m (by simp)
      obtain ⟨docinfo, hdocinfo, hsize⟩ := hm.docinfo hext hdefault
      have hlen := m.length_bytes_gt
      rw [List.flatMap_cons, List.length_append] at hfuel
      obtain ⟨fuel, rfl⟩ : ∃ fuel', fuel = fuel' + 1 + m.lines.length :=
        ⟨fuel - m.lines.length - 1, by omega⟩
      rw [List.flatMap_cons, fhLoop_message hm.lines hm.min hm.max, hdocinfo, run, deliver,
        hdocinfo]
      simp only [ok_bind, hsize, slurpFh_append]
      cases handOver consumer docinfo (noNulls m.body) m.body.length app with
      | error e => rfl
      | ok result =>
          simp only [ok_bind, pure_eq_ok]
          rw [ih (fun m hm => hms m (by simp [hm])) (by omega), List.length_cons,
            fileCnt_add_one]
          rfl

/-- A stream of well-formed messages is read message by message, each with the docinfo of its
own head and with its own body, in which newlines stand for NULs, and with them for bumpers. -/
theorem parseFh_messages (hdefault : (config.parsers.lookup Swish.defaultParser).isSome)
    (hms : ∀ m ∈ ms, m.WellFormed ∧ m.ExtLowers loc) :
    (∀ m ∈ ms, ∃ docinfo, docinfoOf loc config m.head = .ok docinfo ∧
      docinfo.size = m.body.length) ∧
    (∀ m ∈ ms, (0 : XmlChar) ∉ m.body → noNulls m.body = m.body) ∧
    ReadsMessages loc config noNulls ms := by
  refine ⟨fun m hm => (hms m hm).1.docinfo (hms m hm).2 hdefault, fun m _ => noNulls_of_noNul, ?_⟩
  intro π σ consumer app
  rw [parseFh, fhLoop_messages hdefault hms consumer (Nat.lt_succ_self _), UInt32.zero_add]

end Streams

/-- A message whose body reads like a head, a blank line and a body. -/
def headInBody : Message where
  lines := [lit "content-location: b.txt", lit "Content-Length: 20"]
  body := lit "Content-Length: 9" ++ newline :: newline :: lit "z"

theorem parseFh_two_messages :
    ReadsMessages .posix (configSetDefault (lit "C")) noNulls [headInBody, twoBytes] := by
  refine (parseFh_messages (by decide +kernel) ?_).2.2
  intro m hm
  simp only [List.mem_cons, List.not_mem_nil, or_false] at hm
  rcases hm with rfl | rfl
  · exact ⟨⟨by decide, by decide, by decide +kernel, by decide +kernel, by decide, by decide,
      by decide, by decide⟩, by decide⟩
  · exact ⟨⟨by decide, by decide, by decide +kernel, by decide +kernel, by decide, by decide,
      by decide, by decide⟩, by decide⟩

/-- A body with a NUL and a bumper. -/
def nulInBody : Message :=
  { twoBytes with body := [0, tokenposBumper] }

/-- A name whose extension is no UTF-8. -/
def badExtension : Message :=
  { twoBytes with lines := (lit "Content-Location: a." ++ [0xFF]) :: twoBytes.lines.tail }

/-- A consumer that keeps the last body. -/
def keepsBody : Consumer Unit XmlStr where
  initParserData _ := ()
  docparser _ body _ _ := .ok (0, (), body)
  handler _ body := .ok body

/-- A body with a NUL is not handed over as it is, and an extension that cannot be lowered
stops the call. -/
theorem parseFh_replaces_nul :
    (nulInBody.WellFormed ∧
      ¬ ReadsMessages .posix (configSetDefault (lit "C")) id [nulInBody]) ∧
    badExtension.WellFormed ∧
      (parseFh .posix (configSetDefault (lit "C")) keepsBody badExtension.bytes []).toOption =
        none := by
  refine ⟨⟨⟨by decide, by decide, by decide +kernel, by decide +kernel, by decide, by decide,
    by decide, by decide⟩, fun hreads => ?_⟩, ⟨by decide, by decide, by decide +kernel,
    by decide +kernel, by decide, by decide, by decide, by decide⟩, by decide +kernel⟩
  have heq := congrArg Except.toOption (hreads keepsBody [])
  revert heq
  decide +kernel

end LibSwish3
