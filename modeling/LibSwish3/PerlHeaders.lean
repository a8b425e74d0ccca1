import LibSwish3.HeaderFields
import Mathlib.Data.List.Sort
import Mathlib.Order.Defs.LinearOrder

/-!
# Messages that the Perl bindings write

`SWISH::3::Headers` writes the head of a document from a hash of options: the length of the
document, and a line for each option that has a name of a header, in the order of the keys.  It
makes up a URL and a time where none is given.  `swish_parse_fh` reads a stream of such documents.

There are six options, and `swish_parse_fh` looks at six lines: with the length that makes seven.
The URL comes last, so a document with all six has none when it is read, and the stream ends there.
Documents with five options or fewer are read as they were written.

## Main definitions

* `HeadersObject.head` — the method `head`.
* `FilledDoc` — a document whose options have been filled in.
* `ReadsBack` — a stream of documents is read as it was written.
* `readsBack_iff`.
-/

namespace LibSwish3

open Runs Tables

/-! ## `SWISH::3::Headers` -/

/-- Scalars by key; none is `undef`. -/
abbrev PerlHash := HashTable (Option XmlStr)

/-- The names of headers for the options, in version 3 of the API. -/
def perlLabels : List (XmlStr × HeaderName) :=
  [(lit "url", .contentLocation), (lit "modtime", .lastModified), (lit "parser", .parserType),
    (lit "type", .contentType), (lit "action", .action), (lit "mime", .contentType)]

/-- `$Headers{$version}->{$k}`. -/
def perlLabel (version key : XmlStr) : Option HeaderName :=
  if version = lit "3" then perlLabels.lookup key else none

/-- Perl takes the scalar for true. -/
def perlTrue : Option XmlStr → Bool
  | none => false
  | some v => !(v == [] || v == lit "0")

/-- The order in which `sort` puts keys. -/
def keyLe (a b : XmlStr) : Prop := a.map UInt8.toNat ≤ b.map UInt8.toNat

instance : DecidableRel keyLe := fun _ _ => inferInstanceAs (Decidable (_ ≤ _))

/-- A line of the head. -/
def labelLine (name : HeaderName) (v : XmlStr) : XmlStr := name.text ++ lit ": " ++ v

/-- The lines of a head. -/
def headLines (version : XmlStr) (size : Nat) (opts : PerlHash) : List XmlStr :=
  labelLine .contentLength (natToString size) ::
    (opts.keys.insertionSort keyLe).filterMap fun k => do
      let v ← (opts.lookup k).join
      let label ← perlLabel version k
      pure (labelLine label v)

/-- The version of the object, and `$AutoURL`. -/
structure HeadersObject where
  version : XmlStr
  autoUrl : Nat

/-- A document as it is given to `head`, at a time. -/
structure PerlDoc where
  buf : XmlStr
  opts : PerlHash
  time : Nat

/-- A document whose options have been filled in. -/
structure FilledDoc where
  version : XmlStr
  buf : XmlStr
  opts : PerlHash

/-- `head` up to the lines. -/
def HeadersObject.fillIn (self : HeadersObject) (doc : PerlDoc) : FilledDoc × HeadersObject :=
  let given := (doc.opts.lookup (lit "version")).join
  let version := if perlTrue given then given.getD [] else self.version
  let opts := doc.opts.erase (lit "version")
  let (opts, self) :=
    if lit "url" ∈ opts then (opts, self)
    else (opts.insert (lit "url") (some (natToString self.autoUrl)),
      { self with autoUrl := self.autoUrl + 1 })
  let opts :=
    if perlTrue (opts.lookup (lit "modtime")).join then opts
    else opts.insert (lit "modtime") (some (natToString doc.time))
  (⟨version, doc.buf, opts⟩, self)

/-- The text of a head. -/
def FilledDoc.head (doc : FilledDoc) : XmlStr :=
  [newline].intercalate (headLines doc.version doc.buf.length doc.opts) ++ [newline, newline]

/-- `head`. -/
def HeadersObject.head (self : HeadersObject) (doc : PerlDoc) : XmlStr × HeadersObject :=
  ((self.fillIn doc).1.head, (self.fillIn doc).2)

/-- A program that prints the head of each document, and the document. -/
def HeadersObject.stream : HeadersObject → List PerlDoc → XmlStr
  | _, [] => []
  | self, doc :: docs =>
    let (head, self) := self.head doc
    head ++ doc.buf ++ self.stream docs

/-- The documents with their options filled in. -/
def HeadersObject.filled : HeadersObject → List PerlDoc → List FilledDoc
  | _, [] => []
  | self, doc :: docs => (self.fillIn doc).1 :: (self.fillIn doc).2.filled docs

/-! ## What a document says -/

/-- The keys that name a header, in their order. -/
def perlKeys : List XmlStr :=
  [lit "action", lit "mime", lit "modtime", lit "parser", lit "type", lit "url"]

namespace FilledDoc

/-- An option, if it is there and defined. -/
def option (doc : FilledDoc) (key : XmlStr) : Option XmlStr := (doc.opts.lookup key).join

/-- The line for an option. -/
def line (doc : FilledDoc) (key : XmlStr) : Option XmlStr := do
  let v ← doc.option key
  let label ← perlLabels.lookup key
  pure (labelLine label v)

/-- What the document says of itself.  Nothing is made of the action. -/
def info (doc : FilledDoc) : HeadInfo where
  uri := doc.option (lit "url")
  size := doc.buf.length
  mtime := ((doc.option (lit "modtime")).map numeral).getD 0
  mime := (doc.option (lit "type")).or (doc.option (lit "mime"))
  parser := doc.option (lit "parser")
  encoding := lit "UTF-8"
  action := none
  ext := none

/-- The value can stand on a line. -/
structure PlainValue (v : XmlStr) : Prop where
  ne_nil : v ≠ []
  length_le : v.length ≤ 2028
  noNul : 0 ∉ v
  noNewline : newline ∉ v
  first : ∀ c ∈ v.head?, isspace c = false
  last : ∀ c ∈ v.getLast?, isspace c = false

/-- A document with a name and a decimal time whose options can stand on lines. -/
structure Plain (loc : Locale) (doc : FilledDoc) : Prop where
  version : doc.version = lit "3"
  buf_ne : doc.buf ≠ []
  buf_lt : doc.buf.length < 2 ^ 31
  values : ∀ key ∈ perlKeys, ∀ v ∈ doc.option key, PlainValue v
  url : ∃ url ∈ doc.option (lit "url"), (fsGetFileExt loc url).toOption.isSome
  modtime : ∃ time ∈ doc.option (lit "modtime"), IsDecimal time

instance (v : XmlStr) : Decidable (PlainValue v) :=
  letI : ∀ o : Option XmlChar, Decidable (∀ c ∈ o, isspace c = false) :=
    fun o => Option.decidableForallMem o
  decidable_of_iff (v ≠ [] ∧ v.length ≤ 2028 ∧ 0 ∉ v ∧ newline ∉ v ∧
      (∀ c ∈ v.head?, isspace c = false) ∧ ∀ c ∈ v.getLast?, isspace c = false)
    ⟨fun ⟨h₁, h₂, h₃, h₄, h₅, h₆⟩ => ⟨h₁, h₂, h₃, h₄, h₅, h₆⟩,
      fun h => ⟨h.1, h.2, h.3, h.4, h.5, h.6⟩⟩

instance (loc : Locale) (doc : FilledDoc) : Decidable (Plain loc doc) :=
  letI : ∀ key, Decidable (∀ v ∈ doc.option key, PlainValue v) :=
    fun key => Option.decidableForallMem (doc.option key)
  letI : Decidable (∃ url ∈ doc.option (lit "url"), (fsGetFileExt loc url).toOption.isSome) :=
    Option.decidableExistsMem (doc.option (lit "url"))
  letI : Decidable (∃ time ∈ doc.option (lit "modtime"), IsDecimal time) :=
    Option.decidableExistsMem (doc.option (lit "modtime"))
  decidable_of_iff (doc.version = lit "3" ∧ doc.buf ≠ [] ∧ doc.buf.length < 2 ^ 31 ∧
      (∀ key ∈ perlKeys, ∀ v ∈ doc.option key, PlainValue v) ∧
      (∃ url ∈ doc.option (lit "url"), (fsGetFileExt loc url).toOption.isSome) ∧
      ∃ time ∈ doc.option (lit "modtime"), IsDecimal time)
    ⟨fun ⟨h₁, h₂, h₃, h₄, h₅, h₆⟩ => ⟨h₁, h₂, h₃, h₄, h₅, h₆⟩,
      fun h => ⟨h.1, h.2, h.3, h.4, h.5, h.6⟩⟩

end FilledDoc

/-- What reading a document does: its docinfo is filled in, and its text is handed over, in which
newlines stand for NULs, and with them for bumpers. -/
def readDoc {π σ : Type} (loc : Locale) (config : Config) (consumer : Consumer π σ) (app : σ)
    (doc : FilledDoc) : Swish σ := do
  let docinfo ← docinfoCheck loc config doc.info
  let (_, app) ← handOver consumer docinfo (noNulls doc.buf) doc.buf.length app
  pure app

/-- The documents that are written in a stream are read from it, each once and in their order, and
counted in 32 bits. -/
def ReadsBack (loc : Locale) (config : Config) (self : HeadersObject) (docs : List PerlDoc) :
    Prop :=
  ∀ {π σ : Type} (consumer : Consumer π σ) (app : σ),
    parseFh loc config consumer (self.stream docs) app =
      (do let app ← run (readDoc loc config consumer) app (self.filled docs)
          pure (UInt32.ofNat docs.length, app))

/-! ## Sorted keys -/

instance : Std.Total keyLe := ⟨fun a b => le_total (a.map UInt8.toNat) (b.map UInt8.toNat)⟩

instance : IsTrans XmlStr keyLe := ⟨fun _ _ _ h h' => le_trans h h'⟩

theorem keyLe_antisymm {a b : XmlStr} (h : keyLe a b) (h' : keyLe b a) : a = b :=
  List.map_injective_iff.mpr (fun _ _ => UInt8.toNat_inj.mp) (le_antisymm h h')

/-- What is left of sorted keys when others are taken out. -/
theorem filter_sorted {known l : List XmlStr} (hknown : known.Pairwise keyLe)
    (hnodup : known.Nodup) (hl : l.Nodup) :
    (l.insertionSort keyLe).filter (· ∈ known) = known.filter (· ∈ l) := by
  refine List.Perm.eq_of_pairwise (fun a b _ _ => keyLe_antisymm)
    ((List.pairwise_insertionSort keyLe l).filter _) (hknown.filter _) ?_
  have hsorted : (l.insertionSort keyLe).Nodup := (List.perm_insertionSort keyLe l).nodup_iff.mpr hl
  refine (List.perm_ext_iff_of_nodup (hsorted.filter _) (hnodup.filter _)).mpr fun a => ?_
  simp [List.mem_insertionSort, and_comm]

theorem filterMap_filter {α β : Type} {f : α → Option β} {p : α → Bool}
    (h : ∀ a, p a = false → f a = none) (l : List α) :
    (l.filter p).filterMap f = l.filterMap f := by
  induction l with
  | nil => rfl
  | cons a l ih =>
      cases ha : p a with
      | true => rw [List.filter_cons_of_pos ha, List.filterMap_cons, List.filterMap_cons, ih]
      | false =>
          rw [List.filter_cons_of_neg (by simp [ha]), ih, List.filterMap_cons_none (h a ha)]

section Doc

variable {doc : FilledDoc} {loc : Locale} {config : Config}

theorem FilledDoc.line_of_notMem {key : XmlStr} (h : key ∉ perlKeys) : doc.line key = none := by
  have hlookup : perlLabels.lookup key = none := by
    simp only [perlKeys, List.mem_cons, List.not_mem_nil, or_false, not_or] at h
    obtain ⟨haction, hmime, hmodtime, hparser, htype, hurl⟩ := h
    simp only [perlLabels, List.lookup_cons, beq_false_of_ne haction, beq_false_of_ne hmime,
      beq_false_of_ne hmodtime, beq_false_of_ne hparser, beq_false_of_ne htype,
      beq_false_of_ne hurl, List.lookup_nil]
  rw [line, hlookup]
  cases doc.option key <;> rfl

/-- The lines of a head: one for each option that names a header, in the order of their keys. -/
theorem FilledDoc.headLines_eq (hversion : doc.version = lit "3") :
    headLines doc.version doc.buf.length doc.opts =
      labelLine .contentLength (natToString doc.buf.length) :: perlKeys.filterMap doc.line := by
  have hsorted : (doc.opts.keys.insertionSort keyLe).filter (· ∈ perlKeys) =
      perlKeys.filter (· ∈ doc.opts.keys) :=
    filter_sorted (by decide) (by decide) doc.opts.keys_nodup
  have hlabel : ∀ key, decide (key ∈ perlKeys) = false → doc.line key = none :=
    fun key h => line_of_notMem (of_decide_eq_false h)
  have hkey : ∀ key, decide (key ∈ doc.opts.keys) = false → doc.line key = none := by
    intro key h
    have hmem : key ∉ doc.opts := by simpa [AList.mem_keys] using h
    rw [line, option, AList.lookup_eq_none.mpr hmem]
    rfl
  have hlines : (doc.opts.keys.insertionSort keyLe).filterMap doc.line =
      perlKeys.filterMap doc.line := by
    rw [← filterMap_filter hlabel, hsorted, filterMap_filter hkey]
  rw [headLines, ← hlines, hversion]
  rfl

/-! ## The entries of a head -/

/-- The line of a label as an entry. -/
def labelEntry (name : HeaderName) (v : XmlStr)
    (h : name.field.isNumber = true → IsNumeral (strSkipWs (32 :: v))) : HeaderEntry where
  name
  spelling := name.text
  value := 32 :: v
  spelling_eq := by cases name <;> decide
  isNumeral := h

theorem labelEntry_line {name : HeaderName} {v : XmlStr}
    (h : name.field.isNumber = true → IsNumeral (strSkipWs (32 :: v))) :
    (labelEntry name v h).line = labelLine name v := by
  simp [HeaderEntry.line, labelEntry, labelLine, lit]

theorem labelEntry_text {name : HeaderName} {v : XmlStr}
    (h : name.field.isNumber = true → IsNumeral (strSkipWs (32 :: v)))
    (hv : ∀ c ∈ v.head?, isspace c = false) : (labelEntry name v h).text = v := by
  have hskip : strSkipWs (32 :: v) = strSkipWs v := by simp [strSkipWs, isspace]
  rw [HeaderEntry.text, labelEntry, hskip, strSkipWs_of_head hv]

theorem IsDecimal.first {v : XmlStr} (h : IsDecimal v) : ∀ c ∈ v.head?, isspace c = false := by
  intro c hc
  exact isspace_of_isdigit (h.1 c (List.mem_of_mem_head? hc))

theorem IsDecimal.no_sign {c : XmlChar} {v : XmlStr} (h : IsDecimal (c :: v)) :
    c ≠ 45 ∧ c ≠ 43 := by
  have hc : isdigit c = true := h.1 c List.mem_cons_self
  constructor
  · rintro rfl
    cases hc
  · rintro rfl
    cases hc

theorem IsDecimal.numeral {v : XmlStr} (h : IsDecimal v) : LibSwish3.numeral v = digitsValue v := by
  cases v with
  | nil => rfl
  | cons c v => simp [LibSwish3.numeral, h.no_sign.1, h.no_sign.2]

theorem IsDecimal.isNumeral {v : XmlStr} (h : IsDecimal v) (hne : v ≠ []) : IsNumeral v := by
  have hunsigned : unsigned v = v := by
    obtain ⟨c, rest, rfl⟩ := List.exists_cons_of_ne_nil hne
    simp [unsigned, h.no_sign.1, h.no_sign.2]
  have hlt := h.2
  refine ⟨by rwa [hunsigned], by rw [hunsigned]; exact h.1, ?_, ?_⟩ <;> rw [h.numeral] <;> omega

theorem IsDecimal.entry {v : XmlStr} (h : IsDecimal v) (hne : v ≠ []) (name : HeaderName) :
    name.field.isNumber = true → IsNumeral (strSkipWs (32 :: v)) := by
  intro _
  have hskip : strSkipWs (32 :: v) = strSkipWs v := by simp [strSkipWs, isspace]
  rw [hskip, strSkipWs_of_head h.first]
  exact h.isNumeral hne

/-- A plain value stands on a line that both sides can read. -/
theorem headerLine_labelLine {v : XmlStr} (hv : FilledDoc.PlainValue v) (name : HeaderName) :
    HeaderLine (labelLine name v) where
  length_le := by
    have hname : name.text.length ≤ 16 := by cases name <;> decide
    have hlength := hv.length_le
    simp only [labelLine, List.length_append, show (lit ": ").length = 2 from rfl]
    omega
  colon := by simp [labelLine, lit]
  noNul := by
    have hname : (0 : XmlChar) ∉ name.text ++ lit ": " := by cases name <;> decide
    rw [labelLine, List.mem_append, not_or]
    exact ⟨hname, hv.noNul⟩
  noNewline := by
    have hname : newline ∉ name.text ++ lit ": " := by cases name <;> decide
    rw [labelLine, List.mem_append, not_or]
    exact ⟨hname, hv.noNewline⟩
  head := by
    rw [labelLine]
    cases name <;> (intro c hc; cases hc; decide)
  last := by
    rw [labelLine, List.getLast?_append_of_ne_nil _ hv.ne_nil]
    exact hv.last

theorem plainValue_natToString {n : Nat} (h : n < 2 ^ 31) :
    FilledDoc.PlainValue (natToString n) where
  ne_nil := natToString_ne_nil
  length_le := by
    have hdigits : (Nat.digits 10 n).length ≤ 10 :=
      (Nat.digits_length_le_iff (by decide) n).mpr (lt_trans h (by decide))
    rw [natToString]
    split
    · decide
    · simp only [List.length_map, List.length_reverse]
      omega
  noNul h := by cases isdigit_natToString 0 h
  noNewline h := by cases isdigit_natToString _ h
  first c hc := isspace_of_isdigit (isdigit_natToString c (List.mem_of_mem_head? hc))
  last c hc := isspace_of_isdigit (isdigit_natToString c (List.mem_of_getLast? hc))

theorem isDecimal_natToString {n : Nat} (h : n < 2 ^ 31) : IsDecimal (natToString n) :=
  ⟨isdigit_natToString, by rwa [digitsValue_natToString]⟩

/-- A line whose value is a text. -/
def textEntry (name : HeaderName) (hname : name.field.isNumber = false) (v : XmlStr) :
    HeaderEntry :=
  labelEntry name v fun h => by rw [hname] at h; cases h

theorem textEntry_name {name : HeaderName} {hname : name.field.isNumber = false} {v : XmlStr} :
    (textEntry name hname v).name = name := rfl

theorem numeral_natToString {n : Nat} (h : n < 2 ^ 31) : numeral (natToString n) = n := by
  rw [(isDecimal_natToString h).numeral, digitsValue_natToString]

theorem FilledDoc.line_eq {key : XmlStr} {label : HeaderName}
    (hlabel : perlLabels.lookup key = some label) :
    doc.line key = (doc.option key).map (labelLine label) := by
  rw [line, hlabel]
  cases doc.option key <;> rfl

/-- The entries of a document's head.  The last one is for the URL, and no other is. -/
theorem FilledDoc.Plain.entries (h : doc.Plain loc) :
    ∃ (entries : List HeaderEntry) (last : HeaderEntry),
      headLines doc.version doc.buf.length doc.opts = (entries ++ [last]).map HeaderEntry.line ∧
      { headInfoInit.describedBy (entries ++ [last]) with action := none } = doc.info ∧
      (∀ e ∈ entries, e.name.field ≠ .uri) ∧
      entries.length = (perlKeys.filter fun key => (doc.option key).isSome).length := by
  obtain ⟨url, hurl, -⟩ := h.url
  obtain ⟨time, htime, hdecimal⟩ := h.modtime
  rw [Option.mem_def] at hurl htime
  have hlength := isDecimal_natToString h.buf_lt
  have hvalues := h.values
  let lengthEntry := labelEntry .contentLength (natToString doc.buf.length)
    (hlength.entry natToString_ne_nil _)
  let timeEntry := labelEntry .lastModified time
    (hdecimal.entry (hvalues _ (by decide) _ htime).ne_nil _)
  refine ⟨lengthEntry ::
    (((doc.option (lit "action")).map (textEntry .action (by decide))).toList ++
    ((doc.option (lit "mime")).map (textEntry .contentType (by decide))).toList ++ [timeEntry] ++
    ((doc.option (lit "parser")).map (textEntry .parserType (by decide))).toList ++
    ((doc.option (lit "type")).map (textEntry .contentType (by decide))).toList),
    textEntry .contentLocation (by decide) url, ?_, ?_, ?_, ?_⟩
  · have haction : doc.line (lit "action") = _ := line_eq (rfl : _ = some HeaderName.action)
    have hmime : doc.line (lit "mime") = _ := line_eq (rfl : _ = some HeaderName.contentType)
    have htimeline : doc.line (lit "modtime") = _ :=
      line_eq (rfl : _ = some HeaderName.lastModified)
    have hparser : doc.line (lit "parser") = _ := line_eq (rfl : _ = some HeaderName.parserType)
    have htype : doc.line (lit "type") = _ := line_eq (rfl : _ = some HeaderName.contentType)
    have hurlline : doc.line (lit "url") = _ :=
      line_eq (rfl : _ = some HeaderName.contentLocation)
    rw [headLines_eq h.version]
    simp only [perlKeys, List.filterMap_cons, List.filterMap_nil, haction, hmime, htimeline,
      hparser, htype, hurlline, hurl, htime]
    cases doc.option (lit "action") <;> cases doc.option (lit "mime") <;>
      cases doc.option (lit "parser") <;> cases doc.option (lit "type") <;>
      simp [lengthEntry, timeEntry, textEntry, labelEntry_line]
  · have htext : ∀ key ∈ perlKeys, ∀ v, doc.option key = some v →
        ∀ name hname, (textEntry name hname v).text = v :=
      fun key hkey v hv name hname => labelEntry_text _ (hvalues key hkey v hv).first
    have hmimetext := htext (lit "mime") (by decide)
    have hparsertext := htext (lit "parser") (by decide)
    have htypetext := htext (lit "type") (by decide)
    have hurltext := htext (lit "url") (by decide) url hurl
    have hsize : lengthEntry.text = natToString doc.buf.length :=
      labelEntry_text _ hlength.first
    have hmtime : timeEntry.text = time := labelEntry_text _ hdecimal.first
    have hnumeral := numeral_natToString h.buf_lt
    have hlengthname : lengthEntry.name = .contentLength := rfl
    have htimename : timeEntry.name = .lastModified := rfl
    have hnil : ∀ field, lastValue [] field = none := fun _ => rfl
    cases haction : doc.option (lit "action") <;> cases hmime : doc.option (lit "mime") <;>
      cases hparser : doc.option (lit "parser") <;> cases htype : doc.option (lit "type") <;>
      simp [HeadInfo.describedBy, info, headInfoInit, lastValue_cons, textEntry_name,
        HeaderName.field, *]
  · intro e he
    simp only [List.mem_cons, List.mem_append, Option.mem_toList, Option.map_eq_some_iff,
      List.not_mem_nil, or_false] at he
    rcases he with rfl | (((⟨v, -, rfl⟩ | ⟨v, -, rfl⟩) | rfl) | ⟨v, -, rfl⟩) | ⟨v, -, rfl⟩ <;>
      simp [textEntry, labelEntry, lengthEntry, timeEntry, HeaderName.field]
  · simp only [perlKeys, List.filter_cons, List.filter_nil, hurl, htime]
    cases doc.option (lit "action") <;> cases doc.option (lit "mime") <;>
      cases doc.option (lit "parser") <;> cases doc.option (lit "type") <;> rfl

/-! ## Reading a document -/

/-- The document as a message. -/
def FilledDoc.message (doc : FilledDoc) : Message where
  lines := headLines doc.version doc.buf.length doc.opts
  body := doc.buf

theorem intercalate_newline {lines : List XmlStr} (hne : lines ≠ []) :
    [newline].intercalate lines ++ [newline] = headBytes lines := by
  induction lines with
  | nil => exact absurd rfl hne
  | cons line lines ih =>
      cases lines with
      | nil => simp
      | cons next lines =>
          rw [List.intercalate_cons_cons, headBytes_cons, ← ih (List.cons_ne_nil _ _)]
          simp

theorem FilledDoc.bytes_message : doc.message.bytes = doc.head ++ doc.buf := by
  have hbytes : [newline].intercalate (headLines doc.version doc.buf.length doc.opts) ++ [newline] =
      headBytes (headLines doc.version doc.buf.length doc.opts) :=
    intercalate_newline (List.cons_ne_nil _ _)
  rw [Message.bytes, message, head, ← hbytes]
  simp

theorem FilledDoc.Plain.headerLine (h : doc.Plain loc) :
    ∀ line ∈ doc.message.lines, HeaderLine line := by
  intro line hline
  rw [message, headLines_eq h.version] at hline
  rcases List.mem_cons.mp hline with rfl | hline
  · exact headerLine_labelLine (plainValue_natToString h.buf_lt) _
  · obtain ⟨key, hkey, hline⟩ := List.mem_filterMap.mp hline
    obtain ⟨v, hv, hline⟩ := Option.bind_eq_some_iff.mp hline
    obtain ⟨label, -, hline⟩ := Option.bind_eq_some_iff.mp hline
    cases hline
    exact headerLine_labelLine (h.values key hkey v hv) label

/-- The lines are read as what the document says of itself. -/
theorem FilledDoc.Plain.docinfoOf_eq (h : doc.Plain loc) (config : Config) :
    docinfoOf loc config doc.message.head = docinfoCheck loc config doc.info := by
  obtain ⟨entries, last, hlines, hinfo, -⟩ := h.entries
  rw [docinfoOf, Message.head, message, hlines, headToDocinfo_entries, hinfo, ok_bind]

/-- What a document says of itself is accepted. -/
theorem FilledDoc.Plain.docinfoCheck_ok (h : doc.Plain loc)
    (hdefault : (config.parsers.lookup Swish.defaultParser).isSome) :
    ∃ docinfo, docinfoCheck loc config doc.info = .ok docinfo ∧
      docinfo.size = doc.buf.length := by
  obtain ⟨url, hurl, hext⟩ := h.url
  rw [Option.mem_def] at hurl
  obtain ⟨fallback, hfallback⟩ := Option.isSome_iff_exists.mp hdefault
  have hbuf : doc.buf.length ≠ 0 := by simpa using h.buf_ne
  obtain ⟨ext, hok⟩ : ∃ ext, fsGetFileExt loc url = .ok ext := by
    cases hlower : fsGetFileExt loc url with
    | error e => rw [hlower] at hext; cases hext
    | ok ext => exact ⟨ext, rfl⟩
  have hparser : ∀ mime parser, ∃ p, parserOf config mime parser = .ok p := by
    intro mime parser
    cases parser with
    | some parser => exact ⟨parser, rfl⟩
    | none =>
        simp only [parserOf, mimeGetParser, hfallback]
        split
        · exact ⟨_, rfl⟩
        · exact ⟨_, rfl⟩
  have huri : doc.info.uri = some url := hurl
  have hsize : doc.info.size = doc.buf.length := rfl
  obtain ⟨parser, hparser⟩ := hparser
    (doc.info.mime.getD (mimeGetType config (some (ext.getD (lit "none"))))) doc.info.parser
  rw [docinfoCheck, huri]
  simp only
  rw [hsize, if_neg (by omega), if_neg (by omega), hok, ok_bind, hparser, ok_bind]
  exact ⟨_, rfl, rfl⟩

/-- The document has fewer options than there are. -/
def FilledDoc.Few (doc : FilledDoc) : Prop := ∃ key ∈ perlKeys, doc.option key = none

instance : DecidablePred FilledDoc.Few :=
  fun doc => inferInstanceAs (Decidable (∃ key ∈ perlKeys, doc.option key = none))

theorem FilledDoc.Plain.length_lines (h : doc.Plain loc) :
    2 ≤ doc.message.lines.length ∧ (doc.Few → doc.message.lines.length ≤ maxHeaders) ∧
      (¬doc.Few → doc.message.lines.length = maxHeaders + 1) := by
  obtain ⟨entries, last, hlines, -, -, hlength⟩ := h.entries
  have hcount : doc.message.lines.length =
      (perlKeys.filter fun key => (doc.option key).isSome).length + 1 := by
    rw [message, hlines, List.length_map, List.length_append, hlength]
    rfl
  rw [hcount]
  refine ⟨?_, fun hfew => ?_, fun hall => ?_⟩
  · obtain ⟨url, hurl, -⟩ := h.url
    rw [Option.mem_def] at hurl
    have hmem : lit "url" ∈ perlKeys.filter fun key => (doc.option key).isSome :=
      List.mem_filter.mpr ⟨by decide, by rw [hurl]; rfl⟩
    have hpos := List.length_pos_of_mem hmem
    omega
  · obtain ⟨key, hkey, hnone⟩ := hfew
    have hlt : (perlKeys.filter fun key => (doc.option key).isSome).length < perlKeys.length :=
      List.length_filter_lt_length_iff_exists.mpr ⟨key, hkey, by simp [hnone]⟩
    exact hlt
  · have hevery : ∀ key ∈ perlKeys, (doc.option key).isSome = true := by
      intro key hkey
      rw [Option.isSome_iff_ne_none]
      exact fun hnone => hall ⟨key, hkey, hnone⟩
    rw [List.filter_eq_self.mpr hevery]
    rfl

/-- `buf_to_head` looks at no more lines than it has room for. -/
theorem bufToHeadFrom_more {k : Nat} {done lines : List XmlStr} {rest : XmlStr}
    (hlines : ∀ line ∈ lines, FitsLine line) (hdone : done.length < maxHeaders)
    (hcount : maxHeaders < done.length + lines.length) :
    bufToHeadFrom k [] done (headBytes lines ++ rest) =
      .ok ⟨(done ++ lines).take maxHeaders, 0⟩ := by
  induction lines generalizing k done with
  | nil => exact absurd hcount (by simpa using hdone.le)
  | cons line lines ih =>
      have hline := hlines line List.mem_cons_self
      cases lines with
      | nil =>
          rw [List.length_singleton] at hcount
          omega
      | cons next lines =>
          have hnext := hlines next (by simp)
          obtain ⟨c, tail, htail⟩ := List.exists_cons_of_ne_nil hnext.ne_nil
          have hc : c ≠ newline := by
            rintro rfl
            exact hnext.noNewline (by simp [htail])
          have hlen : (([] : XmlStr) ++ line).length ≤ maxStrLen := hline.length_le
          rw [headBytes_cons, List.append_assoc, List.cons_append,
            bufToHeadFrom_line hdone hline.ne_nil hline.noNewline hlen,
            if_neg (by simp [htail, hc]), List.nil_append]
          by_cases hfull : (done ++ [line]).length < maxHeaders
          · rw [ih (fun l hl => hlines l (List.mem_cons_of_mem _ hl)) hfull
              (by simpa [Nat.add_assoc, Nat.add_comm] using hcount)]
            simp
          · have hlength : (done ++ [line]).length = maxHeaders := by
              rw [List.length_append, List.length_singleton] at hfull ⊢
              omega
            have htake : (done ++ line :: next :: lines).take maxHeaders = done ++ [line] := by
              rw [← List.singleton_append, ← List.append_assoc, ← hlength, List.take_left]
            rw [htake, headBytes_cons, htail, List.cons_append, List.cons_append,
              bufToHeadFrom.eq_def]
            simp only
            rw [if_neg fun h => hfull h.1]

theorem FilledDoc.Plain.docinfoOf_cut (h : doc.Plain loc) (hall : ¬doc.Few) (config : Config)
    (bodyStart : Nat) : docinfoOf loc config ⟨doc.message.lines.take maxHeaders, bodyStart⟩ =
      croak [lit "Failed to return required header Content-Location:"] := by
  obtain ⟨entries, last, hlines, -, huri, -⟩ := h.entries
  have hlength := h.length_lines.2.2 hall
  rw [message, hlines] at hlength
  have htake : doc.message.lines.take maxHeaders = entries.map HeaderEntry.line := by
    have hentries : (entries.map HeaderEntry.line).length = maxHeaders := by
      rw [List.length_map, List.length_append, List.length_singleton] at hlength
      rw [List.length_map]
      omega
    rw [message, hlines, List.map_append, ← hentries, List.take_left]
  have hnone : (headInfoInit.describedBy entries).uri = none := by
    simp only [HeadInfo.describedBy, (lastValue_eq_none_iff .uri).mpr huri]
    rfl
  rw [docinfoOf, htake, headToDocinfo_entries, ok_bind, docinfoCheck]
  simp only [hnone]

end Doc

/-! ## Reading a stream -/

section Stream

variable {π σ : Type} {loc : Locale} {config : Config} {consumer : Consumer π σ}
  {doc : FilledDoc} {docs : List FilledDoc} {rest : XmlStr} {fuel : Nat} {fileCnt : UInt32} {app : σ}

/-- A document with all options ends the stream. -/
theorem fhLoop_cut (h : doc.Plain loc) (hall : ¬doc.Few) :
    fhLoop loc config consumer (fuel + 1 + doc.message.lines.length)
        ⟨doc.head ++ doc.buf ++ rest, [], 0, fileCnt, app⟩ =
      croak [lit "Failed to return required header Content-Location:"] := by
  have hfits : ∀ line ∈ doc.message.lines, FitsLine line :=
    fun line hline => (h.headerLine line hline).fits
  have hmin := h.length_lines.1
  have hlength := h.length_lines.2.2 hall
  have hhead : bufToHead (headBytes doc.message.lines) =
      .ok ⟨doc.message.lines.take maxHeaders, 0⟩ := by
    have hmore : bufToHeadFrom 0 [] [] (headBytes doc.message.lines ++ []) =
        .ok ⟨([] ++ doc.message.lines).take maxHeaders, 0⟩ :=
      bufToHeadFrom_more hfits (by decide) (by simp [hlength])
    rwa [List.append_nil, List.nil_append] at hmore
  rw [← FilledDoc.bytes_message, Message.bytes, List.append_assoc, fhLoop_headBytes h.headerLine,
    List.cons_append, fhLoop, ← List.nil_append (newline :: (doc.message.body ++ rest)),
    fgets_append (by simp) (by simp)]
  simp only [List.nil_append, trimLine_newline, fhLine, Nat.zero_add, hmin, true_and,
    List.isEmpty_nil, if_true, readBody, hhead, ok_bind, h.docinfoOf_cut hall config]
  rfl

theorem fhLoop_few (h : doc.Plain loc) (hfew : doc.Few)
    (hdefault : (config.parsers.lookup Swish.defaultParser).isSome) :
    fhLoop loc config consumer (fuel + 1 + doc.message.lines.length)
        ⟨doc.head ++ doc.buf ++ rest, [], 0, fileCnt, app⟩ =
      (do let app ← readDoc loc config consumer app doc
          fhLoop loc config consumer fuel ⟨rest, [], 0, fileCnt + 1, app⟩) := by
  obtain ⟨docinfo, hdocinfo, hsize⟩ := h.docinfoCheck_ok hdefault
  rw [← FilledDoc.bytes_message, fhLoop_message h.headerLine h.length_lines.1
    (h.length_lines.2.1 hfew), h.docinfoOf_eq, readDoc, hdocinfo]
  simp only [ok_bind, hsize, FilledDoc.message, slurpFh_append]
  cases handOver consumer docinfo (noNulls doc.buf) doc.buf.length app <;> rfl

theorem length_flatMap_gt (doc : FilledDoc) (docs : List FilledDoc) :
    doc.message.lines.length + (docs.flatMap fun doc => doc.head ++ doc.buf).length + 1 ≤
      ((doc :: docs).flatMap fun doc => doc.head ++ doc.buf).length := by
  have hlength := doc.message.length_bytes_gt
  rw [FilledDoc.bytes_message] at hlength
  rw [List.flatMap_cons, List.length_append]
  omega

theorem fhLoop_docs (hdefault : (config.parsers.lookup Swish.defaultParser).isSome)
    (hplain : ∀ doc ∈ docs, doc.Plain loc) (hfew : ∀ doc ∈ docs, doc.Few)
    (hfuel : (docs.flatMap fun doc => doc.head ++ doc.buf).length < fuel) :
    fhLoop loc config consumer fuel
        ⟨docs.flatMap fun doc => doc.head ++ doc.buf, [], 0, fileCnt, app⟩ =
      (do let app ← run (readDoc loc config consumer) app docs
          pure (fileCnt + UInt32.ofNat docs.length, app)) := by
  induction docs generalizing fuel fileCnt app with
  | nil =>
      obtain ⟨fuel, rfl⟩ := Nat.exists_eq_succ_of_ne_zero (Nat.ne_of_gt hfuel)
      rw [List.flatMap_nil, fhLoop_nil]
      exact congrArg (fun n => Except.ok (n, app)) (UInt32.add_zero fileCnt).symm
  | cons doc docs ih =>
      have hlength := length_flatMap_gt doc docs
      obtain ⟨fuel, rfl⟩ : ∃ fuel', fuel = fuel' + 1 + doc.message.lines.length :=
        ⟨fuel - doc.message.lines.length - 1, by omega⟩
      rw [List.flatMap_cons, fhLoop_few (hplain doc List.mem_cons_self)
        (hfew doc List.mem_cons_self) hdefault, run]
      cases readDoc loc config consumer app doc with
      | error e => rfl
      | ok app =>
          simp only [ok_bind]
          rw [ih (fun d hd => hplain d (List.mem_cons_of_mem doc hd))
            (fun d hd => hfew d (List.mem_cons_of_mem doc hd)) (by omega), List.length_cons,
            fileCnt_add_one]

/-- A consumer that takes everything. -/
def takesAll : Consumer Unit Unit where
  initParserData _ := ()
  docparser _ _ _ _ := .ok (0, (), ())
  handler _ _ := .ok ()

theorem readDoc_takesAll (h : doc.Plain loc)
    (hdefault : (config.parsers.lookup Swish.defaultParser).isSome) :
    readDoc loc config takesAll () doc = .ok () := by
  obtain ⟨docinfo, hdocinfo, -⟩ := h.docinfoCheck_ok hdefault
  rw [readDoc, hdocinfo]
  rfl

theorem run_takesAll (hdefault : (config.parsers.lookup Swish.defaultParser).isSome)
    (hplain : ∀ doc ∈ docs, doc.Plain loc) :
    run (readDoc loc config takesAll) () docs = .ok () := by
  induction docs with
  | nil => rfl
  | cons doc docs ih =>
      rw [run_cons_of_ok (readDoc_takesAll (hplain doc List.mem_cons_self) hdefault)]
      exact ih fun d hd => hplain d (List.mem_cons_of_mem doc hd)

theorem fhLoop_not_few (hdefault : (config.parsers.lookup Swish.defaultParser).isSome)
    (hplain : ∀ doc ∈ docs, doc.Plain loc) (hcut : ∃ doc ∈ docs, ¬doc.Few)
    (hfuel : (docs.flatMap fun doc => doc.head ++ doc.buf).length < fuel) :
    fhLoop loc config takesAll fuel
        ⟨docs.flatMap fun doc => doc.head ++ doc.buf, [], 0, fileCnt, ()⟩ =
      croak [lit "Failed to return required header Content-Location:"] := by
  induction docs generalizing fuel fileCnt with
  | nil => simp at hcut
  | cons doc docs ih =>
      have hlength := length_flatMap_gt doc docs
      have hdoc := hplain doc List.mem_cons_self
      obtain ⟨fuel, rfl⟩ : ∃ fuel', fuel = fuel' + 1 + doc.message.lines.length :=
        ⟨fuel - doc.message.lines.length - 1, by omega⟩
      rw [List.flatMap_cons]
      by_cases hfew : doc.Few
      · have hrest : ∃ doc ∈ docs, ¬doc.Few := by
          obtain ⟨d, hd, hnot⟩ := hcut
          rcases List.mem_cons.mp hd with rfl | hd
          · exact absurd hfew hnot
          · exact ⟨d, hd, hnot⟩
        rw [fhLoop_few hdoc hfew hdefault, readDoc_takesAll hdoc hdefault, ok_bind]
        exact ih (fun d hd => hplain d (List.mem_cons_of_mem doc hd)) hrest (by omega)
      · exact fhLoop_cut hdoc hfew

theorem stream_eq (self : HeadersObject) (docs : List PerlDoc) :
    self.stream docs = (self.filled docs).flatMap fun doc => doc.head ++ doc.buf := by
  induction docs generalizing self with
  | nil => rfl
  | cons doc docs ih =>
      rw [HeadersObject.stream, HeadersObject.filled, List.flatMap_cons, ← ih]
      rfl

theorem length_filled (self : HeadersObject) (docs : List PerlDoc) :
    (self.filled docs).length = docs.length := by
  induction docs generalizing self with
  | nil => rfl
  | cons doc docs ih => rw [HeadersObject.filled, List.length_cons, ih, List.length_cons]

/-- A stream of plain documents is read as it was written exactly if none of them has all
options. -/
theorem readsBack_iff (self : HeadersObject) (docs : List PerlDoc)
    (hdefault : (config.parsers.lookup Swish.defaultParser).isSome)
    (hplain : ∀ doc ∈ self.filled docs, doc.Plain loc) :
    ReadsBack loc config self docs ↔ ∀ doc ∈ self.filled docs, doc.Few := by
  constructor
  · intro hreads
    by_contra hcut
    push Not at hcut
    have heq := hreads takesAll ()
    rw [parseFh, stream_eq, fhLoop_not_few hdefault hplain hcut (Nat.lt_succ_self _),
      run_takesAll hdefault hplain] at heq
    cases heq
  · intro hfew π σ consumer app
    rw [parseFh, stream_eq, fhLoop_docs hdefault hplain hfew (Nat.lt_succ_self _), UInt32.zero_add,
      length_filled]

end Stream

/-- Two documents without options. -/
def twoDocs : List PerlDoc :=
  [⟨lit "one", ∅, 1400000000⟩, ⟨lit "<two/>", (∅ : PerlHash).insert (lit "type")
    (some (lit "text/xml")), 1400000001⟩]

theorem readsBack_twoDocs :
    ReadsBack .posix (configSetDefault (lit "C")) ⟨lit "3", 1300000000⟩ twoDocs := by
  refine (readsBack_iff ⟨lit "3", 1300000000⟩ twoDocs (by decide +kernel)
    (by decide +kernel)).mpr ?_
  decide +kernel

end LibSwish3
