import LibSwish3.MessageHead
import LibSwish3.Tokenizer

/-!
# Messages from a stream and from a buffer

`swish_parse_fh` reads message after message from a stream: header lines with `fgets`, a blank
line, and as many bytes of body as the headers say.  `swish_parse_buffer` gets one message in
a string.

A `FILE` is the bytes that are still to be read.  What parses a body and what takes the parsed
document are parameters, with a state of their own: `Consumer` holds `init_parser_data`,
`docparser` and the handler of `s3->parser`.  What `docparser` returns only leads to a warning.

## Main definitions

* `fgets`, `slurpFh`, `noNulls`.
* `Consumer`, `parseFh`, `parseBuffer`.
-/

namespace LibSwish3

/-! ## Reading -/

/-- The bytes up to the first newline, which is one of them. -/
def lineOf : XmlStr → XmlStr
  | [] => []
  | c :: rest => if c = newline then [c] else c :: lineOf rest

/-- `fgets` into an array of `n` bytes: the line it reads and the rest of the stream. -/
def fgets (n : Nat) (fh : XmlStr) : Option (XmlStr × XmlStr) :=
  if fh.isEmpty then none
  else
    let ln := lineOf (fh.take (n - 1))
    some (ln, fh.drop ln.length)

/-- A line as `swish_parse_fh` trims it; blanks at its end stay where no newline follows. -/
def trimLine (ln : XmlStr) : XmlStr :=
  let line := strSkipWs (cstr ln)
  match findlast line [newline] with
  | some (text, _) => strTrimWs text
  | none => line

/-- `no_nulls`: in a text with a NUL all NULs and bumpers become newlines. -/
def noNulls (buffer : XmlStr) : XmlStr :=
  if (cstr buffer).length < buffer.length then
    buffer.map fun c => if c = 0 ∨ c = tokenposBumper then newline else c
  else buffer

/-- `swish_io_slurp_fh` in text mode, and the rest of the stream. -/
def slurpFh (fh : XmlStr) (flen : Int) : Swish (XmlStr × XmlStr) :=
  -- the length becomes unsigned, and a negative one more than there is memory
  if flen < 0 then
    croak [lit "Out of memory! Can't malloc ", intToString (2 ^ 64 + flen + 1), lit " bytes"]
  else if fh.length < flen then
    croak [lit "did not read expected bytes: ", intToString flen, lit " expected, ",
      natToString fh.length, lit " read"]
  else .ok (noNulls (fh.take flen.toNat), fh.drop flen.toNat)

/-- `xmlStrlen`. -/
def xmlStrlen (s : XmlStr) : Int := toInt s.length

/-! ## Messages -/

/-- What takes the messages: a parser of type `π` for each, and a state of type `σ`. -/
structure Consumer (π σ : Type) where
  initParserData : HeadInfo → π
  docparser : π → XmlStr → Int → σ → Swish (Int × π × σ)
  handler : π → σ → Swish σ

section Messages

variable {π σ : Type} (loc : Locale) (config : Config) (consumer : Consumer π σ)

/-- The docinfo of a head, filled in. -/
def docinfoOf (head : Head) : Swish HeadInfo := do
  docinfoCheck loc config (← headToDocinfo head)

/-- `docparser` and the handler on a body of `size` bytes: what `docparser` returned. -/
def handOver (docinfo : HeadInfo) (body : XmlStr) (size : Int) (app : σ) : Swish (Int × σ) := do
  let (res, pd, app) ← consumer.docparser (consumer.initParserData docinfo) body size app
  let app ← consumer.handler pd app
  pure (res, app)

/-- The state of `swish_parse_fh` between two lines. -/
structure FhState (σ : Type) where
  fh : XmlStr
  headBuf : XmlStr
  nheaders : Nat
  /-- `unsigned int file_cnt`, which wraps. -/
  fileCnt : UInt32
  app : σ

/-- The blank line behind the headers: the body is read and handed over. -/
def readBody (st : FhState σ) : Swish (FhState σ) := do
  let head ← bufToHead st.headBuf
  let docinfo ← docinfoOf loc config head
  let (readBuffer, fh) ← slurpFh st.fh docinfo.size
  let (_, app) ← handOver consumer docinfo readBuffer docinfo.size st.app
  pure ⟨fh, [], 0, st.fileCnt + 1, app⟩

/-- One line, `fh` being the rest of the stream. -/
def fhLine (st : FhState σ) (line fh : XmlStr) : Swish (FhState σ) :=
  if 2 ≤ st.nheaders ∧ line.isEmpty then readBody loc config consumer { st with fh }
  else if line.isEmpty then croak [lit "Not enough header lines reading from filehandle"]
  else .ok { st with fh, headBuf := st.headBuf ++ line ++ [newline], nheaders := st.nheaders + 1 }

/-- The loop of `swish_parse_fh`.  Every round reads a byte, so that the length of the stream
bounds their number. -/
def fhLoop : (fuel : Nat) → FhState σ → Swish (UInt32 × σ)
  | 0, _ => .error .outOfFuel
  | fuel + 1, st =>
    match fgets maxStrLen st.fh with
    | none =>
      if st.headBuf.isEmpty then .ok (st.fileCnt, st.app)
      else croak [lit "Some unparsed header lines remaining"]
    | some (ln, fh) => do fhLoop fuel (← fhLine loc config consumer st (trimLine ln) fh)

/-- `swish_parse_fh`: the number of messages in the stream, in 32 bits. -/
def parseFh (fh : XmlStr) (app : σ) : Swish (UInt32 × σ) :=
  fhLoop loc config consumer (fh.length + 1) ⟨fh, [], 0, 0, app⟩

/-- `swish_parse_buffer`: what `docparser` returned. -/
def parseBuffer (buf : XmlStr) (app : σ) : Swish (Int × σ) := do
  let head ← bufToHead (cstr buf)
  let docinfo ← docinfoOf loc config head
  if (cstr buf).length < head.bodyStart then .error (.fault .outOfBounds)
  else
    let body := (cstr buf).drop head.bodyStart
    handOver consumer docinfo body (xmlStrlen body) app

end Messages

end LibSwish3
