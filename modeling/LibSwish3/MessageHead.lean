import LibSwish3.Sax

/-!
# The headers of a message

A document that does not come from a file has a head: lines with a name, a colon and a value.
`buf_to_head` cuts a buffer into these lines and finds where the body starts, `head_to_docinfo`
reads them, and `swish_docinfo_check` fills in what they leave out.

## Main definitions

* `Head`, `bufToHead`.
* `HeadInfo` — the members of `swish_DocInfo` that headers set.
* `headToDocinfo`, `docinfoCheck`.
-/

namespace LibSwish3

open Tables

/-- `SWISH_MAXSTRLEN`. -/
def maxStrLen : Nat := 2048

/-- `SWISH_MAX_HEADERS`. -/
def maxHeaders : Nat := 6

def newline : XmlChar := 10

/-! ## Lines -/

/-- `HEAD`; `nlines` is the length of the list. -/
structure Head where
  lines : List XmlStr
  bodyStart : Nat
  deriving DecidableEq, Repr

/-- The loop of `buf_to_head` from index `k` of the buffer, with the bytes of the line so far
and the lines before it.  The array `line` has room for `maxStrLen + 1` bytes. -/
def bufToHeadFrom (k : Nat) (line : XmlStr) (lines : List XmlStr) : XmlStr → Swish Head
  | [] =>
    -- the NUL is no newline, and the next byte is behind the buffer
    if lines.length < maxHeaders ∧ line.length ≤ maxStrLen then .error (.fault .outOfBounds)
    else .ok ⟨lines, 0⟩
  | c :: rest =>
    if lines.length < maxHeaders ∧ line.length ≤ maxStrLen then
      if c = newline then croak [lit "illegal newline to start doc header"]
      else match rest with
        | [] => bufToHeadFrom (k + 1) (line ++ [c]) lines []
        | d :: next =>
          if d = newline then
            if maxStrLen < (line ++ [c]).length then .error (.fault .outOfBounds)
            else if next.isEmpty ∨ next.head? = some newline then
              .ok ⟨lines ++ [line ++ [c]], k + 3⟩
            else bufToHeadFrom (k + 2) [] (lines ++ [line ++ [c]]) next
          else bufToHeadFrom (k + 1) (line ++ [c]) lines (d :: next)
    else .ok ⟨lines, 0⟩

/-- `buf_to_head`. -/
def bufToHead (buf : XmlStr) : Swish Head := bufToHeadFrom 0 [] [] buf

/-! ## The document they describe -/

/-- The members of `swish_DocInfo` that headers set. -/
structure HeadInfo where
  uri : Option XmlStr
  size : Int
  mtime : Int
  mime : Option XmlStr
  parser : Option XmlStr
  encoding : XmlStr
  action : Option XmlStr
  ext : Option XmlStr
  deriving DecidableEq, Repr

/-- `swish_docinfo_init`. -/
def headInfoInit : HeadInfo := ⟨none, 0, 0, none, none, lit "UTF-8", none, none⟩

/-- `xmlStrncasecmp` found no difference in the first `n` bytes. -/
def strnCaseEq (s t : XmlStr) (n : Nat) : Bool := strCaseEq (s.take n) (t.take n)

/-- What stands behind the first colon of a line, and the blanks behind it. -/
def headerValue (line : XmlStr) : Option XmlStr :=
  match line.dropWhile (· ≠ 58) with
  | [] => none
  | _ :: val => some (strSkipWs val)

/-- The headers whose value is a text.  A name is compared without the colon behind it. -/
def headerText (info : HeadInfo) (line val : XmlStr) : HeadInfo :=
  if strnCaseEq line (lit "Content-Location") 16 then { info with uri := some val }
  else if strnCaseEq line (lit "Path-Name") 9 then { info with uri := some val }
  else if strnCaseEq line (lit "Document-Type") 13 then { info with parser := some val }
  else if strnCaseEq line (lit "Parser-Type") 11 then { info with parser := some val }
  else if strnCaseEq line (lit "Content-Type") 12 then { info with mime := some val }
  else if strnCaseEq line (lit "Encoding") 8 ∨ strnCaseEq line (lit "Charset") 7 then
    { info with encoding := val }
  -- eleven bytes of a name of six: a line that has a colon never matches
  else if strnCaseEq line (lit "Action") 11 then { info with action := some val }
  else info

/-- One line of `head_to_docinfo`; the headers with a number come first. -/
def headerLine (info : HeadInfo) (line : XmlStr) : Swish HeadInfo :=
  match headerValue line with
  | none => croak [lit "bad header line: ", line]
  | some val =>
    if strnCaseEq line (lit "Content-Length") 14 then do
      pure { info with size := ← stringToInt val }
    else if strnCaseEq line (lit "Last-Modified") 13 then do
      pure { info with mtime := ← stringToInt val }
    else if strnCaseEq line (lit "Last-Mtime") 10 then do
      pure { info with mtime := ← stringToInt val }
    else pure (headerText info line val)

def headerLines : HeadInfo → List XmlStr → Swish HeadInfo
  | info, [] => .ok info
  | info, line :: lines => do headerLines (← headerLine info line) lines

/-- `head_to_docinfo`. -/
def headToDocinfo (head : Head) : Swish HeadInfo := headerLines headInfoInit head.lines

/-- The parser of a document: the one its head names, or the one for its MIME type. -/
def parserOf (config : Config) (mime : XmlStr) : Option XmlStr → Swish XmlStr
  | some parser => .ok parser
  | none => mimeGetParser config mime

/-- `swish_docinfo_check`. -/
def docinfoCheck (loc : Locale) (config : Config) (info : HeadInfo) : Swish HeadInfo :=
  match info.uri with
  | none => croak [lit "Failed to return required header Content-Location:"]
  | some uri =>
    if info.size = -1 then
      croak [lit "Failed to return required header Content-Length: for doc '", uri, lit "'"]
    else if info.size = 0 then croak [lit "Found zero Content-Length for doc '", uri, lit "'"]
    else do
      let ext := (← fsGetFileExt loc uri).getD (lit "none")
      let mime := info.mime.getD (mimeGetType config (some ext))
      let parser ← parserOf config mime info.parser
      pure { info with ext := some ext, mime := some mime, parser := some parser }

end LibSwish3
