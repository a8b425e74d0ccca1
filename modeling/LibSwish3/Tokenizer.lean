import LibSwish3.Config
import LibSwish3.Utf8
import Mathlib.Data.List.DropRight

/-!
# The tokenizers

`tokenizer.c`: one loop over bytes for ASCII text and one over UTF-8 characters for the rest.
Both collect a word in a work block, end it at a character that belongs to no word, at the
maximal length or at the end of the text, strip what may not start or end a word, and add the
rest to the token list.

The work block is what `swish_xmalloc(maxwordlen)` returns: bytes left by others, at least
`maxwordlen` of them.  It is a parameter, and an access outside of it stops the call.  A read
below its start, which `u8_dec` makes, decides nothing: the index is negative whatever the byte.

A token list collects the words of a document with their positions.  A token has the bytes that
were added for it, a NUL behind its value included; how the list lays them out in one buffer is
not modelled here.

## Main definitions

* `Token`, `TokenList`, `Analyzer` — the words of a document, and the limits for them.
* `tokenListAddToken` — `swish_token_list_add_token`.
* `load`, `store`, `storeAll`, `strAt` — the work block.
* `stripAsciiChrs`, `stripUtf8Chrs` — the ends of a word.
* `tokenizeAscii`, `tokenizeUtf8`, `tokenize`.
-/

namespace LibSwish3

/-! ## Token lists and analyzers -/

structure Token where
  bytes : XmlStr
  len : Nat
  pos : UInt32
  metaname : MetaName
  context : XmlStr
  deriving DecidableEq, Repr

/-- The `len` bytes at `value`. -/
def Token.value (t : Token) : XmlStr := t.bytes.take t.len

/-- The position is an unsigned int, and wraps. -/
structure TokenList where
  pos : UInt32
  tokens : List Token
  deriving DecidableEq, Repr

def TokenList.init : TokenList := ⟨0, []⟩

/-- The number of tokens. -/
def TokenList.n (tl : TokenList) : Nat := tl.tokens.length

/-- Skip a position. -/
def TokenList.bump (tl : TokenList) : TokenList := { tl with pos := tl.pos + 1 }

/-- Add the first `tokenLen` bytes at `token`, a terminating NUL included.  The MetaName is
read without a test. -/
def tokenListAddToken (tl : TokenList) (token : XmlStr) (tokenLen : Nat)
    (m : Option MetaName) (context : XmlStr) : Swish TokenList :=
  if tokenLen = 0 ∨ (cstr token).isEmpty then
    croak [lit "can't add empty token to token list"]
  else match m with
    | none => .error (.fault .nullDeref)
    | some m => .ok {
        pos := tl.pos + 1
        tokens := tl.tokens ++
          [⟨token.take tokenLen, tokenLen - 1, tl.pos + 1, m, context⟩] }

/-- A tokenizer: it adds the words of a text to the list and returns their number. -/
abbrev TokenizerFn := TokenList → XmlStr → Option MetaName → XmlStr → Swish (TokenList × Nat)

structure Analyzer where
  maxwordlen : Nat
  minwordlen : Nat
  tokenize : Bool
  tokenizer : TokenizerFn

/-! ## The work block -/

/-- Read a byte. -/
def load (block : XmlStr) (i : Nat) : Swish XmlChar :=
  match block[i]? with
  | some c => .ok c
  | none => .error (.fault .outOfBounds)

/-- Write a byte. -/
def store (block : XmlStr) (i : Nat) (c : XmlChar) : Swish XmlStr :=
  if i < block.length then .ok (block.set i c) else .error (.fault .outOfBounds)

/-- `memcpy` to index `i`. -/
def storeAll (block : XmlStr) (i : Nat) (bytes : XmlStr) : Swish XmlStr :=
  if i + bytes.length ≤ block.length then
    .ok (block.take i ++ bytes ++ block.drop (i + bytes.length))
  else .error (.fault .outOfBounds)

/-- The string that starts at index `i`. -/
def strAt (block : XmlStr) (i : Nat) : Swish XmlStr :=
  if 0 ∈ block.drop i then .ok (cstr (block.drop i)) else .error (.fault .outOfBounds)

/-! ## Characters that are ignored -/

/-- The bytes that may not start or end a word. -/
def isIgnoreAscii (c : XmlChar) : Bool := c = 0 || isspace c || iscntrl c || ispunct c

def isIgnoreStartAscii (c : XmlChar) : Bool := isIgnoreAscii c

def isIgnoreEndAscii (c : XmlChar) : Bool := isIgnoreAscii c

/-- The apostrophe and the underscore belong to words. -/
def isIgnoreWordAscii (c : XmlChar) : Bool :=
  if c = 39 then false else if c = 95 then false else isIgnoreAscii c

/-- A table `make_ascii_tables` fills: 128 entries, of which it leaves the last one 0. -/
def asciiTable (ignore : XmlChar → Bool) (c : XmlChar) : Swish Bool :=
  if c < 128 then .ok (c < 127 && !ignore c) else .error (.fault .outOfBounds)

def asciiWordTable (c : XmlChar) : Swish Bool := asciiTable isIgnoreWordAscii c

def asciiStartTable (c : XmlChar) : Swish Bool := asciiTable isIgnoreStartAscii c

def asciiEndTable (c : XmlChar) : Swish Bool := asciiTable isIgnoreEndAscii c

section Utf8Chars

variable (loc : Locale)

/-- The code points that may not start or end a word. -/
def isIgnoreUtf8 (cp : Nat) : Bool :=
  cp = 0 || loc.iswspace cp || loc.iswcntrl cp || loc.iswpunct cp

def isIgnoreStartUtf8 (cp : Nat) : Bool := isIgnoreUtf8 loc cp

def isIgnoreEndUtf8 (cp : Nat) : Bool := isIgnoreUtf8 loc cp

def isIgnoreWordUtf8 (cp : Nat) : Bool :=
  if cp = 39 then false else if cp = 95 then false else isIgnoreUtf8 loc cp

end Utf8Chars

/-! ## Characters of several bytes -/

/-- `isutf`: the byte starts a character. -/
def isutf (c : XmlChar) : Bool := !isCont c

/-- How far `u8_inc` goes from the first byte of a text. -/
def u8Span (s : XmlStr) : Nat := 1 + ((s.tail.takeWhile (!isutf ·)).take 3).length

/-- The characters of a text, as a walk with `u8_inc` finds them. -/
def utf8Chrs : XmlStr → List XmlStr
  | [] => []
  | b :: s => go [b] s
where
  go (chr : XmlStr) : XmlStr → List XmlStr
    | [] => [chr]
    | b :: s => if isutf b || chr.length = 4 then chr :: go [b] s else go (chr ++ [b]) s

/-- The length its first byte gives a character. -/
def xmlUTF8Size (chr : XmlStr) : Option Nat :=
  let b := chr.headD 0
  if b < 0x80 then some 1
  else if b < 0xC0 then none
  else if b < 0xE0 then some 2
  else if b < 0xF0 then some 3
  else if b < 0xF8 then some 4
  else none

/-- `swish_utf8_chr_len`. -/
def utf8ChrLen (chr : XmlStr) : Swish Nat :=
  match xmlUTF8Size chr with
  | some n => .ok n
  | none => croak [lit "Bad UTF8 string: ", chr]

/-- The code point of a character, in 32 bits. -/
def utf8Codepoint (chr : XmlStr) : Swish Nat := do
  let len ← utf8ChrLen chr
  let b (k : Nat) : Int := (chr.getD k 0).toNat
  match len with
  | 1 => pure (chr.headD 0).toNat
  | 2 => pure (toUInt ((b 0 - 192) * 64 + b 1 - 128))
  | 3 => pure (toUInt ((b 0 - 224) * 4096 + (b 1 - 128) * 64 + b 2 - 128))
  | _ => pure (toUInt ((b 0 - 240) * 262144 + (b 1 - 128) * 4096 + (b 2 - 128) * 64 + b 3 - 128))

/-- Copy `n` bytes and a NUL into the array `chr` of five bytes. -/
def loadChr (block : XmlStr) (i n : Nat) : Swish XmlStr :=
  if n < 5 ∧ i + n ≤ block.length then .ok ((block.drop i).take n)
  else .error (.fault .outOfBounds)

/-! ## Stripping -/

/-- The loop over the end: ignored bytes become NUL. -/
def stripAsciiEnd (word : XmlStr) : (i : Nat) → Swish XmlStr
  | 0 => .ok word
  | i + 1 => do
    let c ← load word i
    if ← asciiEndTable c then pure word
    else stripAsciiEnd (← store word i 0) i

/-- The loop over the start: the number of ignored bytes. -/
def stripAsciiStart : XmlStr → Swish Nat
  | [] => .error (.fault .outOfBounds)
  | c :: rest =>
    if c = 0 then .ok 0
    else do
      if ← asciiStartTable c then pure 0
      else pure ((← stripAsciiStart rest) + 1)

/-- `strip_ascii_chrs`: the word without its ignored ends, moved to the start of the block,
and its length with the NUL. -/
def stripAsciiChrs (word : XmlStr) (len : Nat) : Swish (XmlStr × Nat) := do
  let word ← stripAsciiEnd word len
  let i ← stripAsciiStart word
  let rest ← strAt word i
  pure (if i = 0 then word else rest ++ 0 :: word.drop (rest.length + 1), rest.length + 1)

section StripUtf8

variable (loc : Locale)

/-- The loop over the end, at the characters that start below index `i`; `skipped` bytes above
it continue a character.  `j` stays `len`, so `chr` grows by each character passed. -/
def stripUtf8End (len : Nat) : (i skipped : Nat) → XmlStr → Swish XmlStr
  | 0, _, token => .ok token
  | i + 1, skipped, token =>
    if isutf (token.getD i 0) || skipped = 3 then do
      let chr ← loadChr token i (len - i)
      let cp ← utf8Codepoint chr
      if isIgnoreEndUtf8 loc cp then do
        let token ← store token i 0
        stripUtf8End len i 0 token
      else pure token
    else stripUtf8End len i (skipped + 1) token

/-- The loop over the start: the index that the local pointer reaches.  `i` goes on from one
character to the next, so that the pointer moves by one byte, then by two, and so on, and
`chr` overflows at the fifth. -/
def stripUtf8Start (token : XmlStr) : (left start i : Nat) → Swish Nat
  | 0, _, _ => .error (.fault .outOfBounds)
  | left + 1, start, i => do
    if (← load token start) = 0 then pure start
    else do
      let chr ← loadChr token start i
      let cp ← utf8Codepoint chr
      if isIgnoreStartUtf8 loc cp then
        stripUtf8Start token left (start + i) (i + u8Span (token.drop (start + i + i)))
      else pure start

/-- `strip_utf8_chrs`: the caller's pointer stays where it is, and the length is that of the
string at the local one. -/
def stripUtf8Chrs (token : XmlStr) (len : Nat) : Swish (XmlStr × Nat) := do
  let token ← stripUtf8End loc len len 0 token
  let start ← stripUtf8Start loc token 5 0 (u8Span token)
  let rest ← strAt token start
  pure (token, rest.length + 1)

end StripUtf8

/-! ## The loops -/

structure TokenizeState where
  tl : TokenList
  insideToken : Bool
  token : XmlStr
  tokenLen : Nat

/-- A bumper byte skips a position. -/
def TokenizeState.bump (st : TokenizeState) (isBumper : Bool) : TokenizeState :=
  if isBumper then { st with tl := st.tl.bump } else st

/-- `SWISH_TOKENPOS_BUMPER`. -/
def tokenposBumper : XmlChar := 3

section Loops

variable (loc : Locale) (a : Analyzer) (m : Option MetaName) (context : XmlStr)

/-- Add what stripping left, unless it is too short. -/
def addStripped (st : TokenizeState) (token : XmlStr) (tokenLen : Nat) :
    Swish TokenizeState := do
  let st := { st with insideToken := false, token := token, tokenLen := tokenLen }
  if (← load token 0) ≠ 0 ∧ a.minwordlen ≤ tokenLen then
    pure { st with tl := ← tokenListAddToken st.tl token tokenLen m context }
  else pure st

/-- End a word of single bytes. -/
def endAscii (st : TokenizeState) : Swish TokenizeState := do
  let token ← store st.token st.tokenLen 0
  let (token, tokenLen) ← stripAsciiChrs token (st.tokenLen + 1)
  addStripped a m context st token tokenLen

/-- A byte that belongs to no word. -/
def ignoreAscii (st : TokenizeState) (c : XmlChar) : Swish TokenizeState :=
  if st.insideToken then do
    let st ← endAscii a m context st
    pure (st.bump (c = tokenposBumper))
  else pure (st.bump (c = tokenposBumper))

/-- A byte inside a word. -/
def appendAscii (st : TokenizeState) (c nextc : XmlChar) : Swish TokenizeState := do
  let token ← store st.token st.tokenLen c
  let st := { st with token := token, tokenLen := st.tokenLen + 1 }
  if a.maxwordlen ≤ st.tokenLen ∨ nextc = 0 then do
    let st ← endAscii a m context st
    pure (st.bump (c = tokenposBumper))
  else pure (st.bump (c = tokenposBumper))

/-- The first byte of a word.  The last byte of the text is a word as it is. -/
def startAscii (st : TokenizeState) (c nextc : XmlChar) : Swish TokenizeState := do
  let token ← store st.token 0 c
  if nextc = 0 ∧ a.minwordlen = 1 then do
    let token ← store token 1 0
    let tl ← tokenListAddToken st.tl token 2 m context
    let st : TokenizeState := ⟨tl, false, token, 2⟩
    pure (st.bump (c = tokenposBumper))
  else
    let st := { st with insideToken := true, token := token, tokenLen := 1 }
    pure (st.bump (c = tokenposBumper))

def asciiStep (st : TokenizeState) (c nextc : XmlChar) : Swish TokenizeState := do
  if ← asciiWordTable c then
    if st.insideToken then appendAscii a m context st c nextc
    else startAscii a m context st c nextc
  else ignoreAscii a m context st c

def asciiLoop : TokenizeState → XmlStr → Swish TokenizeState
  | st, [] => .ok st
  | st, b :: rest => do
    let st ← asciiStep a m context st (tolower b) (tolower (rest.headD 0))
    asciiLoop st rest

/-- `swish_tokenize_ascii`, with the work block it gets. -/
def tokenizeAscii (block : XmlStr) (tl : TokenList) (buf : XmlStr) :
    Swish (TokenList × Nat) := do
  let token ← store block 0 0
  let st ← asciiLoop a m context ⟨tl, false, token, 0⟩ (cstr buf)
  pure (st.tl, st.tl.n - tl.n)

/-- End a word of UTF-8 characters. -/
def endUtf8 (st : TokenizeState) : Swish TokenizeState := do
  let token ← store st.token (st.tokenLen + 1) 0
  let (token, tokenLen) ← stripUtf8Chrs loc token (st.tokenLen + 1)
  addStripped a m context st token tokenLen

/-- A character that belongs to no word. -/
def ignoreUtf8 (st : TokenizeState) (cp : Nat) : Swish TokenizeState :=
  if st.insideToken then do
    let st ← endUtf8 loc a m context st
    pure (st.bump (cp = tokenposBumper.toNat))
  else pure (st.bump (cp = tokenposBumper.toNat))

/-- A character inside a word; one that would make it too long is dropped. -/
def appendUtf8 (st : TokenizeState) (chr : XmlStr) (cp : Nat) (last : Bool) :
    Swish TokenizeState :=
  if a.maxwordlen < chr.length + st.tokenLen then .ok st
  else do
    let token ← storeAll st.token st.tokenLen chr
    let token ← store token (st.tokenLen + chr.length) 0
    let st := { st with token := token, tokenLen := st.tokenLen + chr.length }
    if a.maxwordlen ≤ st.tokenLen ∨ last then do
      let st ← endUtf8 loc a m context st
      pure (st.bump (cp = tokenposBumper.toNat))
    else pure (st.bump (cp = tokenposBumper.toNat))

/-- The first character of a word.  The last character of the text is a word as it is. -/
def startUtf8 (st : TokenizeState) (chr : XmlStr) (cp : Nat) (last : Bool) :
    Swish TokenizeState := do
  let token ← store st.token 0 0
  if a.maxwordlen < chr.length then
    pure { st with insideToken := true, token := token, tokenLen := 0 }
  else do
    let token ← storeAll token 0 chr
    let token ← store token chr.length 0
    if last ∧ a.minwordlen = 1 then do
      let token ← store token chr.length 0
      let tl ← tokenListAddToken st.tl token (chr.length + 1) m context
      let st : TokenizeState := ⟨tl, false, token, chr.length + 1⟩
      pure (st.bump (cp = tokenposBumper.toNat))
    else
      let st := { st with insideToken := true, token := token, tokenLen := chr.length }
      pure (st.bump (cp = tokenposBumper.toNat))

def utf8Step (st : TokenizeState) (chr : XmlStr) (last : Bool) : Swish TokenizeState := do
  let cp ← utf8Codepoint chr
  if isIgnoreWordUtf8 loc cp then ignoreUtf8 loc a m context st cp
  else if st.insideToken then appendUtf8 loc a m context st chr cp last
  else startUtf8 a m context st chr cp last

def utf8Loop : TokenizeState → List XmlStr → Swish TokenizeState
  | st, [] => .ok st
  | st, chr :: rest => do
    let st ← utf8Step loc a m context st chr rest.isEmpty
    utf8Loop st rest

/-- `swish_tokenize_utf8`, with the work block it gets. -/
def tokenizeUtf8 (block : XmlStr) (tl : TokenList) (buf : XmlStr) :
    Swish (TokenList × Nat) := do
  let bufLower ← utf8StrTolower loc (cstr buf)
  let st ← utf8Loop loc a m context ⟨tl, false, block, 0⟩ (utf8Chrs bufLower)
  pure (st.tl, st.tl.n - tl.n)

/-- `swish_tokenize`. -/
def tokenize (block : XmlStr) (tl : TokenList) (buf : XmlStr) : Swish (TokenList × Nat) :=
  if isAscii buf then tokenizeAscii a m context block tl buf
  else tokenizeUtf8 loc a m context block tl buf

end Loops

end LibSwish3
