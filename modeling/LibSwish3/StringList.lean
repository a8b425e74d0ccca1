import LibSwish3.CString
import Mathlib.Data.List.TakeWhile

/-!
# Word lists in configuration text

`getword` reads one word of a line, quoted or bare, into an array of `SWISH_MAX_WORD_LEN + 1` bytes.
When the word has grown longer than that it warns, and goes on writing.  The length is tested behind
the write.  `swish_stringlist_build` reads words until it meets an empty one.

The word lists are the values; how many slots their arrays have is not modelled here.

## Main definitions

* `lineWord`, `lineWords` — the next word, and the words of a line.
* `getwordWrites` — the indices that a call of `getword` writes.
* `getword`, `stringlistBuild` — they have a result where the words fit.
-/

namespace LibSwish3

/-! ## The words of a line -/

/-- The scan of `getword` behind the opening quote.  `quote` is the quote character, none
for a bare word; `backslash` says that a backslash is pending; `word` is what `buf` holds. -/
def lineWordScan (quote : Option XmlChar) : (backslash : Bool) → (word s : XmlStr) →
    XmlStr × XmlStr
  | backslash, word, [] => (if backslash then word ++ [92] else word, [])
  | backslash, word, uc :: s =>
    -- a backslash is special inside quotes only
    if uc = 92 ∧ !backslash ∧ quote.isSome then lineWordScan quote true word s
    else if uc = 10 ∨ uc = 13 then (if backslash then word ++ [92] else word, s)
    else if !backslash ∧ (some uc = quote ∨ quote.isNone ∧ isspace uc) then (word, s)
    else lineWordScan quote false (word ++ [uc]) s

/-- The next word of a line and the text behind it; the empty word at the end. -/
def lineWord (s : XmlStr) : XmlStr × XmlStr :=
  match strSkipWs s with
  | [] => ([], [])
  | c :: rest =>
    if c = 34 ∨ c = 39 then lineWordScan (some c) false [] rest
    else lineWordScan none false [] (c :: rest)

/-- The words up to an empty one; `fuel` bounds the number of calls. -/
def lineWordsFrom : (fuel : Nat) → XmlStr → List XmlStr
  | 0, _ => []
  | fuel + 1, line =>
    match lineWord line with
    | ([], _) => []
    | (c :: word, rest) => (c :: word) :: lineWordsFrom fuel rest

/-- The words of a line, which ends at its first newline.  Each word takes at least one byte. -/
def lineWords (line : XmlStr) : List XmlStr :=
  let line := line.takeWhile (· ≠ 10)
  lineWordsFrom (line.length + 1) line

theorem isspace_newline {c : XmlChar} (h : c = 10 ∨ c = 13) : isspace c = true := by
  rcases h with rfl | rfl <;> rfl

/-! ## The array of `getword` -/

/-- `SWISH_MAX_WORD_LEN` -/
def Swish.maxWordLen : Nat := 256

/-- The indices that the scan writes, `cur` being the next one.  The last is the terminator's. -/
def getwordScanWrites (quote : Option XmlChar) : (backslash : Bool) → (cur : Nat) → XmlStr →
    List Nat
  | backslash, cur, [] => if backslash then [cur, cur + 1] else [cur]
  | backslash, cur, uc :: s =>
    if uc = 92 ∧ !backslash ∧ quote.isSome then getwordScanWrites quote true cur s
    else if uc = 10 ∨ uc = 13 then if backslash then [cur, cur + 1] else [cur]
    else if !backslash ∧ (some uc = quote ∨ quote.isNone ∧ isspace uc) then [cur]
    else cur :: getwordScanWrites quote false (cur + 1) s

/-- The indices that `getword` writes.  At the end of the line it writes nothing. -/
def getwordWrites (s : XmlStr) : List Nat :=
  match strSkipWs s with
  | [] => []
  | c :: rest =>
    if c = 34 ∨ c = 39 then getwordScanWrites (some c) false 0 rest
    else getwordScanWrites none false 0 (c :: rest)

/-- `getword`: the next word and the rest of the line. -/
def getword (s : XmlStr) : Swish (XmlStr × XmlStr) :=
  if ∀ i ∈ getwordWrites s, i ≤ Swish.maxWordLen then .ok (lineWord s)
  else .error (.fault .outOfBounds)

/-- Collect words until an empty one; `fuel` bounds the number of `getword` calls. -/
def stringlistWords : (fuel : Nat) → XmlStr → Swish (List XmlStr)
  | 0, _ => .ok []
  | fuel + 1, line => do
    let (word, rest) ← getword line
    if word.isEmpty then pure [] else pure (word :: (← stringlistWords fuel rest))

/-- `swish_stringlist_build`: the line ends at its first newline, and each word takes at least one
byte of it. -/
def stringlistBuild (line : XmlStr) : Swish (List XmlStr) :=
  let line := line.takeWhile (· ≠ 10)
  stringlistWords (line.length + 1) line

example : lineWords (lit "foo \"a b\" 'c\\'d' e\\f") =
    [lit "foo", lit "a b", lit "c'd", lit "e\\f"] := by decide

end LibSwish3
