import LibSwish3.Lib.Digits
import LibSwish3.Numerals
import LibSwish3.Utf8Chars

/-!
# Escaped text

`swish_str_escape_utf8` writes UTF-8 text in ASCII, a character that is not printable as a
backslash and a letter, or as its code in hexadecimal digits; `swish_str_unescape_utf8` reads
that.  Behind `\u` and `\U` all the digits that are read are written.  Behind `\x` up to two are
read, and only one is written for a small code: such a character takes a digit that stands behind
it (`reread`).

An index that `snprintf` writes is below the size it is given, so that the escapes stay within
the ten bytes for each character, or are cut.

## Main definitions

* `strEscapeUtf8`, `strUnescapeUtf8`.
* `reread` — the characters that come back.
* `EscapesApart`, `escapesBack_iff` — when they are the same.
-/

namespace LibSwish3

open Digits Runs

/-! ## Escaping -/

/-- `xmlUTF8Strlen`: the number of characters, or none for -1. -/
def xmlUTF8Strlen : XmlStr → Option Nat
  | [] => some 0
  | a :: s =>
    if a < 0x80 then (· + 1) <$> xmlUTF8Strlen s
    else match s with
      | [] => none
      | b :: s =>
        if !isCont b then none
        else if a < 0xE0 then (· + 1) <$> xmlUTF8Strlen s
        else match s with
          | [] => none
          | c :: s =>
            if !isCont c then none
            else if a < 0xF0 then (· + 1) <$> xmlUTF8Strlen s
            else match s with
              | [] => none
              | d :: s => if 0xF8 ≤ a ∨ !isCont d then none else (· + 1) <$> xmlUTF8Strlen s

/-- `swish_utf8_num_chrs` -/
def utf8NumChrs (utf8 : XmlStr) : Swish Int :=
  match xmlUTF8Strlen utf8 with
  | none => croak [lit "Bad UTF8 string: ", utf8]
  | some n => .ok (toInt n)

def offsetsFromUTF8 : List Nat := [0, 0x3080, 0xE2080, 0x3C82080, 0xFA082080, 0x82082080]

/-- `u8_nextchar`: the bytes up to the next that starts a character, and what is behind them. -/
def u8Nextchar (s : XmlStr) : Swish (Nat × XmlStr) :=
  let bytes := s.take 1 ++ (s.drop 1).takeWhile fun b => !isutf b
  let ch := bytes.foldl (fun ch b => (ch * 64 + b.toNat) % 2 ^ 32) 0
  match offsetsFromUTF8[bytes.length - 1]? with
  | none => .error (.fault .outOfBounds)
  | some offset => .ok ((ch + 2 ^ 32 - offset) % 2 ^ 32, s.drop bytes.length)

/-- The digits that `printf` writes in hexadecimal. -/
def hexDigit (d : Nat) : XmlChar := if d < 10 then (48 + d).toUInt8 else (55 + d).toUInt8

/-- The text that `u8_escape_wchar` gives to `snprintf`. -/
def u8EscapeWchar (ch : Nat) : XmlStr :=
  if ch = 10 then lit "\\n"
  else if ch = 9 then lit "\\t"
  else if ch = 13 then lit "\\r"
  else if ch = 8 then lit "\\b"
  else if ch = 12 then lit "\\f"
  else if ch = 11 then lit "\\v"
  else if ch = 7 then lit "\\a"
  else if ch = 92 then lit "\\\\"
  else if ch < 32 ∨ ch = 0x7F then lit "\\x" ++ paddedDigits 16 hexDigit 1 (ch % 256)
  else if 0xFFFF < ch then lit "\\U" ++ paddedDigits 16 hexDigit 8 ch
  else if 0x80 ≤ ch then lit "\\u" ++ paddedDigits 16 hexDigit 4 (ch % 65536)
  else [ch.toUInt8]

/-- A buffer: the bytes in front of its terminator, and the indices that have been written. -/
structure EscapeBuffer where
  text : XmlStr
  writes : List Nat

/-- `snprintf` at the index `c` of a buffer of `sz` bytes: the text is cut to leave room for its
terminator. -/
def snprintf (sz c : Nat) (buf : EscapeBuffer) (text : XmlStr) : EscapeBuffer :=
  let out := text.take (sz - c - 1)
  ⟨buf.text ++ out, buf.writes ++ List.range' c (out.length + 1)⟩

/-- The loop of `u8_escape`, which counts the bytes that were cut.  Every round reads a byte, so
that the length of the text bounds their number. -/
def u8EscapeLoop (sz : Nat) : (fuel : Nat) → (c : Nat) → EscapeBuffer → XmlStr →
    Swish (Nat × EscapeBuffer)
  | 0, _, _, _ => .error .outOfFuel
  | fuel + 1, c, buf, src =>
    if src = [] ∨ sz ≤ c then .ok (c, buf)
    else do
      let (ch, src) ← u8Nextchar src
      let escaped := u8EscapeWchar ch
      u8EscapeLoop sz fuel (c + escaped.length) (snprintf sz c buf escaped) src

/-- `u8_escape`, where quotes are not escaped. -/
def u8Escape (sz : Nat) (src : XmlStr) : Swish EscapeBuffer := do
  let (c, buf) ← u8EscapeLoop sz (src.length + 1) 0 ⟨[], []⟩ src
  pure (if c < sz then { buf with writes := buf.writes ++ [c] } else buf)

/-- `swish_str_escape_utf8`: the number of bytes that are allocated, and what is in them. -/
def strEscapeUtf8 (u8str : XmlStr) : Swish (Nat × EscapeBuffer) := do
  let u8chrs ← utf8NumChrs u8str
  let escLen := toInt (10 * u8chrs + 1)
  xmalloc (toSize escLen)
  pure (toSize escLen, ← u8Escape escLen.toNat u8str)

/-! ## Unescaping -/

def octalDigit (c : XmlChar) : Bool := 48 ≤ c && c ≤ 55

def isHexDigit (c : XmlChar) : Bool :=
  (48 ≤ c && c ≤ 57) || (65 ≤ c && c ≤ 70) || (97 ≤ c && c ≤ 102)

/-- The value of a digit, as `strtol` takes it. -/
def digitValue (c : XmlChar) : Nat :=
  if c ≤ 57 then c.toNat - 48 else if c ≤ 70 then c.toNat - 55 else c.toNat - 87

/-- A `char`, which is signed, as `uint32_t`. -/
def charToUInt (c : XmlChar) : Nat := if c < 0x80 then c.toNat else 2 ^ 32 - 256 + c.toNat

/-- At most `k` hexadecimal digits behind a letter; the letter stands for itself without. -/
def readHex (k : Nat) (letter : XmlChar) (str : XmlStr) : Nat × Nat :=
  let digs := leadingDigits isHexDigit k str
  (if digs = [] then charToUInt letter else valueOf 16 digitValue digs, 1 + digs.length)

/-- `u8_read_escape_sequence`: the character and the number of bytes, which is 1 at the
terminator. -/
def u8ReadEscapeSequence (str : XmlStr) : Nat × Nat :=
  match str with
  | [] => (0, 1)
  | c :: rest =>
    if c = 110 then (10, 1)
    else if c = 116 then (9, 1)
    else if c = 114 then (13, 1)
    else if c = 98 then (8, 1)
    else if c = 102 then (12, 1)
    else if c = 118 then (11, 1)
    else if c = 97 then (7, 1)
    else if octalDigit c then
      let digs := leadingDigits octalDigit 3 str
      (valueOf 8 digitValue digs, digs.length)
    else if c = 120 then readHex 2 c rest
    else if c = 117 then readHex 4 c rest
    else if c = 85 then readHex 8 c rest
    else (charToUInt c, 1)

/-- `u8_wc_toutf8`, which writes nothing for a number that is too large. -/
def u8WcToutf8 (ch : Nat) : XmlStr := if ch < 0x110000 then encodeChar ch else []

/-- One round of `u8_unescape`: the character, and what is behind it. -/
def unescapeNext (b : XmlChar) (src : XmlStr) : Swish (Nat × XmlStr) :=
  if b = 92 then
    let (ch, amt) := u8ReadEscapeSequence src
    if src.length < amt then .error (.fault .outOfBounds) else .ok (ch, src.drop amt)
  else .ok (charToUInt b, src)

/-- The loop of `u8_unescape`, with the same bound. -/
def u8UnescapeLoop (sz : Nat) : (fuel : Nat) → (buf : XmlStr) → (src : XmlStr) → Swish XmlStr
  | 0, _, _ => .error .outOfFuel
  | _ + 1, buf, [] => .ok buf
  | fuel + 1, buf, b :: src =>
    if sz ≤ buf.length then .ok buf
    else do
      let (ch, src) ← unescapeNext b src
      let temp := u8WcToutf8 ch
      if sz - buf.length < temp.length then .ok buf
      else u8UnescapeLoop sz fuel (buf ++ temp) src

/-- `swish_str_unescape_utf8`, whose result is read up to its first NUL. -/
def strUnescapeUtf8 (ascii : XmlStr) : Swish XmlStr := do
  let sz := toInt (toInt ascii.length + 1)
  xmalloc (toSize sz)
  let buf ← u8UnescapeLoop sz.toNat (ascii.length + 1) [] ascii
  -- without room for a terminator none is written
  if buf.length < sz then pure (cstr buf) else .error (.fault .outOfBounds)

/-! ## Reading the characters -/

section Read

variable {c : Nat} {ws : List Nat} {s : XmlStr}

/-- The count goes over a character, whatever stands behind it. -/
theorem xmlUTF8Strlen_encodeChar_append (hc : isScalar c) (s : XmlStr) :
    xmlUTF8Strlen (encodeChar c ++ s) = (· + 1) <$> xmlUTF8Strlen s := by
  refine encodeChar_cases (P := fun t => xmlUTF8Strlen (t ++ s) = (· + 1) <$> xmlUTF8Strlen s)
    hc ?one ?two ?three ?four
  case one =>
    intro h
    have hb := toNat_toUInt8_of_lt (n := c) (by omega)
    rw [List.singleton_append, xmlUTF8Strlen.eq_def]
    simp only [UInt8.lt_iff_toNat_lt, hb, UInt8.reduceToNat, if_pos h]
  case two =>
    intro q hq d hd h2 _
    have hb := toNat_toUInt8_of_lt (n := 0xC0 + q) (by omega)
    simp only [List.cons_append, List.nil_append]
    rw [xmlUTF8Strlen.eq_def]
    simp only [UInt8.lt_iff_toNat_lt, hb, UInt8.reduceToNat, isCont_rest hd, Bool.not_true,
      Bool.false_eq_true, if_false]
    rw [if_neg (by omega), if_pos (by omega)]
  case three =>
    intro q hq d hd e he _ _
    have hb := toNat_toUInt8_of_lt (n := 0xE0 + q) (by omega)
    simp only [List.cons_append, List.nil_append]
    rw [xmlUTF8Strlen.eq_def]
    simp only [UInt8.lt_iff_toNat_lt, hb, UInt8.reduceToNat, isCont_rest hd, isCont_rest he,
      Bool.not_true, Bool.false_eq_true, if_false]
    rw [if_neg (by omega), if_neg (by omega), if_pos (by omega)]
  case four =>
    intro q hq d hd e he f hf _ _
    have hb := toNat_toUInt8_of_lt (n := 0xF0 + q) (by omega)
    simp only [List.cons_append, List.nil_append]
    rw [xmlUTF8Strlen.eq_def]
    simp only [UInt8.lt_iff_toNat_lt, UInt8.le_iff_toNat_le, hb, UInt8.reduceToNat,
      isCont_rest hd, isCont_rest he, isCont_rest hf, Bool.not_true, Bool.false_eq_true, if_false,
      or_false]
    rw [if_neg (by omega), if_neg (by omega), if_neg (by omega), if_neg (by omega)]

theorem xmlUTF8Strlen_flatMap (hws : ∀ c ∈ ws, isScalar c) :
    xmlUTF8Strlen (ws.flatMap encodeChar) = some ws.length := by
  induction ws with
  | nil => rfl
  | cons c ws ih =>
      rw [List.flatMap_cons, xmlUTF8Strlen_encodeChar_append (hws c (by simp)),
        ih fun d hd => hws d (by simp [hd])]
      rfl

/-- The bytes of a character, six bits from each, less the bits that mark them. -/
theorem exists_offset_encodeChar (hc : isScalar c) :
    ∃ offset, offsetsFromUTF8[(encodeChar c).length - 1]? = some offset ∧
      ((encodeChar c).foldl (fun ch b => (ch * 64 + b.toNat) % 2 ^ 32) 0 + 2 ^ 32 - offset) %
        2 ^ 32 = c := by
  refine encodeChar_cases (P := fun t => ∃ offset,
    offsetsFromUTF8[t.length - 1]? = some offset ∧
    (t.foldl (fun ch b => (ch * 64 + b.toNat) % 2 ^ 32) 0 + 2 ^ 32 - offset) % 2 ^ 32 = c)
    hc ?one ?two ?three ?four
  case one =>
    intro h
    have hb := toNat_toUInt8_of_lt (n := c) (by omega)
    refine ⟨0, rfl, ?_⟩
    simp only [List.foldl_cons, List.foldl_nil, hb]
    omega
  case two =>
    intro q hq d hd _ h
    have hb := toNat_toUInt8_of_lt (n := 0xC0 + q) (by omega)
    have hd' := toNat_toUInt8_of_lt (n := 0x80 + d) (by omega)
    refine ⟨0x3080, rfl, ?_⟩
    simp only [List.foldl_cons, List.foldl_nil, hb, hd']
    omega
  case three =>
    intro q hq d hd e he _ h
    have hb := toNat_toUInt8_of_lt (n := 0xE0 + q) (by omega)
    have hd' := toNat_toUInt8_of_lt (n := 0x80 + d) (by omega)
    have he' := toNat_toUInt8_of_lt (n := 0x80 + e) (by omega)
    refine ⟨0xE2080, rfl, ?_⟩
    simp only [List.foldl_cons, List.foldl_nil, hb, hd', he']
    omega
  case four =>
    intro q hq d hd e he f hf _ h
    have hb := toNat_toUInt8_of_lt (n := 0xF0 + q) (by omega)
    have hd' := toNat_toUInt8_of_lt (n := 0x80 + d) (by omega)
    have he' := toNat_toUInt8_of_lt (n := 0x80 + e) (by omega)
    have hf' := toNat_toUInt8_of_lt (n := 0x80 + f) (by omega)
    refine ⟨0x3C82080, rfl, ?_⟩
    simp only [List.foldl_cons, List.foldl_nil, hb, hd', he', hf']
    omega

/-- The bytes of a character are read up to the next that starts one. -/
theorem u8Nextchar_encodeChar_append (hc : isScalar c) (hs : ∀ b ∈ s.head?, isutf b) :
    u8Nextchar (encodeChar c ++ s) = .ok (c, s) := by
  have hstop : s.takeWhile (fun b => !isutf b) = [] := by
    cases s with
    | nil => rfl
    | cons b s => exact List.takeWhile_cons_of_neg (by simp [hs b (by simp)])
  obtain ⟨b, rest, heq, -, hrest, hlen⟩ := encodeChar_eq_cons hc
  have hbytes : (encodeChar c ++ s).take 1 ++
      ((encodeChar c ++ s).drop 1).takeWhile (fun b => !isutf b) = encodeChar c := by
    rw [heq, List.cons_append, List.drop_succ_cons, List.drop_zero,
      List.takeWhile_append_of_pos (by simpa using hrest), hstop]
    simp
  rw [u8Nextchar, hbytes]
  simp only [List.drop_left]
  obtain ⟨offset, hoffset, hvalue⟩ := exists_offset_encodeChar hc
  rw [hoffset]
  simp only [hvalue]

/-- Behind a character another starts, or the text ends. -/
theorem isutf_head_flatMap (hws : ∀ c ∈ ws, isScalar c) :
    ∀ b ∈ (ws.flatMap encodeChar).head?, isutf b := by
  cases ws with
  | nil => simp
  | cons c ws =>
      obtain ⟨b, rest, heq, hb, -⟩ := encodeChar_eq_cons (hws c (by simp))
      simp [List.flatMap_cons, heq, hb]

end Read

/-! ## The escaped text -/

section Escape

variable {c sz fuel : Nat} {ws : List Nat} {s : XmlStr} {buf : EscapeBuffer}

/-- The text that is written for a list of characters. -/
def escapeAll (ws : List Nat) : XmlStr := ws.flatMap u8EscapeWchar

@[simp] theorem escapeAll_nil : escapeAll [] = [] := rfl

theorem escapeAll_cons (c : Nat) (ws : List Nat) :
    escapeAll (c :: ws) = u8EscapeWchar c ++ escapeAll ws := rfl

/-- The characters that have a letter. -/
def escapeLetters : List (XmlChar × Nat) :=
  [(110, 10), (116, 9), (114, 13), (98, 8), (102, 12), (118, 11), (97, 7), (92, 92)]

/-- A character that has a letter is written with it. -/
theorem escapeLetter_cases {P : Nat → XmlStr → Prop} {text : XmlStr} (letter : XmlChar) (k : Nat)
    (hmem : (letter, k) ∈ escapeLetters)
    (named : ∀ letter, (letter, c) ∈ escapeLetters → P c [92, letter])
    (other : c ≠ k → P c text) : P c (if c = k then [92, letter] else text) := by
  by_cases hc : c = k
  · rw [if_pos hc]
    exact named letter (hc ▸ hmem)
  · rw [if_neg hc]
    exact other hc

/-- The forms of an escape. -/
theorem u8EscapeWchar_cases {P : Nat → XmlStr → Prop} (hc : c < 2 ^ 32)
    (named : ∀ letter, (letter, c) ∈ escapeLetters → P c [92, letter])
    (byte : c < 7 ∨ 14 ≤ c ∧ c < 32 ∨ c = 127 → P c (lit "\\x" ++ paddedDigits 16 hexDigit 1 c))
    (short : 0x80 ≤ c → c < 2 ^ 16 → P c (lit "\\u" ++ paddedDigits 16 hexDigit 4 c))
    (long : 2 ^ 16 ≤ c → P c (lit "\\U" ++ paddedDigits 16 hexDigit 8 c))
    (plain : 32 ≤ c → c < 127 → c ≠ 92 → P c [c.toUInt8]) : P c (u8EscapeWchar c) := by
  rw [u8EscapeWchar]
  refine escapeLetter_cases 110 10 (by decide) named fun h₁ => ?_
  refine escapeLetter_cases 116 9 (by decide) named fun h₂ => ?_
  refine escapeLetter_cases 114 13 (by decide) named fun h₃ => ?_
  refine escapeLetter_cases 98 8 (by decide) named fun h₄ => ?_
  refine escapeLetter_cases 102 12 (by decide) named fun h₅ => ?_
  refine escapeLetter_cases 118 11 (by decide) named fun h₆ => ?_
  refine escapeLetter_cases 97 7 (by decide) named fun h₇ => ?_
  refine escapeLetter_cases 92 92 (by decide) named fun h₈ => ?_
  by_cases h₉ : c < 32 ∨ c = 0x7F
  · rw [if_pos h₉, Nat.mod_eq_of_lt (by omega)]
    exact byte (by omega)
  rw [if_neg h₉]
  by_cases h₁₀ : 0xFFFF < c
  · rw [if_pos h₁₀]
    exact long (by omega)
  rw [if_neg h₁₀]
  by_cases h₁₁ : 0x80 ≤ c
  · rw [if_pos h₁₁, Nat.mod_eq_of_lt (by omega)]
    exact short h₁₁ (by omega)
  · rw [if_neg h₁₁]
    exact plain (by omega) (by omega) h₈

theorem length_u8EscapeWchar (hc : isScalar c) :
    (encodeChar c).length ≤ (u8EscapeWchar c).length ∧ (u8EscapeWchar c).length ≤ 10 := by
  have hlt := lt_of_isScalar hc
  refine u8EscapeWchar_cases
    (P := fun c t => (encodeChar c).length ≤ t.length ∧ t.length ≤ 10) (by omega)
    ?named ?byte ?short ?long ?plain
  case named =>
    intro letter hletter
    have hlow : ∀ p ∈ escapeLetters, p.2 < 0x80 := by decide
    rw [encodeChar, if_pos (hlow _ hletter)]
    simp
  case byte =>
    intro h
    have hdigits : (Nat.digits 16 c).length ≤ 2 :=
      (Nat.digits_length_le_iff (by omega) c).mpr (by omega)
    rw [encodeChar, if_pos (by omega)]
    rw [List.length_append, length_paddedDigits, List.length_singleton]
    simp only [show (lit "\\x").length = 2 by decide]
    omega
  case short =>
    intro h₁ h₂
    have hle := (length_encodeChar hc).2
    rw [List.length_append, length_paddedDigits_of_lt (by omega) (by omega)]
    simp only [show (lit "\\u").length = 2 by decide]
    omega
  case long =>
    intro h
    have hle := (length_encodeChar hc).2
    rw [List.length_append, length_paddedDigits_of_lt (by omega) (by omega)]
    simp only [show (lit "\\U").length = 2 by decide]
    omega
  case plain =>
    intro h₁ h₂ h₃
    rw [encodeChar, if_pos (by omega)]
    simp

theorem length_escapeAll_le (hws : ∀ c ∈ ws, isScalar c) :
    (escapeAll ws).length ≤ 10 * ws.length := by
  induction ws with
  | nil => rfl
  | cons c ws ih =>
      have hc := (length_u8EscapeWchar (hws c (by simp))).2
      have hrest := ih fun d hd => hws d (by simp [hd])
      rw [escapeAll_cons, List.length_append, List.length_cons]
      omega

/-- `snprintf` stays below the size it is given. -/
theorem snprintf_writes_lt {text : XmlStr} {n : Nat} (hn : n < sz)
    (hw : ∀ i ∈ buf.writes, i < sz) : ∀ i ∈ (snprintf sz n buf text).writes, i < sz := by
  intro i hi
  rcases List.mem_append.mp hi with hi | hi
  · exact hw i hi
  · rw [List.mem_range'_1, List.length_take] at hi
    omega

/-- Whatever is escaped, nothing is written outside the buffer. -/
theorem u8EscapeLoop_writes_lt {n n' : Nat} {buf' : EscapeBuffer}
    (h : u8EscapeLoop sz fuel n buf s = .ok (n', buf')) (hw : ∀ i ∈ buf.writes, i < sz) :
    ∀ i ∈ buf'.writes, i < sz := by
  induction fuel generalizing n buf s with
  | zero => cases h
  | succ fuel ih =>
      rw [u8EscapeLoop] at h
      split at h
      · cases h
        exact hw
      · obtain ⟨⟨ch, src⟩, -, h⟩ := bind_ok_iff.mp h
        exact ih h (snprintf_writes_lt (by omega) hw)

theorem u8Escape_writes_lt (h : u8Escape sz s = .ok buf) : ∀ i ∈ buf.writes, i < sz := by
  obtain ⟨⟨n, buf'⟩, hloop, h⟩ := bind_ok_iff.mp h
  have hw := u8EscapeLoop_writes_lt hloop (by simp)
  cases h
  split
  · intro i hi
    rcases List.mem_append.mp hi with hi | hi
    · exact hw i hi
    · rwa [List.mem_singleton.mp hi]
  · exact hw

/-- Where there is room for all escapes they are written one behind the other. -/
theorem u8EscapeLoop_flatMap (hws : ∀ c ∈ ws, isScalar c)
    (hfuel : (ws.flatMap encodeChar).length < fuel) {n : Nat}
    (hroom : n + (escapeAll ws).length < sz) :
    ∃ buf', u8EscapeLoop sz fuel n buf (ws.flatMap encodeChar) =
      .ok (n + (escapeAll ws).length, buf') ∧ buf'.text = buf.text ++ escapeAll ws := by
  induction ws generalizing fuel n buf with
  | nil =>
      obtain ⟨fuel, rfl⟩ : ∃ k, fuel = k + 1 := ⟨fuel - 1, by omega⟩
      exact ⟨buf, by simp [u8EscapeLoop], by simp⟩
  | cons c ws ih =>
      have hc := hws c (by simp)
      have hlength := (length_encodeChar hc).1
      rw [escapeAll_cons, List.length_append] at hroom
      rw [List.flatMap_cons, List.length_append] at hfuel
      obtain ⟨fuel, rfl⟩ : ∃ k, fuel = k + 1 := ⟨fuel - 1, by omega⟩
      have hne : encodeChar c ++ ws.flatMap encodeChar ≠ [] := by
        simp [encodeChar_ne_nil hc]
      have hwhole : (u8EscapeWchar c).take (sz - n - 1) = u8EscapeWchar c :=
        List.take_of_length_le (by omega)
      have hrest : ∀ d ∈ ws, isScalar d := fun d hd => hws d (by simp [hd])
      obtain ⟨buf', hloop, htext⟩ : ∃ buf', u8EscapeLoop sz fuel (n + (u8EscapeWchar c).length)
          (snprintf sz n buf (u8EscapeWchar c)) (ws.flatMap encodeChar) =
            .ok (n + (u8EscapeWchar c).length + (escapeAll ws).length, buf') ∧
          buf'.text = (snprintf sz n buf (u8EscapeWchar c)).text ++ escapeAll ws :=
        ih hrest (by omega) (by omega)
      refine ⟨buf', ?_, ?_⟩
      · rw [List.flatMap_cons, u8EscapeLoop, if_neg (by simp [hne]; omega),
          u8Nextchar_encodeChar_append hc (isutf_head_flatMap hrest), ok_bind]
        simp only
        rw [hloop, escapeAll_cons, List.length_append, Nat.add_assoc]
      · rw [htext, snprintf, hwhole, escapeAll_cons, List.append_assoc]

end Escape

/-! ## Reading it back -/

section Unescape

variable {c d sz fuel : Nat} {ws : List Nat} {s t buf : XmlStr}

/-- A character that is written with one digit, and a digit behind it. -/
def TakesDigit (c d : Nat) : Prop :=
  (c < 7 ∨ c = 14 ∨ c = 15) ∧ d < 0x80 ∧ isHexDigit d.toUInt8

instance (c d : Nat) : Decidable (TakesDigit c d) := inferInstanceAs (Decidable (_ ∧ _))

/-- The characters that come back. -/
def reread : List Nat → List Nat
  | [] => []
  | [c] => [c]
  | c :: d :: ws =>
    if TakesDigit c d then (16 * c + digitValue d.toUInt8) :: reread ws else c :: reread (d :: ws)

theorem digitValue_hexDigit : ∀ d < 16, digitValue (hexDigit d) = d := by decide

theorem isHexDigit_hexDigit : ∀ d < 16, isHexDigit (hexDigit d) = true := by decide

theorem isHexDigit_of_mem_paddedDigits {prec n : Nat} :
    ∀ b ∈ paddedDigits 16 hexDigit prec n, isHexDigit b = true := by
  intro b hb
  obtain ⟨d, hd, rfl⟩ := exists_of_mem_paddedDigits (by omega) hb
  exact isHexDigit_hexDigit d hd

/-- The digits behind a letter are read to their end. -/
theorem readHex_paddedDigits {k prec n : Nat} (letter : XmlChar) (hpos : 0 < prec)
    (hk : (paddedDigits 16 hexDigit prec n).length ≤ k)
    (hend : (paddedDigits 16 hexDigit prec n).length = k ∨ ∀ b ∈ t.head?, isHexDigit b = false) :
    readHex k letter (paddedDigits 16 hexDigit prec n ++ t) =
      (n, 1 + (paddedDigits 16 hexDigit prec n).length) := by
  have hne : paddedDigits 16 hexDigit prec n ≠ [] := by
    rw [← List.length_pos_iff, length_paddedDigits]
    omega
  rw [readHex, leadingDigits_append isHexDigit_of_mem_paddedDigits hk hend]
  simp only [if_neg hne]
  rw [valueOf_paddedDigits (by omega) digitValue_hexDigit]

/-- The round of a backslash, behind which `amt` bytes are read. -/
theorem unescapeNext_backslash {amt : Nat} (h : u8ReadEscapeSequence (s ++ t) = (c, amt))
    (hamt : amt = s.length) : unescapeNext 92 (s ++ t) = .ok (c, t) := by
  rw [unescapeNext, if_pos rfl, h]
  simp only
  rw [hamt, if_neg (by simp), List.drop_left]

theorem u8ReadEscapeSequence_letter (t : XmlStr) :
    ∀ p ∈ escapeLetters, u8ReadEscapeSequence (p.1 :: t) = (p.2, 1) := by
  simp [escapeLetters, u8ReadEscapeSequence, octalDigit, charToUInt]

/-- The letters in front of hexadecimal digits. -/
theorem u8ReadEscapeSequence_hex (t : XmlStr) :
    u8ReadEscapeSequence (120 :: t) = readHex 2 120 t ∧
    u8ReadEscapeSequence (117 :: t) = readHex 4 117 t ∧
    u8ReadEscapeSequence (85 :: t) = readHex 8 85 t := by
  simp [u8ReadEscapeSequence, octalDigit]

/-- A letter and a numeral are read back if the numeral is as long as may be or nothing behind it
is taken for a digit. -/
theorem unescapeNext_paddedDigits {letter : XmlChar} {k prec : Nat}
    (hletter : ∀ t, u8ReadEscapeSequence (letter :: t) = readHex k letter t) (hpos : 0 < prec)
    (hk : (paddedDigits 16 hexDigit prec c).length ≤ k)
    (hend : (paddedDigits 16 hexDigit prec c).length = k ∨ ∀ b ∈ t.head?, isHexDigit b = false) :
    unescapeNext 92 ((letter :: paddedDigits 16 hexDigit prec c) ++ t) = .ok (c, t) := by
  have hread : u8ReadEscapeSequence ((letter :: paddedDigits 16 hexDigit prec c) ++ t) =
      (c, 1 + (paddedDigits 16 hexDigit prec c).length) := by
    rw [List.cons_append, hletter, readHex_paddedDigits letter hpos hk hend]
  exact unescapeNext_backslash hread (by rw [List.length_cons]; omega)

/-- An escape is read back unless it has one digit where two are read. -/
theorem unescapeNext_u8EscapeWchar (hc : isScalar c)
    (ht : (c < 7 ∨ c = 14 ∨ c = 15) → ∀ b ∈ t.head?, isHexDigit b = false) :
    ∃ b s, u8EscapeWchar c = b :: s ∧ unescapeNext b (s ++ t) = .ok (c, t) := by
  have hlt := lt_of_isScalar hc
  refine u8EscapeWchar_cases (P := fun c text =>
    ((c < 7 ∨ c = 14 ∨ c = 15) → ∀ b ∈ t.head?, isHexDigit b = false) →
    ∃ b s, text = b :: s ∧ unescapeNext b (s ++ t) = .ok (c, t)) (by omega)
    ?named ?byte ?short ?long ?plain ht
  case named =>
    intro letter hletter _
    exact ⟨92, [letter], rfl,
      unescapeNext_backslash (u8ReadEscapeSequence_letter t _ hletter) rfl⟩
  case byte =>
    intro h ht
    have hlen : (paddedDigits 16 hexDigit 1 c).length = max 1 (Nat.digits 16 c).length :=
      length_paddedDigits
    have hone := Nat.digits_length_le_iff (b := 16) (k := 1) (by omega) c
    have htwo := Nat.digits_length_le_iff (b := 16) (k := 2) (by omega) c
    refine ⟨92, 120 :: paddedDigits 16 hexDigit 1 c, rfl,
      unescapeNext_paddedDigits (fun t => (u8ReadEscapeSequence_hex t).1) (by omega) (by omega) ?_⟩
    by_cases hsmall : c < 16
    · exact .inr (ht (by omega))
    · exact .inl (by omega)
  case short =>
    intro h₁ h₂ _
    have hlen : (paddedDigits 16 hexDigit 4 c).length = 4 := length_paddedDigits_of_lt (by omega) h₂
    exact ⟨92, 117 :: paddedDigits 16 hexDigit 4 c, rfl,
      unescapeNext_paddedDigits (fun t => (u8ReadEscapeSequence_hex t).2.1) (by omega) hlen.le
        (.inl hlen)⟩
  case long =>
    intro h _
    have hlen : (paddedDigits 16 hexDigit 8 c).length = 8 :=
      length_paddedDigits_of_lt (by omega) (by omega)
    exact ⟨92, 85 :: paddedDigits 16 hexDigit 8 c, rfl,
      unescapeNext_paddedDigits (fun t => (u8ReadEscapeSequence_hex t).2.2) (by omega) hlen.le
        (.inl hlen)⟩
  case plain =>
    intro h₁ h₂ h₃ _
    have hb := toNat_toUInt8_of_lt (n := c) (by omega)
    refine ⟨c.toUInt8, [], rfl, ?_⟩
    have hne : c.toUInt8 ≠ 92 := by
      intro heq
      rw [heq] at hb
      exact h₃ hb.symm
    rw [unescapeNext, if_neg hne, charToUInt, if_pos, hb]
    · rfl
    · rw [UInt8.lt_iff_toNat_lt, hb]
      exact h₂.trans (by decide)

/-- Only a digit is written as a digit. -/
theorem isHexDigit_head_escapeAll (hd : isScalar d) (h : ¬ (d < 0x80 ∧ isHexDigit d.toUInt8)) :
    ∀ b ∈ (escapeAll (d :: ws)).head?, isHexDigit b = false := by
  have hlt := lt_of_isScalar hd
  rw [escapeAll_cons]
  have hbackslash : ∀ s : XmlStr, ∀ b ∈ (92 :: s).head?, isHexDigit b = false := by
    intro s b hb
    cases hb
    decide
  refine u8EscapeWchar_cases (P := fun d text => ¬ (d < 0x80 ∧ isHexDigit d.toUInt8) →
    ∀ b ∈ (text ++ escapeAll ws).head?, isHexDigit b = false) (by omega)
    (fun _ _ _ => hbackslash _) (fun _ _ => hbackslash _) (fun _ _ _ => hbackslash _)
    (fun _ _ => hbackslash _) ?_ h
  intro _ hlow _ h b hb
  cases hb
  simpa using fun hhex => h ⟨by omega, hhex⟩

/-- A digit is written as it is, and a small code with one digit. -/
theorem escapeAll_of_takesDigit (h : TakesDigit c d) :
    escapeAll (c :: d :: ws) = 92 :: 120 :: hexDigit c :: d.toUInt8 :: escapeAll ws := by
  obtain ⟨hc, hd, hhex⟩ := h
  have hb := toNat_toUInt8_of_lt (n := d) (by omega)
  simp only [isHexDigit, Bool.or_eq_true, Bool.and_eq_true, decide_eq_true_eq,
    UInt8.le_iff_toNat_le, hb, UInt8.reduceToNat] at hhex
  have hdigit : u8EscapeWchar d = [d.toUInt8] := by
    rw [u8EscapeWchar]
    repeat rw [if_neg (by omega)]
  have hsmall : ∀ c < 16, c < 7 ∨ c = 14 ∨ c = 15 → u8EscapeWchar c = [92, 120, hexDigit c] := by
    decide
  rw [escapeAll_cons, escapeAll_cons, hdigit, hsmall c (by omega) hc]
  rfl

theorem digitValue_lt {b : XmlChar} (h : isHexDigit b) : digitValue b < 16 := by
  simp only [isHexDigit, Bool.or_eq_true, Bool.and_eq_true, decide_eq_true_eq,
    UInt8.le_iff_toNat_le, UInt8.reduceToNat] at h
  simp only [digitValue, UInt8.le_iff_toNat_le, UInt8.reduceToNat]
  split_ifs <;> omega

theorem takesDigit_lt (h : TakesDigit c d) : 16 * c + digitValue d.toUInt8 < 256 := by
  have := digitValue_lt h.2.2
  have := h.1
  omega

/-- One digit is written and two are read. -/
theorem unescapeNext_takesDigit (h : TakesDigit c d) (t : XmlStr) :
    unescapeNext 92 (120 :: hexDigit c :: d.toUInt8 :: t) =
      .ok (16 * c + digitValue d.toUInt8, t) := by
  have hc : c < 16 := by
    have := h.1
    omega
  have hread : readHex 2 120 ([hexDigit c, d.toUInt8] ++ t) =
      (16 * c + digitValue d.toUInt8, 3) := by
    have hlead : leadingDigits isHexDigit 2 ([hexDigit c, d.toUInt8] ++ t) =
        [hexDigit c, d.toUInt8] :=
      leadingDigits_append (by simp [isHexDigit_hexDigit c hc, h.2.2]) le_rfl (.inl rfl)
    rw [readHex, hlead]
    simp [valueOf, digitValue_hexDigit c hc]
  refine unescapeNext_backslash (s := [120, hexDigit c, d.toUInt8]) ?_ rfl
  exact ((u8ReadEscapeSequence_hex _).1).trans hread

/-- A round for which there is room. -/
theorem u8UnescapeLoop_step {b : XmlChar} (hnext : unescapeNext b s = .ok (c, t))
    (hc : isScalar c) (hroom : buf.length + (encodeChar c).length < sz) :
    u8UnescapeLoop sz (fuel + 1) buf (b :: s) =
      u8UnescapeLoop sz fuel (buf ++ encodeChar c) t := by
  rw [u8UnescapeLoop, if_neg (by omega), hnext, ok_bind]
  simp only [u8WcToutf8, if_pos (lt_of_isScalar hc)]
  rw [if_neg (by omega)]

/-- The round of a character behind which no digit is taken. -/
theorem u8UnescapeLoop_cons (hc : isScalar c)
    (ht : (c < 7 ∨ c = 14 ∨ c = 15) → ∀ b ∈ (escapeAll ws).head?, isHexDigit b = false)
    (hroom : buf.length + (escapeAll (c :: ws)).length < sz) :
    u8UnescapeLoop sz (fuel + 1) buf (escapeAll (c :: ws)) =
      u8UnescapeLoop sz fuel (buf ++ encodeChar c) (escapeAll ws) := by
  obtain ⟨b, s, heq, hnext⟩ := unescapeNext_u8EscapeWchar hc ht
  have hle := (length_u8EscapeWchar hc).1
  rw [escapeAll_cons, List.length_append] at hroom
  rw [escapeAll_cons, heq, List.cons_append, u8UnescapeLoop_step hnext hc (by omega)]

theorem isScalar_of_lt {n : Nat} (h : n < 256) : isScalar n = true := by
  simp only [isScalar, Bool.or_eq_true, decide_eq_true_eq]
  omega

theorem length_encodeChar_of_lt {n : Nat} (h : n < 256) : (encodeChar n).length ≤ 2 := by
  rw [encodeChar]
  split
  · simp
  · rw [if_pos (by omega)]
    simp

/-- What is read back of escapes, in a buffer with room for the escapes themselves. -/
theorem u8UnescapeLoop_escapeAll (hws : ∀ c ∈ ws, isScalar c)
    (hfuel : (escapeAll ws).length < fuel) (hroom : buf.length + (escapeAll ws).length < sz) :
    u8UnescapeLoop sz fuel buf (escapeAll ws) = .ok (buf ++ (reread ws).flatMap encodeChar) := by
  obtain ⟨fuel, rfl⟩ : ∃ k, fuel = k + 1 := ⟨fuel - 1, by omega⟩
  induction ws using reread.induct generalizing fuel buf with
  | case1 => simp [u8UnescapeLoop, reread]
  | case2 c =>
      have hc := hws c (by simp)
      have hlen := (length_encodeChar hc).1
      have hle := (length_u8EscapeWchar hc).1
      have hlength : (escapeAll [c]).length = (u8EscapeWchar c).length := by simp [escapeAll]
      obtain ⟨fuel, rfl⟩ : ∃ k, fuel = k + 1 := ⟨fuel - 1, by omega⟩
      rw [u8UnescapeLoop_cons hc (by simp) hroom]
      simp [u8UnescapeLoop, reread]
  | case3 c d ws htakes ih =>
      have hnext := unescapeNext_takesDigit htakes (escapeAll ws)
      have hscalar := isScalar_of_lt (takesDigit_lt htakes)
      have hshort := length_encodeChar_of_lt (takesDigit_lt htakes)
      rw [escapeAll_of_takesDigit htakes] at hfuel hroom ⊢
      simp only [List.length_cons] at hfuel hroom
      obtain ⟨fuel, rfl⟩ : ∃ k, fuel = k + 1 := ⟨fuel - 1, by omega⟩
      rw [u8UnescapeLoop_step hnext hscalar (by omega),
        ih (fun e he => hws e (by simp [he])) (by rw [List.length_append]; omega) _ (by omega),
        reread, if_pos htakes, List.flatMap_cons, List.append_assoc]
  | case4 c d ws hkeeps ih =>
      have hc := hws c (by simp)
      have hd := hws d (by simp)
      have hlen := (length_encodeChar hc).1
      have hle := (length_u8EscapeWchar hc).1
      have hbehind : (c < 7 ∨ c = 14 ∨ c = 15) →
          ∀ b ∈ (escapeAll (d :: ws)).head?, isHexDigit b = false :=
        fun hsmall => isHexDigit_head_escapeAll hd fun hhex => hkeeps ⟨hsmall, hhex⟩
      have hlength : (escapeAll (c :: d :: ws)).length =
          (u8EscapeWchar c).length + (escapeAll (d :: ws)).length := by
        rw [escapeAll_cons, List.length_append]
      obtain ⟨fuel, rfl⟩ : ∃ k, fuel = k + 1 := ⟨fuel - 1, by omega⟩
      rw [u8UnescapeLoop_cons hc hbehind hroom,
        ih (fun e he => hws e (List.mem_cons_of_mem _ he)) (by rw [List.length_append]; omega) _
          (by omega),
        reread, if_neg hkeeps, List.flatMap_cons, List.append_assoc]

/-! ## The same characters -/

theorem length_reread_le : (reread ws).length ≤ ws.length := by
  induction ws using reread.induct with
  | case1 => simp [reread]
  | case2 c => simp [reread]
  | case3 c d ws htakes ih =>
      rw [reread, if_pos htakes]
      simp only [List.length_cons]
      omega
  | case4 c d ws hkeeps ih =>
      rw [reread, if_neg hkeeps]
      simp only [List.length_cons] at ih ⊢
      omega

/-- No escape is shorter than its character. -/
theorem length_flatMap_reread_le (hws : ∀ c ∈ ws, isScalar c) :
    ((reread ws).flatMap encodeChar).length ≤ (escapeAll ws).length := by
  induction ws using reread.induct with
  | case1 => simp [reread]
  | case2 c =>
      have hle := (length_u8EscapeWchar (hws c (by simp))).1
      simpa [reread, escapeAll] using hle
  | case3 c d ws htakes ih =>
      have hshort := length_encodeChar_of_lt (takesDigit_lt htakes)
      have hrest := ih fun e he => hws e (by simp [he])
      rw [reread, if_pos htakes, escapeAll_of_takesDigit htakes, List.flatMap_cons,
        List.length_append]
      simp only [List.length_cons]
      omega
  | case4 c d ws hkeeps ih =>
      have hle := (length_u8EscapeWchar (hws c (by simp))).1
      have hrest := ih fun e he => hws e (List.mem_cons_of_mem _ he)
      rw [reread, if_neg hkeeps, escapeAll_cons, List.flatMap_cons, List.length_append,
        List.length_append]
      omega

theorem isScalar_reread (hws : ∀ c ∈ ws, isScalar c ∧ c ≠ 0) :
    ∀ c ∈ reread ws, isScalar c ∧ c ≠ 0 := by
  induction ws using reread.induct with
  | case1 => exact hws
  | case2 c => exact hws
  | case3 c d ws htakes ih =>
      rw [reread, if_pos htakes, List.forall_mem_cons]
      have hne := (hws c (by simp)).2
      exact ⟨⟨isScalar_of_lt (takesDigit_lt htakes), by omega⟩,
        ih fun e he => hws e (by simp [he])⟩
  | case4 c d ws hkeeps ih =>
      rw [reread, if_neg hkeeps, List.forall_mem_cons]
      exact ⟨hws c (by simp), ih fun e he => hws e (List.mem_cons_of_mem _ he)⟩

/-- No character that is written with one digit stands in front of a digit. -/
def EscapesApart (ws : List Nat) : Prop := ws.IsChain fun c d => ¬ TakesDigit c d

/-- A character that takes a digit leaves fewer characters. -/
theorem reread_eq_self_iff : reread ws = ws ↔ EscapesApart ws := by
  induction ws using reread.induct with
  | case1 => simp [reread, EscapesApart]
  | case2 c => simp [reread, EscapesApart]
  | case3 c d ws htakes ih =>
      rw [reread, if_pos htakes, EscapesApart, List.isChain_cons_cons]
      refine iff_of_false ?_ fun h => h.1 htakes
      intro heq
      have hle : (reread ws).length ≤ ws.length := length_reread_le
      have hlength := congrArg List.length heq
      simp only [List.length_cons] at hlength
      omega
  | case4 c d ws hkeeps ih =>
      rw [reread, if_neg hkeeps, List.cons_inj_right, ih, EscapesApart, EscapesApart,
        List.isChain_cons_cons]
      exact (and_iff_right hkeeps).symm

end Unescape

/-! ## There and back -/

section RoundTrip

variable {n : Nat} {ws : List Nat} {s : XmlStr} {buf : EscapeBuffer}

/-- What escaping is to do for a text of so many characters: ten bytes and a terminator are
allocated for each, nothing is written outside, and unescaping gives the text. -/
def EscapesBack (s : XmlStr) (chars : Nat) : Prop :=
  ∃ buf, strEscapeUtf8 s = .ok (10 * chars + 1, buf) ∧
    (∀ i ∈ buf.writes, i < 10 * chars + 1) ∧ strUnescapeUtf8 buf.text = .ok s

theorem utf8NumChrs_of_mbstowcs (h : mbstowcs s = some ws) :
    utf8NumChrs s = .ok (toInt ws.length) := by
  rw [utf8NumChrs, ← flatMap_encodeChar_of_mbstowcs h,
    xmlUTF8Strlen_flatMap (isScalar_of_mbstowcs h)]

theorem toSize_natCast (h : n < 2 ^ 64) : toSize n = n := by
  unfold toSize
  omega

/-- The escapes fit into what is allocated if that passes through an `int`. -/
theorem strEscapeUtf8_of_mbstowcs (h : mbstowcs s = some ws) (hlen : 10 * ws.length + 1 < 2 ^ 31) :
    ∃ buf, strEscapeUtf8 s = .ok (10 * ws.length + 1, buf) ∧ buf.text = escapeAll ws ∧
      ∀ i ∈ buf.writes, i < 10 * ws.length + 1 := by
  have hws := isScalar_of_mbstowcs h
  have hle := length_escapeAll_le hws
  have hesc : toInt (10 * toInt ws.length + 1) = ((10 * ws.length + 1 : Nat) : Int) := by
    rw [toInt_of_lt (by omega), ← toInt_of_lt hlen]
    push_cast
    rfl
  obtain ⟨buf, hloop, htext⟩ : ∃ buf, u8EscapeLoop (10 * ws.length + 1)
      ((ws.flatMap encodeChar).length + 1) 0 ⟨[], []⟩ (ws.flatMap encodeChar) =
        .ok (0 + (escapeAll ws).length, buf) ∧ buf.text = [] ++ escapeAll ws :=
    u8EscapeLoop_flatMap hws (by omega) (by omega)
  have hescape : u8Escape (10 * ws.length + 1) s =
      .ok { buf with writes := buf.writes ++ [(escapeAll ws).length] } := by
    rw [← flatMap_encodeChar_of_mbstowcs h, u8Escape, hloop, ok_bind]
    simp only [Nat.zero_add]
    rw [if_pos (by omega)]
    rfl
  refine ⟨{ buf with writes := buf.writes ++ [(escapeAll ws).length] }, ?_, htext,
    u8Escape_writes_lt hescape⟩
  rw [strEscapeUtf8, utf8NumChrs_of_mbstowcs h, ok_bind]
  simp only
  rw [hesc, toSize_natCast (by omega), xmalloc_of_lt (by omega), ok_bind, Int.toNat_natCast,
    hescape]
  rfl

/-- A length that an `int` does not hold is not allocated. -/
theorem strEscapeUtf8_size (h : strEscapeUtf8 s = .ok (n, buf)) : n < 2 ^ 31 := by
  obtain ⟨u8chrs, -, h⟩ := bind_ok_iff.mp h
  obtain ⟨u, hmalloc, h⟩ := bind_ok_iff.mp h
  obtain ⟨buf', -, h⟩ := bind_ok_iff.mp h
  cases h
  obtain ⟨hmin, hmax⟩ := isInt_toInt (10 * u8chrs + 1)
  have hsize := lt_of_xmalloc hmalloc
  unfold toSize at hsize ⊢
  omega

theorem strUnescapeUtf8_escapeAll (hws : ∀ c ∈ ws, isScalar c ∧ c ≠ 0)
    (hlen : 10 * ws.length + 1 < 2 ^ 31) :
    strUnescapeUtf8 (escapeAll ws) = .ok ((reread ws).flatMap encodeChar) := by
  have hscalar : ∀ c ∈ ws, isScalar c := fun c hc => (hws c hc).1
  have hle := length_escapeAll_le hscalar
  have hsz : toInt (toInt (escapeAll ws).length + 1) = ((escapeAll ws).length + 1 : Nat) := by
    rw [toInt_of_lt (by omega), ← Nat.cast_succ, toInt_of_lt (by omega)]
  have hloop : u8UnescapeLoop ((escapeAll ws).length + 1) ((escapeAll ws).length + 1) []
      (escapeAll ws) = .ok ((reread ws).flatMap encodeChar) :=
    u8UnescapeLoop_escapeAll hscalar (by omega) (by simp)
  have hshort : ((reread ws).flatMap encodeChar).length < (escapeAll ws).length + 1 :=
    Nat.lt_succ_of_le (length_flatMap_reread_le hscalar)
  rw [strUnescapeUtf8, hsz, toSize_natCast (by omega), xmalloc_of_lt (by omega), ok_bind,
    Int.toNat_natCast, hloop, ok_bind, if_pos (by exact_mod_cast hshort),
    cstr_of_noNul (zero_notMem_flatMap_encodeChar (isScalar_reread hws))]
  rfl

/-- **Escaped text comes back as it was if and only if its escapes have room and no character
that is written with one digit stands in front of a digit.** -/
theorem escapesBack_iff (h : mbstowcs s = some ws) (hnul : 0 ∉ s) :
    EscapesBack s ws.length ↔ 10 * ws.length + 1 < 2 ^ 31 ∧ EscapesApart ws := by
  have hcount : s.count 0 = ws.count 0 := count_of_mbstowcs (by decide) h
  rw [List.count_eq_zero_of_not_mem hnul, eq_comm, List.count_eq_zero] at hcount
  have hws : ∀ c ∈ ws, isScalar c ∧ c ≠ 0 :=
    fun c hc => ⟨isScalar_of_mbstowcs h c hc, ne_of_mem_of_not_mem hc hcount⟩
  have hback : (reread ws).flatMap encodeChar = s ↔ reread ws = ws := by
    constructor
    · intro heq
      have hdecoded := mbstowcs_flatMap fun c hc => (isScalar_reread hws c hc).1
      rw [heq, h] at hdecoded
      exact (Option.some.inj hdecoded).symm
    · intro heq
      rw [heq, flatMap_encodeChar_of_mbstowcs h]
  constructor
  · rintro ⟨buf, hescape, -, hunescape⟩
    have hlen := strEscapeUtf8_size hescape
    obtain ⟨buf', hescape', htext, -⟩ := strEscapeUtf8_of_mbstowcs h hlen
    cases hescape.symm.trans hescape'
    rw [htext, strUnescapeUtf8_escapeAll hws hlen, Except.ok.injEq, hback] at hunescape
    exact ⟨hlen, reread_eq_self_iff.mp hunescape⟩
  · rintro ⟨hlen, hapart⟩
    obtain ⟨buf, hescape, htext, hwrites⟩ := strEscapeUtf8_of_mbstowcs h hlen
    refine ⟨buf, hescape, hwrites, ?_⟩
    rw [htext, strUnescapeUtf8_escapeAll hws hlen, hback.mpr (reread_eq_self_iff.mpr hapart)]

/-- Two characters, of which the second is a letter and no digit. -/
theorem escapesBack_iff_letter :
    EscapesBack [1, 71] 2 ↔ 10 * 2 + 1 < 2 ^ 31 ∧ EscapesApart [1, 71] := by
  have h : mbstowcs [1, 71] = some [1, 71] := by decide
  exact escapesBack_iff h (by decide)

/-- The code 1 in front of an `A` comes back as the code 26. -/
theorem not_escapesBack_digit :
    ¬ ∀ s ws, mbstowcs s = some ws → 0 ∉ s → EscapesBack s ws.length := by
  intro hall
  have h : mbstowcs [1, 65] = some [1, 65] := by decide
  obtain ⟨buf, hescape, -, hunescape⟩ := hall _ _ h (by decide)
  obtain ⟨buf', hescape', htext, -⟩ := strEscapeUtf8_of_mbstowcs h (by decide)
  cases hescape.symm.trans hescape'
  rw [htext, strUnescapeUtf8_escapeAll (by decide) (by decide)] at hunescape
  exact absurd hunescape (by decide)

end RoundTrip

end LibSwish3
