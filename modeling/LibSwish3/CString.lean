import Mathlib.Data.List.TakeWhile
import Mathlib.Data.Nat.Digits.Defs

/-!
# Bytes, C strings and the ways a call can stop

Names follow the C source in lowerCamelCase; its `swish_` prefix is the namespace.

An `XmlStr` is the text of an `xmlChar *`, without the terminating NUL.  Buffers hold
an `XmlStr` with an explicit length, so a NUL may stand inside one; `cstr` is what a
`str*` function sees of it.

A call that does not return stops the process.  `Halt` says how: `swish_croak` with
its message, `exit` after a range error, or a step the C language leaves undefined.
The `is*` functions are those of the C locale on a single byte: in a UTF-8 locale a
byte of 128 or more is no character, so they are all false there.
-/

namespace LibSwish3

/-- A byte of a libxml2 string. -/
abbrev XmlChar := UInt8

/-- The text of an `xmlChar *`. -/
abbrev XmlStr := List XmlChar

/-- A C string literal: its characters are ASCII. -/
def lit (s : String) : XmlStr := s.toList.map fun c => c.toNat.toUInt8

/-- What a `str*` function sees of a buffer: the bytes before the first NUL. -/
def cstr (s : XmlStr) : XmlStr := s.takeWhile (· ≠ 0)

theorem cstr_append {s t : XmlStr} (hs : (0 : XmlChar) ∉ s) : cstr (s ++ 0 :: t) = s := by
  have hall : ∀ c ∈ s, decide (c ≠ 0) = true := by
    intro c hc
    simpa using fun h : c = 0 => hs (h ▸ hc)
  rw [cstr, List.takeWhile_append_of_pos hall]
  simp

theorem cstr_of_noNul {s : XmlStr} (h : (0 : XmlChar) ∉ s) : cstr s = s := by
  rw [cstr, List.takeWhile_eq_self_iff]
  intro b hb
  have hne : b ≠ 0 := by
    rintro rfl
    exact h hb
  simpa using hne

theorem zero_notMem_cstr (s : XmlStr) : (0 : XmlChar) ∉ cstr s := by
  intro h
  simpa using List.mem_takeWhile_imp h

theorem length_cstr_lt_iff {s : XmlStr} : (cstr s).length < s.length ↔ 0 ∈ s := by
  constructor
  · intro hlt
    by_contra hzero
    rw [cstr_of_noNul hzero] at hlt
    exact Nat.lt_irrefl _ hlt
  · intro hzero
    refine Nat.lt_of_le_of_ne (List.takeWhile_prefix _).length_le fun heq => ?_
    have hsame : cstr s = s := (List.takeWhile_prefix _).eq_of_length heq
    exact zero_notMem_cstr s (hsame.symm ▸ hzero)

/-- A step whose effect the C language does not define. -/
inductive Fault
  /-- A member is read through a NULL pointer. -/
  | nullDeref
  /-- A released object is read or released again. -/
  | useAfterFree
  /-- An array or an allocated block is accessed outside its bytes. -/
  | outOfBounds
  /-- A pointer names another object than the step is about. -/
  | strayPointer
  deriving DecidableEq, Repr

/-- How a call can stop the process. -/
inductive Halt
  /-- `swish_croak` writes the message and exits. -/
  | croak (msg : XmlStr)
  /-- The same from `swish_nb_add_str`, which has no buffer of the name it was given. -/
  | notNamed (msg : XmlStr)
  /-- `exit(EXIT_FAILURE)`. -/
  | exitFailure
  /-- Undefined behaviour. -/
  | fault (why : Fault)
  /-- The nesting of included files passed the bound the caller allowed. -/
  | outOfFuel
  deriving DecidableEq, Repr

/-- A call that returns or stops the process. -/
abbrev Swish := Except Halt

/-- `SWISH_CROAK`, its format already filled in piece by piece. -/
def croak {α : Type} (pieces : List XmlStr) : Swish α := .error (.croak pieces.flatten)

/-- A pointer to an object this code allocates and releases. -/
inductive CPtr (α : Type)
  | null
  | live (a : α)
  /-- The object was released and the pointer was not reset. -/
  | freed
  deriving DecidableEq, Repr

/-- Read through a pointer that is tested against NULL first. -/
def CPtr.read {α : Type} : CPtr α → Swish (Option α)
  | .null => .ok none
  | .live a => .ok (some a)
  | .freed => .error (.fault .useAfterFree)

@[simp] theorem CPtr.read_null {α : Type} : (CPtr.null : CPtr α).read = .ok none := rfl
@[simp] theorem CPtr.read_live {α : Type} (a : α) : (CPtr.live a).read = .ok (some a) := rfl
@[simp] theorem CPtr.read_freed {α : Type} :
    (CPtr.freed : CPtr α).read = .error (.fault .useAfterFree) := rfl

/-! ## Character classes -/

def isspace (c : XmlChar) : Bool := c = 32 || (9 ≤ c && c ≤ 13)

def iscntrl (c : XmlChar) : Bool := c < 32 || c = 127

def ispunct (c : XmlChar) : Bool :=
  (33 ≤ c && c ≤ 47) || (58 ≤ c && c ≤ 64) || (91 ≤ c && c ≤ 96) || (123 ≤ c && c ≤ 126)

def isdigit (c : XmlChar) : Bool := 48 ≤ c && c ≤ 57

def tolower (c : XmlChar) : XmlChar := if 65 ≤ c && c ≤ 90 then c + 32 else c

theorem toNat_tolower (c : XmlChar) :
    (tolower c).toNat = if 65 ≤ c.toNat ∧ c.toNat ≤ 90 then c.toNat + 32 else c.toNat := by
  simp only [tolower, Bool.and_eq_true, decide_eq_true_eq, UInt8.le_iff_toNat_le,
    UInt8.reduceToNat]
  split
  · rw [UInt8.toNat_add]
    simp only [UInt8.reduceToNat]
    omega
  · rfl

theorem tolower_tolower (c : XmlChar) : tolower (tolower c) = tolower c := by
  rw [← UInt8.toNat_inj, toNat_tolower (tolower c), toNat_tolower]
  by_cases h : 65 ≤ c.toNat ∧ c.toNat ≤ 90
  · rw [if_pos h, if_neg (by omega)]
  · rw [if_neg h, if_neg h]

theorem tolower_lt {c : XmlChar} (hc : c < 0x80) : tolower c < 0x80 := by
  simp only [UInt8.lt_iff_toNat_lt, UInt8.reduceToNat, toNat_tolower] at hc ⊢
  split <;> omega

/-! ## `string.c` on single-byte text -/

/-- True when the text is non-empty and every byte is below 128. -/
def isAscii (s : XmlStr) : Bool := !s.isEmpty && s.all (· < 0x80)

def asciiStrTolower (s : XmlStr) : XmlStr := s.map tolower

theorem asciiStrTolower_idem (s : XmlStr) :
    asciiStrTolower (asciiStrTolower s) = asciiStrTolower s := by
  simp [asciiStrTolower, Function.comp_def, tolower_tolower]

def strSkipWs (s : XmlStr) : XmlStr := s.dropWhile isspace

def strTrimWs (s : XmlStr) : XmlStr := (s.reverse.dropWhile isspace).reverse

def strAllWs (s : XmlStr) : Bool := s.all isspace

/-- All control bytes become spaces, but only in a string that is all ASCII. -/
def strCtrlToWs (s : XmlStr) : XmlStr :=
  if isAscii s then s.map fun c => if c < 32 then 32 else c else s

/-- `xmlStrcasecmp` found no difference: equal up to ASCII case. -/
def strCaseEq (s t : XmlStr) : Bool := s.map tolower == t.map tolower

/-! ## Numbers and flags in text -/

/-- An `int` assigned from a wider value. -/
def toInt (v : Int) : Int := v.bmod (2 ^ 32)

/-- An `unsigned int` assigned from a signed or wider value. -/
def toUInt (v : Int) : Nat := (v % 2 ^ 32).toNat

/-- The value of a run of decimal digits. -/
def digitsValue (s : XmlStr) : Nat := s.foldl (fun n c => 10 * n + (c.toNat - 48)) 0

/-- The number `strtol` reads in base 10: blanks, a sign, digits; 0 without digits.
`long` has 64 bits, so the caller still has to look at the range. -/
def strtol (s : XmlStr) : Int :=
  match strSkipWs s with
  | [] => 0
  | c :: rest =>
    if c = 45 then -(digitsValue (rest.takeWhile isdigit) : Int)
    else if c = 43 then digitsValue (rest.takeWhile isdigit)
    else digitsValue ((c :: rest).takeWhile isdigit)

/-- A numeral outside `long` exits; one outside `int` loses its upper half. -/
def stringToInt (s : XmlStr) : Swish Int :=
  let i := strtol s
  if i < -2 ^ 63 ∨ 2 ^ 63 ≤ i then .error .exitFailure else .ok (toInt i)

/-- `Y`, `y`, `1`, `on` and `ON` are true and everything else is false. -/
def stringToBoolean (s : XmlStr) : Bool :=
  match s with
  | 89 :: _ | 121 :: _ | 49 :: _ => true
  | 111 :: 110 :: _ => true
  | 79 :: 78 :: _ => true
  | _ => false

/-- Decimal digits of a natural number, most significant first. -/
def natToString (n : Nat) : XmlStr :=
  if n = 0 then [48] else (Nat.digits 10 n).reverse.map fun d => (48 + d).toUInt8

/-- `snprintf` with `%d`. -/
def intToString (v : Int) : XmlStr :=
  if v < 0 then 45 :: natToString v.natAbs else natToString v.natAbs

/-- `snprintf` with `%d` of a `boolean`. -/
def boolToString (b : Bool) : XmlStr := if b then [49] else [48]

/-! ## File names -/

def pathSep : XmlChar := 47
def extCh : XmlChar := 46

/-- `findlast`: the text up to the last byte that is in `set`, and the text from there on. -/
def findlast (str : XmlStr) (set : List XmlChar) : Option (XmlStr × XmlStr) :=
  if str.any (set.contains ·) then
    let tail := (str.reverse.takeWhile (!set.contains ·)).reverse
    let n := str.length - tail.length - 1
    some (str.take n, str.drop n)
  else none

/-- `swish_fs_get_path`: the path up to its last separator, unless that is its first byte. -/
def fsGetPath (url : XmlStr) : Option XmlStr :=
  match findlast url [pathSep] with
  | some (c :: path, _) => some (c :: path ++ [pathSep])
  | _ => none

example : fsGetPath (lit "a/b.c/d") = some (lit "a/b.c/") := by decide

/-! ## Memory -/

/-- A length as `size_t`. -/
def toSize (v : Int) : Nat := (v % 2 ^ 64).toNat

/-- `swish_xmalloc`.  No system has half of the address space. -/
def xmalloc (size : Nat) : Swish Unit :=
  if 2 ^ 63 ≤ size then
    croak [lit "Out of memory! Can't malloc ", natToString size, lit " bytes"]
  else .ok ()

theorem xmalloc_of_lt {size : Nat} (h : size < 2 ^ 63) : xmalloc size = .ok () :=
  if_neg (Nat.not_le_of_lt h)

theorem lt_of_xmalloc {size : Nat} {u : Unit} (h : xmalloc size = .ok u) : size < 2 ^ 63 := by
  by_contra hge
  rw [xmalloc, if_pos (Nat.le_of_not_lt hge)] at h
  cases h

end LibSwish3
