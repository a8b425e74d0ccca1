import LibSwish3.Lib.Runs
import LibSwish3.Numerals
import LibSwish3.ParseFh

/-!
# Reading streams and files

`swish_io_slurp_fh`, `swish_io_slurp_file_len` and `swish_io_slurp_gzfile_len` read a text into
a buffer of their own and terminate it.  In text mode `no_nulls` then makes newlines of NULs and
bumpers.  It looks for them only where `xmlStrlen` is smaller than the number of bytes read, so
that a text without a NUL keeps its bumpers.

How much a gzipped file expands to is not known.  Its reader tries a buffer three times the size
of the file, and as long as that comes back full rewinds and reads everything again into one
three times larger.  `zlib` is a parameter (`Zlib`); `Zlib.Reads` is what it does with an intact
file.

## Main definitions

* `SlurpBuffer` — a text in a buffer that has room for its terminator.
* `ioSlurpFh`, `slurpFileLen`, `slurpGzfileLen`.
* `CleanCopy`, `slurped_cleanCopy_iff` — which texts are cleaned.
* `slurpGzfileLen_eq` — a gzipped file is read to its end.
-/

namespace LibSwish3

open Runs

/-- `SWISH_MAX_FILE_LEN` -/
def Swish.maxFileLen : Int := 102400000

/-! ## The readers -/

/-- A text and the size of the buffer that holds it, the terminator being inside. -/
structure SlurpBuffer where
  text : XmlStr
  size : Nat
  terminated : text.length < size
  deriving DecidableEq

/-- `buffer[bytes_read] = '\0'`. -/
def terminate (text : XmlStr) (size : Nat) : Swish SlurpBuffer :=
  if h : text.length < size then .ok ⟨text, size, h⟩ else .error (.fault .outOfBounds)

theorem terminate_of_lt {text : XmlStr} {size : Nat} (h : text.length < size) :
    terminate text size = .ok ⟨text, size, h⟩ := dif_pos h

theorem terminate_ok {text : XmlStr} {size : Nat} {b : SlurpBuffer}
    (h : terminate text size = .ok b) : b.text = text ∧ text.length < size := by
  rw [terminate] at h
  split at h
  · cases h
    exact ⟨rfl, ‹_›⟩
  · cases h

/-- What a byte becomes in a text that is cleaned. -/
def cleanByte (c : XmlChar) : XmlChar := if c = 0 ∨ c = tokenposBumper then newline else c

/-- `no_nulls` when the caller says how many bytes it read. -/
def noNullsUpTo (buffer : XmlStr) (bytesRead : Int) : XmlStr :=
  if xmlStrlen (cstr buffer) < bytesRead then
    (buffer.take bytesRead.toNat).map cleanByte ++ buffer.drop bytesRead.toNat
  else buffer

/-- `swish_io_slurp_fh`: the buffer, and the rest of the stream. -/
def ioSlurpFh (fh : XmlStr) (flen : Nat) (binmode : Bool) : Swish (SlurpBuffer × XmlStr) := do
  let size := toSize (flen + 1)
  xmalloc size
  if size = 0 then .error (.fault .outOfBounds)
  else if fh.length < flen then
    croak [lit "did not read expected bytes: ", natToString flen, lit " expected, ",
      intToString (toInt fh.length), lit " read"]
  else
    let buffer := fh.take flen
    let text := if binmode then buffer else noNullsUpTo buffer (toInt buffer.length)
    pure (← terminate text size, fh.drop flen)

/-- `swish_io_slurp_file_len` on a file with this content, or on one that cannot be opened.  A
length above the maximum is cut to it, with a warning. -/
def slurpFileLen (strerror filename : XmlStr) (file : Option XmlStr) (flen : Int)
    (binmode : Bool) : Swish SlurpBuffer := do
  let flen := min flen Swish.maxFileLen
  let size := toSize (flen + 1)
  xmalloc size
  match file with
  | none => croak [lit "Error reading file ", filename, lit ": ", strerror]
  | some content =>
    -- for the length -1 there is no room, and no bound to what is read
    if size < min content.length (toSize flen) then .error (.fault .outOfBounds)
    else if content.length < toSize flen then
      croak [lit "did not read expected bytes: ", intToString flen, lit " expected, ",
        intToString (toInt content.length), lit " read (", strerror, lit ")"]
    else
      let buffer := content.take flen.toNat
      terminate (if binmode then buffer else noNullsUpTo buffer buffer.length) size

/-! ## Gzipped files -/

/-- The calls of `zlib`, an open file being a `σ`.  `gzread` returns the bytes, or -1. -/
structure Zlib (σ : Type) where
  gzopen : (filename : XmlStr) → Option σ
  gzread : (size : Nat) → σ → Option (XmlStr × σ)
  gzrewind : σ → σ

section Gzip

variable {σ : Type} (zlib : Zlib σ) (strerror filename : XmlStr)

/-- The loop.  `buffer` is what the last round has read: every round starts at the beginning of
the file and of the buffer, which has `bufSize` bytes. -/
def gzLoop : (fuel : Nat) → (bufSize : Nat) → σ → (buffer : XmlStr) → Swish (XmlStr × Nat)
  | 0, _, _, _ => .error .outOfFuel
  | fuel + 1, bufSize, fh, buffer =>
    match zlib.gzread bufSize fh with
    | none => croak [lit "Error reading gzipped file '", filename, lit "': ", strerror]
    | some (read, fh) =>
      if read = [] then .ok (buffer, bufSize)
      else if read.length < bufSize then .ok (read, bufSize)
      else gzLoop fuel (toUInt (bufSize * 3)) (zlib.gzrewind fh) read

/-- `swish_io_slurp_gzfile_len`: the buffer, and what becomes of `*flen`. -/
def slurpGzfileLen (fuel : Nat) (flen : Int) (binmode : Bool) : Swish (SlurpBuffer × Int) :=
  match zlib.gzopen filename with
  | none => croak [lit "Failed to open file '", filename, lit "' for read: ", strerror]
  | some fh => do
    let (buffer, bufSize) ← gzLoop zlib strerror filename fuel (toUInt (flen * 3)) fh []
    let text := if binmode then buffer else noNullsUpTo buffer buffer.length
    pure (← terminate text bufSize, buffer.length)

end Gzip

/-- What `zlib` does with an intact file that expands to `content`, `offset` being where it is:
it gives as many bytes as are asked for and left, and goes back to the beginning. -/
structure Zlib.Reads {σ : Type} (zlib : Zlib σ) (content : XmlStr) (offset : σ → Nat) :
    Prop where
  gzread : ∀ fh, ∀ size < 2 ^ 31, ∃ fh', zlib.gzread size fh =
      some ((content.drop (offset fh)).take size, fh') ∧
    offset fh' = offset fh + min size (content.length - offset fh)
  gzrewind : ∀ fh, offset (zlib.gzrewind fh) = 0

/-! ## The whole of a gzipped file -/

section Whole

variable {σ : Type} {zlib : Zlib σ} {strerror filename content : XmlStr} {offset : σ → Nat}
  {fh : σ}

/-- A round that starts at the beginning reads as much as fits. -/
theorem Zlib.Reads.gzread_start (h : zlib.Reads content offset) (hfh : offset fh = 0)
    {bufSize : Nat} (hsize : bufSize < 2 ^ 31) :
    ∃ fh', zlib.gzread bufSize fh = some (content.take bufSize, fh') := by
  obtain ⟨fh', hread, -⟩ := h.gzread fh bufSize hsize
  rw [hfh, List.drop_zero] at hread
  exact ⟨fh', hread⟩

theorem toUInt_natCast {n : Nat} (h : n < 2 ^ 32) : toUInt n = n := by
  rw [toUInt]
  omega

/-- A full buffer is not larger than the content, so that three times its size is in range, and
each round leaves less of the content out. -/
theorem gzLoop_eq (h : zlib.Reads content offset) (hlength : 3 * content.length < 2 ^ 31)
    {fuel bufSize : Nat} (hpos : 0 < bufSize) (hsize : bufSize < 2 ^ 31)
    (hfuel : content.length < bufSize + fuel) (hfh : offset fh = 0) {buffer : XmlStr}
    (hbuffer : content = [] → buffer = []) :
    ∃ size, content.length < size ∧
      gzLoop zlib strerror filename (fuel + 1) bufSize fh buffer = .ok (content, size) := by
  induction fuel generalizing bufSize fh buffer with
  | zero =>
      obtain ⟨fh', hread⟩ := h.gzread_start hfh hsize
      have hall : content.take bufSize = content := List.take_of_length_le (by omega)
      refine ⟨bufSize, by omega, ?_⟩
      rw [gzLoop, hread, hall]
      by_cases hnil : content = []
      · simp [hnil, hbuffer hnil]
      · simp only
        rw [if_neg hnil, if_pos (by omega)]
  | succ fuel ih =>
      obtain ⟨fh', hread⟩ := h.gzread_start hfh hsize
      rw [gzLoop, hread]
      simp only
      by_cases hfits : content.length < bufSize
      · have hall : content.take bufSize = content := List.take_of_length_le (by omega)
        refine ⟨bufSize, hfits, ?_⟩
        rw [hall]
        by_cases hnil : content = []
        · simp [hnil, hbuffer hnil]
        · rw [if_neg hnil, if_pos hfits]
      · have hfull : (content.take bufSize).length = bufSize := by
          rw [List.length_take]
          omega
        have hgrown : toUInt (bufSize * 3) = bufSize * 3 := by
          have hcast : ((bufSize * 3 : Nat) : Int) = (bufSize : Int) * 3 := by push_cast; ring
          rw [← hcast, toUInt_natCast (by omega)]
        rw [if_neg (by rw [← List.length_eq_zero_iff]; omega), if_neg (by omega), hgrown]
        refine ih (by omega) (by omega) (by omega) (h.gzrewind fh') ?_
        rintro rfl
        simp

/-- A gzipped file is read to its end, whatever it expands to. -/
theorem slurpGzfileLen_eq (h : zlib.Reads content offset) (hopen : zlib.gzopen filename = some fh)
    (hfh : offset fh = 0) {flen : Int} (hflen : 1 ≤ flen)
    (hbound : 9 * max flen content.length < 2 ^ 31) {fuel : Nat} (hfuel : content.length < fuel) :
    ∃ buffer, buffer.text = content ∧
      slurpGzfileLen zlib strerror filename fuel flen true = .ok (buffer, content.length) := by
  obtain ⟨fuel, rfl⟩ : ∃ k, fuel = k + 1 := ⟨fuel - 1, by omega⟩
  have hstart : toUInt (flen * 3) = (flen * 3).toNat := by
    have hlt : flen * 3 < 2 ^ 32 := by omega
    rw [toUInt, Int.emod_eq_of_lt (by omega) hlt]
  have hlength : 3 * content.length < 2 ^ 31 := by omega
  obtain ⟨size, hroom, hloop⟩ : ∃ size, content.length < size ∧
      gzLoop zlib strerror filename (fuel + 1) (flen * 3).toNat fh [] = .ok (content, size) :=
    gzLoop_eq h hlength (by omega) (by omega) (by omega) hfh fun _ => rfl
  refine ⟨⟨content, size, hroom⟩, rfl, ?_⟩
  rw [slurpGzfileLen, hopen]
  simp only
  rw [hstart, hloop, ok_bind]
  simp only [if_true]
  rw [terminate_of_lt hroom, ok_bind]
  rfl

/-- `zlib` on a file that expands to `content`, an open file being its offset. -/
def wholeFile (content : XmlStr) : Zlib Nat where
  gzopen _ := some 0
  gzread size offset :=
    some ((content.drop offset).take size, offset + min size (content.length - offset))
  gzrewind _ := 0

theorem wholeFile_reads (content : XmlStr) : (wholeFile content).Reads content id :=
  ⟨fun _ _ _ => ⟨_, rfl, rfl⟩, fun _ => rfl⟩

/-- Three bytes that were one: the first buffer comes back full. -/
theorem slurpGzfileLen_eq_abc :
    (wholeFile (lit "abc")).Reads (lit "abc") id ∧
    ∃ buffer, buffer.text = lit "abc" ∧
      slurpGzfileLen (wholeFile (lit "abc")) [] (lit "a.gz") 4 1 true = .ok (buffer, 3) :=
  ⟨wholeFile_reads _, slurpGzfileLen_eq (wholeFile_reads (lit "abc")) rfl rfl (by decide)
    (by decide) (by decide)⟩

end Whole

/-! ## Text mode -/

/-- What text mode is to give: no NUL and no bumper, a newline for each, and else the content. -/
structure CleanCopy (content buffer : XmlStr) : Prop where
  noNul : 0 ∉ buffer
  noBumper : tokenposBumper ∉ buffer
  bytes : buffer = content.map cleanByte

/-- Either there is nothing to clean, or a NUL makes `no_nulls` look at the bytes, and it reaches
all that are to be cleaned.  The number of bytes passes through an `int`. -/
def Reached (content : XmlStr) : Prop :=
  (∀ c ∈ content, cleanByte c = c) ∨
    xmlStrlen (cstr content) < toInt content.length ∧
      ∀ c ∈ content.drop (toInt content.length).toNat, cleanByte c = c

section Clean

variable {content buffer : XmlStr}

@[simp] theorem cleanByte_ne_zero (c : XmlChar) : cleanByte c ≠ 0 := by
  rw [cleanByte]
  split
  · decide
  · simp_all

@[simp] theorem cleanByte_ne_bumper (c : XmlChar) : cleanByte c ≠ tokenposBumper := by
  rw [cleanByte]
  split
  · decide
  · simp_all

theorem cleanByte_eq_iff {c : XmlChar} : cleanByte c = c ↔ c ≠ 0 ∧ c ≠ tokenposBumper := by
  rw [cleanByte]
  split
  · rename_i h
    constructor
    · rintro rfl
      revert h
      decide
    · tauto
  · tauto

theorem cleanCopy_iff : CleanCopy content buffer ↔ buffer = content.map cleanByte := by
  refine ⟨CleanCopy.bytes, ?_⟩
  rintro rfl
  exact ⟨by simp, by simp, rfl⟩

theorem map_cleanByte_eq_self_iff {s : XmlStr} :
    s.map cleanByte = s ↔ ∀ c ∈ s, cleanByte c = c := by
  have h := List.map_inj_left (f := cleanByte) (g := id) (l := s)
  rwa [List.map_id] at h

/-- The bytes from `bytesRead` on are left alone, and all bytes if the text has no NUL. -/
theorem noNullsUpTo_eq_map_iff {s : XmlStr} {bytesRead : Int} :
    noNullsUpTo s bytesRead = s.map cleanByte ↔ (∀ c ∈ s, cleanByte c = c) ∨
      xmlStrlen (cstr s) < bytesRead ∧ ∀ c ∈ s.drop bytesRead.toNat, cleanByte c = c := by
  rw [noNullsUpTo]
  by_cases hguard : xmlStrlen (cstr s) < bytesRead
  · rw [if_pos hguard]
    have hsplit : s.map cleanByte =
        (s.take bytesRead.toNat).map cleanByte ++ (s.drop bytesRead.toNat).map cleanByte := by
      rw [← List.map_append, List.take_append_drop]
    rw [hsplit, List.append_cancel_left_eq, eq_comm, map_cleanByte_eq_self_iff]
    constructor
    · exact fun hdrop => .inr ⟨hguard, hdrop⟩
    · rintro (hall | ⟨-, hdrop⟩)
      · exact fun c hc => hall c (List.mem_of_mem_drop hc)
      · exact hdrop
  · rw [if_neg hguard, eq_comm, map_cleanByte_eq_self_iff]
    exact ⟨.inl, fun h => h.resolve_right fun hread => hguard hread.1⟩

theorem length_noNullsUpTo {s : XmlStr} {bytesRead : Int} :
    (noNullsUpTo s bytesRead).length = s.length := by
  rw [noNullsUpTo]
  split
  · rw [List.length_append, List.length_map, ← List.length_append, List.take_append_drop]
  · rfl

theorem cleanCopy_noNullsUpTo_iff :
    CleanCopy content (noNullsUpTo content (toInt content.length)) ↔ Reached content := by
  rw [cleanCopy_iff, noNullsUpTo_eq_map_iff, Reached]

/-- A text of a length that an `int` holds is reached if it has a NUL or no bumper. -/
theorem reached_iff (h : content.length < 2 ^ 31) :
    Reached content ↔ (tokenposBumper ∈ content → 0 ∈ content) := by
  have hle : (cstr content).length ≤ content.length := (List.takeWhile_prefix _).length_le
  rw [Reached, xmlStrlen, toInt_of_lt h, toInt_of_lt (by omega), Int.toNat_natCast,
    List.drop_length]
  simp only [List.not_mem_nil, false_implies, implies_true, and_true, Int.ofNat_lt,
    length_cstr_lt_iff, cleanByte_eq_iff]
  constructor
  · rintro (hclean | hzero) hbumper
    · exact absurd rfl (hclean _ hbumper).2
    · exact hzero
  · intro himp
    by_cases hzero : 0 ∈ content
    · exact .inr hzero
    · refine .inl fun c hc => ⟨?_, ?_⟩
      · rintro rfl
        exact hzero hc
      · rintro rfl
        exact hzero (himp hc)

/-- Of a text that an `int` can count the parser of messages reads the same. -/
theorem noNulls_eq (h : buffer.length < 2 ^ 31) :
    noNulls buffer = noNullsUpTo buffer buffer.length := by
  have hle : (cstr buffer).length ≤ buffer.length := (List.takeWhile_prefix _).length_le
  rw [noNulls, noNullsUpTo, xmlStrlen, toInt_of_lt (by omega), Int.toNat_natCast]
  simp only [Int.ofNat_lt, List.take_length, List.drop_length, List.append_nil]
  rfl

/-- `swish_parse_fh` reads the body of a message with `swish_io_slurp_fh`. -/
theorem slurpFh_eq {fh : XmlStr} {flen : Nat} (h : flen < 2 ^ 31) :
    slurpFh fh flen = (ioSlurpFh fh flen false).map fun (buffer, fh) => (buffer.text, fh) := by
  have hsize : toSize (flen + 1) = flen + 1 := by
    unfold toSize
    omega
  have hpos : ¬ (flen : Int) < 0 := by omega
  rw [slurpFh, ioSlurpFh, if_neg hpos, hsize, xmalloc_of_lt (by omega), ok_bind,
    if_neg (Nat.succ_ne_zero flen)]
  simp only [Int.ofNat_lt, Int.toNat_natCast]
  by_cases hshort : fh.length < flen
  · rw [if_pos hshort, if_pos hshort, toInt_of_lt (by omega)]
    rfl
  · have hlength : (fh.take flen).length = flen := by
      rw [List.length_take]
      omega
    have hterm : (noNulls (fh.take flen)).length < flen + 1 := by
      rw [noNulls]
      split <;> simp [hlength]
    rw [if_neg hshort, if_neg hshort, if_neg Bool.false_ne_true, toInt_of_lt (by omega),
      ← noNulls_eq (by omega), terminate_of_lt hterm]
    rfl

/-- `buffer` is what one of the readers makes of `content` in text mode. -/
inductive Slurped : (content buffer : XmlStr) → Prop
  | fh {fh rest : XmlStr} {flen : Nat} {b : SlurpBuffer}
      (h : ioSlurpFh fh flen false = .ok (b, rest)) : Slurped (fh.take flen) b.text
  | file {strerror filename content : XmlStr} {flen : Int} {b : SlurpBuffer}
      (h : slurpFileLen strerror filename (some content) flen false = .ok b) :
      Slurped (content.take (min flen Swish.maxFileLen).toNat) b.text
  | gz {σ : Type} {zlib : Zlib σ} {strerror filename content : XmlStr} {offset : σ → Nat}
      {fh : σ} {fuel : Nat} {flen len : Int} {b : SlurpBuffer}
      (hreads : zlib.Reads content offset)
      -- a size that an `int` does not hold is refused
      (hlarge : ∀ fh, ∀ size ≥ 2 ^ 31, zlib.gzread size fh = none)
      (hopen : zlib.gzopen filename = some fh) (hfh : offset fh = 0)
      (h : slurpGzfileLen zlib strerror filename fuel flen false = .ok (b, len)) :
      Slurped content b.text

/-- What the loop ends with is all there is. -/
theorem gzLoop_ok {σ : Type} {zlib : Zlib σ} {strerror filename : XmlStr} {offset : σ → Nat}
    {fh : σ} (hreads : zlib.Reads content offset)
    (hlarge : ∀ fh, ∀ size ≥ 2 ^ 31, zlib.gzread size fh = none) (hfh : offset fh = 0)
    {fuel bufSize size : Nat} {last : XmlStr} (hlast : content = [] → last = [])
    (h : gzLoop zlib strerror filename fuel bufSize fh last = .ok (buffer, size))
    (hroom : buffer.length < size) : buffer = content ∧ content.length < 2 ^ 31 := by
  induction fuel generalizing bufSize fh last with
  | zero => cases h
  | succ fuel ih =>
      rw [gzLoop] at h
      by_cases hsize : bufSize < 2 ^ 31
      · obtain ⟨fh', hread⟩ := hreads.gzread_start hfh hsize
        rw [hread] at h
        simp only at h
        split at h
        · rename_i hnil
          cases h
          -- the buffer has room for a terminator, so that it has a byte to read
          obtain hzero | hnil := List.take_eq_nil_iff.mp hnil
          · omega
          · rw [hnil]
            exact ⟨hlast hnil, by simp⟩
        · split at h
          · rename_i hshort
            cases h
            rw [List.length_take] at hshort
            exact ⟨List.take_of_length_le (by omega), by omega⟩
          · rename_i hread _
            refine ih (hreads.gzrewind fh') ?_ h
            rintro rfl
            simp
      · rw [hlarge fh bufSize (by omega)] at h
        cases h

theorem text_ioSlurpFh {fh rest : XmlStr} {flen : Nat} {b : SlurpBuffer}
    (h : ioSlurpFh fh flen false = .ok (b, rest)) :
    b.text = noNullsUpTo (fh.take flen) (toInt (fh.take flen).length) := by
  rw [ioSlurpFh] at h
  obtain ⟨-, -, h⟩ := bind_ok_iff.mp h
  split at h
  · cases h
  · split at h
    · cases h
    · obtain ⟨b', hb, h⟩ := bind_ok_iff.mp h
      cases h
      exact (terminate_ok hb).1.trans (if_neg Bool.false_ne_true)

theorem text_slurpFileLen {strerror filename : XmlStr} {flen : Int} {b : SlurpBuffer}
    (h : slurpFileLen strerror filename (some content) flen false = .ok b) :
    b.text = noNullsUpTo (content.take (min flen Swish.maxFileLen).toNat)
      (toInt (content.take (min flen Swish.maxFileLen).toNat).length) := by
  rw [slurpFileLen] at h
  obtain ⟨-, -, h⟩ := bind_ok_iff.mp h
  have hlength : (content.take (min flen Swish.maxFileLen).toNat).length < 2 ^ 31 := by
    rw [List.length_take, Swish.maxFileLen]
    omega
  rw [toInt_of_lt hlength]
  simp only at h
  split at h
  · cases h
  · split at h
    · cases h
    · exact (terminate_ok h).1.trans (if_neg Bool.false_ne_true)

theorem text_slurpGzfileLen {σ : Type} {zlib : Zlib σ} {strerror filename : XmlStr}
    {offset : σ → Nat} {fh : σ} {fuel : Nat} {flen len : Int} {b : SlurpBuffer}
    (hreads : zlib.Reads content offset)
    (hlarge : ∀ fh, ∀ size ≥ 2 ^ 31, zlib.gzread size fh = none)
    (hopen : zlib.gzopen filename = some fh) (hfh : offset fh = 0)
    (h : slurpGzfileLen zlib strerror filename fuel flen false = .ok (b, len)) :
    b.text = noNullsUpTo content (toInt content.length) := by
  rw [slurpGzfileLen, hopen] at h
  obtain ⟨⟨read, bufSize⟩, hloop, h⟩ := bind_ok_iff.mp h
  obtain ⟨b', hb, h⟩ := bind_ok_iff.mp h
  cases h
  obtain ⟨htext, hroom⟩ := terminate_ok hb
  simp only [Bool.false_eq_true, if_false, length_noNullsUpTo] at htext hroom
  obtain ⟨rfl, hlength⟩ := gzLoop_ok hreads hlarge hfh (fun _ => rfl) hloop hroom
  rw [htext, toInt_of_lt hlength]

/-- Every reader hands the number of the bytes that it has read to `no_nulls`. -/
theorem Slurped.eq (h : Slurped content buffer) :
    buffer = noNullsUpTo content (toInt content.length) := by
  cases h with
  | fh h => exact text_ioSlurpFh h
  | file h => exact text_slurpFileLen h
  | gz hreads hlarge hopen hfh h => exact text_slurpGzfileLen hreads hlarge hopen hfh h

/-- A text read in text mode is clean if and only if `no_nulls` reaches what is to be cleaned. -/
theorem slurped_cleanCopy_iff (h : Slurped content buffer) :
    CleanCopy content buffer ↔ Reached content := by
  rw [h.eq, cleanCopy_noNullsUpTo_iff]

end Clean

/-- A NUL in front of the bumper, or behind it, makes newlines of both. -/
theorem slurped_cleanCopy_iff_nul :
    Slurped [97, 3, 0] [97, 10, 10] ∧ (CleanCopy [97, 3, 0] [97, 10, 10] ↔ Reached [97, 3, 0]) := by
  have h : slurpFileLen [] (lit "a.txt") (some [97, 3, 0]) 3 false =
      .ok ⟨[97, 10, 10], 4, by decide⟩ := by decide
  exact ⟨.file h, slurped_cleanCopy_iff (.file h)⟩

/-- Without a NUL the bumper stays, in a file of three bytes. -/
theorem slurped_not_cleanCopy :
    ¬ ∀ content buffer, Slurped content buffer → CleanCopy content buffer := by
  intro hall
  have h : slurpFileLen [] (lit "a.txt") (some [97, 3, 98]) 3 false =
      .ok ⟨[97, 3, 98], 4, by decide⟩ := by decide
  exact (hall _ _ (.file h)).noBumper (by decide)

end LibSwish3
