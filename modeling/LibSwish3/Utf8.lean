import LibSwish3.CString

/-!
# Wide characters and the locale

`mbstowcs` and `wcstombs` under a UTF-8 locale, over code points as natural numbers,
and the parts of `string.c` and `utf8.c` that work on characters of several bytes.

What the C library reads from the locale's tables is a parameter: `Locale` holds
`towlower` and the `isw*` classes.  `Locale.AsciiAgrees` says that they extend the
single-byte functions, `Locale.Lowers` that lowering a character gives a character that
lowering leaves alone, and `Locale.LowersToLetters` that it gives no control character that
was not there.

## Main definitions

* `mbstowcs`, `wcstombs` — UTF-8 text to code points and back.
* `Locale` — the character tables.
* `strTolower` — `swish_str_tolower`.
-/

namespace LibSwish3

/-! ## UTF-8 -/

/-- A byte that continues a character. -/
def isCont (b : XmlChar) : Bool := 0x80 ≤ b && b ≤ 0xBF

/-- A code point that UTF-8 encodes. -/
def isScalar (c : Nat) : Bool := c < 0xD800 || (0xE000 ≤ c && c < 0x110000)

/-- Decode UTF-8 text from inside a character: `need` of its bytes are still to come,
`acc` holds the bits read so far, and a code point below `least` was encoded too long. -/
def mbstowcsFrom : (need acc least : Nat) → XmlStr → Option (List Nat)
  | 0, _, _, [] => some []
  | _ + 1, _, _, [] => none
  | 0, _, _, b :: s =>
    if b < 0x80 then (b.toNat :: ·) <$> mbstowcsFrom 0 0 0 s
    else if b < 0xC2 then none
    else if b < 0xE0 then mbstowcsFrom 1 (b.toNat - 0xC0) 0x80 s
    else if b < 0xF0 then mbstowcsFrom 2 (b.toNat - 0xE0) 0x800 s
    else if b < 0xF8 then mbstowcsFrom 3 (b.toNat - 0xF0) 0x10000 s
    else none
  | need + 1, acc, least, b :: s =>
    let c := acc * 64 + (b.toNat - 0x80)
    if !isCont b then none
    else if 0 < need then mbstowcsFrom need c least s
    else if least ≤ c && isScalar c then (c :: ·) <$> mbstowcsFrom 0 0 0 s
    else none

/-- Decode UTF-8 text; none where it is malformed. -/
def mbstowcs (s : XmlStr) : Option (List Nat) := mbstowcsFrom 0 0 0 s

/-- The bytes of one character. -/
def encodeChar (c : Nat) : XmlStr :=
  if c < 0x80 then [c.toUInt8]
  else if c < 0x800 then [(0xC0 + c / 64).toUInt8, (0x80 + c % 64).toUInt8]
  else if c < 0x10000 then
    [(0xE0 + c / 4096).toUInt8, (0x80 + c / 64 % 64).toUInt8, (0x80 + c % 64).toUInt8]
  else
    [(0xF0 + c / 262144).toUInt8, (0x80 + c / 4096 % 64).toUInt8,
      (0x80 + c / 64 % 64).toUInt8, (0x80 + c % 64).toUInt8]

/-- Encode code points; none where one of them has no encoding. -/
def wcstombs (ws : List Nat) : Option XmlStr :=
  if ws.all isScalar then some (ws.flatMap encodeChar) else none

theorem toNat_toUInt8_of_lt {n : Nat} (h : n < 256) : n.toUInt8.toNat = n := by
  simp [Nat.mod_eq_of_lt h]

theorem lt_of_isScalar {c : Nat} (hc : isScalar c) : c < 0x110000 := by
  simp only [isScalar, Bool.or_eq_true, decide_eq_true_eq, Bool.and_eq_true] at hc
  omega

/-- The bytes of a character: the first holds its highest bits, each other one six. -/
theorem encodeChar_cases {P : XmlStr → Prop} {c : Nat} (hc : isScalar c)
    (one : c < 0x80 → P [c.toUInt8])
    (two : ∀ q < 32, ∀ d < 64, 2 ≤ q → c = q * 64 + d →
      P [(0xC0 + q).toUInt8, (0x80 + d).toUInt8])
    (three : ∀ q < 16, ∀ d < 64, ∀ e < 64, 0x800 ≤ c → c = (q * 64 + d) * 64 + e →
      P [(0xE0 + q).toUInt8, (0x80 + d).toUInt8, (0x80 + e).toUInt8])
    (four : ∀ q < 8, ∀ d < 64, ∀ e < 64, ∀ f < 64, 0x10000 ≤ c →
      c = ((q * 64 + d) * 64 + e) * 64 + f →
      P [(0xF0 + q).toUInt8, (0x80 + d).toUInt8, (0x80 + e).toUInt8, (0x80 + f).toUInt8]) :
    P (encodeChar c) := by
  have hlt := lt_of_isScalar hc
  rw [encodeChar]
  split_ifs with h₁ h₂ h₃
  · exact one h₁
  · exact two _ (by omega) _ (by omega) (by omega) (by omega)
  · exact three _ (by omega) _ (by omega) _ (by omega) (by omega) (by omega)
  · exact four _ (by omega) _ (by omega) _ (by omega) _ (by omega) (by omega) (by omega)

theorem isCont_rest {d : Nat} (hd : d < 64) : isCont (0x80 + d).toUInt8 = true := by
  have hn := toNat_toUInt8_of_lt (n := 0x80 + d) (by omega)
  simp only [isCont, UInt8.le_iff_toNat_le, hn, UInt8.reduceToNat, Bool.and_eq_true,
    decide_eq_true_eq]
  omega

/-- A continuation byte that does not end its character. -/
private theorem mbstowcsFrom_more {need acc least d : Nat} (hd : d < 64) (hneed : 0 < need)
    (s : XmlStr) :
    mbstowcsFrom (need + 1) acc least ((0x80 + d).toUInt8 :: s) =
      mbstowcsFrom need (acc * 64 + d) least s := by
  have hb := toNat_toUInt8_of_lt (n := 0x80 + d) (by omega)
  rw [mbstowcsFrom]
  simp only [hb, isCont_rest hd, Bool.not_true, Bool.false_eq_true, if_false, if_pos hneed,
    Nat.add_sub_cancel_left]

/-- The continuation byte that ends its character. -/
private theorem mbstowcsFrom_last {acc least d : Nat} (hd : d < 64)
    (hleast : least ≤ acc * 64 + d) (hc : isScalar (acc * 64 + d)) (s : XmlStr) :
    mbstowcsFrom 1 acc least ((0x80 + d).toUInt8 :: s) =
      ((acc * 64 + d) :: ·) <$> mbstowcsFrom 0 0 0 s := by
  have hb := toNat_toUInt8_of_lt (n := 0x80 + d) (by omega)
  rw [mbstowcsFrom]
  simp only [hb, isCont_rest hd, Bool.not_true, Bool.false_eq_true, if_false, Nat.lt_irrefl,
    Nat.add_sub_cancel_left, decide_eq_true hleast, hc, Bool.and_self, if_true]

/-- Decoding reads back one encoded character and goes on behind it. -/
theorem mbstowcs_encodeChar_append {c : Nat} (hc : isScalar c) (s : XmlStr) :
    mbstowcs (encodeChar c ++ s) = (c :: ·) <$> mbstowcs s := by
  refine encodeChar_cases (P := fun t => mbstowcs (t ++ s) = (c :: ·) <$> mbstowcs s) hc
    ?one ?two ?three ?four
  case one =>
    intro h
    have hb := toNat_toUInt8_of_lt (n := c) (by omega)
    have hlow : c.toUInt8 < 0x80 := by
      rw [UInt8.lt_iff_toNat_lt, hb]
      exact h
    rw [mbstowcs, List.cons_append, mbstowcsFrom, if_pos hlow, hb]
    rfl
  case two =>
    intro q hq d hd hmin heq
    have hb := toNat_toUInt8_of_lt (n := 0xC0 + q) (by omega)
    have hcode : (0xC0 + q - 0xC0) * 64 + d = c := by omega
    rw [mbstowcs, List.cons_append, mbstowcsFrom]
    simp only [UInt8.lt_iff_toNat_lt, hb, UInt8.reduceToNat]
    rw [if_neg (by omega), if_neg (by omega), if_pos (by omega), List.cons_append,
      mbstowcsFrom_last hd (by omega) (by rw [hcode]; exact hc), hcode]
    rfl
  case three =>
    intro q hq d hd e he hmin heq
    have hb := toNat_toUInt8_of_lt (n := 0xE0 + q) (by omega)
    have hcode : ((0xE0 + q - 0xE0) * 64 + d) * 64 + e = c := by omega
    rw [mbstowcs, List.cons_append, mbstowcsFrom]
    simp only [UInt8.lt_iff_toNat_lt, hb, UInt8.reduceToNat]
    rw [if_neg (by omega), if_neg (by omega), if_neg (by omega), if_pos (by omega),
      List.cons_append, mbstowcsFrom_more hd (by omega), List.cons_append,
      mbstowcsFrom_last he (by omega) (by rw [hcode]; exact hc), hcode]
    rfl
  case four =>
    intro q hq d hd e he f hf hmin heq
    have hb := toNat_toUInt8_of_lt (n := 0xF0 + q) (by omega)
    have hcode : (((0xF0 + q - 0xF0) * 64 + d) * 64 + e) * 64 + f = c := by omega
    have hlt := lt_of_isScalar hc
    rw [mbstowcs, List.cons_append, mbstowcsFrom]
    simp only [UInt8.lt_iff_toNat_lt, hb, UInt8.reduceToNat]
    rw [if_neg (by omega), if_neg (by omega), if_neg (by omega), if_neg (by omega),
      if_pos (by omega), List.cons_append, mbstowcsFrom_more hd (by omega), List.cons_append,
      mbstowcsFrom_more he (by omega), List.cons_append,
      mbstowcsFrom_last hf (by omega) (by rw [hcode]; exact hc), hcode]
    rfl

/-- What `wcstombs` writes, `mbstowcs` reads back. -/
theorem mbstowcs_wcstombs {ws : List Nat} {s : XmlStr} (h : wcstombs ws = some s) :
    mbstowcs s = some ws := by
  have hall : ws.all isScalar = true := by
    by_contra hne
    simp [wcstombs, hne] at h
  have hs : s = ws.flatMap encodeChar := by simpa [wcstombs, hall] using h.symm
  subst hs
  clear h
  induction ws with
  | nil => rfl
  | cons c ws ih =>
      simp only [List.all_cons, Bool.and_eq_true] at hall
      rw [List.flatMap_cons, mbstowcs_encodeChar_append hall.1, ih hall.2]
      rfl

/-- Between two characters nothing is remembered. -/
theorem mbstowcsFrom_zero (acc least : Nat) (s : XmlStr) :
    mbstowcsFrom 0 acc least s = mbstowcs s := by
  cases s with
  | nil => rfl
  | cons b s => rw [mbstowcs, mbstowcsFrom, mbstowcsFrom]

/-- Text behind whole characters is decoded on its own. -/
theorem mbstowcsFrom_append {need acc least : Nat} {s t : XmlStr} {ws : List Nat}
    (h : mbstowcsFrom need acc least s = some ws) :
    mbstowcsFrom need acc least (s ++ t) = (ws ++ ·) <$> mbstowcs t := by
  induction s generalizing need acc least ws with
  | nil =>
      cases need with
      | zero =>
          cases h
          simp [mbstowcsFrom_zero]
      | succ need => cases h
  | cons b s ih =>
      cases need with
      | zero =>
          rw [mbstowcsFrom] at h
          rw [List.cons_append, mbstowcsFrom]
          split at h
          · obtain ⟨vs, hvs, rfl⟩ := Option.map_eq_some_iff.mp h
            rw [if_pos ‹_›, ih hvs]
            simp [Function.comp_def]
          · rw [if_neg ‹_›]
            split at h
            · cases h
            · rw [if_neg ‹_›]
              split at h
              · rw [if_pos ‹_›, ih h]
              · rw [if_neg ‹_›]
                split at h
                · rw [if_pos ‹_›, ih h]
                · rw [if_neg ‹_›]
                  split at h
                  · rw [if_pos ‹_›, ih h]
                  · cases h
      | succ need =>
          rw [mbstowcsFrom] at h
          rw [List.cons_append, mbstowcsFrom]
          split at h
          · cases h
          · rw [if_neg ‹_›]
            split at h
            · rw [if_pos ‹_›, ih h]
            · rw [if_neg ‹_›]
              split at h
              · obtain ⟨vs, hvs, rfl⟩ := Option.map_eq_some_iff.mp h
                rw [if_pos ‹_›, ih hvs]
                simp [Function.comp_def]
              · cases h

theorem mbstowcs_append {s t : XmlStr} {ws : List Nat} (h : mbstowcs s = some ws) :
    mbstowcs (s ++ t) = (ws ++ ·) <$> mbstowcs t := mbstowcsFrom_append h

theorem isSome_mbstowcs_append {s t : XmlStr} (hs : (mbstowcs s).isSome)
    (ht : (mbstowcs t).isSome) : (mbstowcs (s ++ t)).isSome := by
  obtain ⟨ws, hws⟩ := Option.isSome_iff_exists.mp hs
  obtain ⟨vs, hvs⟩ := Option.isSome_iff_exists.mp ht
  rw [mbstowcs_append hws, hvs]
  rfl

/-! ## The locale -/

/-- The tables the C library reads for the current locale. -/
structure Locale where
  towlower : Nat → Nat
  iswspace : Nat → Bool
  iswcntrl : Nat → Bool
  iswpunct : Nat → Bool
  /-- `setlocale(LC_ALL, NULL)`, as `swish_get_locale` returns it. -/
  name : XmlStr
  /-- `setlocale(LC_CTYPE, NULL)`. -/
  ctype : XmlStr

/-- The wide functions extend the single-byte ones. -/
structure Locale.AsciiAgrees (loc : Locale) : Prop where
  towlower : ∀ c : XmlChar, c < 0x80 → loc.towlower c.toNat = (LibSwish3.tolower c).toNat
  iswspace : ∀ c : XmlChar, c < 0x80 → loc.iswspace c.toNat = isspace c
  iswcntrl : ∀ c : XmlChar, c < 0x80 → loc.iswcntrl c.toNat = LibSwish3.iscntrl c
  iswpunct : ∀ c : XmlChar, c < 0x80 → loc.iswpunct c.toNat = LibSwish3.ispunct c

/-- Lowering a character gives a lower-case character. -/
structure Locale.Lowers (loc : Locale) : Prop where
  towlower_idem : ∀ c, loc.towlower (loc.towlower c) = loc.towlower c

/-- A character that lowering changes becomes a lower-case letter, and no letter is a control
character. -/
structure Locale.LowersToLetters (loc : Locale) : Prop where
  towlower_eq_or : ∀ c, loc.towlower c = c ∨ loc.iswcntrl (loc.towlower c) = false

/-- The POSIX locale's tables: only ASCII letters have case and only ASCII bytes have a
class. -/
def Locale.posix : Locale where
  towlower c := if 65 ≤ c ∧ c ≤ 90 then c + 32 else c
  iswspace c := c = 32 || (9 ≤ c && c ≤ 13)
  iswcntrl c := c < 32 || c = 127
  iswpunct c := (33 ≤ c && c ≤ 47) || (58 ≤ c && c ≤ 64) || (91 ≤ c && c ≤ 96) ||
    (123 ≤ c && c ≤ 126)
  name := lit "C"
  ctype := lit "C"

private theorem forall_ascii {P : XmlChar → Prop} (h : ∀ n < 128, P (UInt8.ofNat n)) :
    ∀ c : XmlChar, c < 0x80 → P c := by
  intro c hc
  rw [UInt8.lt_iff_toNat_lt] at hc
  simpa using h c.toNat hc

theorem Locale.posix_asciiAgrees : Locale.posix.AsciiAgrees where
  towlower := forall_ascii (by decide)
  iswspace := forall_ascii (by decide)
  iswcntrl := forall_ascii (by decide)
  iswpunct := forall_ascii (by decide)

theorem Locale.posix_lowers : Locale.posix.Lowers := by
  refine ⟨fun c => ?_⟩
  simp only [Locale.posix]
  by_cases h : 65 ≤ c ∧ c ≤ 90
  · rw [if_pos h, if_neg (by omega)]
  · rw [if_neg h, if_neg h]

theorem Locale.posix_lowersToLetters : Locale.posix.LowersToLetters := by
  refine ⟨fun c => ?_⟩
  simp only [Locale.posix]
  by_cases h : 65 ≤ c ∧ c ≤ 90
  · refine .inr ?_
    simp only [if_pos h, Bool.or_eq_false_iff, decide_eq_false_iff_not]
    omega
  · exact .inl (if_neg h)

variable (loc : Locale)

/-- Lower a string through wide characters. -/
def utf8StrTolower (s : XmlStr) : Swish XmlStr :=
  match mbstowcs s with
  | none => croak [lit "error converting mbs to wide str under locale ", loc.name, lit " : ", s]
  | some ws =>
    match wcstombs (ws.map loc.towlower) with
    | none => croak [lit "error converting wide chars to mbs: ", s]
    | some t => .ok t

/-- `swish_str_tolower`: byte by byte for ASCII text and through wide characters
otherwise, the empty string included. -/
def strTolower (s : XmlStr) : Swish XmlStr :=
  if isAscii s then .ok (asciiStrTolower s) else utf8StrTolower loc s

variable {loc}

theorem isAscii_asciiStrTolower {s : XmlStr} (h : isAscii s) : isAscii (asciiStrTolower s) := by
  simp only [isAscii, Bool.and_eq_true, Bool.not_eq_true', List.isEmpty_eq_false_iff,
    List.all_eq_true, decide_eq_true_eq, asciiStrTolower] at h ⊢
  refine ⟨by simpa using h.1, ?_⟩
  intro c hc
  obtain ⟨b, hb, rfl⟩ := List.mem_map.mp hc
  exact tolower_lt (h.2 b hb)

theorem mbstowcs_of_ascii {s : XmlStr} (h : ∀ c ∈ s, c < 0x80) :
    mbstowcs s = some (s.map UInt8.toNat) := by
  induction s with
  | nil => rfl
  | cons c s ih =>
      have hc : c < 0x80 := h c (by simp)
      have htail := ih fun d hd => h d (by simp [hd])
      rw [mbstowcs] at htail ⊢
      rw [mbstowcsFrom, if_pos hc, htail]
      rfl

/-- Lowering is idempotent: a lowered name is found again when it is lowered again. -/
theorem strTolower_idem (ha : loc.AsciiAgrees) (hl : loc.Lowers) {s t : XmlStr}
    (h : strTolower loc s = .ok t) : strTolower loc t = .ok t := by
  by_cases hs : isAscii s
  · rw [strTolower, if_pos hs, Except.ok.injEq] at h
    subst h
    rw [strTolower, if_pos (isAscii_asciiStrTolower hs), asciiStrTolower_idem]
  · rw [strTolower, if_neg hs, utf8StrTolower] at h
    cases hd : mbstowcs s with
    | none => rw [hd] at h; cases h
    | some ws =>
        simp only [hd] at h
        cases he : wcstombs (ws.map loc.towlower) with
        | none => rw [he] at h; cases h
        | some u =>
            simp only [he, Except.ok.injEq] at h
            subst h
            have hback := mbstowcs_wcstombs he
            have hlow : (ws.map loc.towlower).map loc.towlower = ws.map loc.towlower := by
              simp [Function.comp_def, hl.towlower_idem]
            by_cases hu : isAscii u
            · rw [strTolower, if_pos hu]
              simp only [isAscii, Bool.and_eq_true, List.all_eq_true, decide_eq_true_eq] at hu
              have hbytes : u.map UInt8.toNat = ws.map loc.towlower := by
                rw [mbstowcs_of_ascii hu.2, Option.some.injEq] at hback
                exact hback
              congr 1
              refine (List.map_inj_right fun _ _ h => UInt8.toNat_inj.mp h).mp ?_
              calc (asciiStrTolower u).map UInt8.toNat
                  = u.map fun c => loc.towlower c.toNat := by
                    rw [asciiStrTolower, List.map_map]
                    exact List.map_congr_left fun c hc => (ha.towlower c (hu.2 c hc)).symm
                _ = (u.map UInt8.toNat).map loc.towlower := by
                    rw [List.map_map]
                    rfl
                _ = u.map UInt8.toNat := by rw [hbytes, hlow]
            · rw [strTolower, if_neg hu, utf8StrTolower, hback]
              simp only [hlow, he]

end LibSwish3
