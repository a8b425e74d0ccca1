import LibSwish3.CString
import LibSwish3.Lib.Digits

/-!
# Numbers as text

The header is text: numbers and flags go out through `snprintf` and come back through `strtol`.
Within the range of an `int` nothing is lost on the way, and two numbers never have one text.

## Main definitions

* `IsInt` — a value that an `int` can have.
* `stringToInt_intToString`, `stringToBoolean_boolToString` — what is written is read back.
-/

namespace LibSwish3

open Digits

section Numerals

variable {s : XmlStr} {v w : Int} {n : Nat}

/-! ## The range of an `int` -/

/-- A value that an `int` can have. -/
def IsInt (v : Int) : Prop := -2 ^ 31 ≤ v ∧ v < 2 ^ 31

instance (v : Int) : Decidable (IsInt v) := inferInstanceAs (Decidable (_ ∧ _))

theorem isInt_toInt (v : Int) : IsInt (toInt v) := by
  have hle : -((2 ^ 32 : Nat) / 2 : Int) ≤ toInt v := Int.le_bmod (by norm_num)
  have hlt : toInt v < ((2 ^ 32 : Nat) + 1) / 2 := Int.bmod_lt (by norm_num)
  norm_num at hle hlt
  exact ⟨by omega, by omega⟩

theorem toInt_of_isInt (h : IsInt v) : toInt v = v := by
  obtain ⟨hmin, hmax⟩ := h
  rw [toInt, Int.bmod_eq_of_le (by omega) (by omega)]

theorem toInt_of_lt (h : n < 2 ^ 31) : toInt n = n :=
  toInt_of_isInt ⟨by omega, by omega⟩

theorem toInt_toInt (v : Int) : toInt (toInt v) = toInt v := Int.bmod_bmod

/-- An `unsigned int` that is printed with `%d` and read as an `int` comes back. -/
theorem toUInt_toInt (h : n < 2 ^ 32) : toUInt (toInt n) = n := by
  rw [toUInt, toInt]
  have hmod : (Int.bmod n (2 ^ 32)) % ((2 ^ 32 : Nat) : Int) = n % ((2 ^ 32 : Nat) : Int) :=
    Int.bmod_emod
  norm_num at hmod ⊢
  omega

/-! ## Digits -/

theorem isspace_of_isdigit {c : XmlChar} (h : isdigit c = true) : isspace c = false := by
  have hrange : 48 ≤ c.toNat ∧ c.toNat ≤ 57 := by
    simpa [isdigit, UInt8.le_iff_toNat_le] using h
  simp only [isspace, Bool.or_eq_false_iff, decide_eq_false_iff_not, Bool.and_eq_false_iff,
    UInt8.le_iff_toNat_le, ← UInt8.toNat_inj, UInt8.reduceToNat]
  omega

theorem strtol_of_digits (h : ∀ c ∈ s, isdigit c) : strtol s = digitsValue s := by
  cases s with
  | nil => rfl
  | cons c rest =>
      have hc : isdigit c = true := h c (by simp)
      have hminus : c ≠ 45 := by
        rintro rfl
        exact absurd hc (by decide)
      have hplus : c ≠ 43 := by
        rintro rfl
        exact absurd hc (by decide)
      have hskip : strSkipWs (c :: rest) = c :: rest := by
        simp [strSkipWs, isspace_of_isdigit hc]
      rw [strtol, hskip]
      simp only [if_neg hminus, if_neg hplus]
      rw [List.takeWhile_eq_self_iff.mpr h]

theorem isdigit_digit {d : Nat} (hd : d < 10) : isdigit (48 + d).toUInt8 = true := by
  have hbyte : (48 + d).toUInt8.toNat = 48 + d := by
    simp [Nat.mod_eq_of_lt (show 48 + d < 256 by omega)]
  simp only [isdigit, UInt8.le_iff_toNat_le, hbyte, UInt8.reduceToNat, Bool.and_eq_true,
    decide_eq_true_eq]
  omega

theorem isdigit_natToString : ∀ c ∈ natToString n, isdigit c = true := by
  intro c hc
  rw [natToString] at hc
  split at hc
  · rw [List.mem_singleton.mp hc]
    decide
  · obtain ⟨d, hd, rfl⟩ := List.mem_map.mp hc
    exact isdigit_digit (Nat.digits_lt_base (by norm_num) (List.mem_reverse.mp hd))

theorem natToString_ne_nil : natToString n ≠ [] := by
  rw [natToString]
  split
  · simp
  · rename_i hn
    simpa [Nat.digits_eq_nil_iff_eq_zero] using hn

/-- The digits of a number have its value. -/
theorem digitsValue_natToString : digitsValue (natToString n) = n := by
  rw [natToString]
  split
  · rename_i hn
    rw [hn]
    rfl
  · have hdigit : ∀ d < 10, (48 + d).toUInt8.toNat - 48 = d := by
      intro d hd
      simp [Nat.mod_eq_of_lt (show 48 + d < 256 by omega)]
    exact valueOf_map_digits (by norm_num) hdigit n

/-! ## There and back -/

theorem strtol_intToString : strtol (intToString v) = v := by
  rw [intToString]
  split
  · have hdigits : (natToString v.natAbs).takeWhile isdigit = natToString v.natAbs :=
      List.takeWhile_eq_self_iff.mpr isdigit_natToString
    have hskip : strSkipWs (45 :: natToString v.natAbs) = 45 :: natToString v.natAbs := by
      simp [strSkipWs, isspace]
    rw [strtol, hskip]
    simp only [if_true, hdigits, digitsValue_natToString]
    omega
  · rw [strtol_of_digits isdigit_natToString, digitsValue_natToString]
    omega

/-- An `int` that is written is read back. -/
theorem stringToInt_intToString (h : IsInt v) : stringToInt (intToString v) = .ok v := by
  obtain ⟨hmin, hmax⟩ := h
  simp only [stringToInt, strtol_intToString]
  rw [if_neg (by omega), toInt_of_isInt ⟨hmin, hmax⟩]

theorem intToString_inj : intToString v = intToString w ↔ v = w := by
  refine ⟨fun h => ?_, fun h => h ▸ rfl⟩
  rw [← strtol_intToString (v := v), h, strtol_intToString]

/-- A number that is not negative begins with a digit. -/
theorem head?_intToString (h : 0 ≤ v) : (intToString v).head?.any isdigit = true := by
  rw [intToString, if_neg (by omega)]
  obtain ⟨c, rest, heq⟩ := List.exists_cons_of_ne_nil (natToString_ne_nil (n := v.natAbs))
  have hc := isdigit_natToString (n := v.natAbs) c (by rw [heq]; simp)
  simp [heq, hc]

@[simp] theorem stringToBoolean_boolToString (b : Bool) :
    stringToBoolean (boolToString b) = b := by
  cases b <;> rfl

end Numerals

end LibSwish3
