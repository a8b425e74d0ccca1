import Mathlib.Data.Nat.Digits.Lemmas

/-!
# Numerals

A numeral is a list of digits, the most significant one first.  `paddedDigits` writes a number
with at least as many digits as are asked for, as the precision of a `printf` conversion does, and
`valueOf` reads one back.  `leadingDigits` is what a reader takes that is allowed so many digits
and no more: it finds the end of a numeral if that is as long as it may be, or something else
stands behind it.

The digits are elements of any type.

## Main definitions

* `valueOf`, `paddedDigits` — `valueOf_paddedDigits`.
* `leadingDigits` — `leadingDigits_append`.
-/

namespace Digits

universe u

variable {α : Type u}

/-- The value of a numeral. -/
def valueOf (b : Nat) (value : α → Nat) (s : List α) : Nat :=
  s.foldl (fun n c => b * n + value c) 0

/-- The numeral of `n`, filled up with zeros to `prec` digits. -/
def paddedDigits (b : Nat) (digit : Nat → α) (prec n : Nat) : List α :=
  List.replicate (prec - (Nat.digits b n).length) (digit 0) ++
    (Nat.digits b n).reverse.map digit

/-- At most `k` digits in front of a text. -/
def leadingDigits (isDigit : α → Bool) (k : Nat) (s : List α) : List α :=
  (s.takeWhile isDigit).take k

section Write

variable {b : Nat} {value : α → Nat} {digit : Nat → α} {prec n : Nat}

theorem valueOf_map_digits (hb : 1 < b) (hvalue : ∀ d < b, value (digit d) = d) (n : Nat) :
    valueOf b value ((Nat.digits b n).reverse.map digit) = n := by
  have hlist : ∀ ds : List Nat, (∀ d ∈ ds, d < b) →
      valueOf b value (ds.reverse.map digit) = Nat.ofDigits b ds := by
    intro ds hds
    rw [valueOf, List.foldl_map, List.foldl_reverse, Nat.ofDigits_eq_foldr]
    induction ds with
    | nil => rfl
    | cons d ds ih =>
        rw [List.foldr_cons, List.foldr_cons, ih fun e he => hds e (List.mem_cons_of_mem _ he),
          hvalue d (hds d (by simp))]
        simp only [Nat.cast_id]
        omega
  rw [hlist _ fun d hd => Nat.digits_lt_base hb hd, Nat.ofDigits_digits]

theorem valueOf_zeros {z : α} (hz : value z = 0) (k : Nat) (s : List α) :
    valueOf b value (List.replicate k z ++ s) = valueOf b value s := by
  induction k with
  | zero => rfl
  | succ k ih =>
      rw [← ih, List.replicate_succ, List.cons_append, valueOf, List.foldl_cons, hz,
        Nat.mul_zero, Nat.add_zero]
      rfl

/-- A numeral has the value of the number, whatever it was filled up to. -/
theorem valueOf_paddedDigits (hb : 1 < b) (hvalue : ∀ d < b, value (digit d) = d) :
    valueOf b value (paddedDigits b digit prec n) = n := by
  rw [paddedDigits, valueOf_zeros (hvalue 0 (by omega)), valueOf_map_digits hb hvalue]

theorem exists_of_mem_paddedDigits (hb : 1 < b) {c : α} (hc : c ∈ paddedDigits b digit prec n) :
    ∃ d < b, c = digit d := by
  rcases List.mem_append.mp hc with hc | hc
  · exact ⟨0, by omega, List.eq_of_mem_replicate hc⟩
  · obtain ⟨d, hd, rfl⟩ := List.mem_map.mp hc
    exact ⟨d, Nat.digits_lt_base hb (List.mem_reverse.mp hd), rfl⟩

theorem length_paddedDigits :
    (paddedDigits b digit prec n).length = max prec (Nat.digits b n).length := by
  rw [paddedDigits, List.length_append, List.length_replicate, List.length_map, List.length_reverse]
  omega

/-- A number that has no more digits than are asked for gets as many. -/
theorem length_paddedDigits_of_lt (hb : 1 < b) (hn : n < b ^ prec) :
    (paddedDigits b digit prec n).length = prec := by
  rw [length_paddedDigits, max_eq_left ((Nat.digits_length_le_iff hb n).mpr hn)]

end Write

/-- The reader finds the end of a numeral. -/
theorem leadingDigits_append {isDigit : α → Bool} {k : Nat} {ds s : List α}
    (hds : ∀ c ∈ ds, isDigit c)
    (hk : ds.length ≤ k) (hend : ds.length = k ∨ ∀ c ∈ s.head?, isDigit c = false) :
    leadingDigits isDigit k (ds ++ s) = ds := by
  rw [leadingDigits, List.takeWhile_append_of_pos hds]
  rcases hend with hfull | hstop
  · rw [List.take_append_of_le_length (by omega), List.take_of_length_le hk]
  · have hnone : s.takeWhile isDigit = [] := by
      cases s with
      | nil => rfl
      | cons c s => exact List.takeWhile_cons_of_neg (by simp [hstop c (by simp)])
    rw [hnone, List.append_nil, List.take_of_length_le hk]

end Digits
