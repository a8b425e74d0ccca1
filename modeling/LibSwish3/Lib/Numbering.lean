import LibSwish3.Lib.Tables

/-!
# Entries with consecutive numbers

Entries that come to a table get the numbers behind a base, one after the other, whatever numbers
the table already uses.  The numbers stay distinct exactly if no old entry has one of those that
were given out.  When a table is stored, and numbering starts at the same base again, that is the
case exactly if one of the two rounds gave out no number.

## Main definitions

* `Tables.Consecutive` — the new entries have the numbers behind the base.
* `Tables.Above` — the entries that are not of a first table have numbers behind the base, and
  the first of these is in use.
* `Tables.Consecutive.distinctOn_iff_of_above`.
-/

namespace Tables

universe u v

variable {κ : Type u} [DecidableEq κ] {α : Type v}

/-- What the entries have that `t₁` has not is the numbers behind `base`, up to `v`. -/
structure Consecutive (id : α → Int) (base : Int) (t₁ t : Table κ α) (v : Int) : Prop where
  le : base ≤ v
  retained : ∀ k a, t₁.lookup k = some a → t.lookup k = some a
  new : ∀ k a, t.lookup k = some a → k ∉ t₁ → base < id a ∧ id a ≤ v
  distinct : ∀ k k' a a', t.lookup k = some a → t.lookup k' = some a' → k ∉ t₁ → k' ∉ t₁ →
    id a = id a' → k = k'
  full : ∀ i, base < i → i ≤ v → ∃ k a, t.lookup k = some a ∧ k ∉ t₁ ∧ id a = i

/-- The entries of `t₀` have numbers up to `base`, the others have larger ones, and the first of
these is in use if there are any. -/
structure Above (id : α → Int) (base : Int) (t₀ t : Table κ α) : Prop where
  within : ∀ k ∈ t₀, k ∈ t
  old : ∀ k a, t.lookup k = some a → k ∈ t₀ → id a ≤ base
  new : ∀ k a, t.lookup k = some a → k ∉ t₀ → base < id a
  first : ∀ k ∈ t, k ∉ t₀ → ∃ k' a, t.lookup k' = some a ∧ k' ∉ t₀ ∧ id a = base + 1

variable {id : α → Int} {base v : Int} {t₀ t₁ t t' : Table κ α} {k : κ} {a : α}

theorem Consecutive.refl (id : α → Int) (base : Int) (t : Table κ α) :
    Consecutive id base t t base where
  le := Int.le_refl _
  retained _ _ h := h
  new k a h hnot := absurd (mem_of_lookup h) hnot
  distinct k k' a a' h _ hnot _ _ := absurd (mem_of_lookup h) hnot
  full i hlt hle := absurd hle (by omega)

theorem Extension.mem {Q : α → Prop} (h : Extension Q t t') (hk : k ∈ t) : k ∈ t' := by
  obtain ⟨a, ha⟩ := mem_iff_exists_lookup.mp hk
  exact mem_of_lookup (h.retained k a ha)

/-- A new entry gets the next number. -/
theorem Consecutive.insert (h : Consecutive id base t₁ t v) (hk : k ∉ t) (hid : id a = v + 1) :
    Consecutive id base t₁ (t.insert k a) (v + 1) := by
  have hcases : ∀ k' a', (t.insert k a).lookup k' = some a' →
      (k' = k ∧ id a' = v + 1) ∨ (k' ≠ k ∧ t.lookup k' = some a') := by
    intro k' a' hk'
    by_cases hkk : k' = k
    · subst hkk
      rw [AList.lookup_insert, Option.some.injEq] at hk'
      exact .inl ⟨rfl, hk' ▸ hid⟩
    · rw [AList.lookup_insert_ne hkk] at hk'
      exact .inr ⟨hkk, hk'⟩
  have hle := h.le
  refine ⟨by omega, ?_, ?_, ?_, ?_⟩
  · intro k' a' hk'
    have hkk : k' ≠ k := by
      rintro rfl
      exact hk (mem_of_lookup (h.retained _ _ hk'))
    rw [AList.lookup_insert_ne hkk]
    exact h.retained _ _ hk'
  · intro k' a' hk' hnot
    rcases hcases k' a' hk' with ⟨-, hid'⟩ | ⟨-, hk'⟩
    · omega
    · have hnew := h.new k' a' hk' hnot
      omega
  · intro k₁ k₂ a₁ a₂ hk₁ hk₂ hnot₁ hnot₂ heq
    rcases hcases k₁ a₁ hk₁ with ⟨rfl, hid₁⟩ | ⟨-, hl₁⟩ <;>
      rcases hcases k₂ a₂ hk₂ with ⟨rfl, hid₂⟩ | ⟨-, hl₂⟩
    · rfl
    · have hnew := h.new k₂ a₂ hl₂ hnot₂
      omega
    · have hnew := h.new k₁ a₁ hl₁ hnot₁
      omega
    · exact h.distinct k₁ k₂ a₁ a₂ hl₁ hl₂ hnot₁ hnot₂ heq
  · intro i hlt hle
    by_cases hi : i = v + 1
    · refine ⟨k, a, AList.lookup_insert t, fun hmem => ?_, hid.trans hi.symm⟩
      obtain ⟨b, hb⟩ := mem_iff_exists_lookup.mp hmem
      exact hk (mem_of_lookup (h.retained k b hb))
    · obtain ⟨k', a', hk', hnot, hid'⟩ := h.full i hlt (by omega)
      have hkk : k' ≠ k := by
        rintro rfl
        exact hk (mem_of_lookup hk')
      exact ⟨k', a', by rwa [AList.lookup_insert_ne hkk], hnot, hid'⟩

/-- An entry of the larger table is an old one, or a new one with a number behind the base. -/
theorem Consecutive.cases (h : Consecutive id base t₁ t v) (hk : t.lookup k = some a) :
    t₁.lookup k = some a ∨ k ∉ t₁ ∧ base < id a ∧ id a ≤ v := by
  by_cases hmem : k ∈ t₁
  · obtain ⟨b, hb⟩ := mem_iff_exists_lookup.mp hmem
    cases hk.symm.trans (h.retained k b hb)
    exact .inl hb
  · exact .inr ⟨hmem, h.new k a hk hmem⟩

/-- The numbers stay distinct exactly if none of those given out was in use. -/
theorem Consecutive.distinctOn_iff (h : Consecutive id base t₁ t v) (hold : DistinctOn id t₁) :
    DistinctOn id t ↔ ∀ k a, t₁.lookup k = some a → ¬(base < id a ∧ id a ≤ v) := by
  constructor
  · rintro hd k a hk ⟨hlt, hle⟩
    obtain ⟨k', a', hk', hnot, hid⟩ := h.full (id a) hlt hle
    have hsame := hd k k' a a' (h.retained k a hk) hk' hid.symm
    exact hnot (hsame ▸ mem_of_lookup hk)
  · intro hfree k k' a a' hk hk' heq
    rcases h.cases hk with hk₁ | ⟨hnot, hnew⟩ <;> rcases h.cases hk' with hk₁' | ⟨hnot', hnew'⟩
    · exact hold k k' a a' hk₁ hk₁' heq
    · exact absurd ⟨heq ▸ hnew'.1, heq ▸ hnew'.2⟩ (hfree k a hk₁)
    · exact absurd ⟨heq ▸ hnew.1, heq ▸ hnew.2⟩ (hfree k' a' hk₁')
    · exact h.distinct k k' a a' hk hk' hnot hnot' heq

/-- Numbers that start at the same base again stay distinct exactly if they were given out in one
of the two rounds only. -/
theorem Consecutive.distinctOn_iff_of_above (h : Consecutive id base t₁ t v)
    (habove : Above id base t₀ t₁) (hold : DistinctOn id t₁) :
    DistinctOn id t ↔ (∀ k ∈ t₁, k ∈ t₀) ∨ ∀ k ∈ t, k ∈ t₁ := by
  rw [h.distinctOn_iff hold]
  constructor
  · intro hfree
    by_contra hboth
    rw [not_or] at hboth
    obtain ⟨hfirst, hsecond⟩ := hboth
    obtain ⟨k, hk⟩ := not_forall.mp hfirst
    obtain ⟨hmem, hnot⟩ := Classical.not_imp.mp hk
    obtain ⟨k', hk'⟩ := not_forall.mp hsecond
    obtain ⟨hmem', hnot'⟩ := Classical.not_imp.mp hk'
    obtain ⟨k₁, a₁, hk₁, -, hid₁⟩ := habove.first k hmem hnot
    obtain ⟨a', ha'⟩ := mem_iff_exists_lookup.mp hmem'
    have hnew := h.new k' a' ha' hnot'
    exact hfree k₁ a₁ hk₁ (by omega)
  · rintro (hfirst | hsecond) k a hk ⟨hlt, hle⟩
    · have hold := habove.old k a hk (hfirst k (mem_of_lookup hk))
      omega
    · obtain ⟨k', a', hk', hnot, -⟩ := h.full (id a) hlt hle
      exact hnot (hsecond k' (mem_of_lookup hk'))

theorem Above.refl (hbound : ∀ k a, t.lookup k = some a → id a ≤ base) : Above id base t t where
  within _ h := h
  old k a h _ := hbound k a h
  new _ _ h hnot := absurd (mem_of_lookup h) hnot
  first _ h hnot := absurd h hnot

theorem Above.consecutive (h : Above id base t₀ t₁) (hnext : Consecutive id base t₁ t v) :
    Above id base t₀ t := by
  refine ⟨fun k hk => ?_, fun k a hk hmem => ?_, fun k a hk hnot => ?_, fun k hk hnot => ?_⟩
  · obtain ⟨a, ha⟩ := mem_iff_exists_lookup.mp (h.within k hk)
    exact mem_of_lookup (hnext.retained k a ha)
  · rcases hnext.cases hk with hk | ⟨hout, -⟩
    · exact h.old k a hk hmem
    · exact absurd (h.within k hmem) hout
  · rcases hnext.cases hk with hk | ⟨-, hlt, -⟩
    · exact h.new k a hk hnot
    · exact hlt
  · obtain ⟨a, ha⟩ := mem_iff_exists_lookup.mp hk
    rcases hnext.cases ha with hold | ⟨hout, hlt, hle⟩
    · obtain ⟨k', a', hk', hnot', hid⟩ := h.first k (mem_of_lookup hold) hnot
      exact ⟨k', a', hnext.retained k' a' hk', hnot', hid⟩
    · obtain ⟨k', a', hk', hout', hid⟩ := hnext.full (base + 1) (by omega) (by omega)
      exact ⟨k', a', hk', fun hmem => hout' (h.within k' hmem), hid⟩

theorem distinctOn_of_map (h : DistinctOn id t)
    (hsame : ∀ k, (t'.lookup k).map id = (t.lookup k).map id) : DistinctOn id t' := by
  intro k k' a a' hk hk' heq
  have hnumber : ∀ k a, t'.lookup k = some a → ∃ b, t.lookup k = some b ∧ id b = id a := by
    intro k a hk
    rw [← Option.map_eq_some_iff, ← hsame, hk, Option.map_some]
  obtain ⟨b, hb, hid⟩ := hnumber k a hk
  obtain ⟨b', hb', hid'⟩ := hnumber k' a' hk'
  exact h k k' b b' hb hb' (hid.trans (heq.trans hid'.symm))

/-- Only keys and numbers count. -/
theorem Above.of_map (h : Above id base t₀ t)
    (hsame : ∀ k, (t'.lookup k).map id = (t.lookup k).map id) : Above id base t₀ t' := by
  have hnumber : ∀ k i, (∃ a, t'.lookup k = some a ∧ id a = i) ↔
      ∃ a, t.lookup k = some a ∧ id a = i := by
    intro k i
    rw [← Option.map_eq_some_iff, hsame, Option.map_eq_some_iff]
  refine ⟨fun k hk => ?_, fun k a' hk hmem => ?_, fun k a' hk hnot => ?_, fun k hk hnot => ?_⟩
  · obtain ⟨a, ha⟩ := mem_iff_exists_lookup.mp (h.within k hk)
    obtain ⟨a', ha', -⟩ := (hnumber k _).mpr ⟨a, ha, rfl⟩
    exact mem_of_lookup ha'
  · obtain ⟨a, ha, hid⟩ := (hnumber k _).mp ⟨a', hk, rfl⟩
    exact hid ▸ h.old k a ha hmem
  · obtain ⟨a, ha, hid⟩ := (hnumber k _).mp ⟨a', hk, rfl⟩
    exact hid ▸ h.new k a ha hnot
  · obtain ⟨a', ha'⟩ := mem_iff_exists_lookup.mp hk
    obtain ⟨a, ha, -⟩ := (hnumber k _).mp ⟨a', ha', rfl⟩
    obtain ⟨k₁, a₁, hk₁, hnot₁, hid₁⟩ := h.first k (mem_of_lookup ha) hnot
    obtain ⟨a₁', ha₁', hid₁'⟩ := (hnumber k₁ _).mpr ⟨a₁, hk₁, hid₁⟩
    exact ⟨k₁, a₁', ha₁', hnot₁, hid₁'⟩

end Tables
