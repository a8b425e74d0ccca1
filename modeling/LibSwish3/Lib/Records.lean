import Mathlib.Data.Set.Function

/-!
# Numbered records under keys

A store numbers its records, and its operations name the records they mean by a test that each
of them passes or not.  Where the test for a key passes exactly for the record of that key, the
store is a map from keys to records: adding, replacing and deleting are updates of the map, and
a record that is replaced keeps its number.

## Main definitions

* `Records.Store` — the record under each number, and the last number given out.
* `Records.Inserted`, `Records.Replaced`, `Records.Deleted` — what the operations do.
* `Records.Represents` — the store is the map, with one record for each key.
-/

namespace Records

universe u v

variable {ρ : Type u} {κ : Type v}

/-- A store of numbered records; `last` is the largest number it has given out. -/
structure Store (ρ : Type u) where
  get : Nat → Option ρ
  last : Nat

/-- The record is added under the next number. -/
structure Inserted (s : Store ρ) (r : ρ) (n : Nat) (s' : Store ρ) : Prop where
  number : n = s.last + 1
  last : s'.last = n
  found : s'.get n = some r
  other : ∀ i, i ≠ n → s'.get i = s.get i

/-- The record takes the place of those that pass the test: it gets the smallest of their numbers,
and the next number if there are none. -/
inductive Replaced (P : ρ → Prop) (s : Store ρ) (r : ρ) (n : Nat) (s' : Store ρ) : Prop
  | fresh : (∀ i x, s.get i = some x → ¬P x) → Inserted s r n s' → Replaced P s r n s'
  | found {x : ρ} : s.get n = some x → P x → (∀ i y, s.get i = some y → P y → n ≤ i) →
      s'.last = s.last → s'.get n = some r →
      (∀ i, i ≠ n → ∀ y, s'.get i = some y ↔ s.get i = some y ∧ ¬P y) → Replaced P s r n s'

/-- The records that pass the test are gone. -/
structure Deleted (P : ρ → Prop) (s s' : Store ρ) : Prop where
  last : s'.last = s.last
  get : ∀ i y, s'.get i = some y ↔ s.get i = some y ∧ ¬P y

/-- The store holds what the map says, and no two records have the same key. -/
structure Represents (key : ρ → κ) (s : Store ρ) (m : κ → Option ρ) : Prop where
  numbered : ∀ n r, s.get n = some r → n ≤ s.last
  unique : ∀ n n' r r', s.get n = some r → s.get n' = some r' → key r = key r' → n = n'
  map : ∀ k r, m k = some r ↔ key r = k ∧ ∃ n, s.get n = some r

/-- Every record of the first store has a successor in the second, under the same number and
with the same key. -/
def Keeps (key : ρ → κ) (s s' : Store ρ) : Prop :=
  ∀ n r, s.get n = some r → ∃ r', s'.get n = some r' ∧ key r' = key r

/-- The records of the second store under numbers that the first one has given out come from
records there. -/
def Recalls (key : ρ → κ) (s s' : Store ρ) : Prop :=
  s.last ≤ s'.last ∧
    ∀ n r', s'.get n = some r' → n ≤ s.last → ∃ r, s.get n = some r ∧ key r = key r'

variable {key : ρ → κ} {s s' s'' : Store ρ} {m : κ → Option ρ} {P : ρ → Prop} {r : ρ} {n : Nat}
  {k : κ}

theorem Keeps.refl (key : ρ → κ) (s : Store ρ) : Keeps key s s := fun _ r h => ⟨r, h, rfl⟩

theorem Keeps.trans (h : Keeps key s s') (h' : Keeps key s' s'') : Keeps key s s'' := by
  intro n r hget
  obtain ⟨r', hget', hkey'⟩ := h n r hget
  obtain ⟨r'', hget'', hkey''⟩ := h' n r' hget'
  exact ⟨r'', hget'', hkey''.trans hkey'⟩

theorem Recalls.refl (key : ρ → κ) (s : Store ρ) : Recalls key s s :=
  ⟨Nat.le_refl _, fun _ r h _ => ⟨r, h, rfl⟩⟩

theorem Recalls.trans (h : Recalls key s s') (h' : Recalls key s' s'') : Recalls key s s'' := by
  refine ⟨Nat.le_trans h.1 h'.1, ?_⟩
  intro n r'' hget hle
  obtain ⟨r', hget', hkey'⟩ := h'.2 n r'' hget (Nat.le_trans hle h.1)
  obtain ⟨r, hget₀, hkey⟩ := h.2 n r' hget' hle
  exact ⟨r, hget₀, hkey.trans hkey'⟩

/-- A store without records holds the empty map. -/
theorem holds_empty (key : ρ → κ) (hempty : ∀ n, s.get n = none) :
    Represents key s fun _ => none where
  numbered n r h := by rw [hempty] at h; cases h
  unique n _ r _ h := by rw [hempty] at h; cases h
  map k r := by simp [hempty]

theorem Represents.none_iff (h : Represents key s m) :
    m k = none ↔ ∀ n r, s.get n = some r → key r ≠ k := by
  rw [Option.eq_none_iff_forall_ne_some]
  constructor
  · intro hnone n r hget hkey
    exact hnone r ((h.map k r).mpr ⟨hkey, n, hget⟩)
  · intro hall r hr
    obtain ⟨hkey, n, hget⟩ := (h.map k r).mp hr
    exact hall n r hget hkey

section Maps

variable [DecidableEq κ]

/-- A record with a new key is added to the map. -/
theorem Inserted.holds (hadd : Inserted s r n s') (h : Represents key s m)
    (hnew : m (key r) = none) :
    Represents key s' (Function.update m (key r) (some r)) := by
  have hfree : ∀ i x, s.get i = some x → key x ≠ key r := h.none_iff.mp hnew
  have hold : ∀ i x, s'.get i = some x → i = n ∧ x = r ∨ i ≠ n ∧ s.get i = some x := by
    intro i x hget
    by_cases hi : i = n
    · rw [hi, hadd.found] at hget
      exact .inl ⟨hi, (Option.some.inj hget).symm⟩
    · exact .inr ⟨hi, hadd.other i hi ▸ hget⟩
  have hback : ∀ i x, s.get i = some x → s'.get i = some x := by
    intro i x hget
    have hi : i ≠ n := by
      have hle := h.numbered i x hget
      have hnumber := hadd.number
      omega
    rw [hadd.other i hi, hget]
  constructor
  · intro i x hget
    rcases hold i x hget with ⟨rfl, -⟩ | ⟨-, hget⟩
    · rw [hadd.last]
    · have hle := h.numbered i x hget
      rw [hadd.last, hadd.number]
      omega
  · intro i i' x x' hget hget' hkey
    rcases hold i x hget with ⟨rfl, rfl⟩ | ⟨-, hget⟩ <;>
      rcases hold i' x' hget' with ⟨rfl, rfl⟩ | ⟨-, hget'⟩
    · rfl
    · exact absurd hkey.symm (hfree i' x' hget')
    · exact absurd hkey (hfree i x hget)
    · exact h.unique i i' x x' hget hget' hkey
  · intro k x
    by_cases hk : k = key r
    · subst hk
      rw [Function.update_self]
      constructor
      · rintro ⟨⟩
        exact ⟨rfl, n, hadd.found⟩
      · rintro ⟨hkey, i, hget⟩
        rcases hold i x hget with ⟨-, rfl⟩ | ⟨-, hget⟩
        · rfl
        · exact absurd hkey (hfree i x hget)
    · rw [Function.update_of_ne hk, h.map]
      refine and_congr_right fun hkey => ⟨fun ⟨i, hget⟩ => ⟨i, hback i x hget⟩, ?_⟩
      rintro ⟨i, hget⟩
      rcases hold i x hget with ⟨-, rfl⟩ | ⟨-, hget⟩
      · exact absurd hkey.symm hk
      · exact ⟨i, hget⟩

/-- A record that replaces those of its key is what the map has for the key. -/
theorem Replaced.holds (hrep : Replaced P s r n s') (h : Represents key s m)
    (hP : ∀ i x, s.get i = some x → (P x ↔ key x = key r)) :
    Represents key s' (Function.update m (key r) (some r)) := by
  cases hrep with
  | fresh hnone hadd =>
      refine hadd.holds h (h.none_iff.mpr fun i x hget hkey => ?_)
      exact hnone i x hget ((hP i x hget).mpr hkey)
  | @found x₀ hx₀ hPx₀ _ hlast hfound hother =>
      have hkey₀ : key x₀ = key r := (hP n x₀ hx₀).mp hPx₀
      have hold : ∀ i x, s'.get i = some x →
          i = n ∧ x = r ∨ i ≠ n ∧ s.get i = some x ∧ key x ≠ key r := by
        intro i x hget
        by_cases hi : i = n
        · rw [hi, hfound] at hget
          exact .inl ⟨hi, (Option.some.inj hget).symm⟩
        · obtain ⟨hget, hnot⟩ := (hother i hi x).mp hget
          exact .inr ⟨hi, hget, fun hkey => hnot ((hP i x hget).mpr hkey)⟩
      constructor
      · intro i x hget
        rw [hlast]
        rcases hold i x hget with ⟨rfl, -⟩ | ⟨-, hget, -⟩
        · exact h.numbered i x₀ hx₀
        · exact h.numbered i x hget
      · intro i i' x x' hget hget' hkey
        rcases hold i x hget with ⟨rfl, rfl⟩ | ⟨-, hget, hne⟩ <;>
          rcases hold i' x' hget' with ⟨rfl, rfl⟩ | ⟨-, hget', hne'⟩
        · rfl
        · exact absurd hkey.symm hne'
        · exact absurd hkey hne
        · exact h.unique i i' x x' hget hget' hkey
      · intro k x
        by_cases hk : k = key r
        · subst hk
          rw [Function.update_self]
          constructor
          · rintro ⟨⟩
            exact ⟨rfl, n, hfound⟩
          · rintro ⟨hkey, i, hget⟩
            rcases hold i x hget with ⟨-, rfl⟩ | ⟨-, -, hne⟩
            · rfl
            · exact absurd hkey hne
        · rw [Function.update_of_ne hk, h.map]
          refine and_congr_right fun hkey => ⟨?_, ?_⟩
          · rintro ⟨i, hget⟩
            have hne : key x ≠ key r := fun heq => hk (hkey.symm.trans heq)
            have hi : i ≠ n := by
              rintro rfl
              cases hx₀.symm.trans hget
              exact hne hkey₀
            exact ⟨i, (hother i hi x).mpr ⟨hget, fun hPx => hne ((hP i x hget).mp hPx)⟩⟩
          · rintro ⟨i, hget⟩
            rcases hold i x hget with ⟨-, rfl⟩ | ⟨-, hget, -⟩
            · exact absurd hkey.symm hk
            · exact ⟨i, hget⟩

/-- Deleting the record of a key deletes it from the map. -/
theorem Deleted.holds (hdel : Deleted P s s') (h : Represents key s m)
    (hP : ∀ i x, s.get i = some x → (P x ↔ key x = k)) :
    Represents key s' (Function.update m k none) := by
  constructor
  · intro i x hget
    rw [hdel.last]
    exact h.numbered i x ((hdel.get i x).mp hget).1
  · intro i i' x x' hget hget' hkey
    exact h.unique i i' x x' ((hdel.get i x).mp hget).1 ((hdel.get i' x').mp hget').1 hkey
  · intro k' x
    by_cases hk : k' = k
    · subst hk
      rw [Function.update_self]
      constructor
      · intro hnone
        cases hnone
      · rintro ⟨hkey, i, hget⟩
        obtain ⟨hget, hnot⟩ := (hdel.get i x).mp hget
        exact absurd ((hP i x hget).mpr hkey) hnot
    · rw [Function.update_of_ne hk, h.map]
      refine and_congr_right fun hkey => exists_congr fun i => ?_
      rw [hdel.get]
      refine ⟨fun hget => ⟨hget, fun hPx => ?_⟩, fun hget => hget.1⟩
      exact hk (hkey.symm.trans ((hP i x hget).mp hPx))

end Maps

/-! ## Every record -/

section Each

variable {Q : ρ → Prop}

theorem Inserted.each (hadd : Inserted s r n s') (hr : Q r) (h : ∀ i x, s.get i = some x → Q x) :
    ∀ i x, s'.get i = some x → Q x := by
  intro i x hget
  by_cases hi : i = n
  · rw [hi, hadd.found] at hget
    exact Option.some.inj hget ▸ hr
  · exact h i x (hadd.other i hi ▸ hget)

theorem Replaced.each (hrep : Replaced P s r n s') (hr : Q r)
    (h : ∀ i x, s.get i = some x → Q x) : ∀ i x, s'.get i = some x → Q x := by
  cases hrep with
  | fresh _ hadd => exact hadd.each hr h
  | found _ _ _ _ hfound hother =>
      intro i x hget
      by_cases hi : i = n
      · rw [hi, hfound] at hget
        exact Option.some.inj hget ▸ hr
      · exact h i x ((hother i hi x).mp hget).1

theorem Deleted.each (hdel : Deleted P s s') (h : ∀ i x, s.get i = some x → Q x) :
    ∀ i x, s'.get i = some x → Q x := fun i x hget => h i x ((hdel.get i x).mp hget).1

end Each

/-! ## Numbers -/

theorem Inserted.keeps (hadd : Inserted s r n s') (h : Represents key s m) : Keeps key s s' := by
  intro i x hget
  have hi : i ≠ n := by
    have hle := h.numbered i x hget
    have hnumber := hadd.number
    omega
  exact ⟨x, by rw [hadd.other i hi, hget], rfl⟩

theorem Inserted.recalls (hadd : Inserted s r n s') : Recalls key s s' := by
  refine ⟨by rw [hadd.last, hadd.number]; omega, ?_⟩
  intro i x hget hle
  have hi : i ≠ n := by
    have hnumber := hadd.number
    omega
  exact ⟨x, by rw [← hadd.other i hi, hget], rfl⟩

theorem Replaced.keeps (hrep : Replaced P s r n s') (h : Represents key s m)
    (hP : ∀ i x, s.get i = some x → (P x ↔ key x = key r)) : Keeps key s s' := by
  cases hrep with
  | fresh _ hadd => exact hadd.keeps h
  | @found x₀ hx₀ hPx₀ _ _ hfound hother =>
      have hkey₀ : key x₀ = key r := (hP n x₀ hx₀).mp hPx₀
      intro i x hget
      by_cases hi : i = n
      · subst hi
        cases hx₀.symm.trans hget
        exact ⟨r, hfound, hkey₀.symm⟩
      · refine ⟨x, (hother i hi x).mpr ⟨hget, fun hPx => hi ?_⟩, rfl⟩
        exact h.unique i n x x₀ hget hx₀ (((hP i x hget).mp hPx).trans hkey₀.symm)

theorem Replaced.recalls (hrep : Replaced P s r n s')
    (hP : ∀ i x, s.get i = some x → (P x ↔ key x = key r)) : Recalls key s s' := by
  cases hrep with
  | fresh _ hadd => exact hadd.recalls
  | @found x₀ hx₀ hPx₀ _ hlast hfound hother =>
      refine ⟨Nat.le_of_eq hlast.symm, fun i x hget _ => ?_⟩
      by_cases hi : i = n
      · subst hi
        cases hfound.symm.trans hget
        exact ⟨x₀, hx₀, (hP i x₀ hx₀).mp hPx₀⟩
      · exact ⟨x, ((hother i hi x).mp hget).1, rfl⟩

/-- The number of the new record was given out before exactly when the key had a record. -/
theorem Replaced.number_le_iff (hrep : Replaced P s r n s') (h : Represents key s m)
    (hP : ∀ i x, s.get i = some x → (P x ↔ key x = key r)) :
    n ≤ s.last ↔ ∃ x, s.get n = some x ∧ key x = key r := by
  cases hrep with
  | fresh hnone hadd =>
      have hnumber := hadd.number
      refine ⟨fun hle => absurd hle (by omega), ?_⟩
      rintro ⟨x, hget, -⟩
      exact h.numbered n x hget
  | @found x₀ hx₀ hPx₀ _ _ _ _ =>
      exact ⟨fun _ => ⟨x₀, hx₀, (hP n x₀ hx₀).mp hPx₀⟩, fun _ => h.numbered n x₀ hx₀⟩

theorem Replaced.found_new (hrep : Replaced P s r n s') : s'.get n = some r := by
  cases hrep with
  | fresh _ hadd => exact hadd.found
  | found _ _ _ _ hfound _ => exact hfound

end Records
