import Mathlib.Data.List.AList

/-!
# Key-value tables

A `Table κ α` is a Mathlib association list without repeated keys.  The order of its
entries stands for the order in which a hash scan visits them, which no theorem here
depends on: results are stated through `lookup`.

`mergeWith` is the one scan the development needs: it visits the entries of a second
table and stores, under each key, a value computed from what the first table held.

## Main definitions

* `Tables.Table` — a table with one entry per key.
* `Tables.mergeWith` — scan one table into another.
* `Tables.scanM` — visit every entry with a check that can fail.
* `Tables.DistinctOn` — a projection of the values tells the keys apart.
* `Tables.Extension` — a table with more keys.
* `Tables.Each`, `Tables.restrict` — what holds of every entry, and the entries of which it does.
-/

namespace Tables

universe u v w

/-- A table with one entry per key. -/
abbrev Table (κ : Type u) (α : Type v) := AList fun _ : κ => α

variable {κ : Type u} [DecidableEq κ] {α β : Type v} {ι : Type w}

/-- Visit every entry of `s₂` and store under its key the value `f` computes from the
key, the value already stored there, and the visited value. -/
def mergeWith (f : κ → Option α → β → α) (s₁ : Table κ α) (s₂ : Table κ β) : Table κ α :=
  s₂.foldl (fun t k b => t.insert k (f k (t.lookup k) b)) s₁

private theorem lookup_foldl_insert (f : κ → Option α → β → α) (k : κ) :
    ∀ (l : List (Sigma fun _ : κ => β)), l.NodupKeys → ∀ s : Table κ α,
      (l.foldl (fun t e => t.insert e.1 (f e.1 (t.lookup e.1) e.2)) s).lookup k =
        match l.dlookup k with
        | some b => some (f k (s.lookup k) b)
        | none => s.lookup k := by
  intro l
  induction l with
  | nil => intro _ s; simp
  | cons e l ih =>
      intro hnd s
      obtain ⟨a, b⟩ := e
      rw [List.nodupKeys_cons] at hnd
      rw [List.foldl_cons, ih hnd.2]
      by_cases hk : k = a
      · subst hk
        have hnone : l.dlookup k = none := List.dlookup_eq_none.mpr hnd.1
        simp [hnone, List.dlookup_cons_eq]
      · rw [List.dlookup_cons_ne _ _ hk]
        simp [AList.lookup_insert_ne hk]

/-- What a merged table holds: the combined value under the keys of the second table,
and the first table's own value under every other key. -/
theorem lookup_mergeWith (f : κ → Option α → β → α) (s₁ : Table κ α) (s₂ : Table κ β) (k : κ) :
    (mergeWith f s₁ s₂).lookup k =
      match s₂.lookup k with
      | some b => some (f k (s₁.lookup k) b)
      | none => s₁.lookup k :=
  lookup_foldl_insert f k s₂.entries s₂.nodupKeys s₁

theorem lookup_mergeWith_of_some {f : κ → Option α → β → α} {s₁ : Table κ α} {s₂ : Table κ β}
    {k : κ} {b : β} (h : s₂.lookup k = some b) :
    (mergeWith f s₁ s₂).lookup k = some (f k (s₁.lookup k) b) := by
  rw [lookup_mergeWith, h]

theorem lookup_mergeWith_of_none {f : κ → Option α → β → α} {s₁ : Table κ α} {s₂ : Table κ β}
    {k : κ} (h : s₂.lookup k = none) : (mergeWith f s₁ s₂).lookup k = s₁.lookup k := by
  rw [lookup_mergeWith, h]

@[simp] theorem mem_mergeWith {f : κ → Option α → β → α} {s₁ : Table κ α} {s₂ : Table κ β}
    {k : κ} : k ∈ mergeWith f s₁ s₂ ↔ k ∈ s₁ ∨ k ∈ s₂ := by
  rw [← AList.lookup_isSome, lookup_mergeWith, ← AList.lookup_isSome, ← AList.lookup_isSome]
  cases s₂.lookup k <;> simp

theorem mem_iff_exists_lookup {t : Table κ α} {k : κ} : k ∈ t ↔ ∃ a, t.lookup k = some a := by
  rw [← AList.lookup_isSome, Option.isSome_iff_exists]

theorem mem_of_lookup {t : Table κ α} {k : κ} {a : α} (h : t.lookup k = some a) : k ∈ t :=
  mem_iff_exists_lookup.mpr ⟨a, h⟩

/-- The scan order: the entries are exactly what `lookup` finds. -/
theorem mem_entries_iff {t : Table κ α} {k : κ} {a : α} :
    (⟨k, a⟩ : Sigma fun _ : κ => α) ∈ t.entries ↔ t.lookup k = some a := by
  rw [← Option.mem_def, AList.mem_lookup_iff]

/-! ## Scans that can fail -/

/-- Visit every entry and stop at the first failure. -/
def scanM {ε : Type w} (f : κ → α → Except ε Unit) (t : Table κ α) : Except ε Unit :=
  t.entries.foldlM (fun _ e => f e.1 e.2) ()

/-! ## Values that tell their keys apart -/

/-- No two keys hold values with the same projection. -/
def DistinctOn (g : α → ι) (t : Table κ α) : Prop :=
  ∀ k k' a a', t.lookup k = some a → t.lookup k' = some a' → g a = g a' → k = k'

variable {g : α → ι} {t : Table κ α} {k : κ} {a : α}

@[simp] theorem distinctOn_empty : DistinctOn g (∅ : Table κ α) := by
  intro k k' a a' h
  simp at h

/-- A new key keeps the projections distinct exactly when its projection is not in use. -/
theorem distinctOn_insert_iff (h : DistinctOn g t) (hk : k ∉ t) :
    DistinctOn g (t.insert k a) ↔ ∀ k' a', t.lookup k' = some a' → g a' ≠ g a := by
  constructor
  · intro hd k' a' hk' heq
    have hne : k' ≠ k := by
      rintro rfl
      exact hk (mem_of_lookup hk')
    exact hne (hd k' k a' a (by rw [AList.lookup_insert_ne hne]; exact hk')
      (AList.lookup_insert t) heq)
  · intro hfree k₁ k₂ a₁ a₂ h₁ h₂ heq
    by_cases e₁ : k₁ = k <;> by_cases e₂ : k₂ = k
    · rw [e₁, e₂]
    · subst e₁
      rw [AList.lookup_insert, Option.some.injEq] at h₁
      rw [AList.lookup_insert_ne e₂] at h₂
      exact absurd (by rw [h₁, heq]) (hfree k₂ a₂ h₂)
    · subst e₂
      rw [AList.lookup_insert, Option.some.injEq] at h₂
      rw [AList.lookup_insert_ne e₁] at h₁
      exact absurd (by rw [heq, h₂]) (hfree k₁ a₁ h₁)
    · rw [AList.lookup_insert_ne e₁] at h₁
      rw [AList.lookup_insert_ne e₂] at h₂
      exact h k₁ k₂ a₁ a₂ h₁ h₂ heq

/-- Overwriting a value by one with the same projection keeps the projections distinct. -/
theorem distinctOn_insert_of_lookup {b : α} (h : DistinctOn g t) (hk : t.lookup k = some a)
    (hg : g b = g a) : DistinctOn g (t.insert k b) := by
  have hsame : ∀ k' b', (t.insert k b).lookup k' = some b' →
      ∃ a', t.lookup k' = some a' ∧ g a' = g b' := by
    intro k' b' hk'
    by_cases hkk : k' = k
    · subst hkk
      rw [AList.lookup_insert, Option.some.injEq] at hk'
      exact ⟨a, hk, by rw [← hk', hg]⟩
    · rw [AList.lookup_insert_ne hkk] at hk'
      exact ⟨b', hk', rfl⟩
  intro k₁ k₂ b₁ b₂ h₁ h₂ heq
  obtain ⟨a₁, ha₁, hg₁⟩ := hsame k₁ b₁ h₁
  obtain ⟨a₂, ha₂, hg₂⟩ := hsame k₂ b₂ h₂
  exact h k₁ k₂ a₁ a₂ ha₁ ha₂ (by rw [hg₁, hg₂, heq])

/-- When each stored value takes its projection from the visited one, a merged table
keeps the projections distinct exactly when the visited values are distinct among
themselves and none of them is in use under a key that the second table leaves alone. -/
theorem distinctOn_mergeWith_iff {f : κ → Option α → α → α} {s₁ s₂ : Table κ α}
    (hf : ∀ k o b, g (f k o b) = g b) (h : DistinctOn g s₁) :
    DistinctOn g (mergeWith f s₁ s₂) ↔
      DistinctOn g s₂ ∧
        ∀ k₁ k₂ a₁ a₂, k₁ ∉ s₂ → s₁.lookup k₁ = some a₁ → s₂.lookup k₂ = some a₂ →
          g a₁ ≠ g a₂ := by
  constructor
  · intro hd
    refine ⟨?_, ?_⟩
    · intro k k' a a' hk hk' heq
      exact hd k k' _ _ (lookup_mergeWith_of_some hk) (lookup_mergeWith_of_some hk')
        (by rw [hf, hf, heq])
    · intro k₁ k₂ a₁ a₂ hnot h₁ h₂ heq
      have hnone : s₂.lookup k₁ = none := AList.lookup_eq_none.mpr hnot
      have hkk : k₁ = k₂ := hd k₁ k₂ a₁ _ (by rw [lookup_mergeWith_of_none hnone, h₁])
        (lookup_mergeWith_of_some h₂) (by rw [hf, heq])
      exact hnot (hkk ▸ mem_of_lookup h₂)
  · rintro ⟨hd₂, hfree⟩ k k' a a' hk hk' heq
    rw [lookup_mergeWith] at hk hk'
    cases h₁ : s₂.lookup k with
    | none =>
        rw [h₁] at hk
        have hnot : k ∉ s₂ := AList.lookup_eq_none.mp h₁
        cases h₂ : s₂.lookup k' with
        | none => rw [h₂] at hk'; exact h k k' a a' hk hk' heq
        | some b' =>
            rw [h₂, Option.some.injEq] at hk'
            exact absurd (by rw [heq, ← hk', hf]) (hfree k k' a b' hnot hk h₂)
    | some b =>
        rw [h₁, Option.some.injEq] at hk
        cases h₂ : s₂.lookup k' with
        | none =>
            rw [h₂] at hk'
            have hnot : k' ∉ s₂ := AList.lookup_eq_none.mp h₂
            exact absurd (by rw [← heq, ← hk, hf]) (hfree k' k a' b hnot hk' h₁)
        | some b' =>
            rw [h₂, Option.some.injEq] at hk'
            exact hd₂ k k' b b' h₁ h₂ (by rw [← hf k (s₁.lookup k) b, hk, heq, ← hk', hf])

/-! ## More keys -/

/-- What was stored stays, and what is stored under a new key meets `Q`. -/
structure Extension (Q : α → Prop) (t t' : Table κ α) : Prop where
  retained : ∀ k a, t.lookup k = some a → t'.lookup k = some a
  introduced : ∀ k a, t'.lookup k = some a → t.lookup k = none → Q a

section Extension

variable {Q : α → Prop} {t' t'' : Table κ α}

theorem Extension.refl (Q : α → Prop) (t : Table κ α) : Extension Q t t :=
  ⟨fun _ _ h => h, fun _ _ h hnone => by rw [h] at hnone; cases hnone⟩

theorem Extension.trans (h : Extension Q t t') (h' : Extension Q t' t'') :
    Extension Q t t'' := by
  refine ⟨fun k a hk => h'.retained k a (h.retained k a hk), ?_⟩
  intro k a hk hnone
  cases hmid : t'.lookup k with
  | none => exact h'.introduced k a hk hmid
  | some b =>
      have hsame : b = a := Option.some.inj ((h'.retained k b hmid).symm.trans hk)
      exact hsame ▸ h.introduced k b hmid hnone

theorem Extension.insert (hk : k ∉ t) (ha : Q a) : Extension Q t (t.insert k a) := by
  have hne : ∀ k', k' ≠ k → (t.insert k a).lookup k' = t.lookup k' :=
    fun k' h => AList.lookup_insert_ne h
  refine ⟨?_, ?_⟩
  · intro k' b hb
    have : k' ≠ k := by
      rintro rfl
      exact hk (mem_of_lookup hb)
    rw [hne k' this, hb]
  · intro k' b hb hnone
    by_cases hkk : k' = k
    · subst hkk
      rw [AList.lookup_insert, Option.some.injEq] at hb
      exact hb ▸ ha
    · rw [hne k' hkk, hnone] at hb
      cases hb

/-- What is stored in the larger table was stored before, or meets `Q`. -/
theorem Extension.cases (h : Extension Q t t') {b : α} (hb : t'.lookup k = some b) :
    t.lookup k = some b ∨ Q b := by
  cases hk : t.lookup k with
  | none => exact .inr (h.introduced k b hb hk)
  | some c =>
      have hsame : c = b := Option.some.inj ((h.retained k c hk).symm.trans hb)
      exact .inl (by rw [hsame])

end Extension

/-! ## Scans that return -/

/-- A scan returns exactly when it does so for every entry. -/
theorem scanM_ok_iff {ε : Type w} {f : κ → α → Except ε Unit} {t : Table κ α} :
    scanM f t = .ok () ↔ ∀ k a, t.lookup k = some a → f k a = .ok () := by
  have key : ∀ l : List (Sigma fun _ : κ => α),
      l.foldlM (fun (_ : Unit) e => f e.1 e.2) () = .ok () ↔ ∀ e ∈ l, f e.1 e.2 = .ok () := by
    intro l
    induction l with
    | nil => simp [pure, Except.pure]
    | cons e l ih =>
        rw [List.foldlM_cons]
        cases h : f e.1 e.2 with
        | ok u => simp [bind, Except.bind, ih, h]
        | error x => simp [bind, Except.bind, h]
  rw [scanM, key]
  constructor
  · intro h k a hk
    exact h ⟨k, a⟩ (mem_entries_iff.mpr hk)
  · rintro h ⟨k, a⟩ he
    exact h k a (mem_entries_iff.mp he)

/-! ## What holds of every entry -/

/-- Every entry meets `Q`. -/
def Each (Q : κ → α → Prop) (t : Table κ α) : Prop := ∀ k a, t.lookup k = some a → Q k a

section Each

variable {Q : κ → α → Prop} {t s₁ : Table κ α} {s₂ : Table κ β} {k : κ} {a : α}
  {f : κ → Option α → β → α}

@[simp] theorem each_empty : Each Q (∅ : Table κ α) := by
  intro k a h
  simp at h

theorem Each.insert (h : Each Q t) (hk : Q k a) : Each Q (t.insert k a) := by
  intro k' a' hk'
  by_cases hkk : k' = k
  · subst hkk
    rw [AList.lookup_insert, Option.some.injEq] at hk'
    exact hk' ▸ hk
  · rw [AList.lookup_insert_ne hkk] at hk'
    exact h k' a' hk'

theorem Each.mergeWith (h : Each Q s₁)
    (hf : ∀ k b, s₂.lookup k = some b → Q k (f k (s₁.lookup k) b)) :
    Each Q (mergeWith f s₁ s₂) := by
  intro k a hk
  cases hb : s₂.lookup k with
  | none => exact h k a ((lookup_mergeWith_of_none hb).symm.trans hk)
  | some b =>
      rw [lookup_mergeWith_of_some hb, Option.some.injEq] at hk
      exact hk ▸ hf k b hb

theorem each_iff_entries : Each Q t ↔ ∀ e ∈ t.entries, Q e.1 e.2 :=
  ⟨fun h e he => h e.1 e.2 (mem_entries_iff.mp he),
    fun h k a hk => h ⟨k, a⟩ (mem_entries_iff.mpr hk)⟩

instance [∀ k a, Decidable (Q k a)] : Decidable (Each Q t) :=
  decidable_of_iff _ each_iff_entries.symm

end Each

/-! ## Some of the entries -/

/-- The entries that meet `p`. -/
def restrict (p : κ → α → Bool) (t : Table κ α) : Table κ α where
  entries := t.entries.filter fun e => p e.1 e.2
  nodupKeys := t.nodupKeys.sublist List.filter_sublist

theorem lookup_restrict_eq_some_iff {p : κ → α → Bool} {t : Table κ α} {k : κ} {a : α} :
    (restrict p t).lookup k = some a ↔ t.lookup k = some a ∧ p k a := by
  rw [← mem_entries_iff, ← mem_entries_iff, restrict, List.mem_filter]

theorem lookup_mergeWith_empty {f : κ → Option α → β → α} {s₂ : Table κ β} {k : κ} :
    (mergeWith f ∅ s₂).lookup k = (s₂.lookup k).map (f k none) := by
  rw [lookup_mergeWith]
  cases s₂.lookup k <;> simp

theorem eq_empty_of_lookup {t : Table κ α} (h : ∀ k, t.lookup k = none) : t = ∅ := by
  refine AList.ext (List.eq_nil_iff_forall_not_mem.mpr fun e he => ?_)
  have hlook := mem_entries_iff.mp he
  rw [h e.1] at hlook
  cases hlook

end Tables
