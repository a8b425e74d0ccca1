import LibSwish3.Lib.Runs

/-!
# Two calls side by side

`Related R H x y` says of two calls that both return, with results related by `R`, or both fail,
in ways related by `H`.  It goes through sequences of calls (`Related.bind`) and through runs
whose steps are related (`related_run`), where the condition on the steps is one on the first of
the two runs.

## Main definitions

* `Runs.Related` — two calls that end alike.
-/

namespace Runs

universe u v

variable {α α' β β' : Type u} {ε : Type v} {R : α → α' → Prop} {S : β → β' → Prop}
  {H : ε → ε → Prop} {x : Except ε α} {y : Except ε α'}

/-- Both calls return related results, or both fail in related ways. -/
def Related (R : α → α' → Prop) (H : ε → ε → Prop) : Except ε α → Except ε α' → Prop
  | .ok a, .ok b => R a b
  | .error e, .error e' => H e e'
  | .ok _, .error _ | .error _, .ok _ => False

@[simp] theorem related_ok_iff {a : α} {b : α'} :
    Related R H (.ok a : Except ε α) (.ok b) ↔ R a b := Iff.rfl

@[simp] theorem related_error_iff {e e' : ε} :
    Related R H (.error e) (.error e') ↔ H e e' := Iff.rfl

theorem related_of_eq {R : α → α → Prop} {x y : Except ε α} (hR : ∀ a, R a a) (hH : ∀ e, H e e)
    (h : x = y) : Related R H x y := by
  subst h
  cases x with
  | ok a => exact hR a
  | error e => exact hH e

/-- The same call twice. -/
theorem related_self (x : Except ε α) : Related (· = ·) (· = ·) x x :=
  related_of_eq (fun _ => rfl) (fun _ => rfl) rfl

theorem Related.mono {R' : α → α' → Prop} {H' : ε → ε → Prop} (h : Related R H x y)
    (hR : ∀ a b, x = .ok a → R a b → R' a b) (hH : ∀ e e', H e e' → H' e e') :
    Related R' H' x y := by
  cases x with
  | ok a =>
      cases y with
      | ok b => exact hR a b rfl h
      | error e => exact h
  | error e =>
      cases y with
      | ok b => exact h
      | error e' => exact hH e e' h

theorem Related.bind {f : α → Except ε β} {g : α' → Except ε β'} (h : Related R H x y)
    (hfg : ∀ a b, x = .ok a → y = .ok b → R a b → Related S H (f a) (g b)) :
    Related S H (x >>= f) (y >>= g) := by
  cases x with
  | ok a =>
      cases y with
      | ok b => exact hfg a b rfl rfl h
      | error e => exact h.elim
  | error e =>
      cases y with
      | ok b => exact h.elim
      | error e' => exact h

/-- Runs whose steps are related, where each step of the first one meets a condition. -/
theorem related_run {σ σ' ι ι' : Type u} {R : σ → σ' → Prop} {C : σ → ι → Prop}
    {step : σ → ι → Except ε σ} {step' : σ' → ι' → Except ε σ'} {f : ι → ι'}
    (hstep : ∀ s s' e, R s s' → C s e → Related R H (step s e) (step' s' (f e))) {s : σ} {s' : σ'}
    {es : List ι} (h : R s s') (hC : Steps step C s es) :
    Related R H (run step s es) (run step' s' (es.map f)) := by
  induction es generalizing s s' with
  | nil => exact h
  | cons e es ih =>
      have hone := hstep s s' e h hC.head
      rw [List.map_cons]
      cases hs : step s e with
      | ok t =>
          cases hs' : step' s' (f e) with
          | ok t' =>
              rw [hs, hs'] at hone
              rw [run_cons_of_ok hs, run_cons_of_ok hs']
              exact ih hone (hC.tail hs)
          | error y =>
              rw [hs, hs'] at hone
              exact hone.elim
      | error x =>
          cases hs' : step' s' (f e) with
          | ok t' =>
              rw [hs, hs'] at hone
              exact hone.elim
          | error y =>
              rw [hs, hs'] at hone
              rw [run_cons_of_error hs, run_cons_of_error hs']
              exact hone

end Runs
