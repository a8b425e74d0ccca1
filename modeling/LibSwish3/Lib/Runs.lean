import Mathlib.Logic.Basic

/-!
# Runs of a fallible step function

`run step s es` feeds the inputs `es` to `step`, left to right, and stops at the
first failure.  A property of a run is proved once per step and carried along the
run by the rules below: `invariant` for a property every step keeps,
`invariant_of_steps` for one kept by the steps that meet a side condition, and
`progress` for runs that cannot fail.

`Steps step C s es` says that each step the run takes meets `C`.  It speaks about
the state before the step and the input, so it can be read off the run without
knowing how the run ends.

## Main definitions

* `Runs.run` — the run of a step function over a list of inputs.
* `Runs.Steps` — a condition met by every step a run takes.
* `Runs.EndsWell` — how a call returns and how it fails.
* `Runs.cost` — what the steps of a run cost.
* `Runs.withGhost` — the same run, carrying a value the step never reads.
-/

namespace Runs

universe u v w

variable {σ : Type u} {α : Type v} {ε : Type w}

/-- A sequence of two calls returns exactly when both return. -/
theorem bind_ok_iff {α β : Type u} {x : Except ε α} {f : α → Except ε β} {b : β} :
    x >>= f = .ok b ↔ ∃ a, x = .ok a ∧ f a = .ok b := by
  cases x with
  | ok a => simp [bind, Except.bind]
  | error e => simp [bind, Except.bind]

@[simp] theorem ok_bind {α β : Type u} (a : α) (f : α → Except ε β) :
    (Except.ok a : Except ε α) >>= f = f a := rfl

@[simp] theorem error_bind {α β : Type u} (x : ε) (f : α → Except ε β) :
    (Except.error x : Except ε α) >>= f = .error x := rfl

@[simp] theorem pure_eq_ok {α : Type u} (a : α) : (pure a : Except ε α) = .ok a := rfl

/-- What can be computed from the result of a call that returns. -/
theorem exists_ok_of_map {α β : Type u} {x : Except ε α} {f : α → β} {b : β}
    (h : x.toOption.map f = some b) : ∃ a, x = .ok a ∧ f a = b := by
  cases x with
  | ok a => exact ⟨a, rfl, Option.some.inj h⟩
  | error e => cases h

theorem isOk_iff {α : Type u} {x : Except ε α} : x.isOk = true ↔ ∃ a, x = .ok a := by
  cases x <;> simp [Except.isOk, Except.toBool]

theorem mapError_ok_iff {α : Type u} {ε' : Type w} {x : Except ε α} {f : ε → ε'} {a : α} :
    x.mapError f = .ok a ↔ x = .ok a := by
  cases x with
  | error e => constructor <;> intro h <;> cases h
  | ok b => constructor <;> intro h <;> cases h <;> rfl

/-- Feed the inputs to the step function, left to right. -/
def run (step : σ → α → Except ε σ) : σ → List α → Except ε σ
  | s, [] => .ok s
  | s, e :: es =>
    match step s e with
    | .ok t => run step t es
    | .error x => .error x

/-- Every step the run takes is taken from a state and on an input related by `C`. -/
def Steps (step : σ → α → Except ε σ) (C : σ → α → Prop) (s : σ) (es : List α) : Prop :=
  ∀ pre e post t, es = pre ++ e :: post → run step s pre = .ok t → C t e

variable {step : σ → α → Except ε σ} {C : σ → α → Prop} {I : σ → Prop} {s t : σ}
  {e : α} {es fs : List α}

@[simp] theorem run_nil : run step s [] = .ok s := rfl

theorem run_cons_of_ok (h : step s e = .ok t) : run step s (e :: es) = run step t es := by
  simp only [run, h]

theorem run_cons_of_error {x : ε} (h : step s e = .error x) :
    run step s (e :: es) = .error x := by
  simp only [run, h]

theorem run_cons_ok_iff :
    run step s (e :: es) = .ok t ↔ ∃ u, step s e = .ok u ∧ run step u es = .ok t := by
  cases h : step s e with
  | ok u => simp [run, h]
  | error x => simp [run, h]

theorem run_append_of_ok (h : run step s es = .ok t) :
    run step s (es ++ fs) = run step t fs := by
  induction es generalizing s with
  | nil => cases h; rfl
  | cons e es ih =>
      obtain ⟨u, hu, hrun⟩ := run_cons_ok_iff.mp h
      rw [List.cons_append, run_cons_of_ok hu, ih hrun]

theorem run_append_of_error {x : ε} (h : run step s es = .error x) :
    run step s (es ++ fs) = .error x := by
  induction es generalizing s with
  | nil => cases h
  | cons e es ih =>
      rw [List.cons_append]
      cases hs : step s e with
      | ok u => rw [run_cons_of_ok hs] at h ⊢; exact ih h
      | error y => rw [run_cons_of_error hs] at h ⊢; exact h

theorem run_append_ok_iff :
    run step s (es ++ fs) = .ok t ↔ ∃ u, run step s es = .ok u ∧ run step u fs = .ok t := by
  cases h : run step s es with
  | ok u => simp [run_append_of_ok h]
  | error x => simp [run_append_of_error h]

theorem run_singleton : run step s [e] = step s e := by
  cases h : step s e with
  | ok u => rw [run_cons_of_ok h, run_nil]
  | error x => rw [run_cons_of_error h]

/-! ## Conditions on the steps of a run -/

@[simp] theorem steps_nil : Steps step C s [] := by
  intro pre e post t h
  simp at h

theorem steps_cons_iff :
    Steps step C s (e :: es) ↔ C s e ∧ ∀ u, step s e = .ok u → Steps step C u es := by
  constructor
  · intro h
    refine ⟨h [] e es s rfl rfl, ?_⟩
    intro u hu pre f post t heq hrun
    exact h (e :: pre) f post t (by rw [heq]; rfl) (by rw [run_cons_of_ok hu]; exact hrun)
  · rintro ⟨h₀, hrest⟩ pre f post t heq hrun
    cases pre with
    | nil =>
        obtain ⟨rfl, rfl⟩ := List.cons.inj heq
        cases hrun
        exact h₀
    | cons g pre =>
        obtain ⟨rfl, htail⟩ := List.cons.inj heq
        obtain ⟨u, hu, hrun⟩ := run_cons_ok_iff.mp hrun
        exact hrest u hu pre f post t htail hrun

/-- The first step and the rest, where the first is known to return. -/
theorem steps_cons_of_ok {u : σ} (h : C s e) (hu : step s e = .ok u)
    (hrest : Steps step C u es) : Steps step C s (e :: es) := by
  refine steps_cons_iff.mpr ⟨h, fun v hv => ?_⟩
  cases hu.symm.trans hv
  exact hrest

theorem Steps.head (h : Steps step C s (e :: es)) : C s e := (steps_cons_iff.mp h).1

theorem Steps.tail (h : Steps step C s (e :: es)) (hu : step s e = .ok t) :
    Steps step C t es := (steps_cons_iff.mp h).2 t hu

theorem Steps.append_left (h : Steps step C s (es ++ fs)) : Steps step C s es := by
  intro pre e post t heq hrun
  exact h pre e (post ++ fs) t (by rw [heq]; simp) hrun

/-- A condition on the inputs alone is one on the steps. -/
theorem steps_of_forall {Q : α → Prop} (h : ∀ e ∈ es, Q e) :
    Steps step (fun _ e => Q e) s es := by
  intro pre e post t heq _
  exact h e (by rw [heq]; simp)

theorem Steps.and {D : σ → α → Prop} (hC : Steps step C s es) (hD : Steps step D s es) :
    Steps step (fun t e => C t e ∧ D t e) s es := by
  intro pre e post t heq hrun
  exact ⟨hC pre e post t heq hrun, hD pre e post t heq hrun⟩

/-! ## Induction rules -/

/-- A property that each step keeps when it meets `C` holds at the end of a run whose
steps all meet `C`. -/
theorem invariant_of_steps
    (hstep : ∀ t e u, I t → C t e → step t e = .ok u → I u) (h₀ : I s)
    (hC : Steps step C s es) (hrun : run step s es = .ok t) : I t := by
  induction es generalizing s with
  | nil => cases hrun; exact h₀
  | cons e es ih =>
      obtain ⟨u, hu, hrun⟩ := run_cons_ok_iff.mp hrun
      exact ih (hstep s e u h₀ hC.head hu) (hC.tail hu) hrun

/-- A property that every step keeps holds at the end of every run. -/
theorem invariant (hstep : ∀ t e u, I t → step t e = .ok u → I u) (h₀ : I s)
    (hrun : run step s es = .ok t) : I t :=
  invariant_of_steps (C := fun _ _ => True) (fun t e u hi _ => hstep t e u hi) h₀
    (fun _ _ _ _ _ _ => trivial) hrun

/-- A property that each step keeps exactly when it meets `C` holds at the end of a run exactly
when it held at the start and all steps meet `C`. -/
theorem holds_iff_steps {Z : σ → Prop} (hI : ∀ t e u, I t → e ∈ es → step t e = .ok u → I u)
    (hstep : ∀ t e u, I t → e ∈ es → step t e = .ok u → (Z u ↔ Z t ∧ C t e)) (h₀ : I s)
    (hrun : run step s es = .ok t) : Z t ↔ Z s ∧ Steps step C s es := by
  induction es generalizing s with
  | nil =>
      cases hrun
      simp
  | cons e es ih =>
      obtain ⟨u, hu, hrun⟩ := run_cons_ok_iff.mp hrun
      have hrest : Steps step C s (e :: es) ↔ C s e ∧ Steps step C u es := by
        rw [steps_cons_iff]
        refine and_congr_right fun _ => ⟨fun h => h u hu, fun h v hv => ?_⟩
        cases hu.symm.trans hv
        exact h
      rw [ih (fun t f v hI' hf => hI t f v hI' (List.mem_cons_of_mem _ hf))
        (fun t f v hI' hf => hstep t f v hI' (List.mem_cons_of_mem _ hf))
        (hI s e u h₀ List.mem_cons_self hu) hrun, hstep s e u h₀ List.mem_cons_self hu, hrest,
        and_assoc]

/-- Where a step behind which the property held keeps it exactly when it meets `C`, the property
holds after every part of a run exactly when all steps meet `C`. -/
theorem prefixes_iff_steps (hstep : ∀ t e u, I t → step t e = .ok u → (I u ↔ C t e)) (h₀ : I s)
    (hrun : run step s es = .ok t) :
    (∀ pre post u, es = pre ++ post → run step s pre = .ok u → I u) ↔ Steps step C s es := by
  constructor
  · rintro hall pre e post u rfl hpre
    obtain ⟨u', hu', hrest⟩ := run_append_ok_iff.mp hrun
    cases hpre.symm.trans hu'
    obtain ⟨v, hv, -⟩ := run_cons_ok_iff.mp hrest
    have hI : I v := by
      refine hall (pre ++ [e]) post v (by simp) ?_
      exact run_append_ok_iff.mpr ⟨u, hpre, run_singleton.trans hv⟩
    exact (hstep u e v (hall pre (e :: post) u rfl hpre) hv).mp hI
  · rintro hsteps pre post u rfl hpre
    exact invariant_of_steps (fun t e v hI hC hv => (hstep t e v hI hv).mpr hC) h₀
      hsteps.append_left hpre

/-- A condition that follows from an invariant is met by every step. -/
theorem steps_of_invariant (hstep : ∀ t e u, I t → step t e = .ok u → I u) (h₀ : I s)
    (hC : ∀ t e, I t → C t e) : Steps step C s es := by
  intro pre e post t _ hrun
  exact hC t e (invariant hstep h₀ hrun)

/-- Two conditions that agree wherever an invariant holds are met by the same runs. -/
theorem steps_congr {D : σ → α → Prop} (hstep : ∀ t e u, I t → step t e = .ok u → I u)
    (hCD : ∀ t e, I t → (C t e ↔ D t e)) (h₀ : I s) : Steps step C s es ↔ Steps step D s es := by
  constructor
  · intro h pre e post t heq hrun
    exact (hCD t e (invariant hstep h₀ hrun)).mp (h pre e post t heq hrun)
  · intro h pre e post t heq hrun
    exact (hCD t e (invariant hstep h₀ hrun)).mpr (h pre e post t heq hrun)

/-- Steps that meet `C` and cannot fail from a good state make a run that cannot fail. -/
theorem progress
    (hstep : ∀ t e, I t → C t e → ∃ u, step t e = .ok u ∧ I u) (h₀ : I s)
    (hC : Steps step C s es) : ∃ t, run step s es = .ok t ∧ I t := by
  induction es generalizing s with
  | nil => exact ⟨s, rfl, h₀⟩
  | cons e es ih =>
      obtain ⟨u, hu, hinv⟩ := hstep s e h₀ hC.head
      obtain ⟨t, ht, hfinal⟩ := ih hinv (hC.tail hu)
      exact ⟨t, by rw [run_cons_of_ok hu, ht], hfinal⟩

/-! ## How a call ends -/

/-- A call fails only in ways that meet `E`. -/
def FailsAs {α : Type u} (E : ε → Prop) (x : Except ε α) : Prop := ∀ e, x = .error e → E e

/-- A call ends well: what it returns meets `Q`, and it fails only in ways that meet `E`. -/
structure EndsWell {α : Type u} (Q : α → Prop) (E : ε → Prop) (x : Except ε α) : Prop where
  returns : ∀ a, x = .ok a → Q a
  fails : FailsAs E x

section EndsWell

variable {α β : Type u} {Q : α → Prop} {R : β → Prop} {E : ε → Prop} {x : Except ε α}
  {f : α → Except ε β}

theorem failsAs_ok (a : α) : FailsAs E (.ok a : Except ε α) := by
  intro e h
  cases h

theorem failsAs_error {e : ε} (h : E e) : FailsAs E (.error e : Except ε α) := by
  intro e' heq
  cases heq
  exact h

theorem FailsAs.bind (hx : FailsAs E x) (hf : ∀ a, x = .ok a → FailsAs E (f a)) :
    FailsAs E (x >>= f) := by
  cases x with
  | ok a => exact hf a rfl
  | error e => exact failsAs_error (hx e rfl)

theorem endsWell_ok {a : α} (h : Q a) : EndsWell Q E (.ok a) :=
  ⟨fun _ heq => Except.ok.inj heq ▸ h, failsAs_ok a⟩

theorem EndsWell.mono {P : α → Prop} (hx : EndsWell Q E x) (hPQ : ∀ a, Q a → P a) :
    EndsWell P E x :=
  ⟨fun a h => hPQ a (hx.returns a h), hx.fails⟩

theorem EndsWell.bind (hx : EndsWell Q E x) (hf : ∀ a, x = .ok a → Q a → EndsWell R E (f a)) :
    EndsWell R E (x >>= f) := by
  cases x with
  | ok a => exact hf a rfl (hx.returns a rfl)
  | error e => exact ⟨fun _ h => (by cases h), failsAs_error (hx.fails e rfl)⟩

/-- Steps that meet `C` and end well make a run that ends well. -/
theorem endsWell_run {E : ε → Prop}
    (hstep : ∀ t e, I t → C t e → EndsWell I E (step t e)) (h₀ : I s) (hC : Steps step C s es) :
    EndsWell I E (run step s es) := by
  induction es generalizing s with
  | nil => exact endsWell_ok h₀
  | cons e es ih =>
      have hhead := hstep s e h₀ hC.head
      cases hs : step s e with
      | ok u =>
          rw [run_cons_of_ok hs]
          exact ih (hhead.returns u hs) (hC.tail hs)
      | error x =>
          rw [run_cons_of_error hs]
          exact ⟨fun _ h => (by cases h), failsAs_error (hhead.fails x hs)⟩

/-- A run that ends well, and goes on from where it ends. -/
theorem EndsWell.append {Q R : σ → Prop} {E : ε → Prop} (h : EndsWell Q E (run step s es))
    (hrest : ∀ t, Q t → EndsWell R E (run step t fs)) : EndsWell R E (run step s (es ++ fs)) := by
  cases hs : run step s es with
  | ok t =>
      rw [run_append_of_ok hs]
      exact hrest t (h.returns t hs)
  | error x =>
      rw [run_append_of_error hs]
      exact ⟨fun _ h => (by cases h), failsAs_error (h.fails x hs)⟩

/-- Every part of a run that begins where the run does ends well exactly when each step of
the run meets `C`, where `C` says when one step from a state that meets `J` ends well. -/
theorem endsWell_runs_iff {J : σ → Prop} {E : ε → Prop} (hJ : ∀ t, J t → I t)
    (hstep : ∀ t e, J t → (EndsWell I E (step t e) ↔ C t e))
    (hkeep : ∀ t e u, J t → C t e → step t e = .ok u → J u) (h₀ : J s) :
    (∀ pre post, es = pre ++ post → EndsWell I E (run step s pre)) ↔ Steps step C s es := by
  induction es generalizing s with
  | nil =>
      refine iff_of_true ?_ steps_nil
      intro pre post heq
      obtain ⟨rfl, -⟩ := List.append_eq_nil_iff.mp heq.symm
      exact endsWell_ok (hJ s h₀)
  | cons e es ih =>
      rw [steps_cons_iff]
      constructor
      · intro h
        have hone : EndsWell I E (run step s [e]) := h [e] es rfl
        rw [run_singleton] at hone
        have hhead : C s e := (hstep s e h₀).mp hone
        refine ⟨hhead, ?_⟩
        intro u hu
        refine (ih (hkeep s e u h₀ hhead hu)).mp ?_
        intro pre post heq
        rw [← run_cons_of_ok hu]
        exact h (e :: pre) post (by rw [heq]; rfl)
      · rintro ⟨hhead, hrest⟩ pre post heq
        cases pre with
        | nil => exact endsWell_ok (hJ s h₀)
        | cons f pre =>
            obtain ⟨rfl, htail⟩ := List.cons.inj heq
            have hends := (hstep s e h₀).mpr hhead
            cases hs : step s e with
            | ok u =>
                rw [run_cons_of_ok hs]
                exact (ih (hkeep s e u h₀ hhead hs)).mpr (hrest u hs) pre post htail
            | error x =>
                rw [run_cons_of_error hs]
                exact ⟨fun _ h => (by cases h), failsAs_error (hends.fails x hs)⟩

end EndsWell

/-! ## What a run costs -/

/-- The cost of the steps a run takes; the one that fails counts too. -/
def cost (step : σ → α → Except ε σ) (w : σ → α → Nat) : σ → List α → Nat
  | _, [] => 0
  | s, e :: es => w s e +
    match step s e with
    | .ok t => cost step w t es
    | .error _ => 0

section Cost

variable {w : σ → α → Nat} {k : Nat}

@[simp] theorem cost_nil : cost step w s [] = 0 := rfl

theorem cost_cons_of_ok (h : step s e = .ok t) :
    cost step w s (e :: es) = w s e + cost step w t es := by
  simp only [cost, h]

theorem cost_cons_of_error {x : ε} (h : step s e = .error x) :
    cost step w s (e :: es) = w s e := by
  simp only [cost, h, Nat.add_zero]

/-- Steps that cost no more than `k` each. -/
theorem cost_le (hstep : ∀ t e u, I t → step t e = .ok u → I u)
    (hw : ∀ t e, I t → e ∈ es → w t e ≤ k) (h₀ : I s) :
    cost step w s es ≤ es.length * k := by
  induction es generalizing s with
  | nil => exact Nat.zero_le _
  | cons e es ih =>
      have hhead := hw s e h₀ (by simp)
      rw [List.length_cons, Nat.succ_mul]
      cases hs : step s e with
      | ok u =>
          rw [cost_cons_of_ok hs]
          have htail := ih (fun t f hI hf => hw t f hI (by simp [hf])) (hstep s e u h₀ hs)
          omega
      | error x =>
          rw [cost_cons_of_error hs]
          omega

end Cost

/-! ## Ghost values -/

variable {γ : Type u}

/-- Carry a ghost value along a run.  The step never reads it, so it records what
happened without changing what happens. -/
def withGhost (step : σ → α → Except ε σ) (ghost : σ → α → σ → γ → γ) (s : σ × γ) (e : α) :
    Except ε (σ × γ) :=
  match step s.1 e with
  | .ok t => .ok (t, ghost s.1 e t s.2)
  | .error x => .error x

variable {ghost : σ → α → σ → γ → γ} {g g' : γ}

theorem withGhost_ok_iff :
    withGhost step ghost (s, g) e = .ok (t, g') ↔ step s e = .ok t ∧ g' = ghost s e t g := by
  cases h : step s e with
  | ok u =>
      simp only [withGhost, h, Except.ok.injEq, Prod.mk.injEq]
      constructor
      · rintro ⟨rfl, rfl⟩; exact ⟨rfl, rfl⟩
      · rintro ⟨rfl, rfl⟩; exact ⟨rfl, rfl⟩
  | error x => simp [withGhost, h]

/-- Forgetting the ghost value gives back the plain run. -/
theorem run_of_run_withGhost (h : run (withGhost step ghost) (s, g) es = .ok (t, g')) :
    run step s es = .ok t := by
  induction es generalizing s g with
  | nil => cases h; rfl
  | cons e es ih =>
      obtain ⟨⟨u, k⟩, hu, hrun⟩ := run_cons_ok_iff.mp h
      rw [run_cons_of_ok (withGhost_ok_iff.mp hu).1]
      exact ih hrun

/-- Every plain run carries some ghost value. -/
theorem exists_run_withGhost (g : γ) (h : run step s es = .ok t) :
    ∃ g', run (withGhost step ghost) (s, g) es = .ok (t, g') := by
  induction es generalizing s g with
  | nil => cases h; exact ⟨g, rfl⟩
  | cons e es ih =>
      obtain ⟨u, hu, hrun⟩ := run_cons_ok_iff.mp h
      obtain ⟨g', hg'⟩ := ih (ghost s e u g) hrun
      exact ⟨g', by rw [run_cons_of_ok (withGhost_ok_iff.mpr ⟨hu, rfl⟩)]; exact hg'⟩

/-- The runs with a ghost value are the plain runs. -/
theorem exists_run_withGhost_iff (g : γ) :
    (∃ g', run (withGhost step ghost) (s, g) es = .ok (t, g')) ↔ run step s es = .ok t := by
  constructor
  · intro ⟨_, h⟩
    exact run_of_run_withGhost h
  · intro h
    exact exists_run_withGhost g h

end Runs
