import LibSwish3.Lib.Runs
import Mathlib.Data.List.Nodup
import Mathlib.Logic.Relation

/-!
# Depth-first walks

A walk goes through a list of places.  At each of them `look` says what is found: more places,
which are gone through at once, a leaf, nothing of interest, or something at which the walk ends.
`Walk` relates the places to the leaves in the order in which they are met.  A program that walks
by recursion, here `visit` with a bound on its depth, does the same as a run over these leaves;
which they are is said by reachability alone, and the places below a place may be endless only
along a chain that never stops.

## Main definitions

* `Found`, `Walk` — what a walk finds.
* `visit` — the walk of a program.
* `Beneath` — the places below some places.
* `Walk.visit_eq`, `exists_walk`, `Walk.mem_iff`, `Walk.nodup`.
-/

namespace Walks

open Relation Runs

universe u v w

variable {α : Type u} {σ : Type v} {ε : Type w}

/-- What is found at a place. -/
inductive Found (α : Type u)
  | inner (below : List α)
  | leaf
  | ignored
  | lost

/-- The walk over the places meets the leaves and ends at a place that is lost, if there is one. -/
inductive Walk (look : α → Found α) : (places leaves : List α) → (lost : Option α) → Prop
  | nil : Walk look [] [] none
  | leaf {p : α} {ps ls : List α} {e : Option α} (h : look p = .leaf) (rest : Walk look ps ls e) :
    Walk look (p :: ps) (p :: ls) e
  | ignored {p : α} {ps ls : List α} {e : Option α} (h : look p = .ignored)
    (rest : Walk look ps ls e) : Walk look (p :: ps) ls e
  | inner {p : α} {below ps ls ls' : List α} {e : Option α} (h : look p = .inner below)
    (inside : Walk look below ls none) (rest : Walk look ps ls' e) :
    Walk look (p :: ps) (ls ++ ls') e
  | lostBelow {p q : α} {below ps ls : List α} (h : look p = .inner below)
    (inside : Walk look below ls (some q)) : Walk look (p :: ps) ls (some q)
  | lost {p : α} {ps : List α} (h : look p = .lost) : Walk look (p :: ps) [] (some p)

/-- `q` is one of the places that are found at `p`. -/
def Below (look : α → Found α) (q p : α) : Prop := ∃ below, look p = .inner below ∧ q ∈ below

/-- `q` is one of the places, or stands somewhere below one. -/
def Beneath (look : α → Found α) (ps : List α) (q : α) : Prop :=
  ∃ p ∈ ps, ReflTransGen (fun a b => Below look b a) p q

/-- What a program does at a place. -/
def enter (look : α → Found α) (f : σ → α → Except ε σ) (lost : α → ε)
    (inside : σ → List α → Except ε σ) (s : σ) (p : α) : Except ε σ :=
  match look p with
  | .inner below => inside s below
  | .leaf => f s p
  | .ignored => .ok s
  | .lost => .error (lost p)

/-- The walk of a program, which goes `fuel` places down. -/
def visit (look : α → Found α) (f : σ → α → Except ε σ) (lost : α → ε) (deep : ε) :
    (fuel : Nat) → σ → α → Except ε σ
  | 0 => enter look f lost fun _ _ => .error deep
  | fuel + 1 => enter look f lost (run (visit look f lost deep fuel))

/-- What a walk does at its end. -/
def finish (lost : α → ε) (e : Option α) (s : σ) : Except ε σ :=
  match e with
  | none => .ok s
  | some p => .error (lost p)

variable {look : α → Found α} {p q : α} {ps ls ls' : List α} {e e' : Option α}

/-! ## The walk of a program -/

section Visit

variable {f : σ → α → Except ε σ} {lost : α → ε} {deep : ε}

theorem run_bind_cons (s : σ) :
    (run f s (p :: ls) >>= finish lost e) = (f s p >>= fun t => run f t ls >>= finish lost e) := by
  cases h : f s p with
  | ok t => rw [run_cons_of_ok h]; rfl
  | error x => rw [run_cons_of_error h]; rfl

theorem run_bind_append (s : σ) :
    (run f s (ls ++ ls') >>= finish lost e) =
      (run f s ls >>= fun t => run f t ls' >>= finish lost e) := by
  cases h : run f s ls with
  | ok t => rw [run_append_of_ok h]; rfl
  | error x => rw [run_append_of_error h]; rfl

theorem run_cons_eq_bind {step : σ → α → Except ε σ} (s : σ) :
    run step s (p :: ps) = (step s p >>= fun t => run step t ps) := by
  cases h : step s p with
  | ok t => rw [run_cons_of_ok h]; rfl
  | error x => rw [run_cons_of_error h]; rfl

/-- A run over what some of the inputs stand for, where the others change nothing. -/
theorem run_filterMap {β : Type u} {step : σ → β → Except ε σ} {name : α → Option β}
    (hnone : ∀ s, ∀ p ∈ ps, name p = none → f s p = .ok s)
    (hsome : ∀ s b, ∀ p ∈ ps, name p = some b → f s p = step s b) (s : σ) :
    run f s ps = run step s (ps.filterMap name) := by
  induction ps generalizing s with
  | nil => rfl
  | cons p ps ih =>
      have ih := ih (fun s q hq => hnone s q (List.mem_cons_of_mem _ hq))
        (fun s b q hq => hsome s b q (List.mem_cons_of_mem _ hq))
      rw [run_cons_eq_bind]
      cases hname : name p with
      | none =>
          rw [hnone s p List.mem_cons_self hname, List.filterMap_cons_none hname]
          exact ih s
      | some b =>
          rw [hsome s b p List.mem_cons_self hname, List.filterMap_cons_some hname,
            run_cons_eq_bind]
          exact congrArg _ (funext ih)

theorem visit_of_leaf (h : look p = .leaf) (fuel : Nat) (s : σ) :
    visit look f lost deep fuel s p = f s p := by
  cases fuel <;> simp only [visit, enter, h]

theorem visit_of_ignored (h : look p = .ignored) (fuel : Nat) (s : σ) :
    visit look f lost deep fuel s p = .ok s := by
  cases fuel <;> simp only [visit, enter, h]

theorem visit_of_lost (h : look p = .lost) (fuel : Nat) (s : σ) :
    visit look f lost deep fuel s p = .error (lost p) := by
  cases fuel <;> simp only [visit, enter, h]

theorem visit_of_inner {below : List α} (h : look p = .inner below) (fuel : Nat) (s : σ) :
    visit look f lost deep (fuel + 1) s p = run (visit look f lost deep fuel) s below := by
  simp only [visit, enter, h]

theorem run_map {step : σ → α → Except ε σ} {g : σ → σ}
    (hstep : ∀ s p, step (g s) p = (step s p).map g) (s : σ) (ps : List α) :
    run step (g s) ps = (run step s ps).map g := by
  induction ps generalizing s with
  | nil => rfl
  | cons p ps ih =>
      rw [run_cons_eq_bind, run_cons_eq_bind, hstep]
      cases step s p with
      | ok t => exact ih t
      | error x => rfl

/-- A change of the state that every leaf respects is respected by the walk. -/
theorem visit_map {g : σ → σ} (hf : ∀ s p, f (g s) p = (f s p).map g) (fuel : Nat) (s : σ)
    (p : α) : visit look f lost deep fuel (g s) p = (visit look f lost deep fuel s p).map g := by
  induction fuel generalizing s p with
  | zero =>
      simp only [visit, enter]
      cases look p <;> first | rfl | exact hf s p
  | succ fuel ih =>
      simp only [visit, enter]
      cases look p with
      | inner below => exact run_map ih s below
      | leaf => exact hf s p
      | ignored => rfl
      | lost => rfl

/-- With enough fuel the program does what a run over the leaves does, and stops where the walk
ends. -/
theorem Walk.visit_eq (h : Walk look ps ls e) (f : σ → α → Except ε σ) (lost : α → ε)
    (deep : ε) : ∃ depth, ∀ fuel, depth ≤ fuel → ∀ s,
    run (visit look f lost deep fuel) s ps = (run f s ls >>= finish lost e) := by
  induction h with
  | nil => exact ⟨0, fun fuel _ s => rfl⟩
  | leaf hlook _ ih =>
      obtain ⟨depth, ih⟩ := ih
      refine ⟨depth, fun fuel hfuel s => ?_⟩
      rw [run_cons_eq_bind, visit_of_leaf hlook, run_bind_cons]
      exact bind_congr fun t => ih fuel hfuel t
  | ignored hlook _ ih =>
      obtain ⟨depth, ih⟩ := ih
      refine ⟨depth, fun fuel hfuel s => ?_⟩
      rw [run_cons_of_ok (visit_of_ignored hlook fuel s)]
      exact ih fuel hfuel s
  | @inner p below ps ls ls' e hlook _ _ ih ih' =>
      obtain ⟨depth, ih⟩ := ih
      obtain ⟨depth', ih'⟩ := ih'
      refine ⟨max depth depth' + 1, fun fuel hfuel s => ?_⟩
      obtain ⟨fuel, rfl⟩ := Nat.exists_eq_add_of_le' (Nat.le_of_add_left_le hfuel)
      have hle : max depth depth' ≤ fuel := Nat.le_of_succ_le_succ hfuel
      have hinside : visit look f lost deep (fuel + 1) s p = run f s ls := by
        rw [visit_of_inner hlook, ih fuel (Nat.le_trans (Nat.le_max_left depth depth') hle) s]
        cases run f s ls <;> rfl
      rw [run_cons_eq_bind, hinside, run_bind_append]
      exact bind_congr fun t => ih' (fuel + 1)
        (Nat.le_trans (Nat.le_max_right depth depth') (Nat.le_succ_of_le hle)) t
  | @lostBelow p q below ps ls hlook _ ih =>
      obtain ⟨depth, ih⟩ := ih
      refine ⟨depth + 1, fun fuel hfuel s => ?_⟩
      obtain ⟨fuel, rfl⟩ := Nat.exists_eq_add_of_le' (Nat.le_of_add_left_le hfuel)
      rw [run_cons_eq_bind, visit_of_inner hlook, ih fuel (Nat.le_of_succ_le_succ hfuel) s]
      cases run f s ls <;> rfl
  | lost hlook =>
      refine ⟨0, fun fuel _ s => ?_⟩
      rw [run_cons_of_error (visit_of_lost hlook fuel s)]
      rfl

theorem walk_of_enter {inside : σ → List α → Except ε σ} {s t : σ}
    (hinside : ∀ s t below, inside s below = .ok t →
      ∃ ls, Walk look below ls none ∧ run f s ls = .ok t)
    (h : run (enter look f lost inside) s ps = .ok t) :
    ∃ ls, Walk look ps ls none ∧ run f s ls = .ok t := by
  induction ps generalizing s with
  | nil => exact ⟨[], .nil, h⟩
  | cons p ps ih =>
      obtain ⟨u, hstep, h⟩ := run_cons_ok_iff.mp h
      obtain ⟨ls, hwalk, hrun⟩ := ih h
      unfold enter at hstep
      cases hlook : look p with
      | inner below =>
          simp only [hlook] at hstep
          obtain ⟨ls', hwalk', hrun'⟩ := hinside s u below hstep
          exact ⟨ls' ++ ls, .inner hlook hwalk' hwalk, (run_append_of_ok hrun').trans hrun⟩
      | leaf =>
          simp only [hlook] at hstep
          exact ⟨p :: ls, .leaf hlook hwalk, (run_cons_of_ok hstep).trans hrun⟩
      | ignored =>
          simp only [hlook] at hstep
          cases hstep
          exact ⟨ls, .ignored hlook hwalk, hrun⟩
      | lost => simp only [hlook] at hstep; cases hstep

/-- A walk of the program that succeeds is a run over leaves. -/
theorem walk_of_visit {fuel : Nat} {s t : σ}
    (h : run (visit look f lost deep fuel) s ps = .ok t) :
    ∃ ls, Walk look ps ls none ∧ run f s ls = .ok t := by
  induction fuel generalizing s t ps with
  | zero => exact walk_of_enter (fun s t below hdeep => by cases hdeep) h
  | succ fuel ih => exact walk_of_enter (fun s t below hinside => ih hinside) h

end Visit

/-! ## The places that are met -/

theorem Beneath.of_mem (h : p ∈ ps) : Beneath look ps p := ⟨p, h, .refl⟩

theorem beneath_nil_iff : Beneath look [] q ↔ False := by simp [Beneath]

/-- A place is reached from the first of some places, from below it, or from the others. -/
theorem beneath_cons_iff :
    Beneath look (p :: ps) q ↔
      q = p ∨ (∃ below, look p = .inner below ∧ Beneath look below q) ∨ Beneath look ps q := by
  constructor
  · rintro ⟨r, hr, hreach⟩
    rcases List.mem_cons.mp hr with rfl | hr
    · rcases hreach.cases_head with rfl | ⟨c, ⟨below, hlook, hc⟩, hreach⟩
      · exact .inl rfl
      · exact .inr (.inl ⟨below, hlook, c, hc, hreach⟩)
    · exact .inr (.inr ⟨r, hr, hreach⟩)
  · rintro (rfl | ⟨below, hlook, c, hc, hreach⟩ | ⟨r, hr, hreach⟩)
    · exact .of_mem List.mem_cons_self
    · exact ⟨p, List.mem_cons_self, .head ⟨below, hlook, hc⟩ hreach⟩
    · exact ⟨r, List.mem_cons_of_mem p hr, hreach⟩

theorem Beneath.below (h : Beneath look ps p) (hq : Below look q p) : Beneath look ps q := by
  obtain ⟨r, hr, hreach⟩ := h
  exact ⟨r, hr, hreach.tail hq⟩

/-- Every leaf that is met is a leaf below the places. -/
theorem Walk.beneath (h : Walk look ps ls e) : ∀ q ∈ ls, Beneath look ps q ∧ look q = .leaf := by
  induction h with
  | nil => simp
  | leaf hlook _ ih =>
      intro q hq
      rcases List.mem_cons.mp hq with rfl | hq
      · exact ⟨.of_mem List.mem_cons_self, hlook⟩
      · exact ⟨beneath_cons_iff.mpr (.inr (.inr (ih q hq).1)), (ih q hq).2⟩
  | ignored _ _ ih =>
      intro q hq
      exact ⟨beneath_cons_iff.mpr (.inr (.inr (ih q hq).1)), (ih q hq).2⟩
  | inner hlook _ _ ih ih' =>
      intro q hq
      rcases List.mem_append.mp hq with hq | hq
      · exact ⟨beneath_cons_iff.mpr (.inr (.inl ⟨_, hlook, (ih q hq).1⟩)), (ih q hq).2⟩
      · exact ⟨beneath_cons_iff.mpr (.inr (.inr (ih' q hq).1)), (ih' q hq).2⟩
  | lostBelow hlook _ ih =>
      intro q hq
      exact ⟨beneath_cons_iff.mpr (.inr (.inl ⟨_, hlook, (ih q hq).1⟩)), (ih q hq).2⟩
  | lost _ => simp

/-- A walk that comes to its end has met every leaf, and nothing there is lost. -/
theorem Walk.complete (h : Walk look ps ls none) (hq : Beneath look ps q) :
    (look q = .leaf → q ∈ ls) ∧ look q ≠ .lost := by
  generalize he : (none : Option α) = e at h
  induction h with
  | nil => exact (beneath_nil_iff.mp hq).elim
  | leaf hlook _ ih =>
      rcases beneath_cons_iff.mp hq with rfl | ⟨below, hbelow, _⟩ | hq
      · exact ⟨fun _ => List.mem_cons_self, by simp [hlook]⟩
      · cases hlook.symm.trans hbelow
      · exact ⟨fun hleaf => List.mem_cons_of_mem _ ((ih hq he).1 hleaf), (ih hq he).2⟩
  | ignored hlook _ ih =>
      rcases beneath_cons_iff.mp hq with rfl | ⟨below, hbelow, _⟩ | hq
      · simp [hlook]
      · cases hlook.symm.trans hbelow
      · exact ih hq he
  | inner hlook _ _ ih ih' =>
      rcases beneath_cons_iff.mp hq with rfl | ⟨below, hbelow, hq⟩ | hq
      · simp [hlook]
      · cases hlook.symm.trans hbelow
        exact ⟨fun hleaf => List.mem_append_left _ ((ih hq rfl).1 hleaf), (ih hq rfl).2⟩
      · exact ⟨fun hleaf => List.mem_append_right _ ((ih' hq he).1 hleaf), (ih' hq he).2⟩
  | lostBelow => cases he
  | lost => cases he

theorem Walk.mem_iff (h : Walk look ps ls none) : q ∈ ls ↔ Beneath look ps q ∧ look q = .leaf :=
  ⟨h.beneath q, fun hq => (h.complete hq.1).1 hq.2⟩

/-- The place at which a walk ends is lost. -/
theorem Walk.lost_beneath (h : Walk look ps ls (some q)) :
    Beneath look ps q ∧ look q = .lost := by
  generalize he : some q = e at h
  induction h with
  | nil => cases he
  | leaf _ _ ih => exact ⟨beneath_cons_iff.mpr (.inr (.inr (ih he).1)), (ih he).2⟩
  | ignored _ _ ih => exact ⟨beneath_cons_iff.mpr (.inr (.inr (ih he).1)), (ih he).2⟩
  | inner _ _ _ _ ih' => exact ⟨beneath_cons_iff.mpr (.inr (.inr (ih' he).1)), (ih' he).2⟩
  | lostBelow hlook _ ih =>
      exact ⟨beneath_cons_iff.mpr (.inr (.inl ⟨_, hlook, (ih he).1⟩)), (ih he).2⟩
  | lost hlook =>
      cases he
      exact ⟨.of_mem List.mem_cons_self, hlook⟩

/-! ## Walks that end -/

theorem Walk.append (h : Walk look [p] ls none) (h' : Walk look ps ls' e) :
    Walk look (p :: ps) (ls ++ ls') e := by
  cases h with
  | leaf hlook rest =>
      cases rest
      exact .leaf hlook h'
  | ignored hlook rest =>
      cases rest
      exact .ignored hlook h'
  | inner hlook inside rest =>
      cases rest
      rw [List.append_nil]
      exact .inner hlook inside h'

theorem Walk.append_lost (h : Walk look [p] ls (some q)) (ps : List α) :
    Walk look (p :: ps) ls (some q) := by
  cases h with
  | leaf hlook rest => cases rest
  | ignored hlook rest => cases rest
  | inner hlook inside rest => cases rest
  | lostBelow hlook inside => exact .lostBelow hlook inside
  | lost hlook => exact .lost hlook

theorem walk_of_each (h : ∀ p ∈ ps, ∃ ls e, Walk look [p] ls e) : ∃ ls e, Walk look ps ls e := by
  induction ps with
  | nil => exact ⟨[], none, .nil⟩
  | cons p ps ih =>
      obtain ⟨ls, e, hp⟩ := h p List.mem_cons_self
      cases e with
      | some q => exact ⟨ls, some q, hp.append_lost ps⟩
      | none =>
          obtain ⟨ls', e, hps⟩ := ih fun q hq => h q (List.mem_cons_of_mem p hq)
          exact ⟨ls ++ ls', e, hp.append hps⟩

/-- There is a walk where no chain of places goes down for ever. -/
theorem exists_walk (h : ∀ p ∈ ps, Acc (Below look) p) : ∃ ls e, Walk look ps ls e := by
  refine walk_of_each fun p hp => ?_
  have hacc : Acc (Below look) p := h p hp
  clear hp
  induction hacc with
  | intro p _ ih =>
      cases hlook : look p with
      | leaf => exact ⟨[p], none, .leaf hlook .nil⟩
      | ignored => exact ⟨[], none, .ignored hlook .nil⟩
      | lost => exact ⟨[], some p, .lost hlook⟩
      | inner below =>
          obtain ⟨ls, e, hbelow⟩ := walk_of_each fun q hq => ih q ⟨below, hlook, hq⟩
          cases e with
          | none => exact ⟨ls ++ [], none, .inner hlook hbelow .nil⟩
          | some q => exact ⟨ls, some q, .lostBelow hlook hbelow⟩

/-! ## Addresses -/

section Addresses

variable {κ : Type v} {addr : α → List κ}

/-- Neither address is the beginning of the other. -/
def Apart (addr : α → List κ) (p q : α) : Prop := ¬addr p <+: addr q ∧ ¬addr q <+: addr p

/-- The addresses below a place begin with its own and lie apart. -/
def Addressed (look : α → Found α) (addr : α → List κ) : Prop :=
  ∀ p below, look p = .inner below →
    (∀ q ∈ below, addr p <+: addr q) ∧ below.Pairwise (Apart addr)

/-- The address of a leaf begins with that of one of the places. -/
theorem Walk.addr_prefix (h : Walk look ps ls e) (haddr : Addressed look addr) (hq : q ∈ ls) :
    ∃ p ∈ ps, addr p <+: addr q := by
  obtain ⟨⟨p, hp, hreach⟩, -⟩ := h.beneath q hq
  refine ⟨p, hp, ?_⟩
  clear hq
  induction hreach with
  | refl => exact List.prefix_refl _
  | tail _ hbelow ih =>
      obtain ⟨below, hlook, hmem⟩ := hbelow
      exact ih.trans ((haddr _ below hlook).1 _ hmem)

theorem Apart.ne_of_below {a b p' : α} (h : Apart addr p p') (ha : addr p <+: addr a)
    (hb : addr p' <+: addr b) : addr a ≠ addr b := by
  intro heq
  rw [heq] at ha
  rcases List.prefix_or_prefix_of_prefix ha hb with hpp | hpp
  · exact h.1 hpp
  · exact h.2 hpp

/-- Leaves below places that lie apart from another one have other addresses than those below
it. -/
theorem Walk.addr_ne {below : List α} (h : Walk look ps ls e) (h' : Walk look below ls' e')
    (haddr : Addressed look addr) (hbelow : ∀ c ∈ below, addr p <+: addr c)
    (hapart : ∀ q ∈ ps, Apart addr p q) : ∀ a ∈ ls', ∀ b ∈ ls, addr a ≠ addr b := by
  intro a ha b hb
  obtain ⟨c, hc, hca⟩ := h'.addr_prefix haddr ha
  obtain ⟨q, hq, hqb⟩ := h.addr_prefix haddr hb
  exact (hapart q hq).ne_of_below ((hbelow c hc).trans hca) hqb

/-- No leaf is met twice: the leaves have addresses of their own. -/
theorem Walk.nodup (h : Walk look ps ls e) (haddr : Addressed look addr)
    (hps : ps.Pairwise (Apart addr)) : (ls.map addr).Nodup := by
  induction h with
  | nil => simp
  | @leaf p ps ls e hlook rest ih =>
      obtain ⟨hp, hps⟩ := List.pairwise_cons.mp hps
      rw [List.map_cons, List.nodup_cons]
      refine ⟨fun hmem => ?_, ih hps⟩
      obtain ⟨b, hb, heq⟩ := List.mem_map.mp hmem
      obtain ⟨q, hq, hqb⟩ := rest.addr_prefix haddr hb
      exact (hp q hq).ne_of_below (List.prefix_refl _) hqb heq.symm
  | ignored _ _ ih => exact ih (List.pairwise_cons.mp hps).2
  | @inner p below ps ls ls' e hlook inside rest ih ih' =>
      obtain ⟨hp, hps⟩ := List.pairwise_cons.mp hps
      obtain ⟨hbelow, hapart⟩ := haddr p below hlook
      rw [List.map_append, List.nodup_append]
      refine ⟨ih hapart, ih' hps, ?_⟩
      intro x hx y hy
      obtain ⟨a, ha, rfl⟩ := List.mem_map.mp hx
      obtain ⟨b, hb, rfl⟩ := List.mem_map.mp hy
      exact rest.addr_ne inside haddr hbelow hp a ha b hb
  | @lostBelow p q below ps ls hlook _ ih => exact ih (haddr p below hlook).2
  | lost _ => simp

end Addresses

end Walks
