import Mathlib.Data.List.Basic

/-! # Runs of a system of calls

A system is a set of initial states and a function that executes one call; a call returns a
value and the next state, or fails.

* **Runs.** `Reach init exec guard hist s` : the state `s` is reached after the calls recorded
  in `hist`, the latest first, every one of which returned and met `guard` (a condition on the
  calls made so far, the state before the call and the call).
* **Invariants.** `Reach.invariant` derives a property of every run from its preservation by
  one call; the property may speak of the whole history, so that ghost quantities (counts of
  calls, sets of owners) are functions of the history and need no field in the state.
* **Later states.** `Onward exec guard hist s new s'` : after the run `hist` reached `s`, the calls `new`
  lead to `s'`.
* **Conditions.** `Throughout P hist s` : `P` held after every call of the run; `Meets G hist` : every
  call met `G`.  `Reach.throughout_iff` : when `G` is what one call needs to keep `P`, a run has `P`
  throughout iff its calls meet `G`.
* **Replays.** `replay` executes a list of calls and tests the guard on the way;
  `exists_reach_of_replay` turns one evaluation into a statement about runs. -/

namespace Transition

/-- One call of a run: the states around it, the call and the value it returned. -/
structure Event (σ ι ρ : Type) where
  pre : σ
  call : ι
  ret : ρ
  post : σ

variable {σ ι ρ ε : Type}

/-- The calls made so far, the latest first. -/
abbrev History (σ ι ρ : Type) := List (Event σ ι ρ)

section
variable (init : σ → Prop) (exec : ι → σ → Except ε (ρ × σ))
  (guard : History σ ι ρ → σ → ι → Prop)

/-- The states reached by runs whose calls all return and meet the guard. -/
inductive Reach : History σ ι ρ → σ → Prop
  | start {s : σ} : init s → Reach [] s
  | call {hist : History σ ι ρ} {s s' : σ} {c : ι} {r : ρ} :
      Reach hist s → guard hist s c → exec c s = .ok (r, s') → Reach (⟨s, c, r, s'⟩ :: hist) s'

end

variable {init : σ → Prop} {exec : ι → σ → Except ε (ρ × σ)}
  {guard guard' : History σ ι ρ → σ → ι → Prop} {hist : History σ ι ρ} {s s' : σ}

/-- **The invariant rule.** -/
theorem Reach.invariant {J : History σ ι ρ → σ → Prop} (h0 : ∀ s, init s → J [] s)
    (hstep : ∀ {hist s c r s'}, J hist s → guard hist s c → exec c s = .ok (r, s') →
      J (⟨s, c, r, s'⟩ :: hist) s')
    (hr : Reach init exec guard hist s) : J hist s := by
  induction hr with
  | start hs => exact h0 _ hs
  | call _ hg he ih => exact hstep ih hg he

theorem Reach.mono (hguard : ∀ {hist s c}, guard hist s c → guard' hist s c)
    (hr : Reach init exec guard hist s) : Reach init exec guard' hist s := by
  induction hr with
  | start hs => exact .start hs
  | call _ hg he ih => exact .call ih (hguard hg) he

theorem Reach.mono_init {init' : σ → Prop} (h : ∀ s, init' s → init s)
    (hr : Reach init' exec guard hist s) : Reach init exec guard hist s := by
  induction hr with
  | start hs => exact .start (h _ hs)
  | call _ hg he ih => exact .call ih hg he

/-! ### Later states -/

/-- The calls `new` follow the run `hist` that reached `s`. -/
abbrev Onward (exec : ι → σ → Except ε (ρ × σ)) (guard : History σ ι ρ → σ → ι → Prop)
    (hist : History σ ι ρ) (s : σ) : History σ ι ρ → σ → Prop :=
  Reach (· = s) exec fun new x c => guard (new ++ hist) x c

theorem Reach.onward {new : History σ ι ρ} (hr : Reach init exec guard hist s)
    (h : Onward exec guard hist s new s') : Reach init exec guard (new ++ hist) s' := by
  induction h with
  | start he => exact he ▸ hr
  | call _ hg he ih => exact .call ih hg he

/-! ### Conditions -/

/-- The property held at the start and after every call. -/
def Throughout (P : History σ ι ρ → σ → Prop) : History σ ι ρ → σ → Prop
  | [], s => P [] s
  | e :: hist, s => P (e :: hist) s ∧ Throughout P hist e.pre

/-- Every call met the condition. -/
def Meets (G : History σ ι ρ → σ → ι → Prop) : History σ ι ρ → Prop
  | [] => True
  | e :: hist => G hist e.pre e.call ∧ Meets G hist

instance Meets.decidable (G : History σ ι ρ → σ → ι → Prop) [∀ hist s c, Decidable (G hist s c)] :
    (hist : History σ ι ρ) → Decidable (Meets G hist)
  | [] => isTrue trivial
  | e :: hist =>
      have := Meets.decidable G hist
      inferInstanceAs (Decidable (G hist e.pre e.call ∧ Meets G hist))

theorem Throughout.last {P : History σ ι ρ → σ → Prop} (h : Throughout P hist s) : P hist s := by
  cases hist with
  | nil => exact h
  | cons e hist => exact h.1

/-- A run whose calls meet a condition is a run under this condition. -/
theorem Reach.meets {G : History σ ι ρ → σ → ι → Prop} (hr : Reach init exec guard hist s)
    (h : Meets G hist) : Reach init exec (fun hist s c => guard hist s c ∧ G hist s c) hist s := by
  induction hr with
  | start hs => exact .start hs
  | call _ hg he ih => exact .call (ih h.2) ⟨hg, h.1⟩ he

theorem Reach.meets_guard (hr : Reach init exec guard hist s) : Meets guard hist := by
  induction hr with
  | start _ => trivial
  | call _ hg _ ih => exact ⟨hg, ih⟩

/-- **The condition rule.** -/
theorem Reach.throughout_iff {P : History σ ι ρ → σ → Prop} {G : History σ ι ρ → σ → ι → Prop}
    (h0 : ∀ s, init s → P [] s)
    (hstep : ∀ {hist s c r s'},
      Reach init exec (fun hist s c => guard hist s c ∧ G hist s c) hist s → P hist s →
      guard hist s c → exec c s = .ok (r, s') → (P (⟨s, c, r, s'⟩ :: hist) s' ↔ G hist s c))
    (hr : Reach init exec guard hist s) : Throughout P hist s ↔ Meets G hist := by
  induction hr with
  | start hs => exact iff_of_true (h0 _ hs) trivial
  | call hr hg he ih =>
      constructor
      · rintro ⟨hlast, hbefore⟩
        have hm := ih.mp hbefore
        exact ⟨(hstep (hr.meets hm) hbefore.last hg he).mp hlast, hm⟩
      · rintro ⟨hlast, hm⟩
        have hbefore := ih.mpr hm
        exact ⟨(hstep (hr.meets hm) hbefore.last hg he).mpr hlast, hbefore⟩

/-! ### Replays -/

/-- Execute the calls in order, as long as they return and pass the test. -/
def replay (exec : ι → σ → Except ε (ρ × σ)) (test : History σ ι ρ → σ → ι → Bool) :
    List ι → History σ ι ρ → σ → Option (History σ ι ρ × σ)
  | [], hist, s => some (hist, s)
  | c :: calls, hist, s =>
      if test hist s c then
        match exec c s with
        | .ok (r, s') => replay exec test calls (⟨s, c, r, s'⟩ :: hist) s'
        | .error _ => none
      else none

theorem Reach.of_replay {test : History σ ι ρ → σ → ι → Bool}
    (htest : ∀ {hist s c}, test hist s c = true → guard hist s c) :
    ∀ {calls : List ι} {hist hist' : History σ ι ρ} {s s' : σ},
      Reach init exec guard hist s → replay exec test calls hist s = some (hist', s') →
      Reach init exec guard hist' s' := by
  intro calls
  induction calls with
  | nil =>
      intro hist hist' s s' hr hrep
      simp only [replay, Option.some.injEq, Prod.mk.injEq] at hrep
      exact hrep.1 ▸ hrep.2 ▸ hr
  | cons c calls ih =>
      intro hist hist' s s' hr hrep
      simp only [replay] at hrep
      split at hrep
      · rename_i hpass
        cases hc : exec c s with
        | error e => simp [hc] at hrep
        | ok p =>
            rw [hc] at hrep
            exact ih (.call hr (htest hpass) hc) hrep
      · cases hrep

/-- The call fails in this way. -/
def fails {α : Type} [DecidableEq ε] (f : ε) : Except ε α → Bool
  | .ok _ => false
  | .error g => decide (g = f)

theorem fails_iff {α : Type} [DecidableEq ε] {f : ε} {x : Except ε α} :
    fails f x = true ↔ x = .error f := by
  cases x with
  | ok a => exact iff_of_false Bool.false_ne_true fun h => by cases h
  | error g => simp [fails]

/-- A list of calls that meet the guard and whose replay ends in a state that passes the test
`p`. -/
theorem exists_reach_of_replay (exec : ι → σ → Except ε (ρ × σ))
    (guard : History σ ι ρ → σ → ι → Prop) [∀ hist s c, Decidable (guard hist s c)] (hs : init s)
    (p : History σ ι ρ → σ → Bool) (calls : List ι)
    (h : (replay exec (fun hist s c => decide (guard hist s c)) calls [] s).any
      (fun x => p x.1 x.2) = true) :
    ∃ hist s', Reach init exec guard hist s' ∧ p hist s' = true := by
  cases hrep : replay exec (fun hist s c => decide (guard hist s c)) calls [] s with
  | none => simp [hrep] at h
  | some x =>
      rw [hrep] at h
      exact ⟨x.1, x.2, Reach.of_replay of_decide_eq_true (.start hs) hrep, h⟩

theorem exists_onward_of_replay (exec : ι → σ → Except ε (ρ × σ))
    (guard : History σ ι ρ → σ → ι → Prop) [∀ hist s c, Decidable (guard hist s c)] (hs : init s)
    (p : σ → History σ ι ρ → Bool) (calls later : List ι)
    (h : ((replay exec (fun hist s c => decide (guard hist s c)) calls [] s).any fun x =>
      (replay exec (fun new s c => decide (guard (new ++ x.1) s c)) later [] x.2).any
        fun y => p x.2 y.1) = true) :
    ∃ hist s' new s'', Reach init exec guard hist s' ∧ Onward exec guard hist s' new s'' ∧
      p s' new = true := by
  cases hrep : replay exec (fun hist s c => decide (guard hist s c)) calls [] s with
  | none => simp [hrep] at h
  | some x =>
      rw [hrep, Option.any_some] at h
      obtain ⟨y, hy, hp⟩ := (Option.any_eq_true _ _).mp h
      exact ⟨x.1, x.2, y.1, y.2, Reach.of_replay of_decide_eq_true (.start hs) hrep,
        Reach.of_replay of_decide_eq_true (.start rfl) hy, hp⟩

end Transition
