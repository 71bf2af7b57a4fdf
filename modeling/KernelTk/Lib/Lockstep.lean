import Mathlib.Tactic.TypeStar
import KernelTk.Lib.RingFamily
import KernelTk.Lib.Transition

/-! # Systems in lockstep

A concrete system, whose calls return or fail, and an abstract one, whose calls are accepted or
refused.  They are in lockstep when the same calls go through in both, with the same returned values.

* **Computations.** `Agree R x y` : both return, and the results are related by `R`, or both do not.
  How the concrete one fails does not matter (`Agree.congr`).  The rules follow the way computations are
  built: sequences (`Agree.bind`), checks (`Agree.guard`), folds (`Agree.foldlM`), and walks along a
  linked list, which an abstract computation replaces by a fold (`Agree.walk`).  So the agreement of two
  functions is proved along their text, and their calls are compared without being unfolded.
* **Runs.** `Run exec admits start tr b` : the abstract system goes from `start` to `b` by the calls of
  `tr`, which return the values of `tr`; the latest call comes first.  `trace` forgets the states of a
  run of the concrete system and keeps the calls and their values.
* **Traces.** A `Simulation` relates the two systems: the initial states are related, the same calls are
  admitted, and the calls agree on related states.  Then the two systems have the same traces: whatever
  the concrete one does is an abstract run (`Simulation.forward`), and whatever the abstract one accepts
  the concrete one does (`Simulation.backward`), each by induction on the run. -/

namespace Lockstep

open Transition

/-! ### Computations -/

section agree
variable {ε α α' β β' : Type}

/-- Both computations return related results, or none of them returns. -/
inductive Agree (R : α → β → Prop) : Except ε α → Option β → Prop
  | ok {a : α} {b : β} : R a b → Agree R (.ok a) (some b)
  | failed {e : ε} : Agree R (.error e) none

namespace Agree

variable {R : α → β → Prop} {S : α' → β' → Prop} {x x' : Except ε α} {y : Option β}

theorem mono {R' : α → β → Prop} (h : Agree R x y)
    (hR : ∀ a b, x = .ok a → y = some b → R a b → R' a b) : Agree R' x y := by
  cases h with
  | ok hab => exact .ok (hR _ _ rfl rfl hab)
  | failed => exact .failed

theorem refused (h : ∀ a, x ≠ .ok a) : Agree R x none := by
  cases x with
  | ok a => exact absurd rfl (h a)
  | error e => exact .failed

/-- How a computation fails does not matter. -/
theorem congr (h : Agree R x' y) (hx : ∀ a, x = .ok a ↔ x' = .ok a) : Agree R x y := by
  cases h with
  | @ok a b hab =>
      rw [(hx a).mpr rfl]
      exact .ok hab
  | failed =>
      refine refused fun a ha => ?_
      cases (hx a).mp ha

theorem bind {f : α → Except ε α'} {g : β → Option β'} (h : Agree R x y)
    (hf : ∀ a b, x = .ok a → y = some b → R a b → Agree S (f a) (g b)) :
    Agree S (x >>= f) (y >>= g) := by
  cases h with
  | ok hab => exact hf _ _ rfl rfl hab
  | failed => exact .failed

/-- **The check rule** : a computation that returns under a condition only. -/
theorem guard {C : Prop} {_ : Decidable C} (hx : ∀ a, x = .ok a → C)
    (h : C → Agree R x y) : Agree R x (if C then y else none) := by
  split
  · rename_i hC
    exact h hC
  · rename_i hC
    exact refused fun a ha => hC (hx a ha)

theorem foldlM {γ : Type} {f : α → γ → Except ε α} {g : β → γ → Option β}
    (hstep : ∀ a b c, R a b → Agree R (f a c) (g b c)) :
    ∀ (l : List γ) (a : α) (b : β), R a b → Agree R (l.foldlM f a) (l.foldlM g b) := by
  intro l
  induction l with
  | nil => exact fun a b hab => .ok hab
  | cons c l ih =>
      intro a b hab
      rw [List.foldlM_cons, List.foldlM_cons]
      exact (hstep a b c hab).bind fun a' b' _ _ hab' => ih a' b' hab'

/-- **The walk rule** : a walk along a list agrees with a fold over its elements.  `I l a b` relates
the states when the elements `l` are still to be visited. -/
theorem walk {κ δ : Type} [DecidableEq κ] {next : α → κ → κ} {head : κ} {stuck : ε}
    {body : κ → α → Except ε α} {g : β → δ → Option β} (node : δ → κ) (I : List δ → α → β → Prop)
    (hnext : ∀ {d l a b}, I (d :: l) a b →
      node d ≠ head ∧ next a (node d) = (l.map node).headD head)
    (hbody : ∀ {d l a b}, I (d :: l) a b → Agree (I l) (body (node d) a) (g b d)) :
    ∀ (l : List δ) (fuel : ℕ) (a : α) (b : β), l.length < fuel → I l a b →
      Agree (I []) (CircularList.walk next head stuck body fuel ((l.map node).headD head) a)
        (l.foldlM g b) := by
  intro l
  induction l with
  | nil =>
      intro fuel a b hfuel hI
      cases fuel with
      | zero => cases hfuel
      | succ fuel =>
          simp only [List.map_nil, List.headD_nil, CircularList.walk, if_true]
          exact .ok hI
  | cons d l ih =>
      intro fuel a b hfuel hI
      cases fuel with
      | zero => cases hfuel
      | succ fuel =>
          obtain ⟨hne, hn⟩ := hnext hI
          simp only [List.map_cons, List.headD_cons, CircularList.walk, hne, if_false, hn,
            List.foldlM_cons]
          exact (hbody hI).bind fun a' b' _ _ hI' =>
            ih fuel a' b' (Nat.lt_of_succ_lt_succ hfuel) hI'

end Agree

end agree

/-! ### Runs -/

section runs
variable {σ τ ι ρ ε : Type}

/-- The runs of an abstract system, by the calls made and the values returned. -/
inductive Run (exec : ι → τ → Option (ρ × τ)) (admits : τ → ι → Prop) (start : τ) :
    List (ι × ρ) → τ → Prop
  | start : Run exec admits start [] start
  | call {tr : List (ι × ρ)} {b b' : τ} {c : ι} {r : ρ} : Run exec admits start tr b →
      admits b c → exec c b = some (r, b') → Run exec admits start ((c, r) :: tr) b'

/-- The calls of a run and the values that they returned. -/
def trace (hist : History σ ι ρ) : List (ι × ρ) := hist.map fun e => (e.call, e.ret)

/-- What relates a concrete system and an abstract one: the same calls are admitted, and they agree. -/
structure Simulation (exec : ι → σ → Except ε (ρ × σ)) (guard : History σ ι ρ → σ → ι → Prop)
    (exec' : ι → τ → Option (ρ × τ)) (admits : τ → ι → Prop)
    (R : History σ ι ρ → σ → τ → Prop) : Prop where
  admits : ∀ {hist s b c}, R hist s b → (guard hist s c ↔ admits b c)
  agree : ∀ {hist s b c}, R hist s b → guard hist s c →
    Agree (fun x y => x.1 = y.1 ∧ R (⟨s, c, x.1, x.2⟩ :: hist) x.2 y.2) (exec c s) (exec' c b)

namespace Simulation

variable {exec : ι → σ → Except ε (ρ × σ)} {guard : History σ ι ρ → σ → ι → Prop}
  {exec' : ι → τ → Option (ρ × τ)} {admits : τ → ι → Prop} {R : History σ ι ρ → σ → τ → Prop}
  {s₀ s : σ} {b₀ b : τ} {hist : History σ ι ρ} {tr : List (ι × ρ)}

/-- **Whatever the concrete system does, the abstract one does.** -/
theorem forward (S : Simulation exec guard exec' admits R) (h0 : R [] s₀ b₀)
    (hr : Reach (fun s => s = s₀) exec guard hist s) :
    ∃ b, Run exec' admits b₀ (trace hist) b ∧ R hist s b := by
  induction hr with
  | start hs => exact ⟨b₀, .start, hs ▸ h0⟩
  | @call hist s s' c r hr hg he ih =>
      obtain ⟨b, hb, hR⟩ := ih
      have hagree := S.agree hR hg
      rw [he] at hagree
      generalize hy : exec' c b = y at hagree
      cases hagree with
      | @ok _ y hxy =>
          obtain ⟨e, hR'⟩ := hxy
          refine ⟨y.2, hb.call ((S.admits hR).mp hg) ?_, hR'⟩
          rw [hy, show r = y.1 from e]

/-- **Whatever the abstract system accepts, the concrete one does.** -/
theorem backward (S : Simulation exec guard exec' admits R) (h0 : R [] s₀ b₀)
    (hb : Run exec' admits b₀ tr b) :
    ∃ hist s, Reach (fun s => s = s₀) exec guard hist s ∧ trace hist = tr ∧ R hist s b := by
  induction hb with
  | start => exact ⟨[], s₀, .start rfl, rfl, h0⟩
  | @call tr b b' c r _ ha he ih =>
      obtain ⟨hist, s, hr, htr, hR⟩ := ih
      have hg := (S.admits hR).mpr ha
      have hagree := S.agree hR hg
      rw [he] at hagree
      generalize hx : exec c s = x at hagree
      cases hagree with
      | @ok x _ hxy =>
          obtain ⟨e, hR'⟩ := hxy
          refine ⟨⟨s, c, x.1, x.2⟩ :: hist, x.2, hr.call hg hx, ?_, hR'⟩
          simp only [trace, List.map_cons, List.cons.injEq, Prod.mk.injEq, true_and]
          exact ⟨e, htr⟩

end Simulation

end runs

end Lockstep
