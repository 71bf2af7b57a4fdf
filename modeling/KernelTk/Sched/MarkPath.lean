import KernelTk.Lib.Climb
import KernelTk.Sched.Propagation
import KernelTk.Sched.Status

/-! # The tasks that a walk marks

The walk from a primitive, followed through the tasks only: which tasks it marks, and what is left of
this when the first task of the path has been taken away.

* **Paths.** `State.Climbs p t` : the walk of `primitive_propagate_update` from `p` meets the
  unmarked task `t`, through unmarked primitives and unmarked tasks only.  It alternates between
  primitives and tasks, a task leading to its stopper (`State.Lifts` leads from a primitive to the task
  that it overrides), and it is the path of `Propagation.lean` as far as the tasks are concerned
  (`met_task_iff`).
* **Marks.** The walk marks these tasks and no other (`primitivePropagateUpdate_taskUpdated`), so that the
  status of a task that is stopped becomes `3` iff the walk climbs to it.
* **Resumptions.** `primitive_resume_task` clears the stopper of its task before the walk, which
  changes nothing to the other tasks met (`resumeTask_exact`): the edges at that task are cut, and what
  followed it is reached from the primitive itself. -/

namespace KernelTk.Sched

open Climb

variable {k : Machine} {s : State k} {p q : PrimId k} {t u : TaskId k}

namespace State

/-- The walk goes on from `p` to the task that `p` overrides. -/
def Lifts (s : State k) (p : PrimId k) (t : TaskId k) : Prop :=
  s.primUpdated p = false ∧ (s.prim p).pOverridden = some t ∧ s.taskUpdated t = false

/-- The walk from `p` meets `t`. -/
def Climbs (s : State k) (p : PrimId k) (t : TaskId k) : Prop :=
  Climb.Climbs s.Lifts (fun u => (s.task u).tStopper) p t

/-- **The tasks met** by the walk from a primitive are those that it climbs to. -/
theorem met_task_iff : s.Met (.inl p) (.inr u) ↔ s.Climbs p u := by
  constructor
  · intro h
    -- from a task, the walk is at the one it looks for, or climbs from its stopper
    suffices hmet : ∀ o, s.Met o (.inr u) → Sum.elim (s.Climbs · u)
        (fun t => t = u ∨ ∃ q, (s.task t).tStopper = some q ∧ s.Climbs q u) o from hmet _ h
    intro o h
    generalize hx : (Sum.inr u : PrimId k ⊕ TaskId k) = x at h
    induction h with
    | here _ =>
        subst hx
        exact .inl rfl
    | @next o o' x ho habove h ih =>
        have ih := ih hx
        have ho' := h.not_marked
        cases o with
        | inl q =>
            obtain ⟨t, hover, rfl⟩ := Option.map_eq_some_iff.mp habove
            have hlift : s.Lifts q t :=
              ⟨Bool.eq_false_of_not_eq_true ho, hover, Bool.eq_false_of_not_eq_true ho'⟩
            rcases ih with rfl | ⟨q', hs, hc⟩
            · exact .here hlift
            · exact .step hlift hs hc
        | inr t =>
            obtain ⟨q, hs, rfl⟩ := Option.map_eq_some_iff.mp habove
            exact .inr ⟨q, hs, ih⟩
  · intro h
    induction h with
    | @here q t hlift =>
        obtain ⟨hq, hover, ht⟩ := hlift
        exact .next (by simp [updated, hq]) (by simp [hover]) (.here (by simp [updated, ht]))
    | @step q q' t u hlift hs _ ih =>
        obtain ⟨hq, hover, ht⟩ := hlift
        have hrest : s.Met (.inr t) (.inr u) := .next (by simp [updated, ht]) (by simp [hs]) ih
        exact .next (by simp [updated, hq]) (by simp [hover]) hrest

end State

/-- `primitive_propagate_update` marks the tasks that its walk meets. -/
theorem primitivePropagateUpdate_taskUpdated (p : PrimId k) (s : State k) (u : TaskId k) :
    (primitivePropagateUpdate p s).taskUpdated u = true ↔
      s.taskUpdated u = true ∨ s.Climbs p u := by
  obtain ⟨τ, π, e, hmarks⟩ := primitivePropagateUpdate_walkTo p s
  have hu : τ u = true ↔ s.Climbs p u := (hmarks (.inr u)).trans State.met_task_iff
  rw [e, State.taskUpdated_mark, Bool.or_eq_true, hu]
  exact or_comm

/-- **A resumption keeps the status of the other tasks that its primitive stops**, those that its
walk meets apart. -/
theorem resumeTask_exact (hs : (s.task t).tStopper = some p) (hut : u ≠ t)
    (hu : s.tStatus u = schedStatusStopped) :
    (resumeTask p t s).tStatus u = schedStatusStopped ↔ ¬s.Climbs p u := by
  simp only [resumeTask]
  generalize hx : State.modPrim _ p _ = x
  obtain ⟨τ, π, e⟩ := primitivePropagateUpdate_eq_mark p x
  have hprim : ∀ q, x.primUpdated q = s.primUpdated q := by
    intro q
    by_cases hq : q = p <;> simp [← hx, State.primUpdated, hq]
  have hover : ∀ q, (x.prim q).pOverridden = (s.prim q).pOverridden := by
    intro q
    by_cases hq : q = p <;> simp [← hx, hq]
  have hstatus : ∀ y, (x.task y).tStatus = (s.task y).tStatus := by
    intro y
    by_cases hy : y = t <;> simp [← hx, hy]
  have hstopper : ∀ y q, (x.task y).tStopper = some q ↔ y ≠ t ∧ (s.task y).tStopper = some q := by
    intro y q
    by_cases hy : y = t <;> simp [← hx, hy]
  have hlifts : ∀ a c, x.Lifts a c ↔ s.Lifts a c := by
    intro a c
    rw [State.Lifts, State.Lifts, hprim, hover, State.taskUpdated, State.taskUpdated, hstatus]
  -- the task is not met after itself: its stopper is the primitive the walk starts from
  have hclimbs : x.Climbs p u ↔ s.Climbs p u := by
    constructor
    · exact fun h => h.mono (fun a c => (hlifts a c).mp) fun y q h => ((hstopper y q).mp h).2
    · intro h
      have hcut := Climbs.cut (fun a c _ => (hlifts a c).mpr)
        (fun y q hy h => (hstopper y q).mpr ⟨hy, h⟩) hs h
      exact (hcut.resolve_left hut).elim id id
  have hmarked : τ u = true ↔ s.Climbs p u := by
    have h := primitivePropagateUpdate_taskUpdated p x u
    have hzero : x.taskUpdated u = false := by
      have hu' : (s.task u).tStatus = schedStatusStopped := hu
      simp only [State.taskUpdated, hstatus, hu']
      decide
    rw [e, State.taskUpdated_mark, hzero, Bool.or_false] at h
    simpa [hclimbs] using h
  have hx' : x.tStatus u = schedStatusStopped := (hstatus u).trans hu
  rw [e, ← hmarked]
  have hval : ((x.mark τ π).modTask t fun y => { y with tStatus := schedStatusActive }).tStatus u =
      if τ u then x.tStatus u ||| staskStatusUpdated else x.tStatus u := by
    simp [State.tStatus, hut]
  rw [hval, hx']
  cases τ u <;> decide

end KernelTk.Sched
