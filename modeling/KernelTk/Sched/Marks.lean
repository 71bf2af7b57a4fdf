import Mathlib.Logic.Relation
import KernelTk.Sched.Propagation
import KernelTk.Sched.Status
import KernelTk.Sched.Moves

/-! # Update marks

A walk marks the objects above one that has changed, and ends at the first marked object: it relies on
the objects above a marked one being marked.

* **Property.** `MarksClosed` : the mark of a primitive entails the one of the task it overrides, the
  mark of a task the one of its stopper, and the objects above one whose list has changed are
  marked.
* **Invariant.** `Marks` : a stopper is always marked, and so are the tasks that run, by the bit that the
  mark shares with `SCHED_STATUS_ACTIVE`, and those that a marked primitive overrides.  So a walk marks two
  objects at most (`primitivePropagateUpdate_marks`, `taskPropagateUpdate_marks`), and the effect of every
  function on the marks is known without a graph.
* **Condition.** A stop clears the shared bit.  `StopsUnmarked` : no task is stopped while a marked
  primitive, or the one that stops it, overrides it.
* **Calls.** `exec_marked` : a call keeps the invariant under the condition, and marks what it has
  changed.  Conversely, a stop that does not meet it leaves a marked primitive above which a task is
  not marked.
* **Runs.** `marks_closed_iff` : a run has the property throughout iff its calls meet the condition. -/

namespace KernelTk.Sched

open Transition

variable {k : Machine} {policy : Policy k} {hist : Hist k} {s s' : State k} {c : Call k}
  {r : BitVec 8} {p q : PrimId k} {t u : TaskId k} {h : ThreadId k} {d : ProcessId k}

/-- The primitives whose stopped list, and the tasks whose overriders, a call has changed. -/
def changed (e : Event (State k) (Call k) (BitVec 8)) : List (PrimId k ⊕ TaskId k) :=
  match e.call with
  | .stopThread p _ => [.inl p]
  | .resumeTask t => (e.pre.task t).tStopper.toList.map .inl
  | .overrideTask p t => .inr t :: (e.pre.prim p).pOverridden.toList.map .inr
  | .unoverrideTask p => (e.pre.prim p).pOverridden.toList.map .inr
  | _ => []

/-- The marks are closed upwards. -/
structure MarksClosed (hist : Hist k) (s : State k) : Prop where
  overridden : ∀ p t, (s.prim p).pProcess ≠ none → (s.prim p).pOverridden = some t →
    s.primUpdated p = true → s.taskUpdated t = true
  stopper : ∀ t p, (s.task t).tProcess ≠ none → (s.task t).tStopper = some p →
    s.taskUpdated t = true → s.primUpdated p = true
  ancestors : ∀ e ∈ hist.head?, ∀ o ∈ changed e, ∀ o',
    Relation.ReflTransGen (fun a b => s.above a = some b) o o' → s.updated o' = true

/-- Registrations, overrides, stops and resumptions, assignments and commits. -/
def Call.marking : Call k → Bool
  | .registerProcess _ | .registerThread _ | .registerTask _ _ | .registerPrim _ _ | .mutexCtor _ _
  | .semCtor _ _ _ | .openCommit | .closeCommit | .assignTask _ _ | .takeOwnership _ _
  | .releaseOwnership _ _ | .overrideTask _ _ | .unoverrideTask _ | .resumeTask _
  | .stopThread _ _ => true
  | _ => false

/-- These calls, registrations being made once. -/
def Marking (hist : Hist k) (_ : State k) (c : Call k) : Prop :=
  c.marking = true ∧ fresh hist c = true

instance (hist : Hist k) (s : State k) (c : Call k) : Decidable (Marking hist s c) :=
  inferInstanceAs (Decidable (_ ∧ _))

/-- The primitives that override a task when it is stopped are not marked, and are not the one that
stops it. -/
def StopsUnmarked (_ : Hist k) (s : State k) : Call k → Prop
  | .stopThread p h => ∀ t, (s.thread h).tTask = some t → ∀ q, (s.prim q).pProcess ≠ none →
      (s.prim q).pOverridden = some t → q ≠ p ∧ s.primUpdated q = false
  | _ => True

/-! ### Short walks -/

/-- When the stoppers are marked, a walk from a primitive marks it and the task it overrides. -/
theorem primitivePropagateUpdate_marks
    (hs : ∀ t q, (s.prim p).pOverridden = some t → (s.task t).tStopper = some q →
      q = p ∨ s.primUpdated q = true) : ∃ τ π, primitivePropagateUpdate p s = s.mark τ π ∧
      (∀ q, (π q || s.primUpdated q) = (decide (q = p) || s.primUpdated q)) ∧
      ∀ u, (τ u || s.taskUpdated u) =
        (decide (s.primUpdated p = false ∧ (s.prim p).pOverridden = some u) || s.taskUpdated u) := by
  cases hp : s.primUpdated p with
  | true =>
      refine ⟨fun _ => false, fun _ => false, ?_, fun q => ?_, fun u => by simp⟩
      · rw [primitivePropagateUpdate_of_updated hp, s.mark_false]
      · by_cases hq : q = p
        · simp [hq, hp]
        · simp [hq]
  | false =>
      have hwalk := primitivePropagateUpdate_walkTo p s
      cases hov : (s.prim p).pOverridden with
      | none =>
          rw [hwalk.unique (.prim hp hov), State.markPrim_eq_mark]
          exact ⟨_, _, rfl, fun q => rfl, fun u => by simp⟩
      | some t =>
          cases ht : s.taskUpdated t with
          | true =>
              rw [hwalk.unique (.toOverridden hp hov (.of_updated ht)), State.markPrim_eq_mark]
              refine ⟨_, _, rfl, fun q => rfl, fun u => ?_⟩
              by_cases hu : t = u
              · simp [← hu, ht]
              · simp [hu]
          | false =>
              -- the walk ends at the stopper of the task
              have hend : (s.markPrim p).WalkTo (.inr t) ((s.markPrim p).markTask t) := by
                cases hq : (s.task t).tStopper with
                | none => exact .task ht hq
                | some q =>
                    have hmarked : ((s.markPrim p).markTask t).primUpdated q = true := by
                      rw [State.markPrim_eq_mark, State.markTask_eq_mark, State.mark_mark,
                        State.primUpdated_mark]
                      rcases hs t q hov hq with rfl | hq
                      · simp
                      · simp [hq]
                    exact .toStopper ht hq (.of_updated hmarked)
              rw [hwalk.unique (.toOverridden hp hov hend), State.markPrim_eq_mark,
                State.markTask_eq_mark, State.mark_mark]
              refine ⟨_, _, rfl, fun q => by simp, fun u => ?_⟩
              by_cases hu : t = u
              · simp [hu]
              · simp [hu, Ne.symm hu]

/-- When the stopper of a task is marked, a walk from the task marks it. -/
theorem taskPropagateUpdate_marks
    (hs : ∀ q, (s.task t).tStopper = some q → s.primUpdated q = true) :
    ∃ τ, taskPropagateUpdate t s = s.mark τ (fun _ => false) ∧
      ∀ u, (τ u || s.taskUpdated u) = (decide (u = t) || s.taskUpdated u) := by
  cases ht : s.taskUpdated t with
  | true =>
      refine ⟨fun _ => false, ?_, fun u => ?_⟩
      · rw [taskPropagateUpdate_of_updated ht, s.mark_false]
      · by_cases hu : u = t
        · simp [hu, ht]
        · simp [hu]
  | false =>
      refine ⟨fun u => decide (u = t), ?_, fun u => rfl⟩
      rw [← State.markTask_eq_mark]
      refine (taskPropagateUpdate_walkTo t s).unique ?_
      cases hq : (s.task t).tStopper with
      | none => exact .task ht hq
      | some q =>
          have hmarked : (s.markTask t).primUpdated q = true := hs q hq
          exact .toStopper ht hq (.of_updated hmarked)

/-! ### Effects on the marks -/

theorem stopTask_marks (hs : ∀ u, (s.prim p).pOverridden = some u → u ≠ t ∧
      ∀ q, (s.task u).tStopper = some q → s.primUpdated q = true) :
    (∀ q, (stopTask p t s).primUpdated q = (decide (q = p) || s.primUpdated q)) ∧
      (stopTask p t s).taskUpdated t = false ∧
      ∀ u, u ≠ t → (stopTask p t s).taskUpdated u =
        (decide (s.primUpdated p = false ∧ (s.prim p).pOverridden = some u) || s.taskUpdated u) := by
  simp only [stopTask]
  generalize hs₁ : State.modPrim _ p _ = s₁
  have hprim : ∀ q, s₁.primUpdated q = s.primUpdated q := by
    intro q
    by_cases hq : q = p <;> simp [← hs₁, State.primUpdated, hq]
  have htask : ∀ u, s₁.taskUpdated u = s.taskUpdated u := by
    intro u
    by_cases hu : u = t <;> simp [← hs₁, State.taskUpdated, hu]
  have hover : (s₁.prim p).pOverridden = (s.prim p).pOverridden := by simp [← hs₁]
  obtain ⟨τ, π, e, hπ, hτ⟩ := primitivePropagateUpdate_marks (s := s₁) (p := p) fun u q hu hq => by
    obtain ⟨hut, hmarked⟩ := hs u (hover ▸ hu)
    have hst : (s₁.task u).tStopper = (s.task u).tStopper := by simp [← hs₁, hut]
    exact .inr ((hprim q).trans (hmarked q (hst ▸ hq)))
  rw [e]
  refine ⟨fun q => ?_, ?_, fun u hu => ?_⟩
  · have hq : (s₁.mark τ π).primUpdated q = (decide (q = p) || s.primUpdated q) := by
      rw [State.primUpdated_mark, hπ, hprim]
    exact hq
  · simp [State.taskUpdated, schedStatusStopped, staskStatusUpdated]
  · have hq : (s₁.mark τ π).taskUpdated u =
        (decide (s.primUpdated p = false ∧ (s.prim p).pOverridden = some u) || s.taskUpdated u) := by
      rw [State.taskUpdated_mark, hτ, hprim, hover, htask]
    rw [← hq]
    simp [State.taskUpdated, hu]

theorem resumeTask_marks (hp : s.primUpdated p = true) :
    (∀ q, (resumeTask p t s).primUpdated q = s.primUpdated q) ∧
      (resumeTask p t s).taskUpdated t = true ∧
      ∀ u, u ≠ t → (resumeTask p t s).taskUpdated u = s.taskUpdated u := by
  simp only [resumeTask]
  generalize hs₁ : State.modPrim _ p _ = s₁
  have hprim : ∀ q, s₁.primUpdated q = s.primUpdated q := by
    intro q
    by_cases hq : q = p <;> simp [← hs₁, State.primUpdated, hq]
  rw [primitivePropagateUpdate_of_updated ((hprim p).trans hp)]
  refine ⟨fun q => hprim q, ?_, fun u hu => ?_⟩
  · simp [State.taskUpdated, schedStatusActive, staskStatusUpdated]
  · simp [← hs₁, State.taskUpdated, hu]

theorem taskPropagateUpdate_same {s₁ : State k} (hprim : ∀ q, s₁.primUpdated q = s.primUpdated q)
    (htask : ∀ u, s₁.taskUpdated u = s.taskUpdated u)
    (hst : (s₁.task t).tStopper = (s.task t).tStopper)
    (hs : ∀ q, (s.task t).tStopper = some q → s.primUpdated q = true) :
    (∀ q, (taskPropagateUpdate t s₁).primUpdated q = s.primUpdated q) ∧
      ∀ u, (taskPropagateUpdate t s₁).taskUpdated u = (decide (u = t) || s.taskUpdated u) := by
  obtain ⟨τ, e, hτ⟩ := taskPropagateUpdate_marks (s := s₁) (t := t) fun q hq =>
    (hprim q).trans (hs q (hst ▸ hq))
  rw [e]
  refine ⟨fun q => ?_, fun u => ?_⟩
  · rw [State.primUpdated_mark, hprim, Bool.false_or]
  · rw [State.taskUpdated_mark, hτ, htask]

theorem overrideTask_marks (hs : ∀ q, (s.task t).tStopper = some q → s.primUpdated q = true) :
    (∀ q, (overrideTask p t s).primUpdated q = s.primUpdated q) ∧
      ∀ u, (overrideTask p t s).taskUpdated u = (decide (u = t) || s.taskUpdated u) := by
  refine taskPropagateUpdate_same (fun q => ?_) (fun u => ?_) (by simp) hs
  · by_cases hq : q = p <;> simp [State.primUpdated, hq]
  · by_cases hu : u = t <;> simp [State.taskUpdated, hu]

theorem unOverride_marks (hs : ∀ q, (s.task t).tStopper = some q → s.primUpdated q = true) :
    (∀ q, (unOverride p t s).primUpdated q = s.primUpdated q) ∧
      ∀ u, (unOverride p t s).taskUpdated u = (decide (u = t) || s.taskUpdated u) := by
  refine taskPropagateUpdate_same (fun q => ?_) (fun u => ?_) (by simp) hs
  · by_cases hq : q = p <;> simp [State.primUpdated, hq]
  · by_cases hu : u = t <;> simp [State.taskUpdated, hu]

/-! ### The invariant -/

/-- The marks of the registered objects: stoppers are marked, and so are the tasks that run and
those that a marked primitive overrides. -/
structure Marks (P : Pointers k) (π : PrimId k → Bool) (τ : TaskId k → Bool) : Prop where
  overridden : ∀ p t, P.pProcess p ≠ none → P.pOverridden p = some t →
    P.tProcess t ≠ none ∧ (π p = true → τ t = true)
  stopper : ∀ t p, P.tProcess t ≠ none → P.tStopper t = some p → P.pProcess p ≠ none ∧ π p = true
  running : ∀ t, P.tProcess t ≠ none → P.tStopper t = none → τ t = true

namespace Marks

variable {P : Pointers k} {π π' : PrimId k → Bool} {τ τ' : TaskId k → Bool}

theorem stop (M : Marks P π τ) (hp : P.pProcess p ≠ none)
    (hfree : ∀ q, P.pProcess q ≠ none → P.pOverridden q = some t → q ≠ p ∧ π q = false)
    (hπ : ∀ q, π' q = (decide (q = p) || π q))
    (hτ : ∀ u, u ≠ t → τ' u = (decide (π p = false ∧ P.pOverridden p = some u) || τ u)) :
    Marks (P.stop p t) π' τ' where
  overridden := by
    intro q u hq hu
    obtain ⟨hmember, hmark⟩ := M.overridden q u hq hu
    refine ⟨hmember, fun hmarked => ?_⟩
    rw [hπ, Bool.or_eq_true, decide_eq_true_eq] at hmarked
    have hut : u ≠ t := by
      rintro rfl
      obtain ⟨hqp, hunmarked⟩ := hfree q hq hu
      simp [hqp, hunmarked] at hmarked
    rw [hτ u hut, Bool.or_eq_true, decide_eq_true_eq]
    rcases hmarked with rfl | hmarked
    · cases hqm : π q with
      | false => exact .inl ⟨rfl, hu⟩
      | true => exact .inr (hmark hqm)
    · exact .inr (hmark hmarked)
  stopper := by
    intro u q hu hq
    by_cases hut : u = t
    · subst hut
      simp only [Pointers.stop, Function.update_self, Option.some.injEq] at hq
      subst hq
      exact ⟨hp, by simp [hπ]⟩
    · simp only [Pointers.stop, Function.update_of_ne hut] at hq
      obtain ⟨h₁, h₂⟩ := M.stopper u q hu hq
      exact ⟨h₁, by simp [hπ, h₂]⟩
  running := by
    intro u hu hs
    have hut : u ≠ t := by
      rintro rfl
      simp [Pointers.stop] at hs
    simp only [Pointers.stop, Function.update_of_ne hut] at hs
    rw [hτ u hut, M.running u hu hs, Bool.or_true]

theorem resume (M : Marks P π τ) (hτ : τ' t = true) (hτ' : ∀ u, u ≠ t → τ' u = τ u) :
    Marks (P.resume p t) π τ' where
  overridden := by
    intro q u hq hu
    obtain ⟨hmember, hmark⟩ := M.overridden q u hq hu
    refine ⟨hmember, fun hmarked => ?_⟩
    by_cases hut : u = t
    · exact hut ▸ hτ
    · exact (hτ' u hut).trans (hmark hmarked)
  stopper := by
    intro u q hu hq
    have hut : u ≠ t := by
      rintro rfl
      simp [Pointers.resume] at hq
    simp only [Pointers.resume, Function.update_of_ne hut] at hq
    exact M.stopper u q hu hq
  running := by
    intro u hu hs
    by_cases hut : u = t
    · exact hut ▸ hτ
    · simp only [Pointers.resume, Function.update_of_ne hut] at hs
      exact (hτ' u hut).trans (M.running u hu hs)

theorem override (M : Marks P π τ) (ht : P.tProcess t ≠ none)
    (hτ : ∀ u, τ' u = (decide (u = t) || τ u)) : Marks (P.override p t) π τ' where
  overridden := by
    intro q u hq hu
    by_cases hqp : q = p
    · subst hqp
      simp only [Pointers.override, Function.update_self, Option.some.injEq] at hu
      subst hu
      exact ⟨ht, fun _ => by simp [hτ]⟩
    · simp only [Pointers.override, Function.update_of_ne hqp] at hu
      obtain ⟨hmember, hmark⟩ := M.overridden q u hq hu
      exact ⟨hmember, fun hmarked => by simp [hτ, hmark hmarked]⟩
  stopper := M.stopper
  running := fun u hu hs => by simp [hτ, M.running u hu hs]

theorem unoverride (M : Marks P π τ) (hτ : ∀ u, τ' u = (decide (u = t) || τ u)) :
    Marks (P.unoverride p t) π τ' where
  overridden := by
    intro q u hq hu
    have hqp : q ≠ p := by
      rintro rfl
      simp [Pointers.unoverride] at hu
    simp only [Pointers.unoverride, Function.update_of_ne hqp] at hu
    obtain ⟨hmember, hmark⟩ := M.overridden q u hq hu
    exact ⟨hmember, fun hmarked => by simp [hτ, hmark hmarked]⟩
  stopper := M.stopper
  running := fun u hu hs => by simp [hτ, M.running u hu hs]

theorem addPrim (M : Marks P π τ) (π' : PrimId k → Bool) (hp : P.pProcess p = none)
    (hπ : ∀ q, q ≠ p → π' q = π q) : Marks (P.addPrim d p) π' τ where
  overridden := by
    intro q u hq hu
    have hqp : q ≠ p := by
      rintro rfl
      simp [Pointers.addPrim] at hu
    simp only [Pointers.addPrim, Function.update_of_ne hqp] at hq hu
    obtain ⟨hmember, hmark⟩ := M.overridden q u hq hu
    exact ⟨hmember, fun hmarked => hmark ((hπ q hqp).symm.trans hmarked)⟩
  stopper := by
    intro u q hu hq
    obtain ⟨h₁, h₂⟩ := M.stopper u q hu hq
    have hqp : q ≠ p := by
      rintro rfl
      exact h₁ hp
    exact ⟨by simpa [Pointers.addPrim, hqp] using h₁, (hπ q hqp).trans h₂⟩
  running := M.running

theorem addTask (M : Marks P π τ) (hτ : τ' t = true) (hτ' : ∀ u, u ≠ t → τ' u = τ u) :
    Marks (P.addTask d t) π τ' where
  overridden := by
    intro q u hq hu
    obtain ⟨hmember, hmark⟩ := M.overridden q u hq hu
    by_cases hut : u = t
    · subst hut
      exact ⟨by simp [Pointers.addTask], fun _ => hτ⟩
    · refine ⟨by simpa [Pointers.addTask, hut] using hmember, fun hmarked => ?_⟩
      exact (hτ' u hut).trans (hmark hmarked)
  stopper := by
    intro u q hu hq
    have hut : u ≠ t := by
      rintro rfl
      simp [Pointers.addTask] at hq
    simp only [Pointers.addTask, Function.update_of_ne hut] at hu hq
    exact M.stopper u q hu hq
  running := by
    intro u hu hs
    by_cases hut : u = t
    · exact hut ▸ hτ
    · simp only [Pointers.addTask, Function.update_of_ne hut] at hu hs
      exact (hτ' u hut).trans (M.running u hu hs)

theorem congr {P' : Pointers k} (M : Marks P π τ) (htask : P'.tProcess = P.tProcess)
    (hprim : P'.pProcess = P.pProcess) (hover : P'.pOverridden = P.pOverridden)
    (hst : P'.tStopper = P.tStopper) (hπ : ∀ q, π' q = π q) (hτ : ∀ u, τ' u = τ u) :
    Marks P' π' τ' := by
  obtain rfl : π' = π := funext hπ
  obtain rfl : τ' = τ := funext hτ
  constructor
  · rw [htask, hprim, hover]
    exact M.overridden
  · rw [htask, hprim, hst]
    exact M.stopper
  · rw [htask, hst]
    exact M.running

end Marks

/-! ### Calls -/

/-- The invariant of a memory. -/
abbrev State.Marked (s : State k) : Prop := Marks s.pointers s.primUpdated s.taskUpdated

/-- The object has been registered. -/
def State.known (s : State k) : PrimId k ⊕ TaskId k → Prop
  | .inl p => (s.prim p).pProcess ≠ none
  | .inr t => (s.task t).tProcess ≠ none

theorem State.Marked.above (M : s.Marked) {o o' : PrimId k ⊕ TaskId k}
    (ho : s.known o ∧ s.updated o = true)
    (hpath : Relation.ReflTransGen (fun a b => s.above a = some b) o o') :
    s.known o' ∧ s.updated o' = true := by
  induction hpath with
  | refl => exact ho
  | @tail a b _ hab ih =>
      cases a with
      | inl p =>
          obtain ⟨t, ht, rfl⟩ := Option.map_eq_some_iff.mp hab
          obtain ⟨hknown, hmark⟩ := M.overridden p t ih.1 ht
          exact ⟨hknown, hmark ih.2⟩
      | inr t =>
          obtain ⟨p, hp, rfl⟩ := Option.map_eq_some_iff.mp hab
          exact M.stopper t p ih.1 hp

theorem Assigned.taskUpdated (A : Assigned s s') (t : TaskId k) :
    s'.taskUpdated t = s.taskUpdated t := by
  have e : (s'.task t).tStatus = (s.task t).tStatus := A.tStatus t
  rw [State.taskUpdated, e]
  rfl

theorem Assigned.updated (A : Assigned s s') (o : PrimId k ⊕ TaskId k) :
    s'.updated o = s.updated o := by
  cases o with
  | inl p => exact A.primUpdated p
  | inr t => exact A.taskUpdated t

theorem Assigned.known (A : Assigned s s') (o : PrimId k ⊕ TaskId k) : s'.known o ↔ s.known o := by
  cases o with
  | inl p =>
      show (s'.prim p).pProcess ≠ none ↔ _
      rw [A.prim]
      rfl
  | inr t =>
      show (s'.task t).tProcess ≠ none ↔ _
      rw [A.tProcess]
      rfl

theorem State.Marked.assigned (M : s.Marked) (A : Assigned s s') : s'.Marked := by
  refine M.congr (funext A.tProcess) (funext fun p => ?_) (funext fun p => ?_) (funext A.tStopper)
    A.primUpdated A.taskUpdated
  · show (s'.prim p).pProcess = _
    rw [A.prim]
    rfl
  · show (s'.prim p).pOverridden = _
    rw [A.prim]
    rfl

/-- What a call keeps: the invariant, and the marks of what has changed. -/
def Marking.Post (s : State k) (c : Call k) (s' : State k) : Prop :=
  s'.Marked ∧ ∀ o ∈ changed ⟨s, c, 0, s'⟩, s'.known o ∧ s'.updated o = true

theorem stopThread_marked (M : s.Marked) (hc : StopsUnmarked hist s (.stopThread p h))
    (he : primitiveStopThread ⟨true, policy⟩ p h s = .ok s') :
    Marking.Post s (.stopThread p h) s' := by
  obtain ⟨-, s₁, h₁, he⟩ := primitiveStopThread_ok.mp he
  obtain ⟨t, d, ht, -, hchecks, h₁⟩ := primitiveStopTask_ok.mp h₁
  obtain ⟨hrel, -, -⟩ := hchecks rfl
  have A := (callHook_assigned h₁).2.1.trans (callHook_assigned he).2.1
  have hp : (s.prim p).pProcess ≠ none := fun e => hrel.member (hrel.same.symm.trans e)
  have hfree := hc t ht
  obtain ⟨hπ, -, hτ⟩ := stopTask_marks (s := s) (p := p) (t := t) fun u hu => by
    refine ⟨?_, fun q hq => (M.stopper u q (M.overridden p u hp hu).1 hq).2⟩
    rintro rfl
    exact (hfree p hp hu).1 rfl
  have M' : (stopTask p t s).Marked := by
    unfold State.Marked
    rw [stopTask_pointers]
    exact M.stop hp hfree hπ hτ
  refine ⟨M'.assigned A, fun o ho => ?_⟩
  obtain rfl := List.mem_singleton.mp ho
  rw [A.known, A.updated]
  constructor
  · have e := congrFun (congrArg Pointers.pProcess (stopTask_pointers s p t)) p
    exact fun hn => hp (e.symm.trans hn)
  · exact (hπ p).trans (by simp)

theorem resumeTask_marked (M : s.Marked)
    (he : primitiveResumeTask ⟨true, policy⟩ (taskAddr t) s = .ok s') :
    Marking.Post s (.resumeTask t) s' := by
  obtain ⟨u, d, p, hu, hprc, hst, -, he⟩ := primitiveResumeTask_ok.mp he
  obtain rfl : t = u := Option.some.inj hu
  have A := (callHook_assigned he).2.1
  have hmember : (s.task t).tProcess ≠ none := by simp [hprc]
  obtain ⟨hp, hmarked⟩ := M.stopper t p hmember hst
  obtain ⟨hπ, hτ, hτ'⟩ := resumeTask_marks (t := t) hmarked
  have M' : (resumeTask p t s).Marked := by
    have hR := M.resume (p := p) hτ hτ'
    rw [← resumeTask_pointers] at hR
    exact hR.congr rfl rfl rfl rfl hπ fun _ => rfl
  refine ⟨M'.assigned A, fun o ho => ?_⟩
  simp only [changed, hst, Option.toList_some, List.map_cons, List.map_nil,
    List.mem_singleton] at ho
  subst ho
  rw [A.known, A.updated]
  constructor
  · have e := congrFun (congrArg Pointers.pProcess (resumeTask_pointers s p t)) p
    exact fun hn => hp (e.symm.trans hn)
  · exact (hπ p).trans hmarked

/-- An un-override marks the task. -/
theorem primUnOverride_marked (M : s.Marked)
    (he : primUnOverride ⟨true, policy⟩ p s = .ok s') :
    s'.Marked ∧ ∀ t, (s.prim p).pOverridden = some t →
      (s'.task t).tProcess ≠ none ∧ s'.taskUpdated t = true := by
  rcases primUnOverride_ok.mp he with ⟨ho, rfl⟩ | ⟨t, d, ho, hprc, he⟩
  · exact ⟨M, fun t ht => by cases ho.symm.trans ht⟩
  · have A := (callHook_assigned he).2.1
    have hp : (s.prim p).pProcess ≠ none := by simp [hprc]
    obtain ⟨hmember, -⟩ := M.overridden p t hp ho
    obtain ⟨hπ, hτ⟩ := unOverride_marks (s := s) (p := p) (t := t) fun q hq =>
      (M.stopper t q hmember hq).2
    have M' : (unOverride p t s).Marked := by
      have hU := M.unoverride (p := p) hτ
      rw [← unOverride_pointers] at hU
      exact hU.congr rfl rfl rfl rfl hπ fun _ => rfl
    refine ⟨M'.assigned A, fun u hu => ?_⟩
    obtain rfl := Option.some.inj (ho.symm.trans hu)
    rw [A.tProcess, A.taskUpdated]
    constructor
    · have e := congrFun (congrArg Pointers.tProcess (unOverride_pointers s p t)) t
      exact fun hn => hmember (e.symm.trans hn)
    · exact (hτ t).trans (by simp)

theorem unoverrideTask_marked (M : s.Marked) (he : primUnOverride ⟨true, policy⟩ p s = .ok s') :
    Marking.Post s (.unoverrideTask p) s' := by
  obtain ⟨M', hmarked⟩ := primUnOverride_marked M he
  refine ⟨M', fun o ho => ?_⟩
  simp only [changed, List.mem_map, Option.mem_toList] at ho
  obtain ⟨t, ht, rfl⟩ := ho
  exact hmarked t ht

theorem overrideTask_marked (M : s.Marked)
    (he : primitiveOverrideTask ⟨true, policy⟩ p (some t) s = .ok s') :
    Marking.Post s (.overrideTask p t) s' := by
  obtain ⟨u, d, s₁, hu, -, hchecks, h₁, he⟩ := primitiveOverrideTask_ok.mp he
  obtain rfl : t = u := Option.some.inj hu
  obtain ⟨hrel, -⟩ := primUnOverride_checked h₁ (hchecks rfl).1 (hchecks rfl).2
  obtain ⟨M₁, hmarked⟩ := primUnOverride_marked M h₁
  have A := (callHook_assigned he).2.1
  obtain ⟨hπ, hτ⟩ := overrideTask_marks (s := s₁) (p := p) (t := t) fun q hq =>
    (M₁.stopper t q hrel.member hq).2
  have M' : (overrideTask p t s₁).Marked := by
    have hO := M₁.override (p := p) hrel.member hτ
    rw [← overrideTask_pointers] at hO
    exact hO.congr rfl rfl rfl rfl hπ fun _ => rfl
  have hmember : ∀ u, ((overrideTask p t s₁).task u).tProcess = (s₁.task u).tProcess := fun u =>
    congrFun (congrArg Pointers.tProcess (overrideTask_pointers s₁ p t)) u
  refine ⟨M'.assigned A, fun o ho => ?_⟩
  rw [A.known, A.updated]
  simp only [changed, List.mem_cons, List.mem_map, Option.mem_toList] at ho
  rcases ho with rfl | ⟨u, hu, rfl⟩
  · exact ⟨fun hn => hrel.member ((hmember t).symm.trans hn), (hτ t).trans (by simp)⟩
  · obtain ⟨h₁, h₂⟩ := hmarked u hu
    exact ⟨fun hn => h₁ ((hmember u).symm.trans hn), (hτ u).trans (by simp [h₂])⟩

theorem Edit.marked (M : s.Marked) (e : Edit k) (he : ∀ p t, e ≠ .stop p t ∧ e ≠ .resume p t ∧
    e ≠ .override p t ∧ e ≠ .unoverride p t) : (e.apply s).Marked := by
  have hkeep : e.pointers s.pointers = s.pointers → (∀ q, (e.apply s).primUpdated q = s.primUpdated q) →
      (∀ u, (e.apply s).taskUpdated u = s.taskUpdated u) → (e.apply s).Marked := by
    intro hP hπ hτ
    unfold State.Marked
    rw [e.apply_pointers, hP]
    exact M.congr rfl rfl rfl rfl hπ hτ
  have hprim : ∀ (q p : PrimId k) (x : Sprim k), x.pStatus = (s.prim p).pStatus →
      (Function.update s.prim p x q).pStatus = (s.prim q).pStatus := by
    intro q p x hx
    by_cases hq : q = p <;> simp [hq, hx]
  have htask : ∀ (u t : TaskId k) (x : Stask k), x.tStatus = (s.task t).tStatus →
      (Function.update s.task t x u).tStatus = (s.task u).tStatus := by
    intro u t x hx
    by_cases hu : u = t <;> simp [hu, hx]
  cases e with
  | stop p t => exact absurd rfl (he p t).1
  | resume p t => exact absurd rfl (he p t).2.1
  | override p t => exact absurd rfl (he p t).2.2.1
  | unoverride p t => exact absurd rfl (he p t).2.2.2
  | take p t | release p t =>
      refine hkeep rfl (fun q => ?_) fun u => ?_
      · exact congrArg (fun b => b &&& schedPrimStatusUpdated != 0) (hprim q p _ rfl)
      · exact congrArg (fun b => b &&& staskStatusUpdated != 0) (htask u t _ rfl)
  | releasePrim p =>
      refine hkeep rfl (fun q => ?_) fun u => rfl
      exact congrArg (fun b => b &&& schedPrimStatusUpdated != 0) (hprim q p _ rfl)
  | processStatus | commit => exact hkeep rfl (fun _ => rfl) fun _ => rfl

theorem processRegisterPrim_marked (M : s.Marked) (hp : (s.prim p).pProcess = none) :
    (processRegisterPrim d p s).Marked := by
  unfold State.Marked
  rw [processRegisterPrim_pointers]
  refine (M.addPrim (processRegisterPrim d p s).primUpdated hp fun q hq => ?_).congr rfl rfl rfl rfl
    (fun _ => rfl) fun _ => rfl
  simp [State.primUpdated, processRegisterPrim, hq]

theorem registerTask_marked (M : s.Marked) : (registerTask d t s).Marked := by
  unfold State.Marked
  rw [registerTask_pointers]
  refine M.addTask ?_ fun u hu => ?_
  · simp [State.taskUpdated, registerTask, schedStatusActive, staskStatusUpdated]
  · simp [State.taskUpdated, registerTask, hu]

/-- **A call keeps the marks** if the primitives that override the task it stops are not marked. -/
theorem exec_marked (M : s.Marked) (hmark : c.marking = true) (hc : StopsUnmarked hist s c)
    (hnew : ∀ p, c.newPrim = some p → (s.prim p).pProcess = none)
    (he : exec ⟨true, policy⟩ c s = .ok (r, s')) : Marking.Post s c s' := by
  have hquiet : c.registers = false → (∀ p, c.stops p = false) → c.resumes = false →
      (∀ p, c.overrides p = false) → s'.Marked := by
    intro hreg hstops hresumes hoverrides
    refine (exec_edits hreg he).keeps (I := State.Marked) (fun hx A => hx.assigned A) ?_ M
    intro x e hx ha _
    refine Edit.marked hx e fun p t => ⟨?_, ?_, ?_, ?_⟩
    · rintro rfl
      cases (hstops p).symm.trans ha
    · rintro rfl
      cases hresumes.symm.trans ha
    · rintro rfl
      cases (hoverrides p).symm.trans ha
    · rintro rfl
      cases (hoverrides p).symm.trans ha
  cases c with
  | stopThread p h => exact stopThread_marked M hc (void_eq_ok.mp he).2
  | resumeTask t => exact resumeTask_marked M (void_eq_ok.mp he).2
  | overrideTask p t => exact overrideTask_marked M (void_eq_ok.mp he).2
  | unoverrideTask p =>
      exact unoverrideTask_marked M (primitiveUnoverrideTask_ok.mp (void_eq_ok.mp he).2)
  | registerProcess d =>
      obtain ⟨-, rfl⟩ := ok_pair_eq.mp he
      have M₁ : (registerProcess d s).Marked := by
        unfold State.Marked
        rw [registerProcess_pointers]
        exact M.congr rfl rfl rfl rfl (fun _ => rfl) fun _ => rfl
      exact ⟨processRegisterPrim_marked M₁ (hnew _ rfl), nofun⟩
  | registerThread h =>
      obtain ⟨-, rfl⟩ := ok_pair_eq.mp he
      refine ⟨?_, nofun⟩
      unfold State.Marked
      rw [schedRegisterThread_pointers]
      exact M.congr rfl rfl rfl rfl (fun _ => rfl) fun _ => rfl
  | registerTask d t =>
      obtain ⟨-, rfl⟩ := processRegisterTask_iff.mp (void_eq_ok.mp he).2
      exact ⟨registerTask_marked M, nofun⟩
  | registerPrim d p | mutexCtor p d =>
      obtain ⟨-, rfl⟩ := ok_pair_eq.mp he
      exact ⟨processRegisterPrim_marked M (hnew _ rfl), nofun⟩
  | semCtor p n d =>
      obtain ⟨-, rfl⟩ := ok_pair_eq.mp he
      have M₁ : State.Marked { s with sNbOwners := Function.update s.sNbOwners p n } := M
      exact ⟨processRegisterPrim_marked M₁ (hnew _ rfl), nofun⟩
  | openCommit | closeCommit | assignTask | takeOwnership | releaseOwnership =>
      exact ⟨hquiet rfl (fun _ => rfl) rfl fun _ => rfl, nofun⟩
  | _ => cases hmark

/-! ### Runs -/

theorem marking_unregisters (hmark : c.marking = true) : c.unregisters = false := by
  cases c with
  | unregisterProcess | unregisterThread | unregisterTask | unregisterPrim => cases hmark
  | _ => rfl

/-- A primitive that points to a process is registered, as long as nothing is unregistered. -/
theorem reach_pProcess {guard : Hist k → State k → Call k → Prop} (hr : Reach policy guard hist s)
    (hguard : ∀ {hist s c}, guard hist s c → c.unregisters = false)
    (hp : (s.prim p).pProcess ≠ none) : primRegistered hist p = true := by
  induction hr with
  | start hs => exact absurd (hs.prim p) hp
  | @call hist s s' c r hr hg he ih =>
      have hu := hguard hg
      rw [primRegistered_cons hu, Bool.or_eq_true, decide_eq_true_eq]
      refine or_iff_not_imp_left.mpr fun hn => ih ?_
      cases hreg : c.registers with
      | true => exact exec_registers_pProcess hreg hu he hn ▸ hp
      | false => exact exec_pProcess hreg he ▸ hp

theorem reach_marked
    (hr : Reach policy (fun hist s c => Marking hist s c ∧ StopsUnmarked hist s c) hist s) :
    s.Marked ∧ ∀ e ∈ hist.head?, ∀ o ∈ changed e, s.known o ∧ s.updated o = true := by
  induction hr with
  | start hs =>
      refine ⟨⟨fun p t hp => ?_, fun t p ht => ?_, fun t ht => ?_⟩, fun _ he => nomatch he⟩
      · exact absurd (hs.prim p) hp
      · exact absurd (hs.task t) ht
      · exact absurd (hs.task t) ht
  | @call hist s s' c r hr hg he ih =>
      obtain ⟨⟨hmark, hf⟩, hc⟩ := hg
      have hnew : ∀ p, c.newPrim = some p → (s.prim p).pProcess = none := by
        intro p hp
        by_contra hne
        have hreg := reach_pProcess hr (fun hg => marking_unregisters hg.1.1) hne
        cases (fresh_newPrim hf hp).symm.trans hreg
      obtain ⟨M', hmarked⟩ := exec_marked ih.1 hmark hc hnew he
      refine ⟨M', fun e he o ho => hmarked o ?_⟩
      obtain rfl := Option.some.inj he
      exact ho

theorem State.Marked.closed (M : s.Marked)
    (hlast : ∀ e ∈ hist.head?, ∀ o ∈ changed e, s.known o ∧ s.updated o = true) :
    MarksClosed hist s where
  overridden := fun p t hp ht => (M.overridden p t hp ht).2
  stopper := fun t p ht hp _ => (M.stopper t p ht hp).2
  ancestors := fun e he o ho _ hpath => (M.above (hlast e he o ho) hpath).2

/-- **The marks are closed upwards**, throughout a run of registrations, overrides, stops and
resumptions, iff no task is stopped while a marked primitive, or the one that stops it, overrides
it. -/
theorem marks_closed_iff (hr : Reach policy Marking hist s) :
    Throughout MarksClosed hist s ↔ Meets StopsUnmarked hist := by
  refine hr.throughout_iff (fun s hs => ?_) (fun {hist s c r s'} hr _ hg he => ?_)
  · have hstart : Reach policy (fun hist s c => Marking hist s c ∧ StopsUnmarked hist s c) [] s :=
      .start hs
    obtain ⟨M, hlast⟩ := reach_marked hstart
    exact M.closed hlast
  · constructor
    · intro hafter
      cases c with
      | stopThread p h =>
          intro t ht q hq ho
          by_contra hcond
          -- the bit of the stopped task is clear, and the primitive that overrides it is marked
          obtain ⟨-, s₁, h₁, h₂⟩ := primitiveStopThread_ok.mp (void_eq_ok.mp he).2
          obtain ⟨u, d, hu, -, -, h₁⟩ := primitiveStopTask_ok.mp h₁
          obtain rfl := Option.some.inj (ht.symm.trans hu)
          have A := (callHook_assigned h₁).2.1.trans (callHook_assigned h₂).2.1
          have e := stopTask_pointers s p t
          have hmarked : s'.primUpdated q = true := by
            rw [A.primUpdated]
            refine stopTask_primUpdated s p t ?_
            by_contra hn
            rw [not_or, Bool.not_eq_true] at hn
            exact hcond hn
          have hmember : (s'.prim q).pProcess ≠ none := by
            rw [A.prim]
            exact fun hn => hq ((congrFun (congrArg Pointers.pProcess e) q).symm.trans hn)
          have hover : (s'.prim q).pOverridden = some t := by
            rw [A.prim]
            exact (congrFun (congrArg Pointers.pOverridden e) q).trans ho
          have hst : (s'.task t).tStatus = schedStatusStopped := by
            obtain ⟨τ, -, hτ⟩ := stopTask_tStatus s p t
            exact (A.tStatus t).trans ((hτ t).trans (if_pos rfl))
          have hclear : s'.taskUpdated t = false := by
            simp [State.taskUpdated, hst, schedStatusStopped, staskStatusUpdated]
          cases hclear.symm.trans (hafter.overridden q t hmember hover hmarked)
      | _ => trivial
    · intro hc
      obtain ⟨M, hlast⟩ := reach_marked (.call hr ⟨hg, hc⟩ he)
      exact M.closed hlast

instance (hist : Hist k) (s : State k) (c : Call k) : Decidable (StopsUnmarked hist s c) := by
  induction c using Call.casesOn with
  | stopThread p h =>
      exact inferInstanceAs (Decidable (∀ t, (s.thread h).tTask = some t → ∀ q,
        (s.prim q).pProcess ≠ none → (s.prim q).pOverridden = some t →
          q ≠ p ∧ s.primUpdated q = false))
  | _ => exact inferInstanceAs (Decidable True)

set_option maxRecDepth 10000 in
/-- The second task waits for a primitive of the first one, which is then stopped by another one. -/
theorem marks_closed_run : ∃ (hist : Hist small) (s : State small),
    s.primUpdated (.other 0) = true ∧ Throughout MarksClosed hist s := by
  obtain ⟨hist, s, hr, htest⟩ := exists_reach_of_replay (exec ⟨true, quiet⟩)
    (fun hist s c => Marking hist s c ∧ StopsUnmarked hist s c) boot_smallBoot
    (fun _ s => s.primUpdated (.other 0))
    (smallSetup ++ [.registerPrim 0 (.other 0), .registerPrim 0 (.other 1),
      .assignTask 0 (some 0), .assignTask 1 (some 1), .overrideTask (.other 0) 0,
      .stopThread (.other 1) 0, .stopThread (.other 0) 1, .resumeTask 1])
    (by decide +kernel)
  exact ⟨hist, s, htest, (marks_closed_iff (hr.mono And.left)).mpr (hr.mono And.right).meets_guard⟩

set_option maxRecDepth 10000 in
/-- A task waits for a primitive, which is thus marked; the task that the primitive overrides loses
its mark when it is stopped. -/
theorem marks_closed_fails : ¬∀ (hist : Hist small) (s : State small),
    Reach quiet Marking hist s → MarksClosed hist s := by
  intro hall
  obtain ⟨hist, s, hr, htest⟩ := exists_reach_of_replay (exec ⟨true, quiet⟩) Marking boot_smallBoot
    (fun _ s => decide ((s.prim (.other 0)).pProcess ≠ none) &&
      ((s.prim (.other 0)).pOverridden == some 0 &&
        (s.primUpdated (.other 0) && !s.taskUpdated 0)))
    (smallSetup ++ [.registerPrim 0 (.other 0), .registerPrim 0 (.other 1),
      .assignTask 0 (some 0), .assignTask 1 (some 1), .overrideTask (.other 0) 0,
      .stopThread (.other 0) 1, .stopThread (.other 1) 0]) (by decide +kernel)
  simp only [Bool.and_eq_true, decide_eq_true_eq, beq_iff_eq, Bool.not_eq_true'] at htest
  obtain ⟨hmember, hover, hmarked, hclear⟩ := htest
  cases hclear.symm.trans ((hall hist s hr).overridden _ _ hmember hover hmarked)

end KernelTk.Sched
