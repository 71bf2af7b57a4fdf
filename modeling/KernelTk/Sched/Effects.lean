import KernelTk.Sched.Lists
import KernelTk.Sched.Functions

/-! # Effects of the assignments

What the assignments of every function of `sched.c` change, in three parts:

* the **pointers** change by one edit (`stopTask_pointers`, `resumeTask_pointers`, ...), which the
  module on lists describes without the memory;
* the **ledger** is the part of the memory that the lists do not depend on (`State.ledger`):
  owners, commits, executed tasks.  The functions that link nodes leave it as it is;
* the **status words** change by the marks of the walk and, for the stopped or resumed task, by
  an assignment that comes after the walk and clears the mark that the walk may have set
  (`stopTask_tStatus`, `resumeTask_tStatus`).

The walks themselves are known to set marks only.  What they mark is said here for two cases that need
no graph: a walk from a marked object marks nothing but the object that it starts from
(`taskPropagateUpdate_spec`), and a walk from a primitive marks no task if it ends at the primitive or at
the task that it overrides (`WalkEnds`, `primitivePropagateUpdate_spec`).  The specification on any graph
is in `Propagation.lean`.  With these lemmas no proof about a run unfolds an assignment: it reads
each of the three parts off the lemma on the function. -/

namespace KernelTk.Sched

variable {k : Machine}

attribute [ext] Pointers

/-- What the lists do not depend on, the status words and the marks apart. -/
@[ext] structure Ledger (k : Machine) where
  tCommit : TaskId k → Usize k
  tNbOwnedPrimitives : TaskId k → Usize k
  pNbOwningTasks : PrimId k → Usize k
  sNbOwners : PrimId k → Usize k
  tTask : ThreadId k → Option (TaskId k)
  threadCommit : ThreadId k → Usize k
  pStatus : ProcessId k → BitVec 32
  pNbPrimitives : ProcessId k → Usize k
  sched : Scheduler k
  hooks : List (HookCall k)

namespace State

variable (s : State k)

/-- The ledger of a memory. -/
def ledger : Ledger k where
  tCommit := fun t => (s.task t).tCommit
  tNbOwnedPrimitives := fun t => (s.task t).tNbOwnedPrimitives
  pNbOwningTasks := fun p => (s.prim p).pNbOwningTasks
  sNbOwners := s.sNbOwners
  tTask := fun h => (s.thread h).tTask
  threadCommit := fun h => (s.thread h).tCommit
  pStatus := fun c => (s.process c).pStatus
  pNbPrimitives := fun c => (s.process c).pNbPrimitives
  sched := s.sched
  hooks := s.hooks

/-- The status words of the tasks. -/
def tStatus (t : TaskId k) : BitVec 32 := (s.task t).tStatus

/-- The walk from a primitive marks no task: it ends at the primitive or at the task it
overrides. -/
def WalkEnds (p : PrimId k) : Prop :=
  s.primUpdated p = true ∨ ∀ t, (s.prim p).pOverridden = some t → s.taskUpdated t = true

theorem WalkEnds.congr {s s' : State k} {p : PrimId k} (h : s.WalkEnds p)
    (hp : (s'.prim p).pStatus = (s.prim p).pStatus)
    (ho : (s'.prim p).pOverridden = (s.prim p).pOverridden)
    (ht : ∀ t, (s'.task t).tStatus = (s.task t).tStatus) : s'.WalkEnds p := by
  simpa only [WalkEnds, primUpdated, taskUpdated, hp, ho, ht] using h

end State

/-! ### The walk -/

section walk

variable (s : State k) (p : PrimId k) (t : TaskId k)

@[simp] theorem taskPropagateUpdate_pointers :
    (taskPropagateUpdate t s).pointers = s.pointers := by
  obtain ⟨τ, π, e⟩ := taskPropagateUpdate_eq_mark t s
  rw [e]
  rfl

@[simp] theorem taskPropagateUpdate_ledger : (taskPropagateUpdate t s).ledger = s.ledger := by
  obtain ⟨τ, π, e⟩ := taskPropagateUpdate_eq_mark t s
  rw [e]
  rfl

theorem State.primUpdated_mark (τ : TaskId k → Bool) (π : PrimId k → Bool) (q : PrimId k) :
    (s.mark τ π).primUpdated q = (π q || s.primUpdated q) := by
  cases hq : π q with
  | false => simp [primUpdated, hq]
  | true =>
      have hbit : ∀ v : BitVec 8, (v ||| schedPrimStatusUpdated) &&& schedPrimStatusUpdated ≠ 0 := by
        intro v h
        have := congrArg (fun b => b.getLsbD 0) h
        simp [schedPrimStatusUpdated] at this
      simpa [primUpdated, hq] using hbit (s.prim q).pStatus

theorem primUpdated_primitivePropagateUpdate :
    (primitivePropagateUpdate p s).primUpdated p = true := by
  have hp : (s.markPrim p).primUpdated p = true := by
    rw [State.markPrim_eq_mark, State.primUpdated_mark]
    simp
  rw [primitivePropagateUpdate, primitivePropagateLoop]
  dsimp only
  split
  · assumption
  · split
    · exact hp
    · split
      · exact hp
      · split
        · exact hp
        · rename_i u _ _ _ q _
          obtain ⟨τ, π, e⟩ := primitivePropagateLoop_eq_mark k.tasks q ((s.markPrim p).markTask u)
          rw [e, State.primUpdated_mark]
          exact Bool.or_eq_true_iff.mpr (.inr hp)

theorem primitivePropagateUpdate_of_walkEnds (h : s.WalkEnds p) :
    primitivePropagateUpdate p s = s ∨ primitivePropagateUpdate p s = s.markPrim p := by
  cases hp : s.primUpdated p with
  | true => exact .inl (primitivePropagateUpdate_of_updated hp)
  | false =>
      have ho := h.resolve_left (by simp [hp])
      have e : ((s.markPrim p).prim p).pOverridden = (s.prim p).pOverridden := by
        simp [State.markPrim]
      refine .inr ?_
      simp only [primitivePropagateUpdate, primitivePropagateLoop, hp, Bool.false_eq_true, if_false,
        e]
      cases hov : (s.prim p).pOverridden with
      | none => rfl
      | some u => simp [ho u hov]

/-- The walk from a task marks none if that task is marked. -/
theorem taskPropagateUpdate_spec : ∃ τ π, taskPropagateUpdate t s = s.mark τ π ∧
    (s.taskUpdated t = true → ∀ x, τ x = false) := by
  cases ht : s.taskUpdated t with
  | true =>
      refine ⟨fun _ => false, fun _ => false, ?_, fun _ _ => rfl⟩
      rw [taskPropagateUpdate_of_updated ht, s.mark_false]
  | false =>
      obtain ⟨τ, π, e⟩ := taskPropagateUpdate_eq_mark t s
      exact ⟨τ, π, e, fun h => by simp at h⟩

theorem taskPropagateUpdate_tStatus {s s₁ : State k} {t : TaskId k}
    (hsame : ∀ x, (s₁.task x).tStatus = (s.task x).tStatus) : ∃ τ : TaskId k → Bool,
      (s.taskUpdated t = true → ∀ x, τ x = false) ∧
      ∀ x, (taskPropagateUpdate t s₁).tStatus x =
        if τ x then s.tStatus x ||| staskStatusUpdated else s.tStatus x := by
  obtain ⟨τ, π, e, hτ⟩ := taskPropagateUpdate_spec s₁ t
  refine ⟨τ, fun h => hτ ?_, fun x => ?_⟩
  · simpa only [State.taskUpdated, hsame] using h
  · rw [e]
    simp [State.tStatus, hsame]

theorem taskPropagateUpdate_primUpdated {s : State k} {t : TaskId k} {q : PrimId k}
    (h : s.primUpdated q = true) : (taskPropagateUpdate t s).primUpdated q = true := by
  obtain ⟨τ, π, e, -⟩ := taskPropagateUpdate_spec s t
  rw [e, State.primUpdated_mark, h, Bool.or_true]

/-- The walk from a primitive marks it, and no task if it ends at once. -/
theorem primitivePropagateUpdate_spec : ∃ τ π, primitivePropagateUpdate p s = s.mark τ π ∧
    (s.WalkEnds p → ∀ t, τ t = false) ∧ (π p || s.primUpdated p) = true := by
  have hmarked : ∀ {τ π}, primitivePropagateUpdate p s = s.mark τ π →
      (π p || s.primUpdated p) = true := by
    intro τ π e
    rw [← State.primUpdated_mark s τ, ← e]
    exact primUpdated_primitivePropagateUpdate s p
  by_cases h : s.WalkEnds p
  · rcases primitivePropagateUpdate_of_walkEnds s p h with e | e
    · rw [← s.mark_false] at e
      exact ⟨_, _, e, fun _ _ => rfl, hmarked e⟩
    · rw [State.markPrim_eq_mark] at e
      exact ⟨_, _, e, fun _ _ => rfl, hmarked e⟩
  · obtain ⟨τ, π, e⟩ := primitivePropagateUpdate_eq_mark p s
    exact ⟨τ, π, e, fun h' => absurd h' h, hmarked e⟩

end walk

/-! ### Stop and resume -/

section stop

variable (s : State k) (p : PrimId k) (t : TaskId k)

theorem stopTask_pointers : (stopTask p t s).pointers = s.pointers.stop p t := by
  simp only [stopTask]
  generalize hs : State.modPrim _ p _ = s₁
  obtain ⟨τ, π, e⟩ := primitivePropagateUpdate_eq_mark p s₁
  rw [e, ← hs]
  ext x : 2
  all_goals first
    | rfl
    | by_cases hx : x = t <;> simp [State.pointers, Pointers.stop, hx]
    | by_cases hx : x = p <;> simp [State.pointers, Pointers.stop, hx]

theorem stopTask_ledger : (stopTask p t s).ledger = s.ledger := by
  simp only [stopTask]
  generalize hs : State.modPrim _ p _ = s₁
  obtain ⟨τ, π, e⟩ := primitivePropagateUpdate_eq_mark p s₁
  rw [e, ← hs]
  ext x : 2
  all_goals first
    | rfl
    | by_cases hx : x = t <;> simp [State.ledger, hx]
    | by_cases hx : x = p <;> simp [State.ledger, hx]

/-- The stopped task gets its status after the walk; the walk may have marked others. -/
theorem stopTask_tStatus : ∃ τ : TaskId k → Bool, (s.WalkEnds p → ∀ x, τ x = false) ∧
    ∀ x, (stopTask p t s).tStatus x = if x = t then schedStatusStopped
      else if τ x then s.tStatus x ||| staskStatusUpdated else s.tStatus x := by
  simp only [stopTask]
  generalize hs : State.modPrim _ p _ = s₁
  obtain ⟨τ, π, e, hτ, -⟩ := primitivePropagateUpdate_spec s₁ p
  have hends : s.WalkEnds p → s₁.WalkEnds p := by
    intro h
    refine h.congr ?_ ?_ fun x => ?_
    · simp [← hs]
    · simp [← hs]
    · by_cases hx : x = t <;> simp [← hs, hx]
  refine ⟨τ, fun h => hτ (hends h), fun x => ?_⟩
  rw [e, ← hs]
  by_cases hx : x = t <;> simp [State.tStatus, hx]

theorem stopTask_primUpdated {q : PrimId k} (h : q = p ∨ s.primUpdated q = true) :
    (stopTask p t s).primUpdated q = true := by
  simp only [stopTask]
  generalize hs : State.modPrim _ p _ = s₁
  obtain ⟨τ, π, e, -, hπ⟩ := primitivePropagateUpdate_spec s₁ p
  have hsame : s₁.primUpdated q = s.primUpdated q := by
    by_cases hq : q = p <;> simp [← hs, State.primUpdated, hq]
  have hmark : (s₁.mark τ π).primUpdated q = true := by
    rw [State.primUpdated_mark]
    rcases h with rfl | h
    · exact hπ
    · simp [hsame, h]
  rw [e]
  exact hmark

theorem resumeTask_pointers : (resumeTask p t s).pointers = s.pointers.resume p t := by
  simp only [resumeTask]
  generalize hs : State.modPrim _ p _ = s₁
  obtain ⟨τ, π, e⟩ := primitivePropagateUpdate_eq_mark p s₁
  rw [e, ← hs]
  ext x : 2
  all_goals first
    | rfl
    | by_cases hx : x = t <;> simp [State.pointers, Pointers.resume, hx]
    | by_cases hx : x = p <;> simp [State.pointers, Pointers.resume, hx]

theorem resumeTask_ledger : (resumeTask p t s).ledger = s.ledger := by
  simp only [resumeTask]
  generalize hs : State.modPrim _ p _ = s₁
  obtain ⟨τ, π, e⟩ := primitivePropagateUpdate_eq_mark p s₁
  rw [e, ← hs]
  ext x : 2
  all_goals first
    | rfl
    | by_cases hx : x = t <;> simp [State.ledger, hx]
    | by_cases hx : x = p <;> simp [State.ledger, hx]

theorem resumeTask_tStatus : ∃ τ : TaskId k → Bool, (s.WalkEnds p → ∀ x, τ x = false) ∧
    ∀ x, (resumeTask p t s).tStatus x = if x = t then schedStatusActive
      else if τ x then s.tStatus x ||| staskStatusUpdated else s.tStatus x := by
  simp only [resumeTask]
  generalize hs : State.modPrim _ p _ = s₁
  obtain ⟨τ, π, e, hτ, -⟩ := primitivePropagateUpdate_spec s₁ p
  have hends : s.WalkEnds p → s₁.WalkEnds p := by
    intro h
    refine h.congr ?_ ?_ fun x => ?_
    · simp [← hs]
    · simp [← hs]
    · by_cases hx : x = t <;> simp [← hs, hx]
  refine ⟨τ, fun h => hτ (hends h), fun x => ?_⟩
  rw [e, ← hs]
  by_cases hx : x = t <;> simp [State.tStatus, hx]

theorem resumeTask_primUpdated {q : PrimId k} (h : q = p ∨ s.primUpdated q = true) :
    (resumeTask p t s).primUpdated q = true := by
  simp only [resumeTask]
  generalize hs : State.modPrim _ p _ = s₁
  obtain ⟨τ, π, e, -, hπ⟩ := primitivePropagateUpdate_spec s₁ p
  have hsame : s₁.primUpdated q = s.primUpdated q := by
    by_cases hq : q = p <;> simp [← hs, State.primUpdated, hq]
  have hmark : (s₁.mark τ π).primUpdated q = true := by
    rw [State.primUpdated_mark]
    rcases h with rfl | h
    · exact hπ
    · simp [hsame, h]
  rw [e]
  exact hmark

end stop

/-! ### Overrides -/

section override

variable (s : State k) (p : PrimId k) (t : TaskId k)

theorem overrideTask_pointers : (overrideTask p t s).pointers = s.pointers.override p t := by
  simp only [overrideTask, taskPropagateUpdate_pointers]
  ext x : 2
  all_goals first
    | rfl
    | by_cases hx : x = t <;> simp [State.pointers, Pointers.override, hx]
    | by_cases hx : x = p <;> simp [State.pointers, Pointers.override, hx]

theorem unOverride_pointers : (unOverride p t s).pointers = s.pointers.unoverride p t := by
  simp only [unOverride, taskPropagateUpdate_pointers]
  ext x : 2
  all_goals first
    | rfl
    | by_cases hx : x = t <;> simp [State.pointers, Pointers.unoverride, hx]
    | by_cases hx : x = p <;> simp [State.pointers, Pointers.unoverride, hx]

theorem overrideTask_ledger : (overrideTask p t s).ledger = s.ledger := by
  simp only [overrideTask, taskPropagateUpdate_ledger]
  ext x : 2
  all_goals first
    | rfl
    | by_cases hx : x = t <;> simp [State.ledger, hx]
    | by_cases hx : x = p <;> simp [State.ledger, hx]

theorem unOverride_ledger : (unOverride p t s).ledger = s.ledger := by
  simp only [unOverride, taskPropagateUpdate_ledger]
  ext x : 2
  all_goals first
    | rfl
    | by_cases hx : x = t <;> simp [State.ledger, hx]
    | by_cases hx : x = p <;> simp [State.ledger, hx]

theorem overrideTask_tStatus : ∃ τ : TaskId k → Bool,
    (s.taskUpdated t = true → ∀ x, τ x = false) ∧
    ∀ x, (overrideTask p t s).tStatus x =
      if τ x then s.tStatus x ||| staskStatusUpdated else s.tStatus x := by
  refine taskPropagateUpdate_tStatus fun x => ?_
  by_cases hx : x = t <;> simp [hx]

theorem unOverride_tStatus : ∃ τ : TaskId k → Bool,
    (s.taskUpdated t = true → ∀ x, τ x = false) ∧
    ∀ x, (unOverride p t s).tStatus x =
      if τ x then s.tStatus x ||| staskStatusUpdated else s.tStatus x := by
  refine taskPropagateUpdate_tStatus fun x => ?_
  by_cases hx : x = t <;> simp [hx]

theorem overrideTask_primUpdated {q : PrimId k} (h : s.primUpdated q = true) :
    (overrideTask p t s).primUpdated q = true := by
  refine taskPropagateUpdate_primUpdated ?_
  by_cases hq : q = p <;> simpa [State.primUpdated, hq] using h

theorem unOverride_primUpdated {q : PrimId k} (h : s.primUpdated q = true) :
    (unOverride p t s).primUpdated q = true := by
  refine taskPropagateUpdate_primUpdated ?_
  by_cases hq : q = p <;> simpa [State.primUpdated, hq] using h

end override

/-! ### Registrations -/

section register

variable (s : State k) (p : PrimId k) (t : TaskId k) (c : ProcessId k) (h : ThreadId k)

theorem processRegisterPrim_pointers :
    (processRegisterPrim c p s).pointers = s.pointers.addPrim c p := by
  simp only [processRegisterPrim]
  ext x : 2
  all_goals first
    | rfl
    | by_cases hx : x = p <;> simp [State.pointers, Pointers.addPrim, hx]
    | by_cases hx : x = c <;> simp [State.pointers, Pointers.addPrim, hx]

theorem schedRegisterThread_pointers :
    (schedRegisterThread h s).pointers = s.pointers.addThread h := by
  simp only [schedRegisterThread]
  ext x : 2
  all_goals first
    | rfl
    | by_cases hx : x = h <;> simp [State.pointers, Pointers.addThread, hx]

theorem schedRegisterProcess_pointers : (schedRegisterProcess c s).pointers =
    (s.pointers.addProcess c).addPrim c (pPrim c) := by
  simp only [schedRegisterProcess]
  ext x : 2
  all_goals first
    | rfl
    | by_cases hx : x = c <;>
        simp [State.pointers, processRegisterPrim, Pointers.addPrim, Pointers.addProcess, hx]
    | by_cases hx : x = pPrim c <;>
        simp [State.pointers, processRegisterPrim, Pointers.addPrim, Pointers.addProcess, hx]

theorem processRegisterTask_ok {env : Env k} {s s' : State k}
    (he : processRegisterTask env c t s = .ok s') :
    (s.process c).pSched = true ∧ s'.pointers = s.pointers.addTask c t := by
  simp only [processRegisterTask, bind_eq_ok, nsCheck_eq_ok, derefSched_eq_ok, exists_const] at he
  obtain ⟨-, hsched, he⟩ := he
  refine ⟨hsched, ?_⟩
  rw [← Except.ok.inj he]
  ext x : 2
  all_goals first
    | rfl
    | by_cases hx : x = t <;> simp [State.pointers, Pointers.addTask, hx]
    | by_cases hx : x = c <;> simp [State.pointers, Pointers.addTask, hx]

end register

end KernelTk.Sched
