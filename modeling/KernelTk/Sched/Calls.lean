import KernelTk.Sched.Hooks
import KernelTk.Sched.Locks

/-! # What the functions of `sched.c` do when they return

One inversion lemma a function (`primitiveStopTask_ok`, `schedMutexUnlock_ok`, ...): it returns in the
state `s'` iff, in a debug build, its checks hold, its pointers are not null, and the call to the policy
made after its assignments returns in `s'`.  They are equivalences, so that a lemma serves both the proof
that a call has an effect and the proof that it goes through.

* **Checks.** `State.Related` is what most functions check first: the task belongs to a process of the
  scheduler, and the primitive to the same one.
* **Assignments.** The memory before the call to the policy has a name where several proofs need it:
  `forgetPrim`, `takeOwnership`, `releaseOwnership`, `setProcessStatus`, `mutexAcquire`.
* **Releases.** A release fails when one of the two counters is null, and the other one may then be
  decreased (`primitiveReleaseOwnership_ok`, with `releasePrim`).
* **Wake-ups.** `resumeFirst` returns on an empty list only (`resumeFirst_ok`), because the address that it
  computes is not that of a task; so an unlock or a release that returns has woken nobody.

Functions that walk a list are treated where the list is known. -/

namespace KernelTk.Sched

variable {k : Machine} {env : Env k} {s s' : State k}

theorem ok_pair_eq {a r : BitVec 8} : (.ok (a, s) : Except Fault (BitVec 8 × State k)) = .ok (r, s') ↔
    r = a ∧ s' = s := by
  constructor
  · rintro ⟨⟩
    exact ⟨rfl, rfl⟩
  · rintro ⟨rfl, rfl⟩
    rfl

theorem bind_ok_pair_eq {x : Except Fault (State k)} {a r : BitVec 8} :
    (x >>= fun s₁ => (.ok (a, s₁) : Except Fault (BitVec 8 × State k))) = .ok (r, s') ↔
      r = a ∧ x = .ok s' := by
  cases x with
  | error f => simp [bind, Except.bind]
  | ok s₁ =>
      change (.ok (a, s₁) : Except Fault (BitVec 8 × State k)) = .ok (r, s') ↔ _
      rw [ok_pair_eq, Except.ok.injEq, eq_comm (a := s₁)]

/-- The task belongs to a process of the scheduler, and the primitive to the same process. -/
structure State.Related (s : State k) (p : PrimId k) (t : TaskId k) : Prop where
  member : (s.task t).tProcess ≠ none
  same : (s.prim p).pProcess = (s.task t).tProcess
  sched : s.schedOf (s.task t).tProcess = true

theorem primitiveStopTask_ok {p : PrimId k} {task : Option (TaskId k)} :
    primitiveStopTask env p task s = .ok s' ↔ ∃ t c, task = some t ∧
      (s.task t).tProcess = some c ∧
      (env.debug = true → s.Related p t ∧ s.taskActive t = true ∧ (s.task t).tStopper = none) ∧
      callHook env (s.process c).pSched (.stopped t) (stopTask p t s) = .ok s' := by
  simp only [primitiveStopTask, bind_eq_ok, nsCheck_eq_ok, deref_eq_ok, exists_const]
  constructor
  · rintro ⟨-, t, ht, h₁, h₂, h₃, h₄, h₅, c, hc, he⟩
    exact ⟨t, c, ht, hc, fun hd => ⟨⟨h₁ hd, h₂ hd, h₃ hd⟩, h₄ hd, h₅ hd⟩, he⟩
  · rintro ⟨t, c, ht, hc, h, he⟩
    exact ⟨fun _ => by simp [ht], t, ht, fun hd => (h hd).1.member, fun hd => (h hd).1.same,
      fun hd => (h hd).1.sched, fun hd => (h hd).2.1, fun hd => (h hd).2.2, c, hc, he⟩

theorem primitiveStopThread_ok {p : PrimId k} {h : ThreadId k} :
    primitiveStopThread env p h s = .ok s' ↔
      (env.debug = true → (s.prim p).pProcess ≠ none ∧ (s.thread h).tSched = true ∧
        s.schedOf (s.prim p).pProcess = (s.thread h).tSched) ∧
      ∃ s₁, primitiveStopTask env p (s.thread h).tTask s = .ok s₁ ∧
        callHook env (s.thread h).tSched (.assignOne h) s₁ = .ok s' := by
  simp only [primitiveStopThread, bind_eq_ok, nsCheck_eq_ok, exists_const]
  constructor
  · rintro ⟨h₁, h₂, h₃, he⟩
    exact ⟨fun hd => ⟨h₁ hd, h₂ hd, h₃ hd⟩, he⟩
  · rintro ⟨h, he⟩
    exact ⟨fun hd => (h hd).1, fun hd => (h hd).2.1, fun hd => (h hd).2.2, he⟩

theorem primitiveResumeTask_ok {a : Addr k} :
    primitiveResumeTask env a s = .ok s' ↔ ∃ t c p, a.task? = some t ∧
      (s.task t).tProcess = some c ∧ (s.task t).tStopper = some p ∧
      (env.debug = true → (s.process c).pSched = true ∧
        (s.prim p).pProcess = (s.task t).tProcess ∧ (s.task t).tStatus = schedStatusStopped) ∧
      callHook env (s.process c).pSched (.resumed t) (resumeTask p t s) = .ok s' := by
  simp only [primitiveResumeTask, bind_eq_ok, nsCheck_eq_ok, deref_eq_ok, exists_const]
  constructor
  · rintro ⟨t, ht, -, c, hc, h₁, -, p, hp, h₂, h₃, he⟩
    exact ⟨t, c, p, ht, hc, hp, fun hd => ⟨h₁ hd, h₂ hd, h₃ hd⟩, he⟩
  · rintro ⟨t, c, p, ht, hc, hp, h, he⟩
    exact ⟨t, ht, fun _ => by simp [hc], c, hc, fun hd => (h hd).1, fun _ => by simp [hp], p, hp,
      fun hd => (h hd).2.1, fun hd => (h hd).2.2, he⟩

theorem primUnOverride_ok {p : PrimId k} : primUnOverride env p s = .ok s' ↔
    ((s.prim p).pOverridden = none ∧ s' = s) ∨
    ∃ t c, (s.prim p).pOverridden = some t ∧ (s.prim p).pProcess = some c ∧
      callHook env (s.process c).pSched (.overrideReleased p t) (unOverride p t s) = .ok s' := by
  unfold primUnOverride
  cases ho : (s.prim p).pOverridden with
  | none => simp [eq_comm]
  | some t => simp [bind_eq_ok, deref_eq_ok]

theorem primitiveOverrideTask_ok {p : PrimId k} {task : Option (TaskId k)} :
    primitiveOverrideTask env p task s = .ok s' ↔ ∃ t c s₁, task = some t ∧
      (s.prim p).pProcess = some c ∧
      (env.debug = true → s.Related p t ∧ (s.task t).tStatus = schedStatusActive) ∧
      primUnOverride env p s = .ok s₁ ∧
      callHook env (s.process c).pSched (.overrideTaken p t) (overrideTask p t s₁) = .ok s' := by
  simp only [primitiveOverrideTask, bind_eq_ok, nsCheck_eq_ok, deref_eq_ok, exists_const]
  constructor
  · rintro ⟨-, t, ht, h₁, h₂, h₃, h₄, c, hc, s₁, hs₁, he⟩
    exact ⟨t, c, s₁, ht, hc, fun hd => ⟨⟨h₁ hd, h₂ hd, h₃ hd⟩, h₄ hd⟩, hs₁, he⟩
  · rintro ⟨t, c, s₁, ht, hc, h, hs₁, he⟩
    exact ⟨fun _ => by simp [ht], t, ht, fun hd => (h hd).1.member, fun hd => (h hd).1.same,
      fun hd => (h hd).1.sched, fun hd => (h hd).2, c, hc, s₁, hs₁, he⟩

theorem primUnOverride_tStopper {p : PrimId k} (u : TaskId k)
    (he : primUnOverride env p s = .ok s') :
    (s'.task u).tStopper = (s.task u).tStopper := by
  rcases primUnOverride_ok.mp he with ⟨-, rfl⟩ | ⟨t, c, -, -, he⟩
  · rfl
  · rw [(callHook_assigned he).2.1.tStopper]
    exact congrFun (congrArg Pointers.tStopper (unOverride_pointers s p t)) u

theorem primitiveOverrideTask_tStopper {p : PrimId k} {task : Option (TaskId k)} (u : TaskId k)
    (he : primitiveOverrideTask env p task s = .ok s') :
    (s'.task u).tStopper = (s.task u).tStopper := by
  obtain ⟨t, c, s₁, -, -, -, h₁, he⟩ := primitiveOverrideTask_ok.mp he
  rw [(callHook_assigned he).2.1.tStopper, ← primUnOverride_tStopper u h₁]
  exact congrFun (congrArg Pointers.tStopper (overrideTask_pointers s₁ p t)) u

theorem primitiveUnoverrideTask_ok {p : PrimId k} :
    primitiveUnoverrideTask env (primAddr p) s = .ok s' ↔ primUnOverride env p s = .ok s' := by
  simp [primitiveUnoverrideTask, bind_eq_ok, deref_eq_ok]

/-- `process_unregister_prim`, after the walk and the un-override. -/
def forgetPrim (p : PrimId k) (c : ProcessId k) (s : State k) : State k :=
  (s.modLinks fun l => l.removeUnsafe (.pSiblings p)).modProcess c fun x =>
    { x with pNbPrimitives := x.pNbPrimitives - 1 }

theorem processUnregisterPrim_ok {p : PrimId k} {r : BitVec 8}
    (he : processUnregisterPrim env p s = .ok (r, s')) : ∃ s₁ s₂ c,
      forEachNode (.pStopped p)
        (fun n s => primitiveResumeTask env (containerOf n tStoppedOffset) s) s = .ok s₁ ∧
      primUnOverride env p s₁ = .ok s₂ ∧ (s.prim p).pProcess = some c ∧
      r = (if (s₂.prim p).pNbOwningTasks = 0 then 0 else 1) ∧ s' = forgetPrim p c s₂ := by
  simp only [processUnregisterPrim, bind_eq_ok, nsCheck_eq_ok, exists_const] at he
  obtain ⟨-, s₁, h₁, he⟩ := he
  split at he
  · rename_i ho
    simp only [bind_eq_ok, deref_eq_ok, Except.ok.injEq, Prod.mk.injEq] at he
    obtain ⟨s₂, rfl, c, hc, hr, rfl⟩ := he
    exact ⟨s₁, s₁, c, h₁, primUnOverride_ok.mpr (.inl ⟨ho, rfl⟩), hc, hr.symm, rfl⟩
  · simp only [bind_eq_ok, deref_eq_ok, Except.ok.injEq, Prod.mk.injEq] at he
    obtain ⟨s₂, h₂, c, hc, hr, rfl⟩ := he
    exact ⟨s₁, s₂, c, h₁, primitiveUnoverrideTask_ok.mp h₂, hc, hr.symm, rfl⟩

/-- The memory after a taking. -/
def takeOwnership (p : PrimId k) (t : TaskId k) (s : State k) : State k :=
  (s.modPrim p fun x => { x with pNbOwningTasks := x.pNbOwningTasks + 1 }).modTask t fun x =>
    { x with tNbOwnedPrimitives := x.tNbOwnedPrimitives + 1 }

theorem primitiveTakeOwnership_ok {p : PrimId k} {task : Option (TaskId k)} :
    primitiveTakeOwnership env p task s = .ok s' ↔ ∃ t, task = some t ∧
      (env.debug = true → s.Related p t ∧ (s.task t).tStatus = schedStatusActive) ∧
      s' = takeOwnership p t s := by
  simp only [primitiveTakeOwnership, bind_eq_ok, nsCheck_eq_ok, deref_eq_ok, exists_const,
    Except.ok.injEq]
  constructor
  · rintro ⟨-, t, ht, h₁, h₂, h₃, h₄, he⟩
    exact ⟨t, ht, fun hd => ⟨⟨h₁ hd, h₂ hd, h₃ hd⟩, h₄ hd⟩, he.symm⟩
  · rintro ⟨t, ht, h, he⟩
    exact ⟨fun _ => by simp [ht], t, ht, fun hd => (h hd).1.member, fun hd => (h hd).1.same,
      fun hd => (h hd).1.sched, fun hd => (h hd).2, he.symm⟩

/-- The memory after a release that finds the counter of the primitive not null, up to the
counter of the task. -/
def releasePrim (p : PrimId k) (s : State k) : State k :=
  s.modPrim p fun x => { x with pNbOwningTasks := x.pNbOwningTasks - 1 }

/-- The memory after a successful release. -/
def releaseOwnership (p : PrimId k) (t : TaskId k) (s : State k) : State k :=
  (releasePrim p s).modTask t fun x => { x with tNbOwnedPrimitives := x.tNbOwnedPrimitives - 1 }

/-- A release fails when one of the two counters is null; the other one may be decreased. -/
theorem primitiveReleaseOwnership_ok {p : PrimId k} {task : Option (TaskId k)} {r : BitVec 8} :
    primitiveReleaseOwnership env p task s = .ok (r, s') ↔ ∃ t, task = some t ∧
      (env.debug = true → s.Related p t ∧ (s.task t).tStatus = schedStatusActive) ∧
      (((s.prim p).pNbOwningTasks = 0 ∧ r = 1 ∧ s' = s) ∨
        ((s.prim p).pNbOwningTasks ≠ 0 ∧ (s.task t).tNbOwnedPrimitives = 0 ∧ r = 1 ∧
          s' = releasePrim p s) ∨
        ((s.prim p).pNbOwningTasks ≠ 0 ∧ (s.task t).tNbOwnedPrimitives ≠ 0 ∧ r = 0 ∧
          s' = releaseOwnership p t s)) := by
  simp only [primitiveReleaseOwnership, bind_eq_ok, nsCheck_eq_ok, deref_eq_ok, exists_const]
  have hbody : ∀ t, (if (s.prim p).pNbOwningTasks = 0 then (.ok (1, s) : Except Fault _)
      else if ((releasePrim p s).task t).tNbOwnedPrimitives = 0 then .ok (1, releasePrim p s)
        else .ok (0, releaseOwnership p t s)) = .ok (r, s') ↔
      (((s.prim p).pNbOwningTasks = 0 ∧ r = 1 ∧ s' = s) ∨
        ((s.prim p).pNbOwningTasks ≠ 0 ∧ (s.task t).tNbOwnedPrimitives = 0 ∧ r = 1 ∧
          s' = releasePrim p s) ∨
        ((s.prim p).pNbOwningTasks ≠ 0 ∧ (s.task t).tNbOwnedPrimitives ≠ 0 ∧ r = 0 ∧
          s' = releaseOwnership p t s)) := by
    intro t
    have ht : (releasePrim p s).task t = s.task t := rfl
    rw [ht]
    by_cases hp : (s.prim p).pNbOwningTasks = 0
    · rw [if_pos hp, Except.ok.injEq, Prod.mk.injEq]
      constructor
      · rintro ⟨rfl, rfl⟩
        exact .inl ⟨hp, rfl, rfl⟩
      · rintro (⟨-, rfl, rfl⟩ | ⟨h, -⟩ | ⟨h, -⟩)
        · exact ⟨rfl, rfl⟩
        · exact absurd hp h
        · exact absurd hp h
    · rw [if_neg hp]
      by_cases h0 : (s.task t).tNbOwnedPrimitives = 0
      · rw [if_pos h0, Except.ok.injEq, Prod.mk.injEq]
        constructor
        · rintro ⟨rfl, rfl⟩
          exact .inr (.inl ⟨hp, h0, rfl, rfl⟩)
        · rintro (⟨h, -⟩ | ⟨-, -, rfl, rfl⟩ | ⟨-, h, -⟩)
          · exact absurd h hp
          · exact ⟨rfl, rfl⟩
          · exact absurd h0 h
      · rw [if_neg h0, Except.ok.injEq, Prod.mk.injEq]
        constructor
        · rintro ⟨rfl, rfl⟩
          exact .inr (.inr ⟨hp, h0, rfl, rfl⟩)
        · rintro (⟨h, -⟩ | ⟨-, h, -⟩ | ⟨-, -, rfl, rfl⟩)
          · exact absurd h hp
          · exact absurd h h0
          · exact ⟨rfl, rfl⟩
  constructor
  · rintro ⟨-, t, ht, h₁, h₂, h₃, h₄, he⟩
    exact ⟨t, ht, fun hd => ⟨⟨h₁ hd, h₂ hd, h₃ hd⟩, h₄ hd⟩, (hbody t).mp he⟩
  · rintro ⟨t, ht, h, he⟩
    exact ⟨fun _ => by simp [ht], t, ht, fun hd => (h hd).1.member, fun hd => (h hd).1.same,
      fun hd => (h hd).1.sched, fun hd => (h hd).2, (hbody t).mpr he⟩

/-! ### Commits and processes -/

theorem schedOpenCommit_ok : schedOpenCommit env s = .ok s' ↔
    (env.debug = true → s.sched.sCommitOpened = false) ∧
      s' = s.modSched fun x =>
        { x with sCommitOpened := true, sCommitIndex := x.sCommitIndex + 1 } := by
  simp only [schedOpenCommit, bind_eq_ok, nsCheck_eq_ok, exists_const, Except.ok.injEq,
    eq_comm (a := s')]

theorem schedCloseCommit_ok : schedCloseCommit env s = .ok s' ↔
    (env.debug = true → s.sched.sCommitOpened = true) ∧
      ∃ s₁, callHook env true .schedule (s.modSched fun x => { x with sCommitOpened := false }) =
          .ok s₁ ∧ callHook env true .assignAll s₁ = .ok s' := by
  simp only [schedCloseCommit, bind_eq_ok, nsCheck_eq_ok, exists_const]

/-- The end of `sched_pause_process` and of `sched_resume_process`. -/
def setProcessStatus (c : ProcessId k) (status : BitVec 32) (s : State k) : State k :=
  s.modProcess c fun x => { x with pStatus := status }

theorem schedPauseProcess_ok {c : ProcessId k} : schedPauseProcess env c s = .ok s' ↔
    (env.debug = true → (s.process c).pSched = true ∧ (s.process c).pStatus = schedStatusActive ∧
      s.sched.sCommitOpened = true) ∧
      ∃ s₁, forEachNode (.pTasks c) (pauseTask env c) s = .ok s₁ ∧
        s' = setProcessStatus c schedStatusStopped s₁ := by
  simp only [schedPauseProcess, abortIfCommitClosed, bind_eq_ok, nsCheck_eq_ok, exists_const,
    Except.ok.injEq, eq_comm (a := s')]
  constructor
  · rintro ⟨h₁, h₂, h₃, he⟩
    exact ⟨fun hd => ⟨h₁ hd, h₂ hd, h₃ hd⟩, he⟩
  · rintro ⟨h, he⟩
    exact ⟨fun hd => (h hd).1, fun hd => (h hd).2.1, fun hd => (h hd).2.2, he⟩

theorem schedResumeProcess_ok {c : ProcessId k} : schedResumeProcess env c s = .ok s' ↔
    (env.debug = true → (s.process c).pSched = true ∧ (s.process c).pStatus = schedStatusStopped ∧
      s.sched.sCommitOpened = true) ∧
      ∃ s₁, forEachNode (.pStopped (pPrim c))
          (fun n s => primitiveResumeTask env (containerOf n tSiblingsOffset) s) s = .ok s₁ ∧
        s' = setProcessStatus c schedStatusActive s₁ := by
  simp only [schedResumeProcess, abortIfCommitClosed, bind_eq_ok, nsCheck_eq_ok, exists_const,
    Except.ok.injEq, eq_comm (a := s')]
  constructor
  · rintro ⟨h₁, h₂, h₃, he⟩
    exact ⟨fun hd => ⟨h₁ hd, h₂ hd, h₃ hd⟩, he⟩
  · rintro ⟨h, he⟩
    exact ⟨fun hd => (h hd).1, fun hd => (h hd).2.1, fun hd => (h hd).2.2, he⟩

/-! ### Locks -/

variable {p : PrimId k} {h : ThreadId k} {r : BitVec 8}

/-- Waking the head of a stopped list never returns: the list has to be empty. -/
theorem resumeFirst_ok : resumeFirst env p s = .ok s' ↔
    s.links.isEmpty (.pStopped p) = true ∧ s' = s := by
  unfold resumeFirst
  split
  · rename_i he
    simp [he, eq_comm]
  · rename_i he
    simp [he, primitiveResumeTask, deref, bind, Except.bind]

/-- The taking of a free mutex. -/
def mutexAcquire (env : Env k) (mutex : PrimId k) (thread : ThreadId k) (s : State k) :
    Except Fault (State k) := do
  let s ← primitiveTakeOwnership env mutex (s.thread thread).tTask s
  primitiveOverrideTask env mutex (s.thread thread).tTask s

theorem mutexAcquire_ok : mutexAcquire env p h s = .ok s' ↔ ∃ t, (s.thread h).tTask = some t ∧
    (env.debug = true → s.Related p t ∧ (s.task t).tStatus = schedStatusActive) ∧
    primitiveOverrideTask env p (some t) (takeOwnership p t s) = .ok s' := by
  simp only [mutexAcquire, bind_eq_ok, primitiveTakeOwnership_ok]
  constructor
  · rintro ⟨s₁, ⟨t, ht, hchecks, rfl⟩, he⟩
    exact ⟨t, ht, hchecks, ht ▸ he⟩
  · rintro ⟨t, ht, hchecks, he⟩
    exact ⟨_, ⟨t, ht, hchecks, rfl⟩, ht.symm ▸ he⟩

theorem schedMutexLock_ok : schedMutexLock env p h s = .ok s' ↔
    ((s.prim p).pNbOwningTasks ≠ 0 ∧ primitiveStopThread env p h s = .ok s') ∨
    ((s.prim p).pNbOwningTasks = 0 ∧ mutexAcquire env p h s = .ok s') := by
  have e : schedMutexLock env p h s = if (s.prim p).pNbOwningTasks ≠ 0 then
      primitiveStopThread env p h s else mutexAcquire env p h s := rfl
  rw [e]
  by_cases hn : (s.prim p).pNbOwningTasks = 0 <;>
    simp only [hn, ne_eq, not_true_eq_false, not_false_eq_true, if_true, if_false, true_and,
      false_and, or_false, false_or]

theorem schedMutexLockNb_ok : schedMutexLockNb env p h s = .ok (r, s') ↔
    ((s.prim p).pNbOwningTasks ≠ 0 ∧ r = 0 ∧ s' = s) ∨
    ((s.prim p).pNbOwningTasks = 0 ∧ r = 1 ∧ mutexAcquire env p h s = .ok s') := by
  have e : schedMutexLockNb env p h s = if (s.prim p).pNbOwningTasks ≠ 0 then .ok (0, s) else
      mutexAcquire env p h s >>= fun s₁ => .ok (1, s₁) := by
    simp only [schedMutexLockNb, mutexAcquire, bind_assoc]
  rw [e]
  by_cases hn : (s.prim p).pNbOwningTasks = 0 <;>
    simp only [hn, ne_eq, not_true_eq_false, not_false_eq_true, if_true, if_false, true_and,
      false_and, or_false, false_or, ok_pair_eq, bind_ok_pair_eq]

theorem schedMutexUnlock_ok : schedMutexUnlock env p h s = .ok (r, s') ↔
    ((s.prim p).pOverridden = none ∧ r = 1 ∧ s' = s) ∨
    ((s.prim p).pOverridden ≠ none ∧ (s.thread h).tTask ≠ (s.prim p).pOverridden ∧ r = 2 ∧
      s' = s) ∨
    ∃ t e s₁, (s.prim p).pOverridden = some t ∧ (s.thread h).tTask = some t ∧
      primitiveReleaseOwnership env p (some t) s = .ok (e, s₁) ∧
      ((e ≠ 0 ∧ r = 3 ∧ s' = s₁) ∨
        (e = 0 ∧ r = 0 ∧ ∃ s₂, primUnOverride env p s₁ = .ok s₂ ∧
          resumeFirst env p s₂ = .ok s')) := by
  unfold schedMutexUnlock
  dsimp only
  cases ho : (s.prim p).pOverridden with
  | none =>
      simp only [if_true, ok_pair_eq, true_and, ne_eq, not_true_eq_false, false_and,
        reduceCtorEq, exists_false, or_false]
  | some t =>
      rw [if_neg (Option.some_ne_none t)]
      by_cases ht : (s.thread h).tTask = some t
      · rw [if_neg (not_not_intro ht), ht]
        simp only [bind_eq_ok, Prod.exists]
        constructor
        · rintro ⟨e, s₁, h₁, he⟩
          refine .inr (.inr ⟨t, e, s₁, rfl, rfl, h₁, ?_⟩)
          split at he
          · rename_i hne
            exact .inl ⟨hne, ok_pair_eq.mp he⟩
          · rename_i hne
            simp only [bind_eq_ok, primitiveUnoverrideTask_ok, ok_pair_eq] at he
            obtain ⟨s₂, h₂, s₃, h₃, hr, rfl⟩ := he
            exact .inr ⟨not_not.mp hne, hr, s₂, h₂, h₃⟩
        · rintro (⟨h, -⟩ | ⟨-, h, -⟩ | ⟨u, e, s₁, hu, -, h₁, he⟩)
          · cases h
          · exact absurd rfl h
          · obtain rfl := Option.some.inj hu
            refine ⟨e, s₁, h₁, ?_⟩
            rcases he with ⟨hne, hr, rfl⟩ | ⟨rfl, hr, s₂, h₂, h₃⟩
            · rw [if_pos hne]
              exact ok_pair_eq.mpr ⟨hr, rfl⟩
            · rw [if_neg (not_not_intro rfl)]
              simp only [bind_eq_ok, primitiveUnoverrideTask_ok, ok_pair_eq]
              exact ⟨s₂, h₂, s', h₃, hr, rfl⟩
      · rw [if_pos ht, ok_pair_eq]
        constructor
        · exact fun he => .inr (.inl ⟨Option.some_ne_none t, ht, he⟩)
        · rintro (⟨h, -⟩ | ⟨-, -, he⟩ | ⟨u, e, s₁, hu, hu', -⟩)
          · cases h
          · exact he
          · exact absurd (hu'.trans hu.symm) ht

theorem schedSemTake_ok : schedSemTake env p h s = .ok s' ↔
    ((s.prim p).pNbOwningTasks = s.sNbOwners p ∧ primitiveStopThread env p h s = .ok s') ∨
    ((s.prim p).pNbOwningTasks ≠ s.sNbOwners p ∧
      primitiveTakeOwnership env p (s.thread h).tTask s = .ok s') := by
  unfold schedSemTake
  by_cases hn : (s.prim p).pNbOwningTasks = s.sNbOwners p <;>
    simp only [hn, ne_eq, not_true_eq_false, not_false_eq_true, if_true, if_false, true_and,
      false_and, or_false, false_or]

theorem schedSemTakeNb_ok : schedSemTakeNb env p h s = .ok (r, s') ↔
    ((s.prim p).pNbOwningTasks = s.sNbOwners p ∧ r = 0 ∧ s' = s) ∨
    ((s.prim p).pNbOwningTasks ≠ s.sNbOwners p ∧ r = 1 ∧
      primitiveTakeOwnership env p (s.thread h).tTask s = .ok s') := by
  unfold schedSemTakeNb
  by_cases hn : (s.prim p).pNbOwningTasks = s.sNbOwners p <;>
    simp only [hn, ne_eq, not_true_eq_false, not_false_eq_true, if_true, if_false, true_and,
      false_and, or_false, false_or, ok_pair_eq, bind_ok_pair_eq]

theorem schedSemRelease_ok : schedSemRelease env p h s = .ok (r, s') ↔
    ∃ e s₁, primitiveReleaseOwnership env p (s.thread h).tTask s = .ok (e, s₁) ∧
      ((e ≠ 0 ∧ r = 1 ∧ s' = s₁) ∨ (e = 0 ∧ r = 0 ∧ resumeFirst env p s₁ = .ok s')) := by
  unfold schedSemRelease
  simp only [bind_eq_ok, Prod.exists]
  refine exists_congr fun e => exists_congr fun s₁ => and_congr_right fun _ => ?_
  by_cases he : e = 0
  · rw [if_neg (not_not_intro he)]
    simp only [bind_eq_ok, ok_pair_eq]
    constructor
    · rintro ⟨s₂, h₂, hr, rfl⟩
      exact .inr ⟨he, hr, h₂⟩
    · rintro (⟨h, -⟩ | ⟨-, hr, h₂⟩)
      · exact absurd he h
      · exact ⟨s', h₂, hr, rfl⟩
  · rw [if_pos he, ok_pair_eq]
    exact ⟨fun h => .inl ⟨he, h⟩, fun h => h.elim And.right fun h => absurd h.1 he⟩

end KernelTk.Sched
