import KernelTk.Sched.Functions

/-! # Mutexes and semaphores

The functions of `mutex.c` and `sem.c`.  A `struct sched_mutex` is its primitive; a
`struct sched_sem` is its primitive and the bound `s_nb_owners` (`State.sNbOwners`).  The task
that locks, takes or releases is the one the thread executes (`thread->t_task`).

* **Mutexes.** A mutex is held while the counter of its primitive is not null; the holder is the task that
  the primitive overrides.  `schedMutexLock` stops the task of the thread when the mutex is held, and
  `schedMutexLockNb` returns without it.
* **Semaphores.** A semaphore is free while the counter of its primitive is below the bound.  Nothing
  records which tasks have taken it, but their own counters.
* **Wake-ups.** `sched_mutex_unlock` and `sched_sem_release` pass to `primitive_resume_task` the address
  that `container_of` computes from the *head* of the stopped list, not from its first node
  (`resumeFirst`): there is no task at that address.  `sched_sem_release` also returns without looking at
  its list when the release fails.

The constructors register the primitive in the process that they are given. -/

namespace KernelTk.Sched

variable {k : Machine}

/-! ### Mutexes -/

/-- `sched_mutex_ctor`. -/
def schedMutexCtor (mutex : PrimId k) (prc : ProcessId k) (s : State k) : State k :=
  processRegisterPrim prc mutex s

/-- `sched_mutex_lock`. -/
def schedMutexLock (env : Env k) (mutex : PrimId k) (thread : ThreadId k) (s : State k) :
    Except Fault (State k) :=
  if (s.prim mutex).pNbOwningTasks ≠ 0 then primitiveStopThread env mutex thread s
  else do
    let s ← primitiveTakeOwnership env mutex (s.thread thread).tTask s
    primitiveOverrideTask env mutex (s.thread thread).tTask s

/-- `sched_mutex_lock_nb`. -/
def schedMutexLockNb (env : Env k) (mutex : PrimId k) (thread : ThreadId k) (s : State k) :
    Except Fault (BitVec 8 × State k) :=
  if (s.prim mutex).pNbOwningTasks ≠ 0 then .ok (0, s)
  else do
    let s ← primitiveTakeOwnership env mutex (s.thread thread).tTask s
    let s ← primitiveOverrideTask env mutex (s.thread thread).tTask s
    .ok (1, s)

/-- `sched_mutex_is_locked`. -/
def schedMutexIsLocked (mutex : PrimId k) (s : State k) : BitVec 8 :=
  if (s.prim mutex).pNbOwningTasks ≠ 0 then 1 else 0

/-- `primitive_resume_task(container_of(&prim->p_stopped, struct stask, t_stopped))`, if the
stopped list is not empty. -/
def resumeFirst (env : Env k) (prim : PrimId k) (s : State k) : Except Fault (State k) :=
  if s.links.isEmpty (.pStopped prim) then .ok s
  else primitiveResumeTask env (containerOf (.pStopped prim) tStoppedOffset) s

/-- `sched_mutex_unlock`. -/
def schedMutexUnlock (env : Env k) (mutex : PrimId k) (thread : ThreadId k) (s : State k) :
    Except Fault (BitVec 8 × State k) :=
  let task := (s.thread thread).tTask
  let owner := (s.prim mutex).pOverridden
  if owner = none then .ok (1, s)
  else if task ≠ owner then .ok (2, s)
  else do
    let (error, s) ← primitiveReleaseOwnership env mutex task s
    if error ≠ 0 then .ok (3, s)
    else
      let s ← primitiveUnoverrideTask env (primAddr mutex) s
      let s ← resumeFirst env mutex s
      .ok (0, s)

/-! ### Semaphores -/

/-- `sched_sem_ctor`. -/
def schedSemCtor (sem : PrimId k) (nbTakings : Usize k) (prc : ProcessId k) (s : State k) :
    State k :=
  processRegisterPrim prc sem { s with sNbOwners := Function.update s.sNbOwners sem nbTakings }

/-- `sched_sem_is_locked`. -/
def schedSemIsLocked (sem : PrimId k) (s : State k) : BitVec 8 :=
  if s.sNbOwners sem = (s.prim sem).pNbOwningTasks then 1 else 0

/-- `sched_sem_take`. -/
def schedSemTake (env : Env k) (sem : PrimId k) (thread : ThreadId k) (s : State k) :
    Except Fault (State k) :=
  if (s.prim sem).pNbOwningTasks = s.sNbOwners sem then primitiveStopThread env sem thread s
  else primitiveTakeOwnership env sem (s.thread thread).tTask s

/-- `sched_sem_take_nb`. -/
def schedSemTakeNb (env : Env k) (sem : PrimId k) (thread : ThreadId k) (s : State k) :
    Except Fault (BitVec 8 × State k) :=
  if (s.prim sem).pNbOwningTasks = s.sNbOwners sem then .ok (0, s)
  else do
    let s ← primitiveTakeOwnership env sem (s.thread thread).tTask s
    .ok (1, s)

/-- `sched_sem_release`. -/
def schedSemRelease (env : Env k) (sem : PrimId k) (thread : ThreadId k) (s : State k) :
    Except Fault (BitVec 8 × State k) := do
  let (error, s) ← primitiveReleaseOwnership env sem (s.thread thread).tTask s
  if error ≠ 0 then .ok (1, s)
  else
    let s ← resumeFirst env sem s
    .ok (0, s)

end KernelTk.Sched
