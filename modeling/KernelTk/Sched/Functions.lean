import KernelTk.Sched.Propagate

/-! # The functions of `sched.c`

Every function takes the memory and returns the next one, or a `Fault` :

* `check` : an `ns_check` failed, in a debug build (`Env.debug`); otherwise `ns_check` does
  nothing;
* `pointer` : an access through a pointer that designates no object of its type, because it is
  null or because `container_of` was applied to another field than the one of the node.  It is
  undefined behaviour, whatever lies at the address;
* `endless` : a list walk has visited more nodes than there are in memory.

The checks come first, as in the source; the assignments between the last check and the call to
the policy are a function of their own (`stopTask`, `resumeTask`, ...) where a proof needs them
as one step.

**The policy.**  A call to an operation of the policy is recorded in `State.hooks`; the policy
may then call `thread_assign_task` any number of times, as `Env.policy` says for the calls
received so far. -/

namespace KernelTk.Sched

open CircularList (walk)

variable {k : Machine}

/-- The build and the scheduling policy. -/
structure Env (k : Machine) where
  debug : Bool
  policy : List (HookCall k) → List (ThreadId k × Option (TaskId k))

/-- How a call goes wrong. -/
inductive Fault where
  | check
  | pointer
  | endless
deriving DecidableEq

/-- `ns_check`. -/
def nsCheck (env : Env k) (c : Prop) [Decidable c] : Except Fault Unit :=
  if env.debug = true ∧ ¬c then .error .check else .ok ()

/-- Dereference a pointer. -/
def deref {α : Type} : Option α → Except Fault α
  | some a => .ok a
  | none => .error .pointer

/-- Dereference a pointer to the scheduler. -/
def derefSched : Bool → Except Fault Unit
  | true => .ok ()
  | false => .error .pointer

theorem bind_eq_ok {ε α β : Type} {x : Except ε α} {f : α → Except ε β} {b : β} :
    x >>= f = .ok b ↔ ∃ a, x = .ok a ∧ f a = .ok b := by
  cases x with
  | error e => simp [bind, Except.bind]
  | ok a => simp [bind, Except.bind]

theorem nsCheck_eq_ok {env : Env k} {c : Prop} [Decidable c] {u : Unit} :
    nsCheck env c = .ok u ↔ (env.debug = true → c) := by
  unfold nsCheck
  split
  · rename_i h
    simp [h.1, h.2]
  · rename_i h
    simpa [not_and] using h

theorem deref_eq_ok {α : Type} {o : Option α} {a : α} : deref o = .ok a ↔ o = some a := by
  cases o <;> simp [deref]

theorem derefSched_eq_ok {b : Bool} {u : Unit} : derefSched b = .ok u ↔ b = true := by
  cases b <;> simp [derefSched]

namespace State

variable (s : State k)

/-- `prc->p_sched`, null for a null process. -/
def schedOf : Option (ProcessId k) → Bool
  | some c => (s.process c).pSched
  | none => false

/-! ### Active checks -/

/-- `task_active`. -/
def taskActive (t : TaskId k) : Bool := (s.task t).tCommit == s.sched.sCommitIndex

/-- `thread_active`. -/
def threadActive (h : ThreadId k) : Bool :=
  (s.thread h).tCommit == s.sched.sCommitIndex && (s.thread h).tTask.isSome

end State

/-- `ns_check(task_active(task) != 0)` : the check reads `p_sched` through `t_process`. -/
def nsCheckActive (env : Env k) (task : TaskId k) (s : State k) : Except Fault Unit := do
  if env.debug then derefSched (s.schedOf (s.task task).tProcess)
  nsCheck env (s.taskActive task = true)

theorem nsCheckActive_eq_ok {env : Env k} {s : State k} {task : TaskId k} {u : Unit} :
    nsCheckActive env task s = .ok u ↔ (env.debug = true →
      s.schedOf (s.task task).tProcess = true ∧ s.taskActive task = true) := by
  unfold nsCheckActive
  cases hdebug : env.debug with
  | false => simp [nsCheck_eq_ok, hdebug]
  | true => simp [bind_eq_ok, derefSched_eq_ok, nsCheck_eq_ok, hdebug]

/-! ### Thread functions -/

/-- `thread_unregister_task`. -/
def threadUnregisterTask (task : TaskId k) (s : State k) : State k :=
  match (s.task task).tThread with
  | none => s
  | some proc =>
      let s := s.modThread proc fun x => { x with tHistorySize := x.tHistorySize - 1 }
      let s := s.modTask task fun x => { x with tThread := none }
      let s := s.modLinks fun l => l.remove (.tHistory task)
      if (s.thread proc).tTask = some task then
        s.modThread proc fun x => { x with tTask := none, tCommit := -1 }
      else s

/-- The transfer of a task to the history of a thread. -/
def threadTransferTask (thread : ThreadId k) (task : TaskId k) (s : State k) : State k :=
  let s := threadUnregisterTask task s
  let s := s.modTask task fun x => { x with tThread := some thread }
  let s := s.modThread thread fun x => { x with tHistorySize := x.tHistorySize + 1 }
  s.modLinks fun l => l.insertAfter (.threadHistory thread) (.tHistory task)

/-- `thread_assign_task`. -/
def threadAssignTask (env : Env k) (thread : ThreadId k) (task : Option (TaskId k))
    (s : State k) : Except Fault (State k) :=
  match task with
  | none => .ok (s.modThread thread fun x => { x with tTask := none, tCommit := -1 })
  | some t => do
      let sched := (s.thread thread).tSched
      nsCheck env (sched = true)
      nsCheck env ((s.task t).tProcess ≠ none)
      nsCheck env (s.schedOf (s.task t).tProcess = sched)
      let s := if (s.task t).tThread = some thread then s else threadTransferTask thread t s
      let s := s.modThread thread fun x => { x with tTask := some t }
      derefSched sched
      let s := s.modTask t fun x => { x with tCommit := s.sched.sCommitIndex }
      .ok (s.modThread thread fun x => { x with tCommit := s.sched.sCommitIndex })

/-- A call to an operation of the policy, through the pointer `sched` to the scheduler. -/
def callHook (env : Env k) (sched : Bool) (call : HookCall k) (s : State k) :
    Except Fault (State k) := do
  derefSched sched
  let s := { s with hooks := call :: s.hooks }
  (env.policy s.hooks).foldlM (fun s a => threadAssignTask env a.1 a.2 s) s

/-! ### Primitive functions -/

/-- `primitive_take_ownership`. -/
def primitiveTakeOwnership (env : Env k) (prim : PrimId k) (task : Option (TaskId k))
    (s : State k) : Except Fault (State k) := do
  nsCheck env (task ≠ none)
  let t ← deref task
  nsCheck env ((s.task t).tProcess ≠ none)
  nsCheck env ((s.prim prim).pProcess = (s.task t).tProcess)
  nsCheck env (s.schedOf (s.task t).tProcess = true)
  nsCheck env ((s.task t).tStatus = schedStatusActive)
  let s := s.modPrim prim fun x => { x with pNbOwningTasks := x.pNbOwningTasks + 1 }
  .ok (s.modTask t fun x => { x with tNbOwnedPrimitives := x.tNbOwnedPrimitives + 1 })

/-- `primitive_release_ownership`. -/
def primitiveReleaseOwnership (env : Env k) (prim : PrimId k) (task : Option (TaskId k))
    (s : State k) : Except Fault (BitVec 8 × State k) := do
  nsCheck env (task ≠ none)
  let t ← deref task
  nsCheck env ((s.task t).tProcess ≠ none)
  nsCheck env ((s.prim prim).pProcess = (s.task t).tProcess)
  nsCheck env (s.schedOf (s.task t).tProcess = true)
  nsCheck env ((s.task t).tStatus = schedStatusActive)
  if (s.prim prim).pNbOwningTasks = 0 then .ok (1, s)
  else
    let s := s.modPrim prim fun x => { x with pNbOwningTasks := x.pNbOwningTasks - 1 }
    -- the counter of the primitive is already decreased when this one is found null
    if (s.task t).tNbOwnedPrimitives = 0 then .ok (1, s)
    else
      .ok (0, s.modTask t fun x => { x with tNbOwnedPrimitives := x.tNbOwnedPrimitives - 1 })

/-- The assignments of `_prim_un_override`. -/
def unOverride (prim : PrimId k) (task : TaskId k) (s : State k) : State k :=
  let s := s.modPrim prim fun x => { x with pOverridden := none }
  let s := s.modLinks fun l => l.remove (.pSiblings prim)
  let s := s.modTask task fun x => { x with tNbOverrides := x.tNbOverrides - 1 }
  taskPropagateUpdate task s

/-- `_prim_un_override`. -/
def primUnOverride (env : Env k) (prim : PrimId k) (s : State k) : Except Fault (State k) :=
  match (s.prim prim).pOverridden with
  | none => .ok s
  | some task => do
      let prc ← deref (s.prim prim).pProcess
      let sched := (s.process prc).pSched
      callHook env sched (.overrideReleased prim task) (unOverride prim task s)

/-- The assignments of `primitive_override_task`. -/
def overrideTask (prim : PrimId k) (task : TaskId k) (s : State k) : State k :=
  let s := s.modPrim prim fun x => { x with pOverridden := some task }
  let s := s.modLinks fun l => l.insertAfter (.tOverriders task) (.pSiblings prim)
  let s := s.modTask task fun x => { x with tNbOverrides := x.tNbOverrides + 1 }
  taskPropagateUpdate task s

/-- `primitive_override_task`. -/
def primitiveOverrideTask (env : Env k) (prim : PrimId k) (task : Option (TaskId k))
    (s : State k) : Except Fault (State k) := do
  nsCheck env (task ≠ none)
  let t ← deref task
  nsCheck env ((s.task t).tProcess ≠ none)
  nsCheck env ((s.prim prim).pProcess = (s.task t).tProcess)
  nsCheck env (s.schedOf (s.task t).tProcess = true)
  nsCheck env ((s.task t).tStatus = schedStatusActive)
  let prc ← deref (s.prim prim).pProcess
  let sched := (s.process prc).pSched
  let s ← primUnOverride env prim s
  callHook env sched (.overrideTaken prim t) (overrideTask prim t s)

/-- `primitive_unoverride_task`. -/
def primitiveUnoverrideTask (env : Env k) (prim : Addr k) (s : State k) :
    Except Fault (State k) := do
  let prim ← deref prim.prim?
  primUnOverride env prim s

/-- The assignments of `primitive_resume_task`. -/
def resumeTask (prim : PrimId k) (task : TaskId k) (s : State k) : State k :=
  let s := s.modLinks fun l => l.insertAfter .sActives (.tSchedList task)
  let s := s.modTask task fun x => { x with tStopper := none }
  let s := s.modLinks fun l => l.remove (.tStopped task)
  let s := s.modPrim prim fun x => { x with nbStoppedTasks := x.nbStoppedTasks - 1 }
  let s := primitivePropagateUpdate prim s
  s.modTask task fun x => { x with tStatus := schedStatusActive }

/-- `primitive_resume_task`. -/
def primitiveResumeTask (env : Env k) (task : Addr k) (s : State k) :
    Except Fault (State k) := do
  let t ← deref task.task?
  nsCheck env ((s.task t).tProcess ≠ none)
  let prc ← deref (s.task t).tProcess
  let sched := (s.process prc).pSched
  nsCheck env (sched = true)
  nsCheck env ((s.task t).tStopper ≠ none)
  let prim ← deref (s.task t).tStopper
  nsCheck env ((s.prim prim).pProcess = (s.task t).tProcess)
  nsCheck env ((s.task t).tStatus = schedStatusStopped)
  callHook env sched (.resumed t) (resumeTask prim t s)

/-- The assignments of `primitive_stop_task`. -/
def stopTask (prim : PrimId k) (task : TaskId k) (s : State k) : State k :=
  let s := s.modTask task fun x => { x with tStopper := some prim }
  let s := s.modLinks fun l => l.insertBefore (.pStopped prim) (.tStopped task)
  let s := s.modPrim prim fun x => { x with nbStoppedTasks := x.nbStoppedTasks + 1 }
  let s := primitivePropagateUpdate prim s
  let s := s.modLinks fun l => l.remove (.tSchedList task)
  s.modTask task fun x => { x with tStatus := schedStatusStopped }

/-- `primitive_stop_task`. -/
def primitiveStopTask (env : Env k) (prim : PrimId k) (task : Option (TaskId k))
    (s : State k) : Except Fault (State k) := do
  nsCheck env (task ≠ none)
  let t ← deref task
  nsCheck env ((s.task t).tProcess ≠ none)
  nsCheck env ((s.prim prim).pProcess = (s.task t).tProcess)
  nsCheck env (s.schedOf (s.task t).tProcess = true)
  nsCheck env (s.taskActive t = true)
  nsCheck env ((s.task t).tStopper = none)
  let prc ← deref (s.task t).tProcess
  let sched := (s.process prc).pSched
  callHook env sched (.stopped t) (stopTask prim t s)

/-- `primitive_stop_thread`. -/
def primitiveStopThread (env : Env k) (prim : PrimId k) (thread : ThreadId k) (s : State k) :
    Except Fault (State k) := do
  nsCheck env ((s.prim prim).pProcess ≠ none)
  nsCheck env ((s.thread thread).tSched = true)
  nsCheck env (s.schedOf (s.prim prim).pProcess = (s.thread thread).tSched)
  let sched := (s.thread thread).tSched
  let task := (s.thread thread).tTask
  let s ← primitiveStopTask env prim task s
  callHook env sched (.assignOne thread) s

/-! ### Process functions -/

/-- `dlist_head_for_each_object`, with the next node read before the body runs. -/
def forEachNode (head : Node k) (body : Node k → State k → Except Fault (State k))
    (s : State k) : Except Fault (State k) :=
  walk (fun s n => s.links.next n) head .endless body (k.nodes + 1) (s.links.next head) s

/-- `process_register_task`. -/
def processRegisterTask (env : Env k) (prc : ProcessId k) (task : TaskId k) (s : State k) :
    Except Fault (State k) := do
  let sched := (s.process prc).pSched
  nsCheck env (sched = true)
  derefSched sched
  let s := s.modLinks fun l => l.insertAfter .sActives (.tSchedList task)
  let s := s.modLinks fun l => l.insertAfter (.pTasks prc) (.tSiblings task)
  let s := s.modLinks fun l => l.init (.tOverriders task)
  let s := s.modLinks fun l => l.init (.tStopped task)
  let s := s.modLinks fun l => l.init (.tHistory task)
  let s := s.modTask task fun _ =>
    { tStatus := schedStatusActive, tCommit := -1, tProcess := some prc, tNbOwnedPrimitives := 0,
      tStopper := none, tNbOverrides := 0, tThread := none }
  .ok (s.modProcess prc fun x => { x with pNbTasks := x.pNbTasks + 1 })

/-- `process_unregister_task`. -/
def processUnregisterTask (env : Env k) (thread : ThreadId k) (s : State k) :
    Except Fault (BitVec 8 × State k) := do
  let sched := (s.thread thread).tSched
  nsCheck env (sched = true)
  nsCheck env (s.threadActive thread = true)
  let t ← deref (s.thread thread).tTask
  nsCheckActive env t s
  nsCheck env ((s.task t).tProcess ≠ none)
  nsCheck env (s.schedOf (s.task t).tProcess = sched)
  let s ← if (s.task t).tStatus = schedStatusStopped
    then primitiveResumeTask env (taskAddr t) s else .ok s
  let s := s.modLinks fun l => l.remove (.tSchedList t)
  -- the list is linked through `p_siblings`, and walked through `p_overriders`
  let s ← forEachNode (.tOverriders t)
    (fun n s => primitiveUnoverrideTask env (containerOf n pOverridersOffset) s) s
  let s := threadUnregisterTask t s
  let prc ← deref (s.task t).tProcess
  let s := s.modLinks fun l => l.remove (.tSchedList t)
  let s := s.modProcess prc fun x => { x with pNbTasks := x.pNbTasks - 1 }
  let s ← callHook env sched (.unregistered t) s
  let s ← callHook env sched (.assignOne thread) s
  .ok (if (s.task t).tNbOwnedPrimitives = 0 then 0 else 1, s)

/-- `process_register_prim`. -/
def processRegisterPrim (prc : ProcessId k) (prim : PrimId k) (s : State k) : State k :=
  let s := s.modLinks fun l => l.init (.pSiblings prim)
  let s := s.modLinks fun l => l.init (.pStopped prim)
  let s := s.modLinks fun l => l.init (.pOverriders prim)
  let s := s.modPrim prim fun _ =>
    { pProcess := some prc, pStatus := 0, pNbOwningTasks := 0, nbStoppedTasks := 0,
      pOverridden := none }
  s.modProcess prc fun x => { x with pNbPrimitives := 0 }

/-- `process_unregister_prim`. -/
def processUnregisterPrim (env : Env k) (prim : PrimId k) (s : State k) :
    Except Fault (BitVec 8 × State k) := do
  let prc := (s.prim prim).pProcess
  nsCheck env (prc ≠ none)
  let s ← forEachNode (.pStopped prim)
    (fun n s => primitiveResumeTask env (containerOf n tStoppedOffset) s) s
  let s ← if (s.prim prim).pOverridden = none then .ok s
    else primitiveUnoverrideTask env (primAddr prim) s
  let s := s.modLinks fun l => l.removeUnsafe (.pSiblings prim)
  let prc ← deref prc
  let s := s.modProcess prc fun x => { x with pNbPrimitives := x.pNbPrimitives - 1 }
  .ok (if (s.prim prim).pNbOwningTasks = 0 then 0 else 1, s)

/-! ### Scheduler functions -/

/-- `abort_if_commit_closed`. -/
def abortIfCommitClosed (env : Env k) (s : State k) : Except Fault Unit :=
  nsCheck env (s.sched.sCommitOpened = true)

/-- `sched_register_thread`. -/
def schedRegisterThread (thread : ThreadId k) (s : State k) : State k :=
  let s := s.modLinks fun l => l.insertAfter .sThreads (.threadList thread)
  let s := s.modLinks fun l => l.init (.threadHistory thread)
  let s := s.modThread thread fun _ =>
    { tSched := true, tCommit := -1, tTask := none, tHistorySize := 0 }
  s.modSched fun x => { x with sNbThreads := x.sNbThreads + 1 }

/-- `sched_register_process`. -/
def schedRegisterProcess (prc : ProcessId k) (s : State k) : State k :=
  let s := s.modLinks fun l => l.insertAfter .sProcesses (.pList prc)
  let s := s.modLinks fun l => l.init (.pTasks prc)
  let s := s.modLinks fun l => l.init (.pPrimitives prc)
  let s := s.modProcess prc fun _ =>
    { pSched := true, pStatus := schedStatusActive, pNbTasks := 0, pNbPrimitives := 0 }
  let s := processRegisterPrim prc (pPrim prc) s
  s.modSched fun x => { x with sNbProcesses := x.sNbProcesses + 1 }

/-- `sched_unregister_thread`. -/
def schedUnregisterThread (env : Env k) (thread : ThreadId k) (s : State k) :
    Except Fault (State k) := do
  let sched := (s.thread thread).tSched
  nsCheck env (sched = true)
  abortIfCommitClosed env s
  let s ← forEachNode (.threadHistory thread)
    (fun n s => do
      let task ← deref (containerOf n tHistoryOffset).task?
      .ok (threadUnregisterTask task s)) s
  let s := s.modThread thread fun x => { x with tSched := false }
  let s := s.modLinks fun l => l.removeUnsafe (.threadList thread)
  derefSched sched
  .ok (s.modSched fun x => { x with sNbThreads := x.sNbThreads - 1 })

/-- `sched_unregister_process`. -/
def schedUnregisterProcess (env : Env k) (prc : ProcessId k) (s : State k) :
    Except Fault (State k) := do
  let sched := (s.process prc).pSched
  nsCheck env (sched = true)
  abortIfCommitClosed env s
  let s ← forEachNode (.pTasks prc)
    (fun n s => do
      let task ← deref (containerOf n tSiblingsOffset).task?
      if (s.task task).tStatus = schedStatusActive then
        .ok (s.modLinks fun l => l.removeUnsafe (.tSchedList task))
      else .ok s) s
  let s := s.modLinks fun l => l.removeUnsafe (.pList prc)
  derefSched sched
  .ok (s.modSched fun x => { x with sNbProcesses := x.sNbProcesses - 1 })

/-- One turn of the loop of `sched_pause_process`. -/
def pauseTask (env : Env k) (prc : ProcessId k) (n : Node k) (s : State k) :
    Except Fault (State k) := do
  let task ← deref (containerOf n tSiblingsOffset).task?
  if (s.task task).tStatus = schedStatusActive then
    primitiveStopTask env (pPrim prc) (some task) s
  else .ok s

/-- `sched_pause_process`. -/
def schedPauseProcess (env : Env k) (prc : ProcessId k) (s : State k) :
    Except Fault (State k) := do
  nsCheck env ((s.process prc).pSched = true)
  nsCheck env ((s.process prc).pStatus = schedStatusActive)
  abortIfCommitClosed env s
  let s ← forEachNode (.pTasks prc) (pauseTask env prc) s
  .ok (s.modProcess prc fun x => { x with pStatus := schedStatusStopped })

/-- `sched_resume_process`. -/
def schedResumeProcess (env : Env k) (prc : ProcessId k) (s : State k) :
    Except Fault (State k) := do
  nsCheck env ((s.process prc).pSched = true)
  nsCheck env ((s.process prc).pStatus = schedStatusStopped)
  abortIfCommitClosed env s
  -- the list is linked through `t_stopped`, and walked through `t_siblings`
  let s ← forEachNode (.pStopped (pPrim prc))
    (fun n s => primitiveResumeTask env (containerOf n tSiblingsOffset) s) s
  .ok (s.modProcess prc fun x => { x with pStatus := schedStatusActive })

/-- `sched_open_commit`. -/
def schedOpenCommit (env : Env k) (s : State k) : Except Fault (State k) := do
  nsCheck env (s.sched.sCommitOpened = false)
  .ok (s.modSched fun x => { x with sCommitOpened := true, sCommitIndex := x.sCommitIndex + 1 })

/-- `sched_close_commit`. -/
def schedCloseCommit (env : Env k) (s : State k) : Except Fault (State k) := do
  nsCheck env (s.sched.sCommitOpened = true)
  let s := s.modSched fun x => { x with sCommitOpened := false }
  let s ← callHook env true .schedule s
  callHook env true .assignAll s

end KernelTk.Sched
