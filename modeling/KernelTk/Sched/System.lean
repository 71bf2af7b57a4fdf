import Mathlib.Algebra.GroupWithZero.Nat
import KernelTk.Lib.Transition
import KernelTk.Sched.Locks

/-! # The scheduler as a system of calls

* **Calls.** `Call` has one constructor for each function that a kernel calls; `exec` executes
  it and returns its value (`0` for a `void` function).  The arguments that are pointers to objects are
  those objects: what a call of the kernel may get wrong is the moment and the object, not the type.
* **Runs.** `Reach policy guard hist s` : from a memory in which nothing is registered
  (`Boot`), the calls of `hist` were made in a debug build, no `ns_check` failed and no invalid
  pointer was used.  The policy is arbitrary.  `Boot` says nothing of the words of objects that are not
  registered, but for the pointers that the checks read.
* **Registration.** What is registered is a function of the history (`taskRegistered`,
  `primRegistered`, ...); `fresh` says that a registration is made on an object that is not
  registered, `onRegistered` that the primitive a call works on is registered.  These are conditions on
  the kernel, which the scheduler does not check.
* **A small machine.** `small` has a process, three tasks, three threads and two primitives besides that of
  the process, and `smallBoot` is a memory in which nothing is registered; together with `quiet`, a policy
  that assigns nothing, they are what the concrete runs are made of. -/

namespace KernelTk.Sched

open Transition

variable {k : Machine}

/-- The calls a kernel makes. -/
inductive Call (k : Machine) where
  | registerProcess (prc : ProcessId k)
  | unregisterProcess (prc : ProcessId k)
  | registerThread (thread : ThreadId k)
  | unregisterThread (thread : ThreadId k)
  | registerTask (prc : ProcessId k) (task : TaskId k)
  | unregisterTask (thread : ThreadId k)
  | registerPrim (prc : ProcessId k) (prim : PrimId k)
  | unregisterPrim (prim : PrimId k)
  | openCommit
  | closeCommit
  | pauseProcess (prc : ProcessId k)
  | resumeProcess (prc : ProcessId k)
  | assignTask (thread : ThreadId k) (task : Option (TaskId k))
  | takeOwnership (prim : PrimId k) (task : TaskId k)
  | releaseOwnership (prim : PrimId k) (task : TaskId k)
  | overrideTask (prim : PrimId k) (task : TaskId k)
  | unoverrideTask (prim : PrimId k)
  | resumeTask (task : TaskId k)
  | stopThread (prim : PrimId k) (thread : ThreadId k)
  | mutexCtor (mutex : PrimId k) (prc : ProcessId k)
  | mutexLock (mutex : PrimId k) (thread : ThreadId k)
  | mutexLockNb (mutex : PrimId k) (thread : ThreadId k)
  | mutexUnlock (mutex : PrimId k) (thread : ThreadId k)
  | semCtor (sem : PrimId k) (nbTakings : Usize k) (prc : ProcessId k)
  | semTake (sem : PrimId k) (thread : ThreadId k)
  | semTakeNb (sem : PrimId k) (thread : ThreadId k)
  | semRelease (sem : PrimId k) (thread : ThreadId k)
deriving DecidableEq

/-- The value of a `void` function. -/
def void (x : Except Fault (State k)) : Except Fault (BitVec 8 × State k) := x.map (0, ·)

theorem void_eq_ok {x : Except Fault (State k)} {r : BitVec 8} {s' : State k} :
    void x = .ok (r, s') ↔ r = 0 ∧ x = .ok s' := by
  cases x with
  | error f => simp [void, Except.map]
  | ok s₁ =>
      simp only [void, Except.map, Except.ok.injEq, Prod.mk.injEq]
      exact and_congr_left' eq_comm

/-- Execute a call. -/
def exec (env : Env k) : Call k → State k → Except Fault (BitVec 8 × State k)
  | .registerProcess c, s => .ok (0, schedRegisterProcess c s)
  | .unregisterProcess c, s => void (schedUnregisterProcess env c s)
  | .registerThread h, s => .ok (0, schedRegisterThread h s)
  | .unregisterThread h, s => void (schedUnregisterThread env h s)
  | .registerTask c t, s => void (processRegisterTask env c t s)
  | .unregisterTask h, s => processUnregisterTask env h s
  | .registerPrim c p, s => .ok (0, processRegisterPrim c p s)
  | .unregisterPrim p, s => processUnregisterPrim env p s
  | .openCommit, s => void (schedOpenCommit env s)
  | .closeCommit, s => void (schedCloseCommit env s)
  | .pauseProcess c, s => void (schedPauseProcess env c s)
  | .resumeProcess c, s => void (schedResumeProcess env c s)
  | .assignTask h t, s => void (threadAssignTask env h t s)
  | .takeOwnership p t, s => void (primitiveTakeOwnership env p (some t) s)
  | .releaseOwnership p t, s => primitiveReleaseOwnership env p (some t) s
  | .overrideTask p t, s => void (primitiveOverrideTask env p (some t) s)
  | .unoverrideTask p, s => void (primitiveUnoverrideTask env (primAddr p) s)
  | .resumeTask t, s => void (primitiveResumeTask env (taskAddr t) s)
  | .stopThread p h, s => void (primitiveStopThread env p h s)
  | .mutexCtor m c, s => .ok (0, schedMutexCtor m c s)
  | .mutexLock m h, s => void (schedMutexLock env m h s)
  | .mutexLockNb m h, s => schedMutexLockNb env m h s
  | .mutexUnlock m h, s => schedMutexUnlock env m h s
  | .semCtor p n c, s => .ok (0, schedSemCtor p n c s)
  | .semTake p h, s => void (schedSemTake env p h s)
  | .semTakeNb p h, s => schedSemTakeNb env p h s
  | .semRelease p h, s => schedSemRelease env p h s

/-- A run, and the policy it is made under. -/
abbrev Hist (k : Machine) := History (State k) (Call k) (BitVec 8)

/-- What the policy does at a call, for the calls received so far. -/
abbrev Policy (k : Machine) := List (HookCall k) → List (ThreadId k × Option (TaskId k))

/-- Nothing is registered: the scheduler's lists are empty, no commit is open, and the pointers
of every object to its process or to the scheduler are null.  The rest of the memory is
arbitrary. -/
structure Boot (s : State k) : Prop where
  actives : CircularList.IsRing s.links .sActives []
  processes : CircularList.IsRing s.links .sProcesses []
  threads : CircularList.IsRing s.links .sThreads []
  commit : s.sched.sCommitOpened = false
  task : ∀ t, (s.task t).tProcess = none
  prim : ∀ p, (s.prim p).pProcess = none
  process : ∀ c, (s.process c).pSched = false
  thread : ∀ h, (s.thread h).tSched = false

/-- The states reached in a debug build by calls that return and meet the guard. -/
abbrev Reach (policy : Policy k) (guard : Hist k → State k → Call k → Prop) :
    Hist k → State k → Prop :=
  Transition.Reach Boot (exec ⟨true, policy⟩) guard

/-! ### Registration -/

/-- The process is registered. -/
def processRegistered : Hist k → ProcessId k → Bool
  | [], _ => false
  | e :: hist, c =>
      match e.call with
      | .registerProcess c' => c == c' || processRegistered hist c
      | .unregisterProcess c' => c != c' && processRegistered hist c
      | _ => processRegistered hist c

/-- The thread is registered. -/
def threadRegistered : Hist k → ThreadId k → Bool
  | [], _ => false
  | e :: hist, h =>
      match e.call with
      | .registerThread h' => h == h' || threadRegistered hist h
      | .unregisterThread h' => h != h' && threadRegistered hist h
      | _ => threadRegistered hist h

/-- The task is registered; unregistering a process unregisters its tasks. -/
def taskRegistered : Hist k → TaskId k → Bool
  | [], _ => false
  | e :: hist, t =>
      match e.call with
      | .registerTask _ t' => t == t' || taskRegistered hist t
      | .unregisterTask h => (e.pre.thread h).tTask != some t && taskRegistered hist t
      | .unregisterProcess c => (e.pre.task t).tProcess != some c && taskRegistered hist t
      | _ => taskRegistered hist t

/-- The primitive is registered; unregistering a process unregisters its primitives. -/
def primRegistered : Hist k → PrimId k → Bool
  | [], _ => false
  | e :: hist, p =>
      match e.call with
      | .registerProcess c => p == pPrim c || primRegistered hist p
      | .registerPrim _ p' => p == p' || primRegistered hist p
      | .mutexCtor p' _ => p == p' || primRegistered hist p
      | .semCtor p' _ _ => p == p' || primRegistered hist p
      | .unregisterPrim p' => p != p' && primRegistered hist p
      | .unregisterProcess c => (e.pre.prim p).pProcess != some c && primRegistered hist p
      | _ => primRegistered hist p

/-- Registrations are made on objects that are not registered. -/
def fresh (hist : Hist k) : Call k → Bool
  | .registerProcess c => !processRegistered hist c && !primRegistered hist (pPrim c)
  | .registerThread h => !threadRegistered hist h
  | .registerTask _ t => !taskRegistered hist t
  | .registerPrim _ p => !primRegistered hist p
  | .mutexCtor p _ => !primRegistered hist p
  | .semCtor p _ _ => !primRegistered hist p
  | _ => true

/-- The primitive a call works on, if any, is registered. -/
def onRegistered (hist : Hist k) : Call k → Bool
  | .pauseProcess c => primRegistered hist (pPrim c)
  | .resumeProcess c => primRegistered hist (pPrim c)
  | .unregisterPrim p => primRegistered hist p
  | .takeOwnership p _ => primRegistered hist p
  | .releaseOwnership p _ => primRegistered hist p
  | .overrideTask p _ => primRegistered hist p
  | .unoverrideTask p => primRegistered hist p
  | .stopThread p _ => primRegistered hist p
  | .mutexLock p _ => primRegistered hist p
  | .mutexLockNb p _ => primRegistered hist p
  | .mutexUnlock p _ => primRegistered hist p
  | .semTake p _ => primRegistered hist p
  | .semTakeNb p _ => primRegistered hist p
  | .semRelease p _ => primRegistered hist p
  | _ => true

/-! ### A small machine

Three tasks, two threads and two primitives of one process, for runs on given calls. -/

abbrev small : Machine := ⟨64, 3, 2, 1, 3, by decide⟩

instance : NeZero small.tasks := ⟨by decide⟩
instance : NeZero small.prims := ⟨by decide⟩
instance : NeZero small.procs := ⟨by decide⟩
instance : NeZero small.threads := ⟨by decide⟩

/-- Null pointers, and lists whose heads point to themselves. -/
def smallBoot : State small where
  links := ⟨id, id⟩
  task := fun _ => ⟨0, 0, none, 0, none, 0, none⟩
  prim := fun _ => ⟨none, 0, 0, 0, none⟩
  process := fun _ => ⟨false, 0, 0, 0⟩
  thread := fun _ => ⟨false, 0, none, 0⟩
  sched := ⟨false, 0, 0, 0⟩
  sNbOwners := fun _ => 0
  hooks := []

theorem boot_smallBoot : Boot smallBoot where
  actives := CircularList.IsRing.nil_iff.mpr ⟨rfl, rfl⟩
  processes := CircularList.IsRing.nil_iff.mpr ⟨rfl, rfl⟩
  threads := CircularList.IsRing.nil_iff.mpr ⟨rfl, rfl⟩
  commit := rfl
  task := fun _ => rfl
  prim := fun _ => rfl
  process := fun _ => rfl
  thread := fun _ => rfl

/-- A policy that assigns nothing. -/
def quiet : Policy k := fun _ => []

/-- The registrations of the process, of its tasks and of its threads. -/
def smallSetup : List (Call small) :=
  [.registerProcess 0, .registerThread 0, .registerThread 1, .registerThread 2,
    .registerTask 0 0, .registerTask 0 1, .registerTask 0 2]

end KernelTk.Sched
