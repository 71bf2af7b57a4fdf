import Mathlib.Tactic.Simps.Basic
import Mathlib.Data.Fintype.Sum
import KernelTk.Lib.RingFamily

/-! # The memory of the scheduler

The objects of `sched.h`, `mutex.h` and `sem.h` and the pointers between them.

* **Objects.** A `Machine` fixes the width of a `usize` and how many tasks, primitives,
  processes and threads lie in memory.  There is one scheduler: a pointer to it is a Boolean
  (`true` : not null).  Every other pointer is an `Option`.
* **Lists.** Every `struct dlist` field is a `Node`; the link words of all nodes are
  `State.links`.
* **Addresses.** `containerOf` subtracts the offset of a field from the address of a node, as
  the C macro does; the result is the address of a task (`Addr.task?`) or of a primitive
  (`Addr.prim?`) only when it is the address of the first byte of one.  Offsets are counted in
  machine words: with pointers and `usize` of one word and an `enum` of at most one, they do not
  depend on the width.
* **Ghosts.** `State.hooks` records the calls made to the scheduling policy (`struct sched_ops`).

`s_lock`, `s_ops` and the priorities are not modelled: every call is atomic under the lock, and
the policy is a parameter of the functions (`Env.policy`). -/

namespace KernelTk.Sched

open CircularList (Links)

/-- The machine: the width of a `usize`, and the number of objects of each kind.  They all lie
in an address space of `2 ^ width` bytes. -/
structure Machine where
  width : ℕ
  tasks : ℕ
  prims : ℕ
  procs : ℕ
  threads : ℕ
  fits : tasks + prims + procs + threads < 2 ^ width

section objects
variable (k : Machine)

abbrev Usize := BitVec k.width
abbrev TaskId := Fin k.tasks
abbrev ProcessId := Fin k.procs
abbrev ThreadId := Fin k.threads

/-- A primitive: the `p_prim` of a process, or one that lies elsewhere. -/
inductive PrimId where
  | ofProcess (c : ProcessId k)
  | other (i : Fin k.prims)
deriving DecidableEq

/-- The list fields of all objects. -/
inductive Node where
  | sActives
  | sProcesses
  | sThreads
  | pList (c : ProcessId k)
  | pTasks (c : ProcessId k)
  | pPrimitives (c : ProcessId k)
  | tSchedList (t : TaskId k)
  | tSiblings (t : TaskId k)
  | tStopped (t : TaskId k)
  | tOverriders (t : TaskId k)
  | tHistory (t : TaskId k)
  | pSiblings (p : PrimId k)
  | pStopped (p : PrimId k)
  | pOverriders (p : PrimId k)
  | threadList (h : ThreadId k)
  | threadHistory (h : ThreadId k)
deriving DecidableEq

/-- The number of list fields in memory. -/
def Machine.nodes : ℕ := 3 + 3 * k.procs + 5 * k.tasks + 3 * (k.procs + k.prims) + 2 * k.threads

/-- What an address is relative to. -/
inductive Obj where
  | scheduler
  | process (c : ProcessId k)
  | task (t : TaskId k)
  | prim (p : PrimId k)
  | thread (h : ThreadId k)
deriving DecidableEq

/-- An address: an object and an offset in machine words, possibly outside of the object. -/
structure Addr where
  obj : Obj k
  offset : ℤ
deriving DecidableEq

end objects

variable {k : Machine}

/-- The primitives of the processes, and the others. -/
def PrimId.equivSum : PrimId k ≃ ProcessId k ⊕ Fin k.prims where
  toFun | .ofProcess c => .inl c | .other i => .inr i
  invFun | .inl c => .ofProcess c | .inr i => .other i
  left_inv p := by cases p <;> rfl
  right_inv p := by cases p <;> rfl

instance : Fintype (PrimId k) := Fintype.ofEquiv _ PrimId.equivSum.symm

/-- `&prc->p_prim`. -/
abbrev pPrim (c : ProcessId k) : PrimId k := .ofProcess c

/-! ### Addresses -/

/-- Offsets of the list fields of `struct stask`. -/
def tSchedListOffset : ℤ := 1
def tSiblingsOffset : ℤ := 5
def tStoppedOffset : ℤ := 9
def tOverridersOffset : ℤ := 12
def tHistoryOffset : ℤ := 15

/-- Offsets of the list fields of `struct sprim`. -/
def pSiblingsOffset : ℤ := 1
def pStoppedOffset : ℤ := 6
def pOverridersOffset : ℤ := 9

/-- The address of a list field; those of the scheduler, of a process and of a thread are never
converted to an object, so that their offsets do not matter. -/
def Node.addr : Node k → Addr k
  | .sActives => ⟨.scheduler, 0⟩
  | .sProcesses => ⟨.scheduler, 0⟩
  | .sThreads => ⟨.scheduler, 0⟩
  | .pList c => ⟨.process c, 0⟩
  | .pTasks c => ⟨.process c, 0⟩
  | .pPrimitives c => ⟨.process c, 0⟩
  | .tSchedList t => ⟨.task t, tSchedListOffset⟩
  | .tSiblings t => ⟨.task t, tSiblingsOffset⟩
  | .tStopped t => ⟨.task t, tStoppedOffset⟩
  | .tOverriders t => ⟨.task t, tOverridersOffset⟩
  | .tHistory t => ⟨.task t, tHistoryOffset⟩
  | .pSiblings p => ⟨.prim p, pSiblingsOffset⟩
  | .pStopped p => ⟨.prim p, pStoppedOffset⟩
  | .pOverriders p => ⟨.prim p, pOverridersOffset⟩
  | .threadList h => ⟨.thread h, 0⟩
  | .threadHistory h => ⟨.thread h, 0⟩

/-- `container_of` : the address of the node less the offset of the field. -/
def containerOf (n : Node k) (offset : ℤ) : Addr k := ⟨n.addr.obj, n.addr.offset - offset⟩

/-- The task at an address, if a task starts there. -/
def Addr.task? (a : Addr k) : Option (TaskId k) :=
  match a.obj with
  | .task t => if a.offset = 0 then some t else none
  | _ => none

/-- The primitive at an address, if a primitive starts there. -/
def Addr.prim? (a : Addr k) : Option (PrimId k) :=
  match a.obj with
  | .prim p => if a.offset = 0 then some p else none
  | _ => none

/-- The address of a task. -/
def taskAddr (t : TaskId k) : Addr k := ⟨.task t, 0⟩

/-- The address of a primitive. -/
def primAddr (p : PrimId k) : Addr k := ⟨.prim p, 0⟩

@[simp] theorem taskAddr_task? (t : TaskId k) : (taskAddr t).task? = some t := rfl
@[simp] theorem primAddr_prim? (p : PrimId k) : (primAddr p).prim? = some p := rfl

@[simp] theorem containerOf_tStopped (t : TaskId k) :
    (containerOf (.tStopped t) tStoppedOffset).task? = some t := rfl
@[simp] theorem containerOf_tSiblings (t : TaskId k) :
    (containerOf (.tSiblings t) tSiblingsOffset).task? = some t := rfl
@[simp] theorem containerOf_tHistory (t : TaskId k) :
    (containerOf (.tHistory t) tHistoryOffset).task? = some t := rfl

/-- The head of a stopped list lies in no task: it is a field of the primitive. -/
@[simp] theorem containerOf_pStopped_task? (p : PrimId k) (o : ℤ) :
    (containerOf (.pStopped p) o).task? = none := rfl

/-- A node of a stopped list, converted through `t_siblings`, is not the address of a task. -/
@[simp] theorem containerOf_tStopped_tSiblings (t : TaskId k) :
    (containerOf (.tStopped t) tSiblingsOffset).task? = none := rfl

/-! ### Objects -/

/-- `SCHED_STATUS_STOPPED` and `SCHED_STATUS_ACTIVE`. -/
def schedStatusStopped : BitVec 32 := 1
def schedStatusActive : BitVec 32 := 2

/-- `STASK_STATUS_UPDATED` and `SCHED_PRIM_STATUS_UPDATED`. -/
def staskStatusUpdated : BitVec 32 := 1 <<< 1
def schedPrimStatusUpdated : BitVec 8 := 1 <<< 0

section structs
variable (k)

/-- `struct stask`, without its list fields. -/
structure Stask where
  tStatus : BitVec 32
  tCommit : Usize k
  tProcess : Option (ProcessId k)
  tNbOwnedPrimitives : Usize k
  tStopper : Option (PrimId k)
  tNbOverrides : Usize k
  tThread : Option (ThreadId k)

/-- `struct sprim`, without its list fields. -/
structure Sprim where
  pProcess : Option (ProcessId k)
  pStatus : BitVec 8
  pNbOwningTasks : Usize k
  nbStoppedTasks : Usize k
  pOverridden : Option (TaskId k)

/-- `struct sprocess`, without its list fields and `p_prim`. -/
structure Sprocess where
  pSched : Bool
  pStatus : BitVec 32
  pNbTasks : Usize k
  pNbPrimitives : Usize k

/-- `struct sthread`, without its list fields. -/
structure Sthread where
  tSched : Bool
  tCommit : Usize k
  tTask : Option (TaskId k)
  tHistorySize : Usize k

/-- `struct scheduler`, without its list fields, its lock and its operations. -/
structure Scheduler where
  sCommitOpened : Bool
  sCommitIndex : Usize k
  sNbProcesses : Usize k
  sNbThreads : Usize k

/-- Calls to the operations of the policy (`struct sched_ops`). -/
inductive HookCall where
  | registered (t : TaskId k)
  | unregistered (t : TaskId k)
  | stopped (t : TaskId k)
  | resumed (t : TaskId k)
  | schedule
  | assignAll
  | assignOne (h : ThreadId k)
  | overrideTaken (p : PrimId k) (t : TaskId k)
  | overrideReleased (p : PrimId k) (t : TaskId k)
deriving DecidableEq

/-- The memory, and the calls made to the policy so far, the latest first.  `sNbOwners p` is the
`s_nb_owners` of the semaphore whose `s_prim` is `p`. -/
structure State where
  links : Links (Node k)
  task : TaskId k → Stask k
  prim : PrimId k → Sprim k
  process : ProcessId k → Sprocess k
  thread : ThreadId k → Sthread k
  sched : Scheduler k
  sNbOwners : PrimId k → Usize k
  hooks : List (HookCall k)

end structs

/-! ### Writes -/

namespace State

variable (s : State k)

@[simps] def modLinks (f : Links (Node k) → Links (Node k)) : State k :=
  { s with links := f s.links }

@[simps] def modTask (t : TaskId k) (f : Stask k → Stask k) : State k :=
  { s with task := Function.update s.task t (f (s.task t)) }

@[simps] def modPrim (p : PrimId k) (f : Sprim k → Sprim k) : State k :=
  { s with prim := Function.update s.prim p (f (s.prim p)) }

@[simps] def modProcess (c : ProcessId k) (f : Sprocess k → Sprocess k) : State k :=
  { s with process := Function.update s.process c (f (s.process c)) }

@[simps] def modThread (h : ThreadId k) (f : Sthread k → Sthread k) : State k :=
  { s with thread := Function.update s.thread h (f (s.thread h)) }

@[simps] def modSched (f : Scheduler k → Scheduler k) : State k :=
  { s with sched := f s.sched }

end State

end KernelTk.Sched
