import KernelTk.Lib.CircularList

/-! # Execution contexts of a task manager

The functions of `taskman.c` that `taskman_exec` runs.

* **Memory.** `Memory` holds the `struct taskman_task` that lies on the stack of `taskman_exec`, the
  trees and the link words of the managers and of the other tasks.  Nothing initialises the
  structure: its first content is arbitrary.
* **Environment.** The results of `m_ready` and the values read from `*abort` are the terms of two
  sequences (`Env.ready`, `Env.abort`).  `State.calls` records the calls made to the operations of the
  managers, in order.
* **Control.** `Label` names the places that `taskman_exec` goes to; `taskmanStep` runs the code
  from one to the next, and `taskmanExec n` is the state after `n` such steps.
* **Lists.** `dlist_concat` and `dlist_remove` are defined on nodes that lie in a list: given any other
  node, they fail.  They come from a library that is not in the sources: `dlist_concat` appends, so that
  a task joins `m_free_tasks` at its end.

The locks and the waits are empty in the source.  `t_tree` and `t_depth` are not modelled: no
function reads them. -/

namespace KernelTk.Taskman

open CircularList (Links)

/-- The width of a `usize`, and the objects that lie in memory. -/
structure Machine where
  width : ℕ
  width_pos : 0 < width
  managers : ℕ
  tasks : ℕ
  functions : ℕ

section objects
variable (k : Machine)

abbrev Usize := BitVec k.width
abbrev MgrId := Fin k.managers
abbrev FnId := Fin k.functions

/-- The list fields: of the managers, of the task of the context, of the other tasks. -/
inductive Node where
  | mFreeTasks (m : MgrId k)
  | tList
  | other (t : Fin k.tasks)
deriving DecidableEq

/-- `struct taskman_task`, without its list and tree fields. -/
structure TaskmanTask where
  tMgr : MgrId k
  tStackSize : Usize k
  tRoot : BitVec 8
  tReady : BitVec 8
  tFunction : Option (FnId k)
  tArgs : Usize k

/-- What `m_ready` returns, and the arguments that it writes to `*args_p`. -/
structure Ready where
  delay : Usize k
  args : Usize k
deriving DecidableEq

/-- Calls to the operations of a manager (`struct taskman_ops`). -/
inductive Call where
  | ready (m : MgrId k) (r : Ready k)
  | exec (f : FnId k) (args : Usize k)
  | cleanup (m : MgrId k) (args : Usize k)
deriving DecidableEq

/-- The places that `taskman_exec` goes to. -/
inductive Label where
  | taskInsertion
  | addition
  | stall
  | delay
  | execution
  | cleanup
  | execExit
deriving DecidableEq

/-- The operations of the managers and the tree library, and what the context is told. -/
structure Env (Tree : Type) where
  mExec : MgrId k → FnId k
  avlTreeInsert : Tree → Usize k → Tree
  address : Usize k
  ready : ℕ → Ready k
  abort : ℕ → BitVec 8

/-- The task of the context, the link words and the trees. -/
structure Memory (Tree : Type) where
  task : TaskmanTask k
  links : Links (Node k)
  mTree : MgrId k → Tree

/-- The memory, the place reached, the calls made and how much of the two sequences was used. -/
structure State (Tree : Type) extends Memory k Tree where
  label : Label
  calls : List (Call k)
  readies : ℕ
  aborts : ℕ

end objects

/-- Why the code cannot go on. -/
inductive Fault where
  | null
  | notListed
deriving DecidableEq

variable {k : Machine} {Tree : Type}

namespace State

variable (s : State k Tree)

def modTask (f : TaskmanTask k → TaskmanTask k) : State k Tree := { s with task := f s.task }

def modLinks (f : Links (Node k) → Links (Node k)) : State k Tree :=
  { s with links := f s.links }

def call (c : Call k) : State k Tree := { s with calls := s.calls ++ [c] }

def goto (l : Label) : State k Tree := { s with label := l }

end State

/-! ### Lists -/

/-- `dlist_concat`. -/
def dlistConcat (a b : Node k) (s : State k Tree) : Except Fault (State k Tree) :=
  if s.links.Joined a ∧ s.links.Joined b then .ok (s.modLinks (·.concat a b))
  else .error .notListed

/-- `dlist_remove`. -/
def dlistRemove (n : Node k) (s : State k Tree) : Except Fault (State k Tree) :=
  if s.links.Joined n then .ok (s.modLinks (·.remove n)) else .error .notListed

/-! ### Tasks -/

/-- `task_init`. -/
def taskInit (fnc : FnId k) (args : Usize k) (task : TaskmanTask k) : TaskmanTask k :=
  { task with tFunction := some fnc, tArgs := args, tReady := 1 }

/-- `task_reset`. -/
def taskReset (task : TaskmanTask k) : TaskmanTask k :=
  { task with tFunction := none, tArgs := 0, tReady := 0 }

/-- `task_exec`. -/
def taskExec (s : State k Tree) : Except Fault (State k Tree) :=
  match s.task.tFunction with
  | some f => .ok (s.call (.exec f s.task.tArgs))
  | none => .error .null

/-! ### Managers -/

/-- `mgr_add_free_task`. -/
def mgrAddFreeTask (env : Env k Tree) (s : State k Tree) : Except Fault (Usize k × State k Tree) := do
  let mgr := s.task.tMgr
  let r := env.ready s.readies
  let s := { s.call (.ready mgr r) with readies := s.readies + 1 }
  if r.delay ≠ 0 then
    let s ← dlistConcat (.mFreeTasks mgr) .tList s
    return (r.delay, s)
  else
    let s := s.modTask (taskInit (env.mExec mgr) r.args)
    return (r.delay, s.modTask ({ · with tRoot := 1 }))

/-- `mgr_remove_free_task` : is the task removed? -/
def mgrRemoveFreeTask (s : State k Tree) : Except Fault (Bool × State k Tree) :=
  if s.task.tReady = 0 then do
    let s ← dlistRemove .tList s
    return (true, s)
  else return (false, s)

/-- `mgr_cleanup_task`. -/
def mgrCleanupTask (s : State k Tree) : State k Tree :=
  let s := if s.task.tRoot ≠ 0 then s.call (.cleanup s.task.tMgr s.task.tArgs) else s
  s.modTask taskReset

/-- `mgr_register_task`; what it returns is not used. -/
def mgrRegisterTask (env : Env k Tree) (mgr : MgrId k) (stackSize : Usize k) (s : State k Tree) :
    State k Tree :=
  let s := s.modTask ({ · with tMgr := mgr, tStackSize := stackSize })
  { s with mTree := Function.update s.mTree mgr (env.avlTreeInsert (s.mTree mgr) env.address) }

/-- `mgr_unregister_task` : it is not written. -/
def mgrUnregisterTask (s : State k Tree) : State k Tree := s

/-! ### The loop -/

/-- The next value of `*abort`. -/
def readAbort (env : Env k Tree) (s : State k Tree) : BitVec 8 × State k Tree :=
  (env.abort s.aborts, { s with aborts := s.aborts + 1 })

/-- One step of the loop of `taskman_exec`. -/
def taskmanStep (env : Env k Tree) (s : State k Tree) : Except Fault (State k Tree) :=
  match s.label with
  | .taskInsertion =>
      let (abort, s) := readAbort env s
      return s.goto (if abort ≠ 0 then .execExit else .addition)
  | .addition => do
      let (delay, s) ← mgrAddFreeTask env s
      return s.goto (if delay = -1 then .stall else if delay ≠ 0 then .delay else .execution)
  | .stall => do
      let (abort, s) := readAbort env s
      if abort ≠ 0 then
        let (removed, s) ← mgrRemoveFreeTask s
        return s.goto (if removed then .execExit else .execution)
      else return if s.task.tReady ≠ 0 then s.goto .execution else s
  | .delay => do
      let (removed, s) ← mgrRemoveFreeTask s
      return s.goto (if removed then .taskInsertion else .execution)
  | .execution => do
      let s ← taskExec s
      return s.goto .cleanup
  | .cleanup => return (mgrCleanupTask s).goto .taskInsertion
  | .execExit => return mgrUnregisterTask s

/-- `taskman_exec` called in a given memory: the state after `n` steps. -/
def taskmanExec (env : Env k Tree) (mgr : MgrId k) (stackSize : Usize k) (mem : Memory k Tree) :
    ℕ → Except Fault (State k Tree)
  | 0 => .ok (mgrRegisterTask env mgr stackSize ⟨mem, .taskInsertion, [], 0, 0⟩)
  | n + 1 => taskmanExec env mgr stackSize mem n >>= taskmanStep env

end KernelTk.Taskman
