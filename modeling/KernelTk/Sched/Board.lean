import Mathlib.Logic.Relation
import KernelTk.Sched.Invariant

/-! # What the scheduler is for

The abstract scheduler: a `Board` says which tasks may run, which ones wait for which primitive and
in which order, and what every thread executes.  It has no list nodes, no addresses, no counters of
elements and no status words.

* **Places.** A registered task is ready or waits for a primitive; a queue is served in the order
  of its arrivals.  The other fields are those that a kernel can observe: the process of a task and of a
  primitive, what is overridden, taken and executed, and the commits.
* **Marks.** `Board.reached` : the objects on the path from a primitive to the task it overrides, from
  a task to the primitive it waits for, and so on, before the first marked one.  A task that waits
  and is marked is not resumed any more.
* **Conditions.** `MayOwn`, `MayStop`, `MayResume`, `MayAssign` : what a function asks for before it edits
  the board.  They stand for the checks of a debug build.
* **Calls.** `Board.exec policy c b` : the value of the call and the next board, or `none` when the
  call is refused.  It is a specification, and classical: it is compared with the code, never run.
* **Runs.** `Board.Admits` : the calls that register objects once, work on registered primitives and
  retire no object but a primitive. -/

namespace KernelTk.Sched

variable {k : Machine}

/-- What the scheduler is for. -/
structure Board (k : Machine) where
  /-- The tasks that may run, the last one activated first. -/
  ready : List (TaskId k)
  /-- The registered processes, and their tasks. -/
  members : ProcessId k → Option (List (TaskId k))
  /-- The registered primitives, and the tasks that wait for them, the first one first. -/
  waiting : PrimId k → Option (List (TaskId k))
  threads : ThreadId k → Bool
  /-- The process of a registered task. -/
  home : TaskId k → Option (ProcessId k)
  owner : PrimId k → Option (ProcessId k)
  overrides : PrimId k → Option (TaskId k)
  running : ThreadId k → Option (TaskId k)
  /-- The takings of a primitive, those of a task, and the bound of a semaphore. -/
  taken : PrimId k → Usize k
  owned : TaskId k → Usize k
  bound : PrimId k → Usize k
  /-- The commit of the last assignment of a task. -/
  stamp : TaskId k → Usize k
  paused : Set (ProcessId k)
  marked : Set (PrimId k ⊕ TaskId k)
  opened : Bool
  index : Usize k
  heard : List (HookCall k)

/-- The registered objects. -/
structure Objects (k : Machine) where
  task : TaskId k → Bool
  prim : PrimId k → Bool
  process : ProcessId k → Bool
  thread : ThreadId k → Bool

namespace Board

variable (b : Board k)

/-- The registered objects of a board. -/
def objects : Objects k where
  task := fun t => (b.home t).isSome
  prim := fun p => (b.waiting p).isSome
  process := fun c => (b.members c).isSome
  thread := b.threads

/-! ### Marks -/

/-- The object that comes next on a path. -/
inductive Above : PrimId k ⊕ TaskId k → PrimId k ⊕ TaskId k → Prop
  | overrides {p : PrimId k} {t : TaskId k} : b.overrides p = some t → Above (.inl p) (.inr t)
  | waits {p : PrimId k} {t : TaskId k} {l : List (TaskId k)} : b.waiting p = some l → t ∈ l →
      Above (.inr t) (.inl p)

/-- A task that is ready counts as marked. -/
def Marked : PrimId k ⊕ TaskId k → Prop
  | .inl p => .inl p ∈ b.marked
  | .inr t => t ∈ b.ready ∨ .inr t ∈ b.marked

/-- The objects on the path from `o`, before the first one that is marked. -/
def reached (o : PrimId k ⊕ TaskId k) : Set (PrimId k ⊕ TaskId k) :=
  {x | ¬b.Marked o ∧ Relation.ReflTransGen (fun x y => b.Above x y ∧ ¬b.Marked y) o x}

/-! ### Conditions -/

/-- The task is registered, in the process of the primitive. -/
def Shares (p : PrimId k) (t : TaskId k) : Prop := b.home t ≠ none ∧ b.owner p = b.home t

/-- The task may own the primitive, or be overridden by it. -/
def MayOwn (p : PrimId k) (t : TaskId k) : Prop := b.Shares p t ∧ t ∈ b.ready

/-- The task may wait for the primitive: it was assigned in the current commit. -/
def MayStop (p : PrimId k) (t : TaskId k) : Prop := b.MayOwn p t ∧ b.stamp t = b.index

/-- The task waits, and is not marked. -/
def MayResume (t : TaskId k) : Prop := b.home t ≠ none ∧ t ∉ b.ready ∧ .inr t ∉ b.marked

/-- The thread may execute the task. -/
def MayAssign (h : ThreadId k) (t : TaskId k) : Prop := b.threads h = true ∧ b.home t ≠ none

/-! ### Edits -/

/-- `h` executes `t`, and no other thread does. -/
def run (h : ThreadId k) (t : TaskId k) : Board k :=
  { b with
    running := fun g => if g = h then some t
      else if b.threads g = true ∧ b.running g = some t then none else b.running g
    stamp := Function.update b.stamp t b.index }

/-- `h` executes nothing. -/
def idle (h : ThreadId k) : Board k := { b with running := Function.update b.running h none }

/-- `t` waits last for `p`. -/
def stop (p : PrimId k) (t : TaskId k) : Board k :=
  { b with
    ready := b.ready.erase t
    waiting := Function.update b.waiting p ((b.waiting p).map (· ++ [t]))
    marked := (b.marked ∪ b.reached (.inl p)) \ {.inr t} }

/-- `t` does not wait any more. -/
def resume (t : TaskId k) : Board k :=
  { b with
    ready := t :: b.ready
    waiting := fun p => (b.waiting p).map (·.erase t)
    marked := (b.marked ∪ {x | ∃ p, b.Above (.inr t) (.inl p) ∧ x ∈ b.reached (.inl p)}) \ {.inr t} }

/-- `p` overrides `t`. -/
def override (p : PrimId k) (t : TaskId k) : Board k :=
  { b with overrides := Function.update b.overrides p (some t) }

/-- `p` does not override `t` any more. -/
def release (p : PrimId k) (t : TaskId k) : Board k :=
  { b with
    overrides := Function.update b.overrides p none
    marked := b.marked ∪ b.reached (.inr t) }

/-- A new task of `c`, which is ready. -/
def addTask (c : ProcessId k) (t : TaskId k) : Board k :=
  { b with
    ready := t :: b.ready
    members := Function.update b.members c ((b.members c).map (t :: ·))
    home := Function.update b.home t (some c)
    owned := Function.update b.owned t 0
    stamp := Function.update b.stamp t (-1) }

/-- A new primitive of `c`. -/
def addPrim (c : ProcessId k) (p : PrimId k) : Board k :=
  { b with
    waiting := Function.update b.waiting p (some [])
    owner := Function.update b.owner p (some c)
    overrides := Function.update b.overrides p none
    taken := Function.update b.taken p 0
    marked := b.marked \ {.inl p} }

/-- The primitive is forgotten. -/
def dropPrim (p : PrimId k) : Board k :=
  { b with waiting := Function.update b.waiting p none }

/-- A new thread. -/
def addThread (h : ThreadId k) : Board k :=
  { b with
    threads := Function.update b.threads h true
    running := Function.update b.running h none }

/-- A new process, which is not paused. -/
def addProcess (c : ProcessId k) : Board k :=
  { b with
    members := Function.update b.members c (some [])
    paused := b.paused \ {c} }

/-! ### Functions -/

section functions
open scoped Classical

variable (policy : Policy k)

/-- The thread gets a task, or nothing. -/
noncomputable def assign (h : ThreadId k) (task : Option (TaskId k)) (b : Board k) :
    Option (Board k) :=
  match task with
  | none => some (b.idle h)
  | some t => if b.MayAssign h t then some (b.run h t) else none

/-- The policy hears a call, and assigns tasks. -/
noncomputable def hear (call : HookCall k) (b : Board k) : Option (Board k) :=
  (policy (call :: b.heard)).foldlM (fun b a => b.assign a.1 a.2)
    { b with heard := call :: b.heard }

/-- A taking. -/
noncomputable def take (p : PrimId k) (t : TaskId k) (b : Board k) : Option (Board k) :=
  if b.MayOwn p t then
    some { b with
      taken := Function.update b.taken p (b.taken p + 1)
      owned := Function.update b.owned t (b.owned t + 1) }
  else none

/-- A release of ownership; it fails when a counter is null. -/
noncomputable def giveBack (p : PrimId k) (t : TaskId k) (b : Board k) :
    Option (BitVec 8 × Board k) :=
  if b.MayOwn p t then
    if b.taken p = 0 then some (1, b)
    else
      let b := { b with taken := Function.update b.taken p (b.taken p - 1) }
      if b.owned t = 0 then some (1, b)
      else some (0, { b with owned := Function.update b.owned t (b.owned t - 1) })
  else none

/-- The end of an override, if any. -/
noncomputable def unoverride (p : PrimId k) (b : Board k) : Option (Board k) :=
  match b.overrides p with
  | none => some b
  | some t => (b.release p t).hear policy (.overrideReleased p t)

/-- An override. -/
noncomputable def overrideTask (p : PrimId k) (t : TaskId k) (b : Board k) : Option (Board k) :=
  if b.MayOwn p t then do
    let b ← b.unoverride policy p
    (b.override p t).hear policy (.overrideTaken p t)
  else none

/-- The task waits for the primitive. -/
noncomputable def stopTask (p : PrimId k) (t : TaskId k) (b : Board k) : Option (Board k) :=
  if b.MayStop p t then (b.stop p t).hear policy (.stopped t) else none

/-- The task of the thread waits for the primitive. -/
noncomputable def stopThread (p : PrimId k) (h : ThreadId k) (b : Board k) : Option (Board k) :=
  if b.threads h = true then do
    let t ← b.running h
    let b ← b.stopTask policy p t
    b.hear policy (.assignOne h)
  else none

/-- The task is ready again. -/
noncomputable def resumeTask (t : TaskId k) (b : Board k) : Option (Board k) :=
  if b.MayResume t then (b.resume t).hear policy (.resumed t) else none

/-- The task of the thread takes the mutex. -/
noncomputable def mutexAcquire (p : PrimId k) (h : ThreadId k) (b : Board k) : Option (Board k) := do
  let t ← b.running h
  let b ← b.take p t
  b.overrideTask policy p t

/-- The task of the thread takes the mutex or waits for it. -/
noncomputable def mutexLock (p : PrimId k) (h : ThreadId k) (b : Board k) : Option (Board k) :=
  if b.taken p = 0 then b.mutexAcquire policy p h else b.stopThread policy p h

/-- A mutex for which tasks wait is not released: the code finds no task to resume. -/
noncomputable def mutexUnlock (p : PrimId k) (h : ThreadId k) (b : Board k) :
    Option (BitVec 8 × Board k) :=
  match b.overrides p with
  | none => some (1, b)
  | some t =>
      if b.running h = some t then do
        let x ← b.giveBack p t
        if x.1 = 0 then do
          let b ← x.2.unoverride policy p
          if b.waiting p = some [] then some (0, b) else none
        else some (3, x.2)
      else some (2, b)

/-- The task of the thread takes the semaphore or waits for it. -/
noncomputable def semTake (p : PrimId k) (h : ThreadId k) (b : Board k) : Option (Board k) :=
  if b.taken p = b.bound p then b.stopThread policy p h else b.running h >>= (b.take p ·)

/-- The same as for a mutex: a semaphore for which tasks wait is not released. -/
noncomputable def semRelease (p : PrimId k) (h : ThreadId k) (b : Board k) :
    Option (BitVec 8 × Board k) := do
  let t ← b.running h
  let x ← b.giveBack p t
  if x.1 = 0 then
    if x.2.waiting p = some [] then some (0, x.2) else none
  else some (1, x.2)

/-- The tasks that wait are ready again, in their order, and the primitive is forgotten. -/
noncomputable def unregisterPrim (p : PrimId k) (b : Board k) : Option (BitVec 8 × Board k) := do
  let b ← ((b.waiting p).getD []).foldlM (fun b t => b.resumeTask policy t) b
  let b ← b.unoverride policy p
  some (if b.taken p = 0 then 0 else 1, b.dropPrim p)

/-- The tasks of the process that are ready wait for its primitive. -/
noncomputable def pauseProcess (c : ProcessId k) (b : Board k) : Option (Board k) :=
  if (b.members c).isSome ∧ c ∉ b.paused ∧ b.opened = true then do
    let b ← ((b.members c).getD []).foldlM
      (fun b t => if t ∈ b.ready then b.stopTask policy (pPrim c) t else some b) b
    some { b with paused := b.paused ∪ {c} }
  else none

/-- A process is resumed when no task waits for its primitive only. -/
noncomputable def resumeProcess (c : ProcessId k) (b : Board k) : Option (Board k) :=
  if (b.members c).isSome ∧ c ∈ b.paused ∧ b.opened = true ∧ b.waiting (pPrim c) = some [] then
    some { b with paused := b.paused \ {c} }
  else none

/-- A commit is opened. -/
def openCommit (b : Board k) : Option (Board k) :=
  if b.opened = false then some { b with opened := true, index := b.index + 1 } else none

/-- A commit is closed, and the threads get their tasks. -/
noncomputable def closeCommit (b : Board k) : Option (Board k) :=
  if b.opened = true then do
    let b ← ({ b with opened := false } : Board k).hear policy .schedule
    b.hear policy .assignAll
  else none

/-- The value of a function that returns none. -/
def quietly (x : Option (Board k)) : Option (BitVec 8 × Board k) := x.map (0, ·)

/-- Execute a call. -/
noncomputable def exec : Call k → Board k → Option (BitVec 8 × Board k)
  | .registerProcess c, b => some (0, (b.addProcess c).addPrim c (pPrim c))
  | .registerThread h, b => some (0, b.addThread h)
  | .registerTask c t, b => if (b.members c).isSome then some (0, b.addTask c t) else none
  | .registerPrim c p, b => some (0, b.addPrim c p)
  | .unregisterPrim p, b => b.unregisterPrim policy p
  | .openCommit, b => quietly b.openCommit
  | .closeCommit, b => quietly (b.closeCommit policy)
  | .pauseProcess c, b => quietly (b.pauseProcess policy c)
  | .resumeProcess c, b => quietly (b.resumeProcess c)
  | .assignTask h t, b => quietly (b.assign h t)
  | .takeOwnership p t, b => quietly (b.take p t)
  | .releaseOwnership p t, b => b.giveBack p t
  | .overrideTask p t, b => quietly (b.overrideTask policy p t)
  | .unoverrideTask p, b => quietly (b.unoverride policy p)
  | .resumeTask t, b => quietly (b.resumeTask policy t)
  | .stopThread p h, b => quietly (b.stopThread policy p h)
  | .mutexCtor p c, b => some (0, b.addPrim c p)
  | .mutexLock p h, b => quietly (b.mutexLock policy p h)
  | .mutexLockNb p h, b => if b.taken p = 0 then (b.mutexAcquire policy p h).map (1, ·) else some (0, b)
  | .mutexUnlock p h, b => b.mutexUnlock policy p h
  | .semCtor p n c, b =>
      some (0, ({ b with bound := Function.update b.bound p n } : Board k).addPrim c p)
  | .semTake p h, b => quietly (b.semTake policy p h)
  | .semTakeNb p h, b =>
      if b.taken p = b.bound p then some (0, b) else (b.running h >>= (b.take p ·)).map (1, ·)
  | .semRelease p h, b => b.semRelease p h
  -- the calls after which an object is not registered any more
  | .unregisterProcess _, _ | .unregisterThread _, _ | .unregisterTask _, _ => none

end functions

end Board

/-! ### Runs -/

namespace Objects

/-- Registrations are made on objects that are not registered. -/
def fresh (O : Objects k) : Call k → Bool
  | .registerProcess c => !O.process c && !O.prim (pPrim c)
  | .registerThread h => !O.thread h
  | .registerTask _ t => !O.task t
  | .registerPrim _ p | .mutexCtor p _ | .semCtor p _ _ => !O.prim p
  | _ => true

/-- The primitive a call works on is registered. -/
def onRegistered (O : Objects k) : Call k → Bool
  | .pauseProcess c | .resumeProcess c => O.prim (pPrim c)
  | .unregisterPrim p | .takeOwnership p _ | .releaseOwnership p _ | .overrideTask p _
  | .unoverrideTask p | .stopThread p _ | .mutexLock p _ | .mutexLockNb p _ | .mutexUnlock p _
  | .semTake p _ | .semTakeNb p _ | .semRelease p _ => O.prim p
  | _ => true

/-- The objects registered by the calls of a run. -/
def ofHist (hist : Hist k) : Objects k :=
  ⟨taskRegistered hist, primRegistered hist, processRegistered hist, threadRegistered hist⟩

theorem fresh_ofHist (hist : Hist k) (c : Call k) : (ofHist hist).fresh c = Sched.fresh hist c := by
  cases c <;> rfl

theorem onRegistered_ofHist (hist : Hist k) (c : Call k) :
    (ofHist hist).onRegistered c = Sched.onRegistered hist c := by
  cases c <;> rfl

end Objects

/-- The calls that register objects once, work on registered primitives and retire no object. -/
def Board.Admits (b : Board k) (c : Call k) : Prop :=
  c.retires = false ∧ b.objects.fresh c = true ∧ b.objects.onRegistered c = true

end KernelTk.Sched
