import KernelTk.Sched.Execution

/-! # Activity

`task_active` and `thread_active` compare a stored commit index with the current one: a task or a thread
is active when it was assigned in the commit that is current, and opening the next commit makes all of
them idle without visiting them.

* **What is read.** `State.activity` is the part of the memory that the two functions read: the commits of
  tasks and threads, the task that a thread executes, and the index of the scheduler.  It is apart from
  the pointers that the lists depend on.
* **Effects.** A move changes the activity by `Move.activity` and nothing else (`Move.apply_activity`): an
  assignment makes a task and a thread active, a departure from a history makes the thread that executed
  the task execute nothing, an opening changes the index, a registration stores `-1`, and the
  other moves leave it.
* **Departures.** `Activity.leave` is the one effect that depends on a pointer, the thread of the task that
  leaves: a thread that still executes a task afterwards executed it before, and it is not the task
  that left (`Activity.leave_tTask`). -/

namespace KernelTk.Sched

open Transition

variable {k : Machine} {policy : Policy k} {hist : Hist k} {s s' x : State k} {c : Call k}
  {r : BitVec 8} {t : TaskId k} {h : ThreadId k}

/-- What `task_active` and `thread_active` read. -/
@[ext] structure Activity (k : Machine) where
  tTask : ThreadId k → Option (TaskId k)
  threadCommit : ThreadId k → Usize k
  tCommit : TaskId k → Usize k
  index : Usize k

/-- The activity of a memory. -/
def State.activity (s : State k) : Activity k where
  tTask := fun h => (s.thread h).tTask
  threadCommit := fun h => (s.thread h).tCommit
  tCommit := fun t => (s.task t).tCommit
  index := s.sched.sCommitIndex

namespace Activity

variable (A : Activity k)

/-- The thread executes nothing. -/
def idle (h : ThreadId k) : Activity k :=
  { A with
    tTask := Function.update A.tTask h none
    threadCommit := Function.update A.threadCommit h (-1) }

/-- The task leaves the history of `o`. -/
def leave (o : Option (ThreadId k)) (t : TaskId k) : Activity k :=
  match o with
  | none => A
  | some g => if A.tTask g = some t then A.idle g else A

/-- The thread executes the task. -/
def run (h : ThreadId k) (t : TaskId k) : Activity k :=
  { A with
    tTask := Function.update A.tTask h (some t)
    threadCommit := Function.update A.threadCommit h A.index
    tCommit := Function.update A.tCommit t A.index }

@[simp] theorem leave_tCommit (o : Option (ThreadId k)) (t : TaskId k) :
    (A.leave o t).tCommit = A.tCommit := by
  cases o with
  | none => rfl
  | some g =>
      unfold leave
      dsimp only
      split <;> rfl

@[simp] theorem leave_index (o : Option (ThreadId k)) (t : TaskId k) :
    (A.leave o t).index = A.index := by
  cases o with
  | none => rfl
  | some g =>
      unfold leave
      dsimp only
      split <;> rfl

/-- A thread that executes a task after a departure executed it before, and it is not the task
that left. -/
theorem leave_tTask {o : Option (ThreadId k)} {t u : TaskId k} {h : ThreadId k}
    (hu : (A.leave o t).tTask h = some u) :
    A.tTask h = some u ∧ (A.leave o t).threadCommit h = A.threadCommit h ∧
      (u = t → o ≠ some h) := by
  cases o with
  | none => exact ⟨hu, rfl, fun _ => nofun⟩
  | some g =>
      unfold leave at hu ⊢
      dsimp only at hu ⊢
      split at hu
      · rename_i hg
        by_cases hgh : h = g
        · subst hgh
          simp [idle] at hu
        · rw [if_pos hg]
          simp only [idle, Function.update_of_ne hgh] at hu ⊢
          exact ⟨hu, trivial, fun _ e => hgh (Option.some.inj e).symm⟩
      · rename_i hg
        rw [if_neg hg]
        refine ⟨hu, rfl, ?_⟩
        rintro rfl e
        obtain rfl := Option.some.inj e
        exact hg hu

end Activity

namespace Move

/-- What a move does to the activity; `f` gives the thread of a task. -/
def activity (f : TaskId k → Option (ThreadId k)) (A : Activity k) : Move k → Activity k
  | .edit e => match e with
      | .commit y => { A with index := y.sCommitIndex }
      | _ => A
  | .assign h t => (if f t = some h then A else A.leave (f t) t).run h t
  | .idle h | .addThread h => A.idle h
  | .leave t => A.leave (f t) t
  | .addTask _ t => { A with tCommit := Function.update A.tCommit t (-1) }
  | _ => A

end Move

theorem activity_eq_of_ledger (e : s'.ledger = s.ledger) : s'.activity = s.activity := by
  apply Activity.ext
  · exact congrArg Ledger.tTask e
  · exact congrArg Ledger.threadCommit e
  · exact congrArg Ledger.tCommit e
  · exact congrArg (fun l => l.sched.sCommitIndex) e

theorem leave_activity (t : TaskId k) (s : State k) :
    (threadUnregisterTask t s).activity = s.activity.leave (s.task t).tThread t := by
  unfold threadUnregisterTask
  cases (s.task t).tThread with
  | none => rfl
  | some g =>
      dsimp only [Activity.leave]
      have e : (((s.modThread g fun x => { x with tHistorySize := x.tHistorySize - 1 }).modTask t
          fun x => { x with tThread := none }).modLinks fun l => l.remove (.tHistory t)).activity =
          s.activity := by
        ext x : 2
        · by_cases hx : x = g <;> simp [State.activity, hx]
        · by_cases hx : x = g <;> simp [State.activity, hx]
        · by_cases hx : x = t <;> simp [State.activity, hx]
        · rfl
      generalize State.modLinks _ _ = y at e ⊢
      have ht : (y.thread g).tTask = s.activity.tTask g := congrFun (congrArg Activity.tTask e) g
      rw [ht]
      split
      · rw [← e]
        ext x : 2
        · by_cases hx : x = g <;> simp [State.activity, Activity.idle, hx]
        · by_cases hx : x = g <;> simp [State.activity, Activity.idle, hx]
        · rfl
        · rfl
      · exact e

theorem assignTask_activity (h : ThreadId k) (t : TaskId k) (s : State k) :
    (assignTask h t s).activity =
      (if (s.task t).tThread = some h then s.activity
        else s.activity.leave (s.task t).tThread t).run h t := by
  have e : (if (s.task t).tThread = some h then s else threadTransferTask h t s).activity =
      if (s.task t).tThread = some h then s.activity
        else s.activity.leave (s.task t).tThread t := by
    split
    · rfl
    · rw [← leave_activity]
      unfold threadTransferTask
      ext x : 2
      · by_cases hx : x = h <;> simp [State.activity, hx]
      · by_cases hx : x = h <;> simp [State.activity, hx]
      · by_cases hx : x = t <;> simp [State.activity, hx]
      · rfl
  unfold assignTask
  rw [← e]
  generalize (if (s.task t).tThread = some h then s else threadTransferTask h t s) = y
  ext x : 2
  · by_cases hx : x = h <;> simp [State.activity, Activity.run, hx]
  · by_cases hx : x = h <;> simp [State.activity, Activity.run, hx]
  · by_cases hx : x = t <;> simp [State.activity, Activity.run, hx]
  · rfl

theorem Move.apply_activity (m : Move k) (s : State k) :
    (m.apply s).activity = m.activity s.pointers.tThread s.activity := by
  cases m with
  | edit e =>
      cases e with
      | stop p t =>
          show (stopTask p t s).activity = s.activity
          exact activity_eq_of_ledger (stopTask_ledger s p t)
      | resume p t =>
          show (resumeTask p t s).activity = s.activity
          exact activity_eq_of_ledger (resumeTask_ledger s p t)
      | override p t =>
          show (overrideTask p t s).activity = s.activity
          exact activity_eq_of_ledger (overrideTask_ledger s p t)
      | unoverride p t =>
          show (unOverride p t s).activity = s.activity
          exact activity_eq_of_ledger (unOverride_ledger s p t)
      | take p t | release p t =>
          ext x : 2
          · rfl
          · rfl
          · by_cases hx : x = t <;>
              simp [Move.apply, Move.activity, Edit.report?, Edit.apply, takeOwnership,
                releaseOwnership, releasePrim, State.activity, hx]
          · rfl
      | releasePrim | processStatus | commit => rfl
  | assign h t => exact assignTask_activity h t s
  | leave t => exact leave_activity t s
  | idle h | addThread h =>
      ext x : 2
      · by_cases hx : x = h <;>
          simp [Move.apply, Move.activity, schedRegisterThread, State.activity, Activity.idle, hx]
      · by_cases hx : x = h <;>
          simp [Move.apply, Move.activity, schedRegisterThread, State.activity, Activity.idle, hx]
      · rfl
      · rfl
  | addTask c t =>
      ext x : 2
      · rfl
      · rfl
      · by_cases hx : x = t <;> simp [Move.apply, Move.activity, registerTask, State.activity, hx]
      · rfl
  | forgetThread h =>
      ext x : 2
      · by_cases hx : x = h <;>
          simp [Move.apply, Move.activity, Sched.forgetThread, State.activity, hx]
      · by_cases hx : x = h <;>
          simp [Move.apply, Move.activity, Sched.forgetThread, State.activity, hx]
      · rfl
      · rfl
  | report | unlink | unlinkUnsafe | uncount | addProcess | addPrim | setBound | forgetPrim
  | forgetProcess => rfl

end KernelTk.Sched
