import KernelTk.Sched.Invariant

/-! # Ownership counters

* **Counters.** A taking increases `p_nb_owning_tasks` of the primitive and
  `t_nb_owned_primitives` of the task; a release decreases both.  No other function changes
  them, but registrations, which clear them: `State.counters` is a part of the memory that edits,
  walks and calls to the policy leave as it is, one lemma a function.
* **Events.** `took e` and `released e` are the primitive and the task of a successful taking or
  release, read off the value returned and, for the calls that may stop the task instead, off
  its `t_stopper`.  They are what a kernel can observe of a call.
* **Half releases.** A release that finds the counter of the primitive not null and the one of
  the task null decreases the first one and fails (`HalfRelease`): the function returns in the middle of
  its two assignments.
* **One call.** `exec_ownership` : a call that registers nothing keeps the counters, takes, releases, or
  releases half, and the event says which (`OwnershipStep`); `exec_registers` is the case of the
  registrations.  The accounting of the following modules is done on these steps, and never looks at a
  function of the source again. -/

namespace KernelTk.Sched

open Transition

variable {k : Machine} {env : Env k} {policy : Policy k} {hist : Hist k} {s s' : State k} {p : PrimId k}
  {t : TaskId k} {h : ThreadId k} {c : Call k} {r : BitVec 8}

/-- The ownership counters, and the bounds of the semaphores. -/
@[ext] structure Counters (k : Machine) where
  pNb : PrimId k → Usize k
  tNb : TaskId k → Usize k
  bound : PrimId k → Usize k

namespace Counters

variable (C : Counters k)

def take (p : PrimId k) (t : TaskId k) : Counters k :=
  { C with
    pNb := Function.update C.pNb p (C.pNb p + 1)
    tNb := Function.update C.tNb t (C.tNb t + 1) }

def release (p : PrimId k) (t : TaskId k) : Counters k :=
  { C with
    pNb := Function.update C.pNb p (C.pNb p - 1)
    tNb := Function.update C.tNb t (C.tNb t - 1) }

/-- The primitive's half of a release. -/
def releasePrim (p : PrimId k) : Counters k :=
  { C with pNb := Function.update C.pNb p (C.pNb p - 1) }

end Counters

def State.counters (s : State k) : Counters k :=
  ⟨s.ledger.pNbOwningTasks, s.ledger.tNbOwnedPrimitives, s.ledger.sNbOwners⟩

/-! ### What does not change the counters -/

theorem counters_of_ledger (e : s'.ledger = s.ledger) : s'.counters = s.counters := by
  simp only [State.counters, e]

theorem Assigned.counters (A : Assigned s s') : s'.counters = s.counters := by
  ext x : 2
  · exact congrArg Sprim.pNbOwningTasks (congrFun A.prim x)
  · exact A.tNbOwnedPrimitives x
  · exact congrFun A.sNbOwners x

theorem callHook_counters {sched : Bool} {call : HookCall k}
    (he : callHook env sched call s = .ok s') : s'.counters = s.counters :=
  (callHook_assigned he).2.1.counters

theorem primitiveStopTask_counters {task : Option (TaskId k)}
    (he : primitiveStopTask env p task s = .ok s') : s'.counters = s.counters := by
  obtain ⟨t, c, -, -, -, he⟩ := primitiveStopTask_ok.mp he
  exact (callHook_counters he).trans (counters_of_ledger (stopTask_ledger s p t))

theorem primitiveStopThread_counters (he : primitiveStopThread env p h s = .ok s') :
    s'.counters = s.counters := by
  obtain ⟨-, s₁, h₁, he⟩ := primitiveStopThread_ok.mp he
  exact (callHook_counters he).trans (primitiveStopTask_counters h₁)

theorem primitiveResumeTask_counters {a : Addr k} (he : primitiveResumeTask env a s = .ok s') :
    s'.counters = s.counters := by
  obtain ⟨t, c, p, -, -, -, -, he⟩ := primitiveResumeTask_ok.mp he
  exact (callHook_counters he).trans (counters_of_ledger (resumeTask_ledger s p t))

theorem primUnOverride_counters (he : primUnOverride env p s = .ok s') :
    s'.counters = s.counters := by
  rcases primUnOverride_ok.mp he with ⟨-, rfl⟩ | ⟨t, c, -, -, he⟩
  · rfl
  · exact (callHook_counters he).trans (counters_of_ledger (unOverride_ledger s p t))

theorem primitiveOverrideTask_counters {task : Option (TaskId k)}
    (he : primitiveOverrideTask env p task s = .ok s') : s'.counters = s.counters := by
  obtain ⟨t, c, s₁, -, -, -, h₁, he⟩ := primitiveOverrideTask_ok.mp he
  calc s'.counters = (overrideTask p t s₁).counters := callHook_counters he
    _ = s₁.counters := counters_of_ledger (overrideTask_ledger s₁ p t)
    _ = s.counters := primUnOverride_counters h₁

theorem threadAssignTask_counters {task : Option (TaskId k)}
    (he : threadAssignTask env h task s = .ok s') : s'.counters = s.counters :=
  (threadAssignTask_assigned he).1.counters

/-- What the body of a loop does not change, the loop does not change. -/
theorem forEachNode_counters {head : Node k} {body : Node k → State k → Except Fault (State k)}
    (hbody : ∀ {n x x'}, body n x = .ok x' → x'.counters = x.counters)
    (he : forEachNode head body s = .ok s') : s'.counters = s.counters :=
  CircularList.walk_keeps (I := fun x => x.counters = s.counters)
    (fun hx hb => (hbody hb).trans hx) rfl he

theorem pauseTask_counters {d : ProcessId k} {n : Node k} (he : pauseTask env d n s = .ok s') :
    s'.counters = s.counters := by
  simp only [pauseTask, bind_eq_ok] at he
  obtain ⟨t, -, he⟩ := he
  split at he
  · exact primitiveStopTask_counters he
  · exact congrArg State.counters (Except.ok.inj he).symm

/-! ### What changes them -/

theorem takeOwnership_counters (s : State k) (p : PrimId k) (t : TaskId k) :
    (takeOwnership p t s).counters = s.counters.take p t := by
  ext x : 2
  · by_cases hx : x = p <;> simp [State.counters, State.ledger, takeOwnership, Counters.take, hx]
  · by_cases hx : x = t <;> simp [State.counters, State.ledger, takeOwnership, Counters.take, hx]
  · rfl

theorem releasePrim_counters (s : State k) (p : PrimId k) :
    (releasePrim p s).counters = s.counters.releasePrim p := by
  ext x : 2
  · by_cases hx : x = p <;>
      simp [State.counters, State.ledger, releasePrim, Counters.releasePrim, hx]
  · rfl
  · rfl

theorem releaseOwnership_counters (s : State k) (p : PrimId k) (t : TaskId k) :
    (releaseOwnership p t s).counters = s.counters.release p t := by
  ext x : 2
  · by_cases hx : x = p <;>
      simp [State.counters, State.ledger, releaseOwnership, releasePrim, Counters.release, hx]
  · by_cases hx : x = t <;>
      simp [State.counters, State.ledger, releaseOwnership, releasePrim, Counters.release, hx]
  · rfl

/-! ### Events -/

/-- The primitive and the task of the taking that a call tries. -/
def Call.taking (s : State k) : Call k → Option (PrimId k × TaskId k)
  | .takeOwnership p t => some (p, t)
  | .mutexLock p h | .mutexLockNb p h | .semTake p h | .semTakeNb p h =>
      (s.thread h).tTask.map (p, ·)
  | _ => none

/-- The primitive and the task of the release that a call tries. -/
def Call.releasing (s : State k) : Call k → Option (PrimId k × TaskId k)
  | .releaseOwnership p t => some (p, t)
  | .mutexUnlock p h =>
      if (s.thread h).tTask = (s.prim p).pOverridden then (s.thread h).tTask.map (p, ·) else none
  | .semRelease p h => (s.thread h).tTask.map (p, ·)
  | _ => none

/-- The successful taking of an event: the call has returned `1`, or nothing, without stopping
the task. -/
def took (e : Event (State k) (Call k) (BitVec 8)) : Option (PrimId k × TaskId k) :=
  match e.call with
  | .mutexLockNb _ _ | .semTakeNb _ _ => if e.ret = 1 then e.call.taking e.pre else none
  | _ => (e.call.taking e.pre).filter fun x =>
      (e.post.task x.2).tStopper = (e.pre.task x.2).tStopper

/-- The successful release of an event. -/
def released (e : Event (State k) (Call k) (BitVec 8)) : Option (PrimId k × TaskId k) :=
  if e.ret = 0 then e.call.releasing e.pre else none

/-- A call that releases a primitive whose counter is not null, for a task whose counter is. -/
def HalfRelease (s : State k) (c : Call k) : Prop :=
  ∃ p t, c.releasing s = some (p, t) ∧ (s.prim p).pNbOwningTasks ≠ 0 ∧
    (s.task t).tNbOwnedPrimitives = 0

instance (s : State k) (c : Call k) : Decidable (HalfRelease s c) :=
  decidable_of_iff (∃ x ∈ c.releasing s, (s.prim x.1).pNbOwningTasks ≠ 0 ∧
    (s.task x.2).tNbOwnedPrimitives = 0) (by simp [HalfRelease, Prod.exists])

/-- What a call does to the counters. -/
inductive OwnershipStep (s : State k) (c : Call k) (r : BitVec 8) (s' : State k) : Prop
  | take (p : PrimId k) (t : TaskId k) (htook : took ⟨s, c, r, s'⟩ = some (p, t))
      (hreleased : released ⟨s, c, r, s'⟩ = none) (hrel : s.Related p t)
      (hcounters : s'.counters = s.counters.take p t)
  | release (p : PrimId k) (t : TaskId k) (htook : took ⟨s, c, r, s'⟩ = none)
      (hreleased : released ⟨s, c, r, s'⟩ = some (p, t)) (hrel : s.Related p t)
      (hp : (s.prim p).pNbOwningTasks ≠ 0) (ht : (s.task t).tNbOwnedPrimitives ≠ 0)
      (hcounters : s'.counters = s.counters.release p t)
  | half (p : PrimId k) (t : TaskId k) (htook : took ⟨s, c, r, s'⟩ = none)
      (hreleased : released ⟨s, c, r, s'⟩ = none) (htry : c.releasing s = some (p, t))
      (hp : (s.prim p).pNbOwningTasks ≠ 0) (ht : (s.task t).tNbOwnedPrimitives = 0)
      (hcounters : s'.counters = s.counters.releasePrim p)
  | keep (htook : took ⟨s, c, r, s'⟩ = none) (hreleased : released ⟨s, c, r, s'⟩ = none)
      (hnull : ∀ p t, c.releasing s = some (p, t) → (s.prim p).pNbOwningTasks = 0)
      (hcounters : s'.counters = s.counters)

theorem tStopper_stopThread (he : primitiveStopThread ⟨true, policy⟩ p h s = .ok s') :
    ∃ t, (s.thread h).tTask = some t ∧ (s.task t).tStopper = none ∧
      (s'.task t).tStopper = some p := by
  obtain ⟨-, s₁, h₁, he⟩ := primitiveStopThread_ok.mp he
  obtain ⟨t, c, ht, -, hchecks, h₁⟩ := primitiveStopTask_ok.mp h₁
  refine ⟨t, ht, (hchecks rfl).2.2, ?_⟩
  have h0 := congrFun (congrArg Pointers.tStopper (stopTask_pointers s p t)) t
  rw [(callHook_assigned he).2.1.tStopper, (callHook_assigned h₁).2.1.tStopper]
  simpa [State.pointers, Pointers.stop] using h0

theorem tStopper_takeOwnership (s : State k) (p : PrimId k) (t u : TaskId k) :
    ((takeOwnership p t s).task u).tStopper = (s.task u).tStopper :=
  congrFun (congrArg Pointers.tStopper (takeOwnership_pointers s p t)) u

theorem mutexAcquire_step (he : mutexAcquire ⟨true, policy⟩ p h s = .ok s') : ∃ t,
    (s.thread h).tTask = some t ∧ s.Related p t ∧ s'.counters = s.counters.take p t ∧
      (s'.task t).tStopper = (s.task t).tStopper := by
  obtain ⟨t, ht, hchecks, he⟩ := mutexAcquire_ok.mp he
  refine ⟨t, ht, (hchecks rfl).1, ?_, ?_⟩
  · rw [primitiveOverrideTask_counters he, takeOwnership_counters]
  · rw [primitiveOverrideTask_tStopper t he, tStopper_takeOwnership]

theorem primitiveReleaseOwnership_step {task : Option (TaskId k)} {e : BitVec 8}
    (he : primitiveReleaseOwnership ⟨true, policy⟩ p task s = .ok (e, s')) : ∃ t, task = some t ∧
      s.Related p t ∧
      ((e = 0 ∧ (s.prim p).pNbOwningTasks ≠ 0 ∧ (s.task t).tNbOwnedPrimitives ≠ 0 ∧
          s'.counters = s.counters.release p t) ∨
        (e ≠ 0 ∧ (s.prim p).pNbOwningTasks ≠ 0 ∧ (s.task t).tNbOwnedPrimitives = 0 ∧
          s'.counters = s.counters.releasePrim p) ∨
        (e ≠ 0 ∧ (s.prim p).pNbOwningTasks = 0 ∧ s'.counters = s.counters)) := by
  obtain ⟨t, ht, hchecks, hcases⟩ := primitiveReleaseOwnership_ok.mp he
  refine ⟨t, ht, (hchecks rfl).1, ?_⟩
  rcases hcases with ⟨hp, rfl, rfl⟩ | ⟨hp, h0, rfl, rfl⟩ | ⟨hp, h0, rfl, rfl⟩
  · exact .inr (.inr ⟨by decide, hp, rfl⟩)
  · exact .inr (.inl ⟨by decide, hp, h0, releasePrim_counters s p⟩)
  · exact .inl ⟨rfl, hp, h0, releaseOwnership_counters s p t⟩

/-- **What a call does to the counters**, unless it registers or unregisters an object. -/
theorem exec_ownership (hreg : c.registers = false)
    (he : exec ⟨true, policy⟩ c s = .ok (r, s')) : OwnershipStep s c r s' := by
  cases c with
  | registerProcess | unregisterProcess | registerThread | unregisterThread | registerTask
  | unregisterTask | registerPrim | unregisterPrim | mutexCtor | semCtor => cases hreg
  | openCommit =>
      obtain ⟨-, rfl⟩ := schedOpenCommit_ok.mp (void_eq_ok.mp he).2
      exact .keep rfl (ite_self _) nofun rfl
  | closeCommit =>
      obtain ⟨-, s₁, h₁, h₂⟩ := schedCloseCommit_ok.mp (void_eq_ok.mp he).2
      have hc : s₁.counters = s.counters := (callHook_counters h₁ :)
      exact .keep rfl (ite_self _) nofun ((callHook_counters h₂).trans hc)
  | pauseProcess d =>
      obtain ⟨-, s₁, h₁, rfl⟩ := schedPauseProcess_ok.mp (void_eq_ok.mp he).2
      have hc : s₁.counters = s.counters := forEachNode_counters pauseTask_counters h₁
      exact .keep rfl (ite_self _) nofun hc
  | resumeProcess d =>
      obtain ⟨-, s₁, h₁, rfl⟩ := schedResumeProcess_ok.mp (void_eq_ok.mp he).2
      have hc : s₁.counters = s.counters := forEachNode_counters primitiveResumeTask_counters h₁
      exact .keep rfl (ite_self _) nofun hc
  | assignTask h t =>
      exact .keep rfl (ite_self _) nofun (threadAssignTask_counters (void_eq_ok.mp he).2)
  | overrideTask p t =>
      exact .keep rfl (ite_self _) nofun (primitiveOverrideTask_counters (void_eq_ok.mp he).2)
  | unoverrideTask p =>
      exact .keep rfl (ite_self _) nofun
        (primUnOverride_counters (primitiveUnoverrideTask_ok.mp (void_eq_ok.mp he).2))
  | resumeTask t =>
      exact .keep rfl (ite_self _) nofun (primitiveResumeTask_counters (void_eq_ok.mp he).2)
  | stopThread p h =>
      exact .keep rfl (ite_self _) nofun (primitiveStopThread_counters (void_eq_ok.mp he).2)
  | takeOwnership p t =>
      obtain ⟨u, hu, hchecks, rfl⟩ := primitiveTakeOwnership_ok.mp (void_eq_ok.mp he).2
      obtain rfl := Option.some.inj hu
      refine .take p t ?_ (ite_self _) (hchecks rfl).1 (takeOwnership_counters s p t)
      simp [took, Call.taking, tStopper_takeOwnership]
  | mutexLock p h =>
      rcases schedMutexLock_ok.mp (void_eq_ok.mp he).2 with ⟨-, he⟩ | ⟨-, he⟩
      · obtain ⟨t, ht, h0, h1⟩ := tStopper_stopThread he
        refine .keep ?_ (ite_self _) nofun (primitiveStopThread_counters he)
        simp [took, Call.taking, ht, h0, h1]
      · obtain ⟨t, ht, hrel, hcounters, hs⟩ := mutexAcquire_step he
        refine .take p t ?_ (ite_self _) hrel hcounters
        simp [took, Call.taking, ht, hs]
  | mutexLockNb p h =>
      rcases schedMutexLockNb_ok.mp he with ⟨-, rfl, rfl⟩ | ⟨-, rfl, hacq⟩
      · exact .keep rfl rfl nofun rfl
      · obtain ⟨t, ht, hrel, hcounters, hs⟩ := mutexAcquire_step hacq
        refine .take p t ?_ rfl hrel hcounters
        simp [took, Call.taking, ht]
  | semTake p h =>
      rcases schedSemTake_ok.mp (void_eq_ok.mp he).2 with ⟨-, he⟩ | ⟨-, he⟩
      · obtain ⟨t, ht, h0, h1⟩ := tStopper_stopThread he
        refine .keep ?_ (ite_self _) nofun (primitiveStopThread_counters he)
        simp [took, Call.taking, ht, h0, h1]
      · obtain ⟨t, ht, hchecks, rfl⟩ := primitiveTakeOwnership_ok.mp he
        refine .take p t ?_ (ite_self _) (hchecks rfl).1 (takeOwnership_counters s p t)
        simp [took, Call.taking, ht, tStopper_takeOwnership]
  | semTakeNb p h =>
      rcases schedSemTakeNb_ok.mp he with ⟨-, rfl, rfl⟩ | ⟨-, rfl, htake⟩
      · exact .keep rfl rfl nofun rfl
      · obtain ⟨t, ht, hchecks, rfl⟩ := primitiveTakeOwnership_ok.mp htake
        refine .take p t ?_ rfl (hchecks rfl).1 (takeOwnership_counters s p t)
        simp [took, Call.taking, ht]
  | releaseOwnership p t =>
      obtain ⟨u, hu, hrel, hcases⟩ := primitiveReleaseOwnership_step he
      obtain rfl := Option.some.inj hu
      rcases hcases with ⟨rfl, hp, h0, hc⟩ | ⟨hr, hp, h0, hc⟩ | ⟨hr, hp, hc⟩
      · exact .release p t rfl rfl hrel hp h0 hc
      · exact .half p t rfl (if_neg hr) rfl hp h0 hc
      · refine .keep rfl (if_neg hr) (fun q u hqu => ?_) hc
        obtain ⟨rfl, rfl⟩ := Prod.mk.inj (Option.some.inj hqu)
        exact hp
  | mutexUnlock p h =>
      rcases schedMutexUnlock_ok.mp he with ⟨ho, rfl, rfl⟩ | ⟨-, hne, rfl, rfl⟩ |
        ⟨t, e, s₁, ho, ht, h₁, hcases⟩
      · refine .keep rfl rfl (fun q u hqu => ?_) rfl
        obtain ⟨heq, hqu⟩ := Option.ite_none_right_eq_some.mp hqu
        simp [heq, ho] at hqu
      · refine .keep rfl rfl (fun q u hqu => ?_) rfl
        exact absurd (Option.ite_none_right_eq_some.mp hqu).1 hne
      · have htry : (Call.mutexUnlock p h).releasing s = some (p, t) := by
          simp [Call.releasing, ho, ht]
        obtain ⟨u, hu, hrel, hrelease⟩ := primitiveReleaseOwnership_step h₁
        obtain rfl := Option.some.inj hu
        rcases hcases with ⟨hr, rfl, rfl⟩ | ⟨rfl, rfl, s₂, h₂, h₃⟩
        · rcases hrelease with ⟨h0, -⟩ | ⟨-, hp, h0, hc⟩ | ⟨-, hp, hc⟩
          · exact absurd h0 hr
          · exact .half p t rfl rfl htry hp h0 hc
          · refine .keep rfl rfl (fun q u hqu => ?_) hc
            obtain ⟨rfl, rfl⟩ := Prod.mk.inj (Option.some.inj (htry.symm.trans hqu))
            exact hp
        · obtain ⟨-, rfl⟩ := resumeFirst_ok.mp h₃
          rcases hrelease with ⟨-, hp, h0, hc⟩ | ⟨hr, -⟩ | ⟨hr, -⟩
          · exact .release p t rfl htry hrel hp h0 ((primUnOverride_counters h₂).trans hc)
          · exact absurd rfl hr
          · exact absurd rfl hr
  | semRelease p h =>
      obtain ⟨e, s₁, h₁, hcases⟩ := schedSemRelease_ok.mp he
      obtain ⟨t, ht, hrel, hrelease⟩ := primitiveReleaseOwnership_step h₁
      have htry : (Call.semRelease p h).releasing s = some (p, t) := by
        simp [Call.releasing, ht]
      rcases hcases with ⟨hr, rfl, rfl⟩ | ⟨rfl, rfl, h₃⟩
      · rcases hrelease with ⟨h0, -⟩ | ⟨-, hp, h0, hc⟩ | ⟨-, hp, hc⟩
        · exact absurd h0 hr
        · exact .half p t rfl rfl htry hp h0 hc
        · refine .keep rfl rfl (fun q u hqu => ?_) hc
          obtain ⟨rfl, rfl⟩ := Prod.mk.inj (Option.some.inj (htry.symm.trans hqu))
          exact hp
      · obtain ⟨-, rfl⟩ := resumeFirst_ok.mp h₃
        rcases hrelease with ⟨-, hp, h0, hc⟩ | ⟨hr, -⟩ | ⟨hr, -⟩
        · exact .release p t rfl htry hrel hp h0 hc
        · exact absurd rfl hr
        · exact absurd rfl hr

theorem taking_of_took {e : Event (State k) (Call k) (BitVec 8)} {x : PrimId k × TaskId k}
    (h : took e = some x) : e.call.taking e.pre = some x := by
  unfold took at h
  split at h
  · exact (Option.ite_none_right_eq_some.mp h).2
  · exact (Option.ite_none_right_eq_some.mp h).2
  · exact (Option.filter_eq_some_iff.mp h).1

theorem releasing_of_released {e : Event (State k) (Call k) (BitVec 8)} {x : PrimId k × TaskId k}
    (h : released e = some x) : e.call.releasing e.pre = some x :=
  (Option.ite_none_right_eq_some.mp h).2

/-- A call that neither takes nor releases a primitive leaves its counter. -/
theorem exec_pNb (hreg : c.registers = false) (he : exec ⟨true, policy⟩ c s = .ok (r, s'))
    (htaking : ∀ t, c.taking s ≠ some (p, t)) (hreleasing : ∀ t, c.releasing s ≠ some (p, t)) :
    s'.counters.pNb p = s.counters.pNb p := by
  cases exec_ownership hreg he with
  | keep _ _ _ hcounters => rw [hcounters]
  | take q t htook _ _ hcounters =>
      have hpq : p ≠ q := fun e => htaking t (e ▸ taking_of_took htook)
      rw [hcounters]
      exact Function.update_of_ne hpq _ _
  | half q t _ _ htry _ _ hcounters =>
      have hpq : p ≠ q := fun e => hreleasing t (e ▸ htry)
      rw [hcounters]
      exact Function.update_of_ne hpq _ _
  | release q t _ hreleased _ _ _ hcounters =>
      have hpq : p ≠ q := fun e => hreleasing t (e ▸ releasing_of_released hreleased)
      rw [hcounters]
      exact Function.update_of_ne hpq _ _

theorem exec_bound (hreg : c.registers = false) (he : exec ⟨true, policy⟩ c s = .ok (r, s')) :
    s'.counters.bound = s.counters.bound := by
  cases exec_ownership hreg he with
  | keep _ _ _ hcounters => rw [hcounters]
  | take _ _ _ _ _ hcounters => rw [hcounters]; rfl
  | half _ _ _ _ _ _ _ hcounters => rw [hcounters]; rfl
  | release _ _ _ _ _ _ _ hcounters => rw [hcounters]; rfl

/-! ### Registrations -/

/-- The primitive that a call registers. -/
def Call.newPrim : Call k → Option (PrimId k)
  | .registerProcess c => some (pPrim c)
  | .registerPrim _ p | .mutexCtor p _ | .semCtor p _ _ => some p
  | _ => none

/-- The task that a call registers. -/
def Call.newTask : Call k → Option (TaskId k)
  | .registerTask _ t => some t
  | _ => none

theorem primRegistered_cons (hu : c.unregisters = false) (p : PrimId k) :
    primRegistered (⟨s, c, r, s'⟩ :: hist) p =
      (decide (c.newPrim = some p) || primRegistered hist p) := by
  cases c with
  | unregisterProcess | unregisterThread | unregisterTask | unregisterPrim => cases hu
  | registerProcess | registerPrim | mutexCtor | semCtor =>
      simp [primRegistered, Call.newPrim, beq_eq_decide, eq_comm]
  | _ => simp [primRegistered, Call.newPrim]

theorem taskRegistered_cons (hu : c.unregisters = false) (t : TaskId k) :
    taskRegistered (⟨s, c, r, s'⟩ :: hist) t =
      (decide (c.newTask = some t) || taskRegistered hist t) := by
  cases c with
  | unregisterProcess | unregisterThread | unregisterTask => cases hu
  | registerTask => simp [taskRegistered, Call.newTask, beq_eq_decide, eq_comm]
  | _ => simp [taskRegistered, Call.newTask]

theorem fresh_newPrim {p : PrimId k} (hf : fresh hist c = true) (hn : c.newPrim = some p) :
    primRegistered hist p = false := by
  cases c with
  | registerProcess => 
      obtain rfl := Option.some.inj hn
      simpa using (Bool.and_eq_true_iff.mp hf).2
  | registerPrim | mutexCtor | semCtor => 
      obtain rfl := Option.some.inj hn
      simpa [fresh] using hf
  | _ => cases hn

theorem fresh_newTask {t : TaskId k} (hf : fresh hist c = true) (hn : c.newTask = some t) :
    taskRegistered hist t = false := by
  cases c with
  | registerTask => 
      obtain rfl := Option.some.inj hn
      simpa [fresh] using hf
  | _ => cases hn

theorem processRegisterPrim_counters (d : ProcessId k) (p : PrimId k) (s : State k) :
    (processRegisterPrim d p s).counters =
      { s.counters with pNb := Function.update s.counters.pNb p 0 } := by
  ext x : 2
  · by_cases hx : x = p <;> simp [State.counters, State.ledger, processRegisterPrim, hx]
  · rfl
  · rfl

theorem schedRegisterProcess_counters (d : ProcessId k) (s : State k) :
    (schedRegisterProcess d s).counters =
      { s.counters with pNb := Function.update s.counters.pNb (pPrim d) 0 } :=
  processRegisterPrim_counters d (pPrim d) _

theorem processRegisterTask_counters {d : ProcessId k} {t : TaskId k}
    (he : processRegisterTask ⟨true, policy⟩ d t s = .ok s') :
    s'.counters = { s.counters with tNb := Function.update s.counters.tNb t 0 } := by
  simp only [processRegisterTask, bind_eq_ok, nsCheck_eq_ok, derefSched_eq_ok, exists_const,
    Except.ok.injEq] at he
  obtain ⟨-, -, rfl⟩ := he
  ext x : 2
  · rfl
  · by_cases hx : x = t <;> simp [State.counters, State.ledger, hx]
  · rfl

theorem update_zero {α : Type} [DecidableEq α] (f : α → Usize k) (a x : α) :
    Function.update f a 0 x = if some a = some x then 0 else f x := by
  simp only [Function.update_apply, Option.some.injEq, eq_comm (a := a)]

/-- A registration clears the counter of the new object and leaves the others. -/
theorem exec_registers (hreg : c.registers = true) (hu : c.unregisters = false)
    (he : exec ⟨true, policy⟩ c s = .ok (r, s')) :
    took ⟨s, c, r, s'⟩ = none ∧ released ⟨s, c, r, s'⟩ = none ∧
      (∀ p, s'.counters.pNb p = if c.newPrim = some p then 0 else s.counters.pNb p) ∧
      (∀ t, s'.counters.tNb t = if c.newTask = some t then 0 else s.counters.tNb t) ∧
      ∀ p, c.newPrim ≠ some p → s'.counters.bound p = s.counters.bound p := by
  cases c with
  | unregisterProcess | unregisterThread | unregisterTask | unregisterPrim => cases hu
  | registerProcess d =>
      obtain ⟨-, rfl⟩ := ok_pair_eq.mp he
      refine ⟨rfl, ite_self _, fun p => ?_, fun _ => rfl, fun _ _ => rfl⟩
      rw [schedRegisterProcess_counters]
      exact update_zero _ (pPrim d) p
  | registerThread h =>
      obtain ⟨-, rfl⟩ := ok_pair_eq.mp he
      exact ⟨rfl, ite_self _, fun _ => rfl, fun _ => rfl, fun _ _ => rfl⟩
  | registerTask d t =>
      have e := processRegisterTask_counters (void_eq_ok.mp he).2
      refine ⟨rfl, ite_self _, fun p => ?_, fun u => ?_, fun p _ => ?_⟩
      · rw [e]
        rfl
      · rw [e]
        exact update_zero _ t u
      · rw [e]
  | registerPrim d p =>
      obtain ⟨-, rfl⟩ := ok_pair_eq.mp he
      refine ⟨rfl, ite_self _, fun q => ?_, fun _ => rfl, fun _ _ => rfl⟩
      rw [processRegisterPrim_counters]
      exact update_zero _ p q
  | mutexCtor p d =>
      obtain ⟨-, rfl⟩ := ok_pair_eq.mp he
      refine ⟨rfl, ite_self _, fun q => ?_, fun _ => rfl, fun _ _ => rfl⟩
      rw [schedMutexCtor, processRegisterPrim_counters]
      exact update_zero _ p q
  | semCtor p n d =>
      obtain ⟨-, rfl⟩ := ok_pair_eq.mp he
      refine ⟨rfl, ite_self _, fun q => ?_, fun _ => rfl, fun q hq => ?_⟩
      · rw [schedSemCtor, processRegisterPrim_counters]
        exact update_zero _ p q
      · have hqp : q ≠ p := fun e => hq (e ▸ rfl)
        exact Function.update_of_ne hqp n s.sNbOwners
  | _ => cases hreg

theorem registered_cons (s s' : State k) (r : BitVec 8) (hist : Hist k)
    (hreg : c.registers = false) :
    primRegistered (⟨s, c, r, s'⟩ :: hist) = primRegistered hist ∧
      taskRegistered (⟨s, c, r, s'⟩ :: hist) = taskRegistered hist := by
  cases c with
  | registerProcess | unregisterProcess | registerThread | unregisterThread | registerTask
  | unregisterTask | registerPrim | unregisterPrim | mutexCtor | semCtor => cases hreg
  | _ => exact ⟨rfl, rfl⟩

theorem onRegistered_taking {p : PrimId k} {t : TaskId k} (ho : onRegistered hist c = true)
    (h : c.taking s = some (p, t)) : primRegistered hist p = true := by
  cases c with
  | takeOwnership q u =>
      obtain ⟨rfl, rfl⟩ := Prod.mk.inj (Option.some.inj h)
      exact ho
  | mutexLock q h' | mutexLockNb q h' | semTake q h' | semTakeNb q h' =>
      obtain ⟨u, -, hu⟩ := Option.map_eq_some_iff.mp h
      obtain ⟨rfl, rfl⟩ := Prod.mk.inj hu
      exact ho
  | _ => cases h

theorem onRegistered_releasing {p : PrimId k} {t : TaskId k} (ho : onRegistered hist c = true)
    (h : c.releasing s = some (p, t)) : primRegistered hist p = true := by
  cases c with
  | releaseOwnership q u =>
      obtain ⟨rfl, rfl⟩ := Prod.mk.inj (Option.some.inj h)
      exact ho
  | mutexUnlock q h' =>
      obtain ⟨-, h⟩ := Option.ite_none_right_eq_some.mp h
      obtain ⟨u, -, hu⟩ := Option.map_eq_some_iff.mp h
      obtain ⟨rfl, rfl⟩ := Prod.mk.inj hu
      exact ho
  | semRelease q h' =>
      obtain ⟨u, -, hu⟩ := Option.map_eq_some_iff.mp h
      obtain ⟨rfl, rfl⟩ := Prod.mk.inj hu
      exact ho
  | _ => cases h

end KernelTk.Sched
