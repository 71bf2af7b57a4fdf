import KernelTk.Sched.Edits
import KernelTk.Sched.Ownership

/-! # Well-formed schedulers

* **Statuses.** `StatusOk s t` : an active task has a null stopper; a stopped one has the status
  `SCHED_STATUS_STOPPED`, or `3` when a walk has marked it.  The mark is the bit of
  `SCHED_STATUS_ACTIVE`, so that an active task cannot be marked further, and the checks of the source,
  which compare the whole word, take a marked stopped task for neither active nor stopped.
* **Edits.** Every edit keeps the statuses (`StatusOk.edit`): a stop and a resumption assign the status
  after the walk that they start, and any other task is marked at most (`StatusOk.mark`).
* **Registrations.** A registered task is active and has no stopper, the others do not change
  (`exec_registers_task`).
* **Schedulers.** `Scheduled s v` : the lists of the memory are those of the view, the statuses of
  the registered tasks are in order, and a process owns its primitive.  `reach_scheduled` :
  it holds in every state reached by calls that unregister nothing, by one step
  (`Scheduled.step`) and induction on the run.  From it a check on the status word of a task is a
  statement about its stopper (`StatusOk.active_iff`). -/

namespace KernelTk.Sched

open Transition

variable {k : Machine} {policy : Policy k} {hist : Hist k} {s s' : State k} {v v' : View k}
  {p : PrimId k} {t u : TaskId k} {d : ProcessId k} {c : Call k} {r : BitVec 8}

/-- The status of a task agrees with its stopper, up to the mark of a stopped task. -/
def StatusOk (s : State k) (t : TaskId k) : Prop :=
  if (s.task t).tStopper = none then s.tStatus t = schedStatusActive
  else s.tStatus t = schedStatusStopped ∨ s.tStatus t = schedStatusStopped ||| staskStatusUpdated

namespace StatusOk

theorem running (hok : StatusOk s t) (hs : (s.task t).tStopper = none) :
    s.tStatus t = schedStatusActive := by
  rw [StatusOk, if_pos hs] at hok
  exact hok

/-- A task is active iff its stopper is null. -/
theorem active_iff (hok : StatusOk s t) :
    (s.task t).tStatus = schedStatusActive ↔ (s.task t).tStopper = none := by
  constructor
  · intro hst
    by_contra hs
    rw [StatusOk, if_neg hs] at hok
    have hst' : s.tStatus t = schedStatusActive := hst
    rw [hst'] at hok
    exact absurd hok (by decide)
  · exact hok.running

theorem congr (hok : StatusOk s t) (hst : s'.tStatus t = s.tStatus t)
    (hs : (s'.task t).tStopper = (s.task t).tStopper) : StatusOk s' t := by
  rw [StatusOk, hst, hs]
  exact hok

theorem assigned (hok : StatusOk s t) (A : Assigned s s') : StatusOk s' t :=
  hok.congr (A.tStatus t) (A.tStopper t)

theorem mark {τ : TaskId k → Bool} (hok : StatusOk s t)
    (hst : s'.tStatus t = if τ t then s.tStatus t ||| staskStatusUpdated else s.tStatus t)
    (hs : (s'.task t).tStopper = (s.task t).tStopper) : StatusOk s' t := by
  rw [StatusOk, hst, hs]
  rw [StatusOk] at hok
  split
  · rename_i hnone
    rw [if_pos hnone] at hok
    rw [hok, status_active_or, ite_self]
  · rename_i hsome
    rw [if_neg hsome] at hok
    have hor : (schedStatusStopped ||| staskStatusUpdated) ||| staskStatusUpdated =
      schedStatusStopped ||| staskStatusUpdated := by decide
    rcases hok with h | h <;> rw [h] <;> split
    · exact .inr rfl
    · exact .inl rfl
    · exact .inr hor
    · exact .inr rfl

theorem edit (e : Edit k) (hok : StatusOk s u) : StatusOk (e.apply s) u := by
  have hs : ((e.apply s).task u).tStopper = (e.pointers s.pointers).tStopper u :=
    congrFun (congrArg Pointers.tStopper (e.apply_pointers s)) u
  cases e with
  | stop p t =>
      obtain ⟨τ, -, hst⟩ := stopTask_tStatus s p t
      by_cases hut : u = t
      · rw [StatusOk, hs]
        simp only [Edit.pointers, Pointers.stop, hut, Function.update_self, reduceCtorEq, if_false]
        exact .inl ((hst t).trans (if_pos rfl))
      · refine hok.mark (τ := τ) ((hst u).trans (if_neg hut)) (hs.trans ?_)
        exact Function.update_of_ne hut _ _
  | resume p t =>
      obtain ⟨τ, -, hst⟩ := resumeTask_tStatus s p t
      by_cases hut : u = t
      · rw [StatusOk, hs]
        simp only [Edit.pointers, Pointers.resume, hut, Function.update_self, if_true]
        exact (hst t).trans (if_pos rfl)
      · refine hok.mark (τ := τ) ((hst u).trans (if_neg hut)) (hs.trans ?_)
        exact Function.update_of_ne hut _ _
  | override p t =>
      obtain ⟨τ, -, hst⟩ := overrideTask_tStatus s p t
      exact hok.mark (hst u) hs
  | unoverride p t =>
      obtain ⟨τ, -, hst⟩ := unOverride_tStatus s p t
      exact hok.mark (hst u) hs
  | take p t | release p t =>
      refine hok.congr ?_ hs
      by_cases hut : u = t <;>
        simp [State.tStatus, Edit.apply, takeOwnership, releaseOwnership, releasePrim, hut]
  | releasePrim p | processStatus d x | commit x => exact hok.congr rfl hs

end StatusOk

/-- The lists, the statuses, and the primitives of the processes. -/
structure Scheduled (s : State k) (v : View k) : Prop where
  good : Good s v
  status : ∀ t, v.HasTask t → StatusOk s t
  pPrim : ∀ d, v.HasProcess d → v.HasPrim (pPrim d) ∧ (s.prim (pPrim d)).pProcess = some d

theorem exec_pProcess (hreg : c.registers = false) (he : exec ⟨true, policy⟩ c s = .ok (r, s')) :
    (s'.prim p).pProcess = (s.prim p).pProcess := by
  refine (exec_edits hreg he).keeps (I := fun x => (x.prim p).pProcess = (s.prim p).pProcess)
    (fun hx A => by rw [A.prim]; exact hx) (fun {x} e hx _ _ => .trans ?_ hx) rfl
  have h0 : ((e.apply x).prim p).pProcess = (e.pointers x.pointers).pProcess p :=
    congrFun (congrArg Pointers.pProcess (e.apply_pointers x)) p
  rw [h0]
  cases e <;> rfl

/-! ### Registrations -/

theorem exec_registers_task (hreg : c.registers = true) (hu : c.unregisters = false)
    (he : exec ⟨true, policy⟩ c s = .ok (r, s')) (t : TaskId k) :
    if c.newTask = some t then
      (s'.task t).tStatus = schedStatusActive ∧ (s'.task t).tStopper = none
    else s'.task t = s.task t := by
  cases c with
  | unregisterProcess | unregisterThread | unregisterTask | unregisterPrim => cases hu
  | registerTask d u =>
      have he := (void_eq_ok.mp he).2
      simp only [processRegisterTask, bind_eq_ok, nsCheck_eq_ok, derefSched_eq_ok, exists_const,
        Except.ok.injEq] at he
      obtain ⟨-, -, rfl⟩ := he
      by_cases ht : t = u
      · simp [Call.newTask, ht]
      · simp [Call.newTask, ht, Ne.symm ht]
  | registerProcess | registerThread | registerPrim | mutexCtor | semCtor =>
      obtain ⟨-, rfl⟩ := ok_pair_eq.mp he
      exact (if_neg fun e => by cases e).mpr rfl
  | _ => cases hreg

theorem exec_registers_pProcess (hreg : c.registers = true) (hu : c.unregisters = false)
    (he : exec ⟨true, policy⟩ c s = .ok (r, s')) (hn : c.newPrim ≠ some p) :
    (s'.prim p).pProcess = (s.prim p).pProcess := by
  have hprim : ∀ (d : ProcessId k) (q : PrimId k) (x : State k), x.prim = s.prim → p ≠ q →
      ((processRegisterPrim d q x).prim p).pProcess = (s.prim p).pProcess := by
    intro d q x hx hq
    simp [processRegisterPrim, hq, hx]
  have hne : ∀ {q}, c.newPrim = some q → p ≠ q := fun hq e => hn (e ▸ hq)
  cases c with
  | unregisterProcess | unregisterThread | unregisterTask | unregisterPrim => cases hu
  | registerProcess d =>
      obtain ⟨-, rfl⟩ := ok_pair_eq.mp he
      exact hprim d (pPrim d) _ rfl (hne rfl)
  | registerThread h =>
      obtain ⟨-, rfl⟩ := ok_pair_eq.mp he
      rfl
  | registerTask d t =>
      obtain ⟨-, e⟩ := processRegisterTask_ok t d (void_eq_ok.mp he).2
      exact congrFun (congrArg Pointers.pProcess e) p
  | registerPrim d q | mutexCtor q d | semCtor q n d =>
      obtain ⟨-, rfl⟩ := ok_pair_eq.mp he
      exact hprim d q _ rfl (hne rfl)
  | _ => cases hreg

/-! ### Runs -/

/-- **A call keeps a scheduler well formed**, unless it unregisters an object. -/
theorem Scheduled.step (S : Scheduled s v) (R : Registered hist v) (hg : Additive hist c)
    (he : exec ⟨true, policy⟩ c s = .ok (r, s')) :
    ∃ v', Scheduled s' v' ∧ Registered (⟨s, c, r, s'⟩ :: hist) v' := by
  cases hreg : c.registers with
  | false =>
      obtain ⟨v', G', e⟩ := exec_same S.good R hreg hg.2.2 he
      refine ⟨v', ⟨G', fun t ht => ?_, fun d hd => ?_⟩, R.same e hreg⟩
      · refine (exec_edits hreg he).keeps (I := fun x => StatusOk x t)
          (fun hx A => hx.assigned A) (fun a hx _ _ => hx.edit a) ?_
        exact S.status t ((e.task t).mp ht)
      · obtain ⟨hp, hprc⟩ := S.pPrim d ((e.process d).mp hd)
        exact ⟨(e.prim _).mpr hp, (exec_pProcess hreg he).trans hprc⟩
  | true =>
      obtain ⟨v', G', R'⟩ := exec_good S.good R hg.regular he
      obtain ⟨hu, hf, -⟩ := hg
      refine ⟨v', ⟨G', fun t ht => ?_, fun d hd => ?_⟩, R'⟩
      · have hT := (R'.task t).mp ht
        have htask := exec_registers_task hreg hu he t
        simp only [taskRegistered_cons hu, Bool.or_eq_true, decide_eq_true_eq] at hT
        by_cases hn : c.newTask = some t
        · rw [if_pos hn] at htask
          rw [StatusOk, if_pos htask.2]
          exact htask.1
        · rw [if_neg hn] at htask
          refine (S.status t ((R.task t).mpr (hT.resolve_left hn))).congr ?_ (by rw [htask])
          simp only [State.tStatus, htask]
      · have hD := (R'.process d).mp hd
        by_cases hnew : c = .registerProcess d
        · subst hnew
          obtain ⟨-, rfl⟩ := ok_pair_eq.mp he
          refine ⟨(R'.prim _).mpr ?_, ?_⟩
          · simp [primRegistered]
          · simp [schedRegisterProcess, processRegisterPrim]
        · have hold : processRegistered hist d = true := by
            cases c with
            | unregisterProcess => cases hu
            | registerProcess d' =>
                have hd' : d ≠ d' := fun e => hnew (e ▸ rfl)
                simpa [processRegistered, hd'] using hD
            | _ => exact hD
          obtain ⟨hp, hprc⟩ := S.pPrim d ((R.process d).mpr hold)
          have hP := (R.prim _).mp hp
          have hn : c.newPrim ≠ some (Sched.pPrim d) := by
            intro hn
            cases (fresh_newPrim hf hn).symm.trans hP
          refine ⟨(R'.prim _).mpr ?_, (exec_registers_pProcess hreg hu he hn).trans hprc⟩
          rw [primRegistered_cons hu, hP, Bool.or_true]

/-- Along the runs that unregister nothing the scheduler is well formed. -/
theorem reach_scheduled (hr : Reach policy (fun hist _ c => Additive hist c) hist s) :
    ∃ v, Scheduled s v ∧ Registered hist v := by
  refine hr.invariant (J := fun hist s => ∃ v, Scheduled s v ∧ Registered hist v) ?_ ?_
  · intro s hs
    obtain ⟨G, R⟩ := hs.good
    refine ⟨_, ⟨G, fun t ht => ?_, fun d hd => ?_⟩, R⟩
    · cases (R.task t).mp ht
    · cases (R.process d).mp hd
  · rintro hist s c r s' ⟨v, S, R⟩ hg he
    exact S.step R hg he

end KernelTk.Sched
