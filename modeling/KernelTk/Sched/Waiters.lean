import KernelTk.Sched.Semaphore
import KernelTk.Sched.Mutex
import KernelTk.Sched.Status

/-! # Waiters

A task is stopped by a primitive that was fully taken.  If the primitive is free later, and the task
still waits, nothing will wake it: the task is stranded.

* **Waiters.** `Waits p hist s` : some registered task is stopped by `p`; it is what `dlist_empty`
  tests (`Good.waits_iff`), as the stopped list of the memory is that of the view.
* **Frames.** Only a lock or a taking stops tasks for `p`, so that a call of another kind adds no waiter
  (`Waits.before`) and leaves the counter and the bound while there are waiters
  (`Waits.unchanged`).
* **Mutexes.** As long as a mutex has waiters it is held (`reach_mutex_waiters`): the runs are those in
  which no holder unlocks it while tasks wait, an unlock that would not return.
* **Semaphores.** As long as a semaphore has waiters its counter is its bound, if no release
  finds a waiter (`LoneRelease`, `reach_sem_waiters`): a release that finds one wakes no one.
* **Theorem.** `no_stranded_waiter` has both parts, each an induction on the run whose step compares the
  waiters before and after a call.  In `stranded_waiter` a release fails after it has made a semaphore
  free, and the task that waits for it is not woken. -/

namespace KernelTk.Sched

open Transition

variable {k : Machine} {policy : Policy k} {hist : Hist k} {s s' : State k} {v : View k}
  {p : PrimId k} {t : TaskId k} {h : ThreadId k} {c : Call k} {r : BitVec 8}

/-- Some task is stopped by the primitive. -/
def Waits (p : PrimId k) (hist : Hist k) (s : State k) : Prop :=
  ∃ t, taskRegistered hist t = true ∧ (s.task t).tStopper = some p

/-- The stopped list of a registered primitive is not empty iff a task waits. -/
theorem Good.waits_iff (G : Good s v) (R : Registered hist v) (hp : primRegistered hist p = true) :
    s.links.isEmpty (.pStopped p) = false ↔ Waits p hist s := by
  obtain ⟨l, hl⟩ := Option.isSome_iff_exists.mp ((R.prim p).mpr hp)
  rw [Bool.eq_false_iff, ne_eq, G.isEmpty_iff hl]
  constructor
  · intro hne
    obtain ⟨t, ht⟩ := List.exists_mem_of_ne_nil l hne
    obtain ⟨hT, hs⟩ := (G.wf.stopped.mem hl).mp ht
    exact ⟨t, (R.task t).mp hT, hs⟩
  · rintro ⟨t, hT, hs⟩ rfl
    exact absurd ((G.wf.stopped.mem hl).mpr ⟨(R.task t).mpr hT, hs⟩) List.not_mem_nil

theorem Waits.registered (W : Waits p hist s) (G : Good s v) (R : Registered hist v) :
    primRegistered hist p = true := by
  obtain ⟨t, hT, hs⟩ := W
  exact (R.prim p).mp (G.wf.stopped.container ((R.task t).mpr hT) hs)

/-- A call that stops no task for `p` adds no waiter. -/
theorem Waits.before (W : Waits p (⟨s, c, r, s'⟩ :: hist) s') (hu : c.unregisters = false)
    (hstops : c.stops p = false) (he : exec ⟨true, policy⟩ c s = .ok (r, s')) : Waits p hist s := by
  obtain ⟨t, hT, hs⟩ := W
  rw [taskRegistered_cons hu] at hT
  cases hreg : c.registers with
  | true =>
      have htask := exec_registers_task hreg hu he t
      by_cases hn : c.newTask = some t
      · rw [if_pos hn] at htask
        cases hs.symm.trans htask.2
      · rw [if_neg hn] at htask
        exact ⟨t, by simpa [hn] using hT, htask ▸ hs⟩
  | false =>
      refine ⟨t, ?_, exec_tStopper hreg hstops he hs⟩
      cases c with
      | registerTask => cases hreg
      | _ => exact hT

/-- A call that neither stops, takes nor releases for `p` leaves its counter and its bound, if
tasks wait. -/
theorem Waits.unchanged (W : Waits p (⟨s, c, r, s'⟩ :: hist) s') (G : Good s v)
    (R : Registered hist v) (hg : Additive hist c) (hstops : c.stops p = false)
    (htaking : ∀ t, c.taking s ≠ some (p, t)) (hreleasing : ∀ t, c.releasing s ≠ some (p, t))
    (he : exec ⟨true, policy⟩ c s = .ok (r, s')) : Waits p hist s ∧
      (s'.prim p).pNbOwningTasks = (s.prim p).pNbOwningTasks ∧ s'.sNbOwners p = s.sNbOwners p := by
  obtain ⟨hu, hf, -⟩ := hg
  have W₀ := W.before hu hstops he
  refine ⟨W₀, ?_⟩
  cases hreg : c.registers with
  | true =>
      have hn : c.newPrim ≠ some p := by
        intro hn
        cases (fresh_newPrim hf hn).symm.trans (W₀.registered G R)
      obtain ⟨-, -, hpNb, -, hbound⟩ := exec_registers hreg hu he
      exact ⟨(hpNb p).trans (if_neg hn), hbound p hn⟩
  | false => exact ⟨exec_pNb hreg he htaking hreleasing, congrFun (exec_bound hreg he) p⟩

/-! ### Mutexes -/

theorem stops_of_mutexOnly (honly : mutexOnly p c = true) (hlocks : c.locks = false) :
    c.stops p = false := by
  cases c with
  | pauseProcess | stopThread => simpa [mutexOnly, Call.stops] using honly
  | semTake => cases honly
  | mutexLock => cases hlocks
  | _ => rfl

/-- A mutex on which tasks wait is held, after one more call. -/
theorem Mutex.waits_step (M : Mutex p hist s) (G : Good s v) (R : Registered hist v)
    (hg : MutexCall p hist s c) (he : exec ⟨true, policy⟩ c s = .ok (r, s'))
    (hwaits : Waits p hist s → (s.prim p).pNbOwningTasks = 1)
    (W : Waits p (⟨s, c, r, s'⟩ :: hist) s') : (s'.prim p).pNbOwningTasks = 1 := by
  obtain ⟨hadd, honly⟩ := hg
  have ho := hadd.2.2
  have hacquired : ∀ {h x}, (s.prim p).pNbOwningTasks = 0 →
      mutexAcquire ⟨true, policy⟩ p h s = .ok x → (x.prim p).pNbOwningTasks = 1 := by
    intro h x hnb hacq
    obtain ⟨t, -, -, hcounters, -⟩ := mutexAcquire_step hacq
    have hpNb : (x.prim p).pNbOwningTasks = _ := congrFun (congrArg Counters.pNb hcounters) p
    have h0 : s.counters.pNb p = 0 := hnb
    rw [hpNb]
    simp only [Counters.take, Function.update_self]
    rw [h0, Word.incr_zero]
  cases c with
  | takeOwnership | releaseOwnership | semTake | semTakeNb | semRelease => cases honly
  | mutexLock q h =>
      obtain rfl : q = p := by simpa [mutexOnly] using honly
      rcases schedMutexLock_ok.mp (void_eq_ok.mp he).2 with ⟨hnb, hstop⟩ | ⟨hnb, hacq⟩
      · have hpNb : (s'.prim q).pNbOwningTasks = (s.prim q).pNbOwningTasks :=
          congrFun (congrArg Counters.pNb (primitiveStopThread_counters hstop)) q
        cases M.held ho with
        | free _ h0 => exact absurd h0 hnb
        | taken _ _ h1 => exact hpNb.trans h1
      · exact hacquired hnb hacq
  | mutexLockNb q h =>
      obtain rfl : q = p := by simpa [mutexOnly] using honly
      rcases schedMutexLockNb_ok.mp he with ⟨-, -, rfl⟩ | ⟨hnb, -, hacq⟩
      · exact hwaits W
      · exact hacquired hnb hacq
  | mutexUnlock q h =>
      obtain rfl : q = p := by simpa [mutexOnly] using honly
      rcases schedMutexUnlock_ok.mp he with ⟨-, -, rfl⟩ | ⟨-, -, -, rfl⟩ | ⟨t, -, -, hov, ht, -⟩
      · exact hwaits W
      · exact hwaits W
      · obtain ⟨-, hempty, -, -, hs⟩ := M.unlocked G R ho hov ht he
        obtain ⟨u, hT, hu⟩ := W
        rw [hs] at hu
        cases ((G.waits_iff R ho).mpr ⟨u, hT, hu⟩).symm.trans hempty
  | _ =>
      obtain ⟨W₀, hnb, -⟩ := W.unchanged G R hadd (stops_of_mutexOnly honly rfl)
        (fun _ e => by cases e) (fun _ e => by cases e) he
      exact hnb.trans (hwaits W₀)

theorem reach_mutex_waiters (hr : Reach policy (MutexCall p) hist s) (W : Waits p hist s) :
    (s.prim p).pNbOwningTasks = 1 := by
  refine (hr.invariant (J := fun hist s => ((∃ v, Good s v ∧ Registered hist v) ∧
    Mutex p hist s) ∧ (Waits p hist s → (s.prim p).pNbOwningTasks = 1)) ?_ ?_).2 W
  · refine fun s hs => ⟨⟨⟨_, hs.good⟩, .init⟩, ?_⟩
    rintro ⟨t, hT, -⟩
    cases hT
  · rintro hist s c r s' ⟨⟨⟨v, G, R⟩, M⟩, hwaits⟩ hg he
    exact ⟨⟨exec_good G R hg.1.regular he, M.step G R hg he⟩, M.waits_step G R hg he hwaits⟩

/-! ### Semaphores -/

/-- A release of the semaphore that finds a task stopped by it. -/
def Call.releasesBusy (p : PrimId k) (s : State k) : Call k → Bool
  | .semRelease q _ => q == p && !s.links.isEmpty (.pStopped p)
  | _ => false

/-- The calls of the runs of a semaphore that only its takings wait for. -/
def WaitCall (p : PrimId k) (hist : Hist k) (s : State k) (c : Call k) : Prop :=
  SemaphoreCall p hist s c ∧ (c.stops p = true → semCall p c = true)

/-- The calls of the runs in which no waiter is stranded. -/
def LoneRelease (p : PrimId k) (hist : Hist k) (s : State k) (c : Call k) : Prop :=
  WaitCall p hist s c ∧ c.releasesBusy p s = false

instance (hist : Hist k) : Decidable (WaitCall p hist s c) :=
  inferInstanceAs (Decidable (_ ∧ (_ → _)))

instance (hist : Hist k) : Decidable (LoneRelease p hist s c) :=
  inferInstanceAs (Decidable (_ ∧ _))

theorem sem_waits_step (G : Good s v) (R : Registered hist v) (hg : LoneRelease p hist s c)
    (he : exec ⟨true, policy⟩ c s = .ok (r, s'))
    (hwaits : Waits p hist s → (s.prim p).pNbOwningTasks = s.sNbOwners p)
    (W : Waits p (⟨s, c, r, s'⟩ :: hist) s') :
    (s'.prim p).pNbOwningTasks = s'.sNbOwners p := by
  obtain ⟨⟨⟨hadd, honly⟩, hstops⟩, hlone⟩ := hg
  have ho := hadd.2.2
  cases hc : semCall p c with
  | false =>
      obtain ⟨htaking, hreleasing, -⟩ := semCall_false s s' r honly hc
      have hno : c.stops p = false := by
        rw [Bool.eq_false_iff]
        exact fun h => Bool.false_ne_true (hc.symm.trans (hstops h))
      obtain ⟨W₀, hnb, hbound⟩ := W.unchanged G R hadd hno htaking hreleasing he
      rw [hnb, hbound]
      exact hwaits W₀
  | true =>
      have htake : ∀ {h x}, (s.prim p).pNbOwningTasks ≠ s.sNbOwners p →
          primitiveTakeOwnership ⟨true, policy⟩ p (s.thread h).tTask s = .ok x →
          ¬∃ t, taskRegistered hist t = true ∧ (x.task t).tStopper = some p := by
        rintro h x hfree htake ⟨u, hT, hu⟩
        obtain ⟨t, -, -, rfl⟩ := primitiveTakeOwnership_ok.mp htake
        rw [tStopper_takeOwnership] at hu
        exact hfree (hwaits ⟨u, hT, hu⟩)
      cases c with
      | semTake q h =>
          obtain rfl : q = p := by simpa [semCall] using hc
          rcases schedSemTake_ok.mp (void_eq_ok.mp he).2 with ⟨hnb, hstop⟩ | ⟨hfree, htake'⟩
          · have hcounters := primitiveStopThread_counters hstop
            have hpNb : (s'.prim q).pNbOwningTasks = (s.prim q).pNbOwningTasks :=
              congrFun (congrArg Counters.pNb hcounters) q
            have hbound : s'.sNbOwners q = s.sNbOwners q :=
              congrFun (congrArg Counters.bound hcounters) q
            rw [hpNb, hbound]
            exact hnb
          · exact absurd W (htake hfree htake')
      | semTakeNb q h =>
          obtain rfl : q = p := by simpa [semCall] using hc
          rcases schedSemTakeNb_ok.mp he with ⟨-, -, rfl⟩ | ⟨hfree, -, htake'⟩
          · exact hwaits W
          · exact absurd W (htake hfree htake')
      | semRelease q h =>
          obtain rfl : q = p := by simpa [semCall] using hc
          obtain ⟨u, hT, hu⟩ := W
          rw [schedSemRelease_tStopper he] at hu
          have hbusy := (G.waits_iff R ho).mpr ⟨u, hT, hu⟩
          simp [Call.releasesBusy, hbusy] at hlone
      | _ => cases hc

theorem reach_sem_waiters (hr : Reach policy (LoneRelease p) hist s) (W : Waits p hist s) :
    (s.prim p).pNbOwningTasks = s.sNbOwners p := by
  refine (hr.invariant (J := fun hist s => (∃ v, Good s v ∧ Registered hist v) ∧
    (Waits p hist s → (s.prim p).pNbOwningTasks = s.sNbOwners p)) ?_ ?_).2 W
  · refine fun s hs => ⟨⟨_, hs.good⟩, ?_⟩
    rintro ⟨t, hT, -⟩
    cases hT
  · rintro hist s c r s' ⟨⟨v, G, R⟩, hwaits⟩ hg he
    exact ⟨exec_good G R hg.1.1.1.regular he, sem_waits_step G R hg he hwaits⟩

/-! ### Runs -/

/-- **No stranded waiter.**  In every run in which no holder of the mutex unlocks it, and no task
releases the semaphore, while tasks are stopped by it: a mutex whose stopped list is not empty is
held, and a semaphore whose stopped list is not empty is full. -/
theorem no_stranded_waiter (policy : Policy k) (p : PrimId k) :
    (∀ (hist : Hist k) (s : State k), Reach policy (QuietUnlock p) hist s →
      primRegistered hist p = true → s.links.isEmpty (.pStopped p) = false →
      (s.prim p).pNbOwningTasks = 1) ∧
    ∀ (hist : Hist k) (s : State k), Reach policy (LoneRelease p) hist s →
      primRegistered hist p = true → s.links.isEmpty (.pStopped p) = false →
      (s.prim p).pNbOwningTasks = s.sNbOwners p := by
  constructor
  · intro hist s hr hp hempty
    have hr : Reach policy (MutexCall p) hist s := hr.mono fun hg => hg.1
    obtain ⟨⟨v, G, R⟩, -⟩ := reach_mutex hr
    exact reach_mutex_waiters hr ((G.waits_iff R hp).mp hempty)
  · intro hist s hr hp hempty
    obtain ⟨v, G, R⟩ := reach_good (fun hg => hg.1.1.1.regular) hr
    exact reach_sem_waiters hr ((G.waits_iff R hp).mp hempty)

set_option maxRecDepth 10000 in
/-- The second task waits for the mutex that the first one holds; and for a semaphore of one taking,
which the first one has taken. -/
theorem no_stranded_waiter_run :
    (∃ (hist : Hist small) (s : State small),
      primRegistered hist (.other 0) = true ∧ s.links.isEmpty (.pStopped (.other 0)) = false ∧
        (s.prim (.other 0)).pNbOwningTasks = 1) ∧
    ∃ (hist : Hist small) (s : State small),
      semBuilt (.other 0) hist = true ∧ s.links.isEmpty (.pStopped (.other 0)) = false ∧
        (s.prim (.other 0)).pNbOwningTasks = s.sNbOwners (.other 0) := by
  have waits := no_stranded_waiter (quiet : Policy small) (.other 0)
  constructor
  · obtain ⟨hist, s, hr, htest⟩ := exists_reach_of_replay (exec ⟨true, quiet⟩)
      (QuietUnlock (.other 0)) boot_smallBoot
      (fun hist s => primRegistered hist (.other 0) && !s.links.isEmpty (.pStopped (.other 0)))
      contendedCalls (by decide +kernel)
    simp only [Bool.and_eq_true, Bool.not_eq_true'] at htest
    exact ⟨hist, s, htest.1, htest.2, waits.1 hist s hr htest.1 htest.2⟩
  · obtain ⟨hist, s, hr, htest⟩ := exists_reach_of_replay (exec ⟨true, quiet⟩)
      (LoneRelease (.other 0)) boot_smallBoot
      (fun hist s => primRegistered hist (.other 0) && (semBuilt (.other 0) hist &&
        !s.links.isEmpty (.pStopped (.other 0))))
      (thiefCalls ++ [.semTake (.other 0) 1]) (by decide +kernel)
    simp only [Bool.and_eq_true, Bool.not_eq_true'] at htest
    obtain ⟨hp, hbuilt, hempty⟩ := htest
    exact ⟨hist, s, hbuilt, hempty, waits.2 hist s hr hp hempty⟩

set_option maxRecDepth 10000 in
/-- A task that owns nothing releases a semaphore of one taking, on which another task waits: the
release returns `1`, the counter is null, and the task still waits. -/
theorem stranded_waiter : ¬∀ (p : PrimId small),
    (∀ (hist : Hist small) (s : State small), Reach quiet (MutexCall p) hist s →
      primRegistered hist p = true → s.links.isEmpty (.pStopped p) = false →
      (s.prim p).pNbOwningTasks = 1) ∧
    ∀ (hist : Hist small) (s : State small), Reach quiet (WaitCall p) hist s →
      semBuilt p hist = true → s.sNbOwners p ≠ 0 → s.links.isEmpty (.pStopped p) = false →
      (s.prim p).pNbOwningTasks = s.sNbOwners p := by
  intro hall
  obtain ⟨hist, s, hr, htest⟩ := exists_reach_of_replay (exec ⟨true, quiet⟩)
    (WaitCall (.other 0)) boot_smallBoot
    (fun hist s => semBuilt (.other 0) hist && (s.sNbOwners (.other 0) == 1 &&
      ((s.prim (.other 0)).pNbOwningTasks == 0 && !s.links.isEmpty (.pStopped (.other 0)))))
    (thiefCalls ++ [.assignTask 2 (some 2), .semTake (.other 0) 2, .semRelease (.other 0) 1])
    (by decide +kernel)
  simp only [Bool.and_eq_true, Bool.not_eq_true', beq_iff_eq] at htest
  obtain ⟨hb, hbound, hnb, hwaits⟩ := htest
  have h := (hall (.other 0)).2 hist s hr hb (by rw [hbound]; decide) hwaits
  rw [hnb, hbound] at h
  exact absurd h (by decide)

end KernelTk.Sched
