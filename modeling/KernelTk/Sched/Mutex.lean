import KernelTk.Sched.Edits
import KernelTk.Sched.Ownership

/-! # Mutexes: mutual exclusion

* **Holders.** `holds p hist t` : after the calls of `hist` the task `t` holds the mutex `p`, from
  the lock that did not stop it, or from the unlock that resumed it, to its unlock.  It is read off the
  run, as a kernel sees it, and compared with the two fields in which the code keeps it.
* **Runs.** `MutexCall` : the mutex is used through `mutex.c`, and no other call takes, releases or
  overrides with its primitive.
* **Invariant.** `Held p hist s` : the mutex is free, or it has one holder, which it overrides and
  whose taking it counts.  `Mutex` adds that the counter of a task counts this mutex only.
* **One call.** A call that is not made to the mutex leaves the counters and the mutex
  (`mutexOnly_frame`); a lock that does not stop the task finds the mutex free (`Mutex.acquired`), and an
  unlock by the holder frees it (`Mutex.release`).  `Mutex.step` puts them together.
* **Contention.** The only unlock that goes wrong is the one of the holder while tasks are
  stopped by the mutex (`Call.wakes`): it passes the address computed from the head of the stopped
  list to `primitive_resume_task`.
* **Theorem.** `mutual_exclusion` : in every run without such unlocks, there is one holder at most, the
  fields of the mutex say which, and an unlock by the holder succeeds. -/

namespace KernelTk.Sched

open Transition

variable {k : Machine} {policy : Policy k} {hist : Hist k} {s s' : State k} {p : PrimId k}
  {t : TaskId k} {h : ThreadId k} {c : Call k} {r : BitVec 8}

/-- The task gets the mutex: its lock has not stopped it, or an unlock has resumed it. -/
def acquires (p : PrimId k) (t : TaskId k) (e : Event (State k) (Call k) (BitVec 8)) : Bool :=
  match e.call with
  | .mutexLock _ _ | .mutexLockNb _ _ => took e = some (p, t)
  | .mutexUnlock q _ => q == p && ((e.pre.task t).tStopper == some p &&
      (e.post.task t).tStopper == none)
  | _ => false

/-- The task has unlocked the mutex. -/
def unlocks (p : PrimId k) (t : TaskId k) (e : Event (State k) (Call k) (BitVec 8)) : Bool :=
  match e.call with
  | .mutexUnlock q h => q == p && (e.ret == 0 && (e.pre.thread h).tTask == some t)
  | _ => false

/-- The task holds the mutex. -/
def holds (p : PrimId k) : Hist k → TaskId k → Bool
  | [], _ => false
  | e :: hist, t => acquires p t e || (holds p hist t && !unlocks p t e)

/-- The calls to the mutex, and those that neither take nor release a primitive and leave the
mutex alone. -/
def mutexOnly (p : PrimId k) : Call k → Bool
  | .takeOwnership _ _ | .releaseOwnership _ _ | .semTake _ _ | .semTakeNb _ _
  | .semRelease _ _ => false
  | .mutexLock q _ | .mutexLockNb q _ | .mutexUnlock q _ => q == p
  | .overrideTask q _ | .unoverrideTask q | .stopThread q _ => q != p
  | .pauseProcess d => pPrim d != p
  | _ => true

/-- An unlock by the task that the mutex overrides, while tasks are stopped by the mutex. -/
def Call.wakes (p : PrimId k) (s : State k) : Call k → Bool
  | .mutexUnlock q h => q == p && ((s.prim p).pOverridden.isSome &&
      ((s.thread h).tTask == (s.prim p).pOverridden && !s.links.isEmpty (.pStopped p)))
  | _ => false

/-- The calls of the runs of a mutex. -/
def MutexCall (p : PrimId k) (hist : Hist k) (_ : State k) (c : Call k) : Prop :=
  Additive hist c ∧ mutexOnly p c = true

/-- The calls of the runs in which the mutex is a mutex. -/
def QuietUnlock (p : PrimId k) (hist : Hist k) (s : State k) (c : Call k) : Prop :=
  MutexCall p hist s c ∧ c.wakes p s = false

instance (hist : Hist k) : Decidable (MutexCall p hist s c) :=
  inferInstanceAs (Decidable (_ ∧ _))

instance (hist : Hist k) : Decidable (QuietUnlock p hist s c) :=
  inferInstanceAs (Decidable (_ ∧ _))

/-- The calls to `mutex.c`. -/
def Call.locks : Call k → Bool
  | .mutexLock _ _ | .mutexLockNb _ _ | .mutexUnlock _ _ => true
  | _ => false

/-! ### The invariant -/

/-- The mutex is free, or held by one task, which it overrides and whose taking it counts. -/
inductive Held (p : PrimId k) (hist : Hist k) (s : State k) : Prop
  | free (hholds : ∀ t, holds p hist t = false) (hnb : (s.prim p).pNbOwningTasks = 0)
      (ho : (s.prim p).pOverridden = none)
  | taken (t : TaskId k) (hholds : ∀ u, holds p hist u = decide (u = t))
      (hnb : (s.prim p).pNbOwningTasks = 1) (ho : (s.prim p).pOverridden = some t)

/-- The mutex is free or held, and the counter of a task counts the mutex only. -/
structure Mutex (p : PrimId k) (hist : Hist k) (s : State k) : Prop where
  held : primRegistered hist p = true → Held p hist s
  tNb : ∀ t, taskRegistered hist t = true →
    (s.task t).tNbOwnedPrimitives = if holds p hist t then 1 else 0
  noPrim : primRegistered hist p = false → ∀ t, holds p hist t = false
  noTask : ∀ t, taskRegistered hist t = false → holds p hist t = false

theorem Mutex.init : Mutex p ([] : Hist k) s := ⟨nofun, nofun, fun _ _ => rfl, fun _ _ => rfl⟩

theorem one_ne_zero_usize (t : TaskId k) : (1 : Usize k) ≠ 0 := by
  have ht := t.isLt
  have hk := k.fits
  intro e
  have h1 := congrArg BitVec.toNat e
  rw [Word.toNat_one (by omega)] at h1
  simp at h1

theorem Mutex.keep (M : Mutex p hist s) (hreg : c.registers = false)
    (hacquires : ∀ t, acquires p t ⟨s, c, r, s'⟩ = false)
    (hunlocks : ∀ t, unlocks p t ⟨s, c, r, s'⟩ = false) (hcounters : s'.counters = s.counters)
    (ho : (s'.prim p).pOverridden = (s.prim p).pOverridden) :
    Mutex p (⟨s, c, r, s'⟩ :: hist) s' := by
  obtain ⟨eprim, etask⟩ := registered_cons s s' r hist hreg
  have hholds : ∀ t, holds p (⟨s, c, r, s'⟩ :: hist) t = holds p hist t := by
    intro t
    simp [holds, hacquires, hunlocks]
  have hnb : (s'.prim p).pNbOwningTasks = (s.prim p).pNbOwningTasks :=
    congrFun (congrArg Counters.pNb hcounters) p
  constructor
  · intro hp
    rw [eprim] at hp
    cases M.held hp with
    | free h₁ h₂ h₃ => exact .free (fun t => (hholds t).trans (h₁ t)) (hnb.trans h₂) (ho.trans h₃)
    | taken t h₁ h₂ h₃ => exact .taken t (fun u => (hholds u).trans (h₁ u)) (hnb.trans h₂) (ho.trans h₃)
  · intro t ht
    rw [etask] at ht
    rw [hholds]
    exact (congrFun (congrArg Counters.tNb hcounters) t).trans (M.tNb t ht)
  · intro hp t
    rw [eprim] at hp
    exact (hholds t).trans (M.noPrim hp t)
  · intro t ht
    rw [etask] at ht
    exact (hholds t).trans (M.noTask t ht)

theorem exec_registers_pOverridden (hreg : c.registers = true) (hu : c.unregisters = false)
    (he : exec ⟨true, policy⟩ c s = .ok (r, s')) :
    (s'.prim p).pOverridden = if c.newPrim = some p then none else (s.prim p).pOverridden := by
  have hprim : ∀ (d : ProcessId k) (q : PrimId k) (x : State k), x.prim = s.prim →
      ((processRegisterPrim d q x).prim p).pOverridden =
        if some q = some p then none else (s.prim p).pOverridden := by
    intro d q x hx
    by_cases hq : q = p
    · simp [processRegisterPrim, hq]
    · simp [processRegisterPrim, hq, Ne.symm hq, hx]
  cases c with
  | unregisterProcess | unregisterThread | unregisterTask | unregisterPrim => cases hu
  | registerProcess d =>
      obtain ⟨-, rfl⟩ := ok_pair_eq.mp he
      exact hprim d (pPrim d) _ rfl
  | registerThread h =>
      obtain ⟨-, rfl⟩ := ok_pair_eq.mp he
      rfl
  | registerTask d t =>
      obtain ⟨-, e⟩ := processRegisterTask_ok t d (void_eq_ok.mp he).2
      exact congrFun (congrArg Pointers.pOverridden e) p
  | registerPrim d q | mutexCtor q d | semCtor q n d =>
      obtain ⟨-, rfl⟩ := ok_pair_eq.mp he
      exact hprim d q _ rfl
  | _ => cases hreg

theorem Mutex.registers (M : Mutex p hist s) (hg : Additive hist c) (hreg : c.registers = true)
    (he : exec ⟨true, policy⟩ c s = .ok (r, s')) : Mutex p (⟨s, c, r, s'⟩ :: hist) s' := by
  obtain ⟨hu, hf, -⟩ := hg
  obtain ⟨-, -, hpNb, htNb, -⟩ := exec_registers hreg hu he
  have ho := exec_registers_pOverridden (p := p) hreg hu he
  have hholds : ∀ t, holds p (⟨s, c, r, s'⟩ :: hist) t = holds p hist t := by
    intro t
    cases c with
    | mutexLock | mutexLockNb | mutexUnlock => cases hreg
    | _ => simp [holds, acquires, unlocks]
  have hnb : (s'.prim p).pNbOwningTasks = _ := hpNb p
  constructor
  · intro hp
    by_cases hn : c.newPrim = some p
    · rw [if_pos hn] at ho hnb
      exact .free (fun t => (hholds t).trans (M.noPrim (fresh_newPrim hf hn) t)) hnb ho
    · rw [if_neg hn] at ho hnb
      simp only [primRegistered_cons hu, hn, decide_false, Bool.false_or] at hp
      cases M.held hp with
      | free h₁ h₂ h₃ => exact .free (fun t => (hholds t).trans (h₁ t)) (hnb.trans h₂) (ho.trans h₃)
      | taken t h₁ h₂ h₃ =>
          exact .taken t (fun u => (hholds u).trans (h₁ u)) (hnb.trans h₂) (ho.trans h₃)
  · intro t ht
    have htnb : (s'.task t).tNbOwnedPrimitives = _ := htNb t
    rw [hholds, htnb]
    by_cases hn : c.newTask = some t
    · rw [if_pos hn, M.noTask t (fresh_newTask hf hn)]
      rfl
    · simp only [taskRegistered_cons hu, hn, decide_false, Bool.false_or] at ht
      rw [if_neg hn]
      exact M.tNb t ht
  · intro hp t
    simp only [primRegistered_cons hu, Bool.or_eq_false_iff] at hp
    exact (hholds t).trans (M.noPrim hp.2 t)
  · intro t ht
    simp only [taskRegistered_cons hu, Bool.or_eq_false_iff] at ht
    exact (hholds t).trans (M.noTask t ht.2)

/-- A lock that does not stop the task: the mutex was free, and the task is its holder. -/
theorem Mutex.acquire (M : Mutex p hist s) (hreg : c.registers = false)
    (hp : primRegistered hist p = true) (ht : taskRegistered hist t = true)
    (hacquires : ∀ u, acquires p u ⟨s, c, r, s'⟩ = decide (u = t))
    (hnb : (s.prim p).pNbOwningTasks = 0) (hcounters : s'.counters = s.counters.take p t)
    (ho : (s'.prim p).pOverridden = some t) : Mutex p (⟨s, c, r, s'⟩ :: hist) s' := by
  obtain ⟨eprim, etask⟩ := registered_cons s s' r hist hreg
  have hnone : ∀ u, holds p hist u = false := by
    cases M.held hp with
    | free hholds => exact hholds
    | taken u _ hnb₁ => exact absurd (hnb₁.symm.trans hnb) (one_ne_zero_usize u)
  have hholds : ∀ u, holds p (⟨s, c, r, s'⟩ :: hist) u = decide (u = t) := by
    intro u
    simp [holds, hacquires, hnone]
  have hpNb : (s'.prim p).pNbOwningTasks = _ := congrFun (congrArg Counters.pNb hcounters) p
  have htNb : ∀ u, (s'.task u).tNbOwnedPrimitives = _ :=
    fun u => congrFun (congrArg Counters.tNb hcounters) u
  constructor
  · intro _
    refine .taken t hholds ?_ ho
    rw [hpNb]
    simp only [Counters.take, Function.update_self]
    have h0 : s.counters.pNb p = 0 := hnb
    rw [h0, Word.incr_zero]
  · intro u hu
    rw [etask] at hu
    have h0 : s.counters.tNb u = 0 := by
      have h₁ := M.tNb u hu
      rw [hnone, if_neg Bool.false_ne_true] at h₁
      exact h₁
    rw [hholds, htNb]
    by_cases hut : u = t
    · subst hut
      simp only [Counters.take, Function.update_self, decide_true, if_true]
      rw [h0, Word.incr_zero]
    · simp only [Counters.take, Function.update_of_ne hut, hut, decide_false, Bool.false_eq_true,
        if_false]
      exact h0
  · intro hp'
    rw [eprim, hp] at hp'
    cases hp'
  · intro u hu
    rw [etask] at hu
    rw [hholds, decide_eq_false_iff_not]
    rintro rfl
    rw [ht] at hu
    cases hu

theorem Mutex.unlock (M : Mutex p hist s) (hreg : c.registers = false)
    (hp : primRegistered hist p = true)
    (hacquires : ∀ u, acquires p u ⟨s, c, r, s'⟩ = false)
    (hunlocks : ∀ u, unlocks p u ⟨s, c, r, s'⟩ = decide (u = t))
    (ht : (s.prim p).pOverridden = some t) (hcounters : s'.counters = s.counters.release p t)
    (ho : (s'.prim p).pOverridden = none) : Mutex p (⟨s, c, r, s'⟩ :: hist) s' := by
  obtain ⟨eprim, etask⟩ := registered_cons s s' r hist hreg
  have hheld : (∀ u, holds p hist u = decide (u = t)) ∧ (s.prim p).pNbOwningTasks = 1 := by
    cases M.held hp with
    | free _ _ ho => cases ho.symm.trans ht
    | taken u hholds hnb ho =>
        obtain rfl := Option.some.inj (ho.symm.trans ht)
        exact ⟨hholds, hnb⟩
  have hholds : ∀ u, holds p (⟨s, c, r, s'⟩ :: hist) u = false := by
    intro u
    simp [holds, hacquires, hunlocks, hheld.1]
  have hpNb : (s'.prim p).pNbOwningTasks = _ := congrFun (congrArg Counters.pNb hcounters) p
  have htNb : ∀ u, (s'.task u).tNbOwnedPrimitives = _ :=
    fun u => congrFun (congrArg Counters.tNb hcounters) u
  constructor
  · intro _
    refine .free hholds ?_ ho
    rw [hpNb]
    simp only [Counters.release, Function.update_self]
    have h1 : s.counters.pNb p = 1 := hheld.2
    rw [h1, Word.decr_one]
  · intro u hu
    rw [etask] at hu
    have h0 : s.counters.tNb u = _ := M.tNb u hu
    rw [hholds, htNb]
    by_cases hut : u = t
    · subst hut
      simp only [Counters.release, Function.update_self, Bool.false_eq_true, if_false]
      rw [h0, hheld.1, decide_eq_true rfl, if_pos rfl, Word.decr_one]
    · simp only [Counters.release, Function.update_of_ne hut, Bool.false_eq_true, if_false]
      rw [h0, hheld.1, decide_eq_false hut, if_neg Bool.false_ne_true]
  · intro hp'
    rw [eprim, hp] at hp'
    cases hp'
  · exact fun u _ => hholds u

/-! ### One call -/

theorem mutexOnly_frame (honly : mutexOnly p c = true) (hlocks : c.locks = false)
    (hreg : c.registers = false) (he : exec ⟨true, policy⟩ c s = .ok (r, s')) :
    s'.counters = s.counters ∧ (s'.prim p).pOverridden = (s.prim p).pOverridden ∧
      ∀ t, acquires p t ⟨s, c, r, s'⟩ = false ∧ unlocks p t ⟨s, c, r, s'⟩ = false := by
  have htaking : c.taking s = none ∧ c.releasing s = none := by
    cases c with
    | takeOwnership | releaseOwnership | semTake | semTakeNb | semRelease => cases honly
    | mutexLock | mutexLockNb | mutexUnlock => cases hlocks
    | _ => exact ⟨rfl, rfl⟩
  have hoverrides : c.overrides p = false := by
    cases c with
    | overrideTask q t => simpa [mutexOnly, Call.overrides] using honly
    | unoverrideTask q => simpa [mutexOnly, Call.overrides] using honly
    | mutexLock | mutexLockNb | mutexUnlock => cases hlocks
    | unregisterPrim => cases hreg
    | _ => rfl
  refine ⟨?_, exec_pOverridden hreg hoverrides he, fun t => ?_⟩
  · cases exec_ownership hreg he with
    | keep _ _ _ hcounters => exact hcounters
    | take q u htook => cases htaking.1.symm.trans (taking_of_took htook)
    | half q u _ _ htry => cases htaking.2.symm.trans htry
    | release q u _ hreleased => cases htaking.2.symm.trans (releasing_of_released hreleased)
  · cases c with
    | mutexLock | mutexLockNb | mutexUnlock => cases hlocks
    | _ => exact ⟨rfl, rfl⟩

theorem primitiveOverrideTask_pOverridden {task : Option (TaskId k)}
    (he : primitiveOverrideTask ⟨true, policy⟩ p task s = .ok s') :
    (s'.prim p).pOverridden = task := by
  obtain ⟨t, c, s₁, rfl, -, -, -, he⟩ := primitiveOverrideTask_ok.mp he
  have h0 := congrFun (congrArg Pointers.pOverridden (overrideTask_pointers s₁ p t)) p
  rw [(callHook_assigned he).2.1.prim]
  simpa [State.pointers, Pointers.override] using h0

theorem Mutex.acquired (M : Mutex p hist s) (hreg : c.registers = false)
    (hp : primRegistered hist p = true)
    (htask : ∀ {q t}, s.Related q t → taskRegistered hist t = true)
    (hnb : (s.prim p).pNbOwningTasks = 0) (hacq : mutexAcquire ⟨true, policy⟩ p h s = .ok s')
    (hacquires : ∀ t, (s.thread h).tTask = some t →
      (s'.task t).tStopper = (s.task t).tStopper →
      ∀ u, acquires p u ⟨s, c, r, s'⟩ = decide (u = t)) :
    Mutex p (⟨s, c, r, s'⟩ :: hist) s' := by
  obtain ⟨t, ht, hrel, hcounters, hs⟩ := mutexAcquire_step hacq
  obtain ⟨u, hu, -, hov⟩ := mutexAcquire_ok.mp hacq
  obtain rfl := Option.some.inj (ht.symm.trans hu)
  exact M.acquire hreg hp (htask hrel) (hacquires t ht hs) hnb hcounters
    (primitiveOverrideTask_pOverridden hov)

theorem Mutex.release (M : Mutex p hist s) (hp : primRegistered hist p = true)
    (htask : ∀ {q t}, s.Related q t → taskRegistered hist t = true)
    (ho : (s.prim p).pOverridden = some t) {e : BitVec 8} {s₁ : State k}
    (he : primitiveReleaseOwnership ⟨true, policy⟩ p (some t) s = .ok (e, s₁)) :
    e = 0 ∧ s₁ = releaseOwnership p t s ∧ s.Related p t := by
  obtain ⟨u, hu, hchecks, hcases⟩ := primitiveReleaseOwnership_ok.mp he
  obtain rfl := Option.some.inj hu
  have hrel := (hchecks rfl).1
  cases M.held hp with
  | free _ _ ho₁ => cases ho₁.symm.trans ho
  | taken u hholds hnb ho₁ =>
      obtain rfl := Option.some.inj (ho₁.symm.trans ho)
      have hone := one_ne_zero_usize u
      have htNb := M.tNb u (htask hrel)
      rw [hholds, decide_eq_true rfl, if_pos rfl] at htNb
      rcases hcases with ⟨h0, -⟩ | ⟨-, h0, -⟩ | ⟨-, -, rfl, rfl⟩
      · exact absurd (hnb.symm.trans h0) hone
      · exact absurd (htNb.symm.trans h0) hone
      · exact ⟨rfl, rfl, hrel⟩

/-- What an unlock that returns has done, and that no task was stopped by the mutex. -/
theorem Mutex.unlocked {v : View k} (M : Mutex p hist s) (G : Good s v) (R : Registered hist v)
    (hp : primRegistered hist p = true) (ho : (s.prim p).pOverridden = some t)
    (ht : (s.thread h).tTask = some t)
    (he : schedMutexUnlock ⟨true, policy⟩ p h s = .ok (r, s')) :
    r = 0 ∧ s.links.isEmpty (.pStopped p) = true ∧ (s'.prim p).pOverridden = none ∧
      s'.counters = s.counters.release p t ∧
      ∀ u, (s'.task u).tStopper = (s.task u).tStopper := by
  have htask : ∀ {q t}, s.Related q t → taskRegistered hist t = true :=
    fun hrel => (R.task _).mp (G.attached.task _ hrel.member)
  have hP : v.HasPrim p := (R.prim p).mpr hp
  rcases schedMutexUnlock_ok.mp he with ⟨hn, -⟩ | ⟨-, hne, -⟩ | ⟨u, e, s₁, hu, -, h₁, hcases⟩
  · cases hn.symm.trans ho
  · exact absurd (ht.trans ho.symm) hne
  · obtain rfl := Option.some.inj (hu.symm.trans ho)
    obtain ⟨rfl, rfl, -⟩ := M.release hp htask ho h₁
    rcases hcases with ⟨hne, -⟩ | ⟨-, rfl, s₂, h₂, h₃⟩
    · exact absurd rfl hne
    · obtain ⟨hempty, rfl⟩ := resumeFirst_ok.mp h₃
      obtain ⟨v₂, G₂, e₂, hstopped, -, hov⟩ :=
        (G.congr (releaseOwnership_pointers s p u)).unOverride_lists hP h₂
      refine ⟨rfl, ?_, hov, ?_, fun x => ?_⟩
      · obtain ⟨l, hl⟩ := Option.isSome_iff_exists.mp hP
        rw [G.isEmpty_iff hl]
        exact (G₂.isEmpty_iff (hstopped ▸ hl)).mp hempty
      · rw [primUnOverride_counters h₂, releaseOwnership_counters]
      · rw [primUnOverride_tStopper x h₂]
        exact congrFun (congrArg Pointers.tStopper (releaseOwnership_pointers s p u)) x

/-- **One call.** -/
theorem Mutex.step {v : View k} (M : Mutex p hist s) (G : Good s v) (R : Registered hist v)
    (hg : MutexCall p hist s c) (he : exec ⟨true, policy⟩ c s = .ok (r, s')) :
    Mutex p (⟨s, c, r, s'⟩ :: hist) s' := by
  obtain ⟨hadd, honly⟩ := hg
  have htask : ∀ {q t}, s.Related q t → taskRegistered hist t = true :=
    fun hrel => (R.task _).mp (G.attached.task _ hrel.member)
  cases hreg : c.registers with
  | true => exact M.registers hadd hreg he
  | false =>
      cases hlocks : c.locks with
      | false =>
          obtain ⟨hcounters, ho, hget⟩ := mutexOnly_frame honly hlocks hreg he
          exact M.keep hreg (fun t => (hget t).1) (fun t => (hget t).2) hcounters ho
      | true =>
          have ho := hadd.2.2
          cases c with
          | mutexLock q h =>
              obtain rfl : q = p := by simpa [mutexOnly] using honly
              rcases schedMutexLock_ok.mp (void_eq_ok.mp he).2 with ⟨-, hstop⟩ | ⟨hnb, hacq⟩
              · obtain ⟨t, ht, h0, h1⟩ := tStopper_stopThread hstop
                have htook : took ⟨s, .mutexLock q h, r, s'⟩ = none := by
                  simp [took, Call.taking, ht, h0, h1]
                exact M.keep hreg (fun u => by simp [acquires, htook]) (fun _ => rfl)
                  (primitiveStopThread_counters hstop) (primitiveStopThread_pOverridden hstop)
              · refine M.acquired hreg ho htask hnb hacq fun t ht hs u => ?_
                have htook : took ⟨s, .mutexLock q h, r, s'⟩ = some (q, t) := by
                  simp [took, Call.taking, ht, hs]
                simp [acquires, htook, eq_comm (a := t)]
          | mutexLockNb q h =>
              obtain rfl : q = p := by simpa [mutexOnly] using honly
              rcases schedMutexLockNb_ok.mp he with ⟨-, rfl, rfl⟩ | ⟨hnb, rfl, hacq⟩
              · exact M.keep hreg (fun u => by simp [acquires, took]) (fun _ => rfl) rfl rfl
              · refine M.acquired hreg ho htask hnb hacq fun t ht _ u => ?_
                have htook : took ⟨s, .mutexLockNb q h, 1, s'⟩ = some (q, t) := by
                  simp [took, Call.taking, ht]
                have hacquires : acquires q u ⟨s, .mutexLockNb q h, 1, s'⟩ =
                    decide (took ⟨s, .mutexLockNb q h, 1, s'⟩ = some (q, u)) := rfl
                rw [hacquires, htook]
                simp [eq_comm (a := t)]
          | mutexUnlock q h =>
              obtain rfl : q = p := by simpa [mutexOnly] using honly
              have hsame : ∀ u, (s'.task u).tStopper = (s.task u).tStopper →
                  acquires q u ⟨s, .mutexUnlock q h, r, s'⟩ = false := by
                intro u hu
                simp only [acquires, hu]
                cases (s.task u).tStopper <;> simp
              rcases schedMutexUnlock_ok.mp he with ⟨-, rfl, rfl⟩ | ⟨-, -, rfl, rfl⟩ |
                ⟨t, -, -, ho', ht, -⟩
              · exact M.keep hreg (fun u => hsame u rfl) (fun u => by simp [unlocks]) rfl rfl
              · exact M.keep hreg (fun u => hsame u rfl) (fun u => by simp [unlocks]) rfl rfl
              · obtain ⟨rfl, -, hov, hcounters, hs⟩ := M.unlocked G R ho ho' ht he
                refine M.unlock (t := t) hreg ho (fun u => hsame u (hs u)) (fun u => ?_) ho' hcounters hov
                simp [unlocks, ht, eq_comm, beq_eq_decide]
          | _ => cases hlocks

/-! ### The unlock of the holder -/

theorem primitiveReleaseOwnership_checksOnly :
    ChecksOnly (primitiveReleaseOwnership ⟨true, policy⟩ p (some t) s) := by
  refine .check rfl fun _ => .deref rfl ?_
  refine .check rfl fun _ => .check rfl fun _ => .check rfl fun _ => .check rfl fun _ => ?_
  split
  · exact .ok _
  · dsimp only
    split
    · exact .ok _
    · exact .ok _

theorem primUnOverride_checksOnly (hrel : s.Related p t) :
    ChecksOnly (primUnOverride ⟨true, policy⟩ p s) := by
  obtain ⟨c, hc⟩ := Option.ne_none_iff_exists'.mp hrel.member
  have hsched : (s.process c).pSched = true := by
    have h := hrel.sched
    rw [hc] at h
    exact h
  unfold primUnOverride
  split
  · exact .ok _
  · refine .deref (hrel.same.trans hc) ?_
    simp only [hsched]
    exact callHook_checksOnly rfl

theorem Mutex.unlock_checksOnly {v : View k} (M : Mutex p hist s) (G : Good s v)
    (R : Registered hist v) (hp : primRegistered hist p = true)
    (ho : (s.prim p).pOverridden = some t) (ht : (s.thread h).tTask = some t)
    (hempty : s.links.isEmpty (.pStopped p) = true) :
    ChecksOnly (schedMutexUnlock ⟨true, policy⟩ p h s) := by
  have hP : v.HasPrim p := (R.prim p).mpr hp
  unfold schedMutexUnlock
  simp only [ho, ht, reduceCtorEq, if_false, ne_eq, not_true_eq_false]
  refine .bind primitiveReleaseOwnership_checksOnly fun x h₁ => ?_
  obtain ⟨e, s₁⟩ := x
  obtain ⟨rfl, rfl, hrel⟩ :=
    M.release hp (fun hrel => (R.task _).mp (G.attached.task _ hrel.member)) ho h₁
  dsimp only
  rw [if_neg (not_not_intro rfl)]
  have hrel' : (releaseOwnership p t s).Related p t := by
    have e := releaseOwnership_pointers s p t
    have hprc : ((releaseOwnership p t s).task t).tProcess = (s.task t).tProcess :=
      congrFun (congrArg Pointers.tProcess e) t
    refine ⟨hprc ▸ hrel.member, ?_, hprc ▸ hrel.sched⟩
    exact (congrFun (congrArg Pointers.pProcess e) p).trans (hrel.same.trans hprc.symm)
  refine .bind (.deref rfl (primUnOverride_checksOnly hrel')) fun s₂ h₂ => ?_
  obtain ⟨l, hl⟩ := Option.isSome_iff_exists.mp hP
  obtain ⟨v₂, G₂, -, hstopped, -, -⟩ := (G.congr (releaseOwnership_pointers s p t)).unOverride_lists
    hP (primitiveUnoverrideTask_ok.mp h₂)
  have hempty₂ : s₂.links.isEmpty (.pStopped p) = true :=
    (G₂.isEmpty_iff (hstopped ▸ hl)).mpr ((G.isEmpty_iff hl).mp hempty)
  unfold resumeFirst
  rw [if_pos hempty₂]
  exact .ok _

/-! ### Runs -/

/-- The mutex along runs. -/
theorem reach_mutex (hr : Reach policy (MutexCall p) hist s) :
    (∃ v, Good s v ∧ Registered hist v) ∧ Mutex p hist s := by
  refine hr.invariant (J := fun hist s => (∃ v, Good s v ∧ Registered hist v) ∧ Mutex p hist s) ?_ ?_
  · exact fun s hs => ⟨⟨_, hs.good⟩, .init⟩
  · rintro hist s c r s' ⟨⟨v, G, R⟩, M⟩ hg he
    exact ⟨exec_good G R hg.1.regular he, M.step G R hg he⟩

theorem Mutex.holder (M : Mutex p hist s) (hp : primRegistered hist p = true)
    (ht : holds p hist t = true) : (s.prim p).pOverridden = some t ∧
      (s.prim p).pNbOwningTasks = 1 ∧ ∀ u, holds p hist u = true → u = t := by
  cases M.held hp with
  | free hholds => cases (hholds t).symm.trans ht
  | taken u hholds hnb ho =>
      have hu : ∀ {x}, holds p hist x = true → x = u := fun hx => by simpa [hholds] using hx
      obtain rfl := hu ht
      exact ⟨ho, hnb, fun x hx => hu hx⟩

/-- **Mutual exclusion.**  In every run in which no holder unlocks the mutex while tasks are
stopped by it, the mutex has at most one holder, which it overrides and whose taking it counts;
the unlock of the holder fails in a check at most if no task is stopped, and returns `0` and
frees the mutex if it returns. -/
theorem mutual_exclusion (hr : Reach policy (QuietUnlock p) hist s)
    (hp : primRegistered hist p = true) :
    (∀ t u, holds p hist t = true → holds p hist u = true → u = t) ∧
    (∀ t, holds p hist t = true →
      (s.prim p).pOverridden = some t ∧ (s.prim p).pNbOwningTasks = 1) ∧
    ∀ t h, holds p hist t = true → (s.thread h).tTask = some t →
      (s.links.isEmpty (.pStopped p) = true →
        ChecksOnly (schedMutexUnlock ⟨true, policy⟩ p h s)) ∧
      ∀ r s', schedMutexUnlock ⟨true, policy⟩ p h s = .ok (r, s') →
        r = 0 ∧ s.links.isEmpty (.pStopped p) = true ∧ (s'.prim p).pOverridden = none ∧
          (s'.prim p).pNbOwningTasks = 0 := by
  obtain ⟨⟨v, G, R⟩, M⟩ := reach_mutex (hr.mono fun hg => hg.1)
  refine ⟨fun t u ht hu => (M.holder hp ht).2.2 u hu, fun t ht => ?_, fun t h ht hh => ⟨?_, ?_⟩⟩
  · obtain ⟨ho, hnb, -⟩ := M.holder hp ht
    exact ⟨ho, hnb⟩
  · exact fun hempty => M.unlock_checksOnly G R hp (M.holder hp ht).1 hh hempty
  · intro r s' he
    obtain ⟨ho, hnb, -⟩ := M.holder hp ht
    obtain ⟨hr, hempty, hov, hcounters, -⟩ := M.unlocked G R hp ho hh he
    refine ⟨hr, hempty, hov, ?_⟩
    have hpNb : (s'.prim p).pNbOwningTasks = _ := congrFun (congrArg Counters.pNb hcounters) p
    have h1 : s.counters.pNb p = 1 := hnb
    rw [hpNb]
    simp only [Counters.release, Function.update_self]
    rw [h1, Word.decr_one]

set_option maxRecDepth 10000 in
/-- The first task locks and unlocks the mutex, then the second one locks it. -/
theorem mutual_exclusion_run : ∃ (hist : Hist small) (s : State small),
    holds (.other 0) hist 1 = true ∧
    (∀ t u, holds (.other 0) hist t = true → holds (.other 0) hist u = true → u = t) ∧
    ∀ t, holds (.other 0) hist t = true →
      (s.prim (.other 0)).pOverridden = some t ∧ (s.prim (.other 0)).pNbOwningTasks = 1 := by
  obtain ⟨hist, s, hr, htest⟩ := exists_reach_of_replay (exec ⟨true, quiet⟩)
    (QuietUnlock (.other 0)) boot_smallBoot
    (fun hist _ => primRegistered hist (.other 0) && holds (.other 0) hist 1)
    (smallSetup ++ [.mutexCtor (.other 0) 0, .assignTask 0 (some 0), .assignTask 1 (some 1),
      .mutexLock (.other 0) 0, .mutexLockNb (.other 0) 1, .mutexUnlock (.other 0) 0,
      .mutexLock (.other 0) 1]) (by decide +kernel)
  simp only [Bool.and_eq_true] at htest
  have h := mutual_exclusion hr htest.1
  exact ⟨hist, s, htest.2, h.1, h.2.1⟩

/-- The first task holds the mutex; the second one has been stopped by its lock. -/
def contendedCalls : List (Call small) :=
  smallSetup ++ [.mutexCtor (.other 0) 0, .assignTask 0 (some 0), .assignTask 1 (some 1),
    .mutexLock (.other 0) 0, .mutexLock (.other 0) 1]

set_option maxRecDepth 10000 in
/-- The unlock of the first task uses an invalid pointer: it hands the mutex to no one. -/
theorem contended_unlock_fails : ¬∀ (hist : Hist small) (s : State small) (p : PrimId small),
    Reach quiet (MutexCall p) hist s → primRegistered hist p = true →
      (∀ t u, holds p hist t = true → holds p hist u = true → u = t) ∧
      (∀ t, holds p hist t = true →
        (s.prim p).pOverridden = some t ∧ (s.prim p).pNbOwningTasks = 1) ∧
      ∀ t h, holds p hist t = true → (s.thread h).tTask = some t →
        schedMutexUnlock ⟨true, quiet⟩ p h s ≠ .error .check →
        s.links.isEmpty (.pStopped p) = false →
        ∃ s', schedMutexUnlock ⟨true, quiet⟩ p h s = .ok (0, s') ∧
          ∃ u, (s.task u).tStopper = some p ∧ (s'.task u).tStopper = none ∧
            (s'.prim p).pOverridden = some u ∧ (s'.prim p).pNbOwningTasks = 1 := by
  intro hall
  obtain ⟨hist, s, hr, htest⟩ := exists_reach_of_replay (exec ⟨true, quiet⟩)
    (MutexCall (.other 0)) boot_smallBoot
    (fun hist s => primRegistered hist (.other 0) && (holds (.other 0) hist 0 &&
      ((s.thread 0).tTask == some 0 && (!s.links.isEmpty (.pStopped (.other 0)) &&
        fails .pointer (schedMutexUnlock ⟨true, quiet⟩ (.other 0) 0 s))))) contendedCalls (by decide +kernel)
  simp only [Bool.and_eq_true, Bool.not_eq_true', beq_iff_eq] at htest
  obtain ⟨hp, hholds, htask, hempty, hfault⟩ := htest
  have hpointer : schedMutexUnlock ⟨true, quiet⟩ (.other 0) 0 s = .error .pointer :=
    fails_iff.mp hfault
  obtain ⟨s', he, -⟩ := (hall hist s (.other 0) hr hp).2.2 0 0 hholds htask
    (by simp [hpointer]) hempty
  cases hpointer.symm.trans he

end KernelTk.Sched
