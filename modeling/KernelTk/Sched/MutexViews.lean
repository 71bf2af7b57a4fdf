import KernelTk.Sched.Mutex
import KernelTk.Sched.Execution

/-! # The two views of a mutex

Lockers read `p_nb_owning_tasks`, unlockers read `p_overridden`.  The two are assigned one after another,
by two functions, and either may fail between them.

* **Property.** `MutexViews` : the two fields of every mutex agree, and the counter is one at most.  What is
  a mutex is known from the run (`isMutex`).
* **Runs.** `ThroughMutex` : a mutex is taken, released and overrides a task by the functions of
  `mutex.c` only; otherwise any calls, unregistrations included.
* **Frame.** Few moves set the two fields of a primitive (`Move.setsViews`), so that a call that neither
  owns, overrides nor registers it leaves them (`exec_views`); all mutexes but one are treated so.
* **Condition.** `OwnerCounted` : an unlock by the owner decreases the counter of the mutex, then fails if
  the counter of the owner is null.  It may be, as the counter of a task counts its mutexes and its
  semaphores together, and any task may release a semaphore.
* **Theorem.** A run has the property throughout iff no owner unlocks with a null counter
  (`mutex_views_iff`): every other call keeps the two fields in agreement, whatever is broken elsewhere
  (`views_step`).  In the state that `mutex_views_fails` reaches, the mutex is free for lockers and held
  for unlockers. -/

namespace KernelTk.Sched

open Transition

variable {k : Machine} {policy : Policy k} {hist : Hist k} {s s' : State k} {c : Call k}
  {r : BitVec 8} {p q : PrimId k} {t : TaskId k} {h : ThreadId k} {d : ProcessId k}
  {T : ThreadId k → Prop}

/-- `sched_mutex_ctor` is the latest registration of the primitive. -/
def isMutex : Hist k → PrimId k → Bool
  | [], _ => false
  | e :: hist, p =>
      match e.call with
      | .mutexCtor q _ => p == q || isMutex hist p
      | .registerProcess d => p != pPrim d && isMutex hist p
      | .registerPrim _ q | .semCtor q _ _ | .unregisterPrim q => p != q && isMutex hist p
      | .unregisterProcess d => (e.pre.prim p).pProcess != some d && isMutex hist p
      | _ => isMutex hist p

/-- The two views of a mutex agree. -/
def ViewsAgree (p : PrimId k) (s : State k) : Prop :=
  ((s.prim p).pNbOwningTasks ≠ 0 ↔ (s.prim p).pOverridden ≠ none) ∧
    (s.prim p).pNbOwningTasks.toNat ≤ 1

/-- The two views of every mutex agree. -/
def MutexViews (hist : Hist k) (s : State k) : Prop :=
  ∀ p, isMutex hist p = true → ViewsAgree p s

/-- A mutex is taken, released and overrides a task by the functions of `mutex.c` only; otherwise,
any calls. -/
def ThroughMutex (hist : Hist k) (_ : State k) : Call k → Prop
  | .takeOwnership p _ | .releaseOwnership p _ | .overrideTask p _ | .unoverrideTask p
  | .semTake p _ | .semTakeNb p _ | .semRelease p _ => isMutex hist p = false
  | _ => True

/-- The owner that unlocks a mutex has a counter that is not null. -/
def OwnerCounted (hist : Hist k) (s : State k) : Call k → Prop
  | .mutexUnlock p h => isMutex hist p = true → ∀ t, (s.prim p).pOverridden = some t →
      (s.thread h).tTask = some t → (s.task t).tNbOwnedPrimitives ≠ 0
  | _ => True

/-! ### Frames -/

/-- The moves that change the two views of a primitive. -/
def Move.setsViews (p : PrimId k) : Move k → Bool
  | .edit (.take q _) | .edit (.release q _) | .edit (.releasePrim q) | .edit (.override q _)
  | .edit (.unoverride q _) | .addPrim _ q => q == p
  | _ => false

theorem Move.apply_views {x : State k} (m : Move k) (hm : m.setsViews p = false) :
    ((m.apply x).prim p).pNbOwningTasks = (x.prim p).pNbOwningTasks ∧
      ((m.apply x).prim p).pOverridden = (x.prim p).pOverridden := by
  have hcounters : ∀ {y : State k}, y.counters.pNb p = x.counters.pNb p →
      (y.prim p).pNbOwningTasks = (x.prim p).pNbOwningTasks := fun e => e
  have hassigned : ∀ {y : State k}, Assigned x y →
      (y.prim p).pNbOwningTasks = (x.prim p).pNbOwningTasks ∧
        (y.prim p).pOverridden = (x.prim p).pOverridden := by
    intro y A
    rw [A.prim]
    exact ⟨rfl, rfl⟩
  have hne : ∀ {q : PrimId k}, (q == p) = false → p ≠ q := by
    intro q hq
    exact (beq_eq_false_iff_ne.mp hq).symm
  have ho : ((m.apply x).prim p).pOverridden = (m.pointers x.pointers).pOverridden p :=
    congrFun (congrArg Pointers.pOverridden (m.apply_pointers x)) p
  cases m with
  | edit e =>
      refine ⟨?_, ho.trans ?_⟩
      · cases e with
        | stop q t =>
            exact hcounters (congrFun (congrArg Counters.pNb
              (counters_of_ledger (stopTask_ledger x q t))) p)
        | resume q t =>
            exact hcounters (congrFun (congrArg Counters.pNb
              (counters_of_ledger (resumeTask_ledger x q t))) p)
        | override q t =>
            exact hcounters (congrFun (congrArg Counters.pNb
              (counters_of_ledger (overrideTask_ledger x q t))) p)
        | unoverride q t =>
            exact hcounters (congrFun (congrArg Counters.pNb
              (counters_of_ledger (unOverride_ledger x q t))) p)
        | take q t =>
            have e := congrFun (congrArg Counters.pNb (takeOwnership_counters x q t)) p
            exact hcounters (e.trans (Function.update_of_ne (hne hm) ..))
        | release q t =>
            have e := congrFun (congrArg Counters.pNb (releaseOwnership_counters x q t)) p
            exact hcounters (e.trans (Function.update_of_ne (hne hm) ..))
        | releasePrim q =>
            have e := congrFun (congrArg Counters.pNb (releasePrim_counters x q)) p
            exact hcounters (e.trans (Function.update_of_ne (hne hm) ..))
        | _ => rfl
      · cases e with
        | override q t | unoverride q t => exact Function.update_of_ne (hne hm) ..
        | _ => rfl
  | assign h t => exact hassigned (assignTask_assigned h t x)
  | leave t => exact hassigned (threadUnregisterTask_assigned t x)
  | addPrim d q =>
      have hpq := hne hm
      simp [Move.apply, processRegisterPrim, hpq]
  | addProcess d => simp [Move.apply, registerProcess]
  | _ => exact ⟨rfl, rfl⟩

theorem exec_views (Z : Zones s.pointers T) (hprimed : s.Primed) (howns : c.owns p = false)
    (hover : c.overrides p = false) (hnew : ∀ d, c.primOf ≠ some (d, p))
    (he : exec ⟨true, policy⟩ c s = .ok (r, s')) :
    (s'.prim p).pNbOwningTasks = (s.prim p).pNbOwningTasks ∧
      (s'.prim p).pOverridden = (s.prim p).pOverridden := by
  refine (exec_moves Z hprimed he).keeps
    (I := fun x => (x.prim p).pNbOwningTasks = (s.prim p).pNbOwningTasks ∧
      (x.prim p).pOverridden = (s.prim p).pOverridden) (fun {x} m hx _ ha => ?_) ⟨rfl, rfl⟩
  have hsets : m.setsViews p = false := by
    by_contra hsets
    rw [Bool.not_eq_false] at hsets
    cases m with
    | edit e =>
        cases e with
        | take q t | release q t | releasePrim q =>
            obtain rfl := beq_iff_eq.mp hsets
            exact Bool.false_ne_true (howns.symm.trans ha)
        | override q t | unoverride q t =>
            obtain rfl := beq_iff_eq.mp hsets
            exact Bool.false_ne_true (hover.symm.trans ha)
        | _ => cases hsets
    | addPrim d q =>
        obtain rfl := beq_iff_eq.mp hsets
        exact hnew d ha
    | _ => cases hsets
  obtain ⟨h₁, h₂⟩ := m.apply_views (x := x) hsets
  exact ⟨h₁.trans hx.1, h₂.trans hx.2⟩

/-- A new primitive is not taken and overrides no task. -/
theorem exec_new_views (hnew : c.primOf = some (d, p))
    (he : exec ⟨true, policy⟩ c s = .ok (r, s')) :
    (s'.prim p).pNbOwningTasks = 0 ∧ (s'.prim p).pOverridden = none := by
  cases c with
  | registerProcess e | registerPrim e q | mutexCtor q e | semCtor q n e =>
      obtain ⟨-, rfl⟩ := ok_pair_eq.mp he
      obtain ⟨rfl, rfl⟩ := Prod.mk.inj (Option.some.inj hnew)
      simp [schedRegisterProcess, schedMutexCtor, schedSemCtor, processRegisterPrim]
  | _ => cases hnew

/-! ### One call -/

theorem ViewsAgree.free (A : ViewsAgree p s) (hn : (s.prim p).pNbOwningTasks = 0) :
    (s.prim p).pOverridden = none := by
  by_contra ho
  exact A.1.mpr ho hn

theorem ViewsAgree.of_free (hn : (s.prim p).pNbOwningTasks = 0)
    (ho : (s.prim p).pOverridden = none) : ViewsAgree p s := by
  unfold ViewsAgree
  rw [hn, ho]
  simp

theorem ViewsAgree.congr (A : ViewsAgree p s)
    (hn : (s'.prim p).pNbOwningTasks = (s.prim p).pNbOwningTasks)
    (ho : (s'.prim p).pOverridden = (s.prim p).pOverridden) : ViewsAgree p s' := by
  unfold ViewsAgree
  rw [hn, ho]
  exact A

theorem ViewsAgree.acquire (hn : (s.prim p).pNbOwningTasks = 0)
    (hacq : mutexAcquire ⟨true, policy⟩ p h s = .ok s') : ViewsAgree p s' := by
  obtain ⟨t, -, -, hcounters, -⟩ := mutexAcquire_step hacq
  obtain ⟨u, -, -, hover⟩ := mutexAcquire_ok.mp hacq
  have ho := primitiveOverrideTask_pOverridden hover
  have hone : (s'.prim p).pNbOwningTasks = 1 := by
    have e : (s'.prim p).pNbOwningTasks = _ := congrFun (congrArg Counters.pNb hcounters) p
    have e0 : s.counters.pNb p = 0 := hn
    rw [e]
    simp only [Counters.take, Function.update_self]
    rw [e0, Word.incr_zero]
  have h1 := one_ne_zero_usize t
  have hle : (1 : Usize k).toNat ≤ 1 := by
    have hlt := k.fits
    have ht := t.isLt
    rw [Word.toNat_one (by omega)]
  unfold ViewsAgree
  rw [hone, ho]
  exact ⟨iff_of_true h1 (Option.some_ne_none u), hle⟩

/-- The unlock of a mutex. -/
theorem ViewsAgree.unlock_iff (A : ViewsAgree p s)
    (he : schedMutexUnlock ⟨true, policy⟩ p h s = .ok (r, s')) :
    ViewsAgree p s' ↔ ∀ t, (s.prim p).pOverridden = some t → (s.thread h).tTask = some t →
      (s.task t).tNbOwnedPrimitives ≠ 0 := by
  rcases schedMutexUnlock_ok.mp he with ⟨hn, -, rfl⟩ | ⟨-, hne, -, rfl⟩ |
    ⟨t, e, s₁, ho, ht, h₁, hcases⟩
  · refine iff_of_true A fun t ho => ?_
    cases hn.symm.trans ho
  · exact iff_of_true A fun t ho ht => absurd (ht.trans ho.symm) hne
  · have hpos : (s.prim p).pNbOwningTasks ≠ 0 := A.1.mpr (by simp [ho])
    have hdecr : (s.prim p).pNbOwningTasks - 1 = 0 := by
      have hle := A.2
      have htoNat := Word.toNat_decr hpos
      exact BitVec.eq_of_toNat_eq (by rw [htoNat]; simp; omega)
    obtain ⟨u, hu, -, hrelease⟩ := primitiveReleaseOwnership_ok.mp h₁
    obtain rfl := Option.some.inj hu
    rcases hrelease with ⟨h0, -⟩ | ⟨-, h0, rfl, rfl⟩ | ⟨-, h0, rfl, rfl⟩
    · exact absurd h0 hpos
    · -- half of the release: the mutex is free for the lockers, and still overrides its owner
      rcases hcases with ⟨-, -, rfl⟩ | ⟨h1, -⟩
      · refine iff_of_false (fun A' => ?_) fun hall => hall t ho ht h0
        have hfree : ((releasePrim p s).prim p).pNbOwningTasks = 0 := by
          simpa [releasePrim] using hdecr
        have hnone := A'.free hfree
        have hkept : ((releasePrim p s).prim p).pOverridden = (s.prim p).pOverridden := by
          simp [releasePrim]
        cases (ho.symm.trans hkept.symm).trans hnone
      · cases h1
    · rcases hcases with ⟨h1, -⟩ | ⟨-, -, s₂, h₂, h₃⟩
      · exact absurd rfl h1
      · obtain ⟨-, rfl⟩ := resumeFirst_ok.mp h₃
        refine iff_of_true (.of_free ?_ (primUnOverride_pOverridden h₂)) fun v hv _ => ?_
        · have e := (primUnOverride_counters h₂).trans (releaseOwnership_counters s p t)
          have e' : (s'.prim p).pNbOwningTasks = _ := congrFun (congrArg Counters.pNb e) p
          rw [e']
          simp only [Counters.release, Function.update_self]
          exact hdecr
        · obtain rfl := Option.some.inj (ho.symm.trans hv)
          exact h0

theorem isMutex_cons (hm : isMutex (⟨s, c, r, s'⟩ :: hist) p = true) :
    (∃ d, c = .mutexCtor p d) ∨
      isMutex hist p = true ∧ c ≠ .unregisterPrim p ∧ ∀ d, c.primOf ≠ some (d, p) := by
  cases c with
  | mutexCtor q d =>
      by_cases hq : p = q
      · exact .inl ⟨d, hq ▸ rfl⟩
      · refine .inr ⟨by simpa [isMutex, hq] using hm, nofun, fun e he => hq ?_⟩
        exact ((Prod.mk.inj (Option.some.inj he)).2).symm
  | registerProcess d =>
      obtain ⟨hne, hm⟩ := Bool.and_eq_true_iff.mp hm
      refine .inr ⟨hm, nofun, fun e he => bne_iff_ne.mp hne ?_⟩
      exact ((Prod.mk.inj (Option.some.inj he)).2).symm
  | registerPrim d q | semCtor q n d =>
      obtain ⟨hne, hm⟩ := Bool.and_eq_true_iff.mp hm
      refine .inr ⟨hm, nofun, fun e he => bne_iff_ne.mp hne ?_⟩
      exact ((Prod.mk.inj (Option.some.inj he)).2).symm
  | unregisterPrim q =>
      obtain ⟨hne, hm⟩ := Bool.and_eq_true_iff.mp hm
      refine .inr ⟨hm, fun e => bne_iff_ne.mp hne ?_, nofun⟩
      cases e
      rfl
  | unregisterProcess d => exact .inr ⟨(Bool.and_eq_true_iff.mp hm).2, nofun, nofun⟩
  | _ => exact .inr ⟨hm, nofun, nofun⟩

theorem MutexViews.others (hviews : MutexViews hist s) (Z : Zones s.pointers T) (hprimed : s.Primed)
    (hg : ThroughMutex hist s c) (he : exec ⟨true, policy⟩ c s = .ok (r, s'))
    (hm : isMutex (⟨s, c, r, s'⟩ :: hist) p = true)
    (hlocks : ∀ h, c ≠ .mutexLock p h ∧ c ≠ .mutexLockNb p h ∧ c ≠ .mutexUnlock p h) :
    ViewsAgree p s' := by
  rcases isMutex_cons hm with ⟨d, rfl⟩ | ⟨hm, hforget, hnew⟩
  · obtain ⟨hn, ho⟩ := exec_new_views (p := p) (d := d) rfl he
    exact .of_free hn ho
  · have hne : ∀ {q : PrimId k}, isMutex hist q = false → (q == p) = false := by
      rintro q hq
      rw [beq_eq_false_iff_ne]
      rintro rfl
      exact Bool.false_ne_true (hq.symm.trans hm)
    have hlock : ∀ {q : PrimId k} {h : ThreadId k}, c = .mutexLock q h ∨ c = .mutexLockNb q h ∨
        c = .mutexUnlock q h → (q == p) = false := by
      rintro q h hc
      rw [beq_eq_false_iff_ne]
      rintro rfl
      obtain ⟨h₁, h₂, h₃⟩ := hlocks h
      rcases hc with hc | hc | hc
      · exact h₁ hc
      · exact h₂ hc
      · exact h₃ hc
    have hframe : c.owns p = false ∧ c.overrides p = false := by
      cases c with
      | takeOwnership q t | releaseOwnership q t | semTake q h | semTakeNb q h | semRelease q h =>
          exact ⟨hne hg, rfl⟩
      | overrideTask q t | unoverrideTask q => exact ⟨rfl, hne hg⟩
      | unregisterPrim q =>
          refine ⟨rfl, beq_eq_false_iff_ne.mpr ?_⟩
          rintro rfl
          exact hforget rfl
      | mutexLock q h => exact ⟨hlock (.inl rfl), hlock (.inl rfl)⟩
      | mutexLockNb q h => exact ⟨hlock (.inr (.inl rfl)), hlock (.inr (.inl rfl))⟩
      | mutexUnlock q h => exact ⟨hlock (.inr (.inr rfl)), hlock (.inr (.inr rfl))⟩
      | _ => exact ⟨rfl, rfl⟩
    obtain ⟨hn, ho⟩ := exec_views Z hprimed hframe.1 hframe.2 hnew he
    exact (hviews p hm).congr hn ho

/-- **One call.** -/
theorem views_step (Z : Zones s.pointers T) (hprimed : s.Primed) (hviews : MutexViews hist s)
    (hg : ThroughMutex hist s c) (he : exec ⟨true, policy⟩ c s = .ok (r, s')) :
    MutexViews (⟨s, c, r, s'⟩ :: hist) s' ↔ OwnerCounted hist s c := by
  have hother : ∀ p, isMutex (⟨s, c, r, s'⟩ :: hist) p = true →
      (∀ h, c ≠ .mutexLock p h ∧ c ≠ .mutexLockNb p h ∧ c ≠ .mutexUnlock p h) → ViewsAgree p s' :=
    fun p => hviews.others Z hprimed hg he
  have hquiet : (∀ p h, c ≠ .mutexLock p h ∧ c ≠ .mutexLockNb p h ∧ c ≠ .mutexUnlock p h) →
      MutexViews (⟨s, c, r, s'⟩ :: hist) s' := fun hc p hm => hother p hm fun h => hc p h
  cases c with
  | mutexLock q h =>
      refine iff_of_true (fun p hm => ?_) trivial
      by_cases hpq : p = q
      · subst hpq
        rcases schedMutexLock_ok.mp (void_eq_ok.mp he).2 with ⟨-, hstop⟩ | ⟨hn, hacq⟩
        · have hn := congrFun (congrArg Counters.pNb (primitiveStopThread_counters hstop)) p
          exact (hviews p hm).congr hn (primitiveStopThread_pOverridden hstop)
        · exact .acquire hn hacq
      · exact hother p hm fun g => ⟨fun e => hpq (by cases e; rfl), nofun, nofun⟩
  | mutexLockNb q h =>
      refine iff_of_true (fun p hm => ?_) trivial
      by_cases hpq : p = q
      · subst hpq
        rcases schedMutexLockNb_ok.mp he with ⟨-, -, rfl⟩ | ⟨hn, -, hacq⟩
        · exact hviews p hm
        · exact .acquire hn hacq
      · exact hother p hm fun g => ⟨nofun, fun e => hpq (by cases e; rfl), nofun⟩
  | mutexUnlock q h =>
      constructor
      · intro hafter hm
        exact ((hviews q hm).unlock_iff he).mp (hafter q hm)
      · intro hcounted p hm
        by_cases hpq : p = q
        · subst hpq
          exact ((hviews p hm).unlock_iff he).mpr (hcounted hm)
        · exact hother p hm fun g => ⟨nofun, nofun, fun e => hpq (by cases e; rfl)⟩
  | _ => exact iff_of_true (hquiet fun _ _ => ⟨nofun, nofun, nofun⟩) trivial

/-! ### Runs -/

/-- **The two views of every mutex agree** throughout a run iff every owner that unlocks a mutex has
a counter that is not null. -/
theorem mutex_views_iff (hr : Reach policy ThroughMutex hist s) :
    Throughout MutexViews hist s ↔ Meets OwnerCounted hist := by
  refine hr.throughout_iff (fun s _ p hm => by cases hm) fun {hist s c r s'} hr hviews hg he => ?_
  obtain ⟨Z, hprimed⟩ := reach_zones hr
  exact views_step Z hprimed hviews hg he

instance (hist : Hist k) (s : State k) (c : Call k) : Decidable (ThroughMutex hist s c) := by
  induction c using Call.casesOn with
  | takeOwnership | releaseOwnership | overrideTask | unoverrideTask | semTake | semTakeNb
  | semRelease => exact inferInstanceAs (Decidable (_ = _))
  | _ => exact inferInstanceAs (Decidable True)

instance (hist : Hist k) (s : State k) (c : Call k) : Decidable (OwnerCounted hist s c) := by
  induction c using Call.casesOn with
  | mutexUnlock p h => exact inferInstanceAs (Decidable (_ → ∀ _, _ → _ → _))
  | _ => exact inferInstanceAs (Decidable True)

set_option maxRecDepth 10000 in
/-- A task locks a mutex and takes a semaphore, releases both, and another one locks the mutex. -/
theorem mutex_views_run : ∃ (hist : Hist small) (s : State small),
    (s.prim (.other 0)).pOverridden = some 1 ∧ Throughout MutexViews hist s := by
  obtain ⟨hist, s, hr, htest⟩ := exists_reach_of_replay (exec ⟨true, quiet⟩)
    (fun hist s c => ThroughMutex hist s c ∧ OwnerCounted hist s c) boot_smallBoot
    (fun _ s => decide ((s.prim (.other 0)).pOverridden = some 1))
    (smallSetup ++ [.mutexCtor (.other 0) 0, .semCtor (.other 1) 1 0, .assignTask 0 (some 0),
      .assignTask 1 (some 1), .mutexLock (.other 0) 0, .semTake (.other 1) 0,
      .mutexLockNb (.other 0) 1, .mutexUnlock (.other 0) 0, .semRelease (.other 1) 0,
      .mutexLock (.other 0) 1]) (by decide +kernel)
  exact ⟨hist, s, of_decide_eq_true htest,
    (mutex_views_iff (hr.mono And.left)).mpr (hr.mono And.right).meets_guard⟩

set_option maxRecDepth 10000 in
/-- A task that holds a mutex releases a semaphore that another one has taken: its counter is null
when it unlocks the mutex, which remains locked for unlockers only. -/
theorem mutex_views_fails : ¬∀ (hist : Hist small) (s : State small),
    Reach quiet ThroughMutex hist s → MutexViews hist s := by
  intro hall
  obtain ⟨hist, s, hr, htest⟩ := exists_reach_of_replay (exec ⟨true, quiet⟩) ThroughMutex
    boot_smallBoot (fun hist s => isMutex hist (.other 0) &&
      decide ((s.prim (.other 0)).pNbOwningTasks = 0 ∧ (s.prim (.other 0)).pOverridden ≠ none))
    (smallSetup ++ [.mutexCtor (.other 0) 0, .semCtor (.other 1) 1 0, .assignTask 0 (some 0),
      .assignTask 1 (some 1), .mutexLock (.other 0) 0, .semTake (.other 1) 1,
      .semRelease (.other 1) 0, .mutexUnlock (.other 0) 0]) (by decide +kernel)
  simp only [Bool.and_eq_true, decide_eq_true_eq] at htest
  obtain ⟨hm, hn, ho⟩ := htest
  exact ho ((hall hist s hr _ hm).free hn)

end KernelTk.Sched
