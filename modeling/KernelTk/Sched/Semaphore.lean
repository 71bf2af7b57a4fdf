import KernelTk.Sched.Release

/-! # Semaphores: the admission bound

* **Admissions.** `admitted p hist` counts the takings of the semaphore `p` that did not stop the
  task, the non-blocking takings that returned `1`, and the tasks that a release resumed from
  the stopped list of `p`; `leavings p hist` counts the releases that returned `0`.  Both are functions of
  the run, and count from the construction of the semaphore.
* **Runs.** `SemaphoreCall` : the semaphore is taken and released through `sem.c` only.
* **Condition.** `CleanRelease` : a release of `p` finds its counter null, or finds the counter of the task
  not null and no task stopped by `p`.  Other releases decrease the counter and fail, or use an invalid
  pointer.
* **Invariant.** `Admission` : the difference of the two counts is the counter of `p`, as an integer, and is
  at most the bound.  A taking finds the counter below the bound, so that it does not wrap
  (`Admission.take`), and a release that returns has resumed no task (`schedSemRelease_tStopper`).
* **Theorem.** `semaphore_bound` : the invariant in every run whose releases are clean.
  `semaphore_bound_fails` is a task that owns nothing and releases a semaphore that another one has taken:
  the call fails, and the counter is null. -/

namespace KernelTk.Sched

open Transition

variable {k : Machine} {policy : Policy k} {hist : Hist k} {s s' : State k} {p : PrimId k}
  {c : Call k} {r : BitVec 8}

/-- The number of tasks that an event admits into the semaphore. -/
def admissions (p : PrimId k) (e : Event (State k) (Call k) (BitVec 8)) : ℕ :=
  match e.call with
  | .semTake q _ => if q = p ∧ (took e).isSome then 1 else 0
  | .semTakeNb q _ => if q = p ∧ e.ret = 1 then 1 else 0
  | .semRelease q _ =>
      if q = p then
        (Finset.univ.filter fun t => (e.pre.task t).tStopper = some p ∧
          (e.post.task t).tStopper = none).card
      else 0
  | _ => 0

/-- A release of the semaphore that returns `0`. -/
def leaves (p : PrimId k) (e : Event (State k) (Call k) (BitVec 8)) : Bool :=
  match e.call with
  | .semRelease q _ => q == p && e.ret == 0
  | _ => false

def admitted (p : PrimId k) (hist : Hist k) : ℕ := (hist.map (admissions p)).sum

def leavings (p : PrimId k) (hist : Hist k) : ℕ := hist.countP (leaves p)

/-- The semaphore has been built by `sched_sem_ctor`. -/
def semBuilt (p : PrimId k) (hist : Hist k) : Bool :=
  hist.any fun e => match e.call with
    | .semCtor q _ _ => q == p
    | _ => false

/-- `p` is taken and released by the functions of `sem.c` only. -/
def semOnly (p : PrimId k) : Call k → Bool
  | .takeOwnership q _ | .releaseOwnership q _ | .mutexLock q _ | .mutexLockNb q _
  | .mutexUnlock q _ => q != p
  | _ => true

/-- A release of `p` finds its counter null, or the counter of the task not null and no task to
wake. -/
def CleanRelease (p : PrimId k) (s : State k) (c : Call k) : Prop :=
  ∀ t, c.releasing s = some (p, t) → (s.prim p).pNbOwningTasks = 0 ∨
    ((s.task t).tNbOwnedPrimitives ≠ 0 ∧ s.links.isEmpty (.pStopped p) = true)

/-- The calls of the runs of a semaphore. -/
def SemaphoreCall (p : PrimId k) (hist : Hist k) (_ : State k) (c : Call k) : Prop :=
  Additive hist c ∧ semOnly p c = true

/-- The calls of the runs in which the bound holds. -/
def CleanCall (p : PrimId k) (hist : Hist k) (s : State k) (c : Call k) : Prop :=
  SemaphoreCall p hist s c ∧ CleanRelease p s c

instance (hist : Hist k) : Decidable (SemaphoreCall p hist s c) :=
  inferInstanceAs (Decidable (_ ∧ _))

instance (hist : Hist k) : Decidable (CleanCall p hist s c) :=
  inferInstanceAs (Decidable (_ ∧ ∀ _, _))

/-! ### One call -/

theorem admitted_cons (e : Event (State k) (Call k) (BitVec 8)) :
    admitted p (e :: hist) = admissions p e + admitted p hist := rfl

theorem leavings_cons (e : Event (State k) (Call k) (BitVec 8)) :
    leavings p (e :: hist) = leavings p hist + if leaves p e then 1 else 0 :=
  List.countP_cons

/-- The counts, the counter and the bound of the semaphore. -/
structure Admission (p : PrimId k) (hist : Hist k) (s : State k) : Prop where
  built : semBuilt p hist = true → primRegistered hist p = true
  none : primRegistered hist p = false → admitted p hist = 0 ∧ leavings p hist = 0
  count : semBuilt p hist = true →
    admitted p hist = leavings p hist + (s.counters.pNb p).toNat
  bound : semBuilt p hist = true → (s.counters.pNb p).toNat ≤ (s.counters.bound p).toNat

theorem Admission.init : Admission p ([] : Hist k) s :=
  ⟨nofun, fun _ => ⟨rfl, rfl⟩, nofun, nofun⟩

theorem Admission.other (A : Admission p hist s)
    (hbuilt : semBuilt p (⟨s, c, r, s'⟩ :: hist) = semBuilt p hist)
    (hregistered : primRegistered hist p = true → primRegistered (⟨s, c, r, s'⟩ :: hist) p = true)
    (hadm : admissions p ⟨s, c, r, s'⟩ = 0) (hleaves : leaves p ⟨s, c, r, s'⟩ = false)
    (hcounter : primRegistered hist p = true → s'.counters.pNb p = s.counters.pNb p ∧
      s'.counters.bound p = s.counters.bound p) : Admission p (⟨s, c, r, s'⟩ :: hist) s' := by
  have hadmitted : admitted p (⟨s, c, r, s'⟩ :: hist) = admitted p hist := by
    rw [admitted_cons, hadm, Nat.zero_add]
  have hleavings : leavings p (⟨s, c, r, s'⟩ :: hist) = leavings p hist := by
    simp [leavings_cons, hleaves]
  constructor
  · intro hb
    exact hregistered (A.built (hbuilt ▸ hb))
  · intro hr
    rw [hadmitted, hleavings]
    refine A.none (Bool.eq_false_iff.mpr fun h => ?_)
    rw [hregistered h] at hr
    cases hr
  · intro hb
    obtain ⟨h₁, -⟩ := hcounter (A.built (hbuilt ▸ hb))
    rw [hadmitted, hleavings, h₁, A.count (hbuilt ▸ hb)]
  · intro hb
    obtain ⟨h₁, h₂⟩ := hcounter (A.built (hbuilt ▸ hb))
    rw [h₁, h₂]
    exact A.bound (hbuilt ▸ hb)

theorem Admission.new (A : Admission p hist s) (hfresh : primRegistered hist p = false)
    (hregistered : primRegistered (⟨s, c, r, s'⟩ :: hist) p = true)
    (hadm : admissions p ⟨s, c, r, s'⟩ = 0) (hleaves : leaves p ⟨s, c, r, s'⟩ = false)
    (hcounter : s'.counters.pNb p = 0) : Admission p (⟨s, c, r, s'⟩ :: hist) s' := by
  obtain ⟨h₁, h₂⟩ := A.none hfresh
  constructor
  · exact fun _ => hregistered
  · intro hr
    rw [hregistered] at hr
    cases hr
  · intro _
    simp [admitted_cons, leavings_cons, hadm, hleaves, h₁, h₂, hcounter]
  · intro _
    simp [hcounter]

theorem Admission.move (A : Admission p hist s)
    (hbuilt : semBuilt p (⟨s, c, r, s'⟩ :: hist) = semBuilt p hist)
    (hregistered : primRegistered (⟨s, c, r, s'⟩ :: hist) p = true)
    (hcount : semBuilt p hist = true → admissions p ⟨s, c, r, s'⟩ + (s.counters.pNb p).toNat =
      (if leaves p ⟨s, c, r, s'⟩ then 1 else 0) + (s'.counters.pNb p).toNat)
    (hbound : semBuilt p hist = true →
      (s'.counters.pNb p).toNat ≤ (s'.counters.bound p).toNat) :
    Admission p (⟨s, c, r, s'⟩ :: hist) s' := by
  constructor
  · exact fun _ => hregistered
  · intro hr
    rw [hregistered] at hr
    cases hr
  · intro hb
    have h₁ := A.count (hbuilt ▸ hb)
    have h₂ := hcount (hbuilt ▸ hb)
    rw [admitted_cons, leavings_cons]
    omega
  · exact fun hb => hbound (hbuilt ▸ hb)

/-- The counter below its bound does not wrap when it is increased. -/
theorem Admission.take (A : Admission p hist s)
    (hbuilt : semBuilt p (⟨s, c, r, s'⟩ :: hist) = semBuilt p hist)
    (hregistered : primRegistered (⟨s, c, r, s'⟩ :: hist) p = true)
    (hadm : admissions p ⟨s, c, r, s'⟩ = 1) (hleaves : leaves p ⟨s, c, r, s'⟩ = false)
    (hfree : s.counters.pNb p ≠ s.counters.bound p)
    (hcounter : s'.counters.pNb p = s.counters.pNb p + 1)
    (hbound : s'.counters.bound p = s.counters.bound p) :
    Admission p (⟨s, c, r, s'⟩ :: hist) s' := by
  have hlt : semBuilt p hist = true →
      (s.counters.pNb p).toNat + 1 ≤ (s.counters.bound p).toNat := by
    intro hb
    have hle := A.bound hb
    have hne : (s.counters.pNb p).toNat ≠ (s.counters.bound p).toNat :=
      fun e => hfree (BitVec.eq_of_toNat_eq e)
    omega
  have hincr : semBuilt p hist = true →
      (s.counters.pNb p + 1).toNat = (s.counters.pNb p).toNat + 1 := by
    intro hb
    have h₁ := hlt hb
    have h₂ := (s.counters.bound p).isLt
    exact Word.toNat_incr (by omega)
  refine A.move hbuilt hregistered (fun hb => ?_) fun hb => ?_
  · rw [hadm, hleaves, hcounter, hincr hb]
    simp only [Bool.false_eq_true, if_false]
    omega
  · rw [hcounter, hbound, hincr hb]
    exact hlt hb

theorem Admission.release (A : Admission p hist s)
    (hbuilt : semBuilt p (⟨s, c, r, s'⟩ :: hist) = semBuilt p hist)
    (hregistered : primRegistered (⟨s, c, r, s'⟩ :: hist) p = true)
    (hadm : admissions p ⟨s, c, r, s'⟩ = 0) (hleaves : leaves p ⟨s, c, r, s'⟩ = true)
    (hpos : s.counters.pNb p ≠ 0) (hcounter : s'.counters.pNb p = s.counters.pNb p - 1)
    (hbound : s'.counters.bound p = s.counters.bound p) :
    Admission p (⟨s, c, r, s'⟩ :: hist) s' := by
  have hdecr := Word.toNat_decr hpos
  have hlt := Word.toNat_pos hpos
  refine A.move hbuilt hregistered (fun hb => ?_) fun hb => ?_
  · rw [hadm, hleaves, hcounter, hdecr]
    simp only [if_true]
    omega
  · have hle := A.bound hb
    rw [hcounter, hbound, hdecr]
    omega

/-- The calls that take or release `p` through `sem.c`. -/
def semCall (p : PrimId k) : Call k → Bool
  | .semTake q _ | .semTakeNb q _ | .semRelease q _ => q == p
  | _ => false

theorem semCall_false (s s' : State k) (r : BitVec 8) (honly : semOnly p c = true)
    (hc : semCall p c = false) :
    (∀ t, c.taking s ≠ some (p, t)) ∧ (∀ t, c.releasing s ≠ some (p, t)) ∧
      admissions p ⟨s, c, r, s'⟩ = 0 ∧ leaves p ⟨s, c, r, s'⟩ = false := by
  cases c with
  | takeOwnership q t | releaseOwnership q t | mutexLock q h | mutexLockNb q h =>
      have hq : q ≠ p := by simpa [semOnly] using honly
      simp [Call.taking, Call.releasing, admissions, leaves, hq]
  | mutexUnlock q h =>
      have hq : q ≠ p := by simpa [semOnly] using honly
      simp [Call.taking, Call.releasing, admissions, leaves, hq]
  | semTake q h | semTakeNb q h | semRelease q h =>
      have hq : q ≠ p := by simpa [semCall] using hc
      simp [Call.taking, Call.releasing, admissions, leaves, hq]
  | _ => simp [Call.taking, Call.releasing, admissions, leaves]

/-- A release that returns resumes no task: it would not return otherwise. -/
theorem schedSemRelease_tStopper {h : ThreadId k}
    (he : schedSemRelease ⟨true, policy⟩ p h s = .ok (r, s')) (u : TaskId k) :
    (s'.task u).tStopper = (s.task u).tStopper := by
  have hrelease : ∀ {e s₁}, primitiveReleaseOwnership ⟨true, policy⟩ p (s.thread h).tTask s =
      .ok (e, s₁) → (s₁.task u).tStopper = (s.task u).tStopper := by
    intro e s₁ h₁
    obtain ⟨t, -, -, ⟨-, -, rfl⟩ | ⟨-, -, -, rfl⟩ | ⟨-, -, -, rfl⟩⟩ :=
      primitiveReleaseOwnership_ok.mp h₁
    · rfl
    · exact congrFun (congrArg Pointers.tStopper (releasePrim_pointers s p)) u
    · exact congrFun (congrArg Pointers.tStopper (releaseOwnership_pointers s p t)) u
  obtain ⟨e, s₁, h₁, ⟨-, -, rfl⟩ | ⟨-, -, h₂⟩⟩ := schedSemRelease_ok.mp he
  · exact hrelease h₁
  · obtain ⟨-, rfl⟩ := resumeFirst_ok.mp h₂
    exact hrelease h₁

theorem Admission.call (A : Admission p hist s) (hg : CleanCall p hist s c)
    (hc : semCall p c = true) (he : exec ⟨true, policy⟩ c s = .ok (r, s')) :
    Admission p (⟨s, c, r, s'⟩ :: hist) s' := by
  obtain ⟨⟨⟨-, -, ho⟩, -⟩, hclean⟩ := hg
  cases c with
  | semTake q h =>
      obtain rfl : q = p := by simpa [semCall] using hc
      have hbound := exec_bound rfl he
      rcases schedSemTake_ok.mp (void_eq_ok.mp he).2 with ⟨-, hstop⟩ | ⟨hfree, htake⟩
      · obtain ⟨t, ht, h0, h1⟩ := tStopper_stopThread hstop
        refine A.other rfl (fun h => h) ?_ rfl fun _ => ?_
        · simp [admissions, took, Call.taking, ht, h0, h1]
        · rw [primitiveStopThread_counters hstop]
          exact ⟨rfl, rfl⟩
      · obtain ⟨t, ht, -, rfl⟩ := primitiveTakeOwnership_ok.mp htake
        refine A.take rfl ho ?_ rfl hfree ?_ (congrFun hbound q)
        · simp [admissions, took, Call.taking, ht, tStopper_takeOwnership]
        · rw [takeOwnership_counters]
          exact Function.update_self ..
  | semTakeNb q h =>
      obtain rfl : q = p := by simpa [semCall] using hc
      have hbound := exec_bound rfl he
      rcases schedSemTakeNb_ok.mp he with ⟨-, rfl, rfl⟩ | ⟨hfree, rfl, htake⟩
      · exact A.other rfl (fun h => h) (by simp [admissions]) rfl fun _ => ⟨rfl, rfl⟩
      · obtain ⟨t, ht, -, rfl⟩ := primitiveTakeOwnership_ok.mp htake
        refine A.take rfl ho (by simp [admissions]) rfl hfree ?_ (congrFun hbound q)
        rw [takeOwnership_counters]
        exact Function.update_self ..
  | semRelease q h =>
      obtain rfl : q = p := by simpa [semCall] using hc
      have hadm : admissions q ⟨s, .semRelease q h, r, s'⟩ = 0 := by
        have hs := schedSemRelease_tStopper he
        simp only [admissions, if_true, Finset.card_eq_zero, Finset.filter_eq_empty_iff, hs]
        rintro t - ⟨h₁, h₂⟩
        rw [h₁] at h₂
        cases h₂
      cases exec_ownership rfl he with
      | take q' t htook _ _ _ => exact absurd (taking_of_took htook) fun e => by cases e
      | release q' t _ hreleased _ hp ht hcounters =>
          obtain ⟨hr, htry⟩ := Option.ite_none_right_eq_some.mp hreleased
          obtain ⟨u, -, hu⟩ := Option.map_eq_some_iff.mp htry
          obtain ⟨rfl, rfl⟩ := Prod.mk.inj hu
          refine A.release rfl ho hadm ?_ hp ?_ ?_
          · simpa [leaves] using hr
          · rw [hcounters]
            exact Function.update_self ..
          · rw [hcounters]
            rfl
      | half q' t _ _ htry hp ht _ =>
          obtain ⟨u, -, hu⟩ := Option.map_eq_some_iff.mp htry
          obtain ⟨rfl, rfl⟩ := Prod.mk.inj hu
          rcases hclean _ htry with h0 | ⟨hne, -⟩
          · exact absurd h0 hp
          · exact absurd ht hne
      | keep _ hreleased hnull hcounters =>
          refine A.other rfl (fun h => h) hadm ?_ fun _ => by rw [hcounters]; exact ⟨rfl, rfl⟩
          have htask : ∃ t, (s.thread h).tTask = some t := by
            obtain ⟨e, s₁, h₁, -⟩ := schedSemRelease_ok.mp he
            obtain ⟨t, ht, -⟩ := primitiveReleaseOwnership_ok.mp h₁
            exact ⟨t, ht⟩
          obtain ⟨t, ht⟩ := htask
          have hr : r ≠ 0 := by
            rintro rfl
            simp [released, Call.releasing, ht] at hreleased
          simpa [leaves] using hr
  | _ => cases hc

/-- **One call.** -/
theorem Admission.step (A : Admission p hist s) (hg : CleanCall p hist s c)
    (he : exec ⟨true, policy⟩ c s = .ok (r, s')) : Admission p (⟨s, c, r, s'⟩ :: hist) s' := by
  obtain ⟨⟨hu, hf, ho⟩, honly⟩ := hg.1
  cases hc : semCall p c with
  | true => exact A.call hg hc he
  | false =>
      obtain ⟨htaking, hreleasing, hadm, hleaves⟩ :=
        semCall_false s s' r honly hc
      cases hreg : c.registers with
      | false =>
          obtain ⟨eprim, -⟩ := registered_cons s s' r hist hreg
          refine A.other ?_ (by rw [eprim]; exact id) hadm hleaves fun _ => ⟨?_, ?_⟩
          · cases c with
            | semCtor => cases hreg
            | _ => rfl
          · exact exec_pNb hreg he htaking hreleasing
          · rw [exec_bound hreg he]
      | true =>
          obtain ⟨-, -, hpNb, -, hbound⟩ := exec_registers hreg hu he
          by_cases hn : c.newPrim = some p
          · refine A.new (fresh_newPrim hf hn) ?_ hadm hleaves ?_
            · simp [primRegistered_cons hu, hn]
            · rw [hpNb, if_pos hn]
          · refine A.other ?_ ?_ hadm hleaves fun _ => ⟨?_, hbound p hn⟩
            · cases c with
              | semCtor q n d =>
                  have hq : q ≠ p := fun e => hn (e ▸ rfl)
                  simp [semBuilt, hq]
              | _ => rfl
            · rw [primRegistered_cons hu]
              exact fun h => by simp [h]
            · rw [hpNb, if_neg hn]

/-! ### Runs -/

/-- **The admission bound.**  In every run in which the releases of the semaphore are clean, the
tasks admitted less the releases are the counter of the semaphore, at most its bound. -/
theorem semaphore_bound (hr : Reach policy (CleanCall p) hist s) (hb : semBuilt p hist = true) :
    (admitted p hist : ℤ) - leavings p hist = (s.prim p).pNbOwningTasks.toNat ∧
      (s.prim p).pNbOwningTasks.toNat ≤ (s.sNbOwners p).toNat := by
  have A : Admission p hist s := hr.invariant (fun _ _ => .init) fun A hg he => A.step hg he
  have hcount : admitted p hist = leavings p hist + (s.prim p).pNbOwningTasks.toNat := A.count hb
  exact ⟨by omega, A.bound hb⟩

set_option maxRecDepth 10000 in
/-- Two tasks take a semaphore of two takings, a third one is stopped; the first one releases
after the third one has been resumed by hand. -/
theorem semaphore_bound_run : ∃ (hist : Hist small) (s : State small),
    admitted (.other 0) hist = 2 ∧
    (admitted (.other 0) hist : ℤ) - leavings (.other 0) hist =
        (s.prim (.other 0)).pNbOwningTasks.toNat ∧
      (s.prim (.other 0)).pNbOwningTasks.toNat ≤ (s.sNbOwners (.other 0)).toNat := by
  obtain ⟨hist, s, hr, htest⟩ := exists_reach_of_replay (exec ⟨true, quiet⟩)
    (CleanCall (.other 0)) boot_smallBoot
    (fun hist _ => semBuilt (.other 0) hist && admitted (.other 0) hist == 2)
    (smallSetup ++ [.semCtor (.other 0) 2 0, .assignTask 0 (some 0), .assignTask 1 (some 1),
      .assignTask 2 (some 2), .semTake (.other 0) 0, .semTakeNb (.other 0) 1,
      .semTake (.other 0) 2, .resumeTask 2, .semRelease (.other 0) 0]) (by decide +kernel)
  simp only [Bool.and_eq_true, beq_iff_eq] at htest
  exact ⟨hist, s, htest.2, semaphore_bound hr htest.1⟩

set_option maxRecDepth 10000 in
/-- A task that owns nothing releases the semaphore that another one has taken: the release
returns `1`, and the counter is null. -/
theorem semaphore_bound_fails : ¬∀ (hist : Hist small) (s : State small),
    Reach quiet (SemaphoreCall (.other 0)) hist s → semBuilt (.other 0) hist = true →
      (admitted (.other 0) hist : ℤ) - leavings (.other 0) hist =
          (s.prim (.other 0)).pNbOwningTasks.toNat ∧
        (s.prim (.other 0)).pNbOwningTasks.toNat ≤ (s.sNbOwners (.other 0)).toNat := by
  intro hall
  obtain ⟨hist, s, hr, htest⟩ := exists_reach_of_replay (exec ⟨true, quiet⟩)
    (SemaphoreCall (.other 0)) boot_smallBoot
    (fun hist s => semBuilt (.other 0) hist && (admitted (.other 0) hist == 1 &&
      (leavings (.other 0) hist == 0 && (s.prim (.other 0)).pNbOwningTasks == 0)))
    (thiefCalls ++ [.semRelease (.other 0) 1]) (by decide +kernel)
  simp only [Bool.and_eq_true, beq_iff_eq] at htest
  obtain ⟨hb, h₁, h₂, h₃⟩ := htest
  have h := (hall hist s hr hb).1
  rw [h₁, h₂, h₃] at h
  cases h

end KernelTk.Sched
