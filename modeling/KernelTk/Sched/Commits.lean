import KernelTk.Sched.Activity

/-! # Opening a commit makes everything idle

* **Assignments.** `assignedSince policy hist h t` : since the last opening of a commit, `t` was
  assigned to `h`, by a call of the kernel or by the policy.  It is a function of the run: the
  scheduler keeps no such record.
* **Property.** `IdleUntilAssigned` : what is active has been assigned since the last opening, and the
  task that an active thread executes is active and was assigned to this thread.
* **Condition.** The commit index wraps around, and a registration stores the index `-1`.
  `IndexFresh` : no opening reuses an index that a task or a thread still stores
  (`State.NextIndexUnused`), and no registration stores the current index (`RegistersIdle`).
* **One call.** `Since` is the property with what is known of the assignments as a parameter, so that it
  can be followed inside a call: a move keeps it (`Since.move`), the openings and the registrations
  apart, for which it is kept iff the condition holds (`openCommit_since`, `registerTask_since`).
* **Runs.** A run has the property throughout iff all its calls meet the condition
  (`idle_until_assigned_iff`), whatever the width of the index and its first value.
  `idle_until_assigned_fails` is the opening that makes the index `-1`. -/

namespace KernelTk.Sched

open Transition

variable {k : Machine} {policy : Policy k} {hist : Hist k} {s s' : State k} {c : Call k}
  {r : BitVec 8} {t : TaskId k} {h : ThreadId k} {d : ProcessId k} {T : ThreadId k → Prop}

/-- The call assigns the task to the thread. -/
def Call.assigns (h : ThreadId k) (t : TaskId k) : Call k → Bool
  | .assignTask g (some u) => g == h && u == t
  | _ => false

/-- The task was assigned to the thread during the call, by the kernel or by the policy. -/
def assignedIn (policy : Policy k) (e : Event (State k) (Call k) (BitVec 8)) (h : ThreadId k)
    (t : TaskId k) : Bool :=
  e.call.assigns h t || e.post.hooks.tails.any fun l =>
    decide (e.pre.hooks.length < l.length) && decide ((h, some t) ∈ policy l)

/-- The task was assigned to the thread since the last opening of a commit. -/
def assignedSince (policy : Policy k) : Hist k → ThreadId k → TaskId k → Bool
  | [], _, _ => false
  | e :: hist, h, t =>
      match e.call with
      | .openCommit => false
      | _ => assignedIn policy e h t || assignedSince policy hist h t

/-- What is active has been assigned since the last opening of a commit. -/
structure IdleUntilAssigned (policy : Policy k) (hist : Hist k) (s : State k) : Prop where
  task : ∀ t, (s.task t).tProcess ≠ none → s.taskActive t = true →
    ∃ h, assignedSince policy hist h t = true
  thread : ∀ h, (s.thread h).tSched = true → s.threadActive h = true →
    ∃ t, (s.thread h).tTask = some t ∧ assignedSince policy hist h t = true ∧
      (s.task t).tThread = some h ∧ s.taskActive t = true

/-- No task, and no thread that executes a task, stores the index that the next commit gets. -/
def State.NextIndexUnused (s : State k) : Prop :=
  (∀ t, (s.task t).tProcess ≠ none → (s.task t).tCommit ≠ s.sched.sCommitIndex + 1) ∧
  ∀ h, (s.thread h).tSched = true → (s.thread h).tTask ≠ none →
    (s.thread h).tCommit ≠ s.sched.sCommitIndex + 1

/-- The index stored by the registration of `t` is not the current one, unless `t` has been
assigned already, and no active thread executes `t`. -/
def RegistersIdle (policy : Policy k) (hist : Hist k) (s : State k) (t : TaskId k) : Prop :=
  (s.sched.sCommitIndex ≠ -1 ∨ ∃ h, assignedSince policy hist h t = true) ∧
  ∀ h, (s.thread h).tSched = true → s.threadActive h = true → (s.thread h).tTask ≠ some t

/-- What openings and registrations need. -/
def IndexFresh (policy : Policy k) (hist : Hist k) (s : State k) : Call k → Prop
  | .openCommit => s.NextIndexUnused
  | .registerTask _ t => RegistersIdle policy hist s t
  | _ => True

/-! ### One call -/

theorem assignedSince_cons (hc : c ≠ .openCommit) : assignedSince policy (⟨s, c, r, s'⟩ :: hist) h t =
    (assignedIn policy ⟨s, c, r, s'⟩ h t || assignedSince policy hist h t) := by
  cases c with
  | openCommit => exact absurd rfl hc
  | _ => rfl

theorem assignedIn_eq_true : assignedIn policy ⟨s, c, r, s'⟩ h t = true ↔
    c.assigns h t = true ∨
      ∃ l, l <:+ s'.hooks ∧ s.hooks.length < l.length ∧ (h, some t) ∈ policy l := by
  simp [assignedIn]

theorem assignedIn_mono {x x' : State k} (hx : x.hooks <:+ x'.hooks)
    (ha : assignedIn policy ⟨s, c, r, x⟩ h t = true) :
    assignedIn policy ⟨s, c, r, x'⟩ h t = true := by
  rw [assignedIn_eq_true] at ha ⊢
  rcases ha with ha | ⟨l, hl, hlen, hmem⟩
  · exact .inl ha
  · exact .inr ⟨l, hl.trans hx, hlen, hmem⟩

/-- What is active has been assigned, as far as `N` says. -/
structure Since (N : ThreadId k → TaskId k → Prop) (P : Pointers k) (A : Activity k) : Prop where
  task : ∀ t, P.tProcess t ≠ none → A.tCommit t = A.index → ∃ h, N h t
  thread : ∀ h t, P.tSched h = true → A.tTask h = some t → A.threadCommit h = A.index →
    N h t ∧ P.tThread t = some h ∧ A.tCommit t = A.index

theorem threadActive_iff : s.threadActive h = true ↔
    s.activity.threadCommit h = s.activity.index ∧ ∃ t, s.activity.tTask h = some t := by
  simp [State.threadActive, State.activity, Option.isSome_iff_exists]

theorem taskActive_iff : s.taskActive t = true ↔ s.activity.tCommit t = s.activity.index := by
  simp [State.taskActive, State.activity]

theorem idleUntilAssigned_iff : IdleUntilAssigned policy hist s ↔
    Since (fun h t => assignedSince policy hist h t = true) s.pointers s.activity := by
  constructor
  · intro S
    refine ⟨fun t ht he => S.task t ht (taskActive_iff.mpr he), fun h t hh ht he => ?_⟩
    obtain ⟨u, hu, hN, hthread, hactive⟩ := S.thread h hh (threadActive_iff.mpr ⟨he, t, ht⟩)
    have e : s.activity.tTask h = some u := hu
    obtain rfl := Option.some.inj (ht.symm.trans e)
    exact ⟨hN, hthread, taskActive_iff.mp hactive⟩
  · intro S
    refine ⟨fun t ht he => S.task t ht (taskActive_iff.mp he), fun h hh he => ?_⟩
    obtain ⟨he, t, ht⟩ := threadActive_iff.mp he
    obtain ⟨hN, hthread, hactive⟩ := S.thread h t hh ht he
    exact ⟨t, ht, hN, hthread, taskActive_iff.mpr hactive⟩

namespace Since

variable {N N' : ThreadId k → TaskId k → Prop} {P P' : Pointers k} {A : Activity k}

theorem mono (S : Since N P A) (hN : ∀ h t, N h t → N' h t) (hprocess : P'.tProcess = P.tProcess)
    (hsched : ∀ h, P'.tSched h = true → P.tSched h = true) (hthread : P'.tThread = P.tThread) :
    Since N' P' A where
  task := by
    intro t ht he
    obtain ⟨h, hh⟩ := S.task t (hprocess ▸ ht) he
    exact ⟨h, hN h t hh⟩
  thread := by
    intro h t hh ht he
    obtain ⟨h₁, h₂, h₃⟩ := S.thread h t (hsched h hh) ht he
    exact ⟨hN h t h₁, hthread ▸ h₂, h₃⟩

theorem idle (S : Since N P A) (h : ThreadId k) (hprocess : P'.tProcess = P.tProcess)
    (hsched : ∀ g, g ≠ h → P'.tSched g = P.tSched g) (hthread : P'.tThread = P.tThread) :
    Since N P' (A.idle h) where
  task := fun t ht he => S.task t (hprocess ▸ ht) he
  thread := by
    intro g t hg ht he
    by_cases hgh : g = h
    · simp [Activity.idle, hgh] at ht
    · simp only [Activity.idle, Function.update_of_ne hgh] at ht he ⊢
      rw [hthread]
      exact S.thread g t (hsched g hgh ▸ hg) ht he

theorem leave (S : Since N P A) (t : TaskId k) :
    Since N ((P.tThread t).elim P fun g => P.leave g t) (A.leave (P.tThread t) t) where
  task := by
    intro u hu he
    rw [Activity.leave_tCommit, Activity.leave_index] at he
    refine S.task u ?_ he
    cases hg : P.tThread t <;> simpa [hg, Pointers.leave] using hu
  thread := by
    intro g u hg hu he
    obtain ⟨hu, hcommit, hne⟩ := A.leave_tTask hu
    rw [hcommit, Activity.leave_index] at he
    have hg' : P.tSched g = true := by
      cases ho : P.tThread t <;> simpa [ho, Pointers.leave] using hg
    obtain ⟨h₁, h₂, h₃⟩ := S.thread g u hg' hu he
    rw [Activity.leave_tCommit, Activity.leave_index]
    refine ⟨h₁, ?_, h₃⟩
    have hut : u ≠ t := fun e => hne e (e ▸ h₂)
    cases ho : P.tThread t <;> simpa [Pointers.leave, hut] using h₂

theorem run (S : Since N P A) (hN : N h t) (hfree : ∀ g, P.tThread t = some g → g = h)
    (hprocess : P'.tProcess = P.tProcess) (hsched : P'.tSched = P.tSched)
    (hthread : P'.tThread = Function.update P.tThread t (some h)) : Since N P' (A.run h t) where
  task := by
    intro u hu he
    by_cases hut : u = t
    · exact ⟨h, hut ▸ hN⟩
    · simp only [Activity.run, Function.update_of_ne hut] at he
      exact S.task u (hprocess ▸ hu) he
  thread := by
    intro g u hg hu he
    by_cases hgh : g = h
    · subst hgh
      simp only [Activity.run, Function.update_self, Option.some.injEq] at hu
      subst hu
      simp [Activity.run, hthread, hN]
    · simp only [Activity.run, Function.update_of_ne hgh] at hu he ⊢
      obtain ⟨h₁, h₂, h₃⟩ := S.thread g u (hsched ▸ hg) hu he
      have hut : u ≠ t := fun e => hgh (hfree g (e ▸ h₂))
      rw [hthread, Function.update_of_ne hut, Function.update_of_ne hut]
      exact ⟨h₁, h₂, h₃⟩

/-- **A move keeps what is known of the active objects**, the openings of commits and the
registrations of tasks apart. -/
theorem move (S : Since N s.pointers s.activity) (m : Move k) (hN : ∀ h t, N h t → N' h t)
    (hassign : ∀ h t, m = .assign h t → N' h t)
    (hcommit : ∀ y, m = .edit (.commit y) → y.sCommitIndex = s.sched.sCommitIndex)
    (htask : ∀ c t, m ≠ .addTask c t) : Since N' (m.apply s).pointers (m.apply s).activity := by
  rw [m.apply_pointers, m.apply_activity]
  have S' := S.mono hN rfl (fun _ => id) rfl
  cases m with
  | edit e =>
      cases e with
      | commit y =>
          have e : (Move.edit (.commit y)).activity s.pointers.tThread s.activity = s.activity := by
            show { s.activity with index := y.sCommitIndex } = s.activity
            rw [hcommit y rfl]
            rfl
          rw [e]
          exact S'
      | _ => exact S'.mono (fun _ _ => id) rfl (fun _ => id) rfl
  | assign h t =>
      simp only [Move.pointers, Move.activity]
      split
      · rename_i hth
        refine S'.run (hassign h t rfl) ?_ rfl rfl ?_
        · exact fun g hg => Option.some.inj (hg.symm.trans hth)
        · rw [← hth, Function.update_eq_self]
      · have L := S'.leave t
        have hnone : ((s.pointers.tThread t).elim s.pointers fun g => s.pointers.leave g t).tThread
            t = none := by
          cases ho : s.pointers.tThread t <;> simp [ho, Pointers.leave]
        refine L.run (hassign h t rfl) ?_ rfl rfl rfl
        intro g hg
        cases hnone.symm.trans hg
  | idle h => exact S'.idle h rfl (fun _ _ => rfl) rfl
  | addThread h =>
      refine S'.idle h rfl (fun g hg => ?_) rfl
      simp [Move.pointers, Pointers.addThread, hg]
  | leave t => exact S'.leave t
  | forgetThread h =>
      refine S'.mono (fun _ _ => id) rfl (fun g hg => ?_) rfl
      by_cases hgh : g = h
      · simp [Move.pointers, hgh] at hg
      · simpa [Move.pointers, hgh] using hg
  | addTask c t => exact absurd rfl (htask c t)
  | _ => exact S'.mono (fun _ _ => id) rfl (fun _ => id) rfl

end Since

/-- A call keeps the property, unless it opens a commit or registers a task. -/
theorem exec_since (Z : Zones s.pointers T) (hprimed : s.Primed) (hopen : c ≠ .openCommit)
    (htask : ∀ d t, c ≠ .registerTask d t) (S : IdleUntilAssigned policy hist s)
    (he : exec ⟨true, policy⟩ c s = .ok (r, s')) :
    IdleUntilAssigned policy (⟨s, c, r, s'⟩ :: hist) s' := by
  refine (exec_moves Z hprimed he).keeps
    (I := fun x => IdleUntilAssigned policy (⟨s, c, r, x⟩ :: hist) x) ?_ ?_
  · intro x m hx _ ha
    rw [idleUntilAssigned_iff] at hx ⊢
    have hhooks : x.hooks <:+ (m.apply x).hooks := by
      rw [m.apply_hooks]
      exact List.suffix_append _ _
    apply hx.move m
    · intro h t hN
      rw [assignedSince_cons hopen, Bool.or_eq_true] at hN ⊢
      exact hN.imp_left (assignedIn_mono hhooks)
    · rintro h t rfl
      rw [assignedSince_cons hopen, Bool.or_eq_true, assignedIn_eq_true]
      rcases ha with rfl | ⟨hlen, -, hmem⟩
      · exact .inl (.inl (by simp [Call.assigns]))
      · exact .inl (.inr ⟨x.hooks, hhooks, hlen, hmem⟩)
    · rintro y rfl
      rcases ha with ⟨rfl, -⟩ | ⟨-, rfl⟩
      · exact absurd rfl hopen
      · rfl
    · rintro d t rfl
      exact htask d t ha
  · rw [idleUntilAssigned_iff] at S ⊢
    refine S.mono (fun h t hN => ?_) rfl (fun _ => id) rfl
    rw [assignedSince_cons hopen, hN, Bool.or_true]

/-- An opening keeps the property iff the new index is stored nowhere. -/
theorem openCommit_since (s' : State k) (he : s' = s.modSched fun x =>
      { x with sCommitOpened := true, sCommitIndex := x.sCommitIndex + 1 }) :
    IdleUntilAssigned policy (⟨s, .openCommit, r, s'⟩ :: hist) s' ↔ s.NextIndexUnused := by
  subst he
  constructor
  · refine fun S => ⟨fun t ht he => ?_, fun h hh ht he => ?_⟩
    · obtain ⟨h, hh⟩ := S.task t ht (by simp [State.taskActive, he])
      cases hh
    · obtain ⟨t, ht⟩ := Option.ne_none_iff_exists'.mp ht
      obtain ⟨u, -, hu, -⟩ := S.thread h hh (by simp [State.threadActive, he, ht])
      cases hu
  · rintro ⟨h₁, h₂⟩
    refine ⟨fun t ht he => ?_, fun h hh he => ?_⟩
    · exact absurd (by simpa [State.taskActive] using he) (h₁ t ht)
    · simp only [State.threadActive, State.modSched_thread, State.modSched_sched,
        Bool.and_eq_true, beq_iff_eq] at he
      exact absurd he.1 (h₂ h hh (Option.isSome_iff_ne_none.mp he.2))

/-- A registration keeps the property iff it leaves the task idle. -/
theorem registerTask_since (S : IdleUntilAssigned policy hist s) :
    IdleUntilAssigned policy (⟨s, .registerTask d t, r, registerTask d t s⟩ :: hist)
      (registerTask d t s) ↔ RegistersIdle policy hist s t := by
  have hN : ∀ h u, assignedSince policy (⟨s, .registerTask d t, r, registerTask d t s⟩ :: hist) h u =
      assignedSince policy hist h u := by
    intro h u
    have hc : Call.registerTask d t ≠ .openCommit := nofun
    rw [assignedSince_cons hc, Bool.or_eq_right_iff_imp]
    intro ha
    obtain ha | ⟨l, hl, hlen, -⟩ := assignedIn_eq_true.mp ha
    · cases ha
    · exact absurd hl.length_le (Nat.not_le.mpr hlen)
  have hself : (registerTask d t s).task t = ⟨schedStatusActive, -1, some d, 0, none, 0, none⟩ := by
    simp [registerTask]
  have hother : ∀ u, u ≠ t → (registerTask d t s).task u = s.task u := by
    intro u hu
    simp [registerTask, hu]
  have hthread : ∀ h, (registerTask d t s).threadActive h = s.threadActive h := fun _ => rfl
  have hsched : (registerTask d t s).sched = s.sched := rfl
  constructor
  · intro S'
    constructor
    · refine or_iff_not_imp_left.mpr fun hi => ?_
      obtain ⟨h, hh⟩ := S'.task t (by simp [hself])
        (by simpa [State.taskActive, hself, hsched] using (not_not.mp hi).symm)
      exact ⟨h, (hN h t).symm.trans hh⟩
    · intro h hh hactive ht
      obtain ⟨u, hu, -, hback, -⟩ := S'.thread h hh ((hthread h).trans hactive)
      obtain rfl := Option.some.inj (hu.symm.trans ht)
      simp [hself] at hback
  · rintro ⟨hindex, hidle⟩
    refine ⟨fun u hu he => ?_, fun h hh he => ?_⟩
    · by_cases hut : u = t
      · subst hut
        have hi : s.sched.sCommitIndex = -1 := by
          simp only [State.taskActive, hself, beq_iff_eq] at he
          exact he.symm
        obtain ⟨h, hh⟩ := hindex.resolve_left (not_not.mpr hi)
        exact ⟨h, (hN h u).trans hh⟩
      · rw [hother u hut] at hu
        obtain ⟨h, hh⟩ := S.task u hu (by simpa [State.taskActive, hother u hut, hsched] using he)
        exact ⟨h, (hN h u).trans hh⟩
    · have hactive := (hthread h).symm.trans he
      obtain ⟨u, hu, hh', hback, hactive'⟩ := S.thread h hh hactive
      have hut : u ≠ t := fun e => hidle h hh hactive (e ▸ hu)
      refine ⟨u, hu, (hN h u).trans hh', ?_, ?_⟩
      · rw [hother u hut]
        exact hback
      · simpa [State.taskActive, hother u hut, hsched] using hactive'

/-! ### Runs -/

/-- **An object is active since it was assigned only**, throughout a run of any calls, iff no
opening reuses an index that is still stored and every registration leaves its task idle. -/
theorem idle_until_assigned_iff (hr : Reach policy (fun _ _ _ => True) hist s) :
    Throughout (IdleUntilAssigned policy) hist s ↔ Meets (IndexFresh policy) hist := by
  refine hr.throughout_iff (fun s hs => ?_) (fun {hist s c r s'} hr S _ he => ?_)
  · refine ⟨fun t ht => absurd (hs.task t) ht, fun h hh => ?_⟩
    exact absurd ((hs.thread h).symm.trans hh) Bool.false_ne_true
  · obtain ⟨Z, hprimed⟩ := reach_zones hr
    cases c with
    | openCommit =>
        obtain ⟨-, he⟩ := schedOpenCommit_ok.mp (void_eq_ok.mp he).2
        exact openCommit_since s' he
    | registerTask d t =>
        obtain ⟨-, rfl⟩ := processRegisterTask_iff.mp (void_eq_ok.mp he).2
        exact registerTask_since S
    | _ => exact iff_of_true (exec_since Z hprimed nofun (fun _ _ => nofun) S he) trivial

/-- The condition can be tested. -/
instance (policy : Policy k) (hist : Hist k) (s : State k) (c : Call k) :
    Decidable (IndexFresh policy hist s c) := by
  induction c using Call.casesOn with
  | openCommit => exact inferInstanceAs (Decidable (_ ∧ _))
  | registerTask d t => exact inferInstanceAs (Decidable (_ ∧ _))
  | _ => exact inferInstanceAs (Decidable True)

set_option maxRecDepth 10000 in
/-- Two commits, a task assigned in the first one. -/
theorem idle_until_assigned_run : ∃ (hist : Hist small) (s : State small),
    s.taskActive 0 = false ∧ Throughout (IdleUntilAssigned quiet) hist s := by
  obtain ⟨hist, s, hr, htest⟩ := exists_reach_of_replay (exec ⟨true, quiet⟩) (IndexFresh quiet)
    boot_smallBoot (fun _ s => !s.taskActive 0)
    (smallSetup ++ [.openCommit, .assignTask 0 (some 0), .closeCommit, .openCommit])
    (by decide +kernel)
  refine ⟨hist, s, by simpa using htest, ?_⟩
  exact (idle_until_assigned_iff (hr.mono fun _ => trivial)).mpr hr.meets_guard

/-- The commit index is about to take the value that stands for "idle". -/
def lateBoot : State small := { smallBoot with sched := ⟨false, -2, 0, 0⟩ }

theorem boot_lateBoot : Boot lateBoot :=
  { boot_smallBoot with commit := rfl }

set_option maxRecDepth 10000 in
/-- A task that was never assigned is active after the opening that makes the index `-1`. -/
theorem idle_until_assigned_fails : ¬∀ (hist : Hist small) (s : State small),
    Reach quiet (fun _ _ _ => True) hist s → IdleUntilAssigned quiet hist s := by
  intro hall
  obtain ⟨hist, s, hr, htest⟩ := exists_reach_of_replay (exec ⟨true, quiet⟩)
    (fun _ _ _ => True) boot_lateBoot
    (fun hist s => decide ((s.task 0).tProcess ≠ none) && (s.taskActive 0 &&
      decide (∀ h, assignedSince quiet hist h 0 = false)))
    (smallSetup ++ [.openCommit]) (by decide +kernel)
  simp only [Bool.and_eq_true, decide_eq_true_eq] at htest
  obtain ⟨hmember, hactive, hnever⟩ := htest
  obtain ⟨h, hh⟩ := (hall hist s hr).task 0 hmember hactive
  rw [hnever h] at hh
  cases hh

end KernelTk.Sched
