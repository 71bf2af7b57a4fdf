import KernelTk.Sched.Histories
import KernelTk.Sched.Roster

/-! # Traces of the tasks of an unregistered process

The unregistration of a process ends its tasks, in one walk of `p_tasks`.

* **Property.** `Traceless` : the histories are lists of the recorded sizes, and the call that
  unregisters a process leaves none of its tasks in `s_actives`, in a `t_history` or in a `t_task`.
* **Condition.** `sched_unregister_process` takes the tasks out of `s_actives` and leaves their
  `t_thread`, where `process_unregister_task` calls `thread_unregister_task`.  `OffThreads` : the process
  has no registered task in a history, and what is registered again is in none.
* **Tasks.** The call leaves the words of the tasks and of the threads (`unregisterProcess_leaves`), and no
  task of the process is active after it, so that a task is referred to iff it has a `t_thread`
  (`untraced_iff`).  The histories that the property speaks of are determined by the memory
  (`Histories.mem_ring`).
* **Runs.** A run has the property throughout iff the processes that it unregisters have no
  registered task in a history, and the tasks that it registers again are in none
  (`traceless_iff`).  The runs are those in which a task is registered again only after the
  unregistration of its process: while it is linked in, the second registration breaks `p_tasks`.
* **Failure.** `traceless_fails` : a process is unregistered while a thread executes its task. -/

namespace KernelTk.Sched

open Transition
open CircularList (IsRing)

variable {k : Machine} {policy : Policy k} {hist : Hist k} {s s' : State k} {c : Call k}
  {r : BitVec 8} {t : TaskId k} {h : ThreadId k} {d : ProcessId k} {T : ThreadId k → Prop}

/-- The scheduler and its threads do not refer to the task. -/
structure Untraced (hist : Hist k) (s : State k) (t : TaskId k) : Prop where
  actives : ∃ actives : List (TaskId k),
    IsRing s.links .sActives (actives.map .tSchedList) ∧ t ∉ actives
  executed : ∀ h, threadRegistered hist h = true → (s.thread h).tTask ≠ some t
  history : ∀ h (l : List (TaskId k)), threadKnown hist h = true →
    IsRing s.links (.threadHistory h) (l.map .tHistory) → t ∉ l

/-- The histories are in order; if a process has just been unregistered, its tasks are referred to
by nothing. -/
def Traceless (hist : Hist k) (s : State k) : Prop :=
  HistoriesSized hist s ∧ ∀ e hist' d, hist = e :: hist' → e.call = .unregisterProcess d →
    ∀ t, taskRegistered hist' t = true → (e.pre.task t).tProcess = some d → Untraced hist s t

/-- The process that is unregistered has no registered task in a history, and the task that is
registered again is in none. -/
def OffThreads (hist : Hist k) (s : State k) : Call k → Prop
  | .unregisterProcess d => ∀ t, taskRegistered hist t = true → (s.task t).tProcess = some d →
      (s.task t).tThread = none
  | c => OffHistory hist s c

theorem OffThreads.offHistory (ho : OffThreads hist s c) : OffHistory hist s c := by
  cases c with
  | unregisterProcess => trivial
  | _ => exact ho

theorem unregisterProcess_leaves (Z : Zones s.pointers T)
    (he : schedUnregisterProcess ⟨true, policy⟩ d s = .ok s') :
    s'.task = s.task ∧ s'.thread = s.thread := by
  obtain ⟨-, s₁, -, hmoves, -, rfl⟩ := schedUnregisterProcess_ok
    (fun _ m => ∃ t, m = .unlinkUnsafe t) Z (fun _ t => ⟨t, rfl⟩) he
  have hkeep : s₁.task = s.task ∧ s₁.thread = s.thread := by
    refine hmoves.keeps (I := fun x => x.task = s.task ∧ x.thread = s.thread)
      (fun {x} m hx _ hm => ?_) ⟨rfl, rfl⟩
    obtain ⟨t, rfl⟩ := hm
    exact hx
  exact hkeep

/-- A history is determined by the memory. -/
theorem Histories.mem_ring {A : ThreadId k → Option (TaskId k)}
    {M : ThreadId k → Option (List (TaskId k))} {l : List (TaskId k)}
    (H : Histories s.pointers A T M) (hh : T h)
    (hl : IsRing s.links (.threadHistory h) (l.map .tHistory)) :
    t ∈ l ↔ (s.task t).tProcess ≠ none ∧ (s.task t).tThread = some h := by
  obtain ⟨l', hl'⟩ := Option.isSome_iff_exists.mp ((H.known h).mpr hh)
  have e := hl.unique (H.table.ring hl')
  obtain rfl := List.map_injective_iff.mpr (fun _ _ => Node.tHistory.inj) e
  exact H.registry.mem hl'

/-- A task that is not active is referred to by nothing iff it has no `t_thread`. -/
theorem untraced_iff {A : List (TaskId k)} {M : ThreadId k → Option (List (TaskId k))}
    (hA : IsRing s.links .sActives (A.map .tSchedList)) (ht : t ∉ A)
    (Z : Zones s.pointers (threadKnown hist · = true))
    (H : Histories s.pointers s.activity.tTask (threadKnown hist · = true) M)
    (hsched : ∀ h, (s.thread h).tSched = threadRegistered hist h)
    (hprc : (s.task t).tProcess ≠ none) :
    Untraced hist s t ↔ (s.task t).tThread = none := by
  constructor
  · intro hun
    by_contra hth
    obtain ⟨h, hth⟩ := Option.ne_none_iff_exists'.mp hth
    obtain ⟨l, hl, hmem⟩ := H.registry.exists_list hprc hth
    have hh : threadKnown hist h = true := (H.known h).mp (by simp [hl])
    exact hun.history h l hh (H.table.ring hl) hmem
  · intro hth
    refine ⟨⟨A, hA, ht⟩, fun h hreg htask => ?_, fun h l hh hl hmem => ?_⟩
    · have hh := Z.thread h ((hsched h).trans hreg)
      obtain ⟨-, hth'⟩ := H.executes h t hh htask
      cases hth.symm.trans hth'
    · obtain ⟨-, hth'⟩ := (H.mem_ring hh hl).mp hmem
      cases hth.symm.trans hth'

/-! ### Runs -/

/-- **One call.** -/
theorem traceless_step {A : List (TaskId k)} {M : ProcessId k → Option (List (TaskId k))}
    {W : PrimId k → Option (List (TaskId k))} (E : Enrolled hist s A M W) (hprimed : s.Primed)
    (hsched : ∀ h, (s.thread h).tSched = threadRegistered hist h)
    (H : HasHistories s (threadKnown hist · = true)) (hg : OnLinked hist s c)
    (he : exec ⟨true, policy⟩ c s = .ok (r, s')) :
    Traceless (⟨s, c, r, s'⟩ :: hist) s' ↔ OffThreads hist s c := by
  have Z := E.roster.zones
  have hkeep : OffHistory hist s c →
      HasHistories s' (threadKnown (⟨s, c, r, s'⟩ :: hist) · = true) :=
    fun ho => exec_histories Z hprimed hsched hg.1 ho H he
  cases c with
  | unregisterProcess d =>
      obtain ⟨A', M', W', l, E', hshift, -⟩ := exec_shift E hprimed hg he
      have hA : ∀ u, u ∈ A' ↔ u ∈ A ∧ (s.task u).tProcess ≠ some d := by
        cases hshift with
        | still c hb hs => cases hs
        | stop c p h t hb hs => cases hb
        | dropAll d A' hA => exact hA
      obtain ⟨N, H'⟩ := hkeep trivial
      obtain ⟨htask, -⟩ := unregisterProcess_leaves Z (void_eq_ok.mp he).2
      have hring := E'.roster.members.actives.ring (a := ()) rfl
      have huntraced : ∀ t, (s.task t).tProcess = some d →
          (Untraced (⟨s, .unregisterProcess d, r, s'⟩ :: hist) s' t ↔
            (s.task t).tThread = none) := by
        intro t hd
        have ht : t ∉ A' := fun ht => ((hA t).mp ht).2 hd
        rw [← htask]
        refine untraced_iff hring ht E'.roster.zones H' (fun h => ?_) ?_
        · exact exec_tSched Z hprimed (hsched h) he
        · rw [htask, hd]
          exact Option.some_ne_none d
      constructor
      · rintro ⟨-, hall⟩ t ht hd
        exact (huntraced t hd).mp (hall _ hist d rfl rfl t ht hd)
      · intro ho
        refine ⟨HasHistories.sized ⟨N, H'⟩, ?_⟩
        rintro e hist' d' heq hcall t ht hd
        obtain ⟨rfl, rfl⟩ := List.cons.inj heq
        obtain rfl := Call.unregisterProcess.inj hcall
        exact (huntraced t hd).mpr (ho t ht hd)
  | registerTask d t =>
      constructor
      · rintro ⟨hsized, -⟩
        obtain ⟨hd, rfl⟩ := processRegisterTask_iff.mp (void_eq_ok.mp he).2
        obtain ⟨M, H⟩ := H
        exact offHistory_of_sized Z H hd hsized
      · intro ho
        refine ⟨(hkeep ho).sized, ?_⟩
        rintro e hist' d' heq hcall
        obtain ⟨rfl, rfl⟩ := List.cons.inj heq
        cases hcall
  | _ =>
      refine iff_of_true ⟨(hkeep trivial).sized, ?_⟩ trivial
      rintro e hist' d' heq hcall
      obtain ⟨rfl, rfl⟩ := List.cons.inj heq
      cases hcall

/-- **The unregistration of a process leaves no trace of its tasks**, throughout a run of calls on
linked tasks, iff none of them is in a history, and no task is registered again while it is in
one. -/
theorem traceless_iff (hr : Reach policy OnLinked hist s) :
    Throughout Traceless hist s ↔ Meets OffThreads hist := by
  refine hr.throughout_iff (fun s hs => ⟨nofun, fun _ _ _ h => nomatch h⟩)
    fun {hist s c r s'} hr _ hg he => ?_
  obtain ⟨A, M, W, E⟩ := reach_enrolled (hr.mono And.left)
  have H := reach_histories (hr.mono fun h => ⟨h.1.1, h.2.offHistory⟩)
  exact traceless_step E (reach_zones hr).2 (reach_tSched hr) H hg he

instance (hist : Hist k) (s : State k) (c : Call k) : Decidable (OffThreads hist s c) := by
  induction c using Call.casesOn with
  | unregisterProcess d =>
      exact inferInstanceAs (Decidable (∀ t, taskRegistered hist t = true →
        (s.task t).tProcess = some d → (s.task t).tThread = none))
  | registerTask => exact inferInstanceAs (Decidable (_ → _))
  | _ => exact inferInstanceAs (Decidable True)

set_option maxRecDepth 10000 in
/-- Two tasks of a process have been executed and have left their threads, one of them stopped; they
are registered again after the unregistration of the process. -/
theorem traceless_run : ∃ (hist : Hist small) (s : State small),
    ((s.task 0).tProcess = some 0 ∧ (s.task 0).tStatus = schedStatusActive) ∧
      Throughout Traceless hist s := by
  obtain ⟨hist, s, hr, htest⟩ := exists_reach_of_replay (exec ⟨true, quiet⟩)
    (fun hist s c => OnLinked hist s c ∧ OffThreads hist s c) boot_smallBoot
    (fun _ s => decide ((s.task 0).tProcess = some 0 ∧ (s.task 0).tStatus = schedStatusActive))
    [.registerProcess 0, .registerThread 0, .registerThread 1, .registerTask 0 0, .registerTask 0 1,
      .openCommit, .assignTask 0 (some 0), .assignTask 1 (some 1), .pauseProcess 0,
      .unregisterThread 0, .unregisterThread 1, .unregisterProcess 0, .registerProcess 0,
      .registerTask 0 0, .registerTask 0 1, .closeCommit] (by decide +kernel)
  exact ⟨hist, s, of_decide_eq_true htest,
    (traceless_iff (hr.mono And.left)).mpr (hr.mono And.right).meets_guard⟩

set_option maxRecDepth 10000 in
/-- A process is unregistered while a thread executes its task. -/
theorem traceless_fails : ¬∀ (hist : Hist small) (s : State small),
    Reach quiet OnLinked hist s → Traceless hist s := by
  intro hall
  obtain ⟨hist, s, hr, htest⟩ := exists_reach_of_replay (exec ⟨true, quiet⟩) OnLinked boot_smallBoot
    (fun hist s => hist.head?.any fun e : Event (State small) (Call small) (BitVec 8) =>
      decide (e.call = .unregisterProcess 0 ∧ taskRegistered hist.tail 0 = true ∧
        (e.pre.task 0).tProcess = some 0 ∧ threadRegistered hist 0 = true ∧
        (s.thread 0).tTask = some 0))
    [.registerProcess 0, .registerThread 0, .registerTask 0 0, .openCommit, .assignTask 0 (some 0),
      .unregisterProcess 0] (by decide +kernel)
  obtain ⟨e, he, htest⟩ := (Option.any_eq_true _ _).mp htest
  have hhist := List.eq_cons_of_mem_head? he
  obtain ⟨hcall, ht, hprc, hreg, htask⟩ := of_decide_eq_true htest
  exact ((hall hist s hr).2 e hist.tail 0 hhist hcall 0 ht hprc).executed 0 hreg htask

end KernelTk.Sched
