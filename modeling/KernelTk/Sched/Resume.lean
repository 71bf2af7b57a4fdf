import KernelTk.Sched.Pause

/-! # Resuming a process

`sched_resume_process` walks the stopped list of the primitive of the process, which is linked
through `t_stopped`, as if it were linked through `t_siblings` : the first node is converted to an
address where no task starts.

* **Walk.** It returns on an empty list only (`Good.resumeProcess_walk`).
* **Property.** `Restored` : the tasks that were active are active, the others are stopped where they
  were, no task is stopped by the primitive of the process, and the process is active.
* **Round trip.** Pausing a process and resuming it restores it iff there was nothing to pause and
  nothing to resume (`resume_undoes_pause_iff`): no task of the process was active, and none was stopped
  by its primitive.  If there was, the pause has put it in the list that the resumption walks, and the
  resumption uses an invalid pointer; if there was not, the pause leaves the scheduler as it was
  (`Pausing.restored`).  It is stated of a build without checks, in which a pause always returns.
* **Defects.** `resume_fails` : a process with one active task. -/

namespace KernelTk.Sched

open Transition
open CircularList (IsRing)

variable {k : Machine} {env : Env k} {c : ProcessId k} {s x s' : State k} {v w : View k}
  {t : TaskId k} {l : List (TaskId k)}

/-- The tasks that were active are active, the others are stopped where they were, no task is
stopped by the primitive of the process, and the process is active. -/
structure Restored (registered : PrimId k → Prop) (c : ProcessId k) (s s' : State k) : Prop where
  status : (s'.process c).pStatus = schedStatusActive
  active : ∀ t, (s.task t).tProcess = some c →
    ((s'.task t).tStatus = schedStatusActive ↔ (s.task t).tStatus = schedStatusActive)
  runs : ∀ t, ActiveIn c s t → (s'.task t).tStopper = none
  actives : ∀ L : List (TaskId k), IsRing s.links .sActives (L.map .tSchedList) →
    ∃ L' : List (TaskId k), L'.Perm L ∧ IsRing s'.links .sActives (L'.map .tSchedList)
  stays : ∀ t, ¬ActiveIn c s t → (s'.task t).tStopper = (s.task t).tStopper
  places : ∀ p, registered p → p ≠ pPrim c → ∀ L : List (TaskId k),
    IsRing s.links (.pStopped p) (L.map .tStopped) → IsRing s'.links (.pStopped p) (L.map .tStopped)
  empty : IsRing s'.links (.pStopped (pPrim c)) [] ∧ (s'.prim (pPrim c)).nbStoppedTasks = 0
  tasks : ∀ L : List (TaskId k), IsRing s.links (.pTasks c) (L.map .tSiblings) →
    IsRing s'.links (.pTasks c) (L.map .tSiblings)

theorem Good.tasks_eq {L : List (TaskId k)} (G : Good s v) (hc : v.HasProcess c)
    (hL : IsRing s.links (.pTasks c) (L.map .tSiblings)) : v.tasks c = some L := by
  obtain ⟨m, hm⟩ := Option.isSome_iff_exists.mp hc
  have hr : IsRing s.links (.pTasks c) (m.map .tSiblings) := G.wf.rings.ring (by simp [hm])
  rw [hm, List.map_injective_iff.mpr (fun _ _ e => Node.tSiblings.inj e) (hr.unique hL)]

/-- A pause of a process without active tasks leaves the scheduler as it was. -/
theorem Pausing.restored (status : BitVec 32) (P : Pausing c s v l x w) (S : Scheduled s v)
    (hc : v.HasProcess c) (hl : v.tasks c = some l) (hnone : ∀ t, ¬ActiveIn c s t)
    (hempty : v.stopped (pPrim c) = some []) : Restored v.HasPrim c s
      (setProcessStatus c schedStatusActive (setProcessStatus c status x)) := by
  have hp := (S.pPrim c hc).1
  have hno : ∀ t, ¬(t ∈ l ∧ running s t = true) := by
    rintro t ⟨ht, hrun⟩
    obtain ⟨hT, hprc⟩ := (S.good.wf.tasks.mem hl).mp ht
    exact hnone t ⟨hprc, (S.status t hT).active_iff.mpr (Option.isNone_iff_eq_none.mp hrun)⟩
  have hfilter : l.filter (running s) = [] :=
    List.filter_eq_nil_iff.mpr fun t ht hrun => hno t ⟨ht, hrun⟩
  have hstopper : ∀ t, (x.task t).tStopper = (s.task t).tStopper :=
    fun t => (P.tStopper t).trans (if_neg (hno t))
  have hstopped : w.stopped (pPrim c) = some [] := by
    rw [P.stopped, if_pos rfl, hempty, hfilter]
    rfl
  constructor
  · simp [setProcessStatus]
  · intro t hprc
    have hT : v.HasTask t := S.good.attached.task t (by simp [State.pointers, hprc])
    have hx : (x.task t).tStatus = schedStatusActive ↔ _ := (P.status t hT).active_iff
    exact hx.trans ((hstopper t).symm ▸ (S.status t hT).active_iff.symm)
  · exact fun t ht => absurd ht (hnone t)
  · intro L hL
    have hr : IsRing s.links .sActives (v.actives.map .tSchedList) := S.good.wf.rings.ring rfl
    obtain rfl := tSchedList_inj (hr.unique hL)
    refine ⟨w.actives, ?_, P.good.wf.rings.ring rfl⟩
    rw [List.perm_ext_iff_of_nodup P.good.wf.nodup_actives S.good.wf.nodup_actives]
    intro t
    have hs : x.pointers.tStopper t = s.pointers.tStopper t := hstopper t
    rw [P.good.wf.actives, S.good.wf.actives, P.objects.task, hs]
  · exact fun t _ => hstopper t
  · intro p hP hne L hL
    refine P.good.ring_stopped ?_
    rw [P.stopped, if_neg hne]
    exact S.good.stopped_eq hP hL
  · exact ⟨P.good.ring_stopped hstopped, P.good.nbStoppedTasks_eq_zero hstopped⟩
  · intro L hL
    refine P.good.wf.rings.ring ?_
    have hL' := S.good.tasks_eq hc hL
    simp [P.tasks, hL']

/-- **The round trip.**  In a non-debug build `sched_resume_process` undoes `sched_pause_process` iff
no task of the process was active and none was stopped by its primitive. -/
theorem resume_undoes_pause_iff (S : Scheduled s v) (hq : QuietStops env) (hd : env.debug = false)
    (hc : v.HasProcess c) :
    (∃ s₁ s₂, schedPauseProcess env c s = .ok s₁ ∧ schedResumeProcess env c s₁ = .ok s₂ ∧
      Restored v.HasPrim c s s₂) ↔
    (∀ t, ¬ActiveIn c s t) ∧ s.links.isEmpty (.pStopped (pPrim c)) = true := by
  obtain ⟨l, hl⟩ := Option.isSome_iff_exists.mp hc
  obtain ⟨l₀, hl₀⟩ := Option.isSome_iff_exists.mp (S.pPrim c hc).1
  rw [S.good.isEmpty_iff hl₀]
  have hnodebug : ¬env.debug = true := by simp [hd]
  obtain ⟨hvisits, htotal⟩ := pause_walk S hq hc hl
  -- what the resumption finds in the stopped list of the primitive
  have hresume : ∀ x, forEachNode (.pTasks c) (pauseTask env c) s = .ok x →
      ∃ w, Pausing c s v l x w ∧ ∀ status, forEachNode (.pStopped (pPrim c))
        (fun n s => primitiveResumeTask env (containerOf n tSiblingsOffset) s)
        (setProcessStatus c status x) =
        if l₀ ++ l.filter (running s) = [] then .ok (setProcessStatus c status x)
          else .error .pointer := by
    intro x hx
    obtain ⟨done, rest, hn, hsplit, ⟨w, P⟩, -⟩ := hvisits x hx
    obtain rfl : l = done := by simp [hsplit, List.map_eq_nil_iff.mp hn.symm]
    refine ⟨w, P, fun status => ?_⟩
    have G := P.good.congr (setProcessStatus_pointers x c status)
    refine G.resumeProcess_walk ?_
    rw [P.stopped, if_pos rfl, hl₀]
    rfl
  have hactive : ∀ t, ActiveIn c s t → t ∈ l.filter (running s) := by
    rintro t ⟨hprc, hst⟩
    have hT : v.HasTask t := S.good.attached.task t (by simp [State.pointers, hprc])
    refine List.mem_filter.mpr ⟨(S.good.wf.tasks.mem hl).mpr ⟨hT, hprc⟩, ?_⟩
    exact Option.isNone_iff_eq_none.mpr ((S.status t hT).active_iff.mp hst)
  constructor
  · rintro ⟨s₁, s₂, h₁, h₂, -⟩
    obtain ⟨-, x, hx, rfl⟩ := schedPauseProcess_ok.mp h₁
    obtain ⟨-, y, hy, -⟩ := schedResumeProcess_ok.mp h₂
    obtain ⟨w, -, hwalk⟩ := hresume x hx
    rw [hwalk] at hy
    split at hy
    · rename_i hnil
      obtain ⟨h₀, hfilter⟩ := List.append_eq_nil_iff.mp hnil
      exact ⟨fun t ht => by simpa [hfilter] using hactive t ht, h₀⟩
    · cases hy
  · rintro ⟨hnone, rfl⟩
    obtain ⟨x, hx⟩ := htotal fun _ _ _ hdebug => absurd hdebug hnodebug
    obtain ⟨w, P, hwalk⟩ := hresume x hx
    have hfilter : l.filter (running s) = [] := by
      refine List.filter_eq_nil_iff.mpr fun t ht hrun => hnone t ?_
      obtain ⟨hT, hprc⟩ := (S.good.wf.tasks.mem hl).mp ht
      exact ⟨hprc, (S.status t hT).active_iff.mpr (Option.isNone_iff_eq_none.mp hrun)⟩
    refine ⟨_, _, schedPauseProcess_ok.mpr ⟨fun h => absurd h hnodebug, x, hx, rfl⟩,
      schedResumeProcess_ok.mpr ⟨fun h => absurd h hnodebug, _, ?_, rfl⟩,
      P.restored schedStatusStopped S hc hl hnone hl₀⟩
    rw [hwalk, hfilter, List.append_nil, if_pos rfl]

set_option maxRecDepth 10000 in
/-- All the tasks of the process have been stopped by another primitive. -/
theorem resume_undoes_pause_run : ∃ (s : State small) (v : View small), Scheduled s v ∧
    ∃ s₁ s₂, schedPauseProcess ⟨false, quiet⟩ 0 s = .ok s₁ ∧
      schedResumeProcess ⟨false, quiet⟩ 0 s₁ = .ok s₂ ∧ Restored v.HasPrim 0 s s₂ := by
  obtain ⟨hist, s, hr, htest⟩ := exists_reach_of_replay (exec ⟨true, quiet⟩)
    (fun hist _ c => Additive hist c) boot_smallBoot
    (fun hist s => decide (processRegistered hist 0 = true ∧
      (∀ t, ¬((s.task t).tProcess = some 0 ∧ (s.task t).tStatus = schedStatusActive)) ∧
      s.links.isEmpty (.pStopped (pPrim 0)) = true))
    (smallSetup ++ [.registerPrim 0 (.other 0), .assignTask 0 (some 0), .assignTask 1 (some 1),
      .assignTask 2 (some 2), .stopThread (.other 0) 0, .stopThread (.other 0) 1,
      .stopThread (.other 0) 2, .openCommit]) (by decide +kernel)
  obtain ⟨hc, hnone, hempty⟩ := of_decide_eq_true htest
  obtain ⟨v, S, R⟩ := reach_scheduled hr
  exact ⟨s, v, S, (resume_undoes_pause_iff S (quietStops_quiet false) rfl
    ((R.process 0).mpr hc)).mpr ⟨hnone, hempty⟩⟩

set_option maxRecDepth 10000 in
/-- One task of the process is active: the pause stops it, and the resumption uses an invalid
pointer. -/
theorem resume_fails : ¬∀ (s : State small) (v : View small), Scheduled s v → v.HasProcess 0 →
    s.sched.sCommitOpened = true → (s.process 0).pStatus = schedStatusActive →
    ∃ s₁ s₂, schedPauseProcess ⟨false, quiet⟩ 0 s = .ok s₁ ∧
      schedResumeProcess ⟨false, quiet⟩ 0 s₁ = .ok s₂ ∧ Restored v.HasPrim 0 s s₂ := by
  intro hall
  obtain ⟨hist, s, hr, htest⟩ := exists_reach_of_replay (exec ⟨true, quiet⟩)
    (fun hist _ c => Additive hist c) boot_smallBoot
    (fun hist s => decide (processRegistered hist 0 = true ∧ s.sched.sCommitOpened = true ∧
      (s.process 0).pStatus = schedStatusActive) &&
      fails .pointer (schedPauseProcess ⟨false, quiet⟩ 0 s >>= schedResumeProcess ⟨false, quiet⟩ 0))
    (smallSetup ++ [.assignTask 0 (some 0), .openCommit]) (by decide +kernel)
  rw [Bool.and_eq_true] at htest
  obtain ⟨hc, hopen, hactive⟩ := of_decide_eq_true htest.1
  obtain ⟨v, S, R⟩ := reach_scheduled hr
  obtain ⟨s₁, s₂, h₁, h₂, -⟩ := hall s v S ((R.process 0).mpr hc) hopen hactive
  have h : schedPauseProcess ⟨false, quiet⟩ 0 s >>= schedResumeProcess ⟨false, quiet⟩ 0 = .ok s₂ :=
    bind_eq_ok.mpr ⟨s₁, h₁, h₂⟩
  cases h.symm.trans (fails_iff.mp htest.2)

end KernelTk.Sched
