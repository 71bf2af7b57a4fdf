import KernelTk.Sched.Roster

/-! # Paused processes

* **Property.** `PausedIdle` : no task of a process that is paused is active, or in `s_actives`.  That a
  process is paused is known from the run (`paused`): it has been paused, and not resumed since.
* **Condition.** The functions that make a task active read its own status and not the one of its
  process: `process_register_task`, `primitive_resume_task` and `process_unregister_prim`.
  `LeavesPaused` says that a call makes no registered task of a paused process active, in terms of the
  memory before it.
* **Lists.** `Idle` is the property on the list of the active tasks, which is known to be that of the
  memory (`Enrolled`); a call pauses no process and registers no task, and only some tasks have become
  active, or it is one of the two exceptions (`Idle.step`, `Idle.registerTask_iff`).
* **One call.** `paused_step` goes through the shifts of `Roster.lean`, one for each way in which a call
  changes the active list.
* **Runs.** A run has the property throughout iff none of the three functions is called for a paused
  process (`paused_idle_iff`).  `paused_idle_fails` registers a task to a paused process. -/

namespace KernelTk.Sched

open Transition
open CircularList (IsRing)

variable {k : Machine} {policy : Policy k} {hist : Hist k} {s s' : State k} {c : Call k}
  {r : BitVec 8} {p : PrimId k} {t : TaskId k} {d : ProcessId k}

/-- The process has been paused, and not resumed since. -/
def paused : Hist k → ProcessId k → Bool
  | [], _ => false
  | e :: hist, d =>
      match e.call with
      | .pauseProcess d' => d == d' || paused hist d
      | .resumeProcess d' | .registerProcess d' => d != d' && paused hist d
      | _ => paused hist d

/-- The tasks of the paused processes are not active, and not in the list of the active tasks. -/
def PausedIdle (hist : Hist k) (s : State k) : Prop :=
  ∃ actives : List (TaskId k), IsRing s.links .sActives (actives.map .tSchedList) ∧
    ∀ d t, paused hist d = true → taskRegistered hist t = true → (s.task t).tProcess = some d →
      (s.task t).tStatus ≠ schedStatusActive ∧ t ∉ actives

/-- The call makes no registered task of a paused process active. -/
def LeavesPaused (hist : Hist k) (s : State k) : Call k → Prop
  | .registerTask d _ => paused hist d = false
  | .resumeTask t => taskRegistered hist t = true → ∀ d, (s.task t).tProcess = some d →
      paused hist d = false
  | .unregisterPrim p => ∀ t, taskRegistered hist t = true → (s.task t).tStopper = some p →
      ∀ d, (s.task t).tProcess = some d → paused hist d = false
  | _ => True

section calls

variable {A A' : List (TaskId k)} {M : ProcessId k → Option (List (TaskId k))}
  {W : PrimId k → Option (List (TaskId k))} {l : List (HookCall k)}

/-- The property, on the list `A` of the active tasks. -/
def Idle (hist : Hist k) (s : State k) (A : List (TaskId k)) : Prop :=
  ∀ d t, paused hist d = true → taskRegistered hist t = true → (s.task t).tProcess = some d → t ∉ A

theorem Enrolled.pausedIdle_iff (E : Enrolled hist s A M W) : PausedIdle hist s ↔ Idle hist s A := by
  constructor
  · rintro ⟨actives, hactives, h⟩ d t hd ht hprc
    exact E.actives_eq hactives ▸ (h d t hd ht hprc).2
  · intro h
    refine ⟨A, E.ring, fun d t hd ht hprc => ⟨fun hst => ?_, h d t hd ht hprc⟩⟩
    have hK := E.roster.members.registered t ht
    have hnone := (E.roster.status t hK).active_iff.mp hst
    exact h d t hd ht hprc (E.roster.members.running t ht hnone)

/-! ### Calls -/

theorem paused_of_cons (hpause : ∀ d, c ≠ .pauseProcess d)
    (hd : paused (⟨s, c, r, s'⟩ :: hist) d = true) : paused hist d = true := by
  cases c with
  | pauseProcess e => exact absurd rfl (hpause e)
  | resumeProcess | registerProcess => exact (Bool.and_eq_true_iff.mp hd).2
  | _ => exact hd

theorem taskRegistered_of_cons (hadd : ∀ d t, c ≠ .registerTask d t)
    (ht : taskRegistered (⟨s, c, r, s'⟩ :: hist) t = true) : taskRegistered hist t = true := by
  cases c with
  | registerTask e v => exact absurd rfl (hadd e v)
  | unregisterTask | unregisterProcess => exact (Bool.and_eq_true_iff.mp ht).2
  | _ => exact ht

theorem leavesPaused_of_shifts (hist : Hist k) (s : State k) (hs : c.shifts = false) :
    (∀ d, c ≠ .pauseProcess d) ∧
    (∀ d t, c ≠ .registerTask d t) ∧ LeavesPaused hist s c := by
  cases c with
  | pauseProcess | registerTask | resumeTask | unregisterPrim => cases hs
  | _ => exact ⟨nofun, nofun, trivial⟩

/-- A call pauses no process and registers no task, and only the tasks `N` have become active. -/
theorem Idle.step {N : TaskId k → Prop} (hidle : Idle hist s A) (hpause : ∀ d, c ≠ .pauseProcess d)
    (hadd : ∀ d t, c ≠ .registerTask d t) (hprc : ∀ t, (s'.task t).tProcess = (s.task t).tProcess)
    (hA : ∀ t ∈ A', t ∈ A ∨ N t)
    (hcond : ∀ t, N t → taskRegistered hist t = true → ∀ d, (s.task t).tProcess = some d →
      paused hist d = false) : Idle (⟨s, c, r, s'⟩ :: hist) s' A' := by
  intro d t hd ht hprocess hmem
  have hd₀ := paused_of_cons hpause hd
  have ht₀ := taskRegistered_of_cons hadd ht
  rw [hprc t] at hprocess
  rcases hA t hmem with hmem | hN
  · exact hidle d t hd₀ ht₀ hprocess hmem
  · cases hd₀.symm.trans (hcond t hN ht₀ d hprocess)

theorem Idle.registerTask_iff (hidle : Idle hist s A) :
    Idle (⟨s, .registerTask d t, r, registerTask d t s⟩ :: hist) (registerTask d t s) (t :: A) ↔
      LeavesPaused hist s (.registerTask d t) := by
  constructor
  · intro hafter
    rw [LeavesPaused, ← Bool.not_eq_true]
    intro hpaused
    refine hafter d t hpaused ?_ ?_ List.mem_cons_self
    · simp [taskRegistered]
    · simp [registerTask]
  · intro hcond e u he hu hue hmem
    by_cases hut : u = t
    · subst hut
      have hed : e = d := by simpa [registerTask, eq_comm] using hue
      subst hed
      have he' : paused hist e = true := he
      cases he'.symm.trans hcond
    · have hu' : taskRegistered hist u = true := by simpa [taskRegistered, hut] using hu
      have hue' : (s.task u).tProcess = some e := by simpa [registerTask, hut] using hue
      exact hidle e u he hu' hue' ((List.mem_cons.mp hmem).resolve_left hut)

/-- **One call.** -/
theorem paused_step (E : Enrolled hist s A M W) (hprimed : s.Primed) (hidle : PausedIdle hist s)
    (hg : OnLinked hist s c) (he : exec ⟨true, policy⟩ c s = .ok (r, s')) :
    PausedIdle (⟨s, c, r, s'⟩ :: hist) s' ↔ LeavesPaused hist s c := by
  obtain ⟨A', M', W', l, E', hshift, -⟩ := exec_shift E hprimed hg he
  rw [E'.pausedIdle_iff]
  rw [E.pausedIdle_iff] at hidle
  have hprc : (∀ d t, c ≠ .registerTask d t) → ∀ u, (s'.task u).tProcess = (s.task u).tProcess :=
    fun hadd u => exec_tProcess E.roster.zones hprimed (fun d => hadd d u) he
  -- nothing happens to the paused processes if the list of the active tasks does not grow
  have hless : (∀ d, c ≠ .pauseProcess d) → (∀ d t, c ≠ .registerTask d t) → (∀ u ∈ A', u ∈ A) →
      Idle (⟨s, c, r, s'⟩ :: hist) s' A' := fun hpause hadd hA =>
    hidle.step (N := fun _ => False) hpause hadd (hprc hadd) (fun u hu => .inl (hA u hu))
      fun _ hN => hN.elim
  cases hshift with
  | still c hb hs =>
      obtain ⟨hpause, hadd, hcond⟩ := leavesPaused_of_shifts hist s hs
      exact iff_of_true (hless hpause hadd fun _ => id) hcond
  | stop c p h t hb hs ht hnone =>
      obtain ⟨hpause, hadd, hcond⟩ := leavesPaused_of_shifts hist s hs
      exact iff_of_true (hless hpause hadd fun _ hu => List.mem_of_mem_erase hu) hcond
  | drop h t A' l ht hA hl =>
      exact iff_of_true (hless nofun nofun fun u hu => ((hA u).mp hu).1) trivial
  | dropAll d A' hA =>
      exact iff_of_true (hless nofun nofun fun u hu => ((hA u).mp hu).1) trivial
  | resume t p hp =>
      constructor
      · intro hafter ht d hd
        rw [← Bool.not_eq_true]
        intro hpaused
        refine hafter d t hpaused ht ?_ List.mem_cons_self
        rw [hprc nofun t]
        exact hd
      · intro hcond
        refine hidle.step (N := fun u => u = t) nofun nofun (hprc nofun)
          (fun u hu => (List.mem_cons.mp hu).symm) ?_
        rintro u rfl
        exact hcond
  | wake p l hl =>
      have hmem : ∀ u, u ∈ l ↔ taskLinked hist u = true ∧ (s.task u).tStopper = some p :=
        fun u => E.roster.members.waits hl
      constructor
      · intro hafter t ht hp d hd
        rw [← Bool.not_eq_true]
        intro hpaused
        refine hafter d t hpaused ht ?_ ?_
        · rw [hprc nofun t]
          exact hd
        · have hin := (hmem t).mpr ⟨E.roster.members.registered t ht, hp⟩
          exact List.mem_append_left _ (List.mem_reverse.mpr hin)
      · intro hcond
        refine hidle.step (N := fun u => u ∈ l) nofun nofun (hprc nofun) (fun u hu => ?_)
          fun u hu ht => hcond u ht ((hmem u).mp hu).2
        rw [List.mem_append, List.mem_reverse] at hu
        exact hu.symm
  | add d t ht =>
      obtain ⟨-, rfl⟩ := processRegisterTask_iff.mp (void_eq_ok.mp he).2
      exact hidle.registerTask_iff
  | pause d l A' hl hA =>
      refine iff_of_true (fun e u he hu hue hmem => ?_) trivial
      rw [hprc nofun u] at hue
      obtain ⟨hmem, hout⟩ := (hA u).mp hmem
      by_cases hed : e = d
      · subst hed
        have hK := E.roster.members.registered u hu
        exact hout ((E.roster.members.member hl).mpr ⟨hK, hue⟩)
      · have he' : paused hist e = true := by simpa [paused, hed] using he
        exact hidle e u he' hu hue hmem

end calls

/-! ### Runs -/

/-- **No task of a paused process is active**, throughout a run of calls on linked tasks, iff no task
is registered to a paused process, resumed in it or woken in it by the end of a primitive. -/
theorem paused_idle_iff (hr : Reach policy OnLinked hist s) :
    Throughout PausedIdle hist s ↔ Meets LeavesPaused hist := by
  refine hr.throughout_iff (fun s hs => ⟨[], hs.actives, fun d t hd => by cases hd⟩)
    fun {hist s c r s'} hr hidle hg he => ?_
  obtain ⟨A, M, W, E⟩ := reach_enrolled (hr.mono And.left)
  exact paused_step E (reach_zones hr).2 hidle hg he

instance (hist : Hist k) (s : State k) (c : Call k) : Decidable (LeavesPaused hist s c) := by
  induction c using Call.casesOn with
  | registerTask d t => exact inferInstanceAs (Decidable (_ = _))
  | resumeTask t => exact inferInstanceAs (Decidable (_ → ∀ _, _ → _))
  | unregisterPrim p => exact inferInstanceAs (Decidable (∀ _, _ → _ → ∀ _, _ → _))
  | _ => exact inferInstanceAs (Decidable True)

set_option maxRecDepth 10000 in
/-- A process is paused while a task of it waits for a primitive, and nothing wakes its tasks. -/
theorem paused_idle_run : ∃ (hist : Hist small) (s : State small),
    (paused hist 0 = true ∧ (s.task 0).tStopper = some (pPrim 0) ∧
      (s.task 1).tStopper = some (.other 0)) ∧ Throughout PausedIdle hist s := by
  obtain ⟨hist, s, hr, htest⟩ := exists_reach_of_replay (exec ⟨true, quiet⟩)
    (fun hist s c => OnLinked hist s c ∧ LeavesPaused hist s c) boot_smallBoot
    (fun hist s => decide (paused hist 0 = true ∧ (s.task 0).tStopper = some (pPrim 0) ∧
      (s.task 1).tStopper = some (.other 0)))
    [.registerProcess 0, .registerThread 0, .registerThread 1, .registerTask 0 0, .registerTask 0 1,
      .registerPrim 0 (.other 0), .registerPrim 0 (.other 1), .openCommit, .assignTask 0 (some 0),
      .assignTask 1 (some 1), .stopThread (.other 0) 1, .pauseProcess 0, .unregisterPrim (.other 1),
      .closeCommit] (by decide +kernel)
  exact ⟨hist, s, of_decide_eq_true htest,
    (paused_idle_iff (hr.mono And.left)).mpr (hr.mono And.right).meets_guard⟩

set_option maxRecDepth 10000 in
/-- A task is registered to a paused process. -/
theorem paused_idle_fails : ¬∀ (hist : Hist small) (s : State small),
    Reach quiet OnLinked hist s → PausedIdle hist s := by
  intro hall
  obtain ⟨hist, s, hr, htest⟩ := exists_reach_of_replay (exec ⟨true, quiet⟩) OnLinked boot_smallBoot
    (fun hist s => decide (paused hist 0 = true ∧ taskRegistered hist 1 = true ∧
      (s.task 1).tProcess = some 0 ∧ (s.task 1).tStatus = schedStatusActive))
    [.registerProcess 0, .registerThread 0, .registerTask 0 0, .openCommit, .assignTask 0 (some 0),
      .pauseProcess 0, .registerTask 0 1] (by decide +kernel)
  obtain ⟨hpaused, ht, hprc, hst⟩ := of_decide_eq_true htest
  obtain ⟨actives, -, h⟩ := hall hist s hr
  exact (h 0 1 hpaused ht hprc).1 hst

end KernelTk.Sched
