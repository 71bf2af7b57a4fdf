import KernelTk.Sched.Agreement

/-! # The scheduler refines the board

* **Walks.** The functions that walk along a list of the memory agree with those that fold over the
  list of the board: `unregisterPrim_agree`, `pauseProcess_agree`.  The bodies edit the list on which the
  walk goes; what is followed is the list at the start, and the turns left to do.
* **Resuming.** `resumeProcess_agree` : the walk of `sched_resume_process` leaves the list at its first
  step, so that it returns iff no task waits for the primitive of the process only.
* **Calls.** `exec_agree` : a call of a debug build returns iff the board accepts it, with the same
  value, and the memory represents the next board.  Calls that register nothing come first
  (`exec_agree_same`); then one lemma a registration.
* **Runs.** `debug_refines` : from a memory in which nothing is registered, the states that regular calls
  reach represent the boards that the same calls reach, the values returned and the calls that the policy
  hears included; and the board accepts no other run.
* **Scope.** Tasks, threads and processes are only registered in these runs: what
  `process_unregister_task` leaves behind belongs to no board. -/

namespace KernelTk.Sched

open Lockstep Transition

variable {k : Machine} {policy : Policy k} {O : Objects k} {hist : Hist k} {s s' : State k}
  {b b' : Board k} {v : View k} {p q : PrimId k} {t u : TaskId k} {h g : ThreadId k}
  {c d : ProcessId k} {call : HookCall k}

/-! ### Walks -/

/-- The lists of tasks are short enough for the walks. -/
theorem length_lt_fuel {l : List (TaskId k)} (hl : l.Nodup) : l.length < k.nodes + 1 := by
  have h := hl.length_le_card
  rw [Fintype.card_fin] at h
  unfold Machine.nodes
  omega

theorem Board.resumeTask_waiting {l : List (TaskId k)} (hl : b.waiting p = some (t :: l))
    (hb : b.resumeTask policy t = some b') : b'.waiting p = some l := by
  simp only [resumeTask] at hb
  split at hb
  · rw [(hear_same hb).waiting]
    simp [resume, hl]
  · cases hb

/-- The walk of **`process_unregister_prim`** -/
theorem resumeAll_agree {l : List (TaskId k)} (R : Shows O s b) (hl : b.waiting p = some l) :
    Agree (fun s b => Shows O s b ∧ b.waiting p = some [])
      (forEachNode (.pStopped p)
        (fun n s => primitiveResumeTask ⟨true, policy⟩ (containerOf n tStoppedOffset) s) s)
      (l.foldlM (fun b t => b.resumeTask policy t) b) := by
  obtain ⟨v, G, Q⟩ := R.1.lists
  have hlv : v.stopped p = some l := Q.stopped ▸ hl
  unfold forEachNode
  rw [G.next_pStopped hlv]
  refine Agree.walk Node.tStopped (fun l s b => Shows O s b ∧ b.waiting p = some l) ?_ ?_ l _ s b
    (length_lt_fuel (G.wf.stopped.nodup hlv)) ⟨R, hl⟩
  · rintro t l x y ⟨Rx, hy⟩
    obtain ⟨w, Gx, Qx⟩ := Rx.1.lists
    exact ⟨nofun, Gx.next_tStopped (Qx.stopped ▸ hy)⟩
  · rintro t l x y ⟨Rx, hy⟩
    refine (resumeTask_agree Rx (containerOf_tStopped t)).mono fun x' y' _ hy' Rx' => ⟨Rx', ?_⟩
    exact Board.resumeTask_waiting hy hy'

/-- The objects without a primitive. -/
def Objects.drop (O : Objects k) (p : PrimId k) : Objects k :=
  { O with prim := fun q => q != p && O.prim q }

theorem Board.objects_dropPrim : (b.dropPrim p).objects = b.objects.drop p := by
  simp only [objects, Objects.drop, dropPrim]
  congr 1
  funext q
  by_cases hq : q = p <;> simp [hq]

theorem unregisterPrim_eq {env : Env k} (hc : (s.prim p).pProcess = some c) :
    processUnregisterPrim env p s =
      forEachNode (.pStopped p)
        (fun n s => primitiveResumeTask env (containerOf n tStoppedOffset) s) s >>=
      fun s₁ => primUnOverride env p s₁ >>= fun s₂ =>
        .ok (if (s₂.prim p).pNbOwningTasks = 0 then 0 else 1, forgetPrim p c s₂) := by
  have hcheck : nsCheck env (some c ≠ none) = .ok () := by simp [nsCheck]
  simp only [processUnregisterPrim, hc, hcheck]
  refine congrArg (forEachNode _ _ s >>= ·) (funext fun s₁ => ?_)
  split
  · rename_i ho
    have hover : primUnOverride env p s₁ = .ok s₁ := by simp [primUnOverride, ho]
    rw [hover]
    rfl
  · rfl

/-- **`process_unregister_prim`** -/
theorem unregisterPrim_agree (R : Shows O s b) (hp : b.waiting p ≠ none) :
    Agree (Returns (O.drop p)) (processUnregisterPrim ⟨true, policy⟩ p s)
      (b.unregisterPrim policy p) := by
  obtain ⟨l, hl⟩ := Option.ne_none_iff_exists'.mp hp
  obtain ⟨c, hc⟩ := Option.ne_none_iff_exists'.mp (R.1.sound.owner p hp)
  have hprc : (s.prim p).pProcess = some c := (R.1.owner p).trans hc
  rw [unregisterPrim_eq hprc, Board.unregisterPrim, hl, Option.getD_some]
  refine (resumeAll_agree R hl).bind fun s₁ b₁ _ _ hR₁ => ?_
  obtain ⟨R₁, hl₁⟩ := hR₁
  refine (unoverride_agree R₁ (by simp [hl₁])).bind fun s₂ b₂ _ hb₂ R₂ => ?_
  obtain ⟨hwaiting, -, ho⟩ := Board.unoverride_same hb₂
  have htaken : (s₂.prim p).pNbOwningTasks = b₂.taken p := R₂.1.taken p
  rw [htaken]
  refine .ok ⟨rfl, R₂.1.dropPrim (hwaiting ▸ hl₁) ho c, ?_⟩
  rw [Board.objects_dropPrim, R₂.2]

theorem Board.stopTask_members (hb : b.stopTask policy p t = some b') : b'.members = b.members := by
  simp only [stopTask] at hb
  split at hb
  · exact (hear_same hb).members
  · cases hb

open scoped Classical in
/-- The walk of **`sched_pause_process`** -/
theorem pauseAll_agree {l : List (TaskId k)} (R : Shows O s b) (hl : b.members c = some l)
    (hp : O.prim (pPrim c) = true) :
    Agree (Shows O) (forEachNode (.pTasks c) (pauseTask ⟨true, policy⟩ c) s)
      (l.foldlM (fun b t => if t ∈ b.ready then b.stopTask policy (pPrim c) t else some b) b) := by
  obtain ⟨v, G, Q⟩ := R.1.lists
  have hlv : v.tasks c = some l := Q.tasks ▸ hl
  unfold forEachNode
  rw [G.next_pTasks hlv]
  refine (Agree.walk Node.tSiblings (fun l' s b => Shows O s b ∧ b.members c = some l ∧
      ∃ done, l = done ++ l') ?_ ?_ l _ s b (length_lt_fuel (G.wf.tasks.nodup hlv))
      ⟨R, hl, [], rfl⟩).mono fun _ _ _ _ h => h.1
  · rintro t l' x y ⟨Rx, hy, done, hdone⟩
    obtain ⟨w, Gx, Qx⟩ := Rx.1.lists
    exact ⟨nofun, Gx.next_tSiblings (hdone ▸ Qx.tasks ▸ hy)⟩
  · rintro t l' x y ⟨Rx, hy, done, hdone⟩
    have hdone' : l = (done ++ [t]) ++ l' := by simp [hdone]
    have ht : y.home t ≠ none := by
      obtain ⟨w, Gx, Qx⟩ := Rx.1.lists
      rw [← Rx.1.hasTask_iff Gx]
      have hmem : t ∈ l := by simp [hdone]
      exact ((Gx.wf.tasks.mem (Qx.tasks ▸ hy)).mp hmem).1
    have hactive := Rx.1.active_iff ht
    simp only [pauseTask, containerOf_tSiblings, deref]
    change Agree _ (if (x.task t).tStatus = schedStatusActive then _ else _) _
    simp only [hactive]
    split
    · refine (stopTask_agree Rx (Rx.prim hp)).mono fun x' y' _ hy' Rx' => ?_
      exact ⟨Rx', (congrFun (Board.stopTask_members hy') c).trans hy, _, hdone'⟩
    · exact .ok ⟨Rx, hy, _, hdone'⟩

open scoped Classical in
/-- **`sched_pause_process`** -/
theorem pauseProcess_agree (R : Shows O s b) (hp : O.prim (pPrim c) = true) :
    Agree (Shows O) (schedPauseProcess ⟨true, policy⟩ c s) (b.pauseProcess policy c) := by
  refine .guard (fun x hx => ?_) fun hm => ?_
  · obtain ⟨hchecks, -⟩ := schedPauseProcess_ok.mp hx
    obtain ⟨hsched, hstatus, hopened⟩ := hchecks rfl
    have hc := R.1.pSched_iff.mp hsched
    rw [R.1.paused c hc, Board.processStatus_eq_active] at hstatus
    exact ⟨Option.isSome_iff_ne_none.mpr hc, hstatus, R.1.opened ▸ hopened⟩
  · obtain ⟨hc, hnot, hopened⟩ := hm
    obtain ⟨l, hl⟩ := Option.isSome_iff_exists.mp hc
    have hc' : b.members c ≠ none := by simp [hl]
    rw [hl, Option.getD_some]
    have hseq : Agree (Shows O)
        (forEachNode (.pTasks c) (pauseTask ⟨true, policy⟩ c) s >>= fun s₁ =>
          .ok (setProcessStatus c schedStatusStopped s₁))
        (l.foldlM (fun b t => if t ∈ b.ready then b.stopTask policy (pPrim c) t else some b) b >>=
          fun b₁ => some { b₁ with paused := b₁.paused ∪ {c} }) := by
      refine (pauseAll_agree R hl hp).bind fun s₁ b₁ _ _ R₁ => .ok ⟨?_, R₁.2⟩
      have h := R₁.1.processStatus c (P := b₁.paused ∪ {c}) fun d hd => by simp [hd]
      rwa [if_pos (.inr rfl)] at h
    refine hseq.congr fun x => ?_
    have hstatus : (s.process c).pStatus = schedStatusActive := by
      rw [R.1.paused c hc']
      exact Board.processStatus_eq_active.mpr hnot
    rw [schedPauseProcess_ok, bind_eq_ok]
    constructor
    · rintro ⟨-, s₁, h₁, rfl⟩
      exact ⟨s₁, h₁, rfl⟩
    · rintro ⟨s₁, h₁, h⟩
      refine ⟨fun _ => ⟨R.1.pSched_iff.mpr hc', hstatus, R.1.opened.trans hopened⟩, s₁, h₁, ?_⟩
      exact (Except.ok.inj h).symm

open scoped Classical in
/-- **`sched_resume_process`** -/
theorem resumeProcess_agree (R : Shows O s b) (hp : O.prim (pPrim c) = true) :
    Agree (Shows O) (schedResumeProcess ⟨true, policy⟩ c s) (b.resumeProcess c) := by
  obtain ⟨l, hl⟩ := Option.ne_none_iff_exists'.mp (R.prim hp)
  obtain ⟨v, G, Q⟩ := R.1.lists
  have hwalk : forEachNode (.pStopped (pPrim c))
      (fun n s => primitiveResumeTask ⟨true, policy⟩ (containerOf n tSiblingsOffset) s) s =
      if l = [] then .ok s else .error .pointer := G.resumeProcess_walk (Q.stopped ▸ hl)
  refine .guard (fun x hx => ?_) fun hm => ?_
  · obtain ⟨hchecks, s₁, h₁, -⟩ := schedResumeProcess_ok.mp hx
    obtain ⟨hsched, hstatus, hopened⟩ := hchecks rfl
    have hc := R.1.pSched_iff.mp hsched
    rw [R.1.paused c hc, Board.processStatus_eq_stopped] at hstatus
    rw [hwalk] at h₁
    split at h₁
    · rename_i hnil
      exact ⟨Option.isSome_iff_ne_none.mpr hc, hstatus, R.1.opened ▸ hopened, hnil ▸ hl⟩
    · cases h₁
  · obtain ⟨hc, hpaused, hopened, hnil⟩ := hm
    have hc' : b.members c ≠ none := Option.isSome_iff_ne_none.mp hc
    obtain rfl : l = [] := Option.some.inj (hl.symm.trans hnil)
    have hstatus : (s.process c).pStatus = schedStatusStopped := by
      rw [R.1.paused c hc']
      exact Board.processStatus_eq_stopped.mpr hpaused
    rw [schedResumeProcess_ok.mpr ⟨fun _ => ⟨R.1.pSched_iff.mpr hc', hstatus,
      R.1.opened.trans hopened⟩, s, by rw [hwalk, if_pos rfl], rfl⟩]
    refine .ok ⟨?_, R.2⟩
    have h := R.1.processStatus c (P := b.paused \ {c}) fun d hd => by simp [hd]
    rwa [if_neg fun hm => hm.2 rfl] at h

/-! ### Commits -/

/-- **`sched_open_commit`** -/
theorem openCommit_agree (R : Shows O s b) :
    Agree (Shows O) (schedOpenCommit ⟨true, policy⟩ s) b.openCommit := by
  refine .guard (fun x hx => ?_) fun hm => ?_
  · exact R.1.opened ▸ (schedOpenCommit_ok.mp hx).1 rfl
  · rw [schedOpenCommit_ok.mpr ⟨fun _ => R.1.opened.trans hm, rfl⟩]
    refine .ok ⟨?_, R.2⟩
    rw [← R.1.index]
    exact R.1.commit { s.sched with sCommitOpened := true, sCommitIndex := s.sched.sCommitIndex + 1 }

/-- **`sched_close_commit`** -/
theorem closeCommit_agree (R : Shows O s b) :
    Agree (Shows O) (schedCloseCommit ⟨true, policy⟩ s) (b.closeCommit policy) := by
  refine .guard (fun x hx => ?_) fun hm => ?_
  · exact R.1.opened ▸ (schedCloseCommit_ok.mp hx).1 rfl
  · have hopened : s.sched.sCommitOpened = true := R.1.opened.trans hm
    have hR : Shows O (s.modSched fun x => { x with sCommitOpened := false })
        { b with opened := false } := by
      refine ⟨?_, R.2⟩
      have hb : ({ b with opened := false } : Board k) =
          { b with opened := false, index := s.sched.sCommitIndex } := by rw [R.1.index]
      rw [hb]
      exact R.1.commit { s.sched with sCommitOpened := false }
    have hseq : Agree (Shows O)
        (callHook ⟨true, policy⟩ true .schedule
          (s.modSched fun x => { x with sCommitOpened := false }) >>= fun s₁ =>
            callHook ⟨true, policy⟩ true .assignAll s₁)
        (({ b with opened := false } : Board k).hear policy .schedule >>= fun b₁ =>
          b₁.hear policy .assignAll) :=
      (hear_agree hR).bind fun _ _ _ _ R₁ => hear_agree R₁
    refine hseq.congr fun x => ?_
    rw [schedCloseCommit_ok, bind_eq_ok]
    exact and_iff_right fun _ => hopened

/-! ### Calls -/

theorem quietly_agree {x : Except Fault (State k)} {y : Option (Board k)} (h : Agree (Shows O) x y) :
    Agree (Returns O) (void x) (Board.quietly y) := by
  cases h with
  | ok hab => exact .ok ⟨rfl, hab⟩
  | failed => exact .failed

theorem valued_agree {x : Except Fault (State k)} {y : Option (Board k)} (r : BitVec 8)
    (h : Agree (Shows O) x y) :
    Agree (Returns O) (x >>= fun s => .ok (r, s)) (y.map (r, ·)) := by
  cases h with
  | ok hab => exact .ok ⟨rfl, hab⟩
  | failed => exact .failed

/-- **A call that registers nothing.** -/
theorem exec_agree_same {c : Call k} (R : Shows O s b) (hreg : c.registers = false)
    (hon : O.onRegistered c = true) :
    Agree (Returns O) (exec ⟨true, policy⟩ c s) (b.exec policy c) := by
  cases c with
  | registerProcess | unregisterProcess | registerThread | unregisterThread | registerTask
  | unregisterTask | registerPrim | unregisterPrim | mutexCtor | semCtor => cases hreg
  | openCommit => exact quietly_agree (openCommit_agree R)
  | closeCommit => exact quietly_agree (closeCommit_agree R)
  | pauseProcess d => exact quietly_agree (pauseProcess_agree R hon)
  | resumeProcess d => exact quietly_agree (resumeProcess_agree R hon)
  | assignTask h t => exact quietly_agree (assign_agree R t)
  | takeOwnership p t => exact quietly_agree (take_agree R)
  | releaseOwnership p t => exact giveBack_agree R
  | overrideTask p t => exact quietly_agree (overrideTask_agree R (R.prim hon))
  | unoverrideTask p =>
      exact quietly_agree ((unoverride_agree R (R.prim hon)).congr fun _ => primitiveUnoverrideTask_ok)
  | resumeTask t => exact quietly_agree (resumeTask_agree R (taskAddr_task? t))
  | stopThread p h => exact quietly_agree (stopThread_agree R (R.prim hon))
  | mutexLock p h => exact quietly_agree (mutexLock_agree R (R.prim hon))
  | mutexUnlock p h => exact mutexUnlock_agree R (R.prim hon)
  | semTake p h => exact quietly_agree (semTake_agree R (R.prim hon))
  | semRelease p h => exact semRelease_agree R (R.prim hon)
  | mutexLockNb p h =>
      have hfun : schedMutexLockNb ⟨true, policy⟩ p h s = if (s.prim p).pNbOwningTasks ≠ 0 then
          .ok (0, s) else mutexAcquire ⟨true, policy⟩ p h s >>= fun s₁ => .ok (1, s₁) := by
        simp only [schedMutexLockNb, mutexAcquire, bind_assoc]
      rw [exec, hfun, R.1.taken, Board.exec]
      split
      · exact .ok ⟨rfl, R⟩
      · rename_i h0
        rw [if_pos (not_not.mp h0)]
        exact valued_agree 1 (mutexAcquire_agree R (R.prim hon))
  | semTakeNb p h =>
      rw [exec, schedSemTakeNb, R.1.taken, R.1.bound, Board.exec]
      split
      · exact .ok ⟨rfl, R⟩
      · exact valued_agree 1 (takeRunning_agree R)

theorem Objects.ofHist_same {c : Call k} {r : BitVec 8} (hreg : c.registers = false) :
    Objects.ofHist (⟨s, c, r, s'⟩ :: hist) = Objects.ofHist hist := by
  cases c with
  | registerProcess | unregisterProcess | registerThread | unregisterThread | registerTask
  | unregisterTask | registerPrim | unregisterPrim | mutexCtor | semCtor => cases hreg
  | _ => rfl

/-! ### Registrations -/

section unregistered
variable (R : Shows O s b)
include R

theorem Shows.noPrim (hp : O.prim p = false) : b.waiting p = none := by
  rw [← R.2] at hp
  exact Option.isSome_eq_false_iff.mp hp |> Option.isNone_iff_eq_none.mp

theorem Shows.noTask (ht : O.task t = false) : b.home t = none := by
  rw [← R.2] at ht
  exact Option.isSome_eq_false_iff.mp ht |> Option.isNone_iff_eq_none.mp

theorem Shows.noProcess (hc : O.process c = false) : b.members c = none := by
  rw [← R.2] at hc
  exact Option.isSome_eq_false_iff.mp hc |> Option.isNone_iff_eq_none.mp

theorem Shows.noThread (hh : O.thread h = false) : b.threads h = false := by
  rw [← R.2] at hh
  exact hh

end unregistered

namespace Board

theorem objects_addPrim : (b.addPrim c p).objects =
    { b.objects with prim := fun q => q == p || b.objects.prim q } := by
  simp only [objects, addPrim]
  congr 1
  funext q
  by_cases hq : q = p <;> simp [hq]

theorem objects_addProcess : (b.addProcess c).objects =
    { b.objects with process := fun d => d == c || b.objects.process d } := by
  simp only [objects, addProcess]
  congr 1
  funext d
  by_cases hd : d = c <;> simp [hd]

theorem objects_addThread : (b.addThread h).objects =
    { b.objects with thread := fun g => g == h || b.objects.thread g } := by
  simp only [objects, addThread]
  congr 1
  funext g
  by_cases hg : g = h <;> simp [hg]

theorem objects_addTask : (b.addTask c t).objects =
    { b.objects with task := fun u => u == t || b.objects.task u } := by
  simp only [objects, addTask, View.isSome_update_map]
  congr 1
  funext u
  by_cases hu : u = t <;> simp [hu]

end Board

/-- **`process_register_task`** -/
theorem registerTask_agree (R : Shows O s b) (ht : b.home t = none) :
    Agree (Returns { O with task := fun u => u == t || O.task u })
      (void (processRegisterTask ⟨true, policy⟩ c t s))
      (if (b.members c).isSome then some (0, b.addTask c t) else none) := by
  refine .guard (fun x hx => ?_) fun hm => ?_
  · obtain ⟨hsched, -⟩ := processRegisterTask_ok t c (void_eq_ok.mp hx).2
    exact Option.isSome_iff_ne_none.mpr (R.1.pSched_iff.mp hsched)
  · have hc : b.members c ≠ none := Option.isSome_iff_ne_none.mp hm
    have hsched : (s.process c).pSched = true := R.1.pSched_iff.mpr hc
    obtain ⟨x, hx⟩ : ∃ x, processRegisterTask ⟨true, policy⟩ c t s = .ok x := by
      simp only [processRegisterTask, nsCheck, derefSched, hsched]
      exact ⟨_, rfl⟩
    rw [hx]
    refine .ok ⟨rfl, R.1.addTask ht hc hx, ?_⟩
    rw [Board.objects_addTask, R.2]

/-- **A call agrees with the call of the board.** -/
theorem exec_agree {c : Call k} (R : Shows (.ofHist hist) s b) (hg : Regular hist c) :
    Agree (fun x y => x.1 = y.1 ∧ Shows (.ofHist (⟨s, c, x.1, x.2⟩ :: hist)) x.2 y.2)
      (exec ⟨true, policy⟩ c s) (b.exec policy c) := by
  obtain ⟨hretires, hfresh, hon⟩ := hg
  rw [← Objects.onRegistered_ofHist] at hon
  cases hreg : c.registers with
  | false =>
      refine (exec_agree_same R hreg hon).mono fun x y _ _ hxy => ?_
      rw [Objects.ofHist_same hreg]
      exact hxy
  | true =>
      cases c with
      | unregisterProcess | unregisterThread | unregisterTask => cases hretires
      | registerProcess d =>
          simp only [fresh, Bool.and_eq_true, Bool.not_eq_true'] at hfresh
          refine .ok ⟨rfl, R.1.registerProcess (R.noProcess hfresh.1) (R.noPrim hfresh.2), ?_⟩
          rw [Board.objects_addPrim, Board.objects_addProcess, R.2]
          rfl
      | registerThread h =>
          simp only [fresh, Bool.not_eq_true'] at hfresh
          refine .ok ⟨rfl, R.1.addThread (R.noThread hfresh), ?_⟩
          rw [Board.objects_addThread, R.2]
          rfl
      | registerTask d t =>
          simp only [fresh, Bool.not_eq_true'] at hfresh
          exact registerTask_agree R (R.noTask hfresh)
      | registerPrim d p =>
          simp only [fresh, Bool.not_eq_true'] at hfresh
          refine .ok ⟨rfl, R.1.addPrim (R.noPrim hfresh), ?_⟩
          rw [Board.objects_addPrim, R.2]
          rfl
      | mutexCtor p d =>
          simp only [fresh, Bool.not_eq_true'] at hfresh
          refine .ok ⟨rfl, R.1.addPrim (R.noPrim hfresh), ?_⟩
          rw [Board.objects_addPrim, R.2]
          rfl
      | semCtor p n d =>
          simp only [fresh, Bool.not_eq_true'] at hfresh
          refine .ok ⟨rfl, (R.1.bounded p n).addPrim (R.noPrim hfresh), ?_⟩
          rw [Board.objects_addPrim]
          exact congrArg (fun O : Objects k => { O with prim := fun q => q == p || O.prim q }) R.2
      | unregisterPrim p => exact unregisterPrim_agree R (R.prim hon)
      | _ => cases hreg

/-! ### Runs -/

/-- Nothing is registered; the rest of the memory is what it is. -/
def Board.ofBoot (s : State k) : Board k where
  ready := []
  members := fun _ => none
  waiting := fun _ => none
  threads := fun _ => false
  home := fun _ => none
  owner := fun _ => none
  overrides := s.pointers.pOverridden
  running := s.ledger.tTask
  taken := s.ledger.pNbOwningTasks
  owned := s.ledger.tNbOwnedPrimitives
  bound := s.sNbOwners
  stamp := s.ledger.tCommit
  paused := ∅
  marked := ∅
  opened := s.sched.sCommitOpened
  index := s.sched.sCommitIndex
  heard := s.hooks

theorem Boot.shows (hs : Boot s) : Shows (.ofHist []) s (Board.ofBoot s) := by
  refine ⟨⟨⟨View.empty, hs.good.1, rfl, rfl, rfl⟩, ?_, rfl, ?_, ?_, ?_, ?_, ?_⟩, rfl⟩
  · ext x : 2
    · exact hs.task x
    · exact hs.prim x
    · rfl
    · exact hs.thread x
  · exact fun t ht => absurd rfl ht
  · exact fun p hp => absurd rfl hp
  · exact fun c hc => absurd rfl hc
  · exact fun h t hh => by cases hh
  · exact ⟨fun p hp => absurd rfl hp, fun p t hp => absurd rfl hp, fun h t hh => by cases hh⟩

theorem simulation (policy : Policy k) :
    Simulation (exec ⟨true, policy⟩) (fun hist _ c => Regular hist c) (Board.exec policy) Board.Admits
      (fun hist s b => Shows (.ofHist hist) s b) where
  admits := fun {hist s b c} R => by
    rw [Regular, Board.Admits, R.2, Objects.fresh_ofHist, Objects.onRegistered_ofHist]
  agree := fun R hg => exec_agree R hg

/-- Every state that regular calls reach represents a board. -/
theorem reach_shows (hr : Reach policy (fun hist _ c => Regular hist c) hist s) :
    ∃ b, Shows (.ofHist hist) s b := by
  refine hr.invariant (J := fun hist s => ∃ b, Shows (.ofHist hist) s b) ?_ ?_
  · exact fun s hs => ⟨_, hs.shows⟩
  · rintro hist s c r s' ⟨b, R⟩ hg he
    have hagree := (simulation policy).agree R hg
    rw [he] at hagree
    generalize b.exec policy c = y at hagree
    cases hagree with
    | @ok _ y h => exact ⟨y.2, h.2⟩

/-- **The scheduler refines the board** : from a memory in which nothing is registered, the states that
regular calls of a debug build reach represent the boards that the same calls reach, with the same
values; and whatever the board accepts, the debug build does. -/
theorem debug_refines (policy : Policy k) {s₀ : State k} (hs : Boot s₀) :
    (∀ {hist s}, Transition.Reach (fun s => s = s₀) (exec ⟨true, policy⟩)
        (fun hist _ c => Regular hist c) hist s →
      ∃ b, Run (Board.exec policy) Board.Admits (.ofBoot s₀) (trace hist) b ∧ Represents s b) ∧
    ∀ {tr b}, Run (Board.exec policy) Board.Admits (.ofBoot s₀) tr b →
      ∃ hist s, Transition.Reach (fun s => s = s₀) (exec ⟨true, policy⟩)
        (fun hist _ c => Regular hist c) hist s ∧ trace hist = tr ∧ Represents s b := by
  constructor
  · intro hist s hr
    obtain ⟨b, hb, R⟩ := (simulation policy).forward hs.shows hr
    exact ⟨b, hb, R.1⟩
  · intro tr b hb
    obtain ⟨hist, s, hr, htr, R⟩ := (simulation policy).backward hs.shows hb
    exact ⟨hist, s, hr, htr, R.1⟩

set_option maxRecDepth 10000 in
/-- A task takes a mutex and a second one waits for it: the same calls lead the board to a queue. -/
theorem debug_refines_run : ∃ (tr : List (Call small × BitVec 8)) (b : Board small),
    Run (Board.exec quiet) Board.Admits (.ofBoot smallBoot) tr b ∧ tr.length = 12 ∧ 1 ∉ b.ready ∧
      ∃ l, b.waiting (.other 0) = some l ∧ 1 ∈ l := by
  obtain ⟨hist, s, hr, htest⟩ := @exists_reach_of_replay _ _ _ _ (fun s => s = smallBoot) _
    (exec ⟨true, quiet⟩) (fun hist _ c => Regular hist c) _ rfl
    (fun hist s => hist.length = 12 ∧ (s.task 1).tStopper = some (.other 0) ∧
      (s.task 1).tProcess = some 0)
    (smallSetup ++ [.mutexCtor (.other 0) 0, .assignTask 0 (some 0), .assignTask 1 (some 1),
      .mutexLock (.other 0) 0, .mutexLock (.other 0) 1]) (by decide +kernel)
  obtain ⟨hlength, hstopper, hprocess⟩ := of_decide_eq_true htest
  obtain ⟨b, hb, R⟩ := (debug_refines quiet boot_smallBoot).1 hr
  have ht : b.home 1 ≠ none := by
    rw [← R.home, hprocess]
    exact Option.some_ne_none 0
  refine ⟨trace hist, b, hb, by rw [trace, List.length_map, hlength], fun hready => ?_,
    R.exists_queue ht hstopper⟩
  cases hstopper.symm.trans (R.ready_iff.mp hready).2

end KernelTk.Sched
