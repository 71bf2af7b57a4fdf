import KernelTk.Sched.Members

/-! # The task registry of the processes

A process links its tasks in `p_tasks` by their `t_siblings`, and counts them.

* **Property.** `TasksAgree` : the `p_tasks` of a registered process is a ring of the tasks that are
  registered to it, `p_nb_tasks` is its length, and the walks of `sched_pause_process` and
  `sched_unregister_process` visit such tasks only.
* **Condition.** `process_unregister_task` removes `t_sched_list` twice and `t_siblings` never: the
  task stays in `p_tasks`, and the counter is decremented.
* **Invariant.** `ProcessTasks` : the rings of the processes registered so far.  A registration enters a task,
  and every other move leaves the lists (`ProcessTasks.move`).
* **Walks.** `visitedNodes` are the nodes on which a walk runs its body.  The turns of the two walks leave
  the list that they follow, so that they visit its tasks only (`visitedNodes_pTasks`).
* **Runs.** A run has the property throughout iff it unregisters no task (`tasks_agree_iff`).  The task that
  is unregistered stays in the list of its process (`TaskState.unlisted`), so that the property fails
  at once. -/

namespace KernelTk.Sched

open Transition
open CircularList (IsRing RingTable SameZone visited visited_prefix)

variable {k : Machine} {policy : Policy k} {hist : Hist k} {s s' x x' : State k} {c : Call k}
  {r : BitVec 8} {t : TaskId k} {d : ProcessId k} {h : ThreadId k} {T : ThreadId k → Prop}
  {z : Zone}

/-- The process that the task is registered to. -/
def taskProcess : Hist k → TaskId k → Option (ProcessId k)
  | [], _ => none
  | e :: hist, t =>
      match e.call with
      | .registerTask d u => if t = u then some d else taskProcess hist t
      | .unregisterTask h => if (e.pre.thread h).tTask = some t then none else taskProcess hist t
      | .unregisterProcess d => if taskProcess hist t = some d then none else taskProcess hist t
      | _ => taskProcess hist t

/-- The nodes on which `dlist_head_for_each_object` runs its body. -/
def visitedNodes (head : Node k) (body : Node k → State k → Except Fault (State k)) (s : State k) :
    List (Node k) :=
  visited (fun s n => s.links.next n) head body (k.nodes + 1) (s.links.next head) s

/-- The lists of the tasks of the registered processes. -/
structure TasksAgree (policy : Policy k) (hist : Hist k) (s : State k)
    (tasks : ProcessId k → List (TaskId k)) : Prop where
  ring : ∀ d, processRegistered hist d = true →
    IsRing s.links (.pTasks d) ((tasks d).map .tSiblings)
  nodup : ∀ d, processRegistered hist d = true → (tasks d).Nodup
  mem : ∀ d t, processRegistered hist d = true → (t ∈ tasks d ↔ taskProcess hist t = some d)
  size : ∀ d, processRegistered hist d = true → (s.process d).pNbTasks.toNat = (tasks d).length
  paused : ∀ d, processRegistered hist d = true →
    ∀ n ∈ visitedNodes (.pTasks d) (pauseTask ⟨true, policy⟩ d) s,
      ∃ t, n = .tSiblings t ∧ taskProcess hist t = some d
  unlinked : ∀ d, processRegistered hist d = true → ∀ n ∈ visitedNodes (.pTasks d) unlinkTask s,
    ∃ t, n = .tSiblings t ∧ taskProcess hist t = some d

/-- The calls to `sched_unregister_process`. -/
def Call.endsProcess : Call k → Bool
  | .unregisterProcess _ => true
  | _ => false

/-- The calls to `process_unregister_task`. -/
def Call.endsTask : Call k → Bool
  | .unregisterTask _ => true
  | _ => false

/-- Registrations on objects that are not registered, and any calls that unregister no process. -/
def TaskListCall (hist : Hist k) (_ : State k) (c : Call k) : Prop :=
  fresh hist c = true ∧ c.endsProcess = false

instance (hist : Hist k) (s : State k) (c : Call k) : Decidable (TaskListCall hist s c) :=
  inferInstanceAs (Decidable (_ ∧ _))

/-! ### The invariant -/

/-- The tasks of the processes. -/
structure ProcessTasks (P : Pointers k) (M : ProcessId k → Option (List (TaskId k))) : Prop where
  table : RingTable P.links Node.pTasks Node.tSiblings M (fun _ => False)
  registry : Registry M (fun _ => True) P.tProcess P.pNbTasks
  process : ∀ d, (M d).isSome ↔ P.pSched d = true

namespace ProcessTasks

variable {P P' : Pointers k} {M : ProcessId k → Option (List (TaskId k))}

theorem init (s : State k) (hs : Boot s) : ProcessTasks s.pointers (fun _ => none) where
  table := ⟨nofun, nofun, nofun, nofun⟩
  registry := ⟨nofun, nofun, fun _ hf => (nomatch (hs.task _).symm.trans hf), nofun⟩
  process := fun d => iff_of_false nofun fun hd => nomatch (hs.process d).symm.trans hd

theorem frame (B : ProcessTasks P M) (hz : SameZone Node.zone .tasks P.links P'.links)
    (hprocess : P'.tProcess = P.tProcess) (hsize : P'.pNbTasks = P.pNbTasks)
    (hsched : P'.pSched = P.pSched) : ProcessTasks P' M where
  table := B.table.congr (fun _ _ => id) (fun _ => id) (fun d _ => hz (.pTasks d) rfl)
    fun t => hz (.tSiblings t) rfl
  registry := by
    rw [hprocess, hsize]
    exact B.registry
  process := by
    rw [hsched]
    exact B.process

theorem addTask {l : List (TaskId k)} (B : ProcessTasks P M) (Z : Zones P T) (hl : M d = some l)
    (ht : P.tProcess t = none) :
    ProcessTasks (P.addTask d t) (Function.update M d (some (t :: l))) := by
  have hd : P.pSched d = true := (B.process d).mp (by simp [hl])
  have hout : ∀ e m, M e = some m → t ∉ m := fun e m hm => B.registry.notMem_of_none ht hm
  refine ⟨Z.tasks_addTask B.table hl hout, ?_, ?_⟩
  · exact B.registry.join (card_task_lt k) hl trivial ht (.refl _)
  · intro e
    by_cases he : e = d
    · subst he
      exact iff_of_true (by simp) hd
    · rw [Function.update_of_ne he]
      exact B.process e

theorem addProcess (B : ProcessTasks P M) (Z : Zones P T) (hd : M d = none) :
    ProcessTasks (P.addProcess d) (Function.update M d (some [])) := by
  refine ⟨Z.tasks_addProcess B.table hd, ?_, ?_⟩
  · exact B.registry.create hd
  · intro e
    by_cases he : e = d
    · subst he
      simp [Pointers.addProcess]
    · simpa [Pointers.addProcess, he] using B.process e

/-- **A move keeps the tasks**, the registrations of tasks and of processes and the end of the
unregistration of a task apart. -/
theorem move (B : ProcessTasks s.pointers M) (Z : Zones s.pointers T) (m : Move k) (hm : m.Checked s)
    (htask : ∀ c t, m ≠ .addTask c t) (hprocess : ∀ c, m ≠ .addProcess c)
    (hcount : ∀ c, m ≠ .uncount c) : ProcessTasks (m.apply s).pointers M := by
  have hz : m.touches .tasks = false := by
    cases m with
    | edit e => cases e <;> rfl
    | addTask c t => exact absurd rfl (htask c t)
    | addProcess c => exact absurd rfl (hprocess c)
    | _ => rfl
  have hsize : (m.pointers s.pointers).pNbTasks = s.pointers.pNbTasks := by
    have hleave : ∀ (o : Option (ThreadId k)) (t : TaskId k),
        (o.elim s.pointers fun g => s.pointers.leave g t).pNbTasks = s.pointers.pNbTasks := by
      intro o t
      cases o <;> rfl
    cases m with
    | edit e => cases e <;> rfl
    | assign h t =>
        simp only [Move.pointers]
        split
        · rfl
        · exact hleave _ t
    | leave t => exact hleave _ t
    | addTask c t => exact absurd rfl (htask c t)
    | addProcess c => exact absurd rfl (hprocess c)
    | uncount c => exact absurd rfl (hcount c)
    | _ => rfl
  obtain ⟨h₁, -, h₂⟩ := m.pointers_processes s.pointers
  have hsame := Z.same m hm hz
  rw [m.apply_pointers] at hsame ⊢
  exact B.frame hsame (h₁ htask) hsize (h₂ hprocess)

end ProcessTasks

/-! ### Walks -/

/-- A turn of `sched_pause_process` leaves the lists of the tasks. -/
theorem pauseTask_same {n : Node k} (Z : Zones s.pointers T)
    (he : pauseTask ⟨true, policy⟩ d n s = .ok s') : Zones s'.pointers T ∧
      SameZone Node.zone .tasks s.links s'.links ∧
      ∀ t, (s'.task t).tProcess = (s.task t).tProcess := by
  have hpolicy : Answers policy s fun _ m => m.touches .tasks = false ∧
      (∀ g, m ≠ .addThread g) ∧ ∀ c t, m ≠ .addTask c t := by
    intro x h u _
    cases u <;> exact ⟨rfl, nofun, nofun⟩
  have M := Moves.pauseTask hpolicy List.suffix_rfl (fun _ _ => ⟨rfl, nofun, nofun⟩) he
  exact ⟨M.zones (fun _ g h => h.2.1 g rfl) Z, M.same (fun _ _ h => h.1) Z,
    fun t => M.tProcess_eq fun _ d h => h.2.2 d t rfl⟩

theorem unlinkTask_same (Z : Zones s.pointers T) (ht : (s.task t).tProcess ≠ none)
    (he : unlinkTask (.tSiblings t) s = .ok s') : Zones s'.pointers T ∧
      SameZone Node.zone .tasks s.links s'.links ∧
      ∀ t, (s'.task t).tProcess = (s.task t).tProcess := by
  simp only [unlinkTask, containerOf_tSiblings, bind_eq_ok, deref_eq_ok, Option.some.injEq,
    exists_eq_left'] at he
  split at he
  · obtain rfl := Except.ok.inj he
    exact ⟨Z.move (.unlinkUnsafe t) ht, Z.same (.unlinkUnsafe t) ht rfl, fun _ => rfl⟩
  · obtain rfl := Except.ok.inj he
    exact ⟨Z, .refl _ _ _, fun _ => rfl⟩

/-- A walk of the tasks of a process whose turns leave the lists visits these tasks only. -/
theorem visitedNodes_pTasks {body : Node k → State k → Except Fault (State k)} {l : List (TaskId k)}
    (Z : Zones s.pointers T) (hring : IsRing s.links (.pTasks d) (l.map .tSiblings))
    (hl : ∀ t ∈ l, (s.task t).tProcess ≠ none)
    (hbody : ∀ {t x x'}, Zones x.pointers T → (x.task t).tProcess ≠ none →
      body (.tSiblings t) x = .ok x' → Zones x'.pointers T ∧
        SameZone Node.zone .tasks x.links x'.links ∧
        ∀ t, (x'.task t).tProcess = (x.task t).tProcess) :
    visitedNodes (.pTasks d) body s <+: l.map .tSiblings := by
  have h0 : s.links.next (.pTasks d) = (l.map Node.tSiblings).headD (.pTasks d) := hring.next_head
  unfold visitedNodes
  rw [h0]
  refine visited_prefix (fun nodes x => ∃ done rest, l = done ++ rest ∧ nodes = rest.map Node.tSiblings ∧
    Zones x.pointers T ∧ SameZone Node.zone .tasks s.links x.links ∧
    ∀ t, (x.task t).tProcess = (s.task t).tProcess) ?_ ?_ _
    ⟨[], l, rfl, rfl, Z, .refl _ _ _, fun _ => rfl⟩
  · rintro n nodes x ⟨done, rest, hdone, hn, -, hsame, -⟩
    cases rest with
    | nil => cases hn
    | cons t rest =>
        obtain ⟨rfl, rfl⟩ := List.cons.inj hn
        refine ⟨nofun, (hsame (.tSiblings t) rfl).1.trans ?_⟩
        have hr : IsRing s.links (.pTasks d)
            (done.map .tSiblings ++ .tSiblings t :: rest.map .tSiblings) := by
          simpa [hdone] using hring
        exact hr.next_node
  · rintro n nodes x x' ⟨done, rest, hdone, hn, Zx, hsame, hprc⟩ hb
    cases rest with
    | nil => cases hn
    | cons t rest =>
        obtain ⟨rfl, rfl⟩ := List.cons.inj hn
        have ht : (x.task t).tProcess ≠ none := by
          rw [hprc]
          exact hl t (by simp [hdone])
        obtain ⟨Zx', hsame', hprc'⟩ := hbody Zx ht hb
        exact ⟨done ++ [t], rest, by simp [hdone], rfl, Zx', hsame.trans hsame',
          fun u => (hprc' u).trans (hprc u)⟩

/-! ### Calls -/

/-- The tasks of the processes at the end of a run. -/
structure TaskState (hist : Hist k) (s : State k) : Prop where
  tasks : ∃ M, ProcessTasks s.pointers M
  process : ∀ d, (s.process d).pSched = processRegistered hist d
  member : ∀ t, (s.task t).tProcess = taskProcess hist t
  registered : ∀ t, taskProcess hist t ≠ none → taskRegistered hist t = true

theorem TaskState.keep (B : TaskState hist s) (Z : Zones s.pointers T) (hprimed : s.Primed)
    (hprc : ∀ d, c ≠ .registerProcess d) (htask : ∀ d t, c ≠ .registerTask d t)
    (hends : c.endsProcess = false) (hleaves : c.endsTask = false)
    (he : exec ⟨true, policy⟩ c s = .ok (r, s')) : TaskState (⟨s, c, r, s'⟩ :: hist) s' := by
  have e : processRegistered (⟨s, c, r, s'⟩ :: hist) = processRegistered hist ∧
      taskProcess (⟨s, c, r, s'⟩ :: hist) = taskProcess hist ∧
      taskRegistered (⟨s, c, r, s'⟩ :: hist) = taskRegistered hist := by
    cases c with
    | registerProcess d => exact absurd rfl (hprc d)
    | registerTask d t => exact absurd rfl (htask d t)
    | unregisterProcess => cases hends
    | unregisterTask => cases hleaves
    | _ => exact ⟨rfl, rfl, rfl⟩
  obtain ⟨M, B₁⟩ := B.tasks
  refine ⟨⟨M, ?_⟩, fun d => ?_, fun t => ?_, ?_⟩
  · refine ((exec_moves Z hprimed he).keeps (I := fun x => (∃ T, Zones x.pointers T) ∧
      ProcessTasks x.pointers M) (fun {x} m hx hm ha => ?_) ⟨⟨T, Z⟩, B₁⟩).2
    obtain ⟨⟨T', Zx⟩, Bx⟩ := hx
    refine ⟨⟨_, Zx.move m hm⟩, Bx.move Zx m hm ?_ ?_ ?_⟩
    · rintro d t rfl
      exact htask d t ha
    · rintro d rfl
      exact hprc d ha
    · rintro d rfl
      obtain ⟨h, rfl⟩ := ha
      cases hleaves
  · rw [e.1]
    exact (exec_pSched Z hprimed (hprc d) he).trans (B.process d)
  · rw [e.2.1]
    exact (exec_tProcess Z hprimed (fun d => htask d t) he).trans (B.member t)
  · rw [e.2.1, e.2.2]
    exact B.registered

/-- **A call keeps the tasks of the processes** if it unregisters no task. -/
theorem exec_tasks (B : TaskState hist s) (Z : Zones s.pointers T) (hprimed : s.Primed)
    (hg : TaskListCall hist s c) (hleaves : c.endsTask = false)
    (he : exec ⟨true, policy⟩ c s = .ok (r, s')) : TaskState (⟨s, c, r, s'⟩ :: hist) s' := by
  obtain ⟨hf, hends⟩ := hg
  cases c with
  | registerProcess d =>
      obtain ⟨-, rfl⟩ := ok_pair_eq.mp he
      obtain ⟨M, B₁⟩ := B.tasks
      simp only [fresh, Bool.and_eq_true, Bool.not_eq_true'] at hf
      have hd : M d = none := by
        refine Option.not_isSome_iff_eq_none.mp fun h => ?_
        have hsched : (s.process d).pSched = true := (B₁.process d).mp h
        rw [B.process, hf.1] at hsched
        cases hsched
      refine ⟨⟨Function.update M d (some []), ?_⟩, fun e => ?_, B.member, B.registered⟩
      · rw [schedRegisterProcess_eq]
        have B₂ : ProcessTasks (registerProcess d s).pointers (Function.update M d (some [])) := by
          rw [registerProcess_pointers]
          exact B₁.addProcess Z hd
        have Z₂ : Zones (registerProcess d s).pointers T := Z.move (.addProcess d) trivial
        exact B₂.move Z₂ (.addPrim d (pPrim d)) trivial (fun _ _ e => by cases e)
          (fun _ e => by cases e) fun _ e => by cases e
      · by_cases he : e = d
        · subst he
          simp [processRegistered, schedRegisterProcess, processRegisterPrim]
        · simp [processRegistered, schedRegisterProcess, processRegisterPrim, he, B.process]
  | registerTask d t =>
      have hsched : ∀ e, (s'.process e).pSched = (s.process e).pSched := fun e =>
        exec_pSched (c := .registerTask d t) Z hprimed (fun e => by cases e) he
      obtain ⟨hd, rfl⟩ := processRegisterTask_iff.mp (void_eq_ok.mp he).2
      obtain ⟨M, B₁⟩ := B.tasks
      have ht : (s.task t).tProcess = none := by
        rw [B.member]
        by_contra hne
        simp [fresh, B.registered t hne] at hf
      obtain ⟨l, hl⟩ := Option.isSome_iff_exists.mp ((B₁.process d).mpr hd)
      refine ⟨⟨Function.update M d (some (t :: l)), ?_⟩, fun e => (hsched e).trans (B.process e), fun u => ?_,
        fun u hu => ?_⟩
      · rw [registerTask_pointers]
        exact B₁.addTask Z hl ht
      · by_cases hut : u = t
        · subst hut
          simp [taskProcess, registerTask]
        · simp [taskProcess, registerTask, hut, B.member]
      · by_cases hut : u = t
        · simp [taskRegistered, hut]
        · simp only [taskProcess, hut, if_false] at hu
          simp [taskRegistered, B.registered u hu]
  | unregisterProcess => cases hends
  | unregisterTask => cases hleaves
  | _ => exact B.keep Z hprimed (fun _ e => by cases e) (fun _ _ e => by cases e) rfl rfl he

/-! ### Runs -/

theorem Boot.taskState (hs : Boot s) : TaskState [] s where
  tasks := ⟨_, .init s hs⟩
  process := hs.process
  member := hs.task
  registered := fun _ h => absurd rfl h

theorem reach_tasks
    (hr : Reach policy (fun hist s c => TaskListCall hist s c ∧ c.endsTask = false) hist s) :
    TaskState hist s := by
  induction hr with
  | start hs => exact hs.taskState
  | call hr hg he ih => exact exec_tasks ih (reach_zones hr).1 (reach_zones hr).2 hg.1 hg.2 he

theorem TaskState.agree (B : TaskState hist s) (Z : Zones s.pointers T) :
    ∃ tasks, TasksAgree policy hist s tasks := by
  obtain ⟨M, B₁⟩ := B.tasks
  refine ⟨fun d => (M d).getD [], ?_⟩
  have hM : ∀ d, processRegistered hist d = true → M d = some ((M d).getD []) := by
    intro d hd
    have hlist : M d ≠ none :=
      Option.isSome_iff_ne_none.mp ((B₁.process d).mpr ((B.process d).trans hd))
    exact (Option.getD_of_ne_none hlist []).symm
  have hmem : ∀ d t, processRegistered hist d = true →
      (t ∈ (M d).getD [] ↔ taskProcess hist t = some d) := by
    intro d t hd
    have h : t ∈ (M d).getD [] ↔ True ∧ (s.task t).tProcess = some d := B₁.registry.mem (hM d hd)
    rw [h, true_and, B.member]
  have hring := fun d hd => B₁.table.ring (hM d hd)
  -- the nodes of a list are those of its tasks
  have hvisits : ∀ d (nodes : List (Node k)), processRegistered hist d = true →
      nodes <+: ((M d).getD []).map Node.tSiblings → ∀ n ∈ nodes,
      ∃ t, n = .tSiblings t ∧ taskProcess hist t = some d := by
    intro d nodes hd hpre n hn
    obtain ⟨t, ht, rfl⟩ := List.mem_map.mp (hpre.subset hn)
    exact ⟨t, rfl, (hmem d t hd).mp ht⟩
  have hknown : ∀ d t, processRegistered hist d = true → t ∈ (M d).getD [] →
      (s.task t).tProcess ≠ none := by
    intro d t hd ht
    rw [B.member, (hmem d t hd).mp ht]
    exact Option.some_ne_none d
  refine ⟨hring, fun d hd => B₁.registry.nodup (hM d hd), hmem,
    fun d hd => B₁.registry.count (hM d hd), fun d hd => ?_, fun d hd => ?_⟩
  · exact hvisits d _ hd (visitedNodes_pTasks Z (hring d hd) (fun t => hknown d t hd)
      fun Zx _ hb => pauseTask_same Zx hb)
  · exact hvisits d _ hd (visitedNodes_pTasks Z (hring d hd) (fun t => hknown d t hd) unlinkTask_same)

/-- The task that is unregistered stays in the list of its process. -/
theorem TaskState.unlisted (B : TaskState hist s) (Z : Zones s.pointers T) (hprimed : s.Primed)
    (he : exec ⟨true, policy⟩ (.unregisterTask h) s = .ok (r, s')) :
    ¬∃ tasks, TasksAgree policy (⟨s, .unregisterTask h, r, s'⟩ :: hist) s' tasks := by
  rintro ⟨tasks, hafter⟩
  obtain ⟨t, s₁, d, s₂, ht, -, hmember, -⟩ := processUnregisterTask_ok Z he
  obtain ⟨e, hprc⟩ := Option.ne_none_iff_exists'.mp hmember
  obtain ⟨M, B₁⟩ := B.tasks
  obtain ⟨l, hl, hmem⟩ := B₁.registry.exists_list (b := t) trivial hprc
  have hreg : processRegistered hist e = true :=
    (B.process e).symm.trans ((B₁.process e).mp (by simp [hl]))
  have hsame : SameZone Node.zone .tasks s.links s'.links := by
    refine (exec_moves Z hprimed he).same (fun x m ha => ?_) Z
    cases m with
    | edit e => cases e <;> rfl
    | addTask c t => cases ha
    | addProcess c => cases ha
    | _ => rfl
  have hring : IsRing s'.links (.pTasks e) (l.map .tSiblings) := by
    exact hsame.isRing rfl (fun _ => rfl) (B₁.table.ring hl)
  have heq := hring.unique (hafter.ring e hreg)
  have hin : Node.tSiblings t ∈ (tasks e).map Node.tSiblings := heq ▸ List.mem_map_of_mem hmem
  obtain ⟨u, hu, hut⟩ := List.mem_map.mp hin
  obtain rfl := Node.tSiblings.inj hut
  have hnone := (hafter.mem e u hreg).mp hu
  simp [taskProcess, ht] at hnone

/-- **The tasks of the processes are the registered ones**, throughout a run that registers objects
that are not registered and unregisters no process, iff the run unregisters no task. -/
theorem tasks_agree_iff (hr : Reach policy TaskListCall hist s) :
    Throughout (fun hist s => ∃ tasks, TasksAgree policy hist s tasks) hist s ↔
      Meets (fun _ _ c => c.endsTask = false) hist := by
  refine hr.throughout_iff (fun s hs => ?_) (fun {hist s c r s'} hr _ hg he => ?_)
  · exact hs.taskState.agree (Zones.init hs)
  · obtain ⟨Z, hprimed⟩ := reach_zones hr
    have B := reach_tasks hr
    constructor
    · intro hafter
      cases c with
      | unregisterTask h => exact absurd hafter (B.unlisted Z hprimed he)
      | _ => rfl
    · intro hleaves
      have hr' : Reach policy (fun hist s c => TaskListCall hist s c ∧ c.endsTask = false)
          (⟨s, c, r, s'⟩ :: hist) s' := .call hr ⟨hg, hleaves⟩ he
      exact (reach_tasks hr').agree (reach_zones hr').1

set_option maxRecDepth 10000 in
/-- Two tasks of a process, one of which has been stopped. -/
theorem tasks_agree_run : ∃ (hist : Hist small) (s : State small),
    taskProcess hist 0 = some 0 ∧ taskProcess hist 1 = some 0 ∧
      Throughout (fun hist s => ∃ tasks, TasksAgree quiet hist s tasks) hist s := by
  obtain ⟨hist, s, hr, htest⟩ := exists_reach_of_replay (exec ⟨true, quiet⟩)
    (fun hist s c => TaskListCall hist s c ∧ c.endsTask = false) boot_smallBoot
    (fun hist _ => taskProcess hist 0 == some 0 && taskProcess hist 1 == some 0)
    [.registerProcess 0, .registerThread 0, .registerTask 0 0, .registerTask 0 1,
      .registerPrim 0 (.other 0), .assignTask 0 (some 0), .stopThread (.other 0) 0]
    (by decide +kernel)
  simp only [Bool.and_eq_true, beq_iff_eq] at htest
  refine ⟨hist, s, htest.1, htest.2, ?_⟩
  exact (tasks_agree_iff (hr.mono fun h => h.1)).mpr (hr.mono fun h => h.2).meets_guard

set_option maxRecDepth 10000 in
/-- The only task of a process is unregistered, and the list of the process is not empty. -/
theorem tasks_agree_fails : ¬∀ (hist : Hist small) (s : State small),
    Reach quiet TaskListCall hist s → ∃ tasks, TasksAgree quiet hist s tasks := by
  intro hall
  obtain ⟨hist, s, hr, htest⟩ := exists_reach_of_replay (exec ⟨true, quiet⟩) TaskListCall boot_smallBoot
    (fun hist s => processRegistered hist 0 && (!s.links.isEmpty (.pTasks 0) &&
      decide (∀ t, taskProcess hist t = none)))
    [.registerProcess 0, .registerThread 0, .registerTask 0 0, .assignTask 0 (some 0),
      .unregisterTask 0] (by decide +kernel)
  simp only [Bool.and_eq_true, Bool.not_eq_true', decide_eq_true_eq] at htest
  obtain ⟨hreg, hempty, hnone⟩ := htest
  obtain ⟨tasks, hagree⟩ := hall hist s hr
  have hnil : tasks 0 = [] := by
    refine List.eq_nil_iff_forall_not_mem.mpr fun t ht => ?_
    cases (hnone t).symm.trans ((hagree.mem 0 t hreg).mp ht)
  have htrue := (hagree.ring 0 hreg).isEmpty_iff.mpr (by rw [hnil]; rfl)
  cases hempty.symm.trans htrue

end KernelTk.Sched
