import KernelTk.Sched.Status

/-! # Pausing a process

`sched_pause_process` walks the tasks of the process and stops those that are active, by the
primitive of the process.

* **Turns.** `Pausing` : what the walk has done when the tasks `done` have been visited.  A turn
  returns iff the task is not running or, in a debug build, its commit is the current one
  (`Pausing.turn`).  A turn marks other tasks at most, so that the task of a later turn runs iff it ran
  before the walk (`Pausing.running_iff`).
* **Walk.** `pause_walk` : the walk returns iff no turn fails a check, and does what it says.  The invariant
  `PauseInv` has the nodes that are still to be visited: the list of the tasks of the process is not
  changed, though their other links are.
* **Commits.** `sched_open_commit` has just incremented the commit index, so that the commit of no
  running task is the current one unless it has been assigned since.
* **Theorem.** `schedPauseProcess_iff` on every well-formed state, and `pause_iff` in every reachable state
  with an open commit: the call returns with the process paused (`Paused`) iff the active tasks of the
  process have been assigned in this commit.

The policy is assumed to assign nothing when it is told that a task has been stopped. -/

namespace KernelTk.Sched

open Transition
open CircularList (IsRing)

variable {k : Machine} {env : Env k} {c : ProcessId k} {s x x' s' : State k} {v w : View k}
  {t u : TaskId k} {l done : List (TaskId k)}

/-- The task runs: no primitive stops it. -/
def running (s : State k) (t : TaskId k) : Bool := (s.task t).tStopper.isNone

/-- The policy assigns nothing when a task is stopped. -/
def QuietStops (env : Env k) : Prop := ∀ t l, env.policy (.stopped t :: l) = []

/-- The walk of `sched_pause_process` has visited the tasks `done`. -/
structure Pausing (c : ProcessId k) (s : State k) (v : View k) (done : List (TaskId k))
    (x : State k) (w : View k) : Prop where
  good : Good x w
  objects : v.SameObjects w
  tasks : w.tasks = v.tasks
  stopped : ∀ p, w.stopped p =
    if p = pPrim c then (v.stopped p).map (· ++ done.filter (running s)) else v.stopped p
  tProcess : ∀ t, (x.task t).tProcess = (s.task t).tProcess
  pProcess : ∀ p, (x.prim p).pProcess = (s.prim p).pProcess
  pSched : ∀ d, (x.process d).pSched = (s.process d).pSched
  commit : ∀ t, x.taskActive t = s.taskActive t
  tStopper : ∀ t, (x.task t).tStopper =
    if t ∈ done ∧ running s t then some (pPrim c) else (s.task t).tStopper
  status : ∀ t, v.HasTask t → StatusOk x t
  exact : ∀ t ∈ done, running s t = true → x.tStatus t = schedStatusStopped
  marked : (∃ t ∈ done, running s t = true) → x.primUpdated (pPrim c) = true

/-- What one turn does. -/
def pauseTurn (c : ProcessId k) (s : State k) (t : TaskId k) (x : State k) : State k :=
  if running s t then
    { stopTask (pPrim c) t x with hooks := .stopped t :: (stopTask (pPrim c) t x).hooks }
  else x

namespace Pausing

theorem start (S : Scheduled s v) : Pausing c s v [] s v where
  good := S.good
  objects := .refl v
  tasks := rfl
  stopped := fun p => by split <;> simp
  tProcess := fun _ => rfl
  pProcess := fun _ => rfl
  pSched := fun _ => rfl
  commit := fun _ => rfl
  tStopper := by simp
  status := S.status
  exact := nofun
  marked := by simp

theorem running_iff (P : Pausing c s v done x w) (ht : t ∉ done) :
    running x t = running s t := by
  simp only [running, P.tStopper, ht, false_and, if_false]

/-- **A turn** returns iff the task is not running or passes the check of its commit. -/
theorem turn (P : Pausing c s v done x w) (S : Scheduled s v) (hq : QuietStops env)
    (hc : v.HasProcess c) (ht : v.HasTask t) (hprc : (s.task t).tProcess = some c)
    (hnew : t ∉ done) : pauseTask env c (.tSiblings t) x = .ok x' ↔
      (running s t = true → env.debug = true → s.taskActive t = true) ∧
        x' = pauseTurn c s t x := by
  have hok := P.status t ht
  have hsched : (s.process c).pSched = true := S.good.wf.pSched c hc
  have hown := (S.pPrim c hc).2
  have hrun := P.running_iff hnew
  simp only [pauseTask, containerOf_tSiblings, bind_eq_ok, deref_eq_ok, Option.some.injEq,
    exists_eq_left', pauseTurn]
  cases hr : running s t with
  | false =>
      have hstop : ¬(x.task t).tStatus = schedStatusActive := by
        rw [hr] at hrun
        rw [hok.active_iff]
        exact fun hnone => by simp [running, hnone] at hrun
      rw [if_neg hstop, Except.ok.injEq]
      exact ⟨fun e => ⟨(fun e => by cases e), e.symm⟩, fun h => h.2.symm⟩
  | true =>
      have hnone : (x.task t).tStopper = none := by
        rw [hr] at hrun
        exact Option.isNone_iff_eq_none.mp hrun
      have hhook : ∀ y : State k, callHook env (x.process c).pSched (.stopped t) y =
          .ok { y with hooks := .stopped t :: y.hooks } := by
        intro y
        rw [P.pSched, hsched]
        exact callHook_quiet (hq t _)
      have hprc' : (x.task t).tProcess = some c := (P.tProcess t).trans hprc
      rw [if_pos (hok.active_iff.mpr hnone), primitiveStopTask_ok]
      constructor
      · rintro ⟨u, c', hu, hc', hchecks, he⟩
        obtain rfl := Option.some.inj hu
        obtain rfl : c = c' := Option.some.inj (hprc'.symm.trans hc')
        rw [hhook] at he
        refine ⟨fun _ hd => ?_, (Except.ok.inj he).symm⟩
        rw [← P.commit]
        exact (hchecks hd).2.1
      · rintro ⟨hactive, rfl⟩
        refine ⟨t, c, rfl, hprc', fun hd => ⟨⟨?_, ?_, ?_⟩, ?_, hnone⟩, hhook _⟩
        · simp [hprc']
        · rw [P.pProcess, hown, hprc']
        · rw [hprc', State.schedOf, P.pSched, hsched]
        · rw [P.commit]
          exact hactive rfl hd

/-- A task that did not run is left as it is. -/
theorem keep (P : Pausing c s v done x w) (hr : running s t = false) :
    Pausing c s v (done ++ [t]) x w := by
  have hmem : ∀ u, (u ∈ done ++ [t] ∧ running s u = true) ↔ (u ∈ done ∧ running s u = true) := by
    intro u
    simp only [List.mem_append, List.mem_singleton]
    constructor
    · rintro ⟨hu | rfl, hrun⟩
      · exact ⟨hu, hrun⟩
      · cases hr.symm.trans hrun
    · exact fun h => ⟨.inl h.1, h.2⟩
  have hfilter : (done ++ [t]).filter (running s) = done.filter (running s) := by simp [hr]
  exact { P with
    stopped := by rw [hfilter]; exact P.stopped
    tStopper := by simpa only [hmem] using P.tStopper
    exact := fun u hu hrun => P.exact u ((hmem u).mp ⟨hu, hrun⟩).1 hrun
    marked := fun ⟨u, hu, hrun⟩ => P.marked ⟨u, (hmem u).mp ⟨hu, hrun⟩⟩ }

theorem stop (P : Pausing c s v done x w) (S : Scheduled s v) (hc : v.HasProcess c)
    (ht : v.HasTask t) (hprc : (s.task t).tProcess = some c) (hnew : t ∉ done)
    (hr : running s t = true) :
    Pausing c s v (done ++ [t]) (pauseTurn c s t x) (w.stop (pPrim c) t) := by
  have hnone : (x.task t).tStopper = none := by
    have hrun := P.running_iff hnew
    rw [hr] at hrun
    exact Option.isNone_iff_eq_none.mp hrun
  obtain ⟨hp, hown⟩ := S.pPrim c hc
  have hmem : ∀ u, (u ∈ done ++ [t] ∧ running s u = true) ↔
      (u = t ∨ (u ∈ done ∧ running s u = true)) := by
    intro u
    simp only [List.mem_append, List.mem_singleton]
    constructor
    · rintro ⟨hu | rfl, hrun⟩
      · exact .inr ⟨hu, hrun⟩
      · exact .inl rfl
    · rintro (rfl | ⟨hu, hrun⟩)
      · exact ⟨.inr rfl, hr⟩
      · exact ⟨.inl hu, hrun⟩
  have hfilter : (done ++ [t]).filter (running s) = done.filter (running s) ++ [t] := by simp [hr]
  have hpointers := stopTask_pointers x (pPrim c) t
  have hledger := stopTask_ledger x (pPrim c) t
  have hstopper : ∀ u, ((stopTask (pPrim c) t x).task u).tStopper =
      (x.pointers.stop (pPrim c) t).tStopper u :=
    fun u => congrFun (congrArg Pointers.tStopper hpointers) u
  obtain ⟨τ, hτ, hst⟩ := stopTask_tStatus x (pPrim c) t
  rw [pauseTurn, if_pos hr]
  constructor
  · refine (P.good.stop ((P.objects.prim _).mpr hp) ((P.objects.task t).mpr ht) hnone ?_).congr rfl
    rw [P.pProcess, P.tProcess, hown, hprc]
  · exact P.objects.trans (.stop w _ t)
  · exact P.tasks
  · intro p
    have hw := P.stopped p
    by_cases hpc : p = pPrim c
    · subst hpc
      rw [if_pos rfl] at hw
      rw [if_pos rfl, hfilter]
      simp [View.stop, hw, Function.comp_def]
    · rw [if_neg hpc] at hw
      rw [if_neg hpc]
      simp [View.stop, hpc, hw]
  · exact fun u => (congrFun (congrArg Pointers.tProcess hpointers) u).trans (P.tProcess u)
  · exact fun p => (congrFun (congrArg Pointers.pProcess hpointers) p).trans (P.pProcess p)
  · exact fun d => (congrFun (congrArg Pointers.pSched hpointers) d).trans (P.pSched d)
  · intro u
    refine .trans ?_ (P.commit u)
    exact congrArg₂ (· == ·) (congrFun (congrArg Ledger.tCommit hledger) u)
      (congrArg (fun L : Ledger k => L.sched.sCommitIndex) hledger)
  · intro u
    refine (hstopper u).trans ?_
    simp only [hmem]
    by_cases hut : u = t
    · simp [Pointers.stop, hut]
    · have hu : x.pointers.tStopper u = _ := P.tStopper u
      simp [Pointers.stop, hut, hu]
  · exact fun u hu => ((P.status u hu).edit (.stop (pPrim c) t)).congr rfl rfl
  · intro u hu hrun
    refine (hst u).trans ?_
    by_cases hut : u = t
    · rw [if_pos hut]
    · -- the primitive is marked since the first stop: the walk ends at once
      have hudone : u ∈ done := ((hmem u).mp ⟨hu, hrun⟩).resolve_left hut |>.1
      rw [if_neg hut, hτ (.inl (P.marked ⟨u, hudone, hrun⟩))]
      exact P.exact u hudone hrun
  · exact fun _ => stopTask_primUpdated x (pPrim c) t (.inl rfl)

/-- **What a turn does**, whether the task runs or not. -/
theorem next (P : Pausing c s v done x w) (S : Scheduled s v) (hc : v.HasProcess c)
    (ht : v.HasTask t) (hprc : (s.task t).tProcess = some c) (hnew : t ∉ done) :
    ∃ w', Pausing c s v (done ++ [t]) (pauseTurn c s t x) w' := by
  cases hr : running s t with
  | true => exact ⟨_, P.stop S hc ht hprc hnew hr⟩
  | false =>
      rw [pauseTurn, hr]
      exact ⟨w, P.keep hr⟩

end Pausing

/-! ### The walk -/

/-- The nodes still to be visited, and what has been done. -/
def PauseInv (env : Env k) (c : ProcessId k) (s : State k) (v : View k) (l : List (TaskId k))
    (nodes : List (Node k)) (x : State k) : Prop :=
  ∃ done rest, nodes = rest.map Node.tSiblings ∧ l = done ++ rest ∧
    (∃ w, Pausing c s v done x w) ∧
    ∀ t ∈ done, running s t = true → env.debug = true → s.taskActive t = true

namespace PauseInv

variable {n : Node k} {m : List (Node k)}

theorem head (I : PauseInv env c s v l (n :: m) x) (hl : v.tasks c = some l) :
    n ≠ .pTasks c ∧ x.links.next n = m.headD (.pTasks c) := by
  obtain ⟨done, rest, hn, hdone, ⟨w, P⟩, -⟩ := I
  cases rest with
  | nil => cases hn
  | cons t rest =>
      obtain ⟨rfl, rfl⟩ := List.cons.inj hn
      have hl' : w.tasks c = some (done ++ t :: rest) := by rw [P.tasks, hl, hdone]
      exact ⟨nofun, P.good.next_tSiblings hl'⟩

/-- A turn of the walk. -/
theorem turn (I : PauseInv env c s v l (n :: m) x) (S : Scheduled s v) (hq : QuietStops env)
    (hc : v.HasProcess c) (hl : v.tasks c = some l) : ∃ t ∈ l,
      (∀ x', pauseTask env c n x = .ok x' ↔
        (running s t = true → env.debug = true → s.taskActive t = true) ∧
          x' = pauseTurn c s t x) ∧
      ((running s t = true → env.debug = true → s.taskActive t = true) →
        PauseInv env c s v l m (pauseTurn c s t x)) := by
  obtain ⟨done, rest, hn, hdone, ⟨w, P⟩, hchecked⟩ := I
  cases rest with
  | nil => cases hn
  | cons t rest =>
      obtain ⟨rfl, rfl⟩ := List.cons.inj hn
      have htl : t ∈ l := by simp [hdone]
      obtain ⟨ht, hprc⟩ := (S.good.wf.tasks.mem hl).mp htl
      have hnew : t ∉ done := by
        have hnodup := S.good.wf.tasks.nodup hl
        rw [hdone, List.nodup_append] at hnodup
        exact fun h => hnodup.2.2 t h t List.mem_cons_self rfl
      refine ⟨t, htl, fun x' => P.turn S hq hc ht hprc hnew, fun hpass => ?_⟩
      refine ⟨done ++ [t], rest, rfl, by simp [hdone], P.next S hc ht hprc hnew, fun u hu => ?_⟩
      rcases List.mem_append.mp hu with hu | hu
      · exact hchecked u hu
      · exact List.mem_singleton.mp hu ▸ hpass

end PauseInv

/-- **The walk of `sched_pause_process`** returns iff every task that runs passes the check of its
commit, and has then visited every task. -/
theorem pause_walk (S : Scheduled s v) (hq : QuietStops env) (hc : v.HasProcess c)
    (hl : v.tasks c = some l) :
    (∀ x, forEachNode (.pTasks c) (pauseTask env c) s = .ok x → PauseInv env c s v l [] x) ∧
    ((∀ t ∈ l, running s t = true → env.debug = true → s.taskActive t = true) →
      ∃ x, forEachNode (.pTasks c) (pauseTask env c) s = .ok x) := by
  have h0 : PauseInv env c s v l (l.map .tSiblings) s := ⟨[], l, rfl, rfl, ⟨v, .start S⟩, nofun⟩
  unfold forEachNode
  rw [S.good.next_pTasks hl]
  constructor
  · intro x hx
    refine CircularList.walk_partial _ _ _ _ (PauseInv env c s v l) (fun I => I.head hl) ?_ h0 hx
    intro n m y y' I hy
    obtain ⟨t, -, hturn, hkeep⟩ := I.turn S hq hc hl
    obtain ⟨hpass, rfl⟩ := (hturn y').mp hy
    exact hkeep hpass
  · intro hall
    have hlen : (l.map Node.tSiblings).length < k.nodes + 1 := by
      have hcard := (S.good.wf.tasks.nodup hl).length_le_card
      rw [Fintype.card_fin] at hcard
      rw [List.length_map, Machine.nodes]
      omega
    have hwalk := CircularList.walk_rule (fun s n => s.links.next n) (.pTasks c) Fault.endless
      (pauseTask env c)
      (PauseInv env c s v l) (fun I => I.head hl) (fun I => ?_) _ s (k.nodes + 1) hlen h0
    · obtain ⟨x, hx, -⟩ := hwalk
      exact ⟨x, hx⟩
    · obtain ⟨t, ht, hturn, hkeep⟩ := I.turn S hq hc hl
      exact ⟨_, (hturn _).mpr ⟨hall t ht, rfl⟩, hkeep (hall t ht)⟩

/-! ### The process is paused -/

/-- The task is an active task of the process. -/
def ActiveIn (c : ProcessId k) (s : State k) (t : TaskId k) : Prop :=
  (s.task t).tProcess = some c ∧ (s.task t).tStatus = schedStatusActive

/-- The active tasks of the process have joined the stopped list of its primitive, after those that
were there; the other tasks keep their stoppers and their places in the stopped lists. -/
structure Paused (registered : PrimId k → Prop) (c : ProcessId k) (s s' : State k) : Prop where
  status : (s'.process c).pStatus = schedStatusStopped
  stopped : ∀ t, ActiveIn c s t →
    (s'.task t).tStatus = schedStatusStopped ∧ (s'.task t).tStopper = some (pPrim c)
  stays : ∀ t, ¬ActiveIn c s t → (s'.task t).tStopper = (s.task t).tStopper
  actives : ∀ L : List (TaskId k), IsRing s.links .sActives (L.map .tSchedList) →
    ∃ L' : List (TaskId k), IsRing s'.links .sActives (L'.map .tSchedList) ∧
      ∀ t, t ∈ L' ↔ t ∈ L ∧ ¬ActiveIn c s t
  waits : ∀ L : List (TaskId k), IsRing s.links (.pStopped (pPrim c)) (L.map .tStopped) →
    ∃ new : List (TaskId k), (∀ t, t ∈ new ↔ ActiveIn c s t) ∧
      IsRing s'.links (.pStopped (pPrim c)) ((L ++ new).map .tStopped)
  places : ∀ p, registered p → p ≠ pPrim c → ∀ L : List (TaskId k),
    IsRing s.links (.pStopped p) (L.map .tStopped) →
    IsRing s'.links (.pStopped p) (L.map .tStopped)

theorem tStopped_inj {l l' : List (TaskId k)}
    (h : l.map (Node.tStopped (k := k)) = l'.map Node.tStopped) : l = l' :=
  List.map_injective_iff.mpr (fun _ _ e => Node.tStopped.inj e) h

theorem tSchedList_inj {l l' : List (TaskId k)}
    (h : l.map (Node.tSchedList (k := k)) = l'.map Node.tSchedList) : l = l' :=
  List.map_injective_iff.mpr (fun _ _ e => Node.tSchedList.inj e) h

theorem Good.stopped_eq {p : PrimId k} {L : List (TaskId k)} (G : Good s v) (hp : v.HasPrim p)
    (hL : IsRing s.links (.pStopped p) (L.map .tStopped)) : v.stopped p = some L := by
  obtain ⟨m, hm⟩ := Option.isSome_iff_exists.mp hp
  have hr : IsRing s.links (.pStopped p) (m.map .tStopped) := G.wf.rings.ring (by simp [hm])
  rw [hm, tStopped_inj (hr.unique hL)]

theorem Good.ring_stopped {p : PrimId k} {L : List (TaskId k)} (G : Good s v)
    (hL : v.stopped p = some L) : IsRing s.links (.pStopped p) (L.map .tStopped) :=
  G.wf.rings.ring (by simp [hL])

theorem Good.nbStoppedTasks_eq_zero {p : PrimId k} (G : Good s v) (hp : v.stopped p = some []) :
    (s.prim p).nbStoppedTasks = 0 := by
  have hcount : ((s.prim p).nbStoppedTasks).toNat = 0 := G.wf.stopped.count hp
  exact BitVec.eq_of_toNat_eq (hcount.trans BitVec.toNat_zero.symm)

/-- When every task has been visited the process is paused. -/
theorem Pausing.paused (P : Pausing c s v l x w) (S : Scheduled s v) (hc : v.HasProcess c)
    (hl : v.tasks c = some l) :
    Paused v.HasPrim c s (setProcessStatus c schedStatusStopped x) := by
  have hp := (S.pPrim c hc).1
  have hin : ∀ t, t ∈ l ∧ running s t = true ↔ ActiveIn c s t := by
    intro t
    rw [S.good.wf.tasks.mem hl]
    constructor
    · rintro ⟨⟨hT, hprc⟩, hrun⟩
      exact ⟨hprc, (S.status t hT).active_iff.mpr (Option.isNone_iff_eq_none.mp hrun)⟩
    · rintro ⟨hprc, hst⟩
      have hT : v.HasTask t := S.good.attached.task t (by simp [State.pointers, hprc])
      exact ⟨⟨hT, hprc⟩, Option.isNone_iff_eq_none.mpr ((S.status t hT).active_iff.mp hst)⟩
  constructor
  · simp [setProcessStatus]
  · intro t ht
    obtain ⟨hmem, hrun⟩ := (hin t).mpr ht
    exact ⟨P.exact t hmem hrun, (P.tStopper t).trans (if_pos ⟨hmem, hrun⟩)⟩
  · intro t ht
    exact (P.tStopper t).trans (if_neg fun h => ht ((hin t).mp h))
  · intro L hL
    have hr : IsRing s.links .sActives (v.actives.map .tSchedList) := S.good.wf.rings.ring rfl
    obtain rfl := tSchedList_inj (hr.unique hL)
    refine ⟨w.actives, P.good.wf.rings.ring rfl, fun t => ?_⟩
    rw [P.good.wf.actives, S.good.wf.actives, P.objects.task, and_assoc]
    refine and_congr_right fun _ => ?_
    have hs : x.pointers.tStopper t = _ := P.tStopper t
    rw [hs]
    by_cases h : t ∈ l ∧ running s t = true
    · simp [h, (hin t).mp h]
    · rw [if_neg h]
      exact (and_iff_left fun ht => h ((hin t).mpr ht)).symm
  · intro L hL
    refine ⟨l.filter (running s), fun t => ?_, P.good.ring_stopped ?_⟩
    · rw [List.mem_filter]
      exact hin t
    · rw [P.stopped, if_pos rfl, S.good.stopped_eq hp hL]
      rfl
  · intro p hP hne L hL
    refine P.good.ring_stopped ?_
    rw [P.stopped, if_neg hne]
    exact S.good.stopped_eq hP hL

/-- **Pausing a process**: `sched_pause_process` returns iff its checks and those of the commits of
the active tasks pass, and the process is then paused. -/
theorem schedPauseProcess_iff (S : Scheduled s v) (hq : QuietStops env) (hc : v.HasProcess c) :
    (∀ s', schedPauseProcess env c s = .ok s' → Paused v.HasPrim c s s') ∧
    ((∃ s', schedPauseProcess env c s = .ok s') ↔ (env.debug = true →
      (s.process c).pStatus = schedStatusActive ∧ s.sched.sCommitOpened = true ∧
        ∀ t, ActiveIn c s t → s.taskActive t = true)) := by
  obtain ⟨l, hl⟩ := Option.isSome_iff_exists.mp hc
  obtain ⟨hvisits, htotal⟩ := pause_walk S hq hc hl
  have hmem : ∀ t, t ∈ l → running s t = true → ActiveIn c s t := by
    intro t ht hrun
    obtain ⟨hT, hprc⟩ := (S.good.wf.tasks.mem hl).mp ht
    exact ⟨hprc, (S.status t hT).active_iff.mpr (Option.isNone_iff_eq_none.mp hrun)⟩
  have hdone : ∀ x, forEachNode (.pTasks c) (pauseTask env c) s = .ok x →
      (∃ w, Pausing c s v l x w) ∧
        ∀ t ∈ l, running s t = true → env.debug = true → s.taskActive t = true := by
    intro x hx
    obtain ⟨done, rest, hn, hsplit, hP, hchecked⟩ := hvisits x hx
    obtain rfl : l = done := by simp [hsplit, List.map_eq_nil_iff.mp hn.symm]
    exact ⟨hP, hchecked⟩
  constructor
  · intro s' he
    obtain ⟨-, x, hx, rfl⟩ := schedPauseProcess_ok.mp he
    obtain ⟨⟨w, P⟩, -⟩ := hdone x hx
    exact P.paused S hc hl
  · constructor
    · rintro ⟨s', he⟩ hd
      obtain ⟨hchecks, x, hx, -⟩ := schedPauseProcess_ok.mp he
      obtain ⟨-, hchecked⟩ := hdone x hx
      refine ⟨(hchecks hd).2.1, (hchecks hd).2.2, fun t ⟨hprc, hst⟩ => ?_⟩
      have hT : v.HasTask t := S.good.attached.task t (by simp [State.pointers, hprc])
      refine hchecked t ((S.good.wf.tasks.mem hl).mpr ⟨hT, hprc⟩) ?_ hd
      exact Option.isNone_iff_eq_none.mpr ((S.status t hT).active_iff.mp hst)
    · intro hall
      obtain ⟨x, hx⟩ := htotal fun t ht hrun hd => (hall hd).2.2 t (hmem t ht hrun)
      refine ⟨_, schedPauseProcess_ok.mpr ⟨fun hd => ⟨?_, (hall hd).1, (hall hd).2.1⟩, x, hx, rfl⟩⟩
      exact S.good.wf.pSched c hc

/-! ### Runs -/

/-- **`sched_pause_process` in an open commit**: in every reachable state with an open commit, the
call on an active process returns with the process paused iff every active task of the process has
been assigned since the commit was opened. -/
theorem pause_iff {policy : Policy k} {hist : Hist k} (hq : QuietStops ⟨true, policy⟩)
    (hr : Reach policy (fun hist _ c => Additive hist c) hist s)
    (hc : processRegistered hist c = true) (hopen : s.sched.sCommitOpened = true)
    (hactive : (s.process c).pStatus = schedStatusActive) :
    (∃ s', schedPauseProcess ⟨true, policy⟩ c s = .ok s' ∧
      Paused (primRegistered hist · = true) c s s') ↔
    ∀ t, ActiveIn c s t → (s.task t).tCommit = s.sched.sCommitIndex := by
  obtain ⟨v, S, R⟩ := reach_scheduled hr
  have hprims : v.HasPrim = (primRegistered hist · = true) := funext fun p => propext (R.prim p)
  obtain ⟨hpaused, hreturns⟩ := schedPauseProcess_iff S hq ((R.process c).mpr hc)
  rw [hprims] at hpaused
  have hcommit : ∀ t, s.taskActive t = true ↔ (s.task t).tCommit = s.sched.sCommitIndex :=
    fun t => beq_iff_eq
  simp only [hcommit] at hreturns
  constructor
  · rintro ⟨s', he, -⟩
    exact (hreturns.mp ⟨s', he⟩ trivial).2.2
  · intro hall
    obtain ⟨s', he⟩ := hreturns.mpr fun _ => ⟨hactive, hopen, hall⟩
    exact ⟨s', he, hpaused s' he⟩

theorem quietStops_quiet (debug : Bool) : QuietStops (⟨debug, quiet⟩ : Env k) := fun _ _ => rfl

set_option maxRecDepth 10000 in
/-- One task runs, assigned in the open commit, and the others have been stopped by a primitive. -/
theorem pause_iff_run : ∃ (hist : Hist small) (s : State small),
    ActiveIn 0 s 0 ∧ ∃ s', schedPauseProcess ⟨true, quiet⟩ 0 s = .ok s' ∧
      Paused (primRegistered hist · = true) 0 s s' := by
  obtain ⟨hist, s, hr, htest⟩ := exists_reach_of_replay (exec ⟨true, quiet⟩)
    (fun hist _ c => Additive hist c) boot_smallBoot
    (fun hist s => decide (processRegistered hist 0 = true ∧ s.sched.sCommitOpened = true ∧
      (s.process 0).pStatus = schedStatusActive ∧
      ((s.task 0).tProcess = some 0 ∧ (s.task 0).tStatus = schedStatusActive) ∧
      ∀ t, (s.task t).tProcess = some 0 ∧ (s.task t).tStatus = schedStatusActive →
        (s.task t).tCommit = s.sched.sCommitIndex))
    (smallSetup ++ [.registerPrim 0 (.other 0), .assignTask 1 (some 1), .assignTask 2 (some 2),
      .stopThread (.other 0) 1, .stopThread (.other 0) 2, .openCommit, .assignTask 0 (some 0)])
    (by decide +kernel)
  obtain ⟨hc, hopen, hactive, htask, hcommit⟩ := of_decide_eq_true htest
  exact ⟨hist, s, htask,
    (pause_iff (quietStops_quiet true) hr hc hopen hactive).mpr hcommit⟩

set_option maxRecDepth 10000 in
/-- The commit is opened after the task has been assigned: its commit is not the current one, and
the check of `primitive_stop_task` fails. -/
theorem pause_fails : ¬∀ (hist : Hist small) (s : State small),
    Reach quiet (fun hist _ c => Additive hist c) hist s → processRegistered hist 0 = true →
      s.sched.sCommitOpened = true → (s.process 0).pStatus = schedStatusActive →
      ∃ s', schedPauseProcess ⟨true, quiet⟩ 0 s = .ok s' ∧
        Paused (primRegistered hist · = true) 0 s s' := by
  intro hall
  obtain ⟨hist, s, hr, htest⟩ := exists_reach_of_replay (exec ⟨true, quiet⟩)
    (fun hist _ c => Additive hist c) boot_smallBoot
    (fun hist s => decide (processRegistered hist 0 = true ∧ s.sched.sCommitOpened = true ∧
      (s.process 0).pStatus = schedStatusActive) &&
      fails .check (schedPauseProcess ⟨true, quiet⟩ 0 s))
    (smallSetup ++ [.assignTask 0 (some 0), .openCommit]) (by decide +kernel)
  rw [Bool.and_eq_true] at htest
  obtain ⟨hc, hopen, hactive⟩ := of_decide_eq_true htest.1
  obtain ⟨s', he, -⟩ := hall hist s hr hc hopen hactive
  cases he.symm.trans (fails_iff.mp htest.2)

end KernelTk.Sched
