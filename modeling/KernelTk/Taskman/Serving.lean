import Mathlib.Algebra.GroupWithZero.Nat
import KernelTk.Taskman.Exec

/-! # An execution context runs what it is handed out

What `taskman_exec` does with the task instances that `m_ready` hands out to it, when it is alone.

* **Property.** `Served` : a sequence of calls made of failed calls of `m_ready` and of instances, each
  one handed out by `m_ready`, executed and cleaned up.  `Serves` : the calls of `taskman_exec` are such a
  sequence, once the instance under way is cleaned up; the function returns when `*abort` is set, and
  the task is then in no list.
* **Condition.** `taskman_exec` initialises neither `t_ready` nor `t_list`.  `Sound` : the first content
  is not read before it is written.
* **Steps.** `Serving` : what holds at each place of the loop, under the condition; `Serving.step` : a step
  leads from one place to the next, with one lemma for each place that two steps leave.
* **Converse.** The task is linked in and out through its own words, so that a content that is read is
  executed, or breaks the list that it is linked to (`Serves.unready`,
  `Serves.alone_or_unfailing`).
* **Runs.** The context serves iff the condition holds (`taskmanExec_serves_iff`), for every content of the
  stack and every environment. -/

namespace KernelTk.Taskman

open CircularList (Links IsRing)

variable {k : Machine} {Tree : Type} {env : Env k Tree} {mgr : MgrId k} {s s' : State k Tree}
  {l : List (Node k)} {c : List (Call k)} {r : Ready k} {a : Usize k} {f : FnId k}

/-! ### Sequences of calls -/

/-- Failed calls of `m_ready`, and instances of `f` executed once and cleaned up once. -/
inductive Served (mgr : MgrId k) (f : FnId k) : List (Call k) → Prop
  | nil : Served mgr f []
  | later {r : Ready k} {c : List (Call k)} :
      r.delay ≠ 0 → Served mgr f c → Served mgr f (.ready mgr r :: c)
  | root {a : Usize k} {c : List (Call k)} :
      Served mgr f c → Served mgr f (.ready mgr ⟨0, a⟩ :: .exec f a :: .cleanup mgr a :: c)

theorem Served.append {c' : List (Call k)} (h : Served mgr f c) (h' : Served mgr f c') :
    Served mgr f (c ++ c') := by
  induction h with
  | nil => exact h'
  | later hd _ ih => exact .later hd ih
  | root _ ih => exact .root ih

theorem Served.cleaned (h : Served mgr f c) (a : Usize k) :
    Served mgr f (c ++ [.ready mgr ⟨0, a⟩, .exec f a] ++ [.cleanup mgr a]) := by
  simpa using h.append (.root .nil)

/-- What follows a failed call of `m_ready`. -/
theorem Served.of_later {m : MgrId k} (h : Served mgr f (.ready m r :: c)) (hd : r.delay ≠ 0) :
    Served mgr f c := by
  cases h with
  | later _ h => exact h
  | root => exact absurd rfl hd

theorem not_served_exec {g : FnId k} : ¬Served mgr f (.exec g a :: c) := nofun

/-- The context serves its manager. -/
structure Serves (env : Env k Tree) (mgr : MgrId k) (run : ℕ → Except Fault (State k Tree)) : Prop where
  returns : ∀ n, ∃ s, run n = .ok s
  serves : ∀ n s, run n = .ok s → ∃ n' s', n ≤ n' ∧ run n' = .ok s' ∧ s.calls <+: s'.calls ∧
    Served mgr (env.mExec mgr) s'.calls
  exits : ∀ n s, run n = .ok s → s.label = .execExit → Served mgr (env.mExec mgr) s.calls ∧
    0 < s.aborts ∧ env.abort (s.aborts - 1) ≠ 0 ∧
      ∃ l, IsRing s.links (.mFreeTasks mgr) l ∧ .tList ∉ l

/-- `m_free_tasks` is a list, and nothing points to the new task. -/
structure Fresh (mgr : MgrId k) (links : Links (Node k)) : Prop where
  frees : ∃ l, IsRing links (.mFreeTasks mgr) l
  unknown : ∀ n, n ≠ .tList → links.next n ≠ .tList ∧ links.prev n ≠ .tList

/-- No call of `m_ready` fails before `*abort` is set. -/
def Unfailing (env : Env k Tree) : Prop :=
  ∀ n, (∀ i ≤ n, env.abort i = 0) → (env.ready n).delay = 0

/-- `t_ready` is null, unless the first call of `m_ready` sets it; `t_list` is a list of its own, unless
no call of `m_ready` fails. -/
def Sound (env : Env k Tree) (mem : Memory k Tree) : Prop :=
  (mem.task.tReady = 0 ∨ (env.abort 0 = 0 → (env.ready 0).delay = 0)) ∧
    (IsRing mem.links .tList [] ∨ Unfailing env)

theorem Fresh.alone {links : Links (Node k)} (hf : Fresh mgr links) (hj : links.Joined .tList) :
    IsRing links .tList [] := by
  refine IsRing.nil_iff.mpr ⟨?_, ?_⟩
  · by_contra hne
    exact (hf.unknown _ hne).2 hj.2
  · by_contra hne
    exact (hf.unknown _ hne).1 hj.1

theorem Fresh.notMem {links : Links (Node k)} (hf : Fresh mgr links)
    (hr : IsRing links (.mFreeTasks mgr) l) : Node.tList ∉ l := by
  intro hmem
  have halone := hf.alone (hr.joined (List.mem_cons_of_mem _ hmem))
  exact hr.next_ne hmem (IsRing.nil_iff.mp halone).1

/-! ### Steps of the loop -/

theorem step_taskInsertion_set (hl : s.label = .taskInsertion) (habort : env.abort s.aborts ≠ 0) :
    taskmanStep env s = .ok { s with aborts := s.aborts + 1, label := .execExit } := by
  simp only [taskmanStep, hl, readAbort, if_pos habort]
  rfl

theorem step_taskInsertion_unset (hl : s.label = .taskInsertion) (habort : env.abort s.aborts = 0) :
    taskmanStep env s = .ok { s with aborts := s.aborts + 1, label := .addition } := by
  simp only [taskmanStep, hl, readAbort, habort, ne_eq, not_true_eq_false, if_false]
  rfl

theorem step_addition_ready (hl : s.label = .addition) (hd : (env.ready s.readies).delay = 0) :
    taskmanStep env s = .ok { s with
      task := { taskInit (env.mExec s.task.tMgr) (env.ready s.readies).args s.task with tRoot := 1 }
      calls := s.calls ++ [.ready s.task.tMgr (env.ready s.readies)]
      readies := s.readies + 1
      label := .execution } := by
  have hwidth := k.width_pos.ne'
  simp only [taskmanStep, hl, mgrAddFreeTask, hd, ne_eq, not_true_eq_false, if_false]
  simp [bind, Except.bind, pure, Except.pure, hwidth, State.goto, State.modTask, State.call]

theorem step_addition_later (hl : s.label = .addition) (hd : (env.ready s.readies).delay ≠ 0)
    (hm : s.links.Joined (.mFreeTasks s.task.tMgr)) (ht : s.links.Joined .tList) :
    taskmanStep env s = .ok { s with
      links := s.links.concat (.mFreeTasks s.task.tMgr) .tList
      calls := s.calls ++ [.ready s.task.tMgr (env.ready s.readies)]
      readies := s.readies + 1
      label := if (env.ready s.readies).delay = -1 then .stall else .delay } := by
  have hd' : ¬(env.ready s.readies).delay = 0#k.width := hd
  simp only [taskmanStep, hl, mgrAddFreeTask, hd, ne_eq, not_false_eq_true, if_true, dlistConcat]
  simp [bind, Except.bind, pure, Except.pure, State.goto, State.modLinks, State.call, hm, ht, hd']

theorem step_addition_notListed (hl : s.label = .addition) (hd : (env.ready s.readies).delay ≠ 0)
    (ht : ¬s.links.Joined .tList) : taskmanStep env s = .error .notListed := by
  simp only [taskmanStep, hl, mgrAddFreeTask, hd, ne_eq, not_false_eq_true, if_true, dlistConcat]
  simp [bind, Except.bind, State.call, ht]

/-- A task that is not ready is removed from its list. -/
theorem mgrRemoveFreeTask_unready (hready : s.task.tReady = 0) (ht : s.links.Joined .tList) :
    mgrRemoveFreeTask s = .ok (true, s.modLinks (·.remove .tList)) := by
  simp [mgrRemoveFreeTask, hready, dlistRemove, ht, bind, Except.bind, pure, Except.pure]

theorem mgrRemoveFreeTask_ready (hready : s.task.tReady ≠ 0) :
    mgrRemoveFreeTask s = .ok (false, s) := by
  rw [mgrRemoveFreeTask, if_neg hready]
  rfl

theorem step_stall_set (hl : s.label = .stall) (habort : env.abort s.aborts ≠ 0) :
    taskmanStep env s = (fun x => x.2.goto (if x.1 then .execExit else .execution)) <$>
      mgrRemoveFreeTask { s with aborts := s.aborts + 1 } := by
  simp only [taskmanStep, hl, readAbort, if_pos habort]
  rfl

theorem step_stall_unset (hl : s.label = .stall) (habort : env.abort s.aborts = 0) :
    taskmanStep env s = .ok (if s.task.tReady ≠ 0
      then { s with aborts := s.aborts + 1, label := .execution }
      else { s with aborts := s.aborts + 1 }) := by
  simp only [taskmanStep, hl, readAbort, habort, ne_eq, not_true_eq_false, if_false]
  rfl

theorem step_delay (hl : s.label = .delay) : taskmanStep env s =
    (fun x => x.2.goto (if x.1 then .taskInsertion else .execution)) <$> mgrRemoveFreeTask s := by
  simp only [taskmanStep, hl]
  rfl

theorem step_execution (hl : s.label = .execution) (hf : s.task.tFunction = some f) :
    taskmanStep env s = .ok ((s.call (.exec f s.task.tArgs)).goto .cleanup) := by
  simp only [taskmanStep, hl, taskExec, hf]
  rfl

theorem step_cleanup (hl : s.label = .cleanup) (hroot : s.task.tRoot ≠ 0) : taskmanStep env s =
    .ok (((s.call (.cleanup s.task.tMgr s.task.tArgs)).modTask taskReset).goto .taskInsertion) := by
  simp only [taskmanStep, hl, mgrCleanupTask, if_pos hroot]
  rfl

/-! ### What holds at each place -/

/-- No call of `m_ready` failed so far, and none will; `d` is 1 between a reading of `*abort` and the
call of `m_ready` that follows. -/
structure Spared (env : Env k Tree) (d : ℕ) (s : State k Tree) : Prop where
  unfailing : Unfailing env
  aborts : s.aborts = s.readies + d
  unset : ∀ i < s.aborts, env.abort i = 0

/-- The task is in no list. -/
structure Out (env : Env k Tree) (mgr : MgrId k) (l : List (Node k)) (d : ℕ) (s : State k Tree) :
    Prop where
  frees : IsRing s.links (.mFreeTasks mgr) l
  alone : IsRing s.links .tList [] ∨ Spared env d s

/-- What holds at each place of the loop; `l` are the other free tasks. -/
inductive Serving (env : Env k Tree) (mgr : MgrId k) (l : List (Node k)) (s : State k Tree) : Prop
  | taskInsertion : s.label = .taskInsertion → s.task.tMgr = mgr →
      Served mgr (env.mExec mgr) s.calls → Out env mgr l 0 s →
      (s.task.tReady = 0 ∨ s.aborts = 0 ∧ s.readies = 0 ∧
        (env.abort 0 = 0 → (env.ready 0).delay = 0)) → Serving env mgr l s
  | addition : s.label = .addition → s.task.tMgr = mgr → Served mgr (env.mExec mgr) s.calls →
      Out env mgr l 1 s → (s.task.tReady = 0 ∨ (env.ready s.readies).delay = 0) →
      Serving env mgr l s
  | free : s.label = .stall ∨ s.label = .delay → s.task.tMgr = mgr →
      Served mgr (env.mExec mgr) s.calls → IsRing s.links (.mFreeTasks mgr) (l ++ [.tList]) →
      s.task.tReady = 0 → Serving env mgr l s
  | execution {c : List (Call k)} {a : Usize k} : s.label = .execution → s.task.tMgr = mgr →
      s.calls = c ++ [.ready mgr ⟨0, a⟩] → Served mgr (env.mExec mgr) c → Out env mgr l 0 s →
      s.task.tFunction = some (env.mExec mgr) → s.task.tArgs = a → s.task.tRoot ≠ 0 →
      Serving env mgr l s
  | cleanup {c : List (Call k)} {a : Usize k} : s.label = .cleanup → s.task.tMgr = mgr →
      s.calls = c ++ [.ready mgr ⟨0, a⟩, .exec (env.mExec mgr) a] →
      Served mgr (env.mExec mgr) c → Out env mgr l 0 s → s.task.tArgs = a → s.task.tRoot ≠ 0 →
      Serving env mgr l s
  | execExit : s.label = .execExit → Served mgr (env.mExec mgr) s.calls →
      IsRing s.links (.mFreeTasks mgr) l → 0 < s.aborts → env.abort (s.aborts - 1) ≠ 0 →
      Serving env mgr l s

theorem Out.removed (hr : IsRing s.links (.mFreeTasks mgr) (l ++ [.tList])) (d : ℕ) :
    Out env mgr l d (s.modLinks (·.remove .tList)) := by
  have hremoved : IsRing (s.links.remove .tList) (.mFreeTasks mgr) (l ++ []) := hr.remove
  exact ⟨by simpa [State.modLinks] using hremoved, .inl (IsRing.init _ _)⟩

theorem Serving.step_taskInsertion (hl : s.label = .taskInsertion) (hm : s.task.tMgr = mgr)
    (hc : Served mgr (env.mExec mgr) s.calls) (O : Out env mgr l 0 s)
    (hready : s.task.tReady = 0 ∨ s.aborts = 0 ∧ s.readies = 0 ∧
      (env.abort 0 = 0 → (env.ready 0).delay = 0)) :
    ∃ s', taskmanStep env s = .ok s' ∧ Serving env mgr l s' := by
  by_cases habort : env.abort s.aborts = 0
  · refine ⟨_, step_taskInsertion_unset hl habort, .addition rfl hm hc ⟨O.frees, ?_⟩ ?_⟩
    · refine O.alone.imp_right fun S => ⟨S.unfailing, congrArg (· + 1) S.aborts, fun i hi => ?_⟩
      rcases Nat.lt_succ_iff_lt_or_eq.mp hi with hi | rfl
      · exact S.unset i hi
      · exact habort
    · refine hready.imp_right fun ⟨h0, h0', hfirst⟩ => ?_
      show (env.ready s.readies).delay = 0
      rw [h0']
      exact hfirst (h0 ▸ habort)
  · exact ⟨_, step_taskInsertion_set hl habort, .execExit rfl hc O.frees (Nat.succ_pos _) habort⟩

theorem Serving.step_addition (hl : s.label = .addition) (hm : s.task.tMgr = mgr)
    (hc : Served mgr (env.mExec mgr) s.calls) (hout : Node.tList ∉ l) (O : Out env mgr l 1 s)
    (hready : s.task.tReady = 0 ∨ (env.ready s.readies).delay = 0) :
    ∃ s', taskmanStep env s = .ok s' ∧ Serving env mgr l s' := by
  subst hm
  by_cases hd : (env.ready s.readies).delay = 0
  · refine ⟨_, step_addition_ready hl hd, ?_⟩
    have hr : env.ready s.readies = ⟨0, (env.ready s.readies).args⟩ := by
      cases h : env.ready s.readies
      simp_all
    have hroot : (1 : BitVec 8) ≠ 0 := by decide
    refine .execution (a := (env.ready s.readies).args) rfl rfl ?_ hc ⟨O.frees, ?_⟩ rfl rfl hroot
    · rw [← hr]
    · exact O.alone.imp_right fun S => ⟨S.unfailing, S.aborts, S.unset⟩
  · have halone : IsRing s.links .tList [] := by
      refine O.alone.resolve_right fun S => hd (S.unfailing _ fun i hi => S.unset i ?_)
      have := S.aborts
      omega
    refine ⟨_, step_addition_later hl hd (O.frees.joined List.mem_cons_self)
      (halone.joined List.mem_cons_self), ?_⟩
    refine .free (ite_eq_or_eq _ _ _) rfl (hc.append (.later hd .nil))
      (O.frees.concat (by simpa using hout) halone) (hready.resolve_right hd)

theorem Serving.step_free (hl : s.label = .stall ∨ s.label = .delay) (hm : s.task.tMgr = mgr)
    (hc : Served mgr (env.mExec mgr) s.calls)
    (hr : IsRing s.links (.mFreeTasks mgr) (l ++ [.tList])) (hready : s.task.tReady = 0) :
    ∃ s', taskmanStep env s = .ok s' ∧ Serving env mgr l s' := by
  have hj : s.links.Joined .tList := hr.joined (by simp)
  have O : Out env mgr l 0 (s.modLinks (·.remove .tList)) := .removed hr 0
  rcases hl with hl | hl
  · by_cases habort : env.abort s.aborts = 0
    · refine ⟨{ s with aborts := s.aborts + 1 }, ?_, .free (.inl hl) hm hc hr hready⟩
      rw [step_stall_unset hl habort, if_neg (not_not_intro hready)]
    · let x := { s with aborts := s.aborts + 1 }
      refine ⟨(x.modLinks (·.remove .tList)).goto .execExit, ?_,
        .execExit rfl hc O.frees (Nat.succ_pos _) habort⟩
      have hremove : mgrRemoveFreeTask x = _ := mgrRemoveFreeTask_unready hready hj
      rw [step_stall_set hl habort, hremove]
      rfl
  · refine ⟨(s.modLinks (·.remove .tList)).goto .taskInsertion, ?_,
      .taskInsertion rfl hm hc ⟨O.frees, ?_⟩ (.inl hready)⟩
    · rw [step_delay hl, mgrRemoveFreeTask_unready hready hj]
      rfl
    · exact .inl (IsRing.init _ _)

/-- **One step.** -/
theorem Serving.step (hout : Node.tList ∉ l) (S : Serving env mgr l s) :
    ∃ s', taskmanStep env s = .ok s' ∧ Serving env mgr l s' := by
  cases S with
  | taskInsertion hl hm hc O hready => exact step_taskInsertion hl hm hc O hready
  | addition hl hm hc O hready => exact step_addition hl hm hc hout O hready
  | free hl hm hc hr hready => exact step_free hl hm hc hr hready
  | execution hl hm hcalls hc O hf hargs hroot =>
      refine ⟨_, step_execution hl hf, .cleanup rfl hm ?_ hc ⟨O.frees, ?_⟩ hargs hroot⟩
      · simp [State.goto, State.call, hcalls, hargs]
      · exact O.alone.imp_right fun S => ⟨S.unfailing, S.aborts, S.unset⟩
  | cleanup hl hm hcalls hc O hargs hroot =>
      refine ⟨_, step_cleanup hl hroot, .taskInsertion rfl hm ?_ ⟨O.frees, ?_⟩ (.inl rfl)⟩
      · show Served mgr _ (s.calls ++ [.cleanup s.task.tMgr s.task.tArgs])
        rw [hcalls, hm, hargs]
        exact hc.cleaned _
      · exact O.alone.imp_right fun S => ⟨S.unfailing, S.aborts, S.unset⟩
  | execExit hl hc hr h0 habort =>
      refine ⟨s, ?_, .execExit hl hc hr h0 habort⟩
      simp [taskmanStep, hl, mgrUnregisterTask, pure, Except.pure]

/-! ### Runs -/

variable {stackSize : Usize k} {mem : Memory k Tree} {n : ℕ}

theorem taskmanExec_succ (hrun : taskmanExec env mgr stackSize mem n = .ok s)
    (hstep : taskmanStep env s = .ok s') :
    taskmanExec env mgr stackSize mem (n + 1) = .ok s' := by
  rw [taskmanExec, hrun]
  exact hstep

/-- **Every step.** -/
theorem taskmanExec_serving (stackSize : Usize k) (n : ℕ) (hf : Fresh mgr mem.links)
    (hr : IsRing mem.links (.mFreeTasks mgr) l) (hs : Sound env mem) :
    ∃ s, taskmanExec env mgr stackSize mem n = .ok s ∧ Serving env mgr l s := by
  induction n with
  | zero =>
      refine ⟨_, rfl, .taskInsertion rfl rfl .nil ⟨hr, ?_⟩ ?_⟩
      · exact hs.2.imp_right fun hu => ⟨hu, rfl, fun _ hi => absurd hi (Nat.not_lt_zero _)⟩
      · exact hs.1.imp_right fun hfirst => ⟨rfl, rfl, hfirst⟩
  | succ n ih =>
      obtain ⟨s, hrun, S⟩ := ih
      obtain ⟨s', hstep, S'⟩ := S.step (hf.notMem hr)
      exact ⟨s', taskmanExec_succ hrun hstep, S'⟩

theorem Serving.served (S : Serving env mgr l s)
    (hrun : taskmanExec env mgr stackSize mem n = .ok s) :
    ∃ n' s', n ≤ n' ∧ taskmanExec env mgr stackSize mem n' = .ok s' ∧ s.calls <+: s'.calls ∧
      Served mgr (env.mExec mgr) s'.calls := by
  cases S with
  | taskInsertion _ _ hc | addition _ _ hc | free _ _ hc | execExit _ hc =>
      exact ⟨n, s, le_rfl, hrun, List.prefix_rfl, hc⟩
  | execution hl hm hcalls hc O hf hargs hroot =>
      have hrun := taskmanExec_succ hrun (step_execution hl hf)
      refine ⟨n + 2, _, by omega, taskmanExec_succ hrun (step_cleanup rfl hroot), ?_, ?_⟩
      · exact (List.prefix_append _ _).trans (List.prefix_append _ _)
      · show Served mgr _ (s.calls ++ [_] ++ [.cleanup s.task.tMgr s.task.tArgs])
        rw [hcalls, hm, hargs]
        simpa using hc.cleaned _
  | cleanup hl hm hcalls hc O hargs hroot =>
      refine ⟨n + 1, _, by omega, taskmanExec_succ hrun (step_cleanup hl hroot),
        List.prefix_append _ _, ?_⟩
      show Served mgr _ (s.calls ++ [.cleanup s.task.tMgr s.task.tArgs])
      rw [hcalls, hm, hargs]
      exact hc.cleaned _

theorem Sound.serves (hs : Sound env mem) (hf : Fresh mgr mem.links) :
    Serves env mgr (taskmanExec env mgr stackSize mem) := by
  obtain ⟨l, hr⟩ := hf.frees
  have hout := hf.notMem hr
  refine ⟨fun n => ?_, fun n s hrun => ?_, fun n s hrun hl => ?_⟩ <;>
    obtain ⟨x, hx, S⟩ := taskmanExec_serving stackSize n hf hr hs
  · exact ⟨x, hx⟩
  · cases hrun.symm.trans hx
    exact S.served hrun
  · cases hrun.symm.trans hx
    cases S with
    | execExit _ hc hr h0 habort => exact ⟨hc, h0, habort, l, hr, hout⟩
    | free hl' => rcases hl' with hl' | hl' <;> cases hl.symm.trans hl'
    | _ hl' => cases hl.symm.trans hl'

/-! ### Runs on a content that is read -/

/-- As long as `m_ready` hands out an instance, four steps serve it, and `t_list` stays as it is. -/
theorem taskmanExec_roots (mgr : MgrId k) (stackSize : Usize k) (mem : Memory k Tree) (n : ℕ)
    (h : ∀ i < n, env.abort i = 0 ∧ (env.ready i).delay = 0) :
    ∃ s, taskmanExec env mgr stackSize mem (4 * n) = .ok s ∧ s.label = .taskInsertion ∧
      s.links = mem.links ∧ s.aborts = n ∧ s.readies = n := by
  induction n with
  | zero => exact ⟨_, rfl, rfl, rfl, rfl, rfl⟩
  | succ n ih =>
      obtain ⟨s, hrun, hl, hlinks, haborts, hreadies⟩ := ih fun i hi => h i (Nat.lt_succ_of_lt hi)
      obtain ⟨habort, hd⟩ := h n (Nat.lt_succ_self n)
      have hrun := taskmanExec_succ hrun (step_taskInsertion_unset hl (haborts ▸ habort))
      have hrun := taskmanExec_succ hrun (step_addition_ready rfl (hreadies ▸ hd))
      have hrun := taskmanExec_succ hrun (step_execution rfl rfl)
      have hroot : (1 : BitVec 8) ≠ 0 := by decide
      have hrun := taskmanExec_succ hrun (step_cleanup rfl hroot)
      exact ⟨_, hrun, rfl, hlinks, congrArg (· + 1) haborts, congrArg (· + 1) hreadies⟩

theorem Serves.step (S : Serves env mgr (taskmanExec env mgr stackSize mem))
    (hrun : taskmanExec env mgr stackSize mem n = .ok s) :
    ∃ s', taskmanStep env s = .ok s' ∧ taskmanExec env mgr stackSize mem (n + 1) = .ok s' := by
  obtain ⟨s', hrun'⟩ := S.returns (n + 1)
  refine ⟨s', ?_, hrun'⟩
  rw [taskmanExec, hrun] at hrun'
  exact hrun'

/-- The task joins `m_free_tasks` from no list. -/
theorem Serves.alone_or_unfailing (S : Serves env mgr (taskmanExec env mgr stackSize mem))
    (hf : Fresh mgr mem.links) : IsRing mem.links .tList [] ∨ Unfailing env := by
  refine or_iff_not_imp_left.mpr fun halone n habort => ?_
  induction n using Nat.strong_induction_on with
  | _ n ih =>
      by_contra hd
      obtain ⟨s, hrun, hl, hlinks, haborts, hreadies⟩ := taskmanExec_roots mgr stackSize mem n
        fun i hi => ⟨habort i hi.le, ih i hi fun j hj => habort j (hj.trans hi.le)⟩
      have hrun := taskmanExec_succ hrun
        (step_taskInsertion_unset hl (haborts ▸ habort n le_rfl))
      obtain ⟨x, hx, -⟩ := S.step hrun
      have hfail : taskmanStep env _ = _ := step_addition_notListed
        (s := { s with aborts := s.aborts + 1, label := .addition }) rfl (hreadies ▸ hd)
        (hlinks ▸ fun hj => halone (hf.alone hj))
      cases hfail.symm.trans hx

theorem step_free_ready (env : Env k Tree) (hl : s.label = .stall ∨ s.label = .delay)
    (hready : s.task.tReady ≠ 0) :
    ∃ s', taskmanStep env s = .ok s' ∧ s'.label = .execution ∧ s'.calls = s.calls := by
  rcases hl with hl | hl
  · by_cases habort : env.abort s.aborts = 0
    · refine ⟨{ s with aborts := s.aborts + 1, label := .execution }, ?_, rfl, rfl⟩
      rw [step_stall_unset hl habort, if_pos hready]
    · refine ⟨{ s with aborts := s.aborts + 1, label := .execution }, ?_, rfl, rfl⟩
      have hkept : mgrRemoveFreeTask { s with aborts := s.aborts + 1 } = _ :=
        mgrRemoveFreeTask_ready hready
      rw [step_stall_set hl habort, hkept]
      rfl
  · refine ⟨s.goto .execution, ?_, rfl, rfl⟩
    rw [step_delay hl, mgrRemoveFreeTask_ready hready]
    rfl

/-- No call of `m_ready` fails while `t_ready` is set. -/
theorem Serves.unready (S : Serves env mgr (taskmanExec env mgr stackSize mem))
    (hrun : taskmanExec env mgr stackSize mem n = .ok s) (hl : s.label = .addition)
    (hm : s.links.Joined (.mFreeTasks s.task.tMgr)) (hc : s.calls = [])
    (hd : (env.ready s.readies).delay ≠ 0) (hready : s.task.tReady ≠ 0) : False := by
  obtain ⟨x, hx, hrun⟩ := S.step hrun
  by_cases hj : s.links.Joined .tList
  · have e := Except.ok.inj (hx.symm.trans (step_addition_later hl hd hm hj))
    obtain ⟨y, hstep, hl, hcalls⟩ := step_free_ready env (s := x)
      (by rw [e]; exact ite_eq_or_eq _ _ _) (by rw [e]; exact hready)
    have hrun := taskmanExec_succ hrun hstep
    obtain ⟨z, hz, hrun⟩ := S.step hrun
    cases hf : y.task.tFunction with
    | none => simp [taskmanStep, hl, taskExec, hf, bind, Except.bind] at hz
    | some f =>
        cases (step_execution hl hf).symm.trans hz
        obtain ⟨-, s', -, -, ⟨rest, hrest⟩, hserved⟩ := S.serves _ _ hrun
        have hx : x.calls = [.ready s.task.tMgr (env.ready s.readies)] := by
          rw [e, hc]
          rfl
        rw [← hrest] at hserved
        simp only [State.goto, State.call, hcalls, hx, List.cons_append, List.nil_append] at hserved
        exact not_served_exec (hserved.of_later hd)
  · cases (step_addition_notListed hl hd hj).symm.trans hx

/-- `t_ready` is not read before it is written. -/
theorem Serves.unready_or_first (S : Serves env mgr (taskmanExec env mgr stackSize mem))
    (hf : Fresh mgr mem.links) :
    mem.task.tReady = 0 ∨ (env.abort 0 = 0 → (env.ready 0).delay = 0) := by
  by_contra! hboth
  obtain ⟨hready, habort, hd⟩ := hboth
  obtain ⟨l, hr⟩ := hf.frees
  have hrun : taskmanExec env mgr stackSize mem 1 = _ :=
    taskmanExec_succ rfl (step_taskInsertion_unset rfl habort)
  exact S.unready hrun rfl (hr.joined List.mem_cons_self) rfl hd hready

/-! ### The condition -/

/-- **A context serves iff the first content of its task is not read**: for every environment, every
content of the task and every list of free tasks. -/
theorem taskmanExec_serves_iff (env : Env k Tree) (mgr : MgrId k) (stackSize : Usize k)
    (mem : Memory k Tree) (hf : Fresh mgr mem.links) :
    Serves env mgr (taskmanExec env mgr stackSize mem) ↔ Sound env mem :=
  ⟨fun S => ⟨S.unready_or_first hf, S.alone_or_unfailing hf⟩, fun hs => hs.serves hf⟩

/-- One manager without free tasks, one function. -/
abbrev small : Machine := ⟨8, by decide, 1, 1, 1⟩

instance : NeZero small.managers := ⟨by decide⟩
instance : NeZero small.tasks := ⟨by decide⟩
instance : NeZero small.functions := ⟨by decide⟩

/-- The first call of `m_ready` asks for a delay of 5, the following ones hand out an instance;
`*abort` is set after three readings. -/
def smallEnv : Env small Unit where
  mExec _ := 0
  avlTreeInsert _ _ := ()
  address := 64
  ready n := if n = 0 then ⟨5, 0⟩ else ⟨0, BitVec.ofNat 8 n⟩
  abort n := if n < 3 then 0 else 1

/-- Every list is empty; the task holds the values left on the stack. -/
def smallMemory (ready : BitVec 8) : Memory small Unit where
  task := ⟨0, 0, 0, ready, some 0, 7⟩
  links := ⟨id, id⟩
  mTree _ := ()

theorem fresh_smallMemory (ready : BitVec 8) : Fresh 0 (smallMemory ready).links :=
  ⟨⟨[], IsRing.nil_iff.mpr ⟨rfl, rfl⟩⟩, fun _ hn => ⟨hn, hn⟩⟩

/-- A task whose `t_ready` happens to be null. -/
theorem taskmanExec_serves_run : Serves smallEnv 0 (taskmanExec smallEnv 0 32 (smallMemory 0)) :=
  (taskmanExec_serves_iff smallEnv 0 32 (smallMemory 0) (fresh_smallMemory 0)).mpr
    ⟨.inl rfl, .inl (IsRing.nil_iff.mpr ⟨rfl, rfl⟩)⟩

/-- A task whose `t_ready` happens to be set is executed after the delay. -/
theorem taskmanExec_serves_fails : ¬∀ (env : Env small Unit) (mgr : MgrId small)
    (stackSize : Usize small) (mem : Memory small Unit), Fresh mgr mem.links →
    Serves env mgr (taskmanExec env mgr stackSize mem) := by
  intro hall
  have S := hall smallEnv 0 32 (smallMemory 1) (fresh_smallMemory 1)
  obtain ⟨-, s', -, -, ⟨rest, hrest⟩, hserved⟩ := S.serves 4 _ rfl
  rw [← hrest] at hserved
  exact not_served_exec (Served.of_later (r := ⟨5, 0⟩) hserved (by decide))

end KernelTk.Taskman
