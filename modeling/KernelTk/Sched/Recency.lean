import KernelTk.Lib.Recency
import KernelTk.Sched.Histories

/-! # The order of the histories

`t_history` lists the tasks of a thread, ordered by recency.  `thread_assign_task` links the node of
a task in at the head of the list when it transfers the task, and does not move it otherwise.

* **Turns.** `Turn` : a call to `thread_assign_task`, or to `thread_unregister_task`.  Nothing else
  changes the histories of registered threads, and the times of a run are the positions of its turns.
* **Property.** `ByRecency` : each history holds the tasks of the thread, the last one assigned
  first, which is the one that is executed, if any.
* **Condition.** `InFront` : a task that is assigned to its own thread is the first one of its history.
* **Lists.** `Turn.lists` is what a call does to the lists, as functions of the threads; `reach_listed` : the
  memory follows them in every run.  The question is one about lists and times, which `Ordered` states.
* **One call.** `Listed.call_iff` : a call keeps the order iff it meets the condition.  A transfer puts the
  task in front, and a departure leaves the order of the others.
* **Runs.** A run has the property throughout iff its turns meet the condition
  (`by_recency_iff`); `by_recency_fails` is a task assigned again behind another one. -/

namespace KernelTk.Sched

open Transition
open CircularList (IsRing)
open Recency (RecentFirst lastTime)

variable {k : Machine}

/-! ### Turns -/

/-- The calls that assign and unregister tasks. -/
inductive Turn (k : Machine) where
  | assign (h : ThreadId k) (task : Option (TaskId k))
  | unregister (t : TaskId k)
deriving DecidableEq

/-- Execute a call. -/
def turn (env : Env k) : Turn k → State k → Except Fault (Unit × State k)
  | .assign h task, s => (threadAssignTask env h task s).map ((), ·)
  | .unregister t, s => .ok ((), threadUnregisterTask t s)

abbrev Turns (k : Machine) := History (State k) (Turn k) Unit

/-- The task is one of the scheduler. -/
def OfScheduler (_ : Turns k) (s : State k) : Turn k → Prop
  | .assign _ (some t) => (s.task t).tProcess ≠ none
  | .assign _ none => True
  | .unregister t => (s.task t).tProcess ≠ none

/-- The registered threads and tasks of a scheduler that has assigned nothing. -/
structure NoneAssigned (s : State k) : Prop where
  history : ∀ h, (s.thread h).tSched = true → IsRing s.links (.threadHistory h) []
  size : ∀ h, (s.thread h).tSched = true → (s.thread h).tHistorySize = 0
  idle : ∀ h, (s.thread h).tSched = true → (s.thread h).tTask = none
  task : ∀ t, (s.task t).tProcess ≠ none → (s.task t).tThread = none

/-- The time of the last assignment of a task to a thread. -/
def lastAssigned (hist : Turns k) (h : ThreadId k) (t : TaskId k) : ℕ :=
  lastTime (fun e => decide (e.call = .assign h (some t))) hist

/-- Each history holds the tasks of the thread, the last one assigned first, and the task that the
thread executes is that one. -/
structure ByRecency (hist : Turns k) (s : State k) (history : ThreadId k → List (TaskId k)) :
    Prop where
  ring : ∀ h, (s.thread h).tSched = true →
    IsRing s.links (.threadHistory h) ((history h).map .tHistory)
  mem : ∀ h t, (s.thread h).tSched = true →
    (t ∈ history h ↔ (s.task t).tProcess ≠ none ∧ (s.task t).tThread = some h)
  recent : ∀ h, (s.thread h).tSched = true → RecentFirst (lastAssigned hist h) (history h)
  first : ∀ h t, (s.thread h).tSched = true → (s.thread h).tTask = some t →
    (history h).head? = some t

/-- A task that is assigned to its own thread is the first one of its history. -/
def InFront (_ : Turns k) (s : State k) : Turn k → Prop
  | .assign h (some t) => (s.task t).tThread = some h →
      s.links.next (.threadHistory h) = .tHistory t
  | _ => True

/-! ### The order of the lists -/

/-- The lists are ordered by these times, and the tasks that are executed come first. -/
structure Ordered (stamp : ThreadId k → TaskId k → ℕ) (tTask : ThreadId k → Option (TaskId k))
    (M : ThreadId k → Option (List (TaskId k))) : Prop where
  recent : ∀ {h l}, M h = some l → RecentFirst (stamp h) l
  first : ∀ {h l t}, M h = some l → tTask h = some t → l.head? = some t

section ordered
variable {stamp stamp' : ThreadId k → TaskId k → ℕ} {A A' : ThreadId k → Option (TaskId k)}
  {M : ThreadId k → Option (List (TaskId k))} {l l' : List (TaskId k)} {h g : ThreadId k}
  {t u : TaskId k} {o : Option (ThreadId k)}

theorem leaveLists_some (hl' : leaveLists M o t h = some l') :
    ∃ l, M h = some l ∧ (l' = l ∨ l' = l.erase t ∧ o = some h) := by
  cases o with
  | none => exact ⟨l', hl', .inl rfl⟩
  | some g =>
      by_cases hg : h = g
      · subst hg
        simp only [leaveLists, Option.elim_some, Function.update_self, Option.map_eq_some_iff] at hl'
        obtain ⟨l, hl, rfl⟩ := hl'
        exact ⟨l, hl, .inr ⟨rfl, rfl⟩⟩
      · simp only [leaveLists, Option.elim_some, Function.update_of_ne hg] at hl'
        exact ⟨l', hl', .inl rfl⟩

theorem leaveLists_of_ne (ho : o ≠ some h) : leaveLists M o t h = M h := by
  cases o with
  | none => rfl
  | some g =>
      have hg : h ≠ g := fun e => ho (e ▸ rfl)
      simp [leaveLists, hg]

theorem head_erase (hu : l.head? = some u) (hne : u ≠ t) : (l.erase t).head? = some u := by
  cases l with
  | nil => cases hu
  | cons a l =>
      obtain rfl := Option.some.inj hu
      simp [hne]

namespace Ordered

theorem fewer (O : Ordered stamp A M) (hA : ∀ h t, A' h = some t → A h = some t) :
    Ordered stamp A' M :=
  ⟨O.recent, fun hl ht => O.first hl (hA _ _ ht)⟩

theorem leave (O : Ordered stamp A M)
    (hA : ∀ h u, A' h = some u → A h = some u ∧ (u = t → o ≠ some h)) :
    Ordered stamp A' (leaveLists M o t) := by
  constructor
  · intro h l' hl'
    obtain ⟨l, hl, rfl | ⟨rfl, -⟩⟩ := leaveLists_some hl'
    · exact O.recent hl
    · exact (O.recent hl).erase t
  · intro h l' u hl' hu
    obtain ⟨hu, hne⟩ := hA h u hu
    obtain ⟨l, hl, rfl | ⟨rfl, ho⟩⟩ := leaveLists_some hl'
    · exact O.first hl hu
    · exact head_erase (O.first hl hu) fun e => hne e ho

section assign

variable (hsame : ∀ g u, ¬(g = h ∧ u = t) → stamp' g u = stamp g u)
  (hnew : ∀ u, stamp h u < stamp' h t)
  (hA : ∀ g u, A' g = some u → g = h ∧ u = t ∨ A g = some u)
include hsame hnew hA

theorem enter (O : Ordered stamp A M) (hl : M h = some l) (ht : t ∉ l) (hrun : A' h = some t) :
    Ordered stamp' A' (Function.update M h (some (t :: l))) := by
  constructor
  · intro g l' hl'
    by_cases hg : g = h
    · subst hg
      rw [Function.update_self, Option.some.injEq] at hl'
      exact hl' ▸ (O.recent hl).enter ht (fun u hu => hsame g u fun e => hu e.2) hnew
    · rw [Function.update_of_ne hg] at hl'
      exact (O.recent hl').congr fun u _ => hsame g u fun e => hg e.1
  · intro g l' u hl' hu
    by_cases hg : g = h
    · subst hg
      rw [Function.update_self, Option.some.injEq] at hl'
      rw [← hl', ← hu, hrun, List.head?_cons]
    · rw [Function.update_of_ne hg] at hl'
      exact O.first hl' ((hA g u hu).resolve_left fun e => hg e.1)

/-- A task is executed again by the thread of its list : it must come first. -/
theorem again_iff (O : Ordered stamp A M) (hl : M h = some l) (ht : t ∈ l)
    (hrun : A' h = some t) : Ordered stamp' A' M ↔ l.head? = some t := by
  constructor
  · exact fun O' => O'.first hl hrun
  · intro hhead
    constructor
    · intro g l' hl'
      by_cases hg : g = h
      · subst hg
        obtain rfl := Option.some.inj (hl.symm.trans hl')
        exact ((O.recent hl).use_iff ht (fun u hu => hsame g u fun e => hu e.2) hnew).mpr hhead
      · exact (O.recent hl').congr fun u _ => hsame g u fun e => hg e.1
    · intro g l' u hl' hu
      rcases hA g u hu with ⟨rfl, rfl⟩ | hu
      · obtain rfl := Option.some.inj (hl.symm.trans hl')
        exact hhead
      · exact O.first hl' hu

end assign

end Ordered

end ordered

/-! ### Runs -/

section runs
variable {env : Env k} {hist : Turns k} {s s' : State k} {c : Turn k} {r : Unit}
  {M : ThreadId k → Option (List (TaskId k))} {h : ThreadId k} {t : TaskId k}

/-- The lists of the registered threads. -/
def Listed (s : State k) (M : ThreadId k → Option (List (TaskId k))) : Prop :=
  Histories s.pointers s.activity.tTask (fun h => (s.thread h).tSched = true) M

/-- The move of a call. -/
def Turn.move : Turn k → Move k
  | .assign h none => .idle h
  | .assign h (some t) => .assign h t
  | .unregister t => .leave t

/-- What a call does to the lists; `f` gives the thread of a task. -/
def Turn.lists (f : TaskId k → Option (ThreadId k)) (M : ThreadId k → Option (List (TaskId k))) :
    Turn k → ThreadId k → Option (List (TaskId k))
  | .assign _ none => M
  | .assign h (some t) => assignLists M (f t) h t
  | .unregister t => leaveLists M (f t) t

/-- A call that returns has made its move, and the thread to which it assigns a task is
registered. -/
theorem turn_ok (he : turn env c s = .ok (r, s')) : s' = c.move.apply s ∧
    ∀ h t, c = .assign h (some t) → (s.thread h).tSched = true := by
  cases c with
  | unregister t =>
      cases he
      exact ⟨rfl, nofun⟩
  | assign h task =>
      have hassign : threadAssignTask env h task s = .ok s' := by
        have he : (threadAssignTask env h task s).map ((), ·) = .ok (r, s') := he
        cases hc : threadAssignTask env h task s with
        | error e =>
            rw [hc] at he
            cases he
        | ok x =>
            rw [hc] at he
            cases he
            rfl
      cases task with
      | none =>
          obtain rfl := Except.ok.inj hassign
          exact ⟨rfl, fun _ _ e => nomatch e⟩
      | some t =>
          obtain ⟨-, hsched, rfl⟩ := threadAssignTask_ok hassign
          refine ⟨rfl, fun _ _ e => ?_⟩
          cases e
          exact hsched

theorem turn_tSched (he : turn env c s = .ok (r, s')) (h : ThreadId k) :
    (s'.thread h).tSched = (s.thread h).tSched := by
  obtain ⟨rfl, -⟩ := turn_ok he
  rcases c with ⟨g, _ | t⟩ | t
  · by_cases hg : h = g <;> simp [Turn.move, Move.apply, hg]
  · exact (assignTask_assigned g t s).tSched h
  · exact (threadUnregisterTask_assigned t s).tSched h

theorem Listed.init (hs : NoneAssigned s) :
    Listed s fun h => if (s.thread h).tSched = true then some [] else none := by
  have hnil : ∀ {h l}, (if (s.thread h).tSched = true then some ([] : List (TaskId k)) else none) =
      some l → (s.thread h).tSched = true ∧ l = [] := by
    intro h l hl
    split at hl
    · rename_i hh
      exact ⟨hh, (Option.some.inj hl).symm⟩
    · cases hl
  constructor
  · refine ⟨fun {h l} hl => ?_, fun {h g l l' u} hl _ hu _ => ?_, nofun, nofun⟩
    · obtain ⟨hh, rfl⟩ := hnil hl
      exact hs.history h hh
    · obtain ⟨-, rfl⟩ := hnil hl
      cases hu
  · refine ⟨fun hl => ?_, fun {h l u} hl => ?_, fun {h u} hu hf => ?_, fun {h l} hl => ?_⟩
    · obtain ⟨-, rfl⟩ := hnil hl
      exact List.nodup_nil
    · obtain ⟨-, rfl⟩ := hnil hl
      exact iff_of_false List.not_mem_nil fun hu => nomatch (hs.task u hu.1).symm.trans hu.2
    · cases (hs.task u hu).symm.trans hf
    · obtain ⟨hh, rfl⟩ := hnil hl
      exact congrArg BitVec.toNat (hs.size h hh)
  · intro h
    by_cases hh : (s.thread h).tSched = true <;> simp [hh]
  · exact fun h t hh ht => nomatch (hs.idle h hh).symm.trans ht
  · intro h hh hh'
    cases hh.symm.trans hh'

theorem Listed.call (L : Listed s M) (hc : OfScheduler hist s c)
    (he : turn env c s = .ok (r, s')) : Listed s' (c.lists s.pointers.tThread M) := by
  have hT : (fun h => (s'.thread h).tSched = true) = fun h => (s.thread h).tSched = true :=
    funext fun h => by rw [turn_tSched he]
  obtain ⟨rfl, hsched⟩ := turn_ok he
  unfold Listed
  rw [hT, c.move.apply_pointers, c.move.apply_activity]
  rcases c with ⟨h, _ | t⟩ | t
  · exact Histories.idle L h
  · exact Histories.assigned L hc (hsched h t rfl) (hsched h t rfl)
  · exact Histories.left L hc

theorem reach_listed (hr : Transition.Reach NoneAssigned (turn env) OfScheduler hist s) :
    ∃ M, Listed s M := by
  induction hr with
  | start hs => exact ⟨_, .init hs⟩
  | call _ hg he ih =>
      obtain ⟨M, L⟩ := ih
      exact ⟨_, L.call hg he⟩

/-- The lists are those of the threads. -/
theorem Listed.byRecency_iff (L : Listed s M) : (∃ history, ByRecency hist s history) ↔
    Ordered (lastAssigned hist) (fun h => (s.thread h).tTask) M := by
  constructor
  · rintro ⟨history, H⟩
    have hsame : ∀ {h l}, M h = some l → (s.thread h).tSched = true ∧ history h = l := by
      intro h l hl
      have hh : (s.thread h).tSched = true := (L.known h).mp (by simp [hl])
      have hring := (L.table.ring hl).unique (H.ring h hh)
      exact ⟨hh, ((List.map_injective_iff.mpr fun _ _ => Node.tHistory.inj) hring).symm⟩
    constructor
    · intro h l hl
      obtain ⟨hh, rfl⟩ := hsame hl
      exact H.recent h hh
    · intro h l t hl ht
      obtain ⟨hh, rfl⟩ := hsame hl
      exact H.first h t hh ht
  · intro O
    have hM : ∀ h, (s.thread h).tSched = true → M h = some ((M h).getD []) :=
      fun _ => Histories.list L
    exact ⟨fun h => (M h).getD [], fun h hh => L.table.ring (hM h hh),
      fun h t hh => L.registry.mem (hM h hh), fun h hh => O.recent (hM h hh),
      fun h t hh ht => O.first (hM h hh) ht⟩

/-! ### Times -/

theorem lastAssigned_cons {e : Event (State k) (Turn k) Unit} (hne : e.call ≠ .assign h (some t)) :
    lastAssigned (e :: hist) h t = lastAssigned hist h t :=
  Recency.lastTime_cons_of_not (decide_eq_false hne)

theorem lastAssigned_lt {e : Event (State k) (Turn k) Unit} (he : e.call = .assign h (some t))
    (g : ThreadId k) (u : TaskId k) : lastAssigned hist g u < lastAssigned (e :: hist) h t :=
  Recency.lastTime_lt_cons (decide_eq_true he)

theorem Listed.assign_iff (L : Listed s M) (O : Ordered (lastAssigned hist) s.activity.tTask M)
    (ht : (s.task t).tProcess ≠ none) (hh : (s.thread h).tSched = true) :
    Ordered (lastAssigned (⟨s, .assign h (some t), r, s'⟩ :: hist))
        ((Move.assign h t).activity s.pointers.tThread s.activity).tTask
        (assignLists M (s.pointers.tThread t) h t) ↔
      InFront hist s (.assign h (some t)) := by
  obtain ⟨l, hl⟩ := Option.isSome_iff_exists.mp ((L.known h).mpr hh)
  have hsame : ∀ g u, ¬(g = h ∧ u = t) →
      lastAssigned (⟨s, .assign h (some t), r, s'⟩ :: hist) g u = lastAssigned hist g u := by
    intro g u hne
    refine lastAssigned_cons fun e => hne ?_
    cases e
    exact ⟨rfl, rfl⟩
  have hnew : ∀ u, lastAssigned hist h u <
      lastAssigned (⟨s, .assign h (some t), r, s'⟩ :: hist) h t := lastAssigned_lt rfl h
  have hrun : ∀ A : Activity k, (A.run h t).tTask h = some t := fun A => by simp [Activity.run]
  simp only [Move.activity, assignLists, InFront]
  by_cases hth : s.pointers.tThread t = some h
  · rw [if_pos hth, if_pos hth]
    have hmem : t ∈ l := (L.registry.mem hl).mpr ⟨ht, hth⟩
    have hfirst : s.links.next (.threadHistory h) = .tHistory t ↔ l.head? = some t := by
      have hnext : s.links.next (.threadHistory h) = (l.map .tHistory).headD (.threadHistory h) :=
        L.table.next_head hl
      rw [hnext]
      cases l <;> simp
    rw [O.again_iff hsame hnew (fun _ _ => Histories.run_tTask) hl hmem (hrun _), hfirst]
    exact ⟨fun hhead _ => hhead, fun H => H hth⟩
  · rw [if_neg hth, if_neg hth]
    refine iff_of_true ?_ fun e => absurd e hth
    have hmem : t ∉ l := fun hmem => hth ((L.registry.mem hl).mp hmem).2
    have hl' : leaveLists M (s.pointers.tThread t) t h = some l := (leaveLists_of_ne hth).trans hl
    rw [hl', Option.map_some]
    have hleft : Ordered (lastAssigned hist) (s.activity.leave (s.pointers.tThread t) t).tTask
        (leaveLists M (s.pointers.tThread t) t) := by
      refine O.leave fun g u hu => ?_
      obtain ⟨hu, -, hne⟩ := s.activity.leave_tTask hu
      exact ⟨hu, hne⟩
    exact hleft.enter hsame hnew (fun _ _ => Histories.run_tTask) hl' hmem (hrun _)

/-- **A call keeps the order** iff it meets the condition. -/
theorem Listed.call_iff (L : Listed s M) (O : Ordered (lastAssigned hist) s.activity.tTask M)
    (hc : OfScheduler hist s c) (he : turn env c s = .ok (r, s')) :
    Ordered (lastAssigned (⟨s, c, r, s'⟩ :: hist)) s'.activity.tTask
        (c.lists s.pointers.tThread M) ↔ InFront hist s c := by
  have hstamp : (∀ h t, c ≠ .assign h (some t)) →
      lastAssigned (⟨s, c, r, s'⟩ :: hist) = lastAssigned hist :=
    fun hne => funext fun h => funext fun t => lastAssigned_cons (hne h t)
  have hok := turn_ok he
  rcases c with ⟨h, _ | t⟩ | t
  · rw [hstamp nofun, hok.1, Move.apply_activity]
    refine iff_of_true (O.fewer fun g u hu => ?_) trivial
    exact Histories.idle_tTask hu
  · rw [hok.1, Move.apply_activity]
    exact L.assign_iff O hc (hok.2 h t rfl)
  · rw [hstamp nofun, hok.1, Move.apply_activity]
    refine iff_of_true (O.leave fun g u hu => ?_) trivial
    obtain ⟨hu, -, hne⟩ := s.activity.leave_tTask hu
    exact ⟨hu, hne⟩

/-- **The histories are ordered by recency**, throughout a run, iff every task that is assigned to its
own thread is the first one of its history. -/
theorem by_recency_iff (hr : Transition.Reach NoneAssigned (turn env) OfScheduler hist s) :
    Throughout (fun hist s => ∃ history, ByRecency hist s history) hist s ↔
      Meets InFront hist := by
  refine hr.throughout_iff (fun s hs => ?_) (fun {hist s c r s'} hr hlast hc he => ?_)
  · refine (Listed.init hs).byRecency_iff.mpr ⟨fun {h l} hl => ?_, fun {h l t} hl ht => ?_⟩
    · split at hl
      · obtain rfl := Option.some.inj hl
        exact .nil
      · cases hl
    · split at hl
      · rename_i hh
        cases (hs.idle h hh).symm.trans ht
      · cases hl
  · obtain ⟨M, L⟩ := reach_listed (hr.mono And.left)
    rw [(L.call hc he).byRecency_iff]
    exact L.call_iff (L.byRecency_iff.mp hlast) hc he

instance (hist : Turns k) (s : State k) (c : Turn k) : Decidable (OfScheduler hist s c) :=
  match c with
  | .assign _ (some t) => inferInstanceAs (Decidable ((s.task t).tProcess ≠ none))
  | .assign _ none => inferInstanceAs (Decidable True)
  | .unregister t => inferInstanceAs (Decidable ((s.task t).tProcess ≠ none))

instance (hist : Turns k) (s : State k) (c : Turn k) : Decidable (InFront hist s c) :=
  match c with
  | .assign h (some t) => inferInstanceAs (Decidable ((s.task t).tThread = some h →
      s.links.next (.threadHistory h) = .tHistory t))
  | .assign _ none => inferInstanceAs (Decidable True)
  | .unregister _ => inferInstanceAs (Decidable True)

end runs

/-! ### The order is kept, and lost -/

/-- The state after the registrations. -/
def smallReady : State small :=
  ((smallSetup.foldlM (fun s c => (exec ⟨true, quiet⟩ c s).map (·.2)) smallBoot).toOption).getD smallBoot

theorem noneAssigned_smallReady : NoneAssigned smallReady where
  history := fun h _ => IsRing.nil_iff.mpr (by revert h; decide +kernel)
  size := by decide +kernel
  idle := by decide +kernel
  task := by decide +kernel

set_option maxRecDepth 10000 in
/-- A task goes to another thread and back, an other one leaves. -/
theorem by_recency_run : ∃ (hist : Turns small) (s : State small),
    (s.thread 0).tTask = some 0 ∧
      Throughout (fun hist s => ∃ history, ByRecency hist s history) hist s := by
  obtain ⟨hist, s, hr, htest⟩ := exists_reach_of_replay (turn ⟨true, quiet⟩)
    (fun hist s c => OfScheduler hist s c ∧ InFront hist s c) noneAssigned_smallReady
    (fun _ s => (s.thread 0).tTask == some 0)
    [.assign 0 (some 0), .assign 0 (some 1), .assign 0 none, .assign 0 (some 1), .assign 1 (some 0),
      .assign 0 (some 2), .assign 0 (some 0), .unregister 2, .assign 0 (some 0)] (by decide +kernel)
  refine ⟨hist, s, by simpa using htest, ?_⟩
  exact (by_recency_iff (hr.mono fun h => h.1)).mpr (hr.mono fun h => h.2).meets_guard

set_option maxRecDepth 10000 in
/-- A task that is assigned again to its thread, after an other one, stays behind it. -/
theorem by_recency_fails : ¬∀ (hist : Turns small) (s : State small),
    Transition.Reach NoneAssigned (turn ⟨true, quiet⟩) OfScheduler hist s →
      ∃ history, ByRecency hist s history := by
  intro hall
  obtain ⟨hist, s, hr, htest⟩ := exists_reach_of_replay (turn ⟨true, quiet⟩) OfScheduler
    noneAssigned_smallReady
    (fun _ s => (s.thread 0).tSched && ((s.thread 0).tTask == some 0 &&
      s.links.next (.threadHistory 0) == .tHistory 1))
    [.assign 0 (some 0), .assign 0 (some 1), .assign 0 (some 0)] (by decide +kernel)
  simp only [Bool.and_eq_true, beq_iff_eq] at htest
  obtain ⟨hsched, htask, hnext⟩ := htest
  obtain ⟨history, H⟩ := hall hist s hr
  obtain ⟨l, hl⟩ := List.head?_eq_some_iff.mp (H.first 0 0 hsched htask)
  have hring := H.ring 0 hsched
  rw [hl] at hring
  cases hring.next_head.symm.trans hnext

end KernelTk.Sched
