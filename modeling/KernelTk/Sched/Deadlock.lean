import KernelTk.Lib.LockOrder
import KernelTk.Sched.Roster

/-! # Circular waits

The scheduler stops a task for whatever primitive it is told to, and follows the cycles that result.  Nothing
in it prevents them; an order of the primitives does.

* **Property.** `State.BlockedBy` : a task waits for a primitive that overrides another one.  No task is
  blocked by itself, be it through others, and following the relation from a task ends.
* **Condition.** `StopsInOrder rank` : a task that a call may stop is stopped for a primitive of a rank above
  those of the primitives that override it.  `Call.MayStop` are the tasks in question: the one that the
  call is about, the one that the thread executes, or, for a pause, the active tasks of the process.
* **Moves.** A wait begins in a stop only (`Move.waits`), an override in an override only
  (`Move.overrides`), of a task that does not wait: so ranks increase along the relation
  (`State.OrderOk.move`).
* **Calls.** A call that stops no task begins no wait; one that stops tasks makes no override
  (`exec_stops`), and a task that it stops waited for nothing (`Call.Stops.tStopper`).
* **Runs.** `ordered_no_deadlock` : under this condition, in every state that calls of any kind
  reach, registrations and unregistrations included. -/

namespace KernelTk.Sched

open Transition LockOrder

variable {k : Machine} {policy : Policy k} {hist : Hist k} {s s' x : State k} {c : Call k}
  {r : BitVec 8} {p q : PrimId k} {t u : TaskId k} {T : ThreadId k → Prop}

/-! ### The relation -/

/-- The task waits for the primitive. -/
def State.Waits (s : State k) (t : TaskId k) (p : PrimId k) : Prop :=
  (s.task t).tProcess ≠ none ∧ (s.task t).tStopper = some p

/-- The primitive overrides the task. -/
def State.Overrides (s : State k) (p : PrimId k) (t : TaskId k) : Prop :=
  (s.prim p).pProcess ≠ none ∧ (s.prim p).pOverridden = some t

/-- `t` waits for a primitive that overrides `u`. -/
def State.BlockedBy (s : State k) : TaskId k → TaskId k → Prop := Blocks s.Waits s.Overrides

instance (s : State k) (t : TaskId k) (p : PrimId k) : Decidable (s.Waits t p) :=
  inferInstanceAs (Decidable (_ ∧ _))

instance (s : State k) (p : PrimId k) (t : TaskId k) : Decidable (s.Overrides p t) :=
  inferInstanceAs (Decidable (_ ∧ _))

/-! ### The condition -/

/-- The call may stop the task for the primitive. -/
def Call.MayStop (s : State k) (c : Call k) (p : PrimId k) (t : TaskId k) : Prop :=
  (∃ h, c.blocks s = some (p, h) ∧ (s.thread h).tTask = some t) ∨
    ∃ d, c = .pauseProcess d ∧ p = pPrim d ∧ (s.prim p).pProcess = (s.task t).tProcess ∧
      (s.task t).tStatus = schedStatusActive

/-- Whatever a call stops is stopped in order. -/
def StopsInOrder {ρ : Type} [Preorder ρ] (rank : PrimId k → ρ) (_ : Hist k) (s : State k) (c : Call k) :
    Prop :=
  ∀ p t, c.MayStop s p t → ∀ q, s.Overrides q t → rank q < rank p

instance (s : State k) (c : Call k) (p : PrimId k) (t : TaskId k) : Decidable (c.MayStop s p t) :=
  inferInstanceAs (Decidable (_ ∨ _))

instance {ρ : Type} [Preorder ρ] [DecidableLT ρ] (rank : PrimId k → ρ) (hist : Hist k) (s : State k)
    (c : Call k) : Decidable (StopsInOrder rank hist s c) :=
  inferInstanceAs (Decidable (∀ _ _, _))

/-! ### Moves -/

/-- A task begins to wait in a stop only. -/
theorem Move.waits (m : Move k) (hw : (m.apply x).Waits t p) :
    m = .edit (.stop p t) ∨ x.Waits t p := by
  have hP := m.apply_pointers x
  obtain ⟨hprc, hs⟩ := hw
  have hprc : (m.pointers x.pointers).tProcess t ≠ none := hP ▸ hprc
  have hs : (m.pointers x.pointers).tStopper t = some p := hP ▸ hs
  cases m with
  | edit e =>
      cases e with
      | stop q u =>
          by_cases htu : t = u
          · subst htu
            simp only [Move.pointers, Edit.pointers, Pointers.stop, Function.update_self,
              Option.some.injEq] at hs
            exact .inl (hs ▸ rfl)
          · simp only [Move.pointers, Edit.pointers, Pointers.stop, Function.update_of_ne htu] at hs
            exact .inr ⟨hprc, hs⟩
      | resume q u =>
          by_cases htu : t = u
          · simp [Move.pointers, Edit.pointers, Pointers.resume, htu] at hs
          · simp only [Move.pointers, Edit.pointers, Pointers.resume, Function.update_of_ne htu] at hs
            exact .inr ⟨hprc, hs⟩
      | _ => exact .inr ⟨hprc, hs⟩
  | addTask d u =>
      by_cases htu : t = u
      · simp [Move.pointers, Pointers.addTask, htu] at hs
      · simp only [Move.pointers, Pointers.addTask, Function.update_of_ne htu] at hprc hs
        exact .inr ⟨hprc, hs⟩
  | assign h u =>
      simp only [Move.pointers] at hprc hs
      split at hs
      · rw [if_pos ‹_›] at hprc
        exact .inr ⟨hprc, hs⟩
      · rw [if_neg ‹_›] at hprc
        cases hu : x.pointers.tThread u <;> rw [hu] at hprc hs <;> exact .inr ⟨hprc, hs⟩
  | leave u =>
      simp only [Move.pointers] at hprc hs
      cases hu : x.pointers.tThread u <;> rw [hu] at hprc hs <;> exact .inr ⟨hprc, hs⟩
  | _ => exact .inr ⟨hprc, hs⟩

/-- A primitive begins to override a task in an override only. -/
theorem Move.overrides (m : Move k) (ho : (m.apply x).Overrides p t) :
    m = .edit (.override p t) ∨ x.Overrides p t := by
  have hP := m.apply_pointers x
  obtain ⟨hprc, ho⟩ := ho
  have hprc : (m.pointers x.pointers).pProcess p ≠ none := hP ▸ hprc
  have ho : (m.pointers x.pointers).pOverridden p = some t := hP ▸ ho
  cases m with
  | edit e =>
      cases e with
      | override q u =>
          by_cases hpq : p = q
          · subst hpq
            simp only [Move.pointers, Edit.pointers, Pointers.override, Function.update_self,
              Option.some.injEq] at ho
            exact .inl (ho ▸ rfl)
          · simp only [Move.pointers, Edit.pointers, Pointers.override,
              Function.update_of_ne hpq] at ho
            exact .inr ⟨hprc, ho⟩
      | unoverride q u =>
          by_cases hpq : p = q
          · simp [Move.pointers, Edit.pointers, Pointers.unoverride, hpq] at ho
          · simp only [Move.pointers, Edit.pointers, Pointers.unoverride,
              Function.update_of_ne hpq] at ho
            exact .inr ⟨hprc, ho⟩
      | _ => exact .inr ⟨hprc, ho⟩
  | addPrim d q =>
      by_cases hpq : p = q
      · simp [Move.pointers, Pointers.addPrim, hpq] at ho
      · simp only [Move.pointers, Pointers.addPrim, Function.update_of_ne hpq] at hprc ho
        exact .inr ⟨hprc, ho⟩
  | assign h u =>
      simp only [Move.pointers] at hprc ho
      split at ho
      · rw [if_pos ‹_›] at hprc
        exact .inr ⟨hprc, ho⟩
      · rw [if_neg ‹_›] at hprc
        cases hu : x.pointers.tThread u <;> rw [hu] at hprc ho <;> exact .inr ⟨hprc, ho⟩
  | leave u =>
      simp only [Move.pointers] at hprc ho
      cases hu : x.pointers.tThread u <;> rw [hu] at hprc ho <;> exact .inr ⟨hprc, ho⟩
  | _ => exact .inr ⟨hprc, ho⟩

/-- The statuses of the tasks that have been registered are in order. -/
def State.StatusesOk (s : State k) : Prop := ∀ t, (s.task t).tProcess ≠ none → StatusOk s t

theorem State.StatusesOk.move (hok : x.StatusesOk) (m : Move k) : (m.apply x).StatusesOk := by
  intro t ht
  by_cases hadd : ∃ d, m = .addTask d t
  · obtain ⟨d, rfl⟩ := hadd
    simp [StatusOk, State.tStatus, Move.apply, Sched.registerTask]
  · have hadd : ∀ d, m ≠ .addTask d t := fun d e => hadd ⟨d, e⟩
    refine (hok t ?_).move m hadd
    rwa [m.apply_tProcess x hadd] at ht

variable {ρ : Type} [Preorder ρ] {rank : PrimId k → ρ}

/-- What holds in every state, under the condition. -/
structure State.OrderOk (rank : PrimId k → ρ) (s : State k) : Prop where
  order : InOrder rank s.Waits s.Overrides
  statuses : s.StatusesOk

/-- **One move.** -/
theorem State.OrderOk.move (O : x.OrderOk rank) (m : Move k) (hm : m.Checked x)
    (hstop : ∀ p t, m = .edit (.stop p t) → ∀ q, x.Overrides q t → rank q < rank p) :
    (m.apply x).OrderOk rank := by
  refine ⟨?_, O.statuses.move m⟩
  by_cases hs : ∃ p t, m = .edit (.stop p t)
  · obtain ⟨p, t, rfl⟩ := hs
    have hover : ∀ q u, ((Move.edit (.stop p t)).apply x).Overrides q u → x.Overrides q u :=
      fun q u hq => ((Move.edit (.stop p t)).overrides hq).resolve_left nofun
    refine (O.order.wait (hstop p t rfl) fun u q hw => ?_).mono (fun _ _ => id) hover
    refine ((Move.edit (.stop p t)).waits hw).imp_left fun e => ?_
    cases e
    exact ⟨rfl, rfl⟩
  · have hwaits : ∀ u q, (m.apply x).Waits u q → x.Waits u q :=
      fun u q hw => (m.waits hw).resolve_left fun e => hs ⟨q, u, e⟩
    by_cases ho : ∃ p t, m = .edit (.override p t)
    · obtain ⟨p, t, rfl⟩ := ho
      obtain ⟨⟨hrel, hst, -⟩, -⟩ := hm
      have hready : (x.task t).tStopper = none :=
        (O.statuses t hrel.member).active_iff.mp hst
      refine (O.order.hold (r := p) (t := t) (fun q hq => ?_) fun q u hq => ?_).mono hwaits
        fun _ _ => id
      · cases hready.symm.trans hq.2
      · refine ((Move.edit (.override p t)).overrides hq).imp_left fun e => ?_
        cases e
        exact ⟨rfl, rfl⟩
    · exact O.order.mono hwaits fun q u hq => (m.overrides hq).resolve_left fun e => ho ⟨q, u, e⟩

/-! ### Calls -/

/-- The moves of a call that stops tasks. -/
def Call.Stops (s : State k) (c : Call k) : Move k → Prop
  | .edit e => match e with
      | .stop p t => (∃ h, c.blocks s = some (p, h) ∧ (s.thread h).tTask = some t) ∨
          ∃ d, c = .pauseProcess d ∧ p = pPrim d
      | .processStatus _ _ => True
      | _ => False
  | .report _ | .assign _ _ | .idle _ => True
  | _ => False

/-- A task that such a move leaves without a stopper had none. -/
theorem Call.Stops.tStopper {m : Move k} (hm : c.Stops s m)
    (hnone : ((m.apply x).task t).tStopper = none) : (x.task t).tStopper = none := by
  have hs : (m.pointers x.pointers).tStopper t = none := m.apply_pointers x ▸ hnone
  cases m with
  | edit e =>
      cases e with
      | stop p u =>
          by_cases htu : t = u
          · simp [Move.pointers, Edit.pointers, Pointers.stop, htu] at hs
          · simp only [Move.pointers, Edit.pointers, Pointers.stop, Function.update_of_ne htu] at hs
            exact hs
      | processStatus => exact hs
      | _ => cases hm
  | assign h u =>
      simp only [Move.pointers] at hs
      split at hs
      · exact hs
      · cases hu : x.pointers.tThread u <;> rw [hu] at hs <;> exact hs
  | report | idle => exact hs
  | _ => cases hm

/-- A call stops tasks, and does nothing else to the pointers, or it stops none. -/
theorem exec_stops (Z : Zones s.pointers T) (hprimed : s.Primed)
    (he : exec ⟨true, policy⟩ c s = .ok (r, s')) :
    Moves (fun _ m => c.Stops s m) s s' ∨ Moves (fun _ m => ∀ p t, m ≠ .edit (.stop p t)) s s' := by
  have hpolicy : Answers policy s fun _ m => c.Stops s m := fun x h t _ => by cases t <;> trivial
  have hquiet : Answers policy s fun (_ : State k) m => ∀ p t, m ≠ .edit (.stop p t) :=
    fun x h t _ p u e => by cases t <;> cases e
  have h0 : s.hooks <:+ s.hooks := List.suffix_rfl
  have hnone : (∀ q h, c.blocking ≠ some (q, h)) → (∀ d, c ≠ .pauseProcess d) →
      Moves (fun _ m => ∀ p t, m ≠ .edit (.stop p t)) s s' := by
    rintro hblock hpause
    refine (exec_moves Z hprimed he).mono fun x m hmakes p t e => ?_
    subst e
    rcases hmakes with ⟨h, hc, -⟩ | ⟨d, hc, -⟩
    · exact hblock p h hc
    · exact hpause d hc
  cases c with
  | stopThread q h =>
      exact .inl (.stopThread hpolicy h0 (fun _ ht => .inl ⟨h, rfl, ht⟩) (fun _ => trivial)
        (void_eq_ok.mp he).2)
  | pauseProcess d =>
      obtain ⟨-, s₁, h₁, rfl⟩ := schedPauseProcess_ok.mp (void_eq_ok.mp he).2
      have M₁ : Moves (fun _ m => (Call.pauseProcess d).Stops s m) s s₁ := Moves.forEachNode h0
        (fun hx hb => Moves.pauseTask hpolicy hx (fun _ _ => .inr ⟨d, rfl, rfl⟩) hb) h₁
      exact .inl (M₁.step (.edit (.processStatus d schedStatusStopped)) ⟨trivial, trivial⟩ trivial)
  | mutexLock q h =>
      rcases schedMutexLock_ok.mp (void_eq_ok.mp he).2 with ⟨hn, he⟩ | ⟨-, he⟩
      · exact .inl (.stopThread hpolicy h0 (fun _ ht => .inl ⟨h, if_pos hn, ht⟩) (fun _ => trivial) he)
      · exact .inr (.acquire hquiet h0 (fun _ _ _ => nofun) (fun _ _ _ _ => nofun)
          (fun _ _ _ _ => nofun) he)
  | semTake q h =>
      rcases schedSemTake_ok.mp (void_eq_ok.mp he).2 with ⟨hn, he⟩ | ⟨-, he⟩
      · exact .inl (.stopThread hpolicy h0 (fun _ ht => .inl ⟨h, if_pos hn, ht⟩) (fun _ => trivial) he)
      · exact .inr (.takeOwnership (fun _ _ _ => nofun) he)
  | _ => exact .inr (hnone (by simp [Call.blocking]) (by simp))

/-- **One call.** -/
theorem exec_ordered (O : s.OrderOk rank) (Z : Zones s.pointers T) (hprimed : s.Primed)
    (hc : StopsInOrder rank hist s c) (he : exec ⟨true, policy⟩ c s = .ok (r, s')) : s'.OrderOk rank := by
  rcases exec_stops Z hprimed he with M | M
  · -- what the call reads of the processes and of the overrides does not change meanwhile, and a
    -- task that it finds active was active
    have hactive : ∀ t, (s.task t).tProcess ≠ none → (s.task t).tStopper = none →
        (s.task t).tStatus = schedStatusActive := fun t ht => (O.statuses t ht).active_iff.mpr
    refine (M.keeps (I := fun x => x.OrderOk rank ∧ (∀ q t, x.Overrides q t → s.Overrides q t) ∧
      (∀ t, (x.task t).tProcess = (s.task t).tProcess) ∧
      (∀ t, (x.task t).tStopper = none → (s.task t).tStopper = none) ∧
      ∀ p, (x.prim p).pProcess = (s.prim p).pProcess)
      (fun {x} m ⟨O, hover, htask, hready, hprim⟩ hm ha => ?_)
      ⟨O, fun _ _ => id, fun _ => rfl, fun _ => id, fun _ => rfl⟩).1
    have hstop : ∀ p t, m = .edit (.stop p t) → ∀ q, x.Overrides q t → rank q < rank p := by
      rintro p t rfl q hq
      obtain ⟨⟨hrel, -, hnone⟩, -⟩ := hm
      refine hc p t (ha.imp_right ?_) q (hover q t hq)
      rintro ⟨d, hd, hp⟩
      refine ⟨d, hd, hp, (hprim p).symm.trans (hrel.same.trans (htask t)), ?_⟩
      exact hactive t (htask t ▸ hrel.member) (hready t hnone)
    refine ⟨O.move m hm hstop, fun q t hq => ?_, fun t => ?_,
      fun t ht => hready t (Call.Stops.tStopper ha ht), fun p => ?_⟩
    · refine hover q t ((m.overrides hq).resolve_left ?_)
      rintro rfl
      exact ha
    · refine (m.apply_tProcess x fun d e => ?_).trans (htask t)
      subst e
      exact ha
    · refine (m.apply_pProcess x fun d e => ?_).trans (hprim p)
      subst e
      exact ha
  · refine M.keeps (I := fun x => x.OrderOk rank) (fun {x} m O hm ha => ?_) O
    exact O.move m hm fun p t e => absurd e (ha p t)

/-- **Every run.** -/
theorem reach_ordered (hr : Reach policy (StopsInOrder rank) hist s) : s.OrderOk rank := by
  induction hr with
  | start hs => exact ⟨fun p q t ho hw => absurd (hs.task t) hw.1, fun t ht => absurd (hs.task t) ht⟩
  | call hr hg he ih => exact exec_ordered ih (reach_zones hr).1 (reach_zones hr).2 hg he

/-- **Primitives that are waited for in order lead to no circular wait**: for every policy and every order of
the primitives, and whatever is registered and unregistered. -/
theorem ordered_no_deadlock (rank : PrimId k → ρ) (hr : Reach policy (StopsInOrder rank) hist s) :
    (∀ t, ¬Relation.TransGen s.BlockedBy t t) ∧
      ∀ t, ∃ u, Relation.ReflTransGen s.BlockedBy t u ∧ ∀ v, ¬s.BlockedBy u v :=
  ⟨(reach_ordered hr).order.acyclic, (reach_ordered hr).order.ends⟩

/-- The other primitives in their order, the primitives of processes last. -/
def byNumber : PrimId small → ℕ
  | .other i => i
  | .ofProcess _ => 2

set_option maxRecDepth 10000 in
/-- The task 2 waits for the task 1, which waits for the task 0. -/
theorem ordered_no_deadlock_run : ∃ s : State small, s.BlockedBy 2 1 ∧ s.BlockedBy 1 0 ∧
    ∀ t, ¬Relation.TransGen s.BlockedBy t t := by
  obtain ⟨hist, s, hr, htest⟩ := @exists_reach_of_replay _ _ _ _ Boot _ (exec ⟨true, quiet⟩)
    (StopsInOrder byNumber) inferInstance boot_smallBoot
    (fun _ s => s.Waits 2 (.other 0) ∧ s.Overrides (.other 0) 1 ∧ s.Waits 1 (.other 1) ∧
      s.Overrides (.other 1) 0)
    (smallSetup ++ [.mutexCtor (.other 0) 0, .mutexCtor (.other 1) 0, .assignTask 0 (some 0),
      .assignTask 1 (some 1), .assignTask 2 (some 2), .mutexLock (.other 1) 0, .mutexLock (.other 0) 1,
      .mutexLock (.other 1) 1, .mutexLock (.other 0) 2]) (by decide +kernel)
  obtain ⟨hw, ho, hw', ho'⟩ := of_decide_eq_true htest
  exact ⟨s, ⟨_, hw, ho⟩, ⟨_, hw', ho'⟩, (ordered_no_deadlock byNumber hr).1⟩

end KernelTk.Sched
