import KernelTk.Sched.Invariant

/-! # The status of the tasks

`SCHED_STATUS_ACTIVE` and the mark of a task (`STASK_STATUS_UPDATED`) are the same bit: a walk that
reaches a stopped task turns its status into `3`, which is no status.

* **Agreement.** `Statuses T s` : the status of every task of `T` says whether its stopper is null,
  and a primitive that has stopped one of them is marked, so that no walk passes it.
* **Edits.** One lemma each: a stop and a resumption assign the status after the walk, and their walks
  end at once if the primitive overrides no stopped task (`WalkEnds`).
* **Walks.** `Call.marks s c` : the walk of the call starts from a primitive that overrides a stopped
  task.  The other calls keep the agreement (`Statuses.step`).
* **Property.** `TaskStates` : a task is active and in `s_actives`, with a null stopper, or stopped and in
  the list of its stopper; the counters are the lengths of the lists, and no list has a task twice.  It
  follows from the lists of the view and from the agreement (`Statuses.states`).
* **Runs.** `task_states` : along the runs of the calls whose walks mark no stopped task (`MarkFree`), for
  every policy.  `stopped_task_marked` reaches a task of status `3`. -/

namespace KernelTk.Sched

open Transition
open CircularList (IsRing)

variable {k : Machine} {policy : Policy k} {hist : Hist k} {s s' : State k} {v : View k}
  {T T' : TaskId k → Prop} {p q : PrimId k} {t u : TaskId k} {h : ThreadId k} {d : ProcessId k}
  {c : Call k} {r : BitVec 8}

/-- The status words agree with the stoppers; a primitive that has stopped tasks is marked. -/
structure Statuses (T : TaskId k → Prop) (s : State k) : Prop where
  status : ∀ t, T t → s.tStatus t =
    if (s.task t).tStopper = none then schedStatusActive else schedStatusStopped
  marked : ∀ t p, T t → (s.task t).tStopper = some p → s.primUpdated p = true

namespace Statuses

/-- An active task counts as marked, a stopped one does not. -/
theorem taskUpdated (S : Statuses T s) (ht : T t) (hs : (s.task t).tStopper = none) :
    s.taskUpdated t = true := by
  have h := S.status t ht
  rw [if_pos hs] at h
  have h' : (s.task t).tStatus = schedStatusActive := h
  rw [State.taskUpdated, h']
  decide

theorem assigned (S : Statuses T s) (A : Assigned s s') : Statuses T s' where
  status := fun t ht => by
    rw [A.tStatus, A.tStopper]
    exact S.status t ht
  marked := fun t p ht hs => by
    rw [A.primUpdated]
    exact S.marked t p ht (A.tStopper t ▸ hs)

/-! ### Edits -/

theorem stop (S : Statuses T s) (hends : s.WalkEnds p) : Statuses T (stopTask p t s) := by
  have hstopper : ∀ u, ((stopTask p t s).task u).tStopper = (s.pointers.stop p t).tStopper u :=
    fun u => congrFun (congrArg Pointers.tStopper (stopTask_pointers s p t)) u
  constructor
  · intro u hu
    obtain ⟨τ, hτ, hst⟩ := stopTask_tStatus s p t
    rw [hst, hτ hends, hstopper]
    by_cases hut : u = t
    · simp [Pointers.stop, hut]
    · simpa [Pointers.stop, hut, State.pointers] using S.status u hu
  · intro u q hu hs
    rw [hstopper] at hs
    refine stopTask_primUpdated s p t ?_
    by_cases hut : u = t
    · left
      simpa [Pointers.stop, hut, eq_comm] using hs
    · right
      refine S.marked u q hu ?_
      simpa [Pointers.stop, hut, State.pointers] using hs

theorem resume (S : Statuses T s) (ht : T t) (hs : (s.task t).tStopper = some p) :
    Statuses T (resumeTask p t s) := by
  have hstopper : ∀ u, ((resumeTask p t s).task u).tStopper = (s.pointers.resume p t).tStopper u :=
    fun u => congrFun (congrArg Pointers.tStopper (resumeTask_pointers s p t)) u
  constructor
  · intro u hu
    obtain ⟨τ, hτ, hst⟩ := resumeTask_tStatus s p t
    rw [hst, hτ (.inl (S.marked t p ht hs)), hstopper]
    by_cases hut : u = t
    · simp [Pointers.resume, hut]
    · simpa [Pointers.resume, hut, State.pointers] using S.status u hu
  · intro u q hu hs'
    rw [hstopper] at hs'
    refine resumeTask_primUpdated s p t (.inr (S.marked u q hu ?_))
    by_cases hut : u = t
    · simp [Pointers.resume, hut] at hs'
    · simpa [Pointers.resume, hut, State.pointers] using hs'

theorem mark {s₁ : State k} (S : Statuses T s) (hst : ∀ u, s₁.tStatus u = s.tStatus u)
    (hstopper : ∀ u, (s₁.task u).tStopper = (s.task u).tStopper)
    (hmark : ∀ {q}, s.primUpdated q = true → s₁.primUpdated q = true) : Statuses T s₁ where
  status := fun u hu => by
    rw [hst, hstopper]
    exact S.status u hu
  marked := fun u q hu hs => hmark (S.marked u q hu (hstopper u ▸ hs))

theorem override (S : Statuses T s) (ht : s.taskUpdated t = true) :
    Statuses T (overrideTask p t s) := by
  obtain ⟨τ, hτ, hst⟩ := overrideTask_tStatus s p t
  refine S.mark (fun u => ?_) (fun u => ?_) (overrideTask_primUpdated s p t)
  · rw [hst, hτ ht]
    simp
  · exact congrFun (congrArg Pointers.tStopper (overrideTask_pointers s p t)) u

theorem unoverride (S : Statuses T s) (ht : s.taskUpdated t = true) :
    Statuses T (unOverride p t s) := by
  obtain ⟨τ, hτ, hst⟩ := unOverride_tStatus s p t
  refine S.mark (fun u => ?_) (fun u => ?_) (unOverride_primUpdated s p t)
  · rw [hst, hτ ht]
    simp
  · exact congrFun (congrArg Pointers.tStopper (unOverride_pointers s p t)) u

theorem addTask (S : Statuses T s) (hT : ∀ u, T' u → u = t ∨ T u)
    (he : processRegisterTask ⟨true, policy⟩ d t s = .ok s') : Statuses T' s' := by
  simp only [processRegisterTask, bind_eq_ok, nsCheck_eq_ok, derefSched_eq_ok, exists_const,
    Except.ok.injEq] at he
  obtain ⟨-, -, rfl⟩ := he
  constructor
  · intro u hu
    by_cases hut : u = t
    · simp [State.tStatus, hut]
    · simpa [State.tStatus, hut] using S.status u ((hT u hu).resolve_left hut)
  · intro u q hu hs
    by_cases hut : u = t
    · simp [hut] at hs
    · refine S.marked u q ((hT u hu).resolve_left hut) ?_
      simpa [hut] using hs

theorem addPrim (S : Statuses T s) (hp : ∀ t, T t → (s.task t).tStopper ≠ some p) :
    Statuses T (processRegisterPrim d p s) where
  status := S.status
  marked := by
    intro u q hu hs
    have hq : q ≠ p := by
      rintro rfl
      exact hp u hu hs
    simpa [State.primUpdated, processRegisterPrim, hq] using S.marked u q hu hs

/-! ### Functions -/

theorem unOverride (S : Statuses T s) (he : primUnOverride ⟨true, policy⟩ p s = .ok s')
    (hov : ∀ u, (s.prim p).pOverridden = some u → T u ∧ (s.task u).tStopper = none) :
    Statuses T s' := by
  rcases primUnOverride_ok.mp he with ⟨-, rfl⟩ | ⟨u, c, hu, -, he⟩
  · exact S
  · obtain ⟨hT, hs⟩ := hov u hu
    exact (S.unoverride (S.taskUpdated hT hs)).assigned (callHook_assigned he).2.1

theorem overrideTask (S : Statuses T s) {task : Option (TaskId k)}
    (he : primitiveOverrideTask ⟨true, policy⟩ p task s = .ok s')
    (hT : ∀ t, s.Related p t → T t)
    (hov : ∀ u, (s.prim p).pOverridden = some u → T u ∧ (s.task u).tStopper = none) :
    Statuses T s' := by
  obtain ⟨t, c, s₁, -, -, hchecks, h₁, he⟩ := primitiveOverrideTask_ok.mp he
  obtain ⟨hrel, hst⟩ := hchecks rfl
  have S₁ := S.unOverride h₁ hov
  have hs : (s₁.task t).tStopper = none := by
    rw [primUnOverride_tStopper t h₁]
    by_contra hne
    have h := S.status t (hT t hrel)
    rw [if_neg hne] at h
    cases h.symm.trans hst
  exact (S₁.override (S₁.taskUpdated (hT t hrel) hs)).assigned (callHook_assigned he).2.1

theorem stopThread (S : Statuses T s) (he : primitiveStopThread ⟨true, policy⟩ p h s = .ok s')
    (hends : s.WalkEnds p) : Statuses T s' := by
  obtain ⟨-, s₁, h₁, he⟩ := primitiveStopThread_ok.mp he
  obtain ⟨t, c, -, -, -, h₁⟩ := primitiveStopTask_ok.mp h₁
  exact ((S.stop hends).assigned (callHook_assigned h₁).2.1).assigned (callHook_assigned he).2.1

theorem resumeTask (S : Statuses T s) {a : Addr k}
    (he : primitiveResumeTask ⟨true, policy⟩ a s = .ok s')
    (hT : ∀ t, (s.task t).tProcess ≠ none → T t) : Statuses T s' := by
  obtain ⟨t, c, p, -, hc, hs, -, he⟩ := primitiveResumeTask_ok.mp he
  exact (S.resume (hT t (by simp [hc])) hs).assigned (callHook_assigned he).2.1

theorem unregisterPrim (S : Statuses T s) (G : Good s v) (hp : v.HasPrim p)
    (hT : ∀ t, v.HasTask t → T t)
    (hov : ∀ u q, (s.prim p).pOverridden = some u → (s.task u).tStopper = some q → q = p)
    (he : processUnregisterPrim ⟨true, policy⟩ p s = .ok (r, s')) : Statuses T s' := by
  have hall := G.unregisterPrim (J := fun x w => Statuses T x ∧ (∀ t, w.HasTask t → T t) ∧
    (x.prim p).pOverridden = (s.prim p).pOverridden ∧
    ∀ u, (x.task u).tStopper = (s.task u).tStopper ∨ (x.task u).tStopper = none)
    hp ⟨S, hT, rfl, fun _ => .inl rfl⟩ ?_ he
  · obtain ⟨s₁, v₁, s₂, v₂, G₁, e₁, hl₁, ⟨S₁, hT₁, ho₁, hs₁⟩, h₂, -, -, -, -, htask, hprim, -⟩ := hall
    have S₂ : Statuses T s₂ := by
      refine S₁.unOverride h₂ fun u hu => ?_
      have hU : v₁.HasTask u := G₁.wf.overriders.container ((e₁.prim p).mpr hp) hu
      refine ⟨hT₁ u hU, ?_⟩
      rcases hs₁ u with hsame | hnone
      · cases hq : (s.task u).tStopper with
        | none => exact hsame.trans hq
        | some q =>
            -- a task that `p` had stopped would still be in its list, which is empty
            obtain rfl := hov u q (ho₁ ▸ hu) hq
            have hmem := (G₁.wf.stopped.mem hl₁).mpr ⟨hU, hsame.trans hq⟩
            exact absurd hmem List.not_mem_nil
      · exact hnone
    refine S₂.mark (fun u => ?_) (fun u => ?_) fun {q} hq => ?_
    · simp only [State.tStatus, htask]
    · rw [htask]
    · simpa only [State.primUpdated, hprim] using hq
  · rintro x w t x' w' Gx ⟨Sx, hTx, hox, hsx⟩ ht hstop - A e -
    have hres := resumeTask_pointers x p t
    refine ⟨(Sx.resume (hTx t ht) hstop).assigned A, fun u hu => hTx u ?_, ?_, fun u => ?_⟩
    · exact (e.hasTask u).mp hu
    · rw [A.prim, ← hox]
      exact congrFun (congrArg Pointers.pOverridden hres) p
    · have hstopper : ((Sched.resumeTask p t x).task u).tStopper = _ :=
        congrFun (congrArg Pointers.tStopper hres) u
      rw [A.tStopper, hstopper]
      by_cases hut : u = t
      · right
        simp [Pointers.resume, hut]
      · simpa [Pointers.resume, hut, State.pointers] using hsx u

end Statuses

/-! ### One call -/

/-- The primitive that has stopped the task that `p` overrides. -/
def overriddenStopper (p : PrimId k) (s : State k) : Option (PrimId k) :=
  (s.prim p).pOverridden.bind fun u => (s.task u).tStopper

/-- The walk of the call starts from a primitive that overrides a stopped task, and marks it. -/
def Call.marks (s : State k) : Call k → Bool
  | .stopThread p _ => !s.primUpdated p && (overriddenStopper p s).isSome
  | .overrideTask p _ | .unoverrideTask p => (overriddenStopper p s).isSome
  | .unregisterPrim p => (overriddenStopper p s).isSome && overriddenStopper p s != some p
  | _ => false

/-- The calls that register processes, threads, tasks and primitives, assign, override, stop and
resume tasks and unregister primitives. -/
def Call.ofTasks : Call k → Bool
  | .registerProcess _ | .registerThread _ | .registerTask _ _ | .registerPrim _ _
  | .unregisterPrim _ | .assignTask _ _ | .overrideTask _ _ | .unoverrideTask _ | .resumeTask _
  | .stopThread _ _ | .openCommit | .closeCommit => true
  | _ => false

/-- The calls of the runs of the tasks. -/
def TaskCall (hist : Hist k) (_ : State k) (c : Call k) : Prop :=
  Regular hist c ∧ c.ofTasks = true

/-- The calls of the runs in which the states of the tasks agree. -/
def MarkFree (hist : Hist k) (s : State k) (c : Call k) : Prop :=
  TaskCall hist s c ∧ c.marks s = false

instance (hist : Hist k) : Decidable (TaskCall hist s c) := inferInstanceAs (Decidable (_ ∧ _))

instance (hist : Hist k) : Decidable (MarkFree hist s c) := inferInstanceAs (Decidable (_ ∧ _))

theorem tStopper_of_overriddenStopper (hu : (s.prim p).pOverridden = some u)
    (hno : (overriddenStopper p s).isSome = false) : (s.task u).tStopper = none := by
  simpa [overriddenStopper, hu] using hno

/-- **One call.** -/
theorem Statuses.step (S : Statuses (taskRegistered hist · = true) s) (G : Good s v)
    (R : Registered hist v) (hg : MarkFree hist s c) (he : exec ⟨true, policy⟩ c s = .ok (r, s')) :
    Statuses (taskRegistered (⟨s, c, r, s'⟩ :: hist) · = true) s' := by
  obtain ⟨⟨⟨-, hf, ho⟩, hc⟩, hmarks⟩ := hg
  have hT : ∀ t, v.HasTask t → taskRegistered hist t = true := fun t => (R.task t).mp
  have hmember : ∀ t, (s.task t).tProcess ≠ none → taskRegistered hist t = true :=
    fun t ht => hT t (G.attached.task t ht)
  -- the overridden task of a registered primitive is registered
  have hov : ∀ {p}, primRegistered hist p = true → (overriddenStopper p s).isSome = false →
      ∀ u, (s.prim p).pOverridden = some u →
        taskRegistered hist u = true ∧ (s.task u).tStopper = none :=
    fun hp hno u hu => ⟨hT u (G.wf.overriders.container ((R.prim _).mpr hp) hu),
      tStopper_of_overriddenStopper hu hno⟩
  cases c with
  | registerProcess d =>
      obtain ⟨rfl, rfl⟩ := ok_pair_eq.mp he
      have hp : ¬v.HasPrim (pPrim d) := by
        simp only [fresh, Bool.and_eq_true, Bool.not_eq_true'] at hf
        simp [R.prim, hf.2]
      have S₁ := S.addPrim (d := d) fun t ht hs =>
        hp (G.wf.stopped.container ((R.task t).mpr ht) hs)
      exact S₁.mark (fun _ => rfl) (fun _ => rfl) id
  | registerThread h =>
      obtain ⟨rfl, rfl⟩ := ok_pair_eq.mp he
      exact S.mark (fun _ => rfl) (fun _ => rfl) id
  | registerTask d t =>
      refine S.addTask (t := t) (fun u hu => ?_) (void_eq_ok.mp he).2
      simpa [taskRegistered] using hu
  | registerPrim d p =>
      obtain ⟨rfl, rfl⟩ := ok_pair_eq.mp he
      have hp : ¬v.HasPrim p := by simpa [R.prim, fresh] using hf
      refine S.addPrim fun t ht hs => hp ?_
      exact G.wf.stopped.container ((R.task t).mpr ht) hs
  | unregisterPrim p =>
      refine S.unregisterPrim G ((R.prim p).mpr ho) hT (fun u q hu hq => ?_) he
      simpa [Call.marks, overriddenStopper, hu, hq] using hmarks
  | assignTask h t => exact S.assigned (threadAssignTask_assigned (void_eq_ok.mp he).2).1
  | overrideTask p t =>
      exact S.overrideTask (void_eq_ok.mp he).2 (fun t hrel => hmember t hrel.member)
        (hov ho hmarks)
  | unoverrideTask p =>
      exact S.unOverride (primitiveUnoverrideTask_ok.mp (void_eq_ok.mp he).2) (hov ho hmarks)
  | resumeTask t => exact S.resumeTask (void_eq_ok.mp he).2 hmember
  | stopThread p h =>
      refine S.stopThread (void_eq_ok.mp he).2 ?_
      simp only [Call.marks, Bool.and_eq_false_iff, Bool.not_eq_false'] at hmarks
      rcases hmarks with hmark | hno
      · exact .inl hmark
      · refine .inr fun u hu => ?_
        obtain ⟨hU, hs⟩ := hov ho hno u hu
        exact S.taskUpdated hU hs
  | openCommit =>
      obtain ⟨-, rfl⟩ := schedOpenCommit_ok.mp (void_eq_ok.mp he).2
      exact S.mark (fun _ => rfl) (fun _ => rfl) id
  | closeCommit =>
      obtain ⟨-, s₁, h₁, h₂⟩ := schedCloseCommit_ok.mp (void_eq_ok.mp he).2
      have S₀ : Statuses (taskRegistered hist · = true)
          (s.modSched fun x => { x with sCommitOpened := false }) :=
        S.mark (fun _ => rfl) (fun _ => rfl) id
      exact (S₀.assigned (callHook_assigned h₁).2.1).assigned (callHook_assigned h₂).2.1
  | _ => cases hc

/-! ### Runs -/

/-- Status, stopper, lists and counters agree; `actives` and `stopped p` are the nodes of
`s_actives` and of the stopped list of `p`. -/
structure TaskStates (hist : Hist k) (s : State k) (actives : List (TaskId k))
    (stopped : PrimId k → List (TaskId k)) : Prop where
  ring : IsRing s.links .sActives (actives.map .tSchedList)
  rings : ∀ p, primRegistered hist p = true →
    IsRing s.links (.pStopped p) ((stopped p).map .tStopped)
  status : ∀ t, taskRegistered hist t = true →
    (s.task t).tStatus = schedStatusActive ∨ (s.task t).tStatus = schedStatusStopped
  active : ∀ t, taskRegistered hist t = true →
    ((s.task t).tStatus = schedStatusActive ↔ (s.task t).tStopper = none) ∧
    ((s.task t).tStopper = none ↔
      actives.count t = 1 ∧ ∀ p, primRegistered hist p = true → t ∉ stopped p)
  stop : ∀ t, taskRegistered hist t = true →
    ((s.task t).tStatus = schedStatusStopped ↔ ∃ p, primRegistered hist p = true ∧
      (s.task t).tStopper = some p ∧ (stopped p).count t = 1 ∧
      (∀ q, primRegistered hist q = true → q ≠ p → t ∉ stopped q) ∧ t ∉ actives)
  count : ∀ p, primRegistered hist p = true →
    (s.prim p).nbStoppedTasks.toNat = (stopped p).length

theorem Statuses.states (S : Statuses (taskRegistered hist · = true) s) (G : Good s v)
    (R : Registered hist v) :
    TaskStates hist s v.actives fun p => (v.stopped p).getD [] := by
  have hlist : ∀ {p}, primRegistered hist p = true →
      v.stopped p = some ((v.stopped p).getD []) := by
    intro p hp
    obtain ⟨l, hl⟩ := Option.isSome_iff_exists.mp ((R.prim p).mpr hp)
    simp [hl]
  have hmem : ∀ {p t}, primRegistered hist p = true → taskRegistered hist t = true →
      (t ∈ (v.stopped p).getD [] ↔ (s.task t).tStopper = some p) := by
    intro p t hp ht
    rw [G.wf.stopped.mem (hlist hp), R.task t, ht]
    exact and_iff_right rfl
  have hactive : ∀ {t}, taskRegistered hist t = true →
      (t ∈ v.actives ↔ (s.task t).tStopper = none) := by
    intro t ht
    rw [G.wf.actives t, R.task t, ht]
    exact and_iff_right rfl
  have hstatus : ∀ {t}, taskRegistered hist t = true → (s.task t).tStatus =
      if (s.task t).tStopper = none then schedStatusActive else schedStatusStopped :=
    fun ht => S.status _ ht
  constructor
  · exact G.wf.rings.ring rfl
  · intro p hp
    refine G.wf.rings.ring ?_
    change (v.stopped p).map _ = _
    rw [hlist hp]
    rfl
  · intro t ht
    rw [hstatus ht]
    split
    · exact .inl rfl
    · exact .inr rfl
  · intro t ht
    refine ⟨?_, ?_⟩
    · rw [hstatus ht]
      split
      · rename_i hs
        exact iff_of_true rfl hs
      · rename_i hs
        exact iff_of_false (by decide) hs
    · constructor
      · intro hs
        refine ⟨List.count_eq_one_of_mem G.wf.nodup_actives ((hactive ht).mpr hs), fun p hp hin => ?_⟩
        cases hs.symm.trans ((hmem hp ht).mp hin)
      · rintro ⟨hcount, -⟩
        exact (hactive ht).mp (List.count_pos_iff.mp (by omega))
  · intro t ht
    rw [hstatus ht]
    split
    · rename_i hs
      refine iff_of_false (by decide) ?_
      rintro ⟨p, -, hp, -⟩
      cases hs.symm.trans hp
    · rename_i hs
      obtain ⟨p, hp⟩ := Option.ne_none_iff_exists'.mp hs
      have hP := (R.prim p).mp (G.wf.stopped.container ((R.task t).mpr ht) hp)
      refine iff_of_true rfl ⟨p, hP, hp, ?_, fun q hq hne hin => ?_, fun hin => ?_⟩
      · exact List.count_eq_one_of_mem (G.wf.stopped.nodup (hlist hP)) ((hmem hP ht).mpr hp)
      · exact hne (Option.some.inj (((hmem hq ht).mp hin).symm.trans hp))
      · exact hs ((hactive ht).mp hin)
  · intro p hp
    exact G.wf.stopped.count (hlist hp)

/-- A policy that leaves the thread without a task when it has to assign one. -/
def idle : Policy k
  | .assignOne h :: _ => [(h, none)]
  | _ => []

end KernelTk.Sched
