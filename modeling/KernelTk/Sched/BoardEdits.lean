import KernelTk.Sched.Activity
import KernelTk.Sched.Represents

/-! # The assignments are edits of the board

The assignments of every function of `sched.c`, without its checks, are the edit of the board that has its
name.

* **Queues.** `Represents.stop`, `Represents.resume`, `Represents.release`, `Represents.override` :
  the lists, and what the walks mark.  The word of a task is written before the walk that starts from
  it in one case, and after it in another; `Represents.stop_marks`, `Represents.resume_marks` and
  `Represents.release_marks` say what the marks are at the end.
* **Frame.** `Represents.framed` : the edits that leave the queues and the marks, such as the
  assignment of a task to a thread (`Represents.run`) and the counters (`Represents.take`,
  `Represents.giveBack`).  `SameLists` says that two boards have the same queues, marks and pointers.
* **Registrations.** `Represents.addTask`, `Represents.addPrim`, ... : the new object of the memory is
  the new object of the board, and no path leads to it yet.
* **Invariant.** Each lemma also proves that the next board is sound, so that a simulation is a chain of
  them. -/

namespace KernelTk.Sched

variable {k : Machine} {policy : Policy k} {s s' : State k} {b b' : Board k} {v : View k}
  {p q : PrimId k} {t u : TaskId k} {h g : ThreadId k} {c d : ProcessId k} {o x : PrimId k ⊕ TaskId k}

/-! ### Queues -/

namespace Board

theorem Sound.congr (S : b.Sound) (hw : ∀ q, b'.waiting q ≠ none → b.waiting q ≠ none)
    (hplaces : b'.places = b.places) (hrunning : b'.running = b.running) : b'.Sound := by
  have hhome : b'.home = b.home := congrArg Places.home hplaces
  have howner : b'.owner = b.owner := congrArg Places.owner hplaces
  have hoverrides : b'.overrides = b.overrides := congrArg Places.overrides hplaces
  have hthreads : b'.threads = b.threads := congrArg Places.threads hplaces
  constructor
  · intro p hp
    rw [howner]
    exact S.owner p (hw p hp)
  · intro p t hp ht
    rw [Shares, hhome, howner]
    exact S.shares p t (hw p hp) (hoverrides ▸ ht)
  · intro h t hh ht
    rw [hhome]
    exact S.runs h t (hthreads ▸ hh) (hrunning ▸ ht)

/-- The queues, the marks and the pointers of the two boards are the same. -/
structure SameLists (b b' : Board k) : Prop where
  ready : b'.ready = b.ready
  members : b'.members = b.members
  waiting : b'.waiting = b.waiting
  marked : b'.marked = b.marked
  places : b'.places = b.places

theorem waiting_stop : (b.stop p t).waiting q = none ↔ b.waiting q = none := by
  by_cases hq : q = p
  · subst hq
    simp [stop]
  · simp [stop, hq]

theorem waiting_resume : (b.resume t).waiting q = none ↔ b.waiting q = none := by simp [resume]

end Board

theorem assignTask_tThread (h : ThreadId k) (t u : TaskId k) (s : State k) :
    ((assignTask h t s).task u).tThread = if u = t then some h else (s.task u).tThread := by
  have e := congrFun (congrArg Pointers.tThread (assignTask_pointers h t s)) u
  refine Eq.trans e ?_
  by_cases hth : (s.task t).tThread = some h
  · rw [if_pos hth]
    by_cases hu : u = t
    · subst hu
      rw [if_pos rfl]
      exact hth
    · rw [if_neg hu]
      rfl
  · rw [if_neg hth, threadTransferTask_pointers]
    by_cases hu : u = t
    · simp [Pointers.enter, hu]
    · simp only [Pointers.enter, Function.update_of_ne hu, if_neg hu]
      cases ho : (s.task t).tThread with
      | none => simp [threadUnregisterTask, ho, State.pointers]
      | some g =>
          rw [threadUnregisterTask_pointers ho]
          simp [Pointers.leave, hu, State.pointers]

namespace Represents

section edits
variable (R : Represents s b)
include R

theorem edited (hlists : ∃ v, Good s' v ∧ SameQueues b' v) (hplaces : s'.pointers.places = b'.places)
    (hledger : s'.ledger = s.ledger) (htally : b'.tally = b.tally)
    (hstatus : ∀ t, b'.home t ≠ none → s'.tStatus t = b'.status t)
    (hmarks : ∀ p, b'.waiting p ≠ none → (s'.primUpdated p = true ↔ .inl p ∈ b'.marked))
    (hmembers : b'.members = b.members) (hpaused : b'.paused = b.paused)
    (hthread : ∀ t, (s'.task t).tThread = (s.task t).tThread) (hthreads : b'.threads = b.threads)
    (hsound : b'.Sound) : Represents s' b' where
  lists := hlists
  places := hplaces
  tally := (congrArg Ledger.tally hledger).trans (R.tally.trans htally.symm)
  status := hstatus
  marks := hmarks
  paused := fun c hc => by
    have h₁ : (s'.process c).pStatus = (s.process c).pStatus :=
      congrFun (congrArg Ledger.pStatus hledger) c
    rw [h₁, R.paused c (hmembers ▸ hc), Board.processStatus, Board.processStatus, hpaused]
  thread := fun h t hh ht => by
    rw [hthread]
    have h₂ : b'.running = b.running := congrArg Tally.running htally
    exact R.thread h t (hthreads ▸ hh) (h₂ ▸ ht)
  sound := hsound

open scoped Classical in
/-- The status words and the marks after `primitive_stop_task`. -/
theorem stop_marks (hp : b.waiting p ≠ none) (ht : t ∈ b.ready) :
    (∀ u, (stopTask p t s).tStatus u = if u = t then schedStatusStopped
      else if .inr u ∈ b.reached (.inl p) then s.tStatus u ||| staskStatusUpdated
      else s.tStatus u) ∧
    ∀ q, (stopTask p t s).primUpdated q = true ↔
      .inl q ∈ b.reached (.inl p) ∨ s.primUpdated q = true := by
  have hs := (R.ready_iff.mp ht).2
  simp only [stopTask]
  generalize hs₁ : State.modPrim _ p _ = s₁
  have hst : ∀ u, (s₁.task u).tStatus = (s.task u).tStatus := by
    intro u
    by_cases hu : u = t <;> simp [← hs₁, hu]
  have hup : ∀ x, s₁.updated x = s.updated x := by
    intro x
    cases x with
    | inl q => by_cases hq : q = p <;> simp [← hs₁, State.updated, State.primUpdated, hq]
    | inr u => simp [State.updated, State.taskUpdated, hst]
  have habove : ∀ x y, b.Known x → y ≠ .inl p → (s₁.above x = some y ↔ s.above x = some y) := by
    intro x y _ hy
    cases x with
    | inl q => by_cases hq : q = p <;> simp [← hs₁, hq]
    | inr u =>
        by_cases hu : u = t
        · subst hu
          simp [← hs₁, hs, Ne.symm hy]
        · simp [← hs₁, hu]
  obtain ⟨hstatus, hprims⟩ :=
    R.walk_marks (o := .inl p) hp (primitivePropagateUpdate_walkTo p s₁) hup habove
  refine ⟨fun u => ?_, hprims⟩
  have hu := hstatus u
  by_cases hut : u = t
  · simp [State.tStatus, hut]
  · simp only [State.tStatus, State.modTask_task, State.modLinks_task, Function.update_of_ne hut,
      if_neg hut] at hu ⊢
    rw [hu, hst]

open scoped Classical in
/-- **`primitive_stop_task`** -/
theorem stop (hp : b.waiting p ≠ none) (hm : b.MayStop p t) :
    Represents (stopTask p t s) (b.stop p t) := by
  obtain ⟨⟨hshares, hready⟩, -⟩ := hm
  obtain ⟨v, G, Q⟩ := R.lists
  have hs := (R.ready_iff.mp hready).2
  have hrel := R.related_iff.mpr hshares
  obtain ⟨hstatus, hprims⟩ := R.stop_marks hp hready
  refine R.edited ⟨v.stop p t, ?_, ?_⟩ ?_ (stopTask_ledger s p t) rfl ?_ ?_ rfl rfl ?_ rfl ?_
  · exact G.stop (Q.hasPrim.mpr hp) ((R.hasTask_iff G).mpr hshares.1) hs hrel.same
  · exact ⟨congrArg (·.erase t) Q.actives, Q.tasks, by simp only [View.stop, Board.stop, Q.stopped]⟩
  · exact (congrArg Pointers.places (stopTask_pointers s p t)).trans R.places
  · intro u hu
    rw [hstatus u]
    by_cases hut : u = t
    · subst hut
      rw [if_pos rfl, eq_comm, Board.status_eq_stopped]
      refine ⟨?_, fun h => h.2 rfl⟩
      have hnodup : b.ready.Nodup := Q.actives ▸ G.wf.nodup_actives
      exact hnodup.not_mem_erase
    · rw [if_neg hut, R.status u hu]
      refine (Board.status_mark ?_ ?_).symm
      · exact List.mem_erase_of_ne hut
      · simp [Board.stop, hut]
  · intro q hq
    rw [hprims q, R.marks q (mt Board.waiting_stop.mpr hq)]
    simp [Board.stop, or_comm]
  · exact congrFun (congrArg Pointers.tThread (stopTask_pointers s p t))
  · exact R.sound.congr (fun q hq => mt Board.waiting_stop.mpr hq) rfl rfl

theorem resume_waiting (Q : SameQueues b v) (hs : (s.task t).tStopper = some p) :
    (v.resume p t).stopped = (b.resume t).waiting := by
  funext q
  by_cases hq : q = p
  · subst hq
    simp [View.resume, Board.resume, Q.stopped]
  · simp only [View.resume, Board.resume, Function.update_of_ne hq, Q.stopped]
    cases hl : b.waiting q with
    | none => rfl
    | some l =>
        have hmem : t ∉ l := by
          rw [R.waits_iff hl]
          rintro ⟨-, h⟩
          exact hq (Option.some.inj (h.symm.trans hs))
        rw [Option.map_some, List.erase_of_not_mem hmem]

/-- The one queue that a task waits in. -/
theorem above_task (ht : b.home t ≠ none) (hs : (s.task t).tStopper = some p) :
    b.Above (.inr t) (.inl q) ↔ q = p := by
  rw [← R.above_iff (x := .inr t) ht]
  simp [hs, eq_comm]

open scoped Classical in
theorem resume_marks (ht : b.home t ≠ none) (hs : (s.task t).tStopper = some p) :
    (∀ u, (resumeTask p t s).tStatus u = if u = t then schedStatusActive
      else if .inr u ∈ b.reached (.inl p) then s.tStatus u ||| staskStatusUpdated
      else s.tStatus u) ∧
    ∀ q, (resumeTask p t s).primUpdated q = true ↔
      .inl q ∈ b.reached (.inl p) ∨ s.primUpdated q = true := by
  obtain ⟨l, hl, -⟩ := R.exists_queue ht hs
  have hp : b.waiting p ≠ none := by simp [hl]
  simp only [resumeTask]
  generalize hs₁ : State.modPrim _ p _ = s₁
  have hst : ∀ u, (s₁.task u).tStatus = (s.task u).tStatus := by
    intro u
    by_cases hu : u = t <;> simp [← hs₁, hu]
  have hup : ∀ x, s₁.updated x = s.updated x := by
    intro x
    cases x with
    | inl q => by_cases hq : q = p <;> simp [← hs₁, State.updated, State.primUpdated, hq]
    | inr u => simp [State.updated, State.taskUpdated, hst]
  have habove : ∀ x y, b.Known x → y ≠ .inl p → (s₁.above x = some y ↔ s.above x = some y) := by
    intro x y _ hy
    cases x with
    | inl q => by_cases hq : q = p <;> simp [← hs₁, hq]
    | inr u =>
        by_cases hu : u = t
        · subst hu
          simp [← hs₁, hs, Ne.symm hy]
        · simp [← hs₁, hu]
  obtain ⟨hstatus, hprims⟩ :=
    R.walk_marks (o := .inl p) hp (primitivePropagateUpdate_walkTo p s₁) hup habove
  refine ⟨fun u => ?_, hprims⟩
  have hu := hstatus u
  by_cases hut : u = t
  · simp [State.tStatus, hut]
  · simp only [State.tStatus, State.modTask_task, Function.update_of_ne hut, if_neg hut] at hu ⊢
    rw [hu, hst]

open scoped Classical in
/-- **`primitive_resume_task`** -/
theorem resume (ht : b.home t ≠ none) (hs : (s.task t).tStopper = some p) :
    Represents (resumeTask p t s) (b.resume t) := by
  obtain ⟨v, G, Q⟩ := R.lists
  obtain ⟨hstatus, hprims⟩ := R.resume_marks ht hs
  have hreached : ∀ x, (∃ q, b.Above (.inr t) (.inl q) ∧ x ∈ b.reached (.inl q)) ↔
      x ∈ b.reached (.inl p) := by
    intro x
    simp only [R.above_task ht hs, exists_eq_left]
  refine R.edited ⟨v.resume p t, ?_, ?_⟩ ?_ (resumeTask_ledger s p t) rfl ?_ ?_ rfl rfl ?_ rfl ?_
  · exact G.resume ((R.hasTask_iff G).mpr ht) hs
  · exact ⟨congrArg (t :: ·) Q.actives, Q.tasks, R.resume_waiting Q hs⟩
  · exact (congrArg Pointers.places (resumeTask_pointers s p t)).trans R.places
  · intro u hu
    rw [hstatus u]
    by_cases hut : u = t
    · subst hut
      rw [if_pos rfl, eq_comm, Board.status_eq_active]
      exact List.mem_cons_self
    · rw [if_neg hut, R.status u hu]
      refine (Board.status_mark ?_ ?_).symm
      · simp [Board.resume, hut]
      · simp [Board.resume, hut, hreached]
  · intro q hq
    rw [hprims q, R.marks q (mt Board.waiting_resume.mpr hq)]
    simp [Board.resume, or_comm, hreached]
  · exact congrFun (congrArg Pointers.tThread (resumeTask_pointers s p t))
  · exact R.sound.congr (fun q hq => mt Board.waiting_resume.mpr hq) rfl rfl

open scoped Classical in
theorem release_marks (hp : b.waiting p ≠ none) (ho : b.overrides p = some t) :
    (∀ u, (unOverride p t s).tStatus u =
      if .inr u ∈ b.reached (.inr t) then s.tStatus u ||| staskStatusUpdated else s.tStatus u) ∧
    ∀ q, (unOverride p t s).primUpdated q = true ↔
      .inl q ∈ b.reached (.inr t) ∨ s.primUpdated q = true := by
  have ht := (R.sound.shares p t hp ho).1
  simp only [unOverride]
  generalize hs₁ : State.modTask _ t _ = s₁
  have hst : ∀ u, (s₁.task u).tStatus = (s.task u).tStatus := by
    intro u
    by_cases hu : u = t <;> simp [← hs₁, hu]
  have hup : ∀ x, s₁.updated x = s.updated x := by
    intro x
    cases x with
    | inl q => by_cases hq : q = p <;> simp [← hs₁, State.updated, State.primUpdated, hq]
    | inr u => simp [State.updated, State.taskUpdated, hst]
  have habove : ∀ x y, b.Known x → y ≠ .inr t → (s₁.above x = some y ↔ s.above x = some y) := by
    intro x y _ hy
    cases x with
    | inl q =>
        by_cases hq : q = p
        · subst hq
          simp [← hs₁, R.overrides, ho, Ne.symm hy]
        · simp [← hs₁, hq]
    | inr u => by_cases hu : u = t <;> simp [← hs₁, hu]
  obtain ⟨hstatus, hprims⟩ :=
    R.walk_marks (o := .inr t) ht (taskPropagateUpdate_walkTo t s₁) hup habove
  refine ⟨fun u => ?_, hprims⟩
  have hu := hstatus u
  rw [hu]
  simp only [State.tStatus, hst]

open scoped Classical in
/-- **`_prim_un_override`** -/
theorem release (hp : b.waiting p ≠ none) (ho : b.overrides p = some t) :
    Represents (unOverride p t s) (b.release p t) := by
  obtain ⟨v, G, Q⟩ := R.lists
  obtain ⟨hstatus, hprims⟩ := R.release_marks hp ho
  have ho' : (s.prim p).pOverridden = some t := (R.overrides p).trans ho
  have hplaces : (b.release p t).places =
      { b.places with overrides := Function.update b.places.overrides p none } := rfl
  refine R.edited ⟨v.unoverride p t, ?_, ?_⟩ ?_ (unOverride_ledger s p t) rfl ?_ ?_ rfl rfl ?_ rfl ?_
  · exact G.unoverride (Q.hasPrim.mpr hp) ho'
  · exact ⟨Q.actives, Q.tasks, Q.stopped⟩
  · rw [unOverride_pointers, hplaces, ← R.places]
    rfl
  · intro u hu
    rw [hstatus u, R.status u hu]
    refine (Board.status_mark ?_ ?_).symm
    · exact Iff.rfl
    · exact Iff.rfl
  · intro q hq
    rw [hprims q, R.marks q hq]
    exact or_comm
  · exact congrFun (congrArg Pointers.tThread (unOverride_pointers s p t))
  · refine ⟨R.sound.owner, fun q u hq hu => R.sound.shares q u hq ?_, R.sound.runs⟩
    by_cases hqp : q = p
    · simp [Board.release, hqp] at hu
    · simpa [Board.release, hqp] using hu

/-- **`primitive_override_task`**, for a primitive that overrides nothing. -/
theorem override (hp : b.waiting p ≠ none) (hm : b.MayOwn p t) (ho : b.overrides p = none) :
    Represents (overrideTask p t s) (b.override p t) := by
  obtain ⟨hshares, hready⟩ := hm
  obtain ⟨v, G, Q⟩ := R.lists
  have hplaces : (b.override p t).places =
      { b.places with overrides := Function.update b.places.overrides p (some t) } := rfl
  have hup : s.taskUpdated t = true := (R.updated_iff (x := .inr t) hshares.1).mpr (.inl hready)
  obtain ⟨τ, hτ, hstatus⟩ := overrideTask_tStatus s p t
  have hprim : ∀ q, (overrideTask p t s).primUpdated q = s.primUpdated q := by
    intro q
    simp only [overrideTask]
    rw [taskPropagateUpdate_of_updated]
    · by_cases hq : q = p <;> simp [State.primUpdated, hq]
    · simpa [State.taskUpdated] using hup
  refine R.edited ⟨v.override p t, ?_, ?_⟩ ?_ (overrideTask_ledger s p t) rfl ?_ ?_ rfl rfl ?_ rfl ?_
  · exact G.override (Q.hasPrim.mpr hp) ((R.hasTask_iff G).mpr hshares.1) ((R.overrides p).trans ho)
  · exact ⟨Q.actives, Q.tasks, Q.stopped⟩
  · rw [overrideTask_pointers, hplaces, ← R.places]
    rfl
  · intro u hu
    rw [hstatus, hτ hup, if_neg Bool.false_ne_true]
    exact R.status u hu
  · intro q hq
    rw [hprim]
    exact R.marks q hq
  · exact congrFun (congrArg Pointers.tThread (overrideTask_pointers s p t))
  · refine ⟨R.sound.owner, fun q u hq hu => ?_, R.sound.runs⟩
    by_cases hqp : q = p
    · subst hqp
      simp only [Board.override, Function.update_self, Option.some.injEq] at hu
      exact hu ▸ hshares
    · simp only [Board.override, Function.update_of_ne hqp] at hu
      exact R.sound.shares q u hq hu

/-- What leaves the queues, the pointers, the status words and the marks. -/
theorem framed (hlists : ∃ v, Good s' v ∧ SameQueues b v)
    (hplaces : s'.pointers.places = s.pointers.places) (hstatus : ∀ t, s'.tStatus t = s.tStatus t)
    (hprims : ∀ p, s'.primUpdated p = s.primUpdated p) (e : b.SameLists b')
    (htally : s'.ledger.tally = b'.tally)
    (hpaused : ∀ c, b.members c ≠ none → (s'.process c).pStatus = b'.processStatus c)
    (hthread : ∀ h t, b.threads h = true → b'.running h = some t →
      b.home t ≠ none ∧ (s'.task t).tThread = some h) : Represents s' b' := by
  have hhome : b'.home = b.home := congrArg Places.home e.places
  have howner : b'.owner = b.owner := congrArg Places.owner e.places
  have hoverrides : b'.overrides = b.overrides := congrArg Places.overrides e.places
  have hthreads : b'.threads = b.threads := congrArg Places.threads e.places
  obtain ⟨v, G, Q⟩ := hlists
  constructor
  · exact ⟨v, G, Q.actives.trans e.ready.symm, Q.tasks.trans e.members.symm,
      Q.stopped.trans e.waiting.symm⟩
  · exact hplaces.trans (R.places.trans e.places.symm)
  · exact htally
  · intro t ht
    rw [hstatus, R.status t (hhome ▸ ht)]
    exact (Board.status_congr (by rw [e.ready]) (by rw [e.marked])).symm
  · intro p hp
    rw [hprims, e.marked]
    exact R.marks p (e.waiting ▸ hp)
  · exact fun c hc => hpaused c (e.members ▸ hc)
  · exact fun h t hh ht => (hthread h t (hthreads ▸ hh) ht).2
  · constructor
    · rw [e.waiting, howner]
      exact R.sound.owner
    · intro p t hp ht
      rw [Board.Shares, hhome, howner]
      exact R.sound.shares p t (e.waiting ▸ hp) (hoverrides ▸ ht)
    · intro h t hh ht
      rw [hhome]
      exact (hthread h t (hthreads ▸ hh) ht).1

theorem tallied (e : s'.pointers = s.pointers) (hstatus : ∀ t, s'.tStatus t = s.tStatus t)
    (hprims : ∀ p, s'.primUpdated p = s.primUpdated p) (e' : b.SameLists b')
    (hrunning : b'.running = b.running) (htally : s'.ledger.tally = b'.tally)
    (hpaused : ∀ c, b.members c ≠ none → (s'.process c).pStatus = b'.processStatus c) :
    Represents s' b' := by
  obtain ⟨v, G, Q⟩ := R.lists
  refine R.framed ⟨v, G.congr e, Q⟩ (congrArg Pointers.places e) hstatus hprims e' htally hpaused ?_
  intro h t hh ht
  have hthread : (s'.task t).tThread = (s.task t).tThread :=
    congrFun (congrArg Pointers.tThread e) t
  rw [hrunning] at ht
  exact ⟨R.sound.runs h t hh ht, hthread.trans (R.thread h t hh ht)⟩

theorem assigned (A : Assigned s s') (hlists : ∃ v, Good s' v ∧ SameQueues b v)
    (e : b.SameLists b') (hpaused : b'.paused = b.paused) (htally : s'.ledger.tally = b'.tally)
    (hthread : ∀ h t, b.threads h = true → b'.running h = some t →
      b.home t ≠ none ∧ (s'.task t).tThread = some h) : Represents s' b' := by
  refine R.framed hlists ?_ A.tStatus A.primUpdated e htally (fun c hc => ?_) hthread
  · ext x : 2
    · exact A.tProcess x
    · exact congrArg (fun f => (f x).pProcess) A.prim
    · exact congrArg (fun f => (f x).pOverridden) A.prim
    · exact A.tSched x
  · rw [A.process, R.paused c hc, Board.processStatus, Board.processStatus, hpaused]

/-! ### Assignments -/

theorem record (call : HookCall k) :
    Represents { s with hooks := call :: s.hooks } { b with heard := call :: b.heard } := by
  refine R.tallied rfl (fun _ => rfl) (fun _ => rfl) ⟨rfl, rfl, rfl, rfl, rfl⟩ rfl ?_ R.paused
  have htally : ({ b with heard := call :: b.heard } : Board k).tally =
      { b.tally with heard := call :: b.tally.heard } := rfl
  rw [htally, ← R.tally]
  rfl

theorem idle (h : ThreadId k) :
    Represents (s.modThread h fun x => { x with tTask := none, tCommit := -1 }) (b.idle h) := by
  obtain ⟨v, G, Q⟩ := R.lists
  have e : (s.modThread h fun x => { x with tTask := none, tCommit := -1 }).pointers = s.pointers := by
    ext x : 2
    all_goals first
      | rfl
      | by_cases hx : x = h <;> simp [State.pointers, hx]
  have htally : (b.idle h).tally =
      { b.tally with running := Function.update b.tally.running h none } := rfl
  refine R.assigned (.modThread s h fun _ => rfl) ⟨v, G.congr e, Q⟩ ⟨rfl, rfl, rfl, rfl, rfl⟩ rfl ?_ ?_
  · rw [htally, ← R.tally]
    ext x : 2
    all_goals first
      | rfl
      | by_cases hx : x = h <;> simp [State.ledger, Ledger.tally, hx]
  · intro g t hg ht
    have ht : b.running g = some t := by
      by_cases hgh : g = h
      · simp [Board.idle, hgh] at ht
      · simpa [Board.idle, hgh] using ht
    exact ⟨R.sound.runs g t hg ht, R.thread g t hg ht⟩

/-- In a debug build, an assignment returns iff the thread and the task are registered. -/
theorem assign_ok (hm : b.MayAssign h t) (policy : Policy k) :
    threadAssignTask ⟨true, policy⟩ h (some t) s = .ok (assignTask h t s) := by
  obtain ⟨hh, ht⟩ := hm
  obtain ⟨c, hc⟩ := Option.ne_none_iff_exists'.mp ht
  have hsched : (s.thread h).tSched = true := (R.tSched h).trans hh
  have hprc : (s.task t).tProcess = some c := (R.home t).trans hc
  have hprocess : s.schedOf (some c) = true := (R.process_of_home hc).2
  simp only [threadAssignTask, nsCheck, derefSched, hsched, hprc, hprocess, assignTask]
  rfl

theorem run_running (hm : b.MayAssign h t) :
    (assignTask h t s).activity.tTask = (b.run h t).running := by
  have htask : s.activity.tTask = b.running := funext R.running
  -- a registered thread that executes the task is the one of the history that the task is in
  have hhistory : ∀ g, b.threads g = true ∧ b.running g = some t → (s.task t).tThread = some g :=
    fun g hg => R.thread g t hg.1 hg.2
  rw [assignTask_activity]
  funext g
  by_cases hgh : g = h
  · simp [Activity.run, Board.run, hgh]
  · simp only [Activity.run, Function.update_of_ne hgh, Board.run, if_neg hgh]
    cases ho : (s.task t).tThread with
    | none =>
        rw [if_neg (Option.some_ne_none h).symm, if_neg fun hg => by cases ho.symm.trans (hhistory g hg)]
        exact R.running g
    | some g' =>
        have hother : g ≠ g' → ¬(b.threads g = true ∧ b.running g = some t) :=
          fun hne hg => hne (Option.some.inj ((hhistory g hg).symm.trans ho))
        by_cases hg' : g' = h
        · rw [if_pos (congrArg some hg'), if_neg (hother fun e => hgh (e.trans hg'))]
          exact R.running g
        · rw [if_neg fun e => hg' (Option.some.inj e)]
          by_cases hgg : g = g'
          · subst hgg
            have hknown : b.threads g = true := by
              obtain ⟨v, G, -⟩ := R.lists
              rw [← R.tSched]
              exact G.wf.tSched g (G.wf.history.container ((R.hasTask_iff G).mpr hm.2) ho)
            simp only [Activity.leave, htask, hknown, true_and]
            split
            · simp [Activity.idle]
            · rw [htask]
          · rw [if_neg (hother hgg)]
            simp only [Activity.leave]
            split
            · simp only [Activity.idle, Function.update_of_ne hgg, htask]
            · rw [htask]

theorem run_stamp (h : ThreadId k) (t : TaskId k) :
    (assignTask h t s).activity.tCommit = (b.run h t).stamp := by
  have hcommit : s.activity.tCommit = b.stamp := funext R.stamp
  have hindex : s.activity.index = b.index := R.index
  rw [assignTask_activity]
  simp only [Activity.run, Board.run]
  split
  · rw [hcommit, hindex]
  · rw [Activity.leave_tCommit, Activity.leave_index, hcommit, hindex]

/-- **`thread_assign_task`** -/
theorem run (hm : b.MayAssign h t) : Represents (assignTask h t s) (b.run h t) := by
  have he := R.assign_ok hm fun _ => []
  have hsched := (assignTask_assigned h t s).sched
  obtain ⟨v, G, Q⟩ := R.lists
  obtain ⟨v', e, G'⟩ := G.assign he
  have hQ : SameQueues b v' :=
    ⟨e.actives.trans Q.actives, e.tasks.trans Q.tasks, e.stopped.trans Q.stopped⟩
  have A := assignTask_assigned h t s
  refine R.assigned A ⟨v', G', hQ⟩ ⟨rfl, rfl, rfl, rfl, rfl⟩ rfl ?_ ?_
  · apply Tally.ext
    · exact R.run_running hm
    · exact funext fun p => (congrArg (fun f => (f p).pNbOwningTasks) A.prim).trans (R.taken p)
    · exact funext fun u => (A.tNbOwnedPrimitives u).trans (R.owned u)
    · exact funext fun p => (congrFun A.sNbOwners p).trans (R.bound p)
    · exact R.run_stamp h t
    · exact (congrArg Scheduler.sCommitOpened A.sched).trans R.opened
    · exact (congrArg Scheduler.sCommitIndex A.sched).trans R.index
    · exact (threadAssignTask_assigned he).2.trans R.heard
  · intro g u hg hu
    rw [assignTask_tThread]
    by_cases hgh : g = h
    · subst hgh
      simp only [Board.run, if_true, Option.some.injEq] at hu
      subst hu
      exact ⟨hm.2, if_pos rfl⟩
    · simp only [Board.run, if_neg hgh] at hu
      split at hu
      · cases hu
      · rename_i hnot
        have hut : u ≠ t := by
          rintro rfl
          exact hnot ⟨hg, hu⟩
        rw [if_neg hut]
        exact ⟨R.sound.runs g u hg hu, R.thread g u hg hu⟩

/-! ### Counters -/

/-- **`primitive_take_ownership`** -/
theorem take (p : PrimId k) (t : TaskId k) : Represents (takeOwnership p t s)
    { b with
      taken := Function.update b.taken p (b.taken p + 1)
      owned := Function.update b.owned t (b.owned t + 1) } := by
  refine R.tallied (takeOwnership_pointers s p t) (fun u => ?_) (fun q => ?_)
    ⟨rfl, rfl, rfl, rfl, rfl⟩ rfl ?_ R.paused
  · by_cases hu : u = t <;> simp [State.tStatus, takeOwnership, hu]
  · by_cases hq : q = p <;> simp [State.primUpdated, takeOwnership, hq]
  · apply Tally.ext
    · exact funext R.running
    · funext q
      by_cases hq : q = p <;>
        simp [Ledger.tally, State.ledger, Board.tally, takeOwnership, hq, R.taken]
    · funext u
      by_cases hu : u = t <;>
        simp [Ledger.tally, State.ledger, Board.tally, takeOwnership, hu, R.owned]
    · exact funext R.bound
    · funext u
      by_cases hu : u = t <;>
        simp [Ledger.tally, State.ledger, Board.tally, takeOwnership, hu, R.stamp]
    · exact R.opened
    · exact R.index
    · exact R.heard

theorem releasePrim (p : PrimId k) : Represents (Sched.releasePrim p s)
    { b with taken := Function.update b.taken p (b.taken p - 1) } := by
  refine R.tallied (releasePrim_pointers s p) (fun _ => rfl) (fun q => ?_)
    ⟨rfl, rfl, rfl, rfl, rfl⟩ rfl ?_ R.paused
  · by_cases hq : q = p <;> simp [State.primUpdated, Sched.releasePrim, hq]
  · apply Tally.ext
    · exact funext R.running
    · funext q
      by_cases hq : q = p <;>
        simp [Ledger.tally, State.ledger, Board.tally, Sched.releasePrim, hq, R.taken]
    · exact funext R.owned
    · exact funext R.bound
    · exact funext R.stamp
    · exact R.opened
    · exact R.index
    · exact R.heard

/-- **`primitive_release_ownership`** -/
theorem giveBack (p : PrimId k) (t : TaskId k) : Represents (releaseOwnership p t s)
    { b with
      taken := Function.update b.taken p (b.taken p - 1)
      owned := Function.update b.owned t (b.owned t - 1) } := by
  refine (R.releasePrim p).tallied
    ((releaseOwnership_pointers s p t).trans (releasePrim_pointers s p).symm) (fun u => ?_)
    (fun _ => rfl) ⟨rfl, rfl, rfl, rfl, rfl⟩ rfl ?_ R.paused
  · by_cases hu : u = t <;> simp [State.tStatus, releaseOwnership, hu]
  · apply Tally.ext
    · exact funext R.running
    · exact funext (R.releasePrim p).taken
    · funext u
      by_cases hu : u = t <;>
        simp [Ledger.tally, State.ledger, Board.tally, releaseOwnership, Sched.releasePrim, hu, R.owned]
    · exact funext R.bound
    · funext u
      by_cases hu : u = t <;>
        simp [Ledger.tally, State.ledger, Board.tally, releaseOwnership, Sched.releasePrim, hu, R.stamp]
    · exact R.opened
    · exact R.index
    · exact R.heard

theorem commit (x : Scheduler k) : Represents (s.modSched fun _ => x)
    { b with opened := x.sCommitOpened, index := x.sCommitIndex } := by
  refine R.tallied rfl (fun _ => rfl) (fun _ => rfl) ⟨rfl, rfl, rfl, rfl, rfl⟩ rfl ?_ R.paused
  have htally : ({ b with opened := x.sCommitOpened, index := x.sCommitIndex } : Board k).tally =
      { b.tally with opened := x.sCommitOpened, index := x.sCommitIndex } := rfl
  rw [htally, ← R.tally]
  rfl

theorem bounded (p : PrimId k) (n : Usize k) : Represents
    { s with sNbOwners := Function.update s.sNbOwners p n }
    { b with bound := Function.update b.bound p n } := by
  refine R.tallied rfl (fun _ => rfl) (fun _ => rfl) ⟨rfl, rfl, rfl, rfl, rfl⟩ rfl ?_ R.paused
  have htally : ({ b with bound := Function.update b.bound p n } : Board k).tally =
      { b.tally with bound := Function.update b.tally.bound p n } := rfl
  rw [htally, ← R.tally]
  rfl

open scoped Classical in
theorem processStatus (c : ProcessId k) {P : Set (ProcessId k)}
    (hP : ∀ d, d ≠ c → (d ∈ P ↔ d ∈ b.paused)) : Represents
    (setProcessStatus c (if c ∈ P then schedStatusStopped else schedStatusActive) s)
    { b with paused := P } := by
  refine R.tallied (setProcessStatus_pointers s c _) (fun _ => rfl) (fun _ => rfl)
    ⟨rfl, rfl, rfl, rfl, rfl⟩ rfl ?_ (fun d hd => ?_)
  · have htally : ({ b with paused := P } : Board k).tally = b.tally := rfl
    rw [htally, ← R.tally]
    rfl
  · by_cases hdc : d = c
    · subst hdc
      simp only [setProcessStatus, State.modProcess_process, Function.update_self, Board.processStatus]
    · have hd' := R.paused d hd
      simp only [setProcessStatus, State.modProcess_process, Function.update_of_ne hdc,
        Board.processStatus, hP d hdc] at hd' ⊢
      exact hd'

/-! ### Registrations -/

/-- **`process_register_task`** -/
theorem addTask (ht : b.home t = none) (hc : b.members c ≠ none)
    (he : processRegisterTask ⟨true, policy⟩ c t s = .ok s') : Represents s' (b.addTask c t) := by
  obtain ⟨v, G, Q⟩ := R.lists
  obtain ⟨-, e⟩ := processRegisterTask_ok t c he
  simp only [processRegisterTask, bind_eq_ok, nsCheck_eq_ok, derefSched_eq_ok, exists_const,
    Except.ok.injEq] at he
  obtain ⟨-, -, he⟩ := he
  have hold : ∀ u, b.home u ≠ none → u ≠ t := fun u hu e => hu (e ▸ ht)
  have hT : ¬v.HasTask t := by rw [R.hasTask_iff G, ht]; exact not_not_intro rfl
  have hplaces : (b.addTask c t).places =
      { b.places with home := Function.update b.places.home t (some c) } := rfl
  constructor
  · refine ⟨v.addTask c t, G.addTask hT (Q.hasProcess.mpr hc) e, congrArg (t :: ·) Q.actives, ?_,
      Q.stopped⟩
    simp only [View.addTask, Board.addTask, Q.tasks]
  · rw [e, hplaces, ← R.places]
    rfl
  · apply Tally.ext
    · rw [← he]
      exact funext R.running
    · rw [← he]
      exact funext R.taken
    · funext u
      by_cases hu : u = t <;> simp [← he, Ledger.tally, State.ledger, Board.tally, Board.addTask, hu, R.owned]
    · rw [← he]
      exact funext R.bound
    · funext u
      by_cases hu : u = t <;> simp [← he, Ledger.tally, State.ledger, Board.tally, Board.addTask, hu, R.stamp]
    · rw [← he]
      exact R.opened
    · rw [← he]
      exact R.index
    · rw [← he]
      exact R.heard
  · intro u hu
    by_cases hut : u = t
    · subst hut
      rw [Board.status_eq_active.mpr List.mem_cons_self, ← he]
      simp [State.tStatus]
    · have hu' : b.home u ≠ none := by simpa [Board.addTask, hut] using hu
      have hst : s'.tStatus u = s.tStatus u := by simp [← he, State.tStatus, hut]
      rw [hst, R.status u hu']
      refine (Board.status_congr ?_ ?_).symm
      · simp [Board.addTask, hut]
      · exact Iff.rfl
  · intro p hp
    rw [← he]
    exact R.marks p hp
  · intro d hd
    have hd' : b.members d ≠ none := by
      by_cases hdc : d = c
      · exact hdc ▸ hc
      · simpa [Board.addTask, hdc] using hd
    have hst : (s'.process d).pStatus = (s.process d).pStatus := by
      by_cases hdc : d = c <;> simp [← he, hdc]
    rw [hst]
    exact R.paused d hd'
  · intro h u hh hu
    have hut := hold u (R.sound.runs h u hh hu)
    have hth : (s'.task u).tThread = (s.task u).tThread := by simp [← he, hut]
    rw [hth]
    exact R.thread h u hh hu
  · have hhome : ∀ u, b.home u ≠ none → (b.addTask c t).home u = b.home u := fun u hu => by
      simp [Board.addTask, hold u hu]
    refine ⟨R.sound.owner, fun p u hp hu => ?_, fun h u hh hu => ?_⟩
    · obtain ⟨h₁, h₂⟩ := R.sound.shares p u hp hu
      exact ⟨by rwa [hhome u h₁], by rw [hhome u h₁]; exact h₂⟩
    · have h₁ := R.sound.runs h u hh hu
      rwa [hhome u h₁]

/-- **`process_register_prim`** -/
theorem addPrim (hp : b.waiting p = none) :
    Represents (processRegisterPrim c p s) (b.addPrim c p) := by
  obtain ⟨v, G, Q⟩ := R.lists
  have hP : ¬v.HasPrim p := by rw [Q.hasPrim, hp]; exact not_not_intro rfl
  have hold : ∀ q, q ≠ p → (b.addPrim c p).waiting q ≠ none → b.waiting q ≠ none := fun q hq h => by
    simpa [Board.addPrim, hq] using h
  have hplaces : (b.addPrim c p).places = { b.places with
      owner := Function.update b.places.owner p (some c)
      overrides := Function.update b.places.overrides p none } := rfl
  constructor
  · refine ⟨v.addPrim p, G.addPrim hP, Q.actives, Q.tasks, ?_⟩
    simp only [View.addPrim, Board.addPrim, Q.stopped]
  · rw [processRegisterPrim_pointers, hplaces, ← R.places]
    rfl
  · apply Tally.ext
    · exact funext R.running
    · funext q
      by_cases hq : q = p <;>
        simp [Ledger.tally, State.ledger, Board.tally, Board.addPrim, processRegisterPrim, hq, R.taken]
    · exact funext R.owned
    · exact funext R.bound
    · exact funext R.stamp
    · exact R.opened
    · exact R.index
    · exact R.heard
  · intro u hu
    refine (R.status u hu).trans (Board.status_congr ?_ ?_).symm
    · exact Iff.rfl
    · simp [Board.addPrim]
  · intro q hq
    by_cases hqp : q = p
    · subst hqp
      simp [State.primUpdated, processRegisterPrim, Board.addPrim]
    · have hsame : (processRegisterPrim c p s).primUpdated q = s.primUpdated q := by
        simp [State.primUpdated, processRegisterPrim, hqp]
      rw [hsame, R.marks q (hold q hqp hq)]
      simp [Board.addPrim, hqp]
  · intro d hd
    have hst : ((processRegisterPrim c p s).process d).pStatus = (s.process d).pStatus := by
      by_cases hdc : d = c <;> simp [processRegisterPrim, hdc]
    rw [hst]
    exact R.paused d hd
  · exact R.thread
  · refine ⟨fun q hq => ?_, fun q u hq hu => ?_, R.sound.runs⟩
    · by_cases hqp : q = p
      · simp [Board.addPrim, hqp]
      · simpa [Board.addPrim, hqp] using R.sound.owner q (hold q hqp hq)
    · by_cases hqp : q = p
      · simp [Board.addPrim, hqp] at hu
      · have hu' : b.overrides q = some u := by simpa [Board.addPrim, hqp] using hu
        simpa [Board.Shares, Board.addPrim, hqp] using R.sound.shares q u (hold q hqp hq) hu'

/-- **`sched_register_thread`** -/
theorem addThread (hh : b.threads h = false) :
    Represents (schedRegisterThread h s) (b.addThread h) := by
  obtain ⟨v, G, Q⟩ := R.lists
  have hH : ¬v.HasThread h := fun hv => by
    have := G.wf.tSched h hv
    rw [show s.pointers.tSched h = b.threads h from R.tSched h, hh] at this
    cases this
  have hplaces : (b.addThread h).places =
      { b.places with threads := Function.update b.places.threads h true } := rfl
  have hruns : ∀ g u, (b.addThread h).threads g = true → (b.addThread h).running g = some u →
      b.threads g = true ∧ b.running g = some u := by
    intro g u hg hu
    by_cases hgh : g = h
    · simp [Board.addThread, hgh] at hu
    · exact ⟨by simpa [Board.addThread, hgh] using hg, by simpa [Board.addThread, hgh] using hu⟩
  constructor
  · exact ⟨v.addThread h, G.addThread hH, Q.actives, Q.tasks, Q.stopped⟩
  · rw [schedRegisterThread_pointers, hplaces, ← R.places]
    rfl
  · apply Tally.ext
    · funext g
      by_cases hg : g = h <;>
        simp [Ledger.tally, State.ledger, Board.tally, Board.addThread, schedRegisterThread, hg,
          R.running]
    · exact funext R.taken
    · exact funext R.owned
    · exact funext R.bound
    · exact funext R.stamp
    · exact R.opened
    · exact R.index
    · exact R.heard
  · exact R.status
  · exact R.marks
  · exact R.paused
  · exact fun g u hg hu => R.thread g u (hruns g u hg hu).1 (hruns g u hg hu).2
  · exact ⟨R.sound.owner, R.sound.shares, fun g u hg hu =>
      R.sound.runs g u (hruns g u hg hu).1 (hruns g u hg hu).2⟩

theorem addProcess (hc : b.members c = none) : Represents
    ((((s.modLinks fun l => l.insertAfter .sProcesses (.pList c)).modLinks
      fun l => l.init (.pTasks c)).modLinks fun l => l.init (.pPrimitives c)).modProcess c fun _ =>
        { pSched := true, pStatus := schedStatusActive, pNbTasks := 0, pNbPrimitives := 0 })
    (b.addProcess c) := by
  obtain ⟨v, G, Q⟩ := R.lists
  generalize hs' : State.modProcess _ c _ = s'
  have hC : ¬v.HasProcess c := by rw [Q.hasProcess, hc]; exact not_not_intro rfl
  have e : s'.pointers = s.pointers.addProcess c := by
    rw [← hs']
    ext x : 2
    all_goals first
      | rfl
      | by_cases hx : x = c <;> simp [State.pointers, Pointers.addProcess, hx]
  constructor
  · refine ⟨v.addProcess c, ⟨e ▸ G.wf.addProcess hC, ?_⟩, Q.actives, ?_, Q.stopped⟩
    · rw [e]
      refine ⟨G.attached.task, fun d hd => View.hasProcess_addProcess.mpr ?_, G.attached.thread⟩
      by_cases hdc : d = c
      · exact .inl hdc
      · exact .inr (G.attached.process d (by simpa [Pointers.addProcess, hdc] using hd))
    · simp only [View.addProcess, Board.addProcess, Q.tasks]
  · rw [e]
    exact R.places
  · rw [← hs']
    exact R.tally
  · intro u hu
    rw [← hs']
    exact R.status u hu
  · intro q hq
    rw [← hs']
    exact R.marks q hq
  · intro d hd
    by_cases hdc : d = c
    · subst hdc
      simp [← hs', Board.processStatus, Board.addProcess]
    · have hd' : b.members d ≠ none := by simpa [Board.addProcess, hdc] using hd
      have hst : (s'.process d).pStatus = (s.process d).pStatus := by simp [← hs', hdc]
      rw [hst, R.paused d hd']
      refine (Board.processStatus_congr ?_).symm
      simp [Board.addProcess, hdc]
  · rw [← hs']
    exact R.thread
  · exact ⟨R.sound.owner, R.sound.shares, R.sound.runs⟩

/-- **`sched_register_process`** -/
theorem registerProcess (hc : b.members c = none) (hp : b.waiting (pPrim c) = none) :
    Represents (schedRegisterProcess c s) ((b.addProcess c).addPrim c (pPrim c)) :=
  ((R.addProcess hc).addPrim hp).tallied rfl (fun _ => rfl) (fun _ => rfl)
    ⟨rfl, rfl, rfl, rfl, rfl⟩ rfl ((R.addProcess hc).addPrim hp).tally
    ((R.addProcess hc).addPrim hp).paused

/-- The end of **`process_unregister_prim`** -/
theorem dropPrim (hp : b.waiting p = some []) (ho : b.overrides p = none) (c : ProcessId k) :
    Represents (forgetPrim p c s) (b.dropPrim p) := by
  obtain ⟨v, G, Q⟩ := R.lists
  have ho' : (s.prim p).pOverridden = none := (R.overrides p).trans ho
  have hp' : v.HasPrim p := Q.hasPrim.mpr (by simp [hp])
  have e := G.forgetPrim_pointers hp' ho' c
  have hold : ∀ q, (b.dropPrim p).waiting q ≠ none → b.waiting q ≠ none := by
    intro q hq
    by_cases hqp : q = p
    · simp [Board.dropPrim, hqp] at hq
    · simpa [Board.dropPrim, hqp] using hq
  constructor
  · refine ⟨v.dropPrim p, (G.congr e).dropPrim (by rw [Q.stopped, hp]) ho', Q.actives, Q.tasks, ?_⟩
    simp only [View.dropPrim, Board.dropPrim, Q.stopped]
  · rw [e]
    exact R.places
  · exact R.tally
  · exact R.status
  · exact fun q hq => R.marks q (hold q hq)
  · intro d hd
    have hst : ((forgetPrim p c s).process d).pStatus = (s.process d).pStatus := by
      by_cases hdc : d = c <;> simp [forgetPrim, hdc]
    rw [hst]
    exact R.paused d hd
  · exact R.thread
  · exact ⟨fun q hq => R.sound.owner q (hold q hq), fun q u hq => R.sound.shares q u (hold q hq),
      R.sound.runs⟩

end edits

end Represents

end KernelTk.Sched
