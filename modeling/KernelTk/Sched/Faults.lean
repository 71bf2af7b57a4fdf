import KernelTk.Sched.Refinement

/-! # How a debug build fails

A call fails in an `ns_check`, by the use of an invalid pointer, or in a walk that does not end.

* **Functions.** In a memory that represents a board, the functions fail in a check at most
  (`ChecksOnly`), because what they dereference has been checked or is registered.  The proofs follow the
  text of the functions, and use the agreement with the board for the states in between.
* **Walks.** `ChecksOnly.walk` : a walk along a list of the memory ends, as long as its body keeps the part of
  the list that is left; it fails in a check of its body at most.
* **Heads of lists.** `sched_mutex_unlock` and `sched_sem_release` pass to `primitive_resume_task` what
  `container_of` computes from the head of a list, and `sched_resume_process` goes through another
  field than the one the list is linked by: with a task in the list, no task is found there.
  `PointerOnly` : the only other failure is the use of such a pointer, under a condition.
* **Runs.** `debug_faults` : along regular runs, these three calls only, and with a task in their
  list only (`Call.Misses`), use an invalid pointer; and every walk ends.  `debug_faults_run` is such a
  failure. -/

namespace KernelTk.Sched

open Lockstep Transition

variable {k : Machine} {policy : Policy k} {O : Objects k} {hist : Hist k} {s s' : State k}
  {b b' : Board k} {p q : PrimId k} {t u : TaskId k} {h g : ThreadId k} {c d : ProcessId k}

/-! ### Rules -/

theorem exists_of_agree {α β : Type} {R : α → β → Prop} {x : Except Fault α} {y : Option β} {a : α}
    (h : Agree R x y) (hx : x = .ok a) : ∃ b, y = some b ∧ R a b := by
  cases h with
  | @ok _ b hab =>
      obtain rfl := Except.ok.inj hx
      exact ⟨b, rfl, hab⟩
  | failed => cases hx

namespace ChecksOnly

variable {α δ κ : Type}

theorem ite {P : Prop} {_ : Decidable P} {x y : Except Fault α} (hx : P → ChecksOnly x)
    (hy : ¬P → ChecksOnly y) : ChecksOnly (if P then x else y) := by
  split
  · rename_i h
    exact hx h
  · rename_i h
    exact hy h

/-- **The walk rule** : a walk along a list ends, and fails in a check of its body at most. -/
theorem walk [DecidableEq κ] {next : α → κ → κ} {head : κ} {body : κ → α → Except Fault α}
    (node : δ → κ) (I : List δ → α → Prop)
    (hnext : ∀ {d l a}, I (d :: l) a → node d ≠ head ∧ next a (node d) = (l.map node).headD head)
    (hbody : ∀ {d l a}, I (d :: l) a → ChecksOnly (body (node d) a) ∧
      ∀ a', body (node d) a = .ok a' → I l a') :
    ∀ (l : List δ) (fuel : ℕ) (a : α), l.length < fuel → I l a →
      ChecksOnly (CircularList.walk next head .endless body fuel ((l.map node).headD head) a) := by
  intro l
  induction l with
  | nil =>
      intro fuel a hfuel _
      cases fuel with
      | zero => cases hfuel
      | succ fuel =>
          simp only [List.map_nil, List.headD_nil, CircularList.walk, if_true]
          exact .ok a
  | cons d l ih =>
      intro fuel a hfuel hI
      cases fuel with
      | zero => cases hfuel
      | succ fuel =>
          obtain ⟨hne, hn⟩ := hnext hI
          obtain ⟨hchecks, hI'⟩ := hbody hI
          simp only [List.map_cons, List.headD_cons, CircularList.walk, hne, if_false, hn]
          exact hchecks.bind fun a' ha' => ih fuel a' (Nat.lt_of_succ_lt_succ hfuel) (hI' a' ha')

end ChecksOnly

/-! ### Functions -/

theorem takeOwnership_checksOnly (task : Option (TaskId k)) :
    ChecksOnly (primitiveTakeOwnership ⟨true, policy⟩ p task s) := by
  refine .check rfl fun htask => ?_
  obtain ⟨t, rfl⟩ := Option.ne_none_iff_exists'.mp htask
  exact .deref rfl (.check rfl fun _ => .check rfl fun _ => .check rfl fun _ => .check rfl fun _ =>
    .ok _)

theorem releaseOwnership_checksOnly (task : Option (TaskId k)) :
    ChecksOnly (primitiveReleaseOwnership ⟨true, policy⟩ p task s) := by
  refine .check rfl fun htask => ?_
  obtain ⟨t, rfl⟩ := Option.ne_none_iff_exists'.mp htask
  refine .deref rfl (.check rfl fun _ => .check rfl fun _ => .check rfl fun _ => .check rfl fun _ => ?_)
  exact .ite (fun _ => .ok _) fun _ => .ite (fun _ => .ok _) fun _ => .ok _

theorem hook_checksOnly {sched : Bool} {call : HookCall k} (h : sched = true) :
    ChecksOnly (callHook ⟨true, policy⟩ sched call s) := by
  subst h
  exact callHook_checksOnly rfl

theorem unOverride_checksOnly (R : Shows O s b) (hp : b.waiting p ≠ none) :
    ChecksOnly (primUnOverride ⟨true, policy⟩ p s) := by
  unfold primUnOverride
  cases ho : (s.prim p).pOverridden with
  | none => exact .ok s
  | some t =>
      obtain ⟨ht, hshares⟩ := R.1.sound.shares p t hp ((R.1.overrides p).symm.trans ho)
      obtain ⟨c, hc⟩ := Option.ne_none_iff_exists'.mp ht
      have hprc : (s.prim p).pProcess = some c := (R.1.owner p).trans (hshares.trans hc)
      exact .deref hprc (hook_checksOnly (R.1.process_of_home hc).2)

theorem overrideTask_checksOnly (R : Shows O s b) (hp : b.waiting p ≠ none)
    (task : Option (TaskId k)) :
    ChecksOnly (primitiveOverrideTask ⟨true, policy⟩ p task s) := by
  refine .check rfl fun htask => ?_
  obtain ⟨t, rfl⟩ := Option.ne_none_iff_exists'.mp htask
  refine .deref rfl (.check rfl fun hmember => .check rfl fun hsame => .check rfl fun hsched =>
    .check rfl fun _ => ?_)
  obtain ⟨c, hc⟩ := Option.ne_none_iff_exists'.mp hmember
  rw [hc] at hsched
  exact .deref (hsame.trans hc) ((unOverride_checksOnly R hp).bind fun _ _ => hook_checksOnly hsched)

theorem stopTask_checksOnly (task : Option (TaskId k)) :
    ChecksOnly (primitiveStopTask ⟨true, policy⟩ p task s) := by
  refine .check rfl fun htask => ?_
  obtain ⟨t, rfl⟩ := Option.ne_none_iff_exists'.mp htask
  refine .deref rfl (.check rfl fun hmember => .check rfl fun _ => .check rfl fun hsched =>
    .check rfl fun _ => .check rfl fun _ => ?_)
  obtain ⟨c, hc⟩ := Option.ne_none_iff_exists'.mp hmember
  rw [hc] at hsched
  exact .deref hc (hook_checksOnly hsched)

theorem stopThread_checksOnly (h : ThreadId k) :
    ChecksOnly (primitiveStopThread ⟨true, policy⟩ p h s) := by
  refine .check rfl fun _ => .check rfl fun hsched => .check rfl fun _ => ?_
  exact (stopTask_checksOnly _).bind fun _ _ => hook_checksOnly hsched

theorem resumeTask_checksOnly {a : Addr k} (ha : a.task? = some t) :
    ChecksOnly (primitiveResumeTask ⟨true, policy⟩ a s) := by
  refine .deref ha (.check rfl fun hmember => ?_)
  obtain ⟨c, hc⟩ := Option.ne_none_iff_exists'.mp hmember
  refine .deref hc (.check rfl fun hsched => .check rfl fun hstopper => ?_)
  obtain ⟨p, hp⟩ := Option.ne_none_iff_exists'.mp hstopper
  exact .deref hp (.check rfl fun _ => .check rfl fun _ => hook_checksOnly hsched)

theorem mutexAcquire_checksOnly (R : Shows O s b) (hp : b.waiting p ≠ none) (h : ThreadId k) :
    ChecksOnly (mutexAcquire ⟨true, policy⟩ p h s) := by
  refine (takeOwnership_checksOnly _).bind fun s₁ h₁ => ?_
  obtain ⟨b₁, hb₁, R₁⟩ := exists_of_agree (takeRunning_agree R) h₁
  obtain ⟨t, -, hb₁⟩ := Option.bind_eq_some_iff.mp hb₁
  exact overrideTask_checksOnly R₁ ((Board.take_same hb₁).2 ▸ hp) _

/-! ### Walks -/

theorem resumeAll_checksOnly (R : Shows O s b) (hp : b.waiting p ≠ none) :
    ChecksOnly (forEachNode (.pStopped p)
      (fun n s => primitiveResumeTask ⟨true, policy⟩ (containerOf n tStoppedOffset) s) s) := by
  obtain ⟨l, hl⟩ := Option.ne_none_iff_exists'.mp hp
  obtain ⟨v, G, Q⟩ := R.1.lists
  have hlv : v.stopped p = some l := Q.stopped ▸ hl
  unfold forEachNode
  rw [G.next_pStopped hlv]
  refine ChecksOnly.walk Node.tStopped (fun l s => ∃ b, Shows O s b ∧ b.waiting p = some l) ?_ ?_ l _ s
    (length_lt_fuel (G.wf.stopped.nodup hlv)) ⟨b, R, hl⟩
  · rintro t l x ⟨y, Rx, hy⟩
    obtain ⟨w, Gx, Qx⟩ := Rx.1.lists
    exact ⟨nofun, Gx.next_tStopped (Qx.stopped ▸ hy)⟩
  · rintro t l x ⟨y, Rx, hy⟩
    refine ⟨resumeTask_checksOnly (containerOf_tStopped t), fun x' hx' => ?_⟩
    obtain ⟨y', hy', Rx'⟩ := exists_of_agree (resumeTask_agree Rx (containerOf_tStopped t)) hx'
    exact ⟨y', Rx', Board.resumeTask_waiting hy hy'⟩

theorem pauseAll_checksOnly (R : Shows O s b) (hc : b.members c ≠ none)
    (hp : O.prim (pPrim c) = true) :
    ChecksOnly (forEachNode (.pTasks c) (pauseTask ⟨true, policy⟩ c) s) := by
  obtain ⟨l, hl⟩ := Option.ne_none_iff_exists'.mp hc
  obtain ⟨v, G, Q⟩ := R.1.lists
  have hlv : v.tasks c = some l := Q.tasks ▸ hl
  unfold forEachNode
  rw [G.next_pTasks hlv]
  refine ChecksOnly.walk Node.tSiblings (fun l' s => ∃ b, Shows O s b ∧ b.members c = some l ∧
    ∃ done, l = done ++ l') ?_ ?_ l _ s (length_lt_fuel (G.wf.tasks.nodup hlv)) ⟨b, R, hl, [], rfl⟩
  · rintro t l' x ⟨y, Rx, hy, done, hdone⟩
    obtain ⟨w, Gx, Qx⟩ := Rx.1.lists
    exact ⟨nofun, Gx.next_tSiblings (hdone ▸ Qx.tasks ▸ hy)⟩
  · rintro t l' x ⟨y, Rx, hy, done, hdone⟩
    have hdone' : l = (done ++ [t]) ++ l' := by simp [hdone]
    refine ⟨.deref (containerOf_tSiblings t) (.ite (fun _ => stopTask_checksOnly _) fun _ => .ok x),
      fun x' hx' => ?_⟩
    simp only [pauseTask, containerOf_tSiblings, bind_eq_ok, deref_eq_ok, Option.some.injEq,
      exists_eq_left'] at hx'
    split at hx'
    · obtain ⟨y', hy', Rx'⟩ := exists_of_agree (stopTask_agree Rx (Rx.prim hp)) hx'
      exact ⟨y', Rx', (congrFun (Board.stopTask_members hy') c).trans hy, _, hdone'⟩
    · obtain rfl := Except.ok.inj hx'
      exact ⟨y, Rx, hy, _, hdone'⟩

/-! ### Heads of lists -/

/-- A computation that fails in a check, or, under the condition only, by an invalid pointer. -/
def PointerOnly {α : Type} (P : Prop) (x : Except Fault α) : Prop :=
  ∀ f, x = .error f → f = .check ∨ f = .pointer ∧ P

theorem ChecksOnly.pointerOnly {α : Type} {P : Prop} {x : Except Fault α} (h : ChecksOnly x) :
    PointerOnly P x := fun f hf => .inl (h f hf)

theorem PointerOnly.bind {α β : Type} {P : Prop} {x : Except Fault α} {f : α → Except Fault β}
    (hx : ChecksOnly x) (hf : ∀ a, x = .ok a → PointerOnly P (f a)) : PointerOnly P (x >>= f) := by
  cases x with
  | error e =>
      intro e' he
      obtain rfl := Except.error.inj he
      exact .inl (hx e rfl)
  | ok a => exact hf a rfl

/-- The head of a list is no task. -/
theorem resumeFirst_pointerOnly : PointerOnly (s.links.isEmpty (.pStopped p) = false)
    (resumeFirst ⟨true, policy⟩ p s) := by
  intro f hf
  unfold resumeFirst at hf
  split at hf
  · cases hf
  · rename_i hne
    refine .inr ⟨?_, Bool.eq_false_of_not_eq_true hne⟩
    simp only [primitiveResumeTask, containerOf_pStopped_task?, deref] at hf
    exact (Except.error.inj hf).symm

namespace PointerOnly

variable {α : Type} {P P' : Prop} {x : Except Fault α}

theorem mono (hx : PointerOnly P x) (h : P → P') : PointerOnly P' x :=
  fun f hf => (hx f hf).imp_right fun hP => ⟨hP.1, h hP.2⟩

theorem check {C : Prop} [Decidable C] {env : Env k} {f : Unit → Except Fault α}
    (hd : env.debug = true) (hf : C → PointerOnly P (f ())) : PointerOnly P (nsCheck env C >>= f) := by
  unfold nsCheck
  split
  · exact fun e he => .inl (Except.error.inj he).symm
  · rename_i h
    exact hf (not_not.mp fun hC => h ⟨hd, hC⟩)

theorem ite {C : Prop} {_ : Decidable C} {y : Except Fault α} (hx : PointerOnly P x)
    (hy : PointerOnly P y) : PointerOnly P (if C then x else y) := by
  split
  · exact hx
  · exact hy

theorem andThen {β : Type} (hx : PointerOnly P x) (f : α → β) :
    PointerOnly P (x >>= fun a => .ok (f a)) := by
  cases x with
  | error e => exact fun e' he => hx e' (by cases he; rfl)
  | ok a => exact fun _ he => by cases he

theorem void {x : Except Fault (State k)} (hx : PointerOnly P x) :
    PointerOnly P (Sched.void x) := by
  cases x with
  | error e => exact fun e' he => hx e' (by cases he; rfl)
  | ok a => exact fun _ he => by cases he

end PointerOnly

theorem isEmpty_iff_waiting (R : Shows O s b) (hp : b.waiting p ≠ none) :
    s.links.isEmpty (.pStopped p) = true ↔ b.waiting p = some [] := by
  obtain ⟨l, hl⟩ := Option.ne_none_iff_exists'.mp hp
  obtain ⟨v, G, Q⟩ := R.1.lists
  rw [G.isEmpty_iff (Q.stopped ▸ hl), hl, Option.some.injEq]

theorem isEmpty_congr (R : Shows O s b) (R' : Shows O s' b') (hp : b.waiting p ≠ none)
    (hw : b'.waiting p = b.waiting p) :
    s'.links.isEmpty (.pStopped p) = s.links.isEmpty (.pStopped p) := by
  rw [Bool.eq_iff_iff, isEmpty_iff_waiting R' (hw ▸ hp), isEmpty_iff_waiting R hp, hw]

theorem mutexUnlock_pointerOnly (R : Shows O s b) (hp : b.waiting p ≠ none) (h : ThreadId k) :
    PointerOnly (s.links.isEmpty (.pStopped p) = false) (schedMutexUnlock ⟨true, policy⟩ p h s) := by
  unfold schedMutexUnlock
  refine .ite (ChecksOnly.ok _).pointerOnly (.ite (ChecksOnly.ok _).pointerOnly ?_)
  refine .bind (releaseOwnership_checksOnly _) fun x hx => ?_
  obtain ⟨t, ht, -⟩ := primitiveReleaseOwnership_ok.mp hx
  rw [ht] at hx
  obtain ⟨y, hy, -, R₁⟩ := exists_of_agree (giveBack_agree R) hx
  have hw₁ := Board.giveBack_same hy
  refine .ite (ChecksOnly.ok _).pointerOnly (.bind ?_ fun s₂ h₂ => ?_)
  · change ChecksOnly (primUnOverride ⟨true, policy⟩ p x.2)
    exact unOverride_checksOnly R₁ (hw₁ ▸ hp)
  · obtain ⟨b₂, hb₂, R₂⟩ :=
      exists_of_agree (unoverride_agree R₁ (hw₁ ▸ hp)) (primitiveUnoverrideTask_ok.mp h₂)
    have hw₂ : b₂.waiting p = b.waiting p := by rw [(Board.unoverride_same hb₂).1, hw₁]
    refine .andThen ?_ _
    rw [← isEmpty_congr R R₂ hp hw₂]
    exact resumeFirst_pointerOnly

theorem semRelease_pointerOnly (R : Shows O s b) (hp : b.waiting p ≠ none) (h : ThreadId k) :
    PointerOnly (s.links.isEmpty (.pStopped p) = false) (schedSemRelease ⟨true, policy⟩ p h s) := by
  unfold schedSemRelease
  refine .bind (releaseOwnership_checksOnly _) fun x hx => ?_
  obtain ⟨t, ht, -⟩ := primitiveReleaseOwnership_ok.mp hx
  rw [ht] at hx
  obtain ⟨y, hy, -, R₁⟩ := exists_of_agree (giveBack_agree R) hx
  refine .ite (ChecksOnly.ok _).pointerOnly (.andThen ?_ _)
  rw [← isEmpty_congr R R₁ hp (congrFun (Board.giveBack_same hy) p)]
  exact resumeFirst_pointerOnly

theorem resumeProcess_pointerOnly (R : Shows O s b) (hp : b.waiting (pPrim c) ≠ none) :
    PointerOnly (s.links.isEmpty (.pStopped (pPrim c)) = false)
      (schedResumeProcess ⟨true, policy⟩ c s) := by
  obtain ⟨l, hl⟩ := Option.ne_none_iff_exists'.mp hp
  obtain ⟨v, G, Q⟩ := R.1.lists
  have hwalk : forEachNode (.pStopped (pPrim c))
      (fun n s => primitiveResumeTask ⟨true, policy⟩ (containerOf n tSiblingsOffset) s) s =
      if l = [] then .ok s else .error .pointer := G.resumeProcess_walk (Q.stopped ▸ hl)
  unfold schedResumeProcess abortIfCommitClosed
  rw [hwalk]
  refine .check rfl fun _ => .check rfl fun _ => .check rfl fun _ => .andThen ?_ _
  split
  · exact (ChecksOnly.ok s).pointerOnly
  · rename_i hne
    have hempty : s.links.isEmpty (.pStopped (pPrim c)) = false := by
      refine Bool.eq_false_of_not_eq_true fun h => hne ?_
      exact Option.some.inj (hl.symm.trans ((isEmpty_iff_waiting R hp).mp h))
    exact fun f hf => .inr ⟨(Except.error.inj hf).symm, hempty⟩

theorem unregisterPrim_checksOnly (R : Shows O s b) (hp : b.waiting p ≠ none) :
    ChecksOnly (processUnregisterPrim ⟨true, policy⟩ p s) := by
  obtain ⟨l, hl⟩ := Option.ne_none_iff_exists'.mp hp
  obtain ⟨c, hc⟩ := Option.ne_none_iff_exists'.mp (R.1.sound.owner p hp)
  rw [unregisterPrim_eq ((R.1.owner p).trans hc)]
  refine (resumeAll_checksOnly R hp).bind fun s₁ h₁ => ?_
  obtain ⟨b₁, -, R₁, hl₁⟩ := exists_of_agree (resumeAll_agree R hl) h₁
  exact (unOverride_checksOnly R₁ (by simp [hl₁])).bind fun s₂ _ => .ok _

theorem pauseProcess_checksOnly (R : Shows O s b) (hp : O.prim (pPrim c) = true) :
    ChecksOnly (schedPauseProcess ⟨true, policy⟩ c s) := by
  refine .check rfl fun hsched => .check rfl fun _ => .check rfl fun _ => ?_
  exact (pauseAll_checksOnly R (R.1.pSched_iff.mp hsched) hp).bind fun _ _ => .ok _

/-! ### Calls -/

/-- The calls that look for a task at the head of a list, and the primitive of the list. -/
def Call.hands : Call k → Option (PrimId k)
  | .resumeProcess c => some (pPrim c)
  | .mutexUnlock p _ | .semRelease p _ => some p
  | _ => none

/-- The call looks for a task at the head of a list in which tasks wait. -/
def Call.Misses (s : State k) (c : Call k) : Prop :=
  ∃ p, c.hands = some p ∧ s.links.isEmpty (.pStopped p) = false

theorem void_checksOnly {x : Except Fault (State k)} (h : ChecksOnly x) : ChecksOnly (void x) := by
  cases x with
  | error e => exact fun e' he => h e' (by cases he; rfl)
  | ok a => exact fun _ he => by cases he

/-- **How a call of a debug build fails.** -/
theorem exec_pointerOnly {c : Call k} (R : Shows (.ofHist hist) s b) (hg : Regular hist c) :
    PointerOnly (c.Misses s) (exec ⟨true, policy⟩ c s) := by
  obtain ⟨hretires, -, hon⟩ := hg
  rw [← Objects.onRegistered_ofHist] at hon
  cases c with
  | unregisterProcess | unregisterThread | unregisterTask => cases hretires
  | registerProcess | registerThread | registerPrim | mutexCtor | semCtor =>
      exact (ChecksOnly.ok _).pointerOnly
  | registerTask d t =>
      refine (void_checksOnly (.check rfl fun hsched => ?_)).pointerOnly
      rw [hsched]
      exact .ok _
  | openCommit => exact (void_checksOnly (.check rfl fun _ => .ok _)).pointerOnly
  | closeCommit =>
      exact (void_checksOnly (.check rfl fun _ =>
        (hook_checksOnly rfl).bind fun _ _ => hook_checksOnly rfl)).pointerOnly
  | pauseProcess d => exact (void_checksOnly (pauseProcess_checksOnly R hon)).pointerOnly
  | resumeProcess d =>
      exact ((resumeProcess_pointerOnly R (R.prim hon)).mono fun h => ⟨_, rfl, h⟩).void
  | assignTask h t => exact (void_checksOnly (threadAssignTask_checksOnly rfl)).pointerOnly
  | takeOwnership p t => exact (void_checksOnly (takeOwnership_checksOnly _)).pointerOnly
  | releaseOwnership p t => exact (releaseOwnership_checksOnly _).pointerOnly
  | overrideTask p t => exact (void_checksOnly (overrideTask_checksOnly R (R.prim hon) _)).pointerOnly
  | unoverrideTask p =>
      change PointerOnly _ (void (primUnOverride ⟨true, policy⟩ p s))
      exact (void_checksOnly (unOverride_checksOnly R (R.prim hon))).pointerOnly
  | resumeTask t => exact (void_checksOnly (resumeTask_checksOnly (taskAddr_task? t))).pointerOnly
  | stopThread p h => exact (void_checksOnly (stopThread_checksOnly h)).pointerOnly
  | mutexLock p h =>
      exact (void_checksOnly (.ite (fun _ => stopThread_checksOnly h)
        fun _ => mutexAcquire_checksOnly R (R.prim hon) h)).pointerOnly
  | mutexLockNb p h =>
      have hfun : schedMutexLockNb ⟨true, policy⟩ p h s = if (s.prim p).pNbOwningTasks ≠ 0 then
          .ok (0, s) else mutexAcquire ⟨true, policy⟩ p h s >>= fun s₁ => .ok (1, s₁) := by
        simp only [schedMutexLockNb, mutexAcquire, bind_assoc]
      rw [exec, hfun]
      exact (ChecksOnly.ite (fun _ => .ok _) fun _ =>
        (mutexAcquire_checksOnly R (R.prim hon) h).bind fun _ _ => .ok _).pointerOnly
  | mutexUnlock p h => exact (mutexUnlock_pointerOnly R (R.prim hon) h).mono fun h => ⟨p, rfl, h⟩
  | semTake p h =>
      exact (void_checksOnly (.ite (fun _ => stopThread_checksOnly h)
        fun _ => takeOwnership_checksOnly _)).pointerOnly
  | semTakeNb p h =>
      exact (ChecksOnly.ite (fun _ => .ok _) fun _ =>
        (takeOwnership_checksOnly _).bind fun _ _ => .ok _).pointerOnly
  | semRelease p h => exact (semRelease_pointerOnly R (R.prim hon) h).mono fun h => ⟨p, rfl, h⟩
  | unregisterPrim p => exact (unregisterPrim_checksOnly R (R.prim hon)).pointerOnly

/-! ### Runs -/

/-- **A debug build uses an invalid pointer in three functions only**, and ends: along the runs of
regular calls, a call that fails has failed in a check, unless it releases a mutex or a semaphore
or resumes a process while a task waits for the primitive. -/
theorem debug_faults {c : Call k} {f : Fault}
    (hr : Reach policy (fun hist _ c => Regular hist c) hist s) (hg : Regular hist c)
    (he : exec ⟨true, policy⟩ c s = .error f) : f = .check ∨ f = .pointer ∧ c.Misses s := by
  obtain ⟨b, R⟩ := reach_shows hr
  exact exec_pointerOnly R hg f he

set_option maxRecDepth 10000 in
/-- A task unlocks a mutex that another one waits for. -/
theorem debug_faults_run : ∃ s : State small,
    exec ⟨true, quiet⟩ (.mutexUnlock (.other 0) 0) s = .error .pointer ∧
      (Call.mutexUnlock (.other 0) 0 : Call small).Misses s := by
  obtain ⟨hist, s, hr, htest⟩ := exists_reach_of_replay (exec ⟨true, quiet⟩)
    (fun hist _ c => Regular hist c) boot_smallBoot
    (fun hist s => fails .pointer (exec ⟨true, quiet⟩ (.mutexUnlock (.other 0) 0) s) = true ∧
      Regular hist (.mutexUnlock (.other 0) 0))
    (smallSetup ++ [.mutexCtor (.other 0) 0, .assignTask 0 (some 0), .assignTask 1 (some 1),
      .mutexLock (.other 0) 0, .mutexLock (.other 0) 1]) (by decide +kernel)
  obtain ⟨hfails, hg⟩ := of_decide_eq_true htest
  have he := fails_iff.mp hfails
  refine ⟨s, he, ?_⟩
  rcases debug_faults hr hg he with hcheck | ⟨-, hmiss⟩
  · cases hcheck
  · exact hmiss

end KernelTk.Sched
