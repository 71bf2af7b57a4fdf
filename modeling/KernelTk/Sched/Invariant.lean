import KernelTk.Sched.Steps
import KernelTk.Sched.System

/-! # The lists along runs

The lists of the memory are those of a view in every state that well-behaved calls reach; this is the
invariant on which the results on locks, on pauses and on the abstract scheduler rest.

* **Registration.** `Registered hist v` : the objects of the view are those registered by the
  calls of `hist`.
* **Conditions.** `Regular` : objects are registered once, calls work on registered primitives, and no
  task, thread or process is retired.  `Additive` : in addition, nothing is unregistered.
* **Frames.** Takings, releases and the status of a process do not matter to the lists
  (`takeOwnership_pointers`, ...): such calls keep the pointers, hence the view (`Good.same`).
* **One call.** `exec_good` : a regular call keeps the lists.  Calls that keep the registered objects are
  those of `exec_same`, which is a case analysis on the call that cites one lemma a function; the
  registrations follow.
* **Runs.** `reach_good` : in every state that such calls reach, the memory has the lists of a
  view.  The unregistrations of tasks, of threads and of processes are left out because they do break
  the lists; what holds under them is in `Zones.lean` and after. -/

namespace KernelTk.Sched

open Transition

variable {k : Machine} {policy : Policy k} {hist : Hist k} {s s' : State k} {v v' : View k}
  {r : BitVec 8}

/-- The objects of the view are the registered ones. -/
structure Registered (hist : Hist k) (v : View k) : Prop where
  task : ∀ t, v.HasTask t ↔ taskRegistered hist t = true
  prim : ∀ p, v.HasPrim p ↔ primRegistered hist p = true
  process : ∀ c, v.HasProcess c ↔ processRegistered hist c = true
  thread : ∀ h, v.HasThread h ↔ threadRegistered hist h = true

/-- The calls that register or unregister an object. -/
def Call.registers : Call k → Bool
  | .registerProcess _ | .unregisterProcess _ | .registerThread _ | .unregisterThread _
  | .registerTask _ _ | .unregisterTask _ | .registerPrim _ _ | .unregisterPrim _
  | .mutexCtor _ _ | .semCtor _ _ _ => true
  | _ => false

/-- The calls after which a task, a thread or a process is not registered any more. -/
def Call.retires : Call k → Bool
  | .unregisterProcess _ | .unregisterThread _ | .unregisterTask _ => true
  | _ => false

/-- The calls after which some object is not registered any more. -/
def Call.unregisters : Call k → Bool
  | .unregisterPrim _ => true
  | c => c.retires

/-- The calls that keep the lists: they register objects once, work on registered primitives and
retire no object. -/
def Regular (hist : Hist k) (c : Call k) : Prop :=
  c.retires = false ∧ fresh hist c = true ∧ onRegistered hist c = true

/-- The regular calls that unregister nothing. -/
def Additive (hist : Hist k) (c : Call k) : Prop :=
  c.unregisters = false ∧ fresh hist c = true ∧ onRegistered hist c = true

instance (hist : Hist k) (c : Call k) : Decidable (Regular hist c) :=
  inferInstanceAs (Decidable (_ ∧ _))

instance (hist : Hist k) (c : Call k) : Decidable (Additive hist c) :=
  inferInstanceAs (Decidable (_ ∧ _))

theorem Additive.regular {c : Call k} (h : Additive hist c) : Regular hist c := by
  refine ⟨?_, h.2⟩
  have hu := h.1
  cases c with
  | unregisterPrim => rfl
  | _ => exact hu

theorem Registered.same {c : Call k} (R : Registered hist v) (e : v.SameObjects v')
    (hc : c.registers = false) : Registered (⟨s, c, r, s'⟩ :: hist) v' := by
  cases c with
  | registerProcess | unregisterProcess | registerThread | unregisterThread | registerTask
  | unregisterTask | registerPrim | unregisterPrim | mutexCtor | semCtor => cases hc
  | _ =>
      exact ⟨fun t => (e.task t).trans (R.task t), fun p => (e.prim p).trans (R.prim p),
        fun d => (e.process d).trans (R.process d), fun h => (e.thread h).trans (R.thread h)⟩

/-! ### Ownership and status do not matter to the lists -/

section pointers

variable (s : State k) (p : PrimId k) (t : TaskId k)

theorem takeOwnership_pointers : (takeOwnership p t s).pointers = s.pointers := by
  ext x : 2
  all_goals first
    | rfl
    | by_cases hx : x = t <;> simp [State.pointers, takeOwnership, hx]
    | by_cases hx : x = p <;> simp [State.pointers, takeOwnership, hx]

theorem releasePrim_pointers : (releasePrim p s).pointers = s.pointers := by
  ext x : 2
  all_goals first
    | rfl
    | by_cases hx : x = p <;> simp [State.pointers, releasePrim, hx]

theorem releaseOwnership_pointers : (releaseOwnership p t s).pointers = s.pointers := by
  rw [← releasePrim_pointers s p]
  ext x : 2
  all_goals first
    | rfl
    | by_cases hx : x = t <;> simp [State.pointers, releaseOwnership, hx]

theorem setProcessStatus_pointers (c : ProcessId k) (status : BitVec 32) :
    (setProcessStatus c status s).pointers = s.pointers := by
  ext d : 2
  all_goals first
    | rfl
    | by_cases hd : d = c <;> simp [State.pointers, setProcessStatus, hd]

end pointers

/-- The lists of the memory are those of a view with the objects of `v`. -/
def SameGood (v : View k) (s' : State k) : Prop := ∃ v', Good s' v' ∧ v.SameObjects v'

section calls

variable {p : PrimId k} {t : TaskId k} {h : ThreadId k} {c : ProcessId k}

theorem Good.same (G : Good s v) (e : s'.pointers = s.pointers) : SameGood v s' :=
  ⟨v, G.congr e, .refl v⟩

theorem After.same {s₁ : State k} {v₁ : View k} (A : After s₁ v₁ s') (e : v.SameObjects v₁) :
    SameGood v s' := by
  obtain ⟨v', e', G'⟩ := A.lists
  exact ⟨v', G', e.trans e'.sameObjects⟩

theorem Good.same_release {task : Option (TaskId k)} {e : BitVec 8} (G : Good s v)
    (he : primitiveReleaseOwnership ⟨true, policy⟩ p task s = .ok (e, s')) : Good s' v := by
  obtain ⟨u, -, -, ⟨-, -, rfl⟩ | ⟨-, -, -, rfl⟩ | ⟨-, -, -, rfl⟩⟩ := primitiveReleaseOwnership_ok.mp he
  · exact G
  · exact G.congr (releasePrim_pointers _ _)
  · exact G.congr (releaseOwnership_pointers _ _ _)

theorem Good.same_acquire (G : Good s v) (hp : v.HasPrim p)
    (he : mutexAcquire ⟨true, policy⟩ p h s = .ok s') : SameGood v s' := by
  obtain ⟨t, -, -, he⟩ := mutexAcquire_ok.mp he
  obtain ⟨u, s₁, v₁, -, -, -, -, -, e₁, -, -, A⟩ :=
    (G.congr (takeOwnership_pointers s p t)).overrideTask hp he
  exact A.same (e₁.trans (.override v₁ p u))

theorem Good.same_stopThread (G : Good s v) (hp : v.HasPrim p)
    (he : primitiveStopThread ⟨true, policy⟩ p h s = .ok s') : SameGood v s' := by
  obtain ⟨t, -, -, -, -, A⟩ := G.stopThread hp he
  exact A.same (.stop v p t)

end calls

theorem exec_same {c : Call k} (G : Good s v) (R : Registered hist v) (hc : c.registers = false)
    (ho : onRegistered hist c = true) (he : exec ⟨true, policy⟩ c s = .ok (r, s')) :
    SameGood v s' := by
  have hprim : ∀ p, onRegistered hist c = primRegistered hist p → v.HasPrim p :=
    fun p e => (R.prim p).mpr (e ▸ ho)
  cases c with
  | registerProcess | unregisterProcess | registerThread | unregisterThread | registerTask
  | unregisterTask | registerPrim | unregisterPrim | mutexCtor | semCtor => cases hc
  | openCommit =>
      obtain ⟨-, rfl⟩ := schedOpenCommit_ok.mp (void_eq_ok.mp he).2
      exact G.same rfl
  | closeCommit =>
      obtain ⟨-, s₁, h₁, h₂⟩ := schedCloseCommit_ok.mp (void_eq_ok.mp he).2
      have G₀ : Good (s.modSched fun x => { x with sCommitOpened := false }) v := G.congr rfl
      obtain ⟨v₁, e₁, G₁⟩ := G₀.hook h₁
      obtain ⟨v₂, e₂, G₂⟩ := G₁.hook h₂
      exact ⟨v₂, G₂, (e₁.trans e₂).sameObjects⟩
  | pauseProcess d =>
      obtain ⟨hd, s₁, h₁, rfl⟩ := schedPauseProcess_ok.mp (void_eq_ok.mp he).2
      obtain ⟨v₁, G₁, e₁⟩ := G.pauseAll (G.attached.process d (hd rfl).1) (hprim _ rfl) h₁
      exact ⟨v₁, G₁.congr (setProcessStatus_pointers s₁ d _), e₁⟩
  | resumeProcess d =>
      obtain ⟨l, hl⟩ := Option.isSome_iff_exists.mp (hprim (pPrim d) rfl)
      obtain ⟨-, s₁, h₁, rfl⟩ := schedResumeProcess_ok.mp (void_eq_ok.mp he).2
      rw [G.resumeProcess_walk hl] at h₁
      split at h₁
      · obtain rfl := Except.ok.inj h₁
        exact G.same (setProcessStatus_pointers s d _)
      · cases h₁
  | assignTask h t =>
      obtain ⟨v', e', G'⟩ := G.assign (void_eq_ok.mp he).2
      exact ⟨v', G', e'.sameObjects⟩
  | takeOwnership p t =>
      obtain ⟨u, -, -, rfl⟩ := primitiveTakeOwnership_ok.mp (void_eq_ok.mp he).2
      exact G.same (takeOwnership_pointers s p u)
  | releaseOwnership p t => exact ⟨v, G.same_release he, .refl v⟩
  | overrideTask p t =>
      obtain ⟨u, s₁, v₁, -, -, -, -, -, e₁, -, -, A⟩ := G.overrideTask (hprim p rfl) (void_eq_ok.mp he).2
      exact A.same (e₁.trans (.override v₁ p u))
  | unoverrideTask p =>
      obtain ⟨v', G', e', -⟩ :=
        G.unOverride_lists (hprim p rfl) (primitiveUnoverrideTask_ok.mp (void_eq_ok.mp he).2)
      exact ⟨v', G', e'⟩
  | resumeTask t =>
      obtain ⟨u, p, -, -, -, -, A⟩ := G.resumeTask (void_eq_ok.mp he).2
      exact A.same (.resume v p u)
  | stopThread p h => exact G.same_stopThread (hprim p rfl) (void_eq_ok.mp he).2
  | mutexLock p h =>
      rcases schedMutexLock_ok.mp (void_eq_ok.mp he).2 with ⟨-, he⟩ | ⟨-, he⟩
      · exact G.same_stopThread (hprim p rfl) he
      · exact G.same_acquire (hprim p rfl) he
  | mutexLockNb p h =>
      rcases schedMutexLockNb_ok.mp he with ⟨-, -, rfl⟩ | ⟨-, -, he⟩
      · exact ⟨v, G, .refl v⟩
      · exact G.same_acquire (hprim p rfl) he
  | mutexUnlock p h =>
      rcases schedMutexUnlock_ok.mp he with ⟨-, -, rfl⟩ | ⟨-, -, -, rfl⟩ |
        ⟨t, e, s₁, -, -, h₁, ⟨-, -, rfl⟩ | ⟨-, -, s₂, h₂, h₃⟩⟩
      · exact ⟨v, G, .refl v⟩
      · exact ⟨v, G, .refl v⟩
      · exact ⟨v, G.same_release h₁, .refl v⟩
      · obtain ⟨-, rfl⟩ := resumeFirst_ok.mp h₃
        obtain ⟨v', G', e', -⟩ := (G.same_release h₁).unOverride_lists (hprim p rfl) h₂
        exact ⟨v', G', e'⟩
  | semTake p h =>
      rcases schedSemTake_ok.mp (void_eq_ok.mp he).2 with ⟨-, he⟩ | ⟨-, he⟩
      · exact G.same_stopThread (hprim p rfl) he
      · obtain ⟨t, -, -, rfl⟩ := primitiveTakeOwnership_ok.mp he
        exact G.same (takeOwnership_pointers s p t)
  | semTakeNb p h =>
      rcases schedSemTakeNb_ok.mp he with ⟨-, -, rfl⟩ | ⟨-, -, he⟩
      · exact ⟨v, G, .refl v⟩
      · obtain ⟨t, -, -, rfl⟩ := primitiveTakeOwnership_ok.mp he
        exact G.same (takeOwnership_pointers s p t)
  | semRelease p h =>
      obtain ⟨e, s₁, h₁, ⟨-, -, rfl⟩ | ⟨-, -, h₂⟩⟩ := schedSemRelease_ok.mp he
      · exact ⟨v, G.same_release h₁, .refl v⟩
      · obtain ⟨-, rfl⟩ := resumeFirst_ok.mp h₂
        exact ⟨v, G.same_release h₁, .refl v⟩

/-! ### Registrations -/

theorem Registered.addPrim {c : Call k} {p : PrimId k} (R : Registered hist v)
    (hc : ∀ q, primRegistered (⟨s, c, r, s'⟩ :: hist) q = (q == p || primRegistered hist q))
    (hsame : taskRegistered (⟨s, c, r, s'⟩ :: hist) = taskRegistered hist ∧
      processRegistered (⟨s, c, r, s'⟩ :: hist) = processRegistered hist ∧
      threadRegistered (⟨s, c, r, s'⟩ :: hist) = threadRegistered hist) :
    Registered (⟨s, c, r, s'⟩ :: hist) (v.addPrim p) where
  task := fun t => by rw [hsame.1]; exact R.task t
  prim := fun q => by rw [hc, View.hasPrim_addPrim, R.prim q, Bool.or_eq_true, beq_iff_eq]
  process := fun d => by rw [hsame.2.1]; exact R.process d
  thread := fun h => by rw [hsame.2.2]; exact R.thread h

/-- **A call keeps the lists**, unless it unregisters a task, a thread or a process. -/
theorem exec_good {c : Call k} (G : Good s v) (R : Registered hist v) (hg : Regular hist c)
    (he : exec ⟨true, policy⟩ c s = .ok (r, s')) :
    ∃ v', Good s' v' ∧ Registered (⟨s, c, r, s'⟩ :: hist) v' := by
  obtain ⟨hc, hf, ho⟩ := hg
  cases hreg : c.registers with
  | false =>
      obtain ⟨v', G', e⟩ := exec_same G R hreg ho he
      exact ⟨v', G', R.same e hreg⟩
  | true =>
      cases c with
      | unregisterProcess | unregisterThread | unregisterTask => cases hc
      | registerProcess d =>
          obtain ⟨rfl, rfl⟩ := ok_pair_eq.mp he
          simp only [fresh, Bool.and_eq_true, Bool.not_eq_true'] at hf
          have hd : ¬v.HasProcess d := by simp [R.process, hf.1]
          have hp : ¬v.HasPrim (pPrim d) := by simp [R.prim, hf.2]
          refine ⟨_, G.addProcess hd hp, ⟨R.task, fun q => ?_, fun d' => ?_, R.thread⟩⟩
          · simp only [View.hasPrim_addPrim, primRegistered, Bool.or_eq_true, beq_iff_eq]
            exact or_congr_right (R.prim q)
          · change (v.addProcess d).HasProcess d' ↔ _
            simp only [View.hasProcess_addProcess, processRegistered, Bool.or_eq_true, beq_iff_eq]
            exact or_congr_right (R.process d')
      | registerThread h =>
          obtain ⟨rfl, rfl⟩ := ok_pair_eq.mp he
          have hh : ¬v.HasThread h := by simpa [R.thread, fresh] using hf
          refine ⟨_, G.addThread hh, ⟨R.task, R.prim, R.process, fun g => ?_⟩⟩
          simp only [View.hasThread_addThread, threadRegistered, Bool.or_eq_true, beq_iff_eq]
          exact or_congr_right (R.thread g)
      | registerTask d t =>
          obtain ⟨hsched, e⟩ := processRegisterTask_ok t d (void_eq_ok.mp he).2
          have ht : ¬v.HasTask t := by simpa [R.task, fresh] using hf
          refine ⟨_, G.addTask ht (G.attached.process d hsched) e,
            ⟨fun u => ?_, R.prim, fun d' => ?_, R.thread⟩⟩
          · simp only [View.hasTask_addTask, taskRegistered, Bool.or_eq_true, beq_iff_eq]
            exact or_congr_right (R.task u)
          · rw [View.hasProcess_addTask]
            exact R.process d'
      | registerPrim d p =>
          obtain ⟨rfl, rfl⟩ := ok_pair_eq.mp he
          have hp : ¬v.HasPrim p := by simpa [R.prim, fresh] using hf
          exact ⟨_, G.addPrim hp, R.addPrim (fun _ => rfl) ⟨rfl, rfl, rfl⟩⟩
      | mutexCtor p d =>
          obtain ⟨rfl, rfl⟩ := ok_pair_eq.mp he
          have hp : ¬v.HasPrim p := by simpa [R.prim, fresh] using hf
          exact ⟨_, G.addPrim hp, R.addPrim (fun _ => rfl) ⟨rfl, rfl, rfl⟩⟩
      | semCtor p n d =>
          obtain ⟨rfl, rfl⟩ := ok_pair_eq.mp he
          have hp : ¬v.HasPrim p := by simpa [R.prim, fresh] using hf
          have G₀ : Good { s with sNbOwners := Function.update s.sNbOwners p n } v := G.congr rfl
          exact ⟨_, G₀.addPrim hp, R.addPrim (fun _ => rfl) ⟨rfl, rfl, rfl⟩⟩
      | unregisterPrim p =>
          obtain ⟨s₁, v₁, s₂, v₂, -, e₁, -, -, -, -, e₂, -, -, -, -, G'⟩ :=
            G.unregisterPrim (J := fun _ _ => True) ((R.prim p).mpr ho) trivial
              (fun _ _ _ _ _ _ _ _ => trivial) he
          have e := e₁.trans e₂
          refine ⟨_, G', ⟨fun t => (e.task t).trans (R.task t), fun q => ?_,
            fun d => (e.process d).trans (R.process d), fun h => (e.thread h).trans (R.thread h)⟩⟩
          simp only [View.hasPrim_dropPrim, primRegistered, Bool.and_eq_true, bne_iff_ne]
          exact and_congr_right fun _ => (e.prim q).trans (R.prim q)
      | _ => cases hreg

/-! ### Runs -/

theorem Boot.good (hs : Boot s) : Good s View.empty ∧ Registered [] (View.empty : View k) := by
  refine ⟨⟨.empty hs.actives hs.processes hs.threads, ⟨?_, ?_, ?_⟩⟩, ⟨?_, ?_, ?_, ?_⟩⟩
  · exact fun t ht => absurd (hs.task t) ht
  · exact fun c hc => absurd hc (by simp [State.pointers, hs.process])
  · exact fun h hh => absurd hh (by simp [State.pointers, hs.thread])
  all_goals
    intro x
    exact iff_of_false Bool.false_ne_true Bool.false_ne_true

/-- **The lists along runs**: in every state reached by calls that register objects once, work
on registered primitives and unregister no task, thread or process, the memory has the lists of
a view of the registered objects. -/
theorem reach_good {guard : Hist k → State k → Call k → Prop}
    (hguard : ∀ {hist s c}, guard hist s c → Regular hist c) (hr : Reach policy guard hist s) :
    ∃ v, Good s v ∧ Registered hist v := by
  refine hr.invariant (J := fun hist s => ∃ v, Good s v ∧ Registered hist v) ?_ ?_
  · exact fun s hs => ⟨_, hs.good⟩
  · rintro hist s c r s' ⟨v, G, R⟩ hg he
    exact exec_good G R (hguard hg) he

end KernelTk.Sched
