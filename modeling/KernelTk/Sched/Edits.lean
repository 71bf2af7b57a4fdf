import KernelTk.Sched.Invariant

/-! # Calls as sequences of edits

A call that registers nothing changes the memory by the assignments of a few functions
(`Edit`), with calls to the policy in between (`Assigned`).

* **Edits.** `Edit.Checked s e` is what the checks of a debug build have established when the
  assignments are made; `Edits allowed s s'` : the memory `s'` is reached from `s` by allowed
  edits that were checked.
* **Functions.** A function of `sched.c` that returns makes its edits (`Edits.stopTask`,
  `Edits.overrideTask`, ...), and a loop those of its body (`Edits.forEachNode`).
* **Calls.** `exec_edits` : a call makes the edits of `Call.Allows` only.
* **Rule.** `Edits.keeps` : what the calls to the policy and the allowed edits keep, the call
  keeps.  An invariant is then proved once for each kind of edit, instead of once for each call, and
  what was checked when the edit is made is at hand.
* **Frames.** A call that cannot stop a task for `p` stops none (`exec_tStopper`), and one that does not
  override through `p` leaves the task that `p` overrides (`exec_pOverridden`): both are read off
  `Call.Allows`. -/

namespace KernelTk.Sched

open CircularList (walk_keeps)

variable {k : Machine} {policy : Policy k} {s s' s₁ : State k} {p : PrimId k} {t : TaskId k}
  {h : ThreadId k} {c : Call k} {r : BitVec 8}

/-- The assignments of the functions of `sched.c`. -/
inductive Edit (k : Machine) where
  | stop (p : PrimId k) (t : TaskId k)
  | resume (p : PrimId k) (t : TaskId k)
  | override (p : PrimId k) (t : TaskId k)
  | unoverride (p : PrimId k) (t : TaskId k)
  | take (p : PrimId k) (t : TaskId k)
  | release (p : PrimId k) (t : TaskId k)
  | releasePrim (p : PrimId k)
  | processStatus (d : ProcessId k) (x : BitVec 32)
  | commit (x : Scheduler k)

namespace Edit

/-- The memory after an edit. -/
def apply : Edit k → State k → State k
  | .stop p t, s => stopTask p t s
  | .resume p t, s => resumeTask p t s
  | .override p t, s => overrideTask p t s
  | .unoverride p t, s => unOverride p t s
  | .take p t, s => takeOwnership p t s
  | .release p t, s => releaseOwnership p t s
  | .releasePrim p, s => Sched.releasePrim p s
  | .processStatus d x, s => setProcessStatus d x s
  | .commit x, s => s.modSched fun _ => x

/-- What has been checked when the assignments are made. -/
def Checked (s : State k) : Edit k → Prop
  | .stop p t => s.Related p t ∧ s.taskActive t = true ∧ (s.task t).tStopper = none
  | .resume p t => (s.task t).tProcess ≠ none ∧ (s.task t).tStopper = some p ∧
      (s.task t).tStatus = schedStatusStopped
  | .override p t => s.Related p t ∧ (s.task t).tStatus = schedStatusActive ∧
      (s.prim p).pOverridden = none
  | .unoverride p t => (s.prim p).pOverridden = some t
  | .take p t => s.Related p t ∧ (s.task t).tStatus = schedStatusActive
  | .release p t => s.Related p t ∧ (s.prim p).pNbOwningTasks ≠ 0 ∧
      (s.task t).tNbOwnedPrimitives ≠ 0
  | .releasePrim p => (s.prim p).pNbOwningTasks ≠ 0
  | .processStatus _ _ | .commit _ => True

end Edit

/-- `s'` is reached from `s` by allowed edits that were checked, and by calls to the policy. -/
inductive Edits (allowed : Edit k → Prop) (s : State k) : State k → Prop
  | refl : Edits allowed s s
  | assigned {s₁ s' : State k} : Edits allowed s s₁ → Assigned s₁ s' → Edits allowed s s'
  | edit {s₁ : State k} (e : Edit k) : Edits allowed s s₁ → allowed e → e.Checked s₁ →
      Edits allowed s (e.apply s₁)

namespace Edits

variable {allowed : Edit k → Prop}

theorem trans (E : Edits allowed s s₁) (E' : Edits allowed s₁ s') : Edits allowed s s' := by
  induction E' with
  | refl => exact E
  | assigned _ A ih => exact ih.assigned A
  | edit e _ ha hc ih => exact ih.edit e ha hc

/-- **What the calls to the policy and the allowed edits keep, a sequence of edits keeps.** -/
theorem keeps {I : State k → Prop} (hassigned : ∀ {x x'}, I x → Assigned x x' → I x')
    (hedit : ∀ {x} e, I x → allowed e → e.Checked x → I (e.apply x)) (E : Edits allowed s s')
    (h0 : I s) : I s' := by
  induction E with
  | refl => exact h0
  | assigned _ A ih => exact hassigned ih A
  | edit e _ ha hc ih => exact hedit e ih ha hc

theorem hooked {sched : Bool} {call : HookCall k} {e : Edit k} (ha : allowed e)
    (hc : e.Checked s) (he : callHook ⟨true, policy⟩ sched call (e.apply s) = .ok s') :
    Edits allowed s s' :=
  (Edits.refl.edit e ha hc).assigned (callHook_assigned he).2.1

/-! ### The functions -/

theorem stopTask {task : Option (TaskId k)} (ha : ∀ t, allowed (.stop p t))
    (he : primitiveStopTask ⟨true, policy⟩ p task s = .ok s') : Edits allowed s s' := by
  obtain ⟨t, c, -, -, hchecks, he⟩ := primitiveStopTask_ok.mp he
  exact hooked (e := .stop p t) (ha t) (hchecks rfl) he

theorem stopThread (ha : ∀ t, allowed (.stop p t))
    (he : primitiveStopThread ⟨true, policy⟩ p h s = .ok s') : Edits allowed s s' := by
  obtain ⟨-, s₁, h₁, he⟩ := primitiveStopThread_ok.mp he
  exact (stopTask ha h₁).assigned (callHook_assigned he).2.1

theorem resumeTask {a : Addr k} (ha : ∀ p t, allowed (.resume p t))
    (he : primitiveResumeTask ⟨true, policy⟩ a s = .ok s') : Edits allowed s s' := by
  obtain ⟨t, c, p, -, hprc, hs, hchecks, he⟩ := primitiveResumeTask_ok.mp he
  have hmember : (s.task t).tProcess ≠ none := by simp [hprc]
  exact hooked (e := .resume p t) (ha p t) ⟨hmember, hs, (hchecks rfl).2.2⟩ he

theorem unOverride (ha : ∀ t, allowed (.unoverride p t))
    (he : primUnOverride ⟨true, policy⟩ p s = .ok s') : Edits allowed s s' := by
  rcases primUnOverride_ok.mp he with ⟨-, rfl⟩ | ⟨t, c, ho, -, he⟩
  · exact .refl
  · exact hooked (e := .unoverride p t) (ha t) ho he

end Edits

theorem primUnOverride_pOverridden (he : primUnOverride ⟨true, policy⟩ p s = .ok s') :
    (s'.prim p).pOverridden = none := by
  rcases primUnOverride_ok.mp he with ⟨ho, rfl⟩ | ⟨t, c, -, -, he⟩
  · exact ho
  · have h0 := congrFun (congrArg Pointers.pOverridden (unOverride_pointers s p t)) p
    rw [(callHook_assigned he).2.1.prim]
    simpa [State.pointers, Pointers.unoverride] using h0

theorem status_active_or : schedStatusActive ||| staskStatusUpdated = schedStatusActive := by
  decide

/-- An un-override does not change the checks made on the task that is overridden next. -/
theorem primUnOverride_checked (he : primUnOverride ⟨true, policy⟩ p s = .ok s')
    (hrel : s.Related p t) (hst : (s.task t).tStatus = schedStatusActive) :
    s'.Related p t ∧ (s'.task t).tStatus = schedStatusActive := by
  rcases primUnOverride_ok.mp he with ⟨-, rfl⟩ | ⟨u, c, -, -, he⟩
  · exact ⟨hrel, hst⟩
  · have A := (callHook_assigned he).2.1
    have e := unOverride_pointers s p u
    have hmember : (s'.task t).tProcess = (s.task t).tProcess :=
      (A.tProcess t).trans (congrFun (congrArg Pointers.tProcess e) t)
    have hprc : (s'.prim p).pProcess = (s.prim p).pProcess := by
      rw [A.prim]
      exact congrFun (congrArg Pointers.pProcess e) p
    have hsched : s'.schedOf = s.schedOf := by
      funext o
      cases o with
      | none => rfl
      | some d =>
          simp only [State.schedOf, A.process]
          exact congrFun (congrArg Pointers.pSched e) d
    refine ⟨⟨?_, ?_, ?_⟩, ?_⟩
    · rw [hmember]
      exact hrel.member
    · rw [hprc, hmember]
      exact hrel.same
    · rw [hsched, hmember]
      exact hrel.sched
    · obtain ⟨τ, -, hτ⟩ := unOverride_tStatus s p u
      have hu := hτ t
      have hs : s'.tStatus t = _ := (A.tStatus t).trans hu
      have hst' : s.tStatus t = schedStatusActive := hst
      rw [hst', status_active_or, ite_self] at hs
      exact hs

namespace Edits

variable {allowed : Edit k → Prop}

theorem overrideTask {task : Option (TaskId k)} (hu : ∀ t, allowed (.unoverride p t))
    (ha : ∀ t, allowed (.override p t))
    (he : primitiveOverrideTask ⟨true, policy⟩ p task s = .ok s') : Edits allowed s s' := by
  obtain ⟨t, c, s₁, -, -, hchecks, h₁, he⟩ := primitiveOverrideTask_ok.mp he
  obtain ⟨hrel, hst⟩ := primUnOverride_checked h₁ (hchecks rfl).1 (hchecks rfl).2
  refine (unOverride hu h₁).trans ?_
  exact hooked (e := .override p t) (ha t) ⟨hrel, hst, primUnOverride_pOverridden h₁⟩ he

theorem takeOwnership {task : Option (TaskId k)} (ha : ∀ t, allowed (.take p t))
    (he : primitiveTakeOwnership ⟨true, policy⟩ p task s = .ok s') : Edits allowed s s' := by
  obtain ⟨t, -, hchecks, rfl⟩ := primitiveTakeOwnership_ok.mp he
  exact Edits.refl.edit (.take p t) (ha t) (hchecks rfl)

theorem releaseOwnership {task : Option (TaskId k)} {e : BitVec 8}
    (ha : ∀ t, allowed (.release p t)) (hp : allowed (.releasePrim p))
    (he : primitiveReleaseOwnership ⟨true, policy⟩ p task s = .ok (e, s')) :
    Edits allowed s s' := by
  obtain ⟨t, -, hchecks, ⟨-, -, rfl⟩ | ⟨h₁, -, -, rfl⟩ | ⟨h₁, h₂, -, rfl⟩⟩ :=
    primitiveReleaseOwnership_ok.mp he
  · exact .refl
  · exact Edits.refl.edit (.releasePrim p) hp h₁
  · exact Edits.refl.edit (.release p t) (ha t) ⟨(hchecks rfl).1, h₁, h₂⟩

theorem acquire (ht : ∀ t, allowed (.take p t)) (hu : ∀ t, allowed (.unoverride p t))
    (ha : ∀ t, allowed (.override p t)) (he : mutexAcquire ⟨true, policy⟩ p h s = .ok s') :
    Edits allowed s s' := by
  obtain ⟨t, -, hchecks, he⟩ := mutexAcquire_ok.mp he
  exact (Edits.refl.edit (.take p t) (ht t) (hchecks rfl)).trans (overrideTask hu ha he)

theorem forEachNode {head : Node k} {body : Node k → State k → Except Fault (State k)}
    (hbody : ∀ {n x x'}, body n x = .ok x' → Edits allowed x x')
    (he : forEachNode head body s = .ok s') : Edits allowed s s' :=
  walk_keeps (I := Edits allowed s) (fun hx hb => hx.trans (hbody hb)) .refl he

theorem pauseTask {d : ProcessId k} {n : Node k} (ha : ∀ t, allowed (.stop (pPrim d) t))
    (he : pauseTask ⟨true, policy⟩ d n s = .ok s') : Edits allowed s s' := by
  simp only [Sched.pauseTask, bind_eq_ok] at he
  obtain ⟨t, -, he⟩ := he
  split at he
  · exact stopTask ha he
  · exact Except.ok.inj he ▸ .refl

end Edits

/-! ### The calls -/

/-- The calls that may stop a task for `p`. -/
def Call.stops (p : PrimId k) : Call k → Bool
  | .stopThread q _ | .mutexLock q _ | .semTake q _ => q == p
  | .pauseProcess d => pPrim d == p
  | _ => false

/-- The calls that may resume a task. -/
def Call.resumes : Call k → Bool
  | .resumeTask _ | .resumeProcess _ | .unregisterPrim _ => true
  | _ => false

/-- The calls that may change the task that `p` overrides. -/
def Call.overrides (p : PrimId k) : Call k → Bool
  | .overrideTask q _ | .unoverrideTask q | .unregisterPrim q | .mutexLock q _ | .mutexLockNb q _
  | .mutexUnlock q _ => q == p
  | _ => false

/-- The edits that a call may make. -/
def Call.Allows (c : Call k) : Edit k → Prop
  | .stop p _ => c.stops p = true
  | .resume _ _ => c.resumes = true
  | .override p _ | .unoverride p _ => c.overrides p = true
  | _ => True

/-- **A call makes its edits**, in a debug build, unless it registers or unregisters an
object. -/
theorem exec_edits (hreg : c.registers = false) (he : exec ⟨true, policy⟩ c s = .ok (r, s')) :
    Edits c.Allows s s' := by
  have hself : ∀ {q : PrimId k}, (q == q) = true := beq_self_eq_true _
  cases c with
  | registerProcess | unregisterProcess | registerThread | unregisterThread | registerTask
  | unregisterTask | registerPrim | unregisterPrim | mutexCtor | semCtor => cases hreg
  | openCommit =>
      obtain ⟨-, rfl⟩ := schedOpenCommit_ok.mp (void_eq_ok.mp he).2
      exact Edits.refl.edit (.commit _) trivial trivial
  | closeCommit =>
      obtain ⟨-, s₁, h₁, h₂⟩ := schedCloseCommit_ok.mp (void_eq_ok.mp he).2
      have E : Edits (Call.closeCommit (k := k)).Allows s
          ((Edit.commit { s.sched with sCommitOpened := false }).apply s) :=
        Edits.refl.edit _ trivial trivial
      exact (E.assigned (callHook_assigned h₁).2.1).assigned (callHook_assigned h₂).2.1
  | pauseProcess d =>
      obtain ⟨-, s₁, h₁, rfl⟩ := schedPauseProcess_ok.mp (void_eq_ok.mp he).2
      exact (Edits.forEachNode (Edits.pauseTask fun _ => hself) h₁).edit
        (.processStatus d _) trivial trivial
  | resumeProcess d =>
      obtain ⟨-, s₁, h₁, rfl⟩ := schedResumeProcess_ok.mp (void_eq_ok.mp he).2
      exact (Edits.forEachNode (Edits.resumeTask fun _ _ => rfl) h₁).edit
        (.processStatus d _) trivial trivial
  | assignTask h t => exact Edits.refl.assigned (threadAssignTask_assigned (void_eq_ok.mp he).2).1
  | takeOwnership p t => exact .takeOwnership (fun _ => trivial) (void_eq_ok.mp he).2
  | releaseOwnership p t => exact .releaseOwnership (fun _ => trivial) trivial he
  | overrideTask p t =>
      exact .overrideTask (fun _ => hself) (fun _ => hself) (void_eq_ok.mp he).2
  | unoverrideTask p =>
      exact .unOverride (fun _ => hself) (primitiveUnoverrideTask_ok.mp (void_eq_ok.mp he).2)
  | resumeTask t => exact .resumeTask (fun _ _ => rfl) (void_eq_ok.mp he).2
  | stopThread p h => exact .stopThread (fun _ => hself) (void_eq_ok.mp he).2
  | mutexLock p h =>
      rcases schedMutexLock_ok.mp (void_eq_ok.mp he).2 with ⟨-, he⟩ | ⟨-, he⟩
      · exact .stopThread (fun _ => hself) he
      · exact .acquire (fun _ => trivial) (fun _ => hself) (fun _ => hself) he
  | mutexLockNb p h =>
      rcases schedMutexLockNb_ok.mp he with ⟨-, -, rfl⟩ | ⟨-, -, hacq⟩
      · exact .refl
      · exact .acquire (fun _ => trivial) (fun _ => hself) (fun _ => hself) hacq
  | mutexUnlock p h =>
      rcases schedMutexUnlock_ok.mp he with ⟨-, -, rfl⟩ | ⟨-, -, -, rfl⟩ |
        ⟨t, e, s₁, -, -, h₁, ⟨-, -, rfl⟩ | ⟨-, -, s₂, h₂, h₃⟩⟩
      · exact .refl
      · exact .refl
      · exact .releaseOwnership (fun _ => trivial) trivial h₁
      · obtain ⟨-, rfl⟩ := resumeFirst_ok.mp h₃
        exact (Edits.releaseOwnership (fun _ => trivial) trivial h₁).trans
          (.unOverride (fun _ => hself) h₂)
  | semTake p h =>
      rcases schedSemTake_ok.mp (void_eq_ok.mp he).2 with ⟨-, he⟩ | ⟨-, he⟩
      · exact .stopThread (fun _ => hself) he
      · exact .takeOwnership (fun _ => trivial) he
  | semTakeNb p h =>
      rcases schedSemTakeNb_ok.mp he with ⟨-, -, rfl⟩ | ⟨-, -, htake⟩
      · exact .refl
      · exact .takeOwnership (fun _ => trivial) htake
  | semRelease p h =>
      obtain ⟨e, s₁, h₁, ⟨-, -, rfl⟩ | ⟨-, -, h₂⟩⟩ := schedSemRelease_ok.mp he
      · exact .releaseOwnership (fun _ => trivial) trivial h₁
      · obtain ⟨-, rfl⟩ := resumeFirst_ok.mp h₂
        exact .releaseOwnership (fun _ => trivial) trivial h₁

/-! ### Frames -/

/-- What an edit does to the pointers. -/
def Edit.pointers (P : Pointers k) : Edit k → Pointers k
  | .stop p t => P.stop p t
  | .resume p t => P.resume p t
  | .override p t => P.override p t
  | .unoverride p t => P.unoverride p t
  | _ => P

theorem Edit.apply_pointers (e : Edit k) (s : State k) :
    (e.apply s).pointers = e.pointers s.pointers := by
  cases e with
  | stop p t => exact stopTask_pointers s p t
  | resume p t => exact resumeTask_pointers s p t
  | override p t => exact overrideTask_pointers s p t
  | unoverride p t => exact unOverride_pointers s p t
  | take p t => exact takeOwnership_pointers s p t
  | release p t => exact releaseOwnership_pointers s p t
  | releasePrim p => exact releasePrim_pointers s p
  | processStatus d x => exact setProcessStatus_pointers s d x
  | commit x => rfl

theorem primitiveStopThread_pOverridden {q : PrimId k}
    (he : primitiveStopThread ⟨true, policy⟩ p h s = .ok s') :
    (s'.prim q).pOverridden = (s.prim q).pOverridden := by
  have E : Edits (fun e => ∃ t, e = .stop p t) s s' := Edits.stopThread (fun t => ⟨t, rfl⟩) he
  refine E.keeps (I := fun x => (x.prim q).pOverridden = (s.prim q).pOverridden)
    (fun hx A => by rw [A.prim]; exact hx) (fun {x} e hx ha _ => .trans ?_ hx) rfl
  obtain ⟨t, rfl⟩ := ha
  exact congrFun (congrArg Pointers.pOverridden (stopTask_pointers x p t)) q

/-- A call that does not override through `p` leaves the task that `p` overrides. -/
theorem exec_pOverridden (hreg : c.registers = false) (hp : c.overrides p = false)
    (he : exec ⟨true, policy⟩ c s = .ok (r, s')) :
    (s'.prim p).pOverridden = (s.prim p).pOverridden := by
  refine (exec_edits hreg he).keeps (I := fun x => (x.prim p).pOverridden = (s.prim p).pOverridden)
    (fun hx A => by rw [A.prim]; exact hx) (fun {x} e hx ha _ => ?_) rfl
  refine .trans ?_ hx
  have h0 : ((e.apply x).prim p).pOverridden = (e.pointers x.pointers).pOverridden p :=
    congrFun (congrArg Pointers.pOverridden (e.apply_pointers x)) p
  rw [h0]
  cases e with
  | override q t | unoverride q t =>
      have hq : p ≠ q := by
        rintro rfl
        exact absurd (hp.symm.trans ha) (by decide)
      exact Function.update_of_ne hq _ _
  | _ => rfl

/-- A call that does not stop for `p` stops no task for `p`. -/
theorem exec_tStopper (hreg : c.registers = false) (hp : c.stops p = false)
    (he : exec ⟨true, policy⟩ c s = .ok (r, s')) (hs : (s'.task t).tStopper = some p) :
    (s.task t).tStopper = some p := by
  refine (exec_edits hreg he).keeps
    (I := fun x => (x.task t).tStopper = some p → (s.task t).tStopper = some p)
    (fun hx A h => hx (A.tStopper t ▸ h)) (fun {x} e hx ha _ h => hx ?_) id hs
  have h0 : ((e.apply x).task t).tStopper = (e.pointers x.pointers).tStopper t :=
    congrFun (congrArg Pointers.tStopper (e.apply_pointers x)) t
  rw [h0] at h
  cases e with
  | stop q u =>
      have hq : q ≠ p := by
        rintro rfl
        exact absurd (hp.symm.trans ha) (by decide)
      by_cases htu : t = u
      · subst htu
        simp only [Edit.pointers, Pointers.stop, Function.update_self] at h
        exact absurd (Option.some.inj h) hq
      · simp only [Edit.pointers, Pointers.stop, Function.update_of_ne htu] at h
        exact h
  | resume q u =>
      by_cases htu : t = u
      · simp [Edit.pointers, Pointers.resume, htu] at h
      · simp only [Edit.pointers, Pointers.resume, Function.update_of_ne htu] at h
        exact h
  | _ => exact h

end KernelTk.Sched
