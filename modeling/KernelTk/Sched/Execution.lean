import KernelTk.Sched.Zones

/-! # Calls as sequences of moves

* **Functions.** A function of `sched.c` that returns in a debug build has made its moves
  (`Moves.stopTask`, `Moves.resumeTask`, ...), and so has a loop over a list
  (`Moves.forEachNode`).
* **Walks.** The walks of the unregistrations stay in their zone: they meet nodes of tasks that
  have been registered (`walk_known`), even where the list is broken.  The walk of
  `process_unregister_task` and that of `sched_resume_process` read another field than the one
  that their list is linked through, and return on an empty list only (`walk_tOverriders`,
  `walk_pStopped`).  Where the list is a ring, `forEachNode_ring` gives the usual rule.
* **Unregistrations.** `processUnregisterTask_ok`, `schedUnregisterThread_ok` and
  `schedUnregisterProcess_ok` say what these functions have done when they return.
* **Calls.** `exec_moves` : a call makes the moves of `Call.Makes` and no other, in the memories that
  its checks allow.  It is the one case analysis over all calls; what follows reads it off.
* **Runs.** `reach_zones` : the zones hold in every state reached, by any calls, and the primitive of a
  registered process has been registered.  `reach_tSched` : the threads that point to the scheduler are
  the registered ones. -/

namespace KernelTk.Sched

open Transition
open CircularList (walk walk_keeps SameZone)

variable {k : Machine} {policy : Policy k} {hist : Hist k} {s s' s₀ s₁ : State k}
  {T : ThreadId k → Prop} {p : PrimId k} {t : TaskId k} {h : ThreadId k} {d : ProcessId k}
  {c : Call k} {r : BitVec 8}

/-! ### Functions -/

namespace Moves

variable {allowed : State k → Move k → Prop}

section functions

variable (hpolicy : Answers policy s₀ allowed) (h0 : s₀.hooks <:+ s.hooks)
include hpolicy h0

theorem stopTask {task : Option (TaskId k)} (ha : ∀ t, task = some t → allowed s (.edit (.stop p t)))
    (he : primitiveStopTask ⟨true, policy⟩ p task s = .ok s') : Moves allowed s s' := by
  obtain ⟨t, c, ht, -, hchecks, he⟩ := primitiveStopTask_ok.mp he
  exact reported hpolicy h0 (ha t ht) ⟨hchecks rfl, trivial⟩ rfl he

theorem resumeTask {a : Addr k} (ha : ∀ p t, a.task? = some t → allowed s (.edit (.resume p t)))
    (he : primitiveResumeTask ⟨true, policy⟩ a s = .ok s') : Moves allowed s s' := by
  obtain ⟨t, c, p, ht, hprc, hs, hchecks, he⟩ := primitiveResumeTask_ok.mp he
  obtain ⟨-, hsame, hst⟩ := hchecks rfl
  have hmember : (s.task t).tProcess ≠ none := by simp [hprc]
  exact reported hpolicy h0 (ha p t ht) ⟨⟨hmember, hs, hst⟩, hsame⟩ rfl he

theorem unOverride (ha : ∀ t, allowed s (.edit (.unoverride p t)))
    (he : primUnOverride ⟨true, policy⟩ p s = .ok s') : Moves allowed s s' := by
  rcases primUnOverride_ok.mp he with ⟨-, rfl⟩ | ⟨t, c, ho, hprc, he⟩
  · exact .refl
  · exact reported hpolicy h0 (ha t) ⟨ho, by simp [hprc]⟩ rfl he

theorem overrideTask {task : Option (TaskId k)} (hu : ∀ t, allowed s (.edit (.unoverride p t)))
    (ha : ∀ x t, allowed x (.edit (.override p t)))
    (he : primitiveOverrideTask ⟨true, policy⟩ p task s = .ok s') : Moves allowed s s' := by
  obtain ⟨t, c, s₁, -, -, hchecks, h₁, he⟩ := primitiveOverrideTask_ok.mp he
  obtain ⟨hrel, hst⟩ := primUnOverride_checked h₁ (hchecks rfl).1 (hchecks rfl).2
  have M₁ := unOverride hpolicy h0 hu h₁
  refine M₁.trans ?_
  exact reported hpolicy (h0.trans M₁.hooks) (ha s₁ t)
    ⟨⟨hrel, hst, primUnOverride_pOverridden h₁⟩, trivial⟩ rfl he

theorem stopThread (ha : ∀ t, (s.thread h).tTask = some t → allowed s (.edit (.stop p t)))
    (hr : ∀ x, allowed x (.report (.assignOne h)))
    (he : primitiveStopThread ⟨true, policy⟩ p h s = .ok s') : Moves allowed s s' := by
  obtain ⟨-, s₁, h₁, he⟩ := primitiveStopThread_ok.mp he
  have M₁ := stopTask hpolicy h0 ha h₁
  exact M₁.trans (reporting hpolicy (h0.trans M₁.hooks) he (hr s₁))

omit hpolicy h0 in
theorem takeOwnership {task : Option (TaskId k)} (ha : ∀ t, allowed s (.edit (.take p t)))
    (he : primitiveTakeOwnership ⟨true, policy⟩ p task s = .ok s') : Moves allowed s s' := by
  obtain ⟨t, -, hchecks, rfl⟩ := primitiveTakeOwnership_ok.mp he
  exact single (.edit (.take p t)) ⟨hchecks rfl, trivial⟩ (ha t)

omit hpolicy h0 in
theorem releaseOwnership {task : Option (TaskId k)} {e : BitVec 8}
    (ha : ∀ t, allowed s (.edit (.release p t))) (hp : allowed s (.edit (.releasePrim p)))
    (he : primitiveReleaseOwnership ⟨true, policy⟩ p task s = .ok (e, s')) :
    Moves allowed s s' := by
  obtain ⟨t, -, hchecks, ⟨-, -, rfl⟩ | ⟨h₁, -, -, rfl⟩ | ⟨h₁, h₂, -, rfl⟩⟩ :=
    primitiveReleaseOwnership_ok.mp he
  · exact .refl
  · exact single (.edit (.releasePrim p)) ⟨h₁, trivial⟩ hp
  · exact single (.edit (.release p t)) ⟨⟨(hchecks rfl).1, h₁, h₂⟩, trivial⟩ (ha t)

theorem acquire (ht : ∀ t, allowed s (.edit (.take p t)))
    (hu : ∀ x t, allowed x (.edit (.unoverride p t)))
    (ha : ∀ x t, allowed x (.edit (.override p t)))
    (he : mutexAcquire ⟨true, policy⟩ p h s = .ok s') : Moves allowed s s' := by
  obtain ⟨t, -, hchecks, he⟩ := mutexAcquire_ok.mp he
  exact (single (.edit (.take p t)) ⟨hchecks rfl, trivial⟩ (ht t)).trans
    (overrideTask hpolicy h0 (hu _) ha he)

omit hpolicy in
theorem forEachNode {head : Node k} {body : Node k → State k → Except Fault (State k)}
    (hbody : ∀ {n x x'}, s₀.hooks <:+ x.hooks → body n x = .ok x' → Moves allowed x x')
    (he : forEachNode head body s = .ok s') : Moves allowed s s' :=
  walk_keeps (I := Moves allowed s) (fun hx hb => hx.trans (hbody (h0.trans hx.hooks) hb)) .refl he

theorem pauseTask {n : Node k} (ha : ∀ x t, allowed x (.edit (.stop (pPrim d) t)))
    (he : pauseTask ⟨true, policy⟩ d n s = .ok s') : Moves allowed s s' := by
  simp only [Sched.pauseTask, bind_eq_ok] at he
  obtain ⟨t, -, he⟩ := he
  split at he
  · exact stopTask hpolicy h0 (fun t _ => ha s t) he
  · exact Except.ok.inj he ▸ .refl

end functions

theorem pProcess (M : Moves allowed s s') (hp : (s.prim p).pProcess ≠ none) :
    (s'.prim p).pProcess ≠ none := by
  refine M.keeps (I := fun x => (x.prim p).pProcess ≠ none) (fun {x} m hx _ _ => ?_) hp
  by_cases hadd : ∃ d, m = .addPrim d p
  · obtain ⟨d, rfl⟩ := hadd
    have e : (((Move.addPrim d p).apply x).prim p).pProcess = some d := by
      simp [Move.apply, processRegisterPrim]
    exact e ▸ Option.some_ne_none d
  · rw [m.apply_pProcess x fun d e => hadd ⟨d, e⟩]
    exact hx

theorem zones (M : Moves allowed s s') (hno : ∀ x h, ¬allowed x (.addThread h))
    (Z : Zones s.pointers T) : Zones s'.pointers T := by
  refine M.keeps (I := fun x => Zones x.pointers T) (fun {x} m hx hm ha => ?_) Z
  have hx' := hx.move m hm
  cases m with
  | addThread h => exact absurd ha (hno x h)
  | _ => exact hx'

end Moves

theorem Moves.same {allowed : State k → Move k → Prop} {z : Zone} (M : Moves allowed s s')
    (ha : ∀ x m, allowed x m → m.touches z = false) (Z : Zones s.pointers T) :
    SameZone Node.zone z s.links s'.links := by
  refine (M.keeps (I := fun x => (∃ T, Zones x.pointers T) ∧ SameZone Node.zone z s.links x.links)
    (fun {x} m hx hm hallowed => ?_) ⟨⟨T, Z⟩, .refl _ _ _⟩).2
  obtain ⟨⟨T, Z⟩, hsame⟩ := hx
  exact ⟨⟨_, Z.move m hm⟩, hsame.trans (Z.same m hm (ha x m hallowed))⟩

/-! ### Walks -/

/-- The nodes that a walk meets are known and of the kind of its head. -/
theorem walk_known {body : Node k → State k → Except Fault (State k)} {I : State k → Prop}
    {head : Node k} (hzones : ∀ {x}, I x → Zones x.pointers T)
    (hbody : ∀ {n x x'}, I x → n.known x.pointers T → n.zone = head.zone → body n x = .ok x' →
      I x' ∧ ∀ m : Node k, m.known x.pointers T → m.known x'.pointers T)
    (hhead : head.known s.pointers T) (h0 : I s) (he : forEachNode head body s = .ok s') : I s' := by
  have key : ∀ (fuel : ℕ) (n : Node k) (x : State k), I x → n.known x.pointers T →
      n.zone = head.zone →
      walk (fun s n => s.links.next n) head .endless body fuel n x = .ok s' → I s' := by
    intro fuel
    induction fuel with
    | zero => exact fun n x _ _ _ he => by simp [walk] at he
    | succ fuel ih =>
        intro n x hx hn hz he
        rw [walk] at he
        split at he
        · exact Except.ok.inj he ▸ hx
        · simp only [bind_eq_ok] at he
          obtain ⟨x₁, h₁, he⟩ := he
          obtain ⟨hknown, hzone⟩ := (hzones hx).links.next hn
          obtain ⟨hx₁, hmono⟩ := hbody hx hn hz h₁
          exact ih _ x₁ hx₁ (hmono _ hknown) (hzone.trans hz) he
  obtain ⟨hknown, hzone⟩ := (hzones h0).links.next hhead
  exact key _ _ s h0 hknown hzone he

/-- A walk along a ring: `I l x` when the elements `l` are still to be visited. -/
theorem forEachNode_ring {α : Type} (node : α → Node k) {head : Node k}
    {body : Node k → State k → Except Fault (State k)} (I : List α → State k → Prop)
    (hnext : ∀ {a l x}, I (a :: l) x →
      node a ≠ head ∧ x.links.next (node a) = (l.map node).headD head)
    (hbody : ∀ {a l x x'}, I (a :: l) x → body (node a) x = .ok x' → I l x')
    {l : List α} (h0 : I l s) (hhead : s.links.next head = (l.map node).headD head)
    (he : forEachNode head body s = .ok s') : I [] s' := by
  unfold forEachNode at he
  rw [hhead] at he
  have hrule := CircularList.walk_partial (fun (s : State k) n => s.links.next n) head Fault.endless
    body (fun nodes x => ∃ l, I l x ∧ nodes = l.map node) ?_ ?_ ⟨l, h0, rfl⟩ he
  · obtain ⟨l', hl', e⟩ := hrule
    obtain rfl := List.map_eq_nil_iff.mp e.symm
    exact hl'
  · rintro n nodes x ⟨l', hl', e⟩
    cases l' with
    | nil => cases e
    | cons a l' =>
        obtain ⟨rfl, rfl⟩ := List.cons.inj e
        exact hnext hl'
  · rintro n nodes x x' ⟨l', hl', e⟩ hb
    cases l' with
    | nil => cases e
    | cons a l' =>
        obtain ⟨rfl, rfl⟩ := List.cons.inj e
        exact ⟨l', hbody hl' hb, rfl⟩

/-- The walk of `process_unregister_task` reads `p_overriders` off a list that is linked through
`p_siblings` : it returns on an empty list only. -/
theorem walk_tOverriders (Z : Zones s.pointers T) (ht : (s.task t).tProcess ≠ none)
    (he : forEachNode (.tOverriders t)
      (fun n s => primitiveUnoverrideTask ⟨true, policy⟩ (containerOf n pOverridersOffset) s) s =
        .ok s') : s' = s ∧ s.links.next (.tOverriders t) = .tOverriders t := by
  have hzone : (s.links.next (.tOverriders t)).zone = .overriders :=
    (Z.links.next (n := Node.tOverriders t) ht).2
  unfold forEachNode at he
  rw [walk] at he
  split at he
  · rename_i hself
    exact ⟨(Except.ok.inj he).symm, hself⟩
  · rename_i hne
    exfalso
    simp only [bind_eq_ok, primitiveUnoverrideTask, deref_eq_ok] at he
    obtain ⟨x, ⟨q, hq, -⟩, -⟩ := he
    cases hn : s.links.next (.tOverriders t) with
    | tOverriders u =>
        rw [hn] at hq
        cases hq
    | pSiblings q' =>
        rw [hn] at hq
        cases hq
    | _ =>
        rw [hn] at hzone
        cases hzone

/-- The walk of `sched_resume_process` reads `t_siblings` off a list that is linked through
`t_stopped` : it returns on an empty list only. -/
theorem walk_pStopped (Z : Zones s.pointers T) (hp : (s.prim p).pProcess ≠ none)
    (he : forEachNode (.pStopped p)
      (fun n s => primitiveResumeTask ⟨true, policy⟩ (containerOf n tSiblingsOffset) s) s =
        .ok s') : s' = s := by
  have hzone : (s.links.next (.pStopped p)).zone = .stopped :=
    (Z.links.next (n := Node.pStopped p) hp).2
  unfold forEachNode at he
  rw [walk] at he
  split at he
  · exact (Except.ok.inj he).symm
  · exfalso
    simp only [bind_eq_ok, primitiveResumeTask, deref_eq_ok] at he
    obtain ⟨x, ⟨u, hu, -⟩, -⟩ := he
    cases hn : s.links.next (.pStopped p) with
    | pStopped q =>
        rw [hn] at hu
        cases hu
    | tStopped u' =>
        rw [hn] at hu
        cases hu
    | _ =>
        rw [hn] at hzone
        cases hzone

/-! ### Calls -/

/-- The calls that may stop the task of a thread: the primitive and the thread. -/
def Call.blocking : Call k → Option (PrimId k × ThreadId k)
  | .stopThread p h | .mutexLock p h | .semTake p h => some (p, h)
  | _ => none

/-- The calls that may take or release `p`. -/
def Call.owns (p : PrimId k) : Call k → Bool
  | .takeOwnership q _ | .releaseOwnership q _ | .mutexLock q _ | .mutexLockNb q _
  | .mutexUnlock q _ | .semTake q _ | .semTakeNb q _ | .semRelease q _ => q == p
  | _ => false

/-- The primitive that a call registers, and its process. -/
def Call.primOf : Call k → Option (ProcessId k × PrimId k)
  | .registerProcess d => some (d, pPrim d)
  | .registerPrim d p | .mutexCtor p d | .semCtor p _ d => some (d, p)
  | _ => none

/-- The moves that a call made in the memory `s₀` may make in the memory `x`. -/
def Call.Makes (policy : Policy k) (c : Call k) (s₀ x : State k) : Move k → Prop
  | .edit e => match e with
      | .stop p t => (∃ h, c.blocking = some (p, h) ∧ (s₀.thread h).tTask = some t) ∨
          ∃ d, c = .pauseProcess d ∧ p = pPrim d
      | .resume _ t => c = .resumeTask t ∨ (∃ q, c = .unregisterPrim q) ∨
          ∃ h, c = .unregisterTask h ∧ (s₀.thread h).tTask = some t
      | .override p _ | .unoverride p _ => c.overrides p = true
      | .take p _ | .release p _ | .releasePrim p => c.owns p = true
      | .commit y => (c = .openCommit ∧ y = { x.sched with
            sCommitOpened := true, sCommitIndex := x.sched.sCommitIndex + 1 }) ∨
          (c = .closeCommit ∧ y = { x.sched with sCommitOpened := false })
      | .processStatus d y => (c = .pauseProcess d ∧ y = schedStatusStopped) ∨
          (c = .resumeProcess d ∧ y = schedStatusActive)
  | .report call => match call with
      | .unregistered t => ∃ h, c = .unregisterTask h ∧ (s₀.thread h).tTask = some t
      | .schedule | .assignAll | .assignOne _ => True
      | _ => False
  | .assign h t => c = .assignTask h (some t) ∨ Answered policy s₀ x h (some t)
  | .idle h => c = .assignTask h none ∨ Answered policy s₀ x h none
  | .leave t => (∃ h, c = .unregisterThread h) ∨
      ∃ h, c = .unregisterTask h ∧ (s₀.thread h).tTask = some t
  | .unlink t => ∃ h, c = .unregisterTask h ∧ (s₀.thread h).tTask = some t
  | .unlinkUnsafe _ => ∃ d, c = .unregisterProcess d
  | .uncount _ => ∃ h, c = .unregisterTask h
  | .addProcess d => c = .registerProcess d
  | .addThread h => c = .registerThread h
  | .addTask d t => c = .registerTask d t
  | .addPrim d p => c.primOf = some (d, p)
  | .setBound p n => ∃ d, c = .semCtor p n d
  | .forgetPrim _ p => c = .unregisterPrim p
  | .forgetThread h => c = .unregisterThread h
  | .forgetProcess d => c = .unregisterProcess d

theorem Call.makes_answers (policy : Policy k) (c : Call k) (s : State k) :
    Answers policy s (c.Makes policy s) := by
  intro x h t hans
  cases t with
  | none => exact .inr hans
  | some t => exact .inr hans

/-- The memory of `process_unregister_task` before the call that reports the unregistration. -/
def leaveProcess (t : TaskId k) (d : ProcessId k) (s : State k) : State k :=
  let s := threadUnregisterTask t s
  let s := s.modLinks fun l => l.remove (.tSchedList t)
  s.modProcess d fun x => { x with pNbTasks := x.pNbTasks - 1 }

/-- A task that is stopped is resumed before it leaves. -/
theorem resumed_keeps (Z : Zones s.pointers T) (hresumed : if (s.task t).tStatus = schedStatusStopped
      then primitiveResumeTask ⟨true, policy⟩ (taskAddr t) s = .ok s' else s' = s) :
    Zones s'.pointers T ∧ (s'.task t).tProcess = (s.task t).tProcess := by
  split at hresumed
  · have hpolicy : Answers policy s (fun _ m => ∀ g, m ≠ .addThread g) := by
      intro x g u _ v
      cases u <;> exact fun e => by cases e
    have M := Moves.resumeTask hpolicy List.suffix_rfl (fun _ _ _ _ e => by cases e) hresumed
    obtain ⟨u, c, p, -, -, -, -, hcall⟩ := primitiveResumeTask_ok.mp hresumed
    refine ⟨M.zones (fun _ g h => h g rfl) Z, ?_⟩
    rw [(callHook_assigned hcall).2.1.tProcess]
    exact congrFun (congrArg Pointers.tProcess (resumeTask_pointers s p u)) t
  · rw [hresumed]
    exact ⟨Z, rfl⟩

/-- What `process_unregister_task` does when it returns: it has found no overrider; `d` is the process of
the task. -/
theorem processUnregisterTask_home (Z : Zones s.pointers T)
    (he : processUnregisterTask ⟨true, policy⟩ h s = .ok (r, s')) : ∃ t s₁ d s₂,
      (s.thread h).tTask = some t ∧ s.threadActive h = true ∧ (s.task t).tProcess = some d ∧
      (if (s.task t).tStatus = schedStatusStopped
        then primitiveResumeTask ⟨true, policy⟩ (taskAddr t) s = .ok s₁ else s₁ = s) ∧
      s₁.links.next (.tOverriders t) = .tOverriders t ∧
      callHook ⟨true, policy⟩ true (.unregistered t)
        (leaveProcess t d (s₁.modLinks fun l => l.remove (.tSchedList t))) = .ok s₂ ∧
      callHook ⟨true, policy⟩ true (.assignOne h) s₂ = .ok s' := by
  simp only [processUnregisterTask, bind_eq_ok, nsCheck_eq_ok, nsCheckActive_eq_ok, deref_eq_ok,
    exists_const, true_implies] at he
  obtain ⟨hsched, hactive, t, ht, -, hmember, -, he⟩ := he
  obtain ⟨s₁, hresumed, he⟩ : ∃ s₁, (if (s.task t).tStatus = schedStatusStopped
      then primitiveResumeTask ⟨true, policy⟩ (taskAddr t) s = .ok s₁ else s₁ = s) ∧
      ∃ s₂, forEachNode (.tOverriders t) (fun n s => primitiveUnoverrideTask ⟨true, policy⟩
          (containerOf n pOverridersOffset) s) (s₁.modLinks fun l => l.remove (.tSchedList t)) =
          .ok s₂ ∧
        ∃ d, ((threadUnregisterTask t s₂).task t).tProcess = some d ∧
          ∃ s₃, callHook ⟨true, policy⟩ (s.thread h).tSched (.unregistered t)
              (leaveProcess t d s₂) = .ok s₃ ∧
            callHook ⟨true, policy⟩ (s.thread h).tSched (.assignOne h) s₃ = .ok s' := by
    split at he
    · rename_i hst
      simp only [bind_eq_ok, deref_eq_ok, ok_pair_eq] at he
      obtain ⟨s₁, h₁, s₂, h₂, d, hd, s₃, h₃, s₄, h₄, -, rfl⟩ := he
      exact ⟨s₁, by rwa [if_pos hst], s₂, h₂, d, hd, s₃, h₃, h₄⟩
    · rename_i hst
      simp only [bind_eq_ok, deref_eq_ok, ok_pair_eq] at he
      obtain ⟨s₁, h₁, s₂, h₂, d, hd, s₃, h₃, s₄, h₄, -, rfl⟩ := he
      exact ⟨s₁, by rw [if_neg hst, Except.ok.inj h₁], s₂, h₂, d, hd, s₃, h₃, h₄⟩
  obtain ⟨s₂, hwalk, d, hd, s₃, h₃, h₄⟩ := he
  obtain ⟨Z₁, hsame₁⟩ := resumed_keeps Z hresumed
  have hmember₁ : (s₁.task t).tProcess ≠ none := hsame₁ ▸ hmember
  have Z₂ := Zones.move Z₁ (.unlink t) hmember₁
  obtain ⟨rfl, hnext⟩ := walk_tOverriders Z₂ hmember₁ hwalk
  have hhome : (s.task t).tProcess = some d := by
    rw [← hsame₁, ← hd, (threadUnregisterTask_assigned t _).tProcess]
    rfl
  refine ⟨t, s₁, d, s₃, ht, hactive, hhome, hresumed, ?_, hsched ▸ h₃, hsched ▸ h₄⟩
  -- the list of the active tasks is of another kind
  have hsame := Zones.same (z := .overriders) Z₁ (.unlink t) hmember₁ rfl (.tOverriders t) rfl
  exact hsame.1.symm.trans hnext

theorem processUnregisterTask_ok (Z : Zones s.pointers T)
    (he : processUnregisterTask ⟨true, policy⟩ h s = .ok (r, s')) : ∃ t s₁ d s₂,
      (s.thread h).tTask = some t ∧ s.threadActive h = true ∧ (s.task t).tProcess ≠ none ∧
      (if (s.task t).tStatus = schedStatusStopped
        then primitiveResumeTask ⟨true, policy⟩ (taskAddr t) s = .ok s₁ else s₁ = s) ∧
      s₁.links.next (.tOverriders t) = .tOverriders t ∧
      callHook ⟨true, policy⟩ true (.unregistered t)
        (leaveProcess t d (s₁.modLinks fun l => l.remove (.tSchedList t))) = .ok s₂ ∧
      callHook ⟨true, policy⟩ true (.assignOne h) s₂ = .ok s' := by
  obtain ⟨t, s₁, d, s₂, ht, hactive, hhome, hrest⟩ := processUnregisterTask_home Z he
  exact ⟨t, s₁, d, s₂, ht, hactive, hhome ▸ Option.some_ne_none d, hrest⟩

/-- What `sched_unregister_thread` does when it returns: it has taken tasks out of their
histories. -/
theorem schedUnregisterThread_ok (allowed : State k → Move k → Prop) (Z : Zones s.pointers T)
    (ha : ∀ x t, allowed x (.leave t)) (he : schedUnregisterThread ⟨true, policy⟩ h s = .ok s') :
    (s.thread h).tSched = true ∧ ∃ s₁, forEachNode (.threadHistory h) (fun n s => do
        let task ← deref (containerOf n tHistoryOffset).task?
        .ok (threadUnregisterTask task s)) s = .ok s₁ ∧ Moves allowed s s₁ ∧
      (s₁.thread h).tSched = true ∧ s' = Sched.forgetThread h s₁ := by
  simp only [schedUnregisterThread, abortIfCommitClosed, bind_eq_ok, nsCheck_eq_ok,
    derefSched_eq_ok, exists_const] at he
  obtain ⟨-, -, s₁, h₁, hsched, he⟩ := he
  refine ⟨hsched, s₁, h₁, ?_⟩
  have hhead : Node.known s.pointers T (.threadHistory h) := Z.thread h hsched
  have hwalk : Moves allowed s s₁ ∧ Zones s₁.pointers T ∧ (s₁.thread h).tSched = true := by
    refine walk_known (I := fun x => Moves allowed s x ∧ Zones x.pointers T ∧
      (x.thread h).tSched = true) (fun hx => hx.2.1) ?_ hhead ⟨.refl, Z, hsched⟩ h₁
    rintro n x x' ⟨M, Zx, hx⟩ hn hzone hbody
    simp only [bind_eq_ok, deref_eq_ok, Except.ok.injEq] at hbody
    obtain ⟨u, hu, rfl⟩ := hbody
    have hmember : (x.task u).tProcess ≠ none := by
      cases n with
      | threadHistory g => cases hu
      | tHistory u' =>
          obtain rfl := Option.some.inj hu
          exact hn
      | _ => cases hzone
    have hsched' : ((threadUnregisterTask u x).thread h).tSched = true :=
      ((threadUnregisterTask_assigned u x).tSched h).trans hx
    refine ⟨⟨M.step (.leave u) hmember (ha x u), Zx.move (.leave u) hmember, hsched'⟩, ?_⟩
    intro m hm
    have e : m.known (threadUnregisterTask u x).pointers T = m.known x.pointers T := by
      rw [leave_pointers]
      cases x.pointers.tThread u <;> cases m <;> rfl
    exact e ▸ hm
  exact ⟨hwalk.1, hwalk.2.2, (Except.ok.inj he).symm⟩

/-- What `sched_unregister_process` does when it returns: it has unlinked tasks. -/
theorem schedUnregisterProcess_ok (allowed : State k → Move k → Prop) (Z : Zones s.pointers T)
    (ha : ∀ x t, allowed x (.unlinkUnsafe t))
    (he : schedUnregisterProcess ⟨true, policy⟩ d s = .ok s') :
    (s.process d).pSched = true ∧ ∃ s₁, forEachNode (.pTasks d) (fun n s => do
        let task ← deref (containerOf n tSiblingsOffset).task?
        if (s.task task).tStatus = schedStatusActive then
          .ok (s.modLinks fun l => l.removeUnsafe (.tSchedList task))
        else .ok s) s = .ok s₁ ∧ Moves allowed s s₁ ∧ (s₁.process d).pSched = true ∧
      s' = Sched.forgetProcess d s₁ := by
  simp only [schedUnregisterProcess, abortIfCommitClosed, bind_eq_ok, nsCheck_eq_ok,
    derefSched_eq_ok, exists_const] at he
  obtain ⟨-, -, s₁, h₁, hsched, he⟩ := he
  refine ⟨hsched, s₁, h₁, ?_⟩
  have hhead : Node.known s.pointers T (.pTasks d) := hsched
  have hwalk : Moves allowed s s₁ ∧ Zones s₁.pointers T ∧ (s₁.process d).pSched = true := by
    refine walk_known (I := fun x => Moves allowed s x ∧ Zones x.pointers T ∧
      (x.process d).pSched = true) (fun hx => hx.2.1) ?_ hhead ⟨.refl, Z, hsched⟩ h₁
    rintro n x x' ⟨M, Zx, hx⟩ hn hzone hbody
    simp only [bind_eq_ok, deref_eq_ok] at hbody
    obtain ⟨u, hu, hbody⟩ := hbody
    split at hbody
    · have hmember : (x.task u).tProcess ≠ none := by
        cases n with
        | pTasks e => cases hu
        | tSiblings u' =>
            obtain rfl := Option.some.inj hu
            exact hn
        | _ => cases hzone
      obtain rfl := Except.ok.inj hbody
      refine ⟨⟨M.step (.unlinkUnsafe u) hmember (ha x u), Zx.move (.unlinkUnsafe u) hmember, hx⟩,
        fun m hm => ?_⟩
      cases m <;> exact hm
    · obtain rfl := Except.ok.inj hbody
      exact ⟨⟨M, Zx, hx⟩, fun _ => id⟩
  exact ⟨hwalk.1, hwalk.2.2, (Except.ok.inj he).symm⟩

/-- The primitive of a registered process has been registered. -/
def State.Primed (s : State k) : Prop :=
  ∀ d, (s.process d).pSched = true → (s.prim (pPrim d)).pProcess ≠ none

/-- **A call is a sequence of its moves**, in a debug build. -/
theorem exec_moves (Z : Zones s.pointers T) (hprimed : s.Primed)
    (he : exec ⟨true, policy⟩ c s = .ok (r, s')) : Moves (c.Makes policy s) s s' := by
  have hpolicy := c.makes_answers policy s
  have h0 : s.hooks <:+ s.hooks := List.suffix_rfl
  have hself : ∀ {q : PrimId k}, (q == q) = true := beq_self_eq_true _
  cases c with
  | registerProcess d =>
      obtain ⟨-, rfl⟩ := ok_pair_eq.mp he
      exact (Moves.single (.addProcess d) trivial rfl).step (.addPrim d (pPrim d)) trivial rfl
  | registerThread h =>
      obtain ⟨-, rfl⟩ := ok_pair_eq.mp he
      exact Moves.single (.addThread h) trivial rfl
  | registerTask d t =>
      obtain ⟨hsched, rfl⟩ := processRegisterTask_iff.mp (void_eq_ok.mp he).2
      exact Moves.single (.addTask d t) hsched rfl
  | registerPrim d p | mutexCtor p d =>
      obtain ⟨-, rfl⟩ := ok_pair_eq.mp he
      exact Moves.single (.addPrim d p) trivial rfl
  | semCtor p n d =>
      obtain ⟨-, rfl⟩ := ok_pair_eq.mp he
      exact (Moves.single (.setBound p n) trivial ⟨d, rfl⟩).step (.addPrim d p) trivial rfl
  | unregisterPrim p =>
      obtain ⟨s₁, s₂, d, h₁, h₂, hprc, -, rfl⟩ := processUnregisterPrim_ok he
      have M₁ : Moves ((Call.unregisterPrim p).Makes policy s) s s₁ :=
        Moves.forEachNode h0 (fun hx hb =>
          Moves.resumeTask hpolicy hx (fun _ _ _ => .inr (.inl ⟨p, rfl⟩)) hb) h₁
      have M₂ := M₁.trans (Moves.unOverride hpolicy M₁.hooks (fun _ => hself) h₂)
      have hmember : (s₂.prim p).pProcess ≠ none := M₂.pProcess (by simp [hprc])
      exact M₂.step (.forgetPrim d p) ⟨hmember, primUnOverride_pOverridden h₂⟩ rfl
  | unregisterTask h =>
      obtain ⟨t, s₁, d, s₂, ht, -, hmember, hresumed, -, h₂, h₃⟩ := processUnregisterTask_ok Z he
      have hown : ∃ g, Call.unregisterTask h = Call.unregisterTask g ∧
          (s.thread g).tTask = some t := ⟨h, rfl, ht⟩
      have M₁ : Moves ((Call.unregisterTask h).Makes policy s) s s₁ := by
        split at hresumed
        · refine Moves.resumeTask hpolicy h0 (fun q u hu => .inr (.inr ?_)) hresumed
          obtain rfl := Option.some.inj hu
          exact hown
        · exact hresumed ▸ .refl
      have hkeep : ∀ {x : State k} (m : Move k), (x.task t).tProcess ≠ none →
          (m = .unlink t ∨ m = .leave t) → ((m.apply x).task t).tProcess ≠ none := by
        rintro x m hx (rfl | rfl)
        · exact hx
        · exact ((threadUnregisterTask_assigned t x).tProcess t) ▸ hx
      have hmember₁ : (s₁.task t).tProcess ≠ none := by
        split at hresumed
        · obtain ⟨u, c, p, -, -, -, -, hcall⟩ := primitiveResumeTask_ok.mp hresumed
          rw [(callHook_assigned hcall).2.1.tProcess]
          have e := congrFun (congrArg Pointers.tProcess (resumeTask_pointers s p u)) t
          exact fun hnone => hmember (e.symm.trans hnone)
        · exact hresumed ▸ hmember
      have M₂ := M₁.step (.unlink t) hmember₁ hown
      have hmember₂ := hkeep _ hmember₁ (.inl rfl)
      have M₃ := M₂.step (.leave t) hmember₂ (.inr hown)
      have M₄ := M₃.step (.unlink t) (hkeep _ hmember₂ (.inr rfl)) hown
      have M₅ := M₄.step (.uncount d) trivial ⟨h, rfl⟩
      have M₆ := M₅.trans (Moves.reporting hpolicy M₅.hooks h₂ hown)
      exact M₆.trans (Moves.reporting hpolicy M₆.hooks h₃ trivial)
  | unregisterThread h =>
      obtain ⟨-, s₁, -, M₁, hsched, rfl⟩ := schedUnregisterThread_ok
        ((Call.unregisterThread h).Makes policy s) Z (fun _ _ => .inl ⟨h, rfl⟩)
        (void_eq_ok.mp he).2
      exact M₁.step (.forgetThread h) hsched rfl
  | unregisterProcess d =>
      obtain ⟨-, s₁, -, M₁, hsched, rfl⟩ := schedUnregisterProcess_ok
        ((Call.unregisterProcess d).Makes policy s) Z (fun _ _ => ⟨d, rfl⟩)
        (void_eq_ok.mp he).2
      exact M₁.step (.forgetProcess d) hsched rfl
  | openCommit =>
      obtain ⟨-, rfl⟩ := schedOpenCommit_ok.mp (void_eq_ok.mp he).2
      exact Moves.single (.edit (.commit _)) ⟨trivial, trivial⟩ (.inl ⟨rfl, rfl⟩)
  | closeCommit =>
      obtain ⟨-, s₁, h₁, h₂⟩ := schedCloseCommit_ok.mp (void_eq_ok.mp he).2
      have M₀ : Moves ((Call.closeCommit (k := k)).Makes policy s) s
          ((Move.edit (.commit { s.sched with sCommitOpened := false })).apply s) :=
        Moves.single _ ⟨trivial, trivial⟩ (.inr ⟨rfl, rfl⟩)
      have M₁ := M₀.trans (Moves.reporting hpolicy M₀.hooks h₁ trivial)
      exact M₁.trans (Moves.reporting hpolicy M₁.hooks h₂ trivial)
  | pauseProcess d =>
      obtain ⟨-, s₁, h₁, rfl⟩ := schedPauseProcess_ok.mp (void_eq_ok.mp he).2
      have M₁ : Moves ((Call.pauseProcess d).Makes policy s) s s₁ := Moves.forEachNode h0
        (fun hx hb => Moves.pauseTask hpolicy hx (fun _ _ => .inr ⟨d, rfl, rfl⟩) hb) h₁
      exact M₁.step (.edit (.processStatus d schedStatusStopped)) ⟨trivial, trivial⟩
        (.inl ⟨rfl, rfl⟩)
  | resumeProcess d =>
      obtain ⟨hchecks, s₁, h₁, rfl⟩ := schedResumeProcess_ok.mp (void_eq_ok.mp he).2
      obtain rfl := walk_pStopped Z (hprimed d (hchecks rfl).1) h₁
      exact Moves.single (.edit (.processStatus d schedStatusActive)) ⟨trivial, trivial⟩
        (.inr ⟨rfl, rfl⟩)
  | assignTask h t =>
      refine Moves.assignment ?_ (void_eq_ok.mp he).2
      cases t <;> exact .inl rfl
  | takeOwnership p t => exact .takeOwnership (fun _ => hself) (void_eq_ok.mp he).2
  | releaseOwnership p t => exact .releaseOwnership (fun _ => hself) hself he
  | overrideTask p t =>
      exact .overrideTask hpolicy h0 (fun _ => hself) (fun _ _ => hself) (void_eq_ok.mp he).2
  | unoverrideTask p =>
      exact .unOverride hpolicy h0 (fun _ => hself)
        (primitiveUnoverrideTask_ok.mp (void_eq_ok.mp he).2)
  | resumeTask t =>
      refine .resumeTask hpolicy h0 (fun _ u hu => .inl ?_) (void_eq_ok.mp he).2
      obtain rfl := Option.some.inj hu
      rfl
  | stopThread p h =>
      exact .stopThread hpolicy h0 (fun _ ht => .inl ⟨h, rfl, ht⟩) (fun _ => trivial)
        (void_eq_ok.mp he).2
  | mutexLock p h =>
      rcases schedMutexLock_ok.mp (void_eq_ok.mp he).2 with ⟨-, he⟩ | ⟨-, he⟩
      · exact .stopThread hpolicy h0 (fun _ ht => .inl ⟨h, rfl, ht⟩) (fun _ => trivial) he
      · exact .acquire hpolicy h0 (fun _ => hself) (fun _ _ => hself) (fun _ _ => hself) he
  | mutexLockNb p h =>
      rcases schedMutexLockNb_ok.mp he with ⟨-, -, rfl⟩ | ⟨-, -, hacq⟩
      · exact .refl
      · exact .acquire hpolicy h0 (fun _ => hself) (fun _ _ => hself) (fun _ _ => hself) hacq
  | mutexUnlock p h =>
      rcases schedMutexUnlock_ok.mp he with ⟨-, -, rfl⟩ | ⟨-, -, -, rfl⟩ |
        ⟨t, e, s₁, -, -, h₁, ⟨-, -, rfl⟩ | ⟨-, -, s₂, h₂, h₃⟩⟩
      · exact .refl
      · exact .refl
      · exact .releaseOwnership (fun _ => hself) hself h₁
      · obtain ⟨-, rfl⟩ := resumeFirst_ok.mp h₃
        have M₁ : Moves ((Call.mutexUnlock p h).Makes policy s) s s₁ :=
          .releaseOwnership (fun _ => hself) hself h₁
        exact M₁.trans (.unOverride hpolicy M₁.hooks (fun _ => hself) h₂)
  | semTake p h =>
      rcases schedSemTake_ok.mp (void_eq_ok.mp he).2 with ⟨-, he⟩ | ⟨-, he⟩
      · exact .stopThread hpolicy h0 (fun _ ht => .inl ⟨h, rfl, ht⟩) (fun _ => trivial) he
      · exact .takeOwnership (fun _ => hself) he
  | semTakeNb p h =>
      rcases schedSemTakeNb_ok.mp he with ⟨-, -, rfl⟩ | ⟨-, -, htake⟩
      · exact .refl
      · exact .takeOwnership (fun _ => hself) htake
  | semRelease p h =>
      obtain ⟨e, s₁, h₁, ⟨-, -, rfl⟩ | ⟨-, -, h₂⟩⟩ := schedSemRelease_ok.mp he
      · exact .releaseOwnership (fun _ => hself) hself h₁
      · obtain ⟨-, rfl⟩ := resumeFirst_ok.mp h₂
        exact .releaseOwnership (fun _ => hself) hself h₁

/-! ### Runs -/

/-- Registrations on objects that are not registered; otherwise, any calls. -/
def Fresh (hist : Hist k) (_ : State k) (c : Call k) : Prop := fresh hist c = true

instance (hist : Hist k) (s : State k) (c : Call k) : Decidable (Fresh hist s c) :=
  inferInstanceAs (Decidable (_ = _))

/-- The thread has been registered. -/
def threadKnown : Hist k → ThreadId k → Bool
  | [], _ => false
  | e :: hist, h =>
      match e.call with
      | .registerThread h' => h == h' || threadKnown hist h
      | _ => threadKnown hist h

theorem exec_pSched (Z : Zones s.pointers T) (hprimed : s.Primed) (hc : c ≠ .registerProcess d)
    (he : exec ⟨true, policy⟩ c s = .ok (r, s')) : (s'.process d).pSched = (s.process d).pSched :=
  (exec_moves Z hprimed he).pSched_eq fun _ ha => hc ha

theorem exec_primed (Z : Zones s.pointers T) (hprimed : s.Primed)
    (he : exec ⟨true, policy⟩ c s = .ok (r, s')) : s'.Primed := by
  have M := exec_moves Z hprimed he
  intro d hd
  by_cases hcall : c = .registerProcess d
  · subst hcall
    obtain ⟨-, rfl⟩ := ok_pair_eq.mp he
    have e := congrFun (congrArg Pointers.pProcess (schedRegisterProcess_pointers s d)) (pPrim d)
    have e' : ((schedRegisterProcess d s).prim (pPrim d)).pProcess = some d := by
      refine Eq.trans e ?_
      simp [Pointers.addPrim]
    simp [e']
  · refine M.pProcess (hprimed d ?_)
    exact (exec_pSched Z hprimed hcall he).symm.trans hd

/-- **The links stay in their zone**, in every state reached by any calls. -/
theorem reach_zones {guard : Hist k → State k → Call k → Prop} (hr : Reach policy guard hist s) :
    Zones s.pointers (threadKnown hist · = true) ∧ s.Primed := by
  refine hr.invariant (J := fun hist s => Zones s.pointers (threadKnown hist · = true) ∧ s.Primed)
    ?_ ?_
  · refine fun s hs => ⟨?_, fun d hd => absurd ((hs.process d).symm.trans hd) Bool.false_ne_true⟩
    simpa [threadKnown] using Zones.init hs
  · rintro hist s c r s' ⟨Z, hprimed⟩ _ he
    refine ⟨?_, exec_primed Z hprimed he⟩
    cases c with
    | registerThread h =>
        obtain ⟨-, rfl⟩ := ok_pair_eq.mp he
        have e : (threadKnown (⟨s, .registerThread h, r, schedRegisterThread h s⟩ :: hist) · = true) =
            (Move.addThread h).threads (threadKnown hist · = true) := by
          funext g
          simp [threadKnown, Move.threads]
        rw [e]
        exact Z.move (.addThread h) trivial
    | _ => exact (exec_moves Z hprimed he).zones (fun x g hg => by cases hg) Z

/-- A thread points to the scheduler while it is registered. -/
theorem exec_tSched {g : ThreadId k} (Z : Zones s.pointers T) (hprimed : s.Primed)
    (hg : (s.thread g).tSched = threadRegistered hist g)
    (he : exec ⟨true, policy⟩ c s = .ok (r, s')) :
    (s'.thread g).tSched = threadRegistered (⟨s, c, r, s'⟩ :: hist) g := by
  have hkeep : (∀ h, c = .registerThread h → g ≠ h) → (∀ h, c = .unregisterThread h → g ≠ h) →
      (s'.thread g).tSched = (s.thread g).tSched := by
    intro hadd hforget
    refine (exec_moves Z hprimed he).keeps (I := fun x => (x.thread g).tSched = (s.thread g).tSched)
      (fun {x} m hx _ ha => ?_) rfl
    have e : ((m.apply x).thread g).tSched = (m.pointers x.pointers).tSched g :=
      congrFun (congrArg Pointers.tSched (m.apply_pointers x)) g
    rw [e, ← hx]
    cases m with
    | edit u => cases u <;> rfl
    | assign h t =>
        simp only [Move.pointers]
        split
        · rfl
        · cases x.pointers.tThread t <;> rfl
    | leave t =>
        simp only [Move.pointers]
        cases x.pointers.tThread t <;> rfl
    | addThread h => exact Function.update_of_ne (hadd h ha) ..
    | forgetThread h => exact Function.update_of_ne (hforget h ha) ..
    | _ => rfl
  cases c with
  | registerThread h =>
      by_cases hgh : g = h
      · subst hgh
        obtain ⟨-, rfl⟩ := ok_pair_eq.mp he
        simp [threadRegistered, schedRegisterThread]
      · rw [hkeep (fun h' e => by cases e; exact hgh) (fun _ e => by cases e), hg]
        simp [threadRegistered, hgh]
  | unregisterThread h =>
      by_cases hgh : g = h
      · subst hgh
        obtain ⟨-, s₁, -, -, -, rfl⟩ := schedUnregisterThread_ok (fun _ _ => True) Z
          (fun _ _ => trivial) (void_eq_ok.mp he).2
        simp [threadRegistered, forgetThread]
      · rw [hkeep (fun _ e => by cases e) (fun h' e => by cases e; exact hgh), hg]
        simp [threadRegistered, hgh]
  | _ => exact (hkeep (fun _ e => by cases e) fun _ e => by cases e).trans hg

/-- The process of a task changes when the task is registered only. -/
theorem exec_tProcess (Z : Zones s.pointers T) (hprimed : s.Primed)
    (hc : ∀ d, c ≠ .registerTask d t) (he : exec ⟨true, policy⟩ c s = .ok (r, s')) :
    (s'.task t).tProcess = (s.task t).tProcess :=
  (exec_moves Z hprimed he).tProcess_eq fun _ d ha => hc d ha

/-- **The threads that point to the scheduler are the registered ones**, in every state reached by
any calls. -/
theorem reach_tSched {guard : Hist k → State k → Call k → Prop} (hr : Reach policy guard hist s)
    (h : ThreadId k) : (s.thread h).tSched = threadRegistered hist h := by
  induction hr with
  | start hs => exact hs.thread h
  | call hr _ he ih => exact exec_tSched (reach_zones hr).1 (reach_zones hr).2 ih he

end KernelTk.Sched
