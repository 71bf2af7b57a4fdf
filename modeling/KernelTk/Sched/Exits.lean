import KernelTk.Sched.Execution
import KernelTk.Sched.Invariant

/-! # Overriders of a task that exits

`process_unregister_task` walks the list of the overriders of the task, which is linked through
`p_siblings`, as if it were linked through `p_overriders` : the first node is converted to an address
where no primitive starts.

* **Property.** `Freed` : the call un-overrides the primitives that override the task, each one once, and
  no other; unless an `ns_check` fails, which the policy may bring about.
* **Memory.** `Executes` : the thread executes the task, with the checks of the call passed, and `s₁` is the
  memory once the task is resumed, if it was stopped.  `OverriddenBy` : the list of the task holds these
  primitives.  Both are read in a state that any calls have reached, in which other lists may be broken.
* **Walk.** The overriders are still linked when the walk starts (`Executes.walk_ring`, by the zones of
  the moves made before), and the walk uses an invalid pointer as soon as there is one
  (`Executes.stuck`).  Without overriders, the task leaves (`Executes.freed`).
* **Calls.** The property holds iff there is no overrider (`overriders_freed_iff`), in every reachable
  state and for every policy: the function never does what its comment says of it.
  `overriders_freed_fails` is the exit of a task that holds a mutex. -/

namespace KernelTk.Sched

open Transition
open CircularList (IsRing walk)

variable {k : Machine} {policy : Policy k} {hist : Hist k} {s s₁ s' : State k} {p : PrimId k}
  {t : TaskId k} {h : ThreadId k} {r : BitVec 8} {l : List (PrimId k)} {T : ThreadId k → Prop}

/-- The thread executes the task; `s₁` is the memory once the task is resumed, if it was stopped. -/
structure Executes (policy : Policy k) (s : State k) (h : ThreadId k) (t : TaskId k)
    (s₁ : State k) : Prop where
  task : (s.thread h).tTask = some t
  sched : (s.thread h).tSched = true
  active : s.threadActive h = true
  commit : s.taskActive t = true
  member : (s.task t).tProcess ≠ none
  process : s.schedOf (s.task t).tProcess = (s.thread h).tSched
  resumed : (if (s.task t).tStatus = schedStatusStopped
    then primitiveResumeTask ⟨true, policy⟩ (taskAddr t) s else .ok s) = .ok s₁

/-- The primitives `l` override the task. -/
structure OverriddenBy (s : State k) (t : TaskId k) (l : List (PrimId k)) : Prop where
  ring : IsRing s.links (.tOverriders t) (l.map .pSiblings)
  pointers : ∀ p ∈ l, (s.prim p).pOverridden = some t
  count : (s.task t).tNbOverrides.toNat = l.length

/-- The primitives `l`, and no other, have been un-overridden from the task, each one once. -/
structure OverridersFreed (s s' : State k) (t : TaskId k) (l : List (PrimId k)) : Prop where
  overridden : ∀ p ∈ l, (s'.prim p).pOverridden = none
  unlinked : ∀ p ∈ l, ∀ u m, IsRing s'.links (.tOverriders u) m → .pSiblings p ∉ m
  count : (s'.task t).tNbOverrides = 0
  released : ∃ new, s'.hooks = new ++ s.hooks ∧
    ∀ p u, new.count (.overrideReleased p u) = if u = t ∧ p ∈ l then 1 else 0
  others : ∀ p, p ∉ l → (s'.prim p).pOverridden = (s.prim p).pOverridden

/-- The exit of the task frees it from `l`, unless a check fails. -/
structure Freed (policy : Policy k) (s : State k) (h : ThreadId k) (t : TaskId k)
    (l : List (PrimId k)) : Prop where
  checks : ChecksOnly (exec ⟨true, policy⟩ (.unregisterTask h) s)
  frees : ∀ r s', exec ⟨true, policy⟩ (.unregisterTask h) s = .ok (r, s') →
    OverridersFreed s s' t l

/-- `process_unregister_task` once the task is resumed. -/
def unregisterResumed (env : Env k) (thread : ThreadId k) (t : TaskId k) (s : State k) :
    Except Fault (BitVec 8 × State k) := do
  let s := s.modLinks fun l => l.remove (.tSchedList t)
  let s ← forEachNode (.tOverriders t)
    (fun n s => primitiveUnoverrideTask env (containerOf n pOverridersOffset) s) s
  let s := threadUnregisterTask t s
  let prc ← deref (s.task t).tProcess
  let s := s.modLinks fun l => l.remove (.tSchedList t)
  let s := s.modProcess prc fun x => { x with pNbTasks := x.pNbTasks - 1 }
  let s ← callHook env true (.unregistered t) s
  let s ← callHook env true (.assignOne thread) s
  .ok (if (s.task t).tNbOwnedPrimitives = 0 then 0 else 1, s)

namespace Executes

theorem frame (X : Executes policy s h t s₁) : (s₁.task t).tProcess = (s.task t).tProcess ∧
    (s₁.task t).tNbOverrides = (s.task t).tNbOverrides ∧
    (∀ p, (s₁.prim p).pOverridden = (s.prim p).pOverridden) ∧
    ∃ new, s₁.hooks = new ++ s.hooks ∧ ∀ p u, new.count (.overrideReleased p u) = 0 := by
  have hres := X.resumed
  split at hres
  · obtain ⟨u, c, p, -, -, -, -, hcall⟩ := primitiveResumeTask_ok.mp hres
    obtain ⟨-, A, hhooks⟩ := callHook_assigned hcall
    have e := resumeTask_pointers s p u
    have hledger : (Sched.resumeTask p u s).hooks = s.hooks :=
      congrArg Ledger.hooks (resumeTask_ledger s p u)
    refine ⟨?_, ?_, fun q => ?_, [.resumed u], ?_, by simp⟩
    · rw [A.tProcess]
      exact congrFun (congrArg Pointers.tProcess e) t
    · rw [A.task]
      exact congrFun (congrArg Pointers.tNbOverrides e) t
    · rw [A.prim]
      exact congrFun (congrArg Pointers.pOverridden e) q
    · rw [hhooks, hledger]
      rfl
  · obtain rfl := Except.ok.inj hres
    exact ⟨rfl, rfl, fun _ => rfl, [], rfl, by simp⟩

/-- The overriders are still linked when the walk starts. -/
theorem walk_ring (X : Executes policy s h t s₁) (Z : Zones s.pointers T)
    (hring : IsRing s.links (.tOverriders t) (l.map .pSiblings)) :
    IsRing (s₁.modLinks fun m => m.remove (.tSchedList t)).links (.tOverriders t)
      (l.map .pSiblings) := by
  have hpolicy : Answers policy s fun _ m => m.touches .overriders = false ∧
      ∀ g, m ≠ .addThread g := by
    intro x g u _
    cases u <;> exact ⟨rfl, nofun⟩
  have M : Moves (fun _ m => m.touches .overriders = false ∧ ∀ g, m ≠ .addThread g) s s₁ := by
    have hres := X.resumed
    split at hres
    · exact .resumeTask hpolicy List.suffix_rfl (fun _ _ _ => ⟨rfl, nofun⟩) hres
    · exact Except.ok.inj hres ▸ .refl
  have hmember : (s₁.task t).tProcess ≠ none := X.frame.1 ▸ X.member
  have hsame := (M.same (fun _ _ h => h.1) Z).trans
    ((M.zones (fun _ g h => h.2 g rfl) Z).same (.unlink t) hmember rfl)
  exact hsame.isRing rfl (fun _ => rfl) hring

theorem eq (X : Executes policy s h t s₁) :
    exec ⟨true, policy⟩ (.unregisterTask h) s = unregisterResumed ⟨true, policy⟩ h t s₁ := by
  have hpass : ∀ {c : Prop} [Decidable c], c → nsCheck ⟨true, policy⟩ c = .ok () :=
    fun hc => nsCheck_eq_ok.mpr fun _ => hc
  have hcheck : nsCheckActive ⟨true, policy⟩ t s = .ok () :=
    nsCheckActive_eq_ok.mpr fun _ => ⟨X.process.trans X.sched, X.commit⟩
  have hres := X.resumed
  simp only [exec, processUnregisterTask]
  rw [hpass X.sched, hpass X.active, X.task]
  simp only [deref, bind, Except.bind]
  rw [hcheck, hpass X.member, hpass X.process]
  split at hres
  · rename_i hst
    rw [if_pos hst, hres, X.sched]
    rfl
  · rename_i hst
    cases hres
    rw [if_neg hst, X.sched]
    rfl

/-- **The walk uses an invalid pointer**, as soon as a primitive overrides the task. -/
theorem stuck (X : Executes policy s h t s₁) (Z : Zones s.pointers T)
    (hring : IsRing s.links (.tOverriders t) ((p :: l).map .pSiblings)) :
    exec ⟨true, policy⟩ (.unregisterTask h) s = .error .pointer := by
  have hnext := (X.walk_ring Z hring).next_head
  rw [X.eq, unregisterResumed, forEachNode, hnext]
  rfl

/-- A task without overriders leaves; the policy may fail a check. -/
theorem freed (X : Executes policy s h t s₁) (Z : Zones s.pointers T) (O : OverriddenBy s t []) :
    Freed policy s h t [] := by
  obtain ⟨hprocess, hoverrides, hoverridden, new, hhooks, hnew⟩ := X.frame
  have hself : (s₁.modLinks fun m => m.remove (.tSchedList t)).links.next (.tOverriders t) =
      .tOverriders t := (X.walk_ring Z O.ring).next_head
  constructor
  · rw [X.eq, unregisterResumed, forEachNode, hself, walk, if_pos rfl]
    obtain ⟨d, hd⟩ := Option.ne_none_iff_exists'.mp X.member
    refine .bind (.ok _) fun x hx => .deref (a := d) ?_ ?_
    · cases hx
      rw [(threadUnregisterTask_assigned t _).tProcess]
      exact hprocess.trans hd
    · exact .bind (callHook_checksOnly rfl) fun y _ =>
        .bind (callHook_checksOnly rfl) fun z _ => .ok _
  · intro r s' he
    rw [X.eq, unregisterResumed, forEachNode, hself, walk, if_pos rfl] at he
    simp only [bind_eq_ok, deref_eq_ok, ok_pair_eq] at he
    obtain ⟨x, hx, d, -, y, h₁, z, h₂, -, rfl⟩ := he
    cases hx
    obtain ⟨-, A₁, hhooks₁⟩ := callHook_assigned h₁
    obtain ⟨-, A₂, hhooks₂⟩ := callHook_assigned h₂
    have A₀ := threadUnregisterTask_assigned t (s₁.modLinks fun m => m.remove (.tSchedList t))
    have hhooks₀ := threadUnregisterTask_hooks t (s₁.modLinks fun m => m.remove (.tSchedList t))
    refine ⟨(fun _ e => by cases e), (fun _ e => by cases e), ?_,
      ⟨.assignOne h :: .unregistered t :: new, ?_, ?_⟩, fun p _ => ?_⟩
    · have hzero : (s'.task t).tNbOverrides = (s.task t).tNbOverrides := by
        rw [A₂.task, A₁.task, ← hoverrides]
        simp only [State.modProcess_task, State.modLinks_task]
        rw [A₀.task]
        rfl
      rw [hzero]
      exact BitVec.eq_of_toNat_eq (by simpa using O.count)
    · rw [hhooks₂, hhooks₁]
      simp only [State.modProcess_hooks, State.modLinks_hooks]
      rw [hhooks₀]
      simp only [State.modLinks_hooks, hhooks, List.cons_append]
    · simp [hnew]
    · rw [A₂.prim, A₁.prim]
      simp only [State.modProcess_prim, State.modLinks_prim]
      rw [A₀.prim]
      exact hoverridden p

end Executes

/-- **A task that exits is freed of its overriders iff it has none**: in every state reached by any
calls, for every thread that executes a task overridden by the primitives `l`. -/
theorem overriders_freed_iff {guard : Hist k → State k → Call k → Prop}
    (hr : Reach policy guard hist s) (X : Executes policy s h t s₁) (O : OverriddenBy s t l) :
    Freed policy s h t l ↔ l = [] := by
  obtain ⟨Z, -⟩ := reach_zones hr
  constructor
  · intro F
    cases l with
    | nil => rfl
    | cons p l => cases F.checks _ (X.stuck Z O.ring)
  · rintro rfl
    exact X.freed Z O

set_option maxRecDepth 10000 in
theorem holder_exits : ∃ (hist : Hist small) (s : State small),
    Reach quiet (fun hist _ c => Additive hist c) hist s ∧ Executes quiet s 0 0 s ∧
      OverriddenBy s 0 [.other 0] := by
  obtain ⟨hist, s, hr, htest⟩ := exists_reach_of_replay (exec ⟨true, quiet⟩)
    (fun hist _ c => Additive hist c) boot_smallBoot
    (fun _ s => decide (((s.thread 0).tTask = some 0 ∧ (s.thread 0).tSched = true ∧
      s.threadActive 0 = true ∧ s.taskActive 0 = true ∧ (s.task 0).tProcess ≠ none ∧
      s.schedOf (s.task 0).tProcess = true ∧ (s.task 0).tStatus ≠ schedStatusStopped) ∧
      (s.links.next (.tOverriders 0) = .pSiblings (.other 0) ∧
        s.links.prev (.pSiblings (.other 0)) = .tOverriders 0) ∧
      (s.links.next (.pSiblings (.other 0)) = .tOverriders 0 ∧
        s.links.prev (.tOverriders 0) = .pSiblings (.other 0)) ∧
      (s.prim (.other 0)).pOverridden = some 0 ∧ (s.task 0).tNbOverrides = 1))
    (smallSetup ++ [.mutexCtor (.other 0) 0, .assignTask 0 (some 0), .mutexLock (.other 0) 0])
    (by decide +kernel)
  obtain ⟨⟨htask, hsched, hactive, hcommit, hmember, hprocess, hst⟩, hn, ha, hov, hcount⟩ :=
    of_decide_eq_true htest
  refine ⟨hist, s, hr, ⟨htask, hsched, hactive, hcommit, hmember, hprocess.trans hsched.symm,
    if_neg hst⟩, .singleton nofun hn ha, ?_, ?_⟩
  · intro p hp
    rwa [List.mem_singleton.mp hp]
  · rw [hcount]
    rfl

/-- The task keeps its overrider. -/
theorem overriders_freed_run : ∃ s : State small, OverriddenBy s 0 [.other 0] ∧
    ¬Freed quiet s 0 0 [.other 0] := by
  obtain ⟨hist, s, hr, X, O⟩ := holder_exits
  exact ⟨s, O, fun F => List.cons_ne_nil _ _ ((overriders_freed_iff hr X O).mp F)⟩

/-- The exit of a task that holds a mutex uses an invalid pointer. -/
theorem overriders_freed_fails : ¬∀ (hist : Hist small) (s s₁ : State small) (h : ThreadId small)
    (t : TaskId small) (l : List (PrimId small)),
    Reach quiet (fun hist _ c => Additive hist c) hist s → Executes quiet s h t s₁ →
    OverriddenBy s t l → Freed quiet s h t l := by
  intro hall
  obtain ⟨hist, s, hr, X, O⟩ := holder_exits
  cases (hall hist s s 0 0 _ hr X O).checks _ (X.stuck (reach_zones hr).1 O.ring)

end KernelTk.Sched
