import KernelTk.Sched.Effects

/-! # Calls to the policy

An operation of the policy assigns tasks to threads, any number of times, and does nothing else to the
scheduler.

* **Frame.** `Assigned s s'` : between `s` and `s'` only the histories, the executed tasks and
  the commits of tasks and threads have changed.  Whatever depends on the rest of the memory is kept by
  a call to the policy without a word about policies.
* **Rule.** `callHook_rule` : what holds once the call is recorded and is kept by every
  assignment holds after the call.  The policy is a list of answers for the calls received so far, and
  the rule is an induction over this list.
* **Failures.** An assignment that the policy asks for makes its own checks; with a pointer to the
  scheduler that is not null, a call to the policy fails in a check at most (`ChecksOnly`,
  `callHook_checksOnly`).
* **Lists.** `Good s v` : the lists of `s` are those of `v`, and whatever points to a process or
  to the scheduler is registered.  A call to the policy in a debug build keeps it, up to the
  histories (`Good.hook`) : an assignment takes the task out of the history that it is in, and puts it
  in front of that of the thread (`Good.assign`). -/

namespace KernelTk.Sched

variable {k : Machine} {env : Env k} {s s' s'' : State k}

/-! ### Frame -/

/-- Only histories, executed tasks and commits have changed. -/
structure Assigned (s s' : State k) : Prop where
  task : ∀ t, s'.task t =
    { s.task t with tThread := (s'.task t).tThread, tCommit := (s'.task t).tCommit }
  prim : s'.prim = s.prim
  process : s'.process = s.process
  tSched : ∀ h, (s'.thread h).tSched = (s.thread h).tSched
  sched : s'.sched = s.sched
  sNbOwners : s'.sNbOwners = s.sNbOwners

namespace Assigned

theorem refl (s : State k) : Assigned s s := ⟨fun _ => rfl, rfl, rfl, fun _ => rfl, rfl, rfl⟩

theorem trans (A : Assigned s s') (A' : Assigned s' s'') : Assigned s s'' where
  task := fun t => by rw [A'.task t, A.task t]
  prim := A'.prim.trans A.prim
  process := A'.process.trans A.process
  tSched := fun h => (A'.tSched h).trans (A.tSched h)
  sched := A'.sched.trans A.sched
  sNbOwners := A'.sNbOwners.trans A.sNbOwners

theorem modLinks (s : State k) (f) : Assigned s (s.modLinks f) :=
  ⟨fun _ => rfl, rfl, rfl, fun _ => rfl, rfl, rfl⟩

theorem modThread (s : State k) (h : ThreadId k) {f : Sthread k → Sthread k}
    (hf : ∀ x, (f x).tSched = x.tSched) : Assigned s (s.modThread h f) := by
  refine ⟨fun _ => rfl, rfl, rfl, fun g => ?_, rfl, rfl⟩
  by_cases hg : g = h
  · subst hg
    simp [hf]
  · simp [hg]

theorem modTask (s : State k) (t : TaskId k) {f : Stask k → Stask k}
    (hf : ∀ x, f x = { x with tThread := (f x).tThread, tCommit := (f x).tCommit }) :
    Assigned s (s.modTask t f) := by
  refine ⟨fun u => ?_, rfl, rfl, fun _ => rfl, rfl, rfl⟩
  by_cases hu : u = t
  · subst hu
    simpa using hf (s.task u)
  · simp [hu]

variable (A : Assigned s s')
include A

theorem tStatus (t : TaskId k) : s'.tStatus t = s.tStatus t := by
  rw [State.tStatus, A.task t]
  rfl

theorem tProcess (t : TaskId k) : (s'.task t).tProcess = (s.task t).tProcess := by rw [A.task t]

theorem tStopper (t : TaskId k) : (s'.task t).tStopper = (s.task t).tStopper := by rw [A.task t]

theorem tNbOwnedPrimitives (t : TaskId k) :
    (s'.task t).tNbOwnedPrimitives = (s.task t).tNbOwnedPrimitives := by rw [A.task t]

theorem primUpdated (p : PrimId k) : s'.primUpdated p = s.primUpdated p := by
  rw [State.primUpdated, A.prim]
  rfl

end Assigned

theorem threadUnregisterTask_assigned (t : TaskId k) (s : State k) :
    Assigned s (threadUnregisterTask t s) := by
  unfold threadUnregisterTask
  cases (s.task t).tThread with
  | none => exact .refl s
  | some h =>
      have A : Assigned s (((s.modThread h fun x => { x with tHistorySize := x.tHistorySize - 1 }
          ).modTask t fun x => { x with tThread := none }).modLinks fun l => l.remove (.tHistory t)) := by
        refine .trans ?_ (.modLinks _ _)
        refine .trans ?_ (.modTask _ t fun _ => rfl)
        exact .modThread s h fun _ => rfl
      dsimp only
      split
      · exact A.trans (.modThread _ h fun _ => rfl)
      · exact A

theorem threadTransferTask_assigned (h : ThreadId k) (t : TaskId k) (s : State k) :
    Assigned s (threadTransferTask h t s) := by
  unfold threadTransferTask
  refine .trans ?_ (.modLinks _ _)
  refine .trans ?_ (.modThread _ h fun _ => rfl)
  refine .trans ?_ (.modTask _ t fun _ => rfl)
  exact threadUnregisterTask_assigned t s

theorem threadUnregisterTask_hooks (t : TaskId k) (s : State k) :
    (threadUnregisterTask t s).hooks = s.hooks := by
  unfold threadUnregisterTask
  cases (s.task t).tThread with
  | none => rfl
  | some h =>
      dsimp only
      split <;> rfl

/-- The memory after `thread_assign_task`. -/
def assignTask (h : ThreadId k) (t : TaskId k) (s : State k) : State k :=
  let s := if (s.task t).tThread = some h then s else threadTransferTask h t s
  let s := s.modThread h fun x => { x with tTask := some t }
  let s := s.modTask t fun x => { x with tCommit := s.sched.sCommitIndex }
  s.modThread h fun x => { x with tCommit := s.sched.sCommitIndex }

theorem threadAssignTask_ok {h : ThreadId k} {t : TaskId k}
    (he : threadAssignTask env h (some t) s = .ok s') :
    (env.debug = true → (s.task t).tProcess ≠ none) ∧ (s.thread h).tSched = true ∧
      s' = assignTask h t s := by
  simp only [threadAssignTask, bind_eq_ok, nsCheck_eq_ok, derefSched_eq_ok, exists_const,
    Except.ok.injEq] at he
  exact ⟨he.2.1, he.2.2.2.1, he.2.2.2.2.symm⟩

theorem assignTask_assigned (h : ThreadId k) (t : TaskId k) (s : State k) :
    Assigned s (assignTask h t s) := by
  unfold assignTask
  refine .trans ?_ (.modThread _ h fun _ => rfl)
  refine .trans ?_ (.modTask _ t fun _ => rfl)
  refine .trans ?_ (.modThread _ h fun _ => rfl)
  split
  · exact .refl s
  · exact threadTransferTask_assigned h t s

theorem threadAssignTask_assigned {h : ThreadId k} {t : Option (TaskId k)}
    (he : threadAssignTask env h t s = .ok s') : Assigned s s' ∧ s'.hooks = s.hooks := by
  cases t with
  | none =>
      rw [← Except.ok.inj he]
      exact ⟨.modThread s h fun _ => rfl, rfl⟩
  | some t =>
      obtain ⟨-, -, rfl⟩ := threadAssignTask_ok he
      refine ⟨assignTask_assigned h t s, ?_⟩
      simp only [assignTask, State.modThread_hooks, State.modTask_hooks]
      split
      · rfl
      · exact threadUnregisterTask_hooks t s

/-! ### The rule -/

/-- **What every assignment keeps, a call to the policy keeps.** -/
theorem callHook_rule {I : State k → Prop} {sched : Bool} {call : HookCall k}
    (h0 : I { s with hooks := call :: s.hooks })
    (hstep : ∀ {s s' h t}, I s → threadAssignTask env h t s = .ok s' → I s')
    (he : callHook env sched call s = .ok s') : sched = true ∧ I s' := by
  simp only [callHook, bind_eq_ok, derefSched_eq_ok, exists_const] at he
  obtain ⟨hsched, he⟩ := he
  refine ⟨hsched, ?_⟩
  revert he h0
  generalize ({ s with hooks := call :: s.hooks } : State k) = s₀
  generalize env.policy (call :: s.hooks) = l
  intro h0 he
  induction l generalizing s₀ with
  | nil => exact Except.ok.inj he ▸ h0
  | cons a l ih =>
      rw [List.foldlM_cons, bind_eq_ok] at he
      obtain ⟨s₁, h₁, he⟩ := he
      exact ih s₁ (hstep h0 h₁) he

theorem callHook_assigned {sched : Bool} {call : HookCall k}
    (he : callHook env sched call s = .ok s') :
    sched = true ∧ Assigned s s' ∧ s'.hooks = call :: s.hooks := by
  refine callHook_rule (I := fun x => Assigned s x ∧ x.hooks = call :: s.hooks)
    ⟨⟨fun _ => rfl, rfl, rfl, fun _ => rfl, rfl, rfl⟩, rfl⟩ ?_ he
  intro x x' h t hx ha
  obtain ⟨A, hh⟩ := threadAssignTask_assigned ha
  exact ⟨hx.1.trans A, hh.trans hx.2⟩

theorem callHook_quiet {call : HookCall k} (hq : env.policy (call :: s.hooks) = []) :
    callHook env true call s = .ok { s with hooks := call :: s.hooks } := by
  simp only [callHook, derefSched, hq]
  rfl

/-! ### Failures -/

/-- A call that fails in an `ns_check` at most. -/
def ChecksOnly {α : Type} (x : Except Fault α) : Prop := ∀ f, x = .error f → f = .check

namespace ChecksOnly

variable {α β : Type}

theorem ok (a : α) : ChecksOnly (.ok a : Except Fault α) := nofun

theorem bind {x : Except Fault α} {f : α → Except Fault β} (hx : ChecksOnly x)
    (hf : ∀ a, x = .ok a → ChecksOnly (f a)) : ChecksOnly (x >>= f) := by
  cases x with
  | error e =>
      intro e' he
      obtain rfl := Except.error.inj he
      exact hx e rfl
  | ok a => exact hf a rfl

theorem check {c : Prop} [Decidable c] {f : Unit → Except Fault β} (hd : env.debug = true)
    (hf : c → ChecksOnly (f ())) : ChecksOnly (nsCheck env c >>= f) := by
  refine bind (fun e he => ?_) fun _ hc => hf (nsCheck_eq_ok.mp hc hd)
  unfold nsCheck at he
  split at he
  · exact (Except.error.inj he).symm
  · cases he

theorem deref {o : Option α} {a : α} {f : α → Except Fault β} (ho : o = some a)
    (hf : ChecksOnly (f a)) : ChecksOnly (deref o >>= f) := by
  subst ho
  exact hf

end ChecksOnly

theorem threadAssignTask_checksOnly {h : ThreadId k} {t : Option (TaskId k)}
    (hd : env.debug = true) : ChecksOnly (threadAssignTask env h t s) := by
  cases t with
  | none => exact .ok _
  | some t =>
      refine .check hd fun hsched => .check hd fun _ => .check hd fun _ => ?_
      simp only [hsched, derefSched]
      exact .ok _

/-- A call to the policy of the scheduler fails in a check at most, in a debug build. -/
theorem callHook_checksOnly {call : HookCall k} (hd : env.debug = true) :
    ChecksOnly (callHook env true call s) := by
  have hfold : ∀ (l : List (ThreadId k × Option (TaskId k))) (x : State k),
      ChecksOnly (l.foldlM (fun s a => threadAssignTask env a.1 a.2 s) x) := by
    intro l
    induction l with
    | nil => exact fun x => .ok x
    | cons a l ih => exact fun x => .bind (threadAssignTask_checksOnly hd) fun y _ => ih y
  exact hfold _ _

/-! ### Lists -/

/-- Whatever points to a process or to the scheduler is registered. -/
structure Attached (P : Pointers k) (v : View k) : Prop where
  task : ∀ t, P.tProcess t ≠ none → v.HasTask t
  process : ∀ c, P.pSched c = true → v.HasProcess c
  thread : ∀ h, P.tSched h = true → v.HasThread h

/-- The lists of the memory are those of the view. -/
structure Good (s : State k) (v : View k) : Prop where
  wf : Wf s.pointers v
  attached : Attached s.pointers v

/-- The views differ by the histories of the threads only. -/
structure View.SameLists (v v' : View k) : Prop where
  eq : v' = { v with history := v'.history }
  hasThread : ∀ h, v'.HasThread h ↔ v.HasThread h

namespace View.SameLists

variable {v v' v'' : View k}

theorem refl (v : View k) : v.SameLists v := ⟨rfl, fun _ => Iff.rfl⟩

theorem trans (e : v.SameLists v') (e' : v'.SameLists v'') : v.SameLists v'' where
  eq := by rw [e'.eq, e.eq]
  hasThread := fun h => (e'.hasThread h).trans (e.hasThread h)

theorem leave (v : View k) (h : ThreadId k) (t : TaskId k) : v.SameLists (v.leave h t) :=
  ⟨rfl, fun _ => View.hasThread_leave⟩

theorem enter (v : View k) (h : ThreadId k) (t : TaskId k) : v.SameLists (v.enter h t) :=
  ⟨rfl, fun _ => View.hasThread_enter⟩

variable (e : v.SameLists v')
include e

theorem hasTask (t : TaskId k) : v'.HasTask t ↔ v.HasTask t := by rw [e.eq]; rfl

theorem hasPrim (p : PrimId k) : v'.HasPrim p ↔ v.HasPrim p := by rw [e.eq]; rfl

theorem hasProcess (c : ProcessId k) : v'.HasProcess c ↔ v.HasProcess c := by rw [e.eq]; rfl

theorem stopped : v'.stopped = v.stopped := by rw [e.eq]

theorem actives : v'.actives = v.actives := by rw [e.eq]

theorem tasks : v'.tasks = v.tasks := by rw [e.eq]

end View.SameLists

theorem threadUnregisterTask_pointers {h : ThreadId k} {t : TaskId k}
    (hh : (s.task t).tThread = some h) :
    (threadUnregisterTask t s).pointers = s.pointers.leave h t := by
  have e : ∀ s' : State k, (s'.modThread h fun x => { x with tTask := none, tCommit := -1 }).pointers =
      s'.pointers := by
    intro s'
    ext x : 2
    all_goals first
      | rfl
      | by_cases hx : x = h <;> simp [State.pointers, hx]
  unfold threadUnregisterTask
  rw [hh]
  dsimp only
  rw [apply_ite State.pointers, e, ite_self]
  ext x : 2
  all_goals first
    | rfl
    | by_cases hx : x = t <;> simp [State.pointers, Pointers.leave, hx]
    | by_cases hx : x = h <;> simp [State.pointers, Pointers.leave, hx]

theorem threadTransferTask_pointers (h : ThreadId k) (t : TaskId k) (s : State k) :
    (threadTransferTask h t s).pointers = (threadUnregisterTask t s).pointers.enter h t := by
  unfold threadTransferTask
  ext x : 2
  all_goals first
    | rfl
    | by_cases hx : x = t <;> simp [State.pointers, Pointers.enter, hx]
    | by_cases hx : x = h <;> simp [State.pointers, Pointers.enter, hx]

theorem assignTask_pointers (h : ThreadId k) (t : TaskId k) (s : State k) :
    (assignTask h t s).pointers =
      if (s.task t).tThread = some h then s.pointers else (threadTransferTask h t s).pointers := by
  rw [← apply_ite State.pointers]
  unfold assignTask
  ext x : 2
  all_goals first
    | rfl
    | by_cases hx : x = t <;> simp [State.pointers, hx]
    | by_cases hx : x = h <;> simp [State.pointers, hx]

namespace Good

variable {v : View k} {h : ThreadId k} {t : TaskId k}

theorem leave (G : Good s v) (ht : v.HasTask t) (hh : s.pointers.tThread t = some h)
    (e : s'.pointers = s.pointers.leave h t) : Good s' (v.leave h t) where
  wf := e ▸ G.wf.leave ht hh
  attached := by
    rw [e]
    exact ⟨G.attached.task, G.attached.process,
      fun g hg => View.hasThread_leave.mpr (G.attached.thread g hg)⟩

theorem enter (G : Good s v) (ht : v.HasTask t) (hh : v.HasThread h)
    (hn : s.pointers.tThread t = none) (e : s'.pointers = s.pointers.enter h t) :
    Good s' (v.enter h t) where
  wf := e ▸ G.wf.enter ht hh hn
  attached := by
    rw [e]
    exact ⟨G.attached.task, G.attached.process,
      fun g hg => View.hasThread_enter.mpr (G.attached.thread g hg)⟩

theorem congr (G : Good s v) (e : s'.pointers = s.pointers) : Good s' v :=
  ⟨e ▸ G.wf, e ▸ G.attached⟩

theorem unregister (G : Good s v) (ht : v.HasTask t) : ∃ v', v.SameLists v' ∧
    Good (threadUnregisterTask t s) v' ∧
    (threadUnregisterTask t s).pointers.tThread t = none := by
  cases hh : (s.task t).tThread with
  | none =>
      have e : threadUnregisterTask t s = s := by simp [threadUnregisterTask, hh]
      exact ⟨v, .refl v, e.symm ▸ G, e.symm ▸ hh⟩
  | some h =>
      have e := threadUnregisterTask_pointers hh
      refine ⟨_, .leave v h t, G.leave ht hh e, ?_⟩
      rw [e]
      simp [Pointers.leave]

/-- An assignment keeps the lists, up to the histories. -/
theorem assign {policy} {t : Option (TaskId k)} (G : Good s v)
    (he : threadAssignTask ⟨true, policy⟩ h t s = .ok s') :
    ∃ v', v.SameLists v' ∧ Good s' v' := by
  cases t with
  | none =>
      refine ⟨v, .refl v, G.congr ?_⟩
      rw [← Except.ok.inj he]
      ext x : 2
      all_goals first
        | rfl
        | by_cases hx : x = h <;> simp [State.pointers, hx]
  | some t =>
      obtain ⟨hprc, hsched, rfl⟩ := threadAssignTask_ok he
      have ht := G.attached.task t (hprc rfl)
      by_cases hth : (s.task t).tThread = some h
      · refine ⟨v, .refl v, G.congr ?_⟩
        rw [assignTask_pointers, if_pos hth]
      · obtain ⟨v₁, e₁, G₁, hn⟩ := G.unregister ht
        have hh : v₁.HasThread h := (e₁.hasThread h).mpr (G.attached.thread h hsched)
        refine ⟨_, e₁.trans (.enter v₁ h t), G₁.enter ((e₁.hasTask t).mpr ht) hh hn ?_⟩
        rw [assignTask_pointers, if_neg hth, threadTransferTask_pointers]

/-- **A call to the policy keeps the lists, up to the histories.** -/
theorem hook {policy} {sched : Bool} {call : HookCall k} (G : Good s v)
    (he : callHook ⟨true, policy⟩ sched call s = .ok s') : ∃ v', v.SameLists v' ∧ Good s' v' := by
  refine (callHook_rule (I := fun x => ∃ v', v.SameLists v' ∧ Good x v')
    ⟨v, .refl v, G.congr rfl⟩ ?_ he).2
  rintro x x' g u ⟨v₁, e₁, G₁⟩ ha
  obtain ⟨v₂, e₂, G₂⟩ := G₁.assign ha
  exact ⟨v₂, e₁.trans e₂, G₂⟩

end Good

end KernelTk.Sched
