import KernelTk.Sched.Edits

/-! # Moves

Every call, registrations and unregistrations included, is a sequence of moves: the assignments of
one function of `sched.c` together with the call to the policy that reports them, or one
assignment of a task to a thread.

* **Moves.** `Move.apply` is the memory after a move, `Move.Checked` what a debug build has checked
  when the move is made, `Move.reports` the calls to the policy that it records.  The edits of
  `Edits.lean` are moves, and so are the parts of registrations and unregistrations.
* **Effects.** A move changes the pointers by `Move.pointers` (`Move.apply_pointers`): what a move does to
  lists is a computation on pointers.  The process of a task or of a primitive, and the scheduler of a
  process, change at their registration only (`Move.apply_tProcess`, `Move.apply_pProcess`,
  `Move.apply_pSched`).
* **Sequences.** `Moves allowed s s'` : the memory `s'` is reached from `s` by allowed moves.
  `Moves.keeps` : what every allowed move keeps, the sequence keeps.  Since what is allowed may depend on
  the memory, a sequence records what each move was made for.
* **Policy.** The moves that answer a call to the policy are those of `Env.policy`
  (`Moves.callHook`); `Answers` says that they are allowed. -/

namespace KernelTk.Sched

variable {k : Machine} {policy : Policy k} {s s' s₀ s₁ : State k} {p : PrimId k} {t : TaskId k}
  {h : ThreadId k} {c : ProcessId k}

/-- The steps of the functions of `sched.c`. -/
inductive Move (k : Machine) where
  | edit (e : Edit k)
  | report (call : HookCall k)
  | assign (h : ThreadId k) (t : TaskId k)
  | idle (h : ThreadId k)
  | leave (t : TaskId k)
  | unlink (t : TaskId k)
  | unlinkUnsafe (t : TaskId k)
  | uncount (c : ProcessId k)
  | addProcess (c : ProcessId k)
  | addThread (h : ThreadId k)
  | addTask (c : ProcessId k) (t : TaskId k)
  | addPrim (c : ProcessId k) (p : PrimId k)
  | setBound (p : PrimId k) (n : Usize k)
  | forgetPrim (c : ProcessId k) (p : PrimId k)
  | forgetThread (h : ThreadId k)
  | forgetProcess (c : ProcessId k)

/-- A call to the policy is recorded. -/
def State.record (call : HookCall k) (s : State k) : State k := { s with hooks := call :: s.hooks }

/-- The call to the policy that reports an edit. -/
def Edit.report? : Edit k → Option (HookCall k)
  | .stop _ t => some (.stopped t)
  | .resume _ t => some (.resumed t)
  | .override p t => some (.overrideTaken p t)
  | .unoverride p t => some (.overrideReleased p t)
  | _ => none

/-! ### Registrations, as assignments -/

/-- The assignments of `process_register_task`. -/
def registerTask (c : ProcessId k) (t : TaskId k) (s : State k) : State k :=
  let s := s.modLinks fun l => l.insertAfter .sActives (.tSchedList t)
  let s := s.modLinks fun l => l.insertAfter (.pTasks c) (.tSiblings t)
  let s := s.modLinks fun l => l.init (.tOverriders t)
  let s := s.modLinks fun l => l.init (.tStopped t)
  let s := s.modLinks fun l => l.init (.tHistory t)
  let s := s.modTask t fun _ =>
    { tStatus := schedStatusActive, tCommit := -1, tProcess := some c, tNbOwnedPrimitives := 0,
      tStopper := none, tNbOverrides := 0, tThread := none }
  s.modProcess c fun x => { x with pNbTasks := x.pNbTasks + 1 }

theorem processRegisterTask_iff {env : Env k} : processRegisterTask env c t s = .ok s' ↔
    (s.process c).pSched = true ∧ s' = registerTask c t s := by
  simp only [processRegisterTask, bind_eq_ok, nsCheck_eq_ok, derefSched_eq_ok, exists_const,
    Except.ok.injEq, eq_comm (a := s')]
  constructor
  · exact fun he => he.2
  · exact fun he => ⟨fun _ => he.1, he⟩

/-- The assignments of `sched_register_process`, those to its primitive apart. -/
def registerProcess (c : ProcessId k) (s : State k) : State k :=
  let s := s.modLinks fun l => l.insertAfter .sProcesses (.pList c)
  let s := s.modLinks fun l => l.init (.pTasks c)
  let s := s.modLinks fun l => l.init (.pPrimitives c)
  let s := s.modProcess c fun _ =>
    { pSched := true, pStatus := schedStatusActive, pNbTasks := 0, pNbPrimitives := 0 }
  s.modSched fun x => { x with sNbProcesses := x.sNbProcesses + 1 }

theorem schedRegisterProcess_eq :
    schedRegisterProcess c s = processRegisterPrim c (pPrim c) (registerProcess c s) := rfl

/-- The end of `sched_unregister_thread`. -/
def forgetThread (h : ThreadId k) (s : State k) : State k :=
  let s := s.modThread h fun x => { x with tSched := false }
  let s := s.modLinks fun l => l.removeUnsafe (.threadList h)
  s.modSched fun x => { x with sNbThreads := x.sNbThreads - 1 }

/-- The end of `sched_unregister_process`. -/
def forgetProcess (c : ProcessId k) (s : State k) : State k :=
  let s := s.modLinks fun l => l.removeUnsafe (.pList c)
  s.modSched fun x => { x with sNbProcesses := x.sNbProcesses - 1 }

namespace Move

/-- The memory after a move. -/
def apply : Move k → State k → State k
  | .edit e, s => e.report?.elim (e.apply s) fun call => (e.apply s).record call
  | .report call, s => s.record call
  | .assign h t, s => assignTask h t s
  | .idle h, s => s.modThread h fun x => { x with tTask := none, tCommit := -1 }
  | .leave t, s => threadUnregisterTask t s
  | .unlink t, s => s.modLinks fun l => l.remove (.tSchedList t)
  | .unlinkUnsafe t, s => s.modLinks fun l => l.removeUnsafe (.tSchedList t)
  | .uncount c, s => s.modProcess c fun x => { x with pNbTasks := x.pNbTasks - 1 }
  | .addProcess c, s => registerProcess c s
  | .addThread h, s => schedRegisterThread h s
  | .addTask c t, s => registerTask c t s
  | .addPrim c p, s => processRegisterPrim c p s
  | .setBound p n, s => { s with sNbOwners := Function.update s.sNbOwners p n }
  | .forgetPrim c p, s => Sched.forgetPrim p c s
  | .forgetThread h, s => Sched.forgetThread h s
  | .forgetProcess c, s => Sched.forgetProcess c s

/-- What has been checked when the move is made. -/
def Checked (s : State k) : Move k → Prop
  | .edit e => e.Checked s ∧ match e with
      | .resume p t => (s.prim p).pProcess = (s.task t).tProcess
      | .unoverride p _ => (s.prim p).pProcess ≠ none
      | _ => True
  | .assign h t => (s.task t).tProcess ≠ none ∧ (s.thread h).tSched = true
  | .leave t | .unlink t | .unlinkUnsafe t => (s.task t).tProcess ≠ none
  | .addTask c _ | .forgetProcess c => (s.process c).pSched = true
  | .forgetPrim _ p => (s.prim p).pProcess ≠ none ∧ (s.prim p).pOverridden = none
  | .forgetThread h => (s.thread h).tSched = true
  | _ => True

/-- The calls to the policy that a move records. -/
def reports : Move k → List (HookCall k)
  | .edit e => e.report?.toList
  | .report call => [call]
  | _ => []

/-- What a move does to the pointers. -/
def pointers (P : Pointers k) : Move k → Pointers k
  | .edit e => e.pointers P
  | .assign h t =>
      if P.tThread t = some h then P
      else ((P.tThread t).elim P fun g => P.leave g t).enter h t
  | .leave t => (P.tThread t).elim P fun g => P.leave g t
  | .unlink t => { P with links := P.links.remove (.tSchedList t) }
  | .unlinkUnsafe t => { P with links := P.links.removeUnsafe (.tSchedList t) }
  | .uncount c => { P with pNbTasks := Function.update P.pNbTasks c (P.pNbTasks c - 1) }
  | .addProcess c => P.addProcess c
  | .addThread h => P.addThread h
  | .addTask c t => P.addTask c t
  | .addPrim c p => P.addPrim c p
  | .forgetPrim _ p => { P with links := P.links.removeUnsafe (.pSiblings p) }
  | .forgetThread h => { P with
      links := P.links.removeUnsafe (.threadList h)
      tSched := Function.update P.tSched h false }
  | .forgetProcess c => { P with links := P.links.removeUnsafe (.pList c) }
  | .report _ | .idle _ | .setBound _ _ => P

end Move

/-! ### Pointers -/

section pointers

variable (s : State k)

theorem modThread_pointers {f : Sthread k → Sthread k}
    (hf : ∀ x, (f x).tSched = x.tSched ∧ (f x).tHistorySize = x.tHistorySize) :
    (s.modThread h f).pointers = s.pointers := by
  ext x : 2
  all_goals first
    | rfl
    | by_cases hx : x = h <;> simp [State.pointers, hx, hf]

theorem leave_pointers : (threadUnregisterTask t s).pointers =
    (s.pointers.tThread t).elim s.pointers fun g => s.pointers.leave g t := by
  cases hg : (s.task t).tThread with
  | none =>
      have e : s.pointers.tThread t = none := hg
      rw [e]
      simp [threadUnregisterTask, hg]
  | some g =>
      have e : s.pointers.tThread t = some g := hg
      rw [e]
      exact threadUnregisterTask_pointers hg

theorem registerTask_pointers : (registerTask c t s).pointers = s.pointers.addTask c t := by
  simp only [registerTask]
  ext x : 2
  all_goals first
    | rfl
    | by_cases hx : x = t <;> simp [State.pointers, Pointers.addTask, hx]
    | by_cases hx : x = c <;> simp [State.pointers, Pointers.addTask, hx]

theorem registerProcess_pointers :
    (registerProcess c s).pointers = s.pointers.addProcess c := by
  simp only [registerProcess]
  ext x : 2
  all_goals first
    | rfl
    | by_cases hx : x = c <;> simp [State.pointers, Pointers.addProcess, hx]

theorem Move.apply_pointers (m : Move k) : (m.apply s).pointers = m.pointers s.pointers := by
  cases m with
  | edit e =>
      have he := e.apply_pointers s
      cases e <;> exact he
  | report call => rfl
  | assign h t =>
      rw [Move.pointers, Move.apply, assignTask_pointers, threadTransferTask_pointers,
        leave_pointers]
      rfl
  | idle h => exact modThread_pointers s fun _ => ⟨rfl, rfl⟩
  | leave t => exact leave_pointers s
  | unlink t => rfl
  | unlinkUnsafe t => rfl
  | uncount c =>
      ext x : 2
      all_goals first
        | rfl
        | by_cases hx : x = c <;> simp [Move.apply, Move.pointers, State.pointers, hx]
  | addProcess c => exact registerProcess_pointers s
  | addThread h => exact schedRegisterThread_pointers s h
  | addTask c t => exact registerTask_pointers s
  | addPrim c p => exact processRegisterPrim_pointers s p c
  | setBound p n => rfl
  | forgetPrim c p =>
      ext x : 2
      all_goals first
        | rfl
        | by_cases hx : x = c <;> simp [Move.apply, Move.pointers, State.pointers, Sched.forgetPrim, hx]
  | forgetThread h =>
      ext x : 2
      all_goals first
        | rfl
        | by_cases hx : x = h <;>
            simp [Move.apply, Move.pointers, State.pointers, Sched.forgetThread, hx]
  | forgetProcess c => rfl

/-- The process of a task, of a primitive and the scheduler of a process change at their
registration only. -/
theorem Move.pointers_processes (m : Move k) (P : Pointers k) :
    ((∀ c t, m ≠ .addTask c t) → (m.pointers P).tProcess = P.tProcess) ∧
      ((∀ c p, m ≠ .addPrim c p) → (m.pointers P).pProcess = P.pProcess) ∧
      ((∀ c, m ≠ .addProcess c) → (m.pointers P).pSched = P.pSched) := by
  have hleave : ∀ (o : Option (ThreadId k)) (t : TaskId k),
      (o.elim P fun g => P.leave g t).tProcess = P.tProcess ∧
        (o.elim P fun g => P.leave g t).pProcess = P.pProcess ∧
        (o.elim P fun g => P.leave g t).pSched = P.pSched := by
    intro o t
    cases o <;> exact ⟨rfl, rfl, rfl⟩
  cases m with
  | edit e => cases e <;> exact ⟨fun _ => rfl, fun _ => rfl, fun _ => rfl⟩
  | assign h t =>
      simp only [Move.pointers]
      split
      · exact ⟨fun _ => rfl, fun _ => rfl, fun _ => rfl⟩
      · obtain ⟨h₁, h₂, h₃⟩ := hleave (P.tThread t) t
        exact ⟨fun _ => h₁, fun _ => h₂, fun _ => h₃⟩
  | leave t =>
      obtain ⟨h₁, h₂, h₃⟩ := hleave (P.tThread t) t
      exact ⟨fun _ => h₁, fun _ => h₂, fun _ => h₃⟩
  | addTask c t => exact ⟨fun h => absurd rfl (h c t), fun _ => rfl, fun _ => rfl⟩
  | addPrim c p => exact ⟨fun _ => rfl, fun h => absurd rfl (h c p), fun _ => rfl⟩
  | addProcess c => exact ⟨fun _ => rfl, fun _ => rfl, fun h => absurd rfl (h c)⟩
  | _ => exact ⟨fun _ => rfl, fun _ => rfl, fun _ => rfl⟩

/-- A move leaves the process of a task, unless it registers the task. -/
theorem Move.apply_tProcess (m : Move k) (h : ∀ d, m ≠ .addTask d t) :
    ((m.apply s).task t).tProcess = (s.task t).tProcess := by
  have e : ((m.apply s).task t).tProcess = (m.pointers s.pointers).tProcess t :=
    congrFun (congrArg Pointers.tProcess (m.apply_pointers s)) t
  refine e.trans ?_
  cases m with
  | addTask d u =>
      have hut : t ≠ u := fun e => h d (e ▸ rfl)
      exact Function.update_of_ne hut ..
  | _ => exact congrFun ((Move.pointers_processes _ _).1 (by simp)) t

theorem Move.apply_pProcess (m : Move k) (h : ∀ d, m ≠ .addPrim d p) :
    ((m.apply s).prim p).pProcess = (s.prim p).pProcess := by
  have e : ((m.apply s).prim p).pProcess = (m.pointers s.pointers).pProcess p :=
    congrFun (congrArg Pointers.pProcess (m.apply_pointers s)) p
  refine e.trans ?_
  cases m with
  | addPrim d q =>
      have hpq : p ≠ q := fun e => h d (e ▸ rfl)
      exact Function.update_of_ne hpq ..
  | _ => exact congrFun ((Move.pointers_processes _ _).2.1 (by simp)) p

/-- A move leaves the scheduler of a process, unless it registers the process. -/
theorem Move.apply_pSched {d : ProcessId k} (m : Move k) (h : m ≠ .addProcess d) :
    ((m.apply s).process d).pSched = (s.process d).pSched := by
  have e : ((m.apply s).process d).pSched = (m.pointers s.pointers).pSched d :=
    congrFun (congrArg Pointers.pSched (m.apply_pointers s)) d
  refine e.trans ?_
  cases m with
  | addProcess c =>
      have hdc : d ≠ c := fun e => h (e ▸ rfl)
      exact Function.update_of_ne hdc ..
  | _ => exact congrFun ((Move.pointers_processes _ _).2.2 (by simp)) d

theorem Move.apply_hooks (m : Move k) : (m.apply s).hooks = m.reports ++ s.hooks := by
  cases m with
  | edit e =>
      have hl : ∀ x : State k, x.ledger = s.ledger → x.hooks = s.hooks :=
        fun x hx => congrArg Ledger.hooks hx
      cases e with
      | stop p t => exact congrArg _ (hl _ (stopTask_ledger s p t))
      | resume p t => exact congrArg _ (hl _ (resumeTask_ledger s p t))
      | override p t => exact congrArg _ (hl _ (overrideTask_ledger s p t))
      | unoverride p t => exact congrArg _ (hl _ (unOverride_ledger s p t))
      | _ => rfl
  | assign h t =>
      simp only [Move.apply, Move.reports, assignTask, State.modThread_hooks, State.modTask_hooks,
        List.nil_append]
      split
      · rfl
      · exact threadUnregisterTask_hooks t s
  | leave t => exact threadUnregisterTask_hooks t s
  | _ => rfl

end pointers

/-! ### Sequences -/

/-- `s'` is reached from `s` by allowed moves that were checked. -/
inductive Moves (allowed : State k → Move k → Prop) (s : State k) : State k → Prop
  | refl : Moves allowed s s
  | step {x : State k} (m : Move k) : Moves allowed s x → m.Checked x → allowed x m →
      Moves allowed s (m.apply x)

namespace Moves

variable {allowed : State k → Move k → Prop}

theorem single (m : Move k) (hm : m.Checked s) (ha : allowed s m) : Moves allowed s (m.apply s) :=
  .step m .refl hm ha

theorem trans (M : Moves allowed s s₁) (M' : Moves allowed s₁ s') : Moves allowed s s' := by
  induction M' with
  | refl => exact M
  | step m _ hm ha ih => exact .step m ih hm ha

theorem mono {allowed' : State k → Move k → Prop} (M : Moves allowed s s')
    (h : ∀ x m, allowed x m → allowed' x m) : Moves allowed' s s' := by
  induction M with
  | refl => exact .refl
  | step m _ hm ha ih => exact .step m ih hm (h _ m ha)

/-- **What every allowed move keeps, a sequence of moves keeps.** -/
theorem keeps {I : State k → Prop}
    (hstep : ∀ {x} m, I x → m.Checked x → allowed x m → I (m.apply x))
    (M : Moves allowed s s') (h0 : I s) : I s' := by
  induction M with
  | refl => exact h0
  | step m _ hm ha ih => exact hstep m ih hm ha

theorem tProcess_eq (M : Moves allowed s s') (hno : ∀ x d, ¬allowed x (.addTask d t)) :
    (s'.task t).tProcess = (s.task t).tProcess :=
  M.keeps (I := fun x => (x.task t).tProcess = (s.task t).tProcess)
    (fun {x} m hx _ ha => (m.apply_tProcess x fun d e => hno x d (e ▸ ha)).trans hx) rfl

theorem pProcess_eq (M : Moves allowed s s') (hno : ∀ x d, ¬allowed x (.addPrim d p)) :
    (s'.prim p).pProcess = (s.prim p).pProcess :=
  M.keeps (I := fun x => (x.prim p).pProcess = (s.prim p).pProcess)
    (fun {x} m hx _ ha => (m.apply_pProcess x fun d e => hno x d (e ▸ ha)).trans hx) rfl

theorem pSched_eq {d : ProcessId k} (M : Moves allowed s s')
    (hno : ∀ x, ¬allowed x (.addProcess d)) : (s'.process d).pSched = (s.process d).pSched :=
  M.keeps (I := fun x => (x.process d).pSched = (s.process d).pSched)
    (fun {x} m hx _ ha => (m.apply_pSched x fun e => hno x (e ▸ ha)).trans hx) rfl

/-- The calls to the policy made by the moves come on top of the former ones. -/
theorem hooks (M : Moves allowed s s') : s.hooks <:+ s'.hooks := by
  induction M with
  | refl => exact List.suffix_rfl
  | step m _ _ _ ih =>
      rw [m.apply_hooks]
      exact ih.trans (List.suffix_append _ _)

end Moves

/-! ### Calls to the policy -/

/-- The policy answers the latest of the calls made since `s₀` by the assignment of `t` to
`h`. -/
def Answered (policy : Policy k) (s₀ x : State k) (h : ThreadId k) (t : Option (TaskId k)) : Prop :=
  s₀.hooks.length < x.hooks.length ∧ s₀.hooks <:+ x.hooks ∧ (h, t) ∈ policy x.hooks

/-- The answers of the policy are allowed. -/
def Answers (policy : Policy k) (s₀ : State k) (allowed : State k → Move k → Prop) : Prop :=
  ∀ x h t, Answered policy s₀ x h t → allowed x (t.elim (.idle h) (.assign h))

namespace Moves

variable {allowed : State k → Move k → Prop}

theorem assignment {t : Option (TaskId k)} (ha : allowed s (t.elim (.idle h) (.assign h)))
    (he : threadAssignTask ⟨true, policy⟩ h t s = .ok s') : Moves allowed s s' := by
  cases t with
  | none =>
      obtain rfl := Except.ok.inj he
      exact single (.idle h) trivial ha
  | some t =>
      obtain ⟨hprc, hsched, rfl⟩ := threadAssignTask_ok he
      exact single (.assign h t) ⟨hprc rfl, hsched⟩ ha

/-- **The answers of the policy** to a call. -/
theorem callHook {sched : Bool} {call : HookCall k} (hpolicy : Answers policy s₀ allowed)
    (h0 : s₀.hooks <:+ s.hooks) (he : Sched.callHook ⟨true, policy⟩ sched call s = .ok s') :
    sched = true ∧ Moves allowed (s.record call) s' := by
  simp only [Sched.callHook, bind_eq_ok, derefSched_eq_ok, exists_const] at he
  obtain ⟨hsched, he⟩ := he
  refine ⟨hsched, ?_⟩
  have hlen : s₀.hooks.length < (call :: s.hooks).length := Nat.lt_succ_of_le h0.length_le
  have hsuffix : s₀.hooks <:+ call :: s.hooks := h0.trans (List.suffix_cons _ _)
  have key : ∀ (l : List (ThreadId k × Option (TaskId k))) (x : State k),
      (∀ a ∈ l, a ∈ policy (call :: s.hooks)) → x.hooks = call :: s.hooks →
      l.foldlM (fun s a => threadAssignTask ⟨true, policy⟩ a.1 a.2 s) x = .ok s' →
      Moves allowed x s' := by
    intro l
    induction l with
    | nil =>
        intro x _ _ he
        exact Except.ok.inj he ▸ .refl
    | cons a l ih =>
        intro x hl hx he
        rw [List.foldlM_cons, bind_eq_ok] at he
        obtain ⟨x₁, h₁, he⟩ := he
        have ha : allowed x (a.2.elim (.idle a.1) (.assign a.1)) := by
          refine hpolicy x a.1 a.2 ⟨?_, ?_, ?_⟩
          · rw [hx]
            exact hlen
          · rw [hx]
            exact hsuffix
          · rw [hx]
            exact hl a List.mem_cons_self
        refine (assignment ha h₁).trans (ih x₁ (fun b hb => hl b (List.mem_cons_of_mem _ hb)) ?_ he)
        exact (threadAssignTask_assigned h₁).2.trans hx
  exact key _ (s.record call) (fun _ => id) rfl he

theorem reported {sched : Bool} {call : HookCall k} {e : Edit k}
    (hpolicy : Answers policy s₀ allowed) (h0 : s₀.hooks <:+ s.hooks) (ha : allowed s (.edit e))
    (hc : (Move.edit e).Checked s) (hcall : e.report? = some call)
    (he : Sched.callHook ⟨true, policy⟩ sched call (e.apply s) = .ok s') : Moves allowed s s' := by
  have happly : (Move.edit e).apply s = (e.apply s).record call := by
    simp [Move.apply, hcall]
  have hh : s₀.hooks <:+ (e.apply s).hooks := by
    have := (Move.edit e).apply_hooks s
    rw [happly] at this
    simp only [Move.reports, hcall, State.record, Option.toList_some, List.singleton_append,
      List.cons.injEq, true_and] at this
    exact this ▸ h0
  refine (single (.edit e) hc ha).trans ?_
  rw [happly]
  exact (callHook hpolicy hh he).2

theorem reporting {sched : Bool} {call : HookCall k} (hpolicy : Answers policy s₀ allowed)
    (h0 : s₀.hooks <:+ s.hooks) (he : Sched.callHook ⟨true, policy⟩ sched call s = .ok s')
    (ha : allowed s (.report call)) : Moves allowed s s' :=
  (single (.report call) trivial ha).trans (callHook hpolicy h0 he).2

end Moves

end KernelTk.Sched
