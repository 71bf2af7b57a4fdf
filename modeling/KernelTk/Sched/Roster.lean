import KernelTk.Sched.Members
import KernelTk.Sched.Pause
import KernelTk.Sched.Stream

/-! # What the calls do to the active list

* **State.** `Roster T s K R A M W` : the lists of `Members`, their zones, and the statuses of the
  linked tasks.  It holds of memories in which tasks have been unregistered and are still in the list of
  their process.
* **Calls to the policy.** `Tells s s' l` : the calls about tasks made from `s` to `s'` are those of
  `l`, the latest first.
* **Still moves.** Most moves leave the lists and tell nothing about tasks (`Move.still`, `Roster.still`);
  the answers of the policy are among them.  The proofs about a function treat the moves that are not
  still, and pass over the others at once (`Roster.stills`).
* **Functions.** One lemma for each function says what it does to the active list and what it
  tells: `Roster.stopTask`, `Roster.resumeTask`, `Roster.pauseProcess`, ...  Those that walk a list keep
  an invariant of the tasks still to be visited (`Waking`, `Halting`, `Unlinking`).
* **One call.** `Shift` lists what a call may do to the active list and tell about tasks; `exec_shift` says
  which one it does, when it is made on linked tasks.
* **Runs.** `reach_enrolled` : the lists are in order in every state reached by calls on linked
  tasks. -/

namespace KernelTk.Sched

open Transition
open CircularList (IsRing RingTable Shape SameZone)

variable {k : Machine} {policy : Policy k} {hist : Hist k} {s s' s₁ : State k} {c : Call k}
  {r : BitVec 8} {p : PrimId k} {t u : TaskId k} {h : ThreadId k} {d : ProcessId k}
  {T : ThreadId k → Prop}

/-! ### Calls about tasks -/

/-- The call tells that a task has become active, or is not active any more. -/
def HookCall.tellsTask : HookCall k → Bool
  | .registered _ | .unregistered _ | .stopped _ | .resumed _ => true
  | _ => false

/-- The calls about tasks made from one memory to another one. -/
def Tells (s s' : State k) (l : List (HookCall k)) : Prop :=
  ∃ l', s'.hooks = l' ++ s.hooks ∧ l'.filter HookCall.tellsTask = l

namespace Tells

theorem of_hooks (e : s'.hooks = s.hooks) : Tells s s' [] := ⟨[], e, rfl⟩

theorem cons (call : HookCall k) (e : s'.hooks = call :: s.hooks) :
    Tells s s' ([call].filter HookCall.tellsTask) := ⟨[call], e, rfl⟩

theorem trans {l l' : List (HookCall k)} (h : Tells s s₁ l) (h' : Tells s₁ s' l') :
    Tells s s' (l' ++ l) := by
  obtain ⟨m, hm, rfl⟩ := h
  obtain ⟨m', hm', rfl⟩ := h'
  exact ⟨m' ++ m, by rw [hm', hm, List.append_assoc], List.filter_append ..⟩

end Tells

/-! ### The lists of a memory -/

/-- The lists, their zones and the statuses of the linked tasks. -/
structure Roster (T : ThreadId k → Prop) (s : State k) (K R : TaskId k → Prop) (A : List (TaskId k))
    (M : ProcessId k → Option (List (TaskId k))) (W : PrimId k → Option (List (TaskId k))) : Prop where
  zones : Zones s.pointers T
  members : Members s.pointers K R A M W
  status : ∀ t, K t → StatusOk s t

/-- The moves that leave the lists, and tell nothing about tasks. -/
def Move.still : Move k → Bool
  | .edit e => match e with
      | .stop _ _ | .resume _ _ => false
      | _ => true
  | .report call => !call.tellsTask
  | .assign _ _ | .idle _ | .leave _ | .uncount _ | .setBound _ _ | .forgetPrim _ _ | .forgetThread _
  | .forgetProcess _ => true
  | _ => false

theorem Move.still_tStopper (m : Move k) (hm : m.still = true) (P : Pointers k) :
    (m.pointers P).tStopper = P.tStopper := by
  have hleave : ∀ (o : Option (ThreadId k)) (t : TaskId k),
      (o.elim P fun g => P.leave g t).tStopper = P.tStopper := by
    intro o t
    cases o <;> rfl
  cases m with
  | edit e =>
      cases e with
      | stop | resume => cases hm
      | _ => rfl
  | assign h t =>
      simp only [Move.pointers]
      split
      · rfl
      · exact hleave (P.tThread t) t
  | leave t => exact hleave (P.tThread t) t
  | unlink | unlinkUnsafe | addTask | addProcess | addPrim | addThread => cases hm
  | _ => rfl

theorem Move.still_reports (m : Move k) (hm : m.still = true) :
    m.reports.filter HookCall.tellsTask = [] := by
  cases m with
  | edit e =>
      cases e with
      | stop | resume => cases hm
      | _ => rfl
  | report call => simpa [Move.reports, Move.still] using hm
  | _ => rfl

theorem StatusOk.move (m : Move k) (hok : StatusOk s u) (hm : ∀ d, m ≠ .addTask d u) :
    StatusOk (m.apply s) u := by
  cases m with
  | edit e =>
      have h₁ := hok.edit e
      cases hrep : e.report? with
      | none =>
          have happly : (Move.edit e).apply s = e.apply s := by simp [Move.apply, hrep]
          rw [happly]
          exact h₁
      | some call =>
          have happly : (Move.edit e).apply s = (e.apply s).record call := by simp [Move.apply, hrep]
          rw [happly]
          exact h₁.congr rfl rfl
  | assign h t => exact hok.assigned (assignTask_assigned h t s)
  | leave t => exact hok.assigned (threadUnregisterTask_assigned t s)
  | addTask d t =>
      have hut : u ≠ t := fun e => hm d (e ▸ rfl)
      have e : (registerTask d t s).task u = s.task u := by simp [registerTask, hut]
      exact hok.congr (congrArg Stask.tStatus e) (congrArg Stask.tStopper e)
  | _ => exact hok.congr rfl rfl

namespace Roster

variable {K R R' : TaskId k → Prop} {A : List (TaskId k)}
  {M : ProcessId k → Option (List (TaskId k))} {W : PrimId k → Option (List (TaskId k))}

theorem fewer (B : Roster T s K R A M W) (hR : ∀ t, R' t → R t) : Roster T s K R' A M W :=
  { B with members := B.members.fewer hR }

/-- **A still move** leaves the lists. -/
theorem still (B : Roster T s K R A M W) (m : Move k) (hm : m.Checked s) (hstill : m.still = true) :
    Roster T (m.apply s) K R A M W := by
  have hsame : ∀ z, m.touches z = false → SameZone Node.zone z s.pointers.links
      (m.apply s).pointers.links := fun z hz => B.zones.same m hm hz
  have hzones : m.touches .actives = false ∧ m.touches .tasks = false ∧
      m.touches .stopped = false := by
    cases m with
    | edit e =>
        cases e with
        | stop | resume => cases hstill
        | _ => exact ⟨rfl, rfl, rfl⟩
    | unlink | unlinkUnsafe | addTask | addProcess | addPrim | addThread => cases hstill
    | _ => exact ⟨rfl, rfl, rfl⟩
  have hadd : (∀ c t, m ≠ .addTask c t) ∧ (∀ c p, m ≠ .addPrim c p) ∧ ∀ h, m ≠ .addThread h := by
    refine ⟨?_, ?_, ?_⟩
    · rintro c t rfl
      cases hstill
    · rintro c p rfl
      cases hstill
    · rintro h rfl
      cases hstill
  obtain ⟨h₁, h₂, -⟩ := m.pointers_processes s.pointers
  constructor
  · have hmove := B.zones.move m hm
    cases m with
    | addThread h => cases hstill
    | _ => exact hmove
  · refine B.members.frame (hsame _ hzones.1) (hsame _ hzones.2.1) (hsame _ hzones.2.2) ?_ ?_ ?_
    · rw [m.apply_pointers]
      exact h₁ hadd.1
    · rw [m.apply_pointers]
      exact m.still_tStopper hstill _
    · intro p _
      rw [m.apply_pointers, h₂ hadd.2.1]
  · exact fun t ht => (B.status t ht).move m fun d => hadd.1 d t

/-- **Still moves** leave the lists, and tell nothing about tasks. -/
theorem stills {allowed : State k → Move k → Prop} (B : Roster T s K R A M W)
    (E : Moves allowed s s') (hallowed : ∀ x m, allowed x m → m.still = true) :
    Roster T s' K R A M W ∧ Tells s s' [] := by
  refine E.keeps (I := fun x => Roster T x K R A M W ∧ Tells s x [])
    (fun {x} m hx hm ha => ?_) ⟨B, .of_hooks rfl⟩
  have hstill := hallowed x m ha
  refine ⟨hx.1.still m hm hstill, ?_⟩
  have hreports : Tells x (m.apply x) [] := ⟨m.reports, m.apply_hooks x, m.still_reports hstill⟩
  exact hx.2.trans hreports

/-- The answers of the policy are still moves. -/
theorem answers_still (policy : Policy k) (s : State k) :
    Answers policy s (fun _ m => m.still = true) := by
  intro x h t _
  cases t <;> rfl

theorem hook {sched : Bool} {call : HookCall k} (B : Roster T s K R A M W)
    (he : callHook ⟨true, policy⟩ sched call s = .ok s') :
    Roster T s' K R A M W ∧ s'.hooks = call :: s.hooks := by
  obtain ⟨-, E⟩ := Moves.callHook (answers_still policy s) List.suffix_rfl he
  have B₀ : Roster T (s.record call) K R A M W :=
    ⟨B.zones, B.members, fun t ht => (B.status t ht).congr rfl rfl⟩
  exact ⟨(B₀.stills E fun _ _ => id).1, (callHook_assigned he).2.2⟩

/-! ### Stops and resumptions -/

theorem stopTask {task : Option (TaskId k)} (B : Roster T s K R A M W) (hp : (W p).isSome)
    (hK : ∀ t, task = some t → K t) (he : primitiveStopTask ⟨true, policy⟩ p task s = .ok s') :
    ∃ t l, task = some t ∧ (s.task t).tStopper = none ∧ W p = some l ∧
      Roster T s' K R (A.erase t) M (Function.update W p (some (l ++ [t]))) ∧
      Tells s s' [.stopped t] := by
  obtain ⟨t, c, ht, -, hchecks, he⟩ := primitiveStopTask_ok.mp he
  obtain ⟨hrel, hactive, hs⟩ := hchecks rfl
  have hcheck : (Edit.stop p t).Checked s := ⟨hrel, hactive, hs⟩
  have hKt := hK t ht
  obtain ⟨l, hl, B'⟩ := B.members.stop B.zones hKt hp hrel.same hs
  have B₁ : Roster T (Sched.stopTask p t s) K R (A.erase t) M
      (Function.update W p (some (l ++ [t]))) := by
    refine ⟨?_, ?_, fun u hu => (B.status u hu).edit (.stop p t)⟩
    · exact B.zones.move (.edit (.stop p t)) ⟨hcheck, trivial⟩
    · rw [stopTask_pointers]
      exact B'
  obtain ⟨B₂, hhooks⟩ := B₁.hook he
  refine ⟨t, l, ht, hs, hl, B₂, ?_⟩
  have e : (Sched.stopTask p t s).hooks = s.hooks := congrArg Ledger.hooks (stopTask_ledger s p t)
  exact Tells.cons (.stopped t) (hhooks.trans (congrArg _ e))

theorem stopThread (B : Roster T s K R A M W) (hp : (W p).isSome)
    (hK : ∀ t, (s.thread h).tTask = some t → K t)
    (he : primitiveStopThread ⟨true, policy⟩ p h s = .ok s') :
    ∃ t l, (s.thread h).tTask = some t ∧ (s.task t).tStopper = none ∧ W p = some l ∧
      Roster T s' K R (A.erase t) M (Function.update W p (some (l ++ [t]))) ∧
      Tells s s' [.stopped t] := by
  obtain ⟨-, s₁, h₁, he⟩ := primitiveStopThread_ok.mp he
  obtain ⟨t, l, ht, hs, hl, B₁, htells⟩ := B.stopTask hp hK h₁
  obtain ⟨B₂, hhooks⟩ := B₁.hook he
  exact ⟨t, l, ht, hs, hl, B₂, htells.trans (Tells.cons _ hhooks)⟩

theorem resumeTask {a : Addr k} (B : Roster T s K R A M W) (hK : ∀ t, a.task? = some t → K t)
    (he : primitiveResumeTask ⟨true, policy⟩ a s = .ok s') :
    ∃ t p l, a.task? = some t ∧ (s.task t).tStopper = some p ∧ W p = some l ∧ t ∈ l ∧
      Roster T s' K R (t :: A) M (Function.update W p (some (l.erase t))) ∧
      Tells s s' [.resumed t] := by
  obtain ⟨t, c, p, ht, hprc, hs, hchecks, he⟩ := primitiveResumeTask_ok.mp he
  obtain ⟨-, hsame, hst⟩ := hchecks rfl
  have hKt := hK t ht
  have hmember : (s.task t).tProcess ≠ none := by simp [hprc]
  obtain ⟨l, hl, hmem, B'⟩ := B.members.resume B.zones hKt hs
  have B₁ : Roster T (Sched.resumeTask p t s) K R (t :: A) M
      (Function.update W p (some (l.erase t))) := by
    refine ⟨?_, ?_, fun u hu => (B.status u hu).edit (.resume p t)⟩
    · exact B.zones.move (.edit (.resume p t)) ⟨⟨hmember, hs, hst⟩, hsame⟩
    · rw [resumeTask_pointers]
      exact B'
  obtain ⟨B₂, hhooks⟩ := B₁.hook he
  refine ⟨t, p, l, ht, hs, hl, hmem, B₂, ?_⟩
  have e : (Sched.resumeTask p t s).hooks = s.hooks :=
    congrArg Ledger.hooks (resumeTask_ledger s p t)
  exact Tells.cons (.resumed t) (hhooks.trans (congrArg _ e))

/-! ### Walks -/

theorem isSome_update {α : Type} [DecidableEq α] {F : α → Option (List (TaskId k))} {a : α}
    {l l' : List (TaskId k)} (hl : F a = some l) (b : α) :
    (Function.update F a (some l') b).isSome = (F b).isSome := by
  by_cases hb : b = a
  · simp [hb, hl]
  · simp [hb]

/-- `process_unregister_prim` has resumed the tasks of `l` but those of `rest`. -/
def Waking (T : ThreadId k → Prop) (s : State k) (K R : TaskId k → Prop) (A : List (TaskId k))
    (M : ProcessId k → Option (List (TaskId k))) (W : PrimId k → Option (List (TaskId k)))
    (p : PrimId k) (l rest : List (TaskId k)) (x : State k) : Prop :=
  ∃ done W', l = done ++ rest ∧ Roster T x K R (done.reverse ++ A) M W' ∧ W' p = some rest ∧
    (∀ q, q ≠ p → W' q = W q) ∧ Tells s x (done.reverse.map .resumed)

theorem Waking.turn {l rest : List (TaskId k)} {x x' : State k}
    (h : Waking T s K R A M W p l (t :: rest) x)
    (hbody : primitiveResumeTask ⟨true, policy⟩ (containerOf (.tStopped t) tStoppedOffset) x = .ok x') :
    Waking T s K R A M W p l rest x' := by
  obtain ⟨done, W', rfl, Bx, hW', hother, htells⟩ := h
  obtain ⟨hKt, hstop⟩ := (Bx.members.waits hW').mp List.mem_cons_self
  obtain ⟨u, q, m, hu, hq, hm, -, Bx', htells'⟩ := Bx.resumeTask (fun u hu => by
    obtain rfl := Option.some.inj hu
    exact hKt) hbody
  obtain rfl := Option.some.inj hu
  obtain rfl := Option.some.inj (hstop.symm.trans hq)
  obtain rfl := Option.some.inj (hW'.symm.trans hm)
  refine ⟨done ++ [t], _, by simp, by simpa using Bx', ?_, fun q hq => ?_, ?_⟩
  · simp
  · rw [Function.update_of_ne hq]
    exact hother q hq
  · simpa using htells.trans htells'

/-- `process_unregister_prim` resumes the tasks that the primitive has stopped. -/
theorem unregisterPrim {l : List (TaskId k)} (B : Roster T s K R A M W) (hl : W p = some l)
    (he : processUnregisterPrim ⟨true, policy⟩ p s = .ok (r, s')) :
    ∃ W', Roster T s' K R (l.reverse ++ A) M W' ∧ W' p = some [] ∧ (∀ q, q ≠ p → W' q = W q) ∧
      Tells s s' (l.reverse.map .resumed) := by
  obtain ⟨s₁, s₂, d, h₁, h₂, hprc, -, rfl⟩ := processUnregisterPrim_ok he
  have h0 : Waking T s K R A M W p l l s := ⟨[], W, rfl, B, hl, fun _ _ => rfl, .of_hooks rfl⟩
  have hwalk : Waking T s K R A M W p l [] s₁ := by
    refine forEachNode_ring Node.tStopped (Waking T s K R A M W p l) ?_ (fun h hbody => h.turn hbody)
      h0 (B.members.stopped.next_head hl) h₁
    rintro t rest x ⟨done, W', -, Bx, hW', -⟩
    exact ⟨nofun, Bx.members.stopped.next_first hW'⟩
  obtain ⟨done, W', hdone, B₁, hW', hother, htells⟩ := hwalk
  rw [List.append_nil] at hdone
  subst hdone
  have E : Moves (fun _ m => m.still = true) s₁ s₂ :=
    Moves.unOverride (fun x h t _ => by cases t <;> rfl) List.suffix_rfl (fun _ => rfl) h₂
  obtain ⟨B₂, htells₂⟩ := B₁.stills E fun _ _ => id
  have E₁ : Moves (fun _ _ => True) s s₁ := Moves.forEachNode List.suffix_rfl (fun hx hb =>
    Moves.resumeTask (fun _ _ _ _ => trivial) hx (fun _ _ _ => trivial) hb) h₁
  have hmember : (s₂.prim p).pProcess ≠ none := E.pProcess (E₁.pProcess (by simp [hprc]))
  have B₃ := B₂.still (.forgetPrim d p) ⟨hmember, primUnOverride_pOverridden h₂⟩ rfl
  refine ⟨W', B₃, hW', hother, ?_⟩
  exact (htells.trans htells₂).trans (Tells.of_hooks (s := s₂) rfl)

/-- `sched_pause_process` has stopped the running tasks of `l` but those of `rest`. -/
def Halting (T : ThreadId k → Prop) (s : State k) (K R : TaskId k → Prop) (A : List (TaskId k))
    (M : ProcessId k → Option (List (TaskId k))) (W : PrimId k → Option (List (TaskId k)))
    (l rest : List (TaskId k)) (x : State k) : Prop :=
  ∃ done A' W', l = done ++ rest ∧ Roster T x K R A' M W' ∧ (∀ q, (W' q).isSome = (W q).isSome) ∧
    (∀ u, u ∈ A' ↔ u ∈ A ∧ u ∉ done) ∧
    (∀ u, u ∉ done → (x.task u).tStopper = (s.task u).tStopper) ∧
    Tells s x ((done.filter (running s)).map .stopped).reverse

theorem Halting.turn {l rest : List (TaskId k)} {x x' : State k} (hl : M d = some l) (hnd : l.Nodup)
    (hp : (W (pPrim d)).isSome) (h : Halting T s K R A M W l (t :: rest) x)
    (hbody : pauseTask ⟨true, policy⟩ d (.tSiblings t) x = .ok x') :
    Halting T s K R A M W l rest x' := by
  obtain ⟨done, A', W', rfl, Bx, hW', hA', hkept, htells⟩ := h
  have hmem : t ∈ done ++ t :: rest := by simp
  obtain ⟨hKt, -⟩ := (Bx.members.member hl).mp hmem
  have htdone : t ∉ done := by
    intro h
    exact (List.nodup_append.mp hnd).2.2 t h t List.mem_cons_self rfl
  have hrun : (x.task t).tStatus = schedStatusActive ↔ running s t = true := by
    rw [(Bx.status t hKt).active_iff, hkept t htdone]
    exact Option.isNone_iff_eq_none.symm
  simp only [pauseTask, containerOf_tSiblings, bind_eq_ok, deref_eq_ok, Option.some.injEq,
    exists_eq_left'] at hbody
  split at hbody
  · rename_i hst
    have hr := hrun.mp hst
    obtain ⟨u, m, hu, hnone, hm, Bx', htells'⟩ := Bx.stopTask (by rw [hW', hp]) (fun u hu => by
      obtain rfl := Option.some.inj hu
      exact hKt) hbody
    obtain rfl := Option.some.inj hu
    refine ⟨done ++ [t], _, _, by simp, Bx', fun q => ?_, fun u => ?_, fun u hu => ?_, ?_⟩
    · rw [isSome_update hm, hW']
    · rw [(Bx.members.nodup).mem_erase_iff, hA' u]
      simp only [List.mem_append, List.mem_singleton, not_or]
      tauto
    · simp only [List.mem_append, List.mem_singleton, not_or] at hu
      obtain ⟨v, e, hv, -, -, hcall⟩ := primitiveStopTask_ok.mp hbody
      obtain rfl := Option.some.inj hv
      rw [(callHook_assigned hcall).2.1.tStopper, ← hkept u hu.1]
      refine (congrFun (congrArg Pointers.tStopper (stopTask_pointers x (pPrim d) t)) u).trans ?_
      exact Function.update_of_ne hu.2 ..
    · have e : (done ++ [t]).filter (running s) = done.filter (running s) ++ [t] := by simp [hr]
      rw [e, List.map_append, List.reverse_append]
      exact htells.trans htells'
  · rename_i hst
    obtain rfl := Except.ok.inj hbody
    have hr : running s t = false := Bool.eq_false_iff.mpr fun h => hst (hrun.mpr h)
    have htA : t ∉ A' := fun h => by
      have hnone := (Bx.members.active t h).2
      exact hst ((Bx.status t hKt).active_iff.mpr hnone)
    refine ⟨done ++ [t], A', W', by simp, Bx, hW', fun u => ?_, fun u hu => ?_, ?_⟩
    · simp only [List.mem_append, List.mem_singleton, not_or]
      constructor
      · intro hu
        exact ⟨((hA' u).mp hu).1, ((hA' u).mp hu).2, fun e => htA (e ▸ hu)⟩
      · exact fun hu => (hA' u).mpr ⟨hu.1, hu.2.1⟩
    · exact hkept u fun h => hu (List.mem_append_left _ h)
    · have e : (done ++ [t]).filter (running s) = done.filter (running s) := by simp [hr]
      rw [e]
      exact htells

theorem pauseProcess {l : List (TaskId k)} (B : Roster T s K R A M W) (hl : M d = some l)
    (hp : (W (pPrim d)).isSome) (he : schedPauseProcess ⟨true, policy⟩ d s = .ok s') :
    ∃ A' W', Roster T s' K R A' M W' ∧ (∀ q, (W' q).isSome = (W q).isSome) ∧
      (∀ u, u ∈ A' ↔ u ∈ A ∧ u ∉ l) ∧
      Tells s s' ((l.filter (running s)).map .stopped).reverse := by
  obtain ⟨-, s₁, h₁, rfl⟩ := schedPauseProcess_ok.mp he
  have hnd : l.Nodup := (B.members.tasks.ring hl).nodup_nodes.of_map _
  have h0 : Halting T s K R A M W l l s :=
    ⟨[], A, W, rfl, B, fun _ => rfl, by simp, fun _ _ => rfl, .of_hooks rfl⟩
  have hwalk : Halting T s K R A M W l [] s₁ := by
    refine forEachNode_ring Node.tSiblings (Halting T s K R A M W l) ?_
      (fun h hbody => h.turn hl hnd hp hbody) h0 (B.members.tasks.next_head hl) h₁
    rintro t rest x ⟨done, A', W', rfl, Bx, -⟩
    exact ⟨nofun, Bx.members.tasks.next_node hl⟩
  obtain ⟨done, A', W', hdone, B₁, hW', hA', -, htells⟩ := hwalk
  rw [List.append_nil] at hdone
  subst hdone
  have B₂ := B₁.still (.edit (.processStatus d schedStatusStopped)) ⟨trivial, trivial⟩ rfl
  exact ⟨A', W', B₂, hW', hA', htells.trans (Tells.of_hooks (s := s₁) rfl)⟩

/-- `sched_unregister_process` has unlinked the active tasks of `l` but those of `rest`. -/
def Unlinking (T : ThreadId k → Prop) (s : State k) (K : TaskId k → Prop) (A l rest : List (TaskId k))
    (x : State k) : Prop :=
  ∃ done A', l = done ++ rest ∧ x = s.modLinks (fun _ => x.links) ∧ Zones x.pointers T ∧
    (∀ z, z ≠ .actives → SameZone Node.zone z s.links x.links) ∧
    RingTable x.links (fun _ : Unit => Node.sActives) Node.tSchedList (fun _ => some A')
      (fun t => K t ∧ t ∉ A) ∧ ∀ u, u ∈ A' ↔ u ∈ A ∧ u ∉ done

theorem Unlinking.turn {l rest : List (TaskId k)} {x x' : State k} (B : Roster T s K R A M W)
    (hl : M d = some l) (hnd : l.Nodup) (h : Unlinking T s K A l (t :: rest) x)
    (hbody : unlinkTask (.tSiblings t) x = .ok x') : Unlinking T s K A l rest x' := by
  obtain ⟨done, A', rfl, hx, Zx, hsame, Tx, hA'⟩ := h
  have hmem : t ∈ done ++ t :: rest := by simp
  obtain ⟨hKt, hprc⟩ := (B.members.member hl).mp hmem
  have hmember : (x.task t).tProcess ≠ none := by
    rw [hx]
    exact B.members.member_process hKt
  have htdone : t ∉ done := by
    intro h
    exact (List.nodup_append.mp hnd).2.2 t h t List.mem_cons_self rfl
  have hnew : ∀ u, u ∈ done ++ [t] ↔ u ∈ done ∨ u = t := by simp
  have hactive : (x.task t).tStatus = schedStatusActive ↔ (s.task t).tStopper = none := by
    rw [hx]
    exact (B.status t hKt).active_iff
  simp only [unlinkTask, containerOf_tSiblings, bind_eq_ok, deref_eq_ok, Option.some.injEq,
    exists_eq_left'] at hbody
  split at hbody
  · obtain rfl := Except.ok.inj hbody
    refine ⟨done ++ [t], A'.erase t, by simp, ?_, ?_, fun z hz => ?_, ?_, fun u => ?_⟩
    · rw [hx]
      rfl
    · exact Zx.move (.unlinkUnsafe t) hmember
    · exact (hsame z hz).trans
        (Zx.links.removeUnsafe_same (n := Node.tSchedList t) hmember (Ne.symm hz))
    · by_cases htA : t ∈ A
      · have Tx' := Tx.removeUnsafe activesShape (a := ()) rfl ((hA' t).mpr ⟨htA, htdone⟩)
        have e : Function.update (fun _ : Unit => some A') () (some (A'.erase t)) =
            fun _ => some (A'.erase t) := by
          funext a
          simp
        exact e ▸ Tx'
      · have htA' : t ∉ A' := fun h => htA ((hA' t).mp h).1
        rw [List.erase_of_not_mem htA']
        have e : (x.modLinks fun l => l.removeUnsafe (.tSchedList t)).links = x.links :=
          Tx.removeUnsafe_single ⟨hKt, htA⟩
        rw [e]
        exact Tx
    · have hndA' : A'.Nodup := (Tx.ring (a := ()) rfl).nodup_nodes.of_map _
      rw [hndA'.mem_erase_iff, hA' u, hnew]
      tauto
  · rename_i hst
    obtain rfl := Except.ok.inj hbody
    have htA : t ∉ A := fun h => hst (hactive.mpr (B.members.active t h).2)
    refine ⟨done ++ [t], A', by simp, hx, Zx, hsame, Tx, fun u => ?_⟩
    rw [hA' u, hnew]
    constructor
    · rintro ⟨hu, hdone⟩
      refine ⟨hu, fun h => h.elim hdone fun e => htA (e ▸ hu)⟩
    · exact fun hu => ⟨hu.1, fun h => hu.2 (.inl h)⟩

/-- `sched_unregister_process` unlinks the active tasks of the process, and tells nothing. -/
theorem unregisterProcess {l : List (TaskId k)} (B : Roster T s K R A M W) (hl : M d = some l)
    (he : schedUnregisterProcess ⟨true, policy⟩ d s = .ok s') :
    ∃ A', Roster T s' (fun t => K t ∧ (s.task t).tProcess ≠ some d)
        (fun t => R t ∧ (s.task t).tProcess ≠ some d) A' (Function.update M d none)
        (fun p => if (s.prim p).pProcess = some d then none else W p) ∧
      (∀ u, u ∈ A' ↔ u ∈ A ∧ (s.task u).tProcess ≠ some d) ∧ s'.hooks = s.hooks := by
  obtain ⟨-, s₁, h₁, -, hsched, rfl⟩ := schedUnregisterProcess_ok
    (fun _ _ => True) B.zones (fun _ _ => trivial) he
  have hnd : l.Nodup := (B.members.tasks.ring hl).nodup_nodes.of_map _
  have h0 : Unlinking T s K A l l s :=
    ⟨[], A, rfl, rfl, B.zones, fun z _ => .refl _ _ _, B.members.actives, by simp⟩
  have hwalk : Unlinking T s K A l [] s₁ := by
    refine forEachNode_ring Node.tSiblings (Unlinking T s K A l) ?_
      (fun h hbody => h.turn B hl hnd hbody) h0 (B.members.tasks.next_head hl) h₁
    rintro t rest x ⟨done, A', rfl, -, -, hsame, -⟩
    refine ⟨nofun, ?_⟩
    rw [(hsame .tasks nofun (.tSiblings t) rfl).1]
    exact B.members.tasks.next_node hl
  obtain ⟨done, A', hdone, hs₁, Z₁, hsame, T₁, hA'⟩ := hwalk
  rw [List.append_nil] at hdone
  subst hdone
  have hA : ∀ u, u ∈ A' ↔ u ∈ A ∧ (s.task u).tProcess ≠ some d := by
    intro u
    rw [hA' u]
    refine and_congr_right fun hu => not_congr ?_
    exact (B.members.member hl).trans (and_iff_right (B.members.active u hu).1)
  have hpList : ∀ z, z ≠ .processes → SameZone Node.zone z s₁.links
      (s₁.links.removeUnsafe (.pList d)) := fun z hz =>
    Z₁.links.removeUnsafe_same (n := Node.pList d) hsched (Ne.symm hz)
  have T₂ : RingTable (s₁.links.removeUnsafe (.pList d)) (fun _ : Unit => Node.sActives)
      Node.tSchedList (fun _ => some A') (fun t => K t ∧ t ∉ A) := by
    have hz := hpList .actives nofun
    exact T₁.congr (fun _ _ => id) (fun _ => id) (fun _ _ => hz .sActives rfl)
      fun u => hz (.tSchedList u) rfl
  have B₂ := B.members.dropProcess T₂ hA ((hsame .tasks nofun).trans (hpList .tasks nofun))
    ((hsame .stopped nofun).trans (hpList .stopped nofun))
  refine ⟨A', ⟨Z₁.move (.forgetProcess d) hsched, ?_, fun u hu => ?_⟩, hA, ?_⟩
  · have e : (Sched.forgetProcess d s₁).pointers =
        { s.pointers with links := s₁.links.removeUnsafe (.pList d) } := by
      rw [hs₁]
      rfl
    rw [e]
    exact B₂
  · refine (B.status u hu.1).congr ?_ ?_
    · rw [hs₁]
      rfl
    · rw [hs₁]
      rfl
  · rw [hs₁]
    rfl

/-! ### Tasks, primitives, processes and threads -/

theorem unlink (B : Roster T s K R A M W) (ht : K t) (hR : ¬R t) :
    Roster T ((Move.unlink t).apply s) K R (A.erase t) M W := by
  refine ⟨?_, B.members.unlink B.zones ht hR, fun u hu => (B.status u hu).congr rfl rfl⟩
  exact B.zones.move (.unlink t) (B.members.member_process ht)

theorem unregisterTask (B : Roster T s K R A M W) (hK : ∀ t, (s.thread h).tTask = some t → K t)
    (he : processUnregisterTask ⟨true, policy⟩ h s = .ok (r, s')) :
    ∃ t A' W' l, (s.thread h).tTask = some t ∧ Roster T s' K (fun u => u ≠ t ∧ R u) A' M W' ∧
      (∀ q, (W' q).isSome = (W q).isSome) ∧ (∀ u, u ∈ A' ↔ u ∈ A ∧ u ≠ t) ∧ Tells s s' l ∧
      ((l = [.unregistered t] ∧ (s.task t).tStatus ≠ schedStatusStopped) ∨
        (l = [.unregistered t, .resumed t] ∧ (s.task t).tStopper ≠ none ∧
          (s.task t).tStatus = schedStatusStopped)) := by
  obtain ⟨t, s₁, d, s₂, ht, -, -, hresumed, -, h₂, h₃⟩ := processUnregisterTask_ok B.zones he
  have hKt := hK t ht
  obtain ⟨A₁, W₁, l, B₁, hW₁, hA₁, htells₁, hl⟩ : ∃ A₁ W₁ l, Roster T s₁ K R A₁ M W₁ ∧
      (∀ q, (W₁ q).isSome = (W q).isSome) ∧ (∀ u, u ≠ t → (u ∈ A₁ ↔ u ∈ A)) ∧ Tells s s₁ l ∧
      ((l = [] ∧ (s.task t).tStatus ≠ schedStatusStopped) ∨
        (l = [.resumed t] ∧ (s.task t).tStopper ≠ none ∧
          (s.task t).tStatus = schedStatusStopped)) := by
    split at hresumed
    · rename_i hst
      obtain ⟨u, p, m, hu, hp, hm, -, B₁, htells⟩ := B.resumeTask (fun u hu => by
        obtain rfl := Option.some.inj hu
        exact hKt) hresumed
      obtain rfl := Option.some.inj hu
      refine ⟨_, _, _, B₁, fun q => isSome_update hm q, fun u hu => ?_, htells,
        .inr ⟨rfl, by simp [hp], hst⟩⟩
      simp [hu]
    · rename_i hst
      subst hresumed
      exact ⟨A, W, [], B, fun _ => rfl, fun _ _ => .rfl, .of_hooks rfl, .inl ⟨rfl, hst⟩⟩
  have B' : Roster T s₁ K (fun u => u ≠ t ∧ R u) A₁ M W₁ := B₁.fewer fun u hu => hu.2
  have B₂ := B'.unlink hKt fun h => h.1 rfl
  have B₃ := B₂.still (.leave t) (B₂.members.member_process hKt) rfl
  have B₄ := B₃.unlink hKt fun h => h.1 rfl
  have B₅ := B₄.still (.uncount d) trivial rfl
  obtain ⟨B₆, hh₆⟩ := B₅.hook h₂
  obtain ⟨B₇, hh₇⟩ := B₆.hook h₃
  have hnd : A₁.Nodup := B₁.members.nodup
  have hhooks : s₂.hooks = .unregistered t :: s₁.hooks := by
    refine hh₆.trans (congrArg _ ?_)
    exact threadUnregisterTask_hooks t _
  have htells : Tells s s' ([.unregistered t] ++ l) :=
    (htells₁.trans (Tells.cons _ hhooks)).trans (Tells.cons _ hh₇)
  refine ⟨t, _, W₁, _, ht, B₇, hW₁, fun u => ?_, htells, ?_⟩
  · by_cases hu : u = t
    · subst hu
      refine iff_of_false (fun h => ?_) fun h => h.2 rfl
      exact absurd rfl ((hnd.erase u).mem_erase_iff.mp h).1
    · rw [List.mem_erase_of_ne hu, List.mem_erase_of_ne hu, hA₁ u hu]
      exact (and_iff_left hu).symm
  · rcases hl with ⟨rfl, hst⟩ | ⟨rfl, hs, hst⟩
    · exact .inl ⟨rfl, hst⟩
    · exact .inr ⟨rfl, hs, hst⟩

theorem registerTask {l : List (TaskId k)} (B : Roster T s K R A M W) (ht : ¬K t)
    (hl : M d = some l) (he : processRegisterTask ⟨true, policy⟩ d t s = .ok s') :
    Roster T s' (fun u => u = t ∨ K u) (fun u => u = t ∨ R u) (t :: A)
      (Function.update M d (some (t :: l))) W ∧ s'.hooks = s.hooks := by
  obtain ⟨hd, rfl⟩ := processRegisterTask_iff.mp he
  refine ⟨⟨B.zones.move (.addTask d t) hd, ?_, fun u hu => ?_⟩, rfl⟩
  · rw [registerTask_pointers]
    exact B.members.addTask B.zones ht hl hd
  · by_cases hut : u = t
    · subst hut
      simp [StatusOk, State.tStatus, Sched.registerTask]
    · refine (B.status u (hu.resolve_left hut)).move (.addTask d t) fun e h => hut ?_
      cases h
      rfl

theorem registerPrim (B : Roster T s K R A M W) (hp : W p = none) :
    Roster T (processRegisterPrim d p s) K R A M (Function.update W p (some [])) := by
  refine ⟨B.zones.move (.addPrim d p) trivial, ?_, fun u hu => ?_⟩
  · rw [processRegisterPrim_pointers]
    exact B.members.addPrim hp
  · exact (B.status u hu).move (.addPrim d p) fun _ => nofun

theorem registerProcess (B : Roster T s K R A M W) (hd : M d = none) :
    Roster T (Sched.registerProcess d s) K R A (Function.update M d (some [])) W := by
  refine ⟨B.zones.move (.addProcess d) trivial, ?_, fun u hu => ?_⟩
  · rw [registerProcess_pointers]
    exact B.members.addProcess B.zones hd
  · exact (B.status u hu).move (.addProcess d) fun _ => nofun

theorem registerThread (B : Roster T s K R A M W) :
    Roster (fun g => g = h ∨ T g) (schedRegisterThread h s) K R A M W := by
  have hsame : ∀ z, z ≠ .threads → z ≠ .history → SameZone Node.zone z s.pointers.links
      (schedRegisterThread h s).pointers.links := by
    intro z h₁ h₂
    exact B.zones.same (.addThread h) trivial (by simp [Move.touches, h₁, h₂])
  refine ⟨B.zones.move (.addThread h) trivial, ?_, fun u hu => ?_⟩
  · exact B.members.frame (hsame _ (by decide) (by decide)) (hsame _ (by decide) (by decide))
      (hsame _ (by decide) (by decide)) rfl rfl fun _ _ => rfl
  · exact (B.status u hu).move (.addThread h) fun _ e => by cases e

end Roster

/-! ### One call -/

/-- The primitive and the thread of a call that stops the task of the thread. -/
def Call.blocks (s : State k) : Call k → Option (PrimId k × ThreadId k)
  | .stopThread p h => some (p, h)
  | .mutexLock p h => if (s.prim p).pNbOwningTasks ≠ 0 then some (p, h) else none
  | .semTake p h => if (s.prim p).pNbOwningTasks = s.sNbOwners p then some (p, h) else none
  | _ => none

/-- The other calls that may change the active list. -/
def Call.shifts : Call k → Bool
  | .resumeTask _ | .pauseProcess _ | .unregisterPrim _ | .registerTask _ _ | .unregisterTask _
  | .unregisterProcess _ => true
  | _ => false

/-- What a call does to the active list `A`, and what it tells about tasks. -/
inductive Shift (s : State k) (A : List (TaskId k)) (M : ProcessId k → Option (List (TaskId k)))
    (W : PrimId k → Option (List (TaskId k))) :
    Call k → List (TaskId k) → List (HookCall k) → Prop
  | still (c : Call k) (hb : c.blocks s = none) (hs : c.shifts = false) : Shift s A M W c A []
  | stop (c : Call k) (p : PrimId k) (h : ThreadId k) (t : TaskId k) (hb : c.blocks s = some (p, h))
      (hc : c.shifts = false) (ht : (s.thread h).tTask = some t)
      (hs : (s.task t).tStopper = none) : Shift s A M W c (A.erase t) [.stopped t]
  | resume (t : TaskId k) (p : PrimId k) (hs : (s.task t).tStopper = some p) :
      Shift s A M W (.resumeTask t) (t :: A) [.resumed t]
  | pause (d : ProcessId k) (l A' : List (TaskId k)) (hl : M d = some l)
      (hA : ∀ u, u ∈ A' ↔ u ∈ A ∧ u ∉ l) :
      Shift s A M W (.pauseProcess d) A' ((l.filter (running s)).map .stopped).reverse
  | wake (p : PrimId k) (l : List (TaskId k)) (hl : W p = some l) :
      Shift s A M W (.unregisterPrim p) (l.reverse ++ A) (l.reverse.map .resumed)
  | add (d : ProcessId k) (t : TaskId k) (ht : t ∉ A) : Shift s A M W (.registerTask d t) (t :: A) []
  | drop (h : ThreadId k) (t : TaskId k) (A' : List (TaskId k)) (l : List (HookCall k))
      (ht : (s.thread h).tTask = some t) (hA : ∀ u, u ∈ A' ↔ u ∈ A ∧ u ≠ t)
      (hl : (l = [.unregistered t] ∧ (s.task t).tStatus ≠ schedStatusStopped) ∨
        (l = [.unregistered t, .resumed t] ∧ (s.task t).tStopper ≠ none ∧
          (s.task t).tStatus = schedStatusStopped)) : Shift s A M W (.unregisterTask h) A' l
  | dropAll (d : ProcessId k) (A' : List (TaskId k))
      (hA : ∀ u, u ∈ A' ↔ u ∈ A ∧ (s.task u).tProcess ≠ some d) :
      Shift s A M W (.unregisterProcess d) A' []

/-- The lists at the end of a run. -/
structure Enrolled (hist : Hist k) (s : State k) (A : List (TaskId k))
    (M : ProcessId k → Option (List (TaskId k))) (W : PrimId k → Option (List (TaskId k))) : Prop where
  roster : Roster (threadKnown hist · = true) s (taskLinked hist · = true)
    (taskRegistered hist · = true) A M W
  prims : ∀ p, (W p).isSome ↔ primRegistered hist p = true
  processes : ∀ d, (M d).isSome ↔ processRegistered hist d = true

section calls

variable {A : List (TaskId k)} {M : ProcessId k → Option (List (TaskId k))}
  {W : PrimId k → Option (List (TaskId k))}

theorem Enrolled.ring (E : Enrolled hist s A M W) : IsRing s.links .sActives (A.map .tSchedList) :=
  E.roster.members.actives.ring (a := ()) rfl

/-- The active list is determined by the memory. -/
theorem Enrolled.actives_eq {A' : List (TaskId k)} (E : Enrolled hist s A M W)
    (hA' : IsRing s.links .sActives (A'.map .tSchedList)) : A' = A := by
  have e := hA'.unique E.ring
  exact List.map_injective_iff.mpr (fun _ _ => Node.tSchedList.inj) e

theorem Enrolled.cons {A' : List (TaskId k)} {W' : PrimId k → Option (List (TaskId k))}
    (E : Enrolled hist s A M W) (hreg : c.registers = false)
    (B : Roster (threadKnown hist · = true) s' (taskLinked hist · = true)
      (taskRegistered hist · = true) A' M W')
    (hW : ∀ p, (W' p).isSome = (W p).isSome) : Enrolled (⟨s, c, r, s'⟩ :: hist) s' A' M W' := by
  have e : threadKnown (⟨s, c, r, s'⟩ :: hist) = threadKnown hist ∧
      taskLinked (⟨s, c, r, s'⟩ :: hist) = taskLinked hist ∧
      taskRegistered (⟨s, c, r, s'⟩ :: hist) = taskRegistered hist ∧
      primRegistered (⟨s, c, r, s'⟩ :: hist) = primRegistered hist ∧
      processRegistered (⟨s, c, r, s'⟩ :: hist) = processRegistered hist := by
    cases c with
    | registerProcess | unregisterProcess | registerThread | unregisterThread | registerTask
    | unregisterTask | registerPrim | unregisterPrim | mutexCtor | semCtor => cases hreg
    | _ => exact ⟨rfl, rfl, rfl, rfl, rfl⟩
  obtain ⟨h₁, h₂, h₃, h₄, h₅⟩ := e
  constructor
  · rw [h₁, h₂, h₃]
    exact B
  · rw [h₄]
    exact fun p => (Bool.eq_iff_iff.mp (hW p)).trans (E.prims p)
  · rw [h₅]
    exact E.processes

/-- A call makes still moves only, unless it stops a task, registers an object or is one of
`Call.shifts`. -/
theorem makes_still {x : State k} (hb : c.blocking = none) (hs : c.shifts = false)
    (hreg : c.registers = false ∨ ∃ h, c = .unregisterThread h) (m : Move k)
    (hm : c.Makes policy s x m) : m.still = true := by
  cases c with
  | registerProcess | registerThread | registerPrim | mutexCtor | semCtor => simp [Call.registers] at hreg
  | resumeTask | pauseProcess | unregisterPrim | registerTask | unregisterTask
  | unregisterProcess => cases hs
  | stopThread | mutexLock | semTake => cases hb
  | _ =>
      cases m with
      | edit e =>
          cases e with
          | stop p t =>
              rcases hm with ⟨h, hm, -⟩ | ⟨d, hm, -⟩
              · cases hm
              · cases hm
          | resume p t =>
              rcases hm with hm | ⟨q, hm⟩ | ⟨h, hm, -⟩
              · cases hm
              · cases hm
              · cases hm
          | _ => rfl
      | report call =>
          cases call with
          | unregistered t =>
              obtain ⟨h, hm, -⟩ := hm
              cases hm
          | registered | stopped | resumed | overrideTaken | overrideReleased => exact hm.elim
          | _ => rfl
      | unlink t =>
          obtain ⟨h, hm, -⟩ := hm
          cases hm
      | unlinkUnsafe t =>
          obtain ⟨d, hm⟩ := hm
          cases hm
      | addProcess | addThread | addTask | addPrim => cases hm
      | _ => rfl

theorem Enrolled.prims_update (E : Enrolled hist s A M W) (q : PrimId k) :
    (Function.update W p (some []) q).isSome ↔ q = p ∨ primRegistered hist q = true := by
  by_cases hq : q = p
  · simp [hq]
  · simp [hq, E.prims q]

theorem Enrolled.notPrim (E : Enrolled hist s A M W) (hp : primRegistered hist p = false) :
    W p = none := by
  cases hW : W p with
  | none => rfl
  | some l =>
      have h := (E.prims p).mp (by simp [hW])
      cases hp.symm.trans h

theorem Enrolled.notProcess (E : Enrolled hist s A M W) (hd : processRegistered hist d = false) :
    M d = none := by
  cases hM : M d with
  | none => rfl
  | some l =>
      have h := (E.processes d).mp (by simp [hM])
      cases hd.symm.trans h

/-- A call keeps the lists of the end of a run, and does and tells what its `Shift` says. -/
def Shifts (hist : Hist k) (A : List (TaskId k)) (M : ProcessId k → Option (List (TaskId k)))
    (W : PrimId k → Option (List (TaskId k))) (s : State k) (c : Call k) (r : BitVec 8)
    (s' : State k) : Prop :=
  ∃ A' M' W' l, Enrolled (⟨s, c, r, s'⟩ :: hist) s' A' M' W' ∧ Shift s A M W c A' l ∧ Tells s s' l

namespace Enrolled

variable (E : Enrolled hist s A M W)
include E

theorem still {allowed : State k → Move k → Prop} (hreg : c.registers = false)
    (hb : c.blocks s = none) (hs : c.shifts = false) (hmoves : Moves allowed s s')
    (hstill : ∀ x m, allowed x m → m.still = true) : Shifts hist A M W s c r s' := by
  obtain ⟨B, htells⟩ := E.roster.stills hmoves hstill
  exact ⟨A, M, W, [], E.cons hreg B fun _ => rfl, .still c hb hs, htells⟩

theorem stopThread (hreg : c.registers = false) (hb : c.blocks s = some (p, h))
    (hs : c.shifts = false) (hp : primRegistered hist p = true)
    (hK : ∀ t, (s.thread h).tTask = some t → taskLinked hist t = true)
    (he : primitiveStopThread ⟨true, policy⟩ p h s = .ok s') : Shifts hist A M W s c r s' := by
  obtain ⟨t, l, ht, hnone, hl, B, htells⟩ := E.roster.stopThread ((E.prims p).mpr hp) hK he
  exact ⟨_, M, _, _, E.cons hreg B (Roster.isSome_update hl), .stop c p h t hb hs ht hnone, htells⟩

theorem registerPrim {x : State k} (hc : c.primOf = some (d, p)) (hproc : ∀ e, c ≠ .registerProcess e)
    (hp : primRegistered hist p = false) (hhooks : x.hooks = s.hooks)
    (B : Roster (threadKnown hist · = true) x (taskLinked hist · = true)
      (taskRegistered hist · = true) A M W) :
    Shifts hist A M W s c r (processRegisterPrim d p x) := by
  have B' := B.registerPrim (d := d) (E.notPrim hp)
  refine ⟨A, M, Function.update W p (some []), [], ?_, .still c ?_ ?_, .of_hooks hhooks⟩
  · cases c with
    | registerProcess e => exact absurd rfl (hproc e)
    | registerPrim | mutexCtor | semCtor =>
        obtain ⟨rfl, rfl⟩ := Prod.mk.inj (Option.some.inj hc)
        refine ⟨B', fun q => ?_, E.processes⟩
        rw [E.prims_update]
        simp [primRegistered]
    | _ => cases hc
  · cases c <;> first | rfl | cases hc
  · cases c <;> first | rfl | cases hc

theorem registerProcess (hf : fresh hist (.registerProcess d) = true) :
    Shifts hist A M W s (.registerProcess d) r (schedRegisterProcess d s) := by
  obtain ⟨hd, hp⟩ := Bool.and_eq_true_iff.mp hf
  rw [Bool.not_eq_true'] at hd hp
  have B := (E.roster.registerProcess (E.notProcess hd)).registerPrim (d := d) (E.notPrim hp)
  refine ⟨A, Function.update M d (some []), Function.update W (pPrim d) (some []), [],
    ⟨B, fun q => ?_, fun e => ?_⟩, .still _ rfl rfl, .of_hooks rfl⟩
  · rw [E.prims_update]
    simp [primRegistered]
  · by_cases hed : e = d
    · simp [hed, processRegistered]
    · simp [hed, processRegistered, E.processes e]

theorem registerThread :
    Shifts hist A M W s (.registerThread h) r (schedRegisterThread h s) := by
  have e : (threadKnown (⟨s, .registerThread h, r, schedRegisterThread h s⟩ :: hist) · = true) =
      fun g => g = h ∨ threadKnown hist g = true := by
    funext g
    simp [threadKnown]
  refine ⟨A, M, W, [], ⟨?_, E.prims, E.processes⟩, .still _ rfl rfl, .of_hooks rfl⟩
  rw [e]
  exact E.roster.registerThread

theorem registerTask (hd : processRegistered hist d = true) (ht : taskLinked hist t = false)
    (he : processRegisterTask ⟨true, policy⟩ d t s = .ok s') :
    Shifts hist A M W s (.registerTask d t) r s' := by
  obtain ⟨l, hl⟩ := Option.isSome_iff_exists.mp ((E.processes d).mpr hd)
  have hK : ¬taskLinked hist t = true := by simp [ht]
  obtain ⟨B, hhooks⟩ := E.roster.registerTask hK hl he
  have htA : t ∉ A := fun h => hK (E.roster.members.active t h).1
  refine ⟨t :: A, Function.update M d (some (t :: l)), W, [], ⟨?_, E.prims, fun e => ?_⟩,
    .add d t htA, .of_hooks hhooks⟩
  · have h₁ : (taskLinked (⟨s, .registerTask d t, r, s'⟩ :: hist) · = true) =
        fun u => u = t ∨ taskLinked hist u = true := by
      funext u
      simp [taskLinked]
    have h₂ : (taskRegistered (⟨s, .registerTask d t, r, s'⟩ :: hist) · = true) =
        fun u => u = t ∨ taskRegistered hist u = true := by
      funext u
      simp [taskRegistered]
    rw [h₁, h₂]
    exact B
  · refine Iff.trans ?_ (E.processes e)
    rw [Roster.isSome_update hl]

theorem unregisterTask (hK : ∀ t, (s.thread h).tTask = some t → taskLinked hist t = true)
    (he : processUnregisterTask ⟨true, policy⟩ h s = .ok (r, s')) :
    Shifts hist A M W s (.unregisterTask h) r s' := by
  obtain ⟨t, A', W', l, ht, B, hW', hA', htells, hl⟩ := E.roster.unregisterTask hK he
  refine ⟨A', M, W', l, ⟨?_, fun p => ?_, E.processes⟩, .drop h t A' l ht hA' hl, htells⟩
  · have e : (taskRegistered (⟨s, .unregisterTask h, r, s'⟩ :: hist) · = true) =
        fun u => u ≠ t ∧ taskRegistered hist u = true := by
      funext u
      simp only [taskRegistered, ht, bne_iff_ne, Bool.and_eq_true, ne_eq, Option.some.injEq,
        eq_comm (a := t)]
    rw [e]
    exact B
  · rw [hW' p]
    exact E.prims p

theorem unregisterPrim (hp : primRegistered hist p = true)
    (he : processUnregisterPrim ⟨true, policy⟩ p s = .ok (r, s')) :
    Shifts hist A M W s (.unregisterPrim p) r s' := by
  obtain ⟨l, hl⟩ := Option.isSome_iff_exists.mp ((E.prims p).mpr hp)
  obtain ⟨W', B, hW', hother, htells⟩ := E.roster.unregisterPrim hl he
  refine ⟨_, M, Function.update W' p none, _, ⟨?_, fun q => ?_, E.processes⟩, .wake p l hl, htells⟩
  · exact { B with members := B.members.dropPrim hW' }
  · by_cases hq : q = p
    · simp [hq, primRegistered]
    · simp [hq, primRegistered, hother q hq, E.prims q]

theorem unregisterProcess (hd : processRegistered hist d = true)
    (he : schedUnregisterProcess ⟨true, policy⟩ d s = .ok s') :
    Shifts hist A M W s (.unregisterProcess d) r s' := by
  obtain ⟨l, hl⟩ := Option.isSome_iff_exists.mp ((E.processes d).mpr hd)
  obtain ⟨A', B, hA, hhooks⟩ := E.roster.unregisterProcess hl he
  have eK : ∀ f : Hist k → TaskId k → Bool,
      (fun t => ((s.task t).tProcess != some d && f hist t) = true) =
        fun t => f hist t = true ∧ (s.task t).tProcess ≠ some d := by
    intro f
    funext t
    simp [and_comm]
  refine ⟨A', Function.update M d none, fun p => if (s.prim p).pProcess = some d then none else W p,
    [], ⟨?_, fun p => ?_, fun e => ?_⟩, .dropAll d A' hA, .of_hooks hhooks⟩
  · have h₁ := eK taskLinked
    have h₂ := eK taskRegistered
    simp only [taskLinked, taskRegistered]
    rw [h₁, h₂]
    exact B
  · by_cases hp : (s.prim p).pProcess = some d
    · simp [hp, primRegistered]
    · simp [hp, primRegistered, E.prims p]
  · by_cases hed : e = d
    · simp [hed, processRegistered]
    · simp [hed, processRegistered, E.processes e]

theorem pauseProcess (hd : processRegistered hist d = true)
    (hp : primRegistered hist (pPrim d) = true)
    (he : schedPauseProcess ⟨true, policy⟩ d s = .ok s') :
    Shifts hist A M W s (.pauseProcess d) r s' := by
  obtain ⟨l, hl⟩ := Option.isSome_iff_exists.mp ((E.processes d).mpr hd)
  obtain ⟨A', W', B, hW', hA', htells⟩ := E.roster.pauseProcess hl ((E.prims _).mpr hp) he
  exact ⟨A', M, W', _, E.cons rfl B hW', .pause d l A' hl hA', htells⟩

theorem resumeTask (ht : taskLinked hist t = true)
    (he : primitiveResumeTask ⟨true, policy⟩ (taskAddr t) s = .ok s') :
    Shifts hist A M W s (.resumeTask t) r s' := by
  obtain ⟨u, p, l, hu, hp, hl, -, B, htells⟩ := E.roster.resumeTask (fun u hu => by
    obtain rfl := Option.some.inj hu
    exact ht) he
  obtain rfl := Option.some.inj hu
  exact ⟨_, M, _, _, E.cons rfl B (Roster.isSome_update hl), .resume t p hp, htells⟩

end Enrolled

/-- **What a call does to the lists**, when it is made on linked tasks. -/
theorem exec_shift (E : Enrolled hist s A M W) (hprimed : s.Primed) (hg : OnLinked hist s c)
    (he : exec ⟨true, policy⟩ c s = .ok (r, s')) : Shifts hist A M W s c r s' := by
  obtain ⟨hf, hon, hlinked⟩ := hg
  cases c with
  | registerProcess d =>
      obtain ⟨-, rfl⟩ := ok_pair_eq.mp he
      exact E.registerProcess hf
  | registerThread h =>
      obtain ⟨-, rfl⟩ := ok_pair_eq.mp he
      exact E.registerThread
  | unregisterThread h =>
      obtain ⟨B, htells⟩ := E.roster.stills (exec_moves E.roster.zones hprimed he)
        fun _ => makes_still rfl rfl (.inr ⟨h, rfl⟩)
      exact ⟨A, M, W, [], ⟨B, E.prims, E.processes⟩, .still _ rfl rfl, htells⟩
  | unregisterProcess d => exact E.unregisterProcess hlinked (void_eq_ok.mp he).2
  | registerTask d t => exact E.registerTask hlinked.1 hlinked.2 (void_eq_ok.mp he).2
  | unregisterTask h => exact E.unregisterTask hlinked he
  | registerPrim d q | mutexCtor q d =>
      obtain ⟨-, rfl⟩ := ok_pair_eq.mp he
      exact E.registerPrim rfl (fun _ e => by cases e) (by simpa [fresh] using hf) rfl E.roster
  | semCtor q n d =>
      obtain ⟨-, rfl⟩ := ok_pair_eq.mp he
      exact E.registerPrim rfl (fun _ e => by cases e) (by simpa [fresh] using hf) rfl
        (E.roster.still (.setBound q n) trivial rfl)
  | unregisterPrim p => exact E.unregisterPrim hon he
  | pauseProcess d => exact E.pauseProcess hlinked hon (void_eq_ok.mp he).2
  | resumeTask t => exact E.resumeTask hlinked (void_eq_ok.mp he).2
  | stopThread p h => exact E.stopThread rfl rfl rfl hon hlinked (void_eq_ok.mp he).2
  | mutexLock p h =>
      rcases schedMutexLock_ok.mp (void_eq_ok.mp he).2 with ⟨hn, he⟩ | ⟨hn, he⟩
      · exact E.stopThread rfl (if_pos hn) rfl hon hlinked he
      · exact E.still rfl (if_neg (not_not_intro hn)) rfl
          (.acquire (Roster.answers_still policy s) List.suffix_rfl (fun _ => rfl) (fun _ _ => rfl)
            (fun _ _ => rfl) he) fun _ _ => id
  | semTake p h =>
      rcases schedSemTake_ok.mp (void_eq_ok.mp he).2 with ⟨hn, he⟩ | ⟨hn, he⟩
      · exact E.stopThread rfl (if_pos hn) rfl hon hlinked he
      · exact E.still rfl (if_neg hn) rfl (.takeOwnership (fun _ => rfl) he)
          fun _ _ => id
  | _ =>
      exact E.still rfl rfl rfl (exec_moves E.roster.zones hprimed he) fun _ =>
        makes_still rfl rfl (.inl rfl)

/-! ### Runs -/

/-- **The lists are in order**, in every state reached by calls on linked tasks. -/
theorem reach_enrolled (hr : Reach policy OnLinked hist s) : ∃ A M W, Enrolled hist s A M W := by
  induction hr with
  | start hs =>
      have hnone : ∀ t, ¬taskLinked ([] : Hist k) t = true := fun t => by simp [taskLinked]
      have hstart : Reach policy OnLinked [] _ := .start hs
      have hZ := (reach_zones hstart).1
      refine ⟨[], fun _ => none, fun _ => none, ⟨⟨hZ, ?_, nofun⟩, fun p => ?_, fun d => ?_⟩⟩
      · refine ⟨⟨fun {a l} hl => ?_, ?_, nofun, nofun⟩, ⟨nofun, nofun, nofun, nofun⟩,
          ⟨nofun, nofun, nofun, nofun⟩, nofun, nofun, nofun, nofun, nofun, nofun, nofun⟩
        · obtain rfl := Option.some.inj hl
          exact hs.actives
        · exact fun _ _ _ _ => rfl
      · simp [primRegistered]
      · simp [processRegistered]
  | call hr hg he ih =>
      obtain ⟨A, M, W, E⟩ := ih
      obtain ⟨A', M', W', l, E', -, -⟩ := exec_shift E (reach_zones hr).2 hg he
      exact ⟨A', M', W', E'⟩

end calls

end KernelTk.Sched
