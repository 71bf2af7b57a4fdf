import KernelTk.Sched.MarkPath
import KernelTk.Sched.Resume

/-! # Destroying a primitive

`process_unregister_prim` resumes the tasks that the primitive stops, in the order of its list, and
un-overrides the task that it overrides.

* **Policies.** A policy that assigns registered tasks to registered threads fails no check
  (`Good.hook_returns`); about others nothing is said, as any of its calls may abort.
* **States.** `Settled` : status, stopper and list of every task agree, and a registered primitive belongs
  to a registered process.  Nothing is asked of the marks of the primitives.
* **Walk.** `Destroying` : what the walk has done when the tasks `done` have been resumed.  The
  walk of marks of the first resumption may come back to a task that still waits; the status of that
  task is `3` then, and the check of `primitive_resume_task` fails at its turn (`destroy_walk`).  The later
  resumptions mark nothing new, since the first one has marked the path (`DestroyInv`).
* **Condition.** The destruction does what it says iff the walk of marks from the primitive meets no
  task of its list but the first (`destroy_iff`).  It is read in the state before the call, on any graph of
  stoppers and overrides, with circles or without.
* **Runs.** `destroy_fails` : the primitive overrides its second waiter.  The marks of the primitives are
  cleared before the call, as a policy may do that has looked at them (`clearMarks`). -/

namespace KernelTk.Sched

open Transition
open CircularList (IsRing)

variable {k : Machine} {policy : Policy k} {s x x' s' : State k} {v w : View k} {p : PrimId k}
  {t u : TaskId k} {h : ThreadId k} {c : ProcessId k} {l done rest : List (TaskId k)}

/-! ### The policy -/

/-- The policy assigns registered tasks to registered threads. -/
def AssignsRegistered (policy : Policy k) (v : View k) : Prop :=
  ∀ calls h t, (h, some t) ∈ policy calls → v.HasThread h ∧ v.HasTask t

theorem assignsRegistered_quiet (v : View k) : AssignsRegistered quiet v := by
  intro calls h t ha
  cases ha

namespace Good

theorem task_process (G : Good s v) (ht : v.HasTask t) :
    ∃ c, (s.task t).tProcess = some c ∧ (s.process c).pSched = true := by
  obtain ⟨c, hc⟩ := Option.ne_none_iff_exists'.mp (G.wf.member t ht)
  exact ⟨c, hc, G.wf.pSched c (G.wf.tasks.container ht hc)⟩

theorem assign_returns (G : Good s v) (hh : v.HasThread h) (ht : v.HasTask t) :
    ∃ s', threadAssignTask ⟨true, policy⟩ h (some t) s = .ok s' := by
  obtain ⟨c, hc, hsched⟩ := G.task_process ht
  have htsched : (s.thread h).tSched = true := G.wf.tSched h hh
  refine ⟨assignTask h t s, ?_⟩
  simp only [threadAssignTask, bind_eq_ok, nsCheck_eq_ok, derefSched_eq_ok, exists_const]
  refine ⟨fun _ => htsched, fun _ => by simp [hc], fun _ => ?_, htsched, rfl⟩
  rw [hc, htsched]
  exact hsched

/-- **A call to the policy returns** when the policy assigns registered tasks. -/
theorem hook_returns {sched : Bool} (G : Good s v) (call : HookCall k)
    (hP : AssignsRegistered policy w) (e : w.SameObjects v) (hsched : sched = true) :
    ∃ s', callHook ⟨true, policy⟩ sched call s = .ok s' := by
  have hfold : ∀ (l : List (ThreadId k × Option (TaskId k))),
      (∀ h t, (h, some t) ∈ l → w.HasThread h ∧ w.HasTask t) →
      ∀ (s : State k) (v : View k), Good s v → w.SameObjects v →
      ∃ s', l.foldlM (fun s a => threadAssignTask ⟨true, policy⟩ a.1 a.2 s) s = .ok s' := by
    intro l
    induction l with
    | nil => exact fun _ s v _ _ => ⟨s, rfl⟩
    | cons a l ih =>
        intro hl s v G e
        have hreturns : ∃ s₁, threadAssignTask ⟨true, policy⟩ a.1 a.2 s = .ok s₁ := by
          obtain ⟨h, o⟩ := a
          cases o with
          | none => exact ⟨_, rfl⟩
          | some t =>
              obtain ⟨hh, ht⟩ := hl h t List.mem_cons_self
              exact G.assign_returns ((e.thread h).mpr hh) ((e.task t).mpr ht)
        obtain ⟨s₁, h₁⟩ := hreturns
        obtain ⟨v₁, e₁, G₁⟩ := G.assign h₁
        obtain ⟨s', hs'⟩ := ih (fun h t ha => hl h t (List.mem_cons_of_mem _ ha)) s₁ v₁ G₁
          (e.trans e₁.sameObjects)
        exact ⟨s', by rw [List.foldlM_cons, bind_eq_ok]; exact ⟨s₁, h₁, hs'⟩⟩
  obtain ⟨s', hs'⟩ := hfold (policy (call :: s.hooks)) (hP _) { s with hooks := call :: s.hooks } v
    (G.congr rfl) e
  exact ⟨s', by simpa [callHook, hsched, derefSched, bind, Except.bind] using hs'⟩

end Good

/-! ### The walk -/

/-- Status, stopper and list of every task agree, and a registered primitive belongs to a registered
process. -/
structure Settled (s : State k) (v : View k) : Prop where
  good : Good s v
  status : ∀ t, v.HasTask t → s.tStatus t =
    if (s.task t).tStopper = none then schedStatusActive else schedStatusStopped
  pProcess : ∀ p, v.HasPrim p → ∃ c, (s.prim p).pProcess = some c ∧ v.HasProcess c

/-- The walk of `process_unregister_prim` has resumed the tasks `done`. -/
structure Destroying (p : PrimId k) (s : State k) (v : View k) (done rest : List (TaskId k))
    (x : State k) (w : View k) : Prop where
  good : Good x w
  objects : v.SameObjects w
  stopped : w.stopped p = some rest
  first : done = [] → x = s
  marked : done ≠ [] → x.primUpdated p = true
  resumed : ∀ t ∈ done, x.tStatus t = schedStatusActive ∧ (x.task t).tStopper = none
  waiting : ∀ t ∈ rest, x.tStatus t = schedStatusStopped ↔ (done ≠ [] → ¬s.Climbs p t)
  hooks : x.hooks = (done.map .resumed).reverse ++ s.hooks
  pProcess : (x.prim p).pProcess = (s.prim p).pProcess
  pOverridden : (x.prim p).pOverridden = (s.prim p).pOverridden
  owners : (x.prim p).pNbOwningTasks = (s.prim p).pNbOwningTasks

namespace Destroying

theorem start (S : Settled s v) (hl : v.stopped p = some l) : Destroying p s v [] l s v where
  good := S.good
  objects := .refl v
  stopped := hl
  first := fun _ => rfl
  marked := fun h => absurd rfl h
  resumed := nofun
  waiting := by
    intro t ht
    obtain ⟨hT, hs⟩ := (S.good.wf.stopped.mem hl).mp ht
    have hs' : (s.task t).tStopper = some p := hs
    refine iff_of_true ((S.status t hT).trans ?_) fun h => absurd rfl h
    rw [hs']
    rfl
  hooks := rfl
  pProcess := rfl
  pOverridden := rfl
  owners := rfl

/-- **A turn** returns iff the status of the task is `SCHED_STATUS_STOPPED`. -/
theorem turn (D : Destroying p s v done (t :: rest) x w) :
    primitiveResumeTask ⟨true, policy⟩ (containerOf (.tStopped t) tStoppedOffset) x = .ok x' ↔
      x.tStatus t = schedStatusStopped ∧
        callHook ⟨true, policy⟩ true (.resumed t) (resumeTask p t x) = .ok x' := by
  obtain ⟨ht, hs⟩ := (D.good.wf.stopped.mem D.stopped).mp List.mem_cons_self
  have hs' : (x.task t).tStopper = some p := hs
  obtain ⟨c, hc, hsched⟩ := D.good.task_process ht
  have hprc : (x.prim p).pProcess = (x.task t).tProcess := D.good.wf.waits t p ht hs
  rw [primitiveResumeTask_ok]
  constructor
  · rintro ⟨u, d, q, hu, hd, hq, hchecks, he⟩
    obtain rfl : t = u := by simpa using hu
    obtain rfl : c = d := Option.some.inj (hc.symm.trans hd)
    obtain rfl : p = q := Option.some.inj (hs'.symm.trans hq)
    rw [hsched] at he
    exact ⟨(hchecks rfl).2.2, he⟩
  · rintro ⟨hst, he⟩
    refine ⟨t, c, p, by simp, hc, hs', fun _ => ⟨hsched, hprc, hst⟩, ?_⟩
    rw [hsched]
    exact he

/-- **What a turn does.** -/
theorem next (D : Destroying p s v done (t :: rest) x w)
    (he : callHook ⟨true, policy⟩ true (.resumed t) (resumeTask p t x) = .ok x') :
    ∃ w', Destroying p s v (done ++ [t]) rest x' w' := by
  obtain ⟨ht, hs⟩ := (D.good.wf.stopped.mem D.stopped).mp List.mem_cons_self
  have hs' : (x.task t).tStopper = some p := hs
  have hnodup := D.good.wf.stopped.nodup D.stopped
  obtain ⟨A, w', e', G'⟩ := (D.good.resume ht hs').hooked he
  have hpointers := resumeTask_pointers x p t
  have hledger := resumeTask_ledger x p t
  obtain ⟨τ, hτ, hstatus⟩ := resumeTask_tStatus x p t
  have hstopper : ∀ u, ((resumeTask p t x).task u).tStopper =
      (x.pointers.resume p t).tStopper u :=
    fun u => congrFun (congrArg Pointers.tStopper hpointers) u
  refine ⟨w', ?_⟩
  constructor
  · exact G'
  · exact (D.objects.trans (.resume w p t)).trans e'.sameObjects
  · rw [e'.stopped]
    simp [View.resume, D.stopped]
  · exact fun h => absurd h (by simp)
  · exact fun _ => (A.primUpdated p).trans (resumeTask_primUpdated x p t (.inl rfl))
  · intro u hu
    rw [A.tStatus, A.tStopper, hstopper]
    rcases List.mem_append.mp hu with hu | hu
    · obtain ⟨hactive, hnone⟩ := D.resumed u hu
      have hut : u ≠ t := fun e => by simp [e, hs'] at hnone
      have hux : x.pointers.tStopper u = none := hnone
      refine ⟨?_, by simp [Pointers.resume, hut, hux]⟩
      rw [hstatus, if_neg hut, hactive, status_active_or, ite_self]
    · rw [List.mem_singleton.mp hu]
      exact ⟨(hstatus t).trans (if_pos rfl), by simp [Pointers.resume]⟩
  · intro u hu
    have hut : u ≠ t := fun e => (List.nodup_cons.mp hnodup).1 (e ▸ hu)
    have hw := D.waiting u (List.mem_cons_of_mem _ hu)
    rw [A.tStatus]
    simp only [ne_eq, List.append_eq_nil_iff, List.cons_ne_nil, and_false, not_false_eq_true,
      forall_const]
    cases hdone : done with
    | nil =>
        -- the first resumption: its walk meets what the walk of the initial memory does
        obtain rfl := D.first hdone
        exact resumeTask_exact hs' hut (hw.mpr fun h => absurd hdone h)
    | cons a done' =>
        -- the primitive is marked since then: the walk ends at once
        have hne : done ≠ [] := by simp [hdone]
        rw [hstatus, if_neg hut, hτ (.inl (D.marked hne)) u, if_neg (by simp), hw]
        simp [hne]
  · rw [(callHook_assigned he).2.2]
    have hh : (resumeTask p t x).hooks = x.hooks := congrArg Ledger.hooks hledger
    rw [hh, D.hooks]
    simp
  · rw [A.prim]
    exact (congrFun (congrArg Pointers.pProcess hpointers) p).trans D.pProcess
  · rw [A.prim]
    exact (congrFun (congrArg Pointers.pOverridden hpointers) p).trans D.pOverridden
  · rw [A.prim]
    exact (congrFun (congrArg Ledger.pNbOwningTasks hledger) p).trans D.owners

end Destroying

/-- The nodes still to be visited, and what has been done. -/
def DestroyInv (p : PrimId k) (s : State k) (v : View k) (l : List (TaskId k))
    (nodes : List (Node k)) (x : State k) : Prop :=
  ∃ done rest, nodes = rest.map Node.tStopped ∧ l = done ++ rest ∧
    (∃ w, Destroying p s v done rest x w) ∧ ∀ t ∈ done.tail, ¬s.Climbs p t

namespace DestroyInv

variable {n : Node k} {m : List (Node k)}

theorem head (I : DestroyInv p s v l (n :: m) x) :
    n ≠ .pStopped p ∧ x.links.next n = m.headD (.pStopped p) := by
  obtain ⟨done, rest, hn, -, ⟨w, D⟩, -⟩ := I
  cases rest with
  | nil => cases hn
  | cons t rest =>
      obtain ⟨rfl, rfl⟩ := List.cons.inj hn
      exact ⟨nofun, D.good.next_tStopped D.stopped⟩

/-- A turn of the walk: the task is the first one, or the walk of marks has not met it. -/
theorem turn (I : DestroyInv p s v l (n :: m) x) (hP : AssignsRegistered policy v) :
    ∃ done t rest, l = done ++ t :: rest ∧
      ((∃ x', primitiveResumeTask ⟨true, policy⟩ (containerOf n tStoppedOffset) x = .ok x') ↔
        (done ≠ [] → ¬s.Climbs p t)) ∧
      ∀ x', primitiveResumeTask ⟨true, policy⟩ (containerOf n tStoppedOffset) x = .ok x' →
        DestroyInv p s v l m x' := by
  obtain ⟨done, rest, hn, hl, ⟨w, D⟩, hmet⟩ := I
  cases rest with
  | nil => cases hn
  | cons t rest =>
      obtain ⟨rfl, rfl⟩ := List.cons.inj hn
      have hw := D.waiting t List.mem_cons_self
      obtain ⟨ht, hs⟩ := (D.good.wf.stopped.mem D.stopped).mp List.mem_cons_self
      refine ⟨done, t, rest, hl, ?_, fun x' he => ?_⟩
      · constructor
        · rintro ⟨x', he⟩
          exact hw.mp (D.turn.mp he).1
        · intro hnot
          obtain ⟨x', he⟩ := (D.good.resume ht hs).hook_returns (.resumed t) hP
            (D.objects.trans (.resume w p t)) rfl
          exact ⟨x', D.turn.mpr ⟨hw.mpr hnot, he⟩⟩
      · obtain ⟨hst, he⟩ := D.turn.mp he
        refine ⟨done ++ [t], rest, rfl, by simp [hl], D.next he, fun u hu => ?_⟩
        cases done with
        | nil => simp at hu
        | cons a done =>
            simp only [List.cons_append, List.tail_cons, List.mem_append,
              List.mem_singleton] at hu
            rcases hu with hu | rfl
            · exact hmet u hu
            · exact hw.mp hst (by simp)

end DestroyInv

/-- **The walk of `process_unregister_prim`** returns iff the walk of marks meets no task of the
list but the first; it has then resumed them all. -/
theorem destroy_walk (S : Settled s v) (hP : AssignsRegistered policy v)
    (hl : v.stopped p = some l) :
    (∀ x, forEachNode (.pStopped p)
      (fun n s => primitiveResumeTask ⟨true, policy⟩ (containerOf n tStoppedOffset) s) s = .ok x →
      (∃ w, Destroying p s v l [] x w) ∧ ∀ t ∈ l.tail, ¬s.Climbs p t) ∧
    ((∀ t ∈ l.tail, ¬s.Climbs p t) → ∃ x, forEachNode (.pStopped p)
      (fun n s => primitiveResumeTask ⟨true, policy⟩ (containerOf n tStoppedOffset) s) s = .ok x) := by
  have h0 : DestroyInv p s v l (l.map .tStopped) s := ⟨[], l, rfl, rfl, ⟨v, .start S hl⟩, nofun⟩
  unfold forEachNode
  rw [S.good.next_pStopped hl]
  constructor
  · intro x hx
    have hend : DestroyInv p s v l [] x := by
      refine CircularList.walk_partial _ _ _ _ (DestroyInv p s v l) (fun I => I.head) ?_ h0 hx
      intro n m y y' I hy
      obtain ⟨-, -, -, -, -, hkeep⟩ := I.turn hP
      exact hkeep y' hy
    obtain ⟨done, rest, hn, hsplit, ⟨w, D⟩, hmet⟩ := hend
    obtain rfl := List.map_eq_nil_iff.mp hn.symm
    obtain rfl : l = done := by simpa using hsplit
    exact ⟨⟨w, D⟩, hmet⟩
  · intro hall
    have hlen : (l.map Node.tStopped).length < k.nodes + 1 := by
      have hcard := (S.good.wf.stopped.nodup hl).length_le_card
      rw [Fintype.card_fin] at hcard
      rw [List.length_map, Machine.nodes]
      omega
    have hwalk := CircularList.walk_rule (fun s n => s.links.next n) (.pStopped p) Fault.endless
      (fun n s => primitiveResumeTask ⟨true, policy⟩ (containerOf n tStoppedOffset) s)
      (DestroyInv p s v l) (fun I => I.head) (fun I => ?_) _ s (k.nodes + 1) hlen h0
    · obtain ⟨x, hx, -⟩ := hwalk
      exact ⟨x, hx⟩
    · obtain ⟨done, t, rest, hsplit, hreturns, hkeep⟩ := I.turn hP
      obtain ⟨x', he⟩ := hreturns.mpr fun hne => hall t (by
        obtain ⟨a, done', rfl⟩ := List.exists_cons_of_ne_nil hne
        simp [hsplit])
      exact ⟨x', he, hkeep x' he⟩

/-! ### The un-override -/

theorem primUnOverride_hooks {env : Env k} (he : primUnOverride env p s = .ok s') :
    s'.hooks = ((s.prim p).pOverridden.map (.overrideReleased p)).toList ++ s.hooks := by
  rcases primUnOverride_ok.mp he with ⟨ho, rfl⟩ | ⟨t, c, ho, -, he⟩
  · rw [ho]
    rfl
  · have hh : (unOverride p t s).hooks = s.hooks := congrArg Ledger.hooks (unOverride_ledger s p t)
    rw [(callHook_assigned he).2.2, hh, ho]
    rfl

theorem primUnOverride_active {env : Env k} (he : primUnOverride env p s = .ok s')
    (hu : s.tStatus u = schedStatusActive) : s'.tStatus u = schedStatusActive := by
  rcases primUnOverride_ok.mp he with ⟨-, rfl⟩ | ⟨t, c, -, -, he⟩
  · exact hu
  · obtain ⟨τ, -, hstatus⟩ := unOverride_tStatus s p t
    rw [(callHook_assigned he).2.1.tStatus, hstatus, hu, status_active_or, ite_self]

theorem Good.unOverride_returns (G : Good s v) (hp : v.HasPrim p)
    (hP : AssignsRegistered policy w) (e : w.SameObjects v) (hc : (s.prim p).pProcess = some c)
    (hprc : v.HasProcess c) : ∃ s', primUnOverride ⟨true, policy⟩ p s = .ok s' := by
  cases ho : (s.prim p).pOverridden with
  | none => exact ⟨s, primUnOverride_ok.mpr (.inl ⟨ho, rfl⟩)⟩
  | some t =>
      obtain ⟨s', he⟩ := (G.unoverride hp ho).hook_returns (.overrideReleased p t) hP
        (e.trans (.unoverride v p t)) (G.wf.pSched c hprc)
      exact ⟨s', primUnOverride_ok.mpr (.inr ⟨t, c, ho, hc, he⟩)⟩

/-! ### The destruction -/

/-- The tasks of `l` have been resumed, once each and in this order, and the primitive is left with
nothing. -/
structure Destroyed (p : PrimId k) (l : List (TaskId k)) (s : State k) (r : BitVec 8)
    (s' : State k) : Prop where
  hooks : s'.hooks = ((s.prim p).pOverridden.map (.overrideReleased p)).toList ++
    ((l.map .resumed).reverse ++ s.hooks)
  resumed : ∀ t ∈ l, (s'.task t).tStatus = schedStatusActive ∧ (s'.task t).tStopper = none
  actives : ∃ L : List (TaskId k), IsRing s'.links .sActives (L.map .tSchedList) ∧
    ∀ t ∈ l, L.count t = 1
  stopped : IsRing s'.links (.pStopped p) [] ∧ (s'.prim p).nbStoppedTasks = 0
  overridden : (s'.prim p).pOverridden = none
  result : r = if (s.prim p).pNbOwningTasks = 0 then 0 else 1

theorem Destroying.destroyed {y : State k} (D : Destroying p s v l [] x w) (hp : v.HasPrim p)
    (hT : ∀ t ∈ l, v.HasTask t) (he : primUnOverride ⟨true, policy⟩ p x = .ok y) : Destroyed p l s
      (if (y.prim p).pNbOwningTasks = 0 then 0 else 1) (forgetPrim p c y) := by
  have hp' : w.HasPrim p := (D.objects.prim p).mpr hp
  obtain ⟨w', G, e, hstopped, -, ho⟩ := D.good.unOverride_lists hp' he
  have G' : Good (forgetPrim p c y) w' :=
    G.congr (G.forgetPrim_pointers ((e.prim p).mpr hp') ho c)
  have hempty : w'.stopped p = some [] := by rw [hstopped, D.stopped]
  have hresumed : ∀ t ∈ l, (y.task t).tStatus = schedStatusActive ∧ (y.task t).tStopper = none := by
    intro t ht
    obtain ⟨hactive, hnone⟩ := D.resumed t ht
    exact ⟨primUnOverride_active he hactive, (primUnOverride_tStopper t he).trans hnone⟩
  constructor
  · have hh : y.hooks = _ := primUnOverride_hooks he
    rw [D.pOverridden, D.hooks] at hh
    exact hh
  · exact hresumed
  · refine ⟨w'.actives, G'.wf.rings.ring rfl, fun t ht => ?_⟩
    refine List.count_eq_one_of_mem G'.wf.nodup_actives ((G'.wf.actives t).mpr ⟨?_, ?_⟩)
    · exact (e.task t).mpr ((D.objects.task t).mpr (hT t ht))
    · exact (hresumed t ht).2
  · exact ⟨G'.ring_stopped hempty, G'.nbStoppedTasks_eq_zero hempty⟩
  · exact ho
  · have howners : (y.prim p).pNbOwningTasks = (x.prim p).pNbOwningTasks :=
      congrFun (congrArg Counters.pNb (primUnOverride_counters he)) p
    rw [howners, D.owners]

theorem processUnregisterPrim_returns {env : Env k} {s₁ s₂ : State k}
    (h₁ : forEachNode (.pStopped p)
      (fun n s => primitiveResumeTask env (containerOf n tStoppedOffset) s) s = .ok s₁)
    (h₂ : primUnOverride env p s₁ = .ok s₂) (hc : (s.prim p).pProcess = some c) :
    processUnregisterPrim env p s =
      .ok (if (s₂.prim p).pNbOwningTasks = 0 then 0 else 1, forgetPrim p c s₂) := by
  simp only [processUnregisterPrim, bind_eq_ok, nsCheck_eq_ok, exists_const]
  refine ⟨fun _ => by simp [hc], s₁, h₁, ?_⟩
  split
  · rename_i ho
    obtain ⟨-, rfl⟩ | ⟨t, d, hov, -, -⟩ := primUnOverride_ok.mp h₂
    · simp only [bind_eq_ok, deref_eq_ok]
      exact ⟨s₂, rfl, c, hc, rfl⟩
    · cases ho.symm.trans hov
  · simp only [bind_eq_ok, deref_eq_ok]
    exact ⟨s₂, primitiveUnoverrideTask_ok.mpr h₂, c, hc, rfl⟩

/-- **Destroying a primitive**: in every well-formed state, the destruction resumes the tasks of the
list, once each and in order, iff the walk of marks from the primitive meets no task of the list but
the first. -/
theorem destroy_iff (S : Settled s v) (hP : AssignsRegistered policy v) (hp : v.HasPrim p)
    (hl : IsRing s.links (.pStopped p) (l.map .tStopped)) :
    (∃ r s', processUnregisterPrim ⟨true, policy⟩ p s = .ok (r, s') ∧ Destroyed p l s r s') ↔
      ∀ t ∈ l.tail, ¬s.Climbs p t := by
  have hl' := S.good.stopped_eq hp hl
  have hT : ∀ t ∈ l, v.HasTask t := fun t ht => ((S.good.wf.stopped.mem hl').mp ht).1
  obtain ⟨c, hc, hprc⟩ := S.pProcess p hp
  obtain ⟨hwalk, hreturns⟩ := destroy_walk S hP hl'
  constructor
  · rintro ⟨r, s', he, -⟩
    obtain ⟨s₁, -, -, h₁, -⟩ := processUnregisterPrim_ok he
    exact (hwalk s₁ h₁).2
  · intro hall
    obtain ⟨x, h₁⟩ := hreturns hall
    obtain ⟨⟨w, D⟩, -⟩ := hwalk x h₁
    obtain ⟨y, h₂⟩ := D.good.unOverride_returns ((D.objects.prim p).mpr hp) hP D.objects
      (D.pProcess.trans hc) ((D.objects.process c).mpr hprc)
    exact ⟨_, _, processUnregisterPrim_returns h₁ h₂ hc, D.destroyed hp hT h₂⟩

/-! ### Two runs -/

/-- The policy has cleared the marks of the primitives. -/
def clearMarks (s : State k) : State k :=
  { s with prim := fun p => { s.prim p with pStatus := 0 } }

/-- Two tasks are stopped by a primitive that overrides the task `t`. -/
def overriddenWaiter (t : TaskId small) : List (Call small) :=
  smallSetup ++ [.registerPrim 0 (.other 0), .assignTask 0 (some 0), .assignTask 1 (some 1),
    .overrideTask (.other 0) t, .stopThread (.other 0) 0, .stopThread (.other 0) 1]

/-- What a run shows of its last state once the marks are cleared. -/
theorem settled_clearMarks {hist : Hist k}
    (hr : Reach policy (fun hist _ c => Additive hist c) hist s)
    (hstatus : ∀ t, taskRegistered hist t = true → s.tStatus t =
      if (s.task t).tStopper = none then schedStatusActive else schedStatusStopped)
    (hprc : ∀ p, primRegistered hist p = true →
      ∃ c, (s.prim p).pProcess = some c ∧ processRegistered hist c = true) :
    ∃ v, Settled (clearMarks s) v ∧ Registered hist v := by
  obtain ⟨v, S, R⟩ := reach_scheduled hr
  refine ⟨v, ⟨S.good.congr rfl, fun t ht => hstatus t ((R.task t).mp ht), fun p hp => ?_⟩, R⟩
  obtain ⟨c, hc, hreg⟩ := hprc p ((R.prim p).mp hp)
  exact ⟨c, hc, (R.process c).mpr hreg⟩

/-- A replay that ends in a well-formed state. -/
def endsSettled (hist : Hist small) (s : State small) : Bool :=
  decide ((∀ t, taskRegistered hist t = true → s.tStatus t =
      if (s.task t).tStopper = none then schedStatusActive else schedStatusStopped) ∧
    (∀ p, primRegistered hist p = true →
      ∃ c, (s.prim p).pProcess = some c ∧ processRegistered hist c = true) ∧
    primRegistered hist (.other 0) = true)

set_option maxRecDepth 10000 in
/-- The primitive overrides its first waiter: the walk of marks meets that one only. -/
theorem destroy_iff_run : ∃ (s : State small) (v : View small) (l : List (TaskId small)),
    Settled s v ∧ 2 ≤ l.length ∧ ∃ r s', processUnregisterPrim ⟨true, quiet⟩ (.other 0) s =
      .ok (r, s') ∧ Destroyed (.other 0) l s r s' := by
  obtain ⟨hist, s, hr, htest⟩ := exists_reach_of_replay (exec ⟨true, quiet⟩)
    (fun hist _ c => Additive hist c) boot_smallBoot
    (fun hist s => endsSettled hist s && decide ((∀ q u, (s.prim q).pOverridden = some u → u = 0) ∧
      s.links.next (.pStopped (.other 0)) = .tStopped 0 ∧
      ((s.prim (.other 0)).nbStoppedTasks).toNat = 2))
    (overriddenWaiter 0) (by decide +kernel)
  rw [Bool.and_eq_true] at htest
  obtain ⟨hstatus, hprc, hp⟩ := of_decide_eq_true htest.1
  obtain ⟨hover, hnext, hcount⟩ := of_decide_eq_true htest.2
  obtain ⟨v, S, R⟩ := settled_clearMarks hr hstatus hprc
  obtain ⟨l, hl⟩ := Option.isSome_iff_exists.mp ((R.prim _).mpr hp)
  have hlen : l.length = 2 := (S.good.wf.stopped.count hl).symm.trans hcount
  refine ⟨clearMarks s, v, l, S, hlen.ge, (destroy_iff S (assignsRegistered_quiet v) ((R.prim _).mpr hp)
    (S.good.ring_stopped hl)).mpr fun t ht hc => ?_⟩
  have hmet : ∀ {q u}, (clearMarks s).Climbs q u → u = 0 := by
    intro q u hc
    induction hc with
    | here h => exact hover _ _ h.2.1
    | step _ _ _ ih => exact ih
  -- the first task of the list is the one that is met
  have hhead := S.good.next_pStopped hl
  cases l with
  | nil => cases ht
  | cons u l =>
      obtain rfl : u = 0 := Node.tStopped.inj (hhead.symm.trans hnext)
      exact (List.nodup_cons.mp (S.good.wf.stopped.nodup hl)).1 (hmet hc ▸ ht)

set_option maxRecDepth 10000 in
/-- The primitive overrides its second waiter: the resumption of the first one marks it, and the
check of its own resumption fails. -/
theorem destroy_fails : ¬∀ (s : State small) (v : View small) (l : List (TaskId small)),
    Settled s v → v.HasPrim (.other 0) →
    IsRing s.links (.pStopped (.other 0)) (l.map .tStopped) →
    ∃ r s', processUnregisterPrim ⟨true, quiet⟩ (.other 0) s = .ok (r, s') ∧
      Destroyed (.other 0) l s r s' := by
  intro hall
  obtain ⟨hist, s, hr, htest⟩ := exists_reach_of_replay (exec ⟨true, quiet⟩)
    (fun hist _ c => Additive hist c) boot_smallBoot
    (fun hist s => endsSettled hist s &&
      fails .check (processUnregisterPrim ⟨true, quiet⟩ (.other 0) (clearMarks s)))
    (overriddenWaiter 1) (by decide +kernel)
  rw [Bool.and_eq_true] at htest
  obtain ⟨hstatus, hprc, hp⟩ := of_decide_eq_true htest.1
  obtain ⟨v, S, R⟩ := settled_clearMarks hr hstatus hprc
  obtain ⟨l, hl⟩ := Option.isSome_iff_exists.mp ((R.prim _).mpr hp)
  obtain ⟨r, s', he, -⟩ := hall (clearMarks s) v l S ((R.prim _).mpr hp) (S.good.ring_stopped hl)
  cases he.symm.trans (fails_iff.mp htest.2)

end KernelTk.Sched
