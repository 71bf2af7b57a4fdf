import KernelTk.Sched.Calls

/-! # Debug builds keep the lists

In a debug build, a function that returns on registered objects edits the lists of the view as
its name says (`Good.stopTask`, `Good.resumeTask`, ...).  The checks establish what the edit of the view
asks for: that the task is registered and active, that the primitive is registered and of its process.

* **Calls to the policy.** They change the histories only: `After s₁ v s'` says that `s'` is `s₁` after such
  calls, and that its lists are those of `v` up to the histories.  `Good.hooked` puts an edit and the
  call that reports it together.
* **Objects.** `View.SameObjects` : the same objects are registered.  Every edit that is no registration
  keeps it, so that it is followed separately from the lists.
* **Walks.** `process_unregister_prim` empties the stopped list of its primitive (`Good.resumeAll`), one
  resumption at a time, and keeps what every resumption keeps; `sched_pause_process` stops running
  tasks and keeps what every stop keeps (`Good.pauseAll`).  The walk of `sched_resume_process`
  converts the nodes through another field than the one they are linked by, and returns on an empty list
  only (`resumeProcess_walk`).
* **Unregistering a primitive.** `Good.unregisterPrim` : its tasks are resumed, its override ends, and it
  is forgotten. -/

namespace KernelTk.Sched

variable {k : Machine} {env : Env k} {policy : List (HookCall k) → List (ThreadId k × Option (TaskId k))}
  {s s' s₁ : State k} {v v' : View k} {p : PrimId k} {t : TaskId k} {c : ProcessId k}
  {h : ThreadId k}

/-- `s'` is `s₁` after calls to the policy, and its lists are those of `v`. -/
structure After (s₁ : State k) (v : View k) (s' : State k) : Prop where
  frame : Assigned s₁ s'
  lists : ∃ v', v.SameLists v' ∧ Good s' v'

/-- The same objects are registered. -/
structure View.SameObjects (v v' : View k) : Prop where
  task : ∀ t, v'.HasTask t ↔ v.HasTask t
  prim : ∀ p, v'.HasPrim p ↔ v.HasPrim p
  process : ∀ c, v'.HasProcess c ↔ v.HasProcess c
  thread : ∀ h, v'.HasThread h ↔ v.HasThread h

namespace View.SameObjects

theorem refl (v : View k) : v.SameObjects v :=
  ⟨fun _ => Iff.rfl, fun _ => Iff.rfl, fun _ => Iff.rfl, fun _ => Iff.rfl⟩

theorem trans {v'' : View k} (e : v.SameObjects v') (e' : v'.SameObjects v'') :
    v.SameObjects v'' where
  task := fun t => (e'.task t).trans (e.task t)
  prim := fun p => (e'.prim p).trans (e.prim p)
  process := fun c => (e'.process c).trans (e.process c)
  thread := fun h => (e'.thread h).trans (e.thread h)

theorem stop (v : View k) (p : PrimId k) (t : TaskId k) : v.SameObjects (v.stop p t) :=
  ⟨fun _ => Iff.rfl, fun _ => View.hasPrim_stop, fun _ => Iff.rfl, fun _ => Iff.rfl⟩

theorem resume (v : View k) (p : PrimId k) (t : TaskId k) : v.SameObjects (v.resume p t) :=
  ⟨fun _ => Iff.rfl, fun _ => View.hasPrim_resume, fun _ => Iff.rfl, fun _ => Iff.rfl⟩

theorem override (v : View k) (p : PrimId k) (t : TaskId k) : v.SameObjects (v.override p t) :=
  ⟨fun _ => View.hasTask_override, fun _ => Iff.rfl, fun _ => Iff.rfl, fun _ => Iff.rfl⟩

theorem unoverride (v : View k) (p : PrimId k) (t : TaskId k) :
    v.SameObjects (v.unoverride p t) :=
  ⟨fun _ => View.hasTask_unoverride, fun _ => Iff.rfl, fun _ => Iff.rfl, fun _ => Iff.rfl⟩

end View.SameObjects

theorem View.SameLists.sameObjects (e : v.SameLists v') : v.SameObjects v' :=
  ⟨e.hasTask, e.hasPrim, e.hasProcess, e.hasThread⟩

namespace Good

/-! ### The assignments -/

theorem stop (G : Good s v) (hp : v.HasPrim p) (ht : v.HasTask t) (hs : (s.task t).tStopper = none)
    (hprc : (s.prim p).pProcess = (s.task t).tProcess) : Good (stopTask p t s) (v.stop p t) where
  wf := stopTask_pointers s p t ▸ G.wf.stop hp ht hs hprc
  attached := stopTask_pointers s p t ▸ ⟨G.attached.task, G.attached.process, G.attached.thread⟩

theorem resume (G : Good s v) (ht : v.HasTask t) (hs : (s.task t).tStopper = some p) :
    Good (resumeTask p t s) (v.resume p t) where
  wf := resumeTask_pointers s p t ▸ G.wf.resume ht hs
  attached := resumeTask_pointers s p t ▸ ⟨G.attached.task, G.attached.process, G.attached.thread⟩

theorem override (G : Good s v) (hp : v.HasPrim p) (ht : v.HasTask t)
    (ho : (s.prim p).pOverridden = none) : Good (overrideTask p t s) (v.override p t) where
  wf := overrideTask_pointers s p t ▸ G.wf.override hp ht ho
  attached := overrideTask_pointers s p t ▸
    ⟨fun u hu => View.hasTask_override.mpr (G.attached.task u hu), G.attached.process,
      G.attached.thread⟩

theorem unoverride (G : Good s v) (hp : v.HasPrim p) (ho : (s.prim p).pOverridden = some t) :
    Good (unOverride p t s) (v.unoverride p t) where
  wf := unOverride_pointers s p t ▸ G.wf.unoverride hp ho
  attached := unOverride_pointers s p t ▸
    ⟨fun u hu => View.hasTask_unoverride.mpr (G.attached.task u hu), G.attached.process,
      G.attached.thread⟩

theorem addTask (G : Good s v) (ht : ¬v.HasTask t) (hc : v.HasProcess c)
    (e : s'.pointers = s.pointers.addTask c t) : Good s' (v.addTask c t) where
  wf := e ▸ G.wf.addTask ht hc
  attached := by
    rw [e]
    refine ⟨fun u hu => View.hasTask_addTask.mpr ?_,
      fun d hd => View.hasProcess_addTask.mpr (G.attached.process d hd), G.attached.thread⟩
    by_cases hut : u = t
    · exact .inl hut
    · refine .inr (G.attached.task u ?_)
      simpa [Pointers.addTask, hut] using hu

theorem addPrim (G : Good s v) (hp : ¬v.HasPrim p) :
    Good (processRegisterPrim c p s) (v.addPrim p) where
  wf := processRegisterPrim_pointers s p c ▸ G.wf.addPrim hp
  attached := processRegisterPrim_pointers s p c ▸
    ⟨G.attached.task, G.attached.process, G.attached.thread⟩

theorem addThread (G : Good s v) (hh : ¬v.HasThread h) :
    Good (schedRegisterThread h s) (v.addThread h) where
  wf := schedRegisterThread_pointers s h ▸ G.wf.addThread hh
  attached := by
    rw [schedRegisterThread_pointers s h]
    refine ⟨G.attached.task, G.attached.process, fun g hg => View.hasThread_addThread.mpr ?_⟩
    by_cases hgh : g = h
    · exact .inl hgh
    · refine .inr (G.attached.thread g ?_)
      simpa [Pointers.addThread, hgh] using hg

theorem addProcess (G : Good s v) (hc : ¬v.HasProcess c) (hp : ¬v.HasPrim (pPrim c)) :
    Good (schedRegisterProcess c s) ((v.addProcess c).addPrim (pPrim c)) where
  wf := schedRegisterProcess_pointers s c ▸ (G.wf.addProcess hc).addPrim hp
  attached := by
    rw [schedRegisterProcess_pointers s c]
    refine ⟨G.attached.task, fun d hd => View.hasProcess_addProcess.mpr ?_, G.attached.thread⟩
    by_cases hdc : d = c
    · exact .inl hdc
    · refine .inr (G.attached.process d ?_)
      simpa [Pointers.addProcess, Pointers.addPrim, hdc] using hd

theorem dropPrim (G : Good s v) (hp : v.stopped p = some []) (ho : (s.prim p).pOverridden = none) :
    Good s (v.dropPrim p) where
  wf := G.wf.dropPrim hp ho
  attached := ⟨G.attached.task, G.attached.process, G.attached.thread⟩

/-! ### The functions -/

theorem hooked {sched : Bool} {call : HookCall k} (G : Good s v)
    (he : callHook ⟨true, policy⟩ sched call s = .ok s') : After s v s' :=
  ⟨(callHook_assigned he).2.1, G.hook he⟩

theorem stopTask {task : Option (TaskId k)} (G : Good s v) (hp : v.HasPrim p)
    (he : primitiveStopTask ⟨true, policy⟩ p task s = .ok s') : ∃ t, task = some t ∧
      v.HasTask t ∧ (s.task t).tStopper = none ∧ s.taskActive t = true ∧ s.Related p t ∧
      After (Sched.stopTask p t s) (v.stop p t) s' := by
  obtain ⟨t, c, rfl, hc, hchecks, he⟩ := primitiveStopTask_ok.mp he
  obtain ⟨hrel, hact, hs⟩ := hchecks rfl
  have ht := G.attached.task t hrel.member
  exact ⟨t, rfl, ht, hs, hact, hrel, (G.stop hp ht hs hrel.same).hooked he⟩

theorem stopThread (G : Good s v) (hp : v.HasPrim p)
    (he : primitiveStopThread ⟨true, policy⟩ p h s = .ok s') : ∃ t, (s.thread h).tTask = some t ∧
      v.HasTask t ∧ (s.task t).tStopper = none ∧ s.Related p t ∧
      After (Sched.stopTask p t s) (v.stop p t) s' := by
  obtain ⟨-, s₁, h₁, he⟩ := primitiveStopThread_ok.mp he
  obtain ⟨t, htask, ht, hs, -, hrel, A₁⟩ := G.stopTask hp h₁
  obtain ⟨v₁, e₁, G₁⟩ := A₁.lists
  obtain ⟨v', e', G'⟩ := G₁.hook he
  exact ⟨t, htask, ht, hs, hrel, A₁.frame.trans (callHook_assigned he).2.1, v', e₁.trans e', G'⟩

theorem resumeTask {a : Addr k} (G : Good s v)
    (he : primitiveResumeTask ⟨true, policy⟩ a s = .ok s') : ∃ t p, a.task? = some t ∧
      v.HasTask t ∧ (s.task t).tStopper = some p ∧ (s.task t).tStatus = schedStatusStopped ∧
      After (Sched.resumeTask p t s) (v.resume p t) s' := by
  obtain ⟨t, c, p, ha, hc, hs, hchecks, he⟩ := primitiveResumeTask_ok.mp he
  have ht := G.attached.task t (by simp [State.pointers, hc])
  exact ⟨t, p, ha, ht, hs, (hchecks rfl).2.2, (G.resume ht hs).hooked he⟩

theorem unOverride (G : Good s v) (hp : v.HasPrim p)
    (he : primUnOverride ⟨true, policy⟩ p s = .ok s') :
    ((s.prim p).pOverridden = none ∧ s' = s) ∨ ∃ t, (s.prim p).pOverridden = some t ∧
      v.HasTask t ∧ After (Sched.unOverride p t s) (v.unoverride p t) s' := by
  rcases primUnOverride_ok.mp he with h | ⟨t, c, ho, -, he⟩
  · exact .inl h
  · exact .inr ⟨t, ho, G.wf.overriders.container hp ho, (G.unoverride hp ho).hooked he⟩

/-- After an un-override the primitive overrides no task, and no task has been stopped or
resumed. -/
theorem unOverride_lists (G : Good s v) (hp : v.HasPrim p)
    (he : primUnOverride ⟨true, policy⟩ p s = .ok s') : ∃ v', Good s' v' ∧ v.SameObjects v' ∧
      v'.stopped = v.stopped ∧ v'.actives = v.actives ∧ (s'.prim p).pOverridden = none := by
  rcases G.unOverride hp he with ⟨ho, rfl⟩ | ⟨t, ho, ht, A, v', e, G'⟩
  · exact ⟨v, G, .refl v, rfl, rfl, ho⟩
  · refine ⟨v', G', (View.SameObjects.unoverride v p t).trans e.sameObjects, e.stopped, e.actives, ?_⟩
    have h0 := congrFun (congrArg Pointers.pOverridden (unOverride_pointers s p t)) p
    rw [A.prim]
    simpa [State.pointers, Pointers.unoverride] using h0

theorem overrideTask {task : Option (TaskId k)} (G : Good s v) (hp : v.HasPrim p)
    (he : primitiveOverrideTask ⟨true, policy⟩ p task s = .ok s') : ∃ t s₁ v₁, task = some t ∧
      v.HasTask t ∧ (s.task t).tStatus = schedStatusActive ∧ s.Related p t ∧
      primUnOverride ⟨true, policy⟩ p s = .ok s₁ ∧ v.SameObjects v₁ ∧ v₁.stopped = v.stopped ∧
      v₁.actives = v.actives ∧ After (Sched.overrideTask p t s₁) (v₁.override p t) s' := by
  obtain ⟨t, c, s₁, rfl, -, hchecks, h₁, he⟩ := primitiveOverrideTask_ok.mp he
  obtain ⟨hrel, hstatus⟩ := hchecks rfl
  have ht := G.attached.task t hrel.member
  obtain ⟨v₁, G₁, e₁, hstopped, hactives, ho⟩ := G.unOverride_lists hp h₁
  have G₂ := G₁.override ((e₁.prim p).mpr hp) ((e₁.task t).mpr ht) ho
  exact ⟨t, s₁, v₁, rfl, ht, hstatus, hrel, h₁, e₁, hstopped, hactives, G₂.hooked he⟩

/-! ### Unregistering a primitive -/

theorem next_tStopped {l : List (TaskId k)} (G : Good s v) (hl : v.stopped p = some (t :: l)) :
    s.links.next (.tStopped t) = (l.map Node.tStopped).headD (.pStopped p) := by
  have hr : CircularList.IsRing s.links (.pStopped p) ([] ++ .tStopped t :: l.map .tStopped) :=
    G.wf.rings.ring (by simp [hl])
  exact hr.next_node

theorem next_pStopped {l : List (TaskId k)} (G : Good s v) (hl : v.stopped p = some l) :
    s.links.next (.pStopped p) = (l.map Node.tStopped).headD (.pStopped p) := by
  have hr : CircularList.IsRing s.links (.pStopped p) (l.map .tStopped) :=
    G.wf.rings.ring (by simp [hl])
  exact hr.next_head

theorem isEmpty_iff {l : List (TaskId k)} (G : Good s v) (hl : v.stopped p = some l) :
    s.links.isEmpty (.pStopped p) = true ↔ l = [] := by
  have hr : CircularList.IsRing s.links (.pStopped p) (l.map .tStopped) :=
    G.wf.rings.ring (by simp [hl])
  rw [hr.isEmpty_iff, List.map_eq_nil_iff]

/-- A primitive that overrides no task is linked nowhere: its last removal changes nothing. -/
theorem forgetPrim_pointers (G : Good s v) (hp : v.HasPrim p) (ho : (s.prim p).pOverridden = none)
    (c : ProcessId k) : (forgetPrim p c s).pointers = s.pointers := by
  have hfree : v.free p = true := (G.wf.free p).mpr ⟨hp, ho⟩
  have hlinks := G.wf.rings.removeUnsafe_nil (n := .pSiblings p) (by simp [hfree])
  ext x : 2
  all_goals first
    | exact hlinks
    | rfl
    | by_cases hx : x = c <;> simp [State.pointers, forgetPrim, hx]

/-- **The walk of `process_unregister_prim` empties the stopped list**, and keeps what every
resumption keeps. -/
theorem resumeAll {J : State k → View k → Prop} (G : Good s v) (hp : v.HasPrim p) (h0 : J s v)
    (hresume : ∀ {s v t s' v'}, Good s v → J s v → v.HasTask t → (s.task t).tStopper = some p →
      (s.task t).tStatus = schedStatusStopped → Assigned (Sched.resumeTask p t s) s' →
      (v.resume p t).SameLists v' → Good s' v' → J s' v')
    (he : forEachNode (.pStopped p)
      (fun n s => primitiveResumeTask ⟨true, policy⟩ (containerOf n tStoppedOffset) s) s = .ok s') :
    ∃ v', Good s' v' ∧ v.SameObjects v' ∧ v'.stopped p = some [] ∧ J s' v' := by
  obtain ⟨l, hl⟩ := Option.isSome_iff_exists.mp hp
  have hrule := CircularList.walk_partial (fun s n => s.links.next n) (.pStopped p) Fault.endless
    (fun n s => primitiveResumeTask ⟨true, policy⟩ (containerOf n tStoppedOffset) s)
    (fun m x => ∃ w l', m = l'.map Node.tStopped ∧ Good x w ∧
      v.SameObjects w ∧ w.stopped p = some l' ∧ J x w)
  have hwalk := @hrule ?_ ?_ (l.map Node.tStopped) s s' (k.nodes + 1)
    ⟨v, l, rfl, G, .refl v, hl, h0⟩ ?_
  · obtain ⟨w, l', hm, G', e', hl', hJ'⟩ := hwalk
    rw [List.map_eq_nil_iff.mp hm.symm] at hl'
    exact ⟨w, G', e', hl', hJ'⟩
  · rintro n m x ⟨w, l', hm, Gx, -, hl', -⟩
    cases l' with
    | nil => cases hm
    | cons u l' =>
        obtain ⟨rfl, rfl⟩ := List.cons.inj hm
        exact ⟨by simp, Gx.next_tStopped hl'⟩
  · rintro n m x x' ⟨w, l', hm, Gx, ex, hl', hJ⟩ hbody
    cases l' with
    | nil => cases hm
    | cons u l' =>
        obtain ⟨rfl, rfl⟩ := List.cons.inj hm
        obtain ⟨u', q, hu', hu, hq, hstatus, A, v', e', G'⟩ := Gx.resumeTask hbody
        obtain rfl : u = u' := by simpa using hu'
        have hstop : (x.task u).tStopper = some p :=
          ((Gx.wf.stopped.mem hl').mp List.mem_cons_self).2
        obtain rfl : p = q := Option.some.inj (hstop.symm.trans hq)
        refine ⟨v', l', rfl, G', ?_, ?_, hresume Gx hJ hu hstop hstatus A e' G'⟩
        · exact (ex.trans (View.SameObjects.resume w p u)).trans e'.sameObjects
        · rw [e'.stopped]
          simp [View.resume, hl']
  · rw [← G.next_pStopped hl]
    exact he

/-- **Unregistering a primitive resumes its tasks, un-overrides it and forgets it.** -/
theorem unregisterPrim {r : BitVec 8} {J : State k → View k → Prop} (G : Good s v)
    (hp : v.HasPrim p) (h0 : J s v)
    (hresume : ∀ {s v t s' v'}, Good s v → J s v → v.HasTask t → (s.task t).tStopper = some p →
      (s.task t).tStatus = schedStatusStopped → Assigned (Sched.resumeTask p t s) s' →
      (v.resume p t).SameLists v' → Good s' v' → J s' v')
    (he : processUnregisterPrim ⟨true, policy⟩ p s = .ok (r, s')) : ∃ s₁ v₁ s₂ v₂,
      Good s₁ v₁ ∧ v.SameObjects v₁ ∧ v₁.stopped p = some [] ∧ J s₁ v₁ ∧
      primUnOverride ⟨true, policy⟩ p s₁ = .ok s₂ ∧ Good s₂ v₂ ∧ v₁.SameObjects v₂ ∧
      v₂.stopped = v₁.stopped ∧ v₂.actives = v₁.actives ∧
      s'.task = s₂.task ∧ s'.prim = s₂.prim ∧ Good s' (v₂.dropPrim p) := by
  obtain ⟨s₁, s₂, c, h₁, h₂, -, -, rfl⟩ := processUnregisterPrim_ok he
  obtain ⟨v₁, G₁, e₁, hl₁, hJ⟩ := G.resumeAll hp h0 hresume h₁
  have hp₁ := (e₁.prim p).mpr hp
  obtain ⟨v₂, G₂, e₂, hstopped, hactives, ho⟩ := G₁.unOverride_lists hp₁ h₂
  refine ⟨s₁, v₁, s₂, v₂, G₁, e₁, hl₁, hJ, h₂, G₂, e₂, hstopped, hactives, rfl, rfl, ?_⟩
  exact (G₂.congr (G₂.forgetPrim_pointers ((e₂.prim p).mpr hp₁) ho c)).dropPrim
    (by rw [hstopped, hl₁]) ho

/-! ### Pausing and resuming a process -/

theorem next_tSiblings {done l : List (TaskId k)} (G : Good s v)
    (hl : v.tasks c = some (done ++ t :: l)) :
    s.links.next (.tSiblings t) = (l.map Node.tSiblings).headD (.pTasks c) := by
  have hr : CircularList.IsRing s.links (.pTasks c)
      (done.map .tSiblings ++ .tSiblings t :: l.map .tSiblings) :=
    G.wf.rings.ring (by simp [hl])
  exact hr.next_node

theorem next_pTasks {l : List (TaskId k)} (G : Good s v) (hl : v.tasks c = some l) :
    s.links.next (.pTasks c) = (l.map Node.tSiblings).headD (.pTasks c) := by
  have hr : CircularList.IsRing s.links (.pTasks c) (l.map .tSiblings) :=
    G.wf.rings.ring (by simp [hl])
  exact hr.next_head

/-- **The walk of `sched_pause_process`** keeps what every stop keeps. -/
theorem pauseAll (G : Good s v) (hc : v.HasProcess c) (hp : v.HasPrim (pPrim c))
    (he : forEachNode (.pTasks c) (pauseTask ⟨true, policy⟩ c) s = .ok s') :
    ∃ v', Good s' v' ∧ v.SameObjects v' := by
  obtain ⟨l, hl⟩ := Option.isSome_iff_exists.mp hc
  have hrule := CircularList.walk_partial (fun s n => s.links.next n) (.pTasks c) Fault.endless
    (pauseTask ⟨true, policy⟩ c)
    (fun m x => ∃ w done l', l = done ++ l' ∧ m = l'.map Node.tSiblings ∧
      Good x w ∧ v.SameObjects w ∧ w.tasks c = some l)
  have hwalk := @hrule ?_ ?_ (l.map Node.tSiblings) s s' (k.nodes + 1)
    ⟨v, [], l, rfl, rfl, G, .refl v, hl⟩ ?_
  · obtain ⟨w, -, -, -, -, G', e', -⟩ := hwalk
    exact ⟨w, G', e'⟩
  · rintro n m x ⟨w, done, l', hdone, hm, Gx, -, hl'⟩
    cases l' with
    | nil => cases hm
    | cons u l' =>
        obtain ⟨rfl, rfl⟩ := List.cons.inj hm
        exact ⟨by simp, Gx.next_tSiblings (hdone ▸ hl')⟩
  · rintro n m x x' ⟨w, done, l', hdone, hm, Gx, ex, hl'⟩ hbody
    cases l' with
    | nil => cases hm
    | cons u l' =>
        obtain ⟨rfl, rfl⟩ := List.cons.inj hm
        have hdone' : l = (done ++ [u]) ++ l' := by simp [hdone]
        simp only [pauseTask, containerOf_tSiblings, bind_eq_ok, deref_eq_ok, Option.some.injEq,
          exists_eq_left'] at hbody
        split at hbody
        · obtain ⟨u', hu', hu, -, -, -, A, v', e', G'⟩ := Gx.stopTask ((ex.prim _).mpr hp) hbody
          obtain rfl := Option.some.inj hu'
          refine ⟨v', _, l', hdone', rfl, G', ?_, ?_⟩
          · exact (ex.trans (View.SameObjects.stop w _ u)).trans e'.sameObjects
          · rw [e'.tasks]
            exact hl'
        · obtain rfl := Except.ok.inj hbody
          exact ⟨w, _, l', hdone', rfl, Gx, ex, hl'⟩
  · rw [← G.next_pTasks hl]
    exact he

/-- The walk of `sched_resume_process` finds no task at the node of a stopped task: it returns
on an empty list only. -/
theorem resumeProcess_walk {l : List (TaskId k)} (G : Good s v)
    (hl : v.stopped (pPrim c) = some l) :
    forEachNode (.pStopped (pPrim c))
      (fun n s => primitiveResumeTask env (containerOf n tSiblingsOffset) s) s =
      if l = [] then .ok s else .error .pointer := by
  unfold forEachNode
  rw [G.next_pStopped hl]
  cases l with
  | nil => simp [CircularList.walk]
  | cons t l =>
      rw [if_neg (List.cons_ne_nil t l)]
      refine CircularList.walk_error (by simp) ?_
      simp [primitiveResumeTask, deref, bind, Except.bind]

end Good

end KernelTk.Sched
