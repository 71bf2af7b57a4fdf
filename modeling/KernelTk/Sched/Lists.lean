import KernelTk.Lib.Registry
import KernelTk.Sched.View

/-! # Agreement of the lists

`Wf P v` : the links, the back pointers and the counters of the memory agree with the view `v`.

* **Pointers.** `State.pointers` is the part of the memory that the lists depend on; the marks,
  the status words, the ownership counters and the commits are not in it.  Two memories with the same
  pointers have the same lists.
* **Agreement.** The link words are the family of the rings of the view, and there is a registry for each
  kind of back pointer and its counter: `t_stopper` for the stopped lists, `p_overridden` for the
  overriders, `t_thread` for the histories, `t_process` for the tasks of a process.  The active tasks are
  those whose stopper is null.
* **Edits.** The assignments of every function of `sched.c` change the pointers by one edit
  (`Pointers.stop`, `Pointers.resume`, ...), which keeps the agreement with the edit of the same
  name of the view (`Wf.stop`, `Wf.resume`, ...).  Every proof has two halves: the rings, which are
  those of the view, and the registries, each of which is edited once or left alone.
* **Registration.** An edit that moves objects between lists registers none: the lemmas `hasPrim_stop`,
  `hasTask_override`, ... say so, and feed the conditions of the registries. -/

namespace KernelTk.Sched

open CircularList (Links IsRing Family Loose)

variable {k : Machine}

/-- What the lists depend on. -/
structure Pointers (k : Machine) where
  links : Links (Node k)
  tProcess : TaskId k → Option (ProcessId k)
  tStopper : TaskId k → Option (PrimId k)
  tNbOverrides : TaskId k → Usize k
  tThread : TaskId k → Option (ThreadId k)
  pProcess : PrimId k → Option (ProcessId k)
  nbStoppedTasks : PrimId k → Usize k
  pOverridden : PrimId k → Option (TaskId k)
  pSched : ProcessId k → Bool
  pNbTasks : ProcessId k → Usize k
  tSched : ThreadId k → Bool
  tHistorySize : ThreadId k → Usize k

/-- The pointers and the counters of a memory. -/
def State.pointers (s : State k) : Pointers k where
  links := s.links
  tProcess := fun t => (s.task t).tProcess
  tStopper := fun t => (s.task t).tStopper
  tNbOverrides := fun t => (s.task t).tNbOverrides
  tThread := fun t => (s.task t).tThread
  pProcess := fun p => (s.prim p).pProcess
  nbStoppedTasks := fun p => (s.prim p).nbStoppedTasks
  pOverridden := fun p => (s.prim p).pOverridden
  pSched := fun c => (s.process c).pSched
  pNbTasks := fun c => (s.process c).pNbTasks
  tSched := fun h => (s.thread h).tSched
  tHistorySize := fun h => (s.thread h).tHistorySize

/-- The lists of the view are those of the memory. -/
structure Wf (P : Pointers k) (v : View k) : Prop where
  rings : Family P.links v.rings
  stopped : Registry v.stopped v.HasTask P.tStopper P.nbStoppedTasks
  overriders : Registry v.overriders v.HasPrim P.pOverridden P.tNbOverrides
  history : Registry v.history v.HasTask P.tThread P.tHistorySize
  tasks : Registry v.tasks v.HasTask P.tProcess P.pNbTasks
  actives : ∀ t, t ∈ v.actives ↔ v.HasTask t ∧ P.tStopper t = none
  free : ∀ p, v.free p = true ↔ v.HasPrim p ∧ P.pOverridden p = none
  processes : ∀ c, c ∈ v.processes ↔ v.HasProcess c
  threads : ∀ h, h ∈ v.threads ↔ v.HasThread h
  /-- A registered task has a process. -/
  member : ∀ t, v.HasTask t → P.tProcess t ≠ none
  /-- A task waits for a primitive of its process. -/
  waits : ∀ t p, v.HasTask t → P.tStopper t = some p → P.pProcess p = P.tProcess t
  pSched : ∀ c, v.HasProcess c → P.pSched c = true
  tSched : ∀ h, v.HasThread h → P.tSched h = true

namespace Pointers

variable (P : Pointers k)

/-! ### Edits -/

def stop (p : PrimId k) (t : TaskId k) : Pointers k :=
  { P with
    links := (P.links.insertBefore (.pStopped p) (.tStopped t)).remove (.tSchedList t)
    tStopper := Function.update P.tStopper t (some p)
    nbStoppedTasks := Function.update P.nbStoppedTasks p (P.nbStoppedTasks p + 1) }

def resume (p : PrimId k) (t : TaskId k) : Pointers k :=
  { P with
    links := (P.links.insertAfter .sActives (.tSchedList t)).remove (.tStopped t)
    tStopper := Function.update P.tStopper t none
    nbStoppedTasks := Function.update P.nbStoppedTasks p (P.nbStoppedTasks p - 1) }

def override (p : PrimId k) (t : TaskId k) : Pointers k :=
  { P with
    links := P.links.insertAfter (.tOverriders t) (.pSiblings p)
    pOverridden := Function.update P.pOverridden p (some t)
    tNbOverrides := Function.update P.tNbOverrides t (P.tNbOverrides t + 1) }

def unoverride (p : PrimId k) (t : TaskId k) : Pointers k :=
  { P with
    links := P.links.remove (.pSiblings p)
    pOverridden := Function.update P.pOverridden p none
    tNbOverrides := Function.update P.tNbOverrides t (P.tNbOverrides t - 1) }

def leave (h : ThreadId k) (t : TaskId k) : Pointers k :=
  { P with
    links := P.links.remove (.tHistory t)
    tThread := Function.update P.tThread t none
    tHistorySize := Function.update P.tHistorySize h (P.tHistorySize h - 1) }

def enter (h : ThreadId k) (t : TaskId k) : Pointers k :=
  { P with
    links := P.links.insertAfter (.threadHistory h) (.tHistory t)
    tThread := Function.update P.tThread t (some h)
    tHistorySize := Function.update P.tHistorySize h (P.tHistorySize h + 1) }

def addTask (c : ProcessId k) (t : TaskId k) : Pointers k :=
  { P with
    links := addTaskLinks c t P.links
    tProcess := Function.update P.tProcess t (some c)
    tStopper := Function.update P.tStopper t none
    tNbOverrides := Function.update P.tNbOverrides t 0
    tThread := Function.update P.tThread t none
    pNbTasks := Function.update P.pNbTasks c (P.pNbTasks c + 1) }

def addPrim (c : ProcessId k) (p : PrimId k) : Pointers k :=
  { P with
    links := addPrimLinks p P.links
    pProcess := Function.update P.pProcess p (some c)
    nbStoppedTasks := Function.update P.nbStoppedTasks p 0
    pOverridden := Function.update P.pOverridden p none }

def addThread (h : ThreadId k) : Pointers k :=
  { P with
    links := addThreadLinks h P.links
    tSched := Function.update P.tSched h true
    tHistorySize := Function.update P.tHistorySize h 0 }

def addProcess (c : ProcessId k) : Pointers k :=
  { P with
    links := addProcessLinks c P.links
    pSched := Function.update P.pSched c true
    pNbTasks := Function.update P.pNbTasks c 0 }

end Pointers

/-! ### What an edit leaves registered -/

namespace View

variable {v : View k} {p q : PrimId k} {t u : TaskId k} {h g : ThreadId k} {c d : ProcessId k}

theorem isSome_update_map {α β : Type} [DecidableEq α] {M : α → Option (List β)} {a x : α}
    {f : List β → List β} : (Function.update M a ((M a).map f) x).isSome = (M x).isSome := by
  by_cases hx : x = a
  · subst hx
    simp
  · simp [hx]

@[simp] theorem hasPrim_stop : (v.stop p t).HasPrim q ↔ v.HasPrim q := by
  simp only [HasPrim, stop, isSome_update_map]

@[simp] theorem hasPrim_resume : (v.resume p t).HasPrim q ↔ v.HasPrim q := by
  simp only [HasPrim, resume, isSome_update_map]

@[simp] theorem hasTask_override : (v.override p t).HasTask u ↔ v.HasTask u := by
  simp only [HasTask, override, isSome_update_map]

@[simp] theorem hasTask_unoverride : (v.unoverride p t).HasTask u ↔ v.HasTask u := by
  simp only [HasTask, unoverride, isSome_update_map]

@[simp] theorem hasThread_leave : (v.leave h t).HasThread g ↔ v.HasThread g := by
  simp only [HasThread, leave, isSome_update_map]

@[simp] theorem hasThread_enter : (v.enter h t).HasThread g ↔ v.HasThread g := by
  simp only [HasThread, enter, isSome_update_map]

@[simp] theorem hasTask_addTask : (v.addTask c t).HasTask u ↔ u = t ∨ v.HasTask u := by
  by_cases hu : u = t <;> simp [HasTask, addTask, hu]

@[simp] theorem hasProcess_addTask : (v.addTask c t).HasProcess d ↔ v.HasProcess d := by
  simp only [HasProcess, addTask, isSome_update_map]

@[simp] theorem hasPrim_addPrim : (v.addPrim p).HasPrim q ↔ q = p ∨ v.HasPrim q := by
  by_cases hq : q = p <;> simp [HasPrim, addPrim, hq]

@[simp] theorem hasPrim_dropPrim : (v.dropPrim p).HasPrim q ↔ q ≠ p ∧ v.HasPrim q := by
  by_cases hq : q = p <;> simp [HasPrim, dropPrim, hq]

@[simp] theorem hasThread_addThread : (v.addThread h).HasThread g ↔ g = h ∨ v.HasThread g := by
  by_cases hg : g = h <;> simp [HasThread, addThread, hg]

@[simp] theorem hasProcess_addProcess :
    (v.addProcess c).HasProcess d ↔ d = c ∨ v.HasProcess d := by
  by_cases hd : d = c <;> simp [HasProcess, addProcess, hd]

end View

theorem card_task_lt (k : Machine) : Fintype.card (TaskId k) < 2 ^ k.width := by
  have := k.fits
  simp only [Fintype.card_fin]
  omega

theorem card_prim_lt (k : Machine) : Fintype.card (PrimId k) < 2 ^ k.width := by
  have := k.fits
  simp only [Fintype.card_congr PrimId.equivSum, Fintype.card_sum, Fintype.card_fin]
  omega

namespace Wf

variable {P : Pointers k} {v : View k} {p : PrimId k} {t : TaskId k} {h : ThreadId k}
  {c : ProcessId k}

theorem nodup_actives (W : Wf P v) : v.actives.Nodup := by
  have hr : IsRing P.links .sActives (v.actives.map .tSchedList) := W.rings.ring rfl
  exact hr.nodup_nodes.of_map _

theorem notLinked_tStopped (W : Wf P v) (ht : v.HasTask t → P.tStopper t = none) :
    ¬v.Linked (.tStopped t) := by
  rintro ⟨p, l, hl, htl⟩
  obtain ⟨hT, hp⟩ := (W.stopped.mem hl).mp htl
  simp [ht hT] at hp

theorem notLinked_tHistory (W : Wf P v) (ht : v.HasTask t → P.tThread t = none) :
    ¬v.Linked (.tHistory t) := by
  rintro ⟨h, l, hl, htl⟩
  obtain ⟨hT, hh⟩ := (W.history.mem hl).mp htl
  simp [ht hT] at hh

theorem notLinked_pSiblings (W : Wf P v) (hp : v.HasPrim p → P.pOverridden p = none) :
    ¬v.Linked (.pSiblings p) := by
  rintro ⟨t, l, hl, hpl⟩
  obtain ⟨hP, ht⟩ := (W.overriders.mem hl).mp hpl
  simp [hp hP] at ht

theorem stop (W : Wf P v) (hp : v.HasPrim p) (ht : v.HasTask t) (hs : P.tStopper t = none)
    (hprc : P.pProcess p = P.tProcess t) : Wf (P.stop p t) (v.stop p t) := by
  obtain ⟨l, hl⟩ := Option.isSome_iff_exists.mp hp
  have hact : t ∈ v.actives := (W.actives t).mpr ⟨ht, hs⟩
  constructor
  · exact family_stop W.rings hl hact (W.notLinked_tStopped fun _ => hs)
  · have e : (v.stop p t).stopped = Function.update v.stopped p (some (l ++ [t])) := by
      simp [View.stop, hl]
    rw [e]
    exact W.stopped.join (card_task_lt k) hl ht hs (by simp)
  · exact W.overriders.congr (fun _ => View.hasPrim_stop) (fun _ _ => rfl) (fun _ _ => rfl)
  · exact W.history
  · exact W.tasks
  · intro u
    change u ∈ v.actives.erase t ↔ v.HasTask u ∧ Function.update P.tStopper t (some p) u = none
    rw [W.nodup_actives.mem_erase_iff, W.actives u]
    by_cases hu : u = t <;> simp [hu]
  · intro q
    rw [View.hasPrim_stop]
    exact W.free q
  · exact W.processes
  · exact W.threads
  · exact W.member
  · intro u q hu hq
    by_cases hut : u = t
    · subst hut
      simp only [Pointers.stop, Function.update_self, Option.some.injEq] at hq
      exact hq ▸ hprc
    · simp only [Pointers.stop, Function.update_of_ne hut] at hq
      exact W.waits u q hu hq
  · exact W.pSched
  · exact W.tSched

theorem resume (W : Wf P v) (ht : v.HasTask t) (hs : P.tStopper t = some p) :
    Wf (P.resume p t) (v.resume p t) := by
  obtain ⟨l, hl, htl⟩ := W.stopped.exists_list ht hs
  have hact : ¬v.Linked (.tSchedList t) := fun h => by simpa [hs] using ((W.actives t).mp h).2
  constructor
  · exact family_resume W.rings hl htl hact
  · have e : (v.resume p t).stopped = Function.update v.stopped p (some (l.erase t)) := by
      simp [View.resume, hl]
    rw [e]
    exact W.stopped.leave hl htl
  · exact W.overriders.congr (fun _ => View.hasPrim_resume) (fun _ _ => rfl) (fun _ _ => rfl)
  · exact W.history
  · exact W.tasks
  · intro u
    change u ∈ t :: v.actives ↔ v.HasTask u ∧ Function.update P.tStopper t none u = none
    rw [List.mem_cons, W.actives u]
    by_cases hu : u = t
    · simp [hu, ht]
    · simp [hu]
  · intro q
    rw [View.hasPrim_resume]
    exact W.free q
  · exact W.processes
  · exact W.threads
  · exact W.member
  · intro u q hu hq
    by_cases hut : u = t
    · simp [Pointers.resume, hut] at hq
    · simp only [Pointers.resume, Function.update_of_ne hut] at hq
      exact W.waits u q hu hq
  · exact W.pSched
  · exact W.tSched

theorem override (W : Wf P v) (hp : v.HasPrim p) (ht : v.HasTask t)
    (ho : P.pOverridden p = none) : Wf (P.override p t) (v.override p t) := by
  obtain ⟨l, hl⟩ := Option.isSome_iff_exists.mp ht
  constructor
  · exact family_override W.rings hl (W.notLinked_pSiblings fun _ => ho)
  · exact W.stopped.congr (fun _ => View.hasTask_override) (fun _ _ => rfl) (fun _ _ => rfl)
  · have e : (v.override p t).overriders = Function.update v.overriders t (some (p :: l)) := by
      simp [View.override, hl]
    rw [e]
    exact W.overriders.join (card_prim_lt k) hl hp ho (.refl _)
  · exact W.history.congr (fun _ => View.hasTask_override) (fun _ _ => rfl) (fun _ _ => rfl)
  · exact W.tasks.congr (fun _ => View.hasTask_override) (fun _ _ => rfl) (fun _ _ => rfl)
  · intro u
    rw [View.hasTask_override]
    exact W.actives u
  · intro q
    change Function.update v.free p false q = true ↔
      v.HasPrim q ∧ Function.update P.pOverridden p (some t) q = none
    by_cases hq : q = p
    · simp [hq]
    · simpa [hq] using W.free q
  · exact W.processes
  · exact W.threads
  · exact fun u hu => W.member u (View.hasTask_override.mp hu)
  · exact fun u q hu => W.waits u q (View.hasTask_override.mp hu)
  · exact W.pSched
  · exact W.tSched

theorem unoverride (W : Wf P v) (hp : v.HasPrim p) (ho : P.pOverridden p = some t) :
    Wf (P.unoverride p t) (v.unoverride p t) := by
  obtain ⟨l, hl, hpl⟩ := W.overriders.exists_list hp ho
  constructor
  · exact family_unoverride W.rings hl hpl
  · exact W.stopped.congr (fun _ => View.hasTask_unoverride) (fun _ _ => rfl) (fun _ _ => rfl)
  · have e : (v.unoverride p t).overriders = Function.update v.overriders t (some (l.erase p)) := by
      simp [View.unoverride, hl]
    rw [e]
    exact W.overriders.leave hl hpl
  · exact W.history.congr (fun _ => View.hasTask_unoverride) (fun _ _ => rfl) (fun _ _ => rfl)
  · exact W.tasks.congr (fun _ => View.hasTask_unoverride) (fun _ _ => rfl) (fun _ _ => rfl)
  · intro u
    rw [View.hasTask_unoverride]
    exact W.actives u
  · intro q
    change Function.update v.free p true q = true ↔
      v.HasPrim q ∧ Function.update P.pOverridden p none q = none
    by_cases hq : q = p
    · simp [hq, hp]
    · simpa [hq] using W.free q
  · exact W.processes
  · exact W.threads
  · exact fun u hu => W.member u (View.hasTask_unoverride.mp hu)
  · exact fun u q hu => W.waits u q (View.hasTask_unoverride.mp hu)
  · exact W.pSched
  · exact W.tSched

theorem leave (W : Wf P v) (ht : v.HasTask t) (hh : P.tThread t = some h) :
    Wf (P.leave h t) (v.leave h t) := by
  obtain ⟨l, hl, htl⟩ := W.history.exists_list ht hh
  have e : (v.leave h t).history = Function.update v.history h (some (l.erase t)) := by
    simp [View.leave, hl]
  exact { W with
    rings := family_leave W.rings hl htl
    history := e ▸ W.history.leave hl htl
    threads := fun g => by rw [View.hasThread_leave]; exact W.threads g
    tSched := fun g hg => W.tSched g (View.hasThread_leave.mp hg) }

theorem enter (W : Wf P v) (ht : v.HasTask t) (hh : v.HasThread h) (hn : P.tThread t = none) :
    Wf (P.enter h t) (v.enter h t) := by
  obtain ⟨l, hl⟩ := Option.isSome_iff_exists.mp hh
  have e : (v.enter h t).history = Function.update v.history h (some (t :: l)) := by
    simp [View.enter, hl]
  exact { W with
    rings := family_enter W.rings hl (W.notLinked_tHistory fun _ => hn)
    history := e ▸ W.history.join (card_task_lt k) hl ht hn (.refl _)
    threads := fun g => by rw [View.hasThread_enter]; exact W.threads g
    tSched := fun g hg => W.tSched g (View.hasThread_enter.mp hg) }

theorem addTask (W : Wf P v) (ht : ¬v.HasTask t) (hc : v.HasProcess c) :
    Wf (P.addTask c t) (v.addTask c t) := by
  obtain ⟨l, hl⟩ := Option.isSome_iff_exists.mp hc
  have hno : v.overriders t = none := by simpa [View.HasTask] using ht
  have hact : ¬v.Linked (.tSchedList t) := fun h => ht ((W.actives t).mp h).1
  have hsib : ¬v.Linked (.tSiblings t) := by
    rintro ⟨d, m, hm, htm⟩
    exact W.tasks.notMem_of_not ht hm htm
  have hold : ∀ {u}, v.HasTask u → u ≠ t := fun hu e => ht (e ▸ hu)
  constructor
  · exact family_addTask W.rings hl hno hact hsib (W.notLinked_tStopped fun h => absurd h ht)
      (W.notLinked_tHistory fun h => absurd h ht)
  · exact (W.stopped.register ht).congr (fun _ => View.hasTask_addTask) (fun _ _ => rfl)
      (fun _ _ => rfl)
  · exact W.overriders.create hno
  · exact (W.history.register ht).congr (fun _ => View.hasTask_addTask) (fun _ _ => rfl)
      (fun _ _ => rfl)
  · have e : (v.addTask c t).tasks = Function.update v.tasks c (some (t :: l)) := by
      simp [View.addTask, hl]
    have G := (W.tasks.register ht).join (card_task_lt k) hl (.inl rfl) (Function.update_self ..)
      (.refl _)
    rw [e]
    refine G.congr (fun _ => View.hasTask_addTask) (fun _ _ => ?_) (fun _ _ => rfl)
    rw [Function.update_idem]
    rfl
  · intro u
    change u ∈ t :: v.actives ↔ (v.addTask c t).HasTask u ∧ Function.update P.tStopper t none u = none
    rw [List.mem_cons, W.actives u, View.hasTask_addTask]
    by_cases hu : u = t <;> simp [hu]
  · exact W.free
  · intro d
    rw [View.hasProcess_addTask]
    exact W.processes d
  · exact W.threads
  · intro u hu
    by_cases hut : u = t
    · simp [Pointers.addTask, hut]
    · simpa [Pointers.addTask, hut] using W.member u ((View.hasTask_addTask.mp hu).resolve_left hut)
  · intro u q hu hq
    by_cases hut : u = t
    · simp [Pointers.addTask, hut] at hq
    · simp only [Pointers.addTask, Function.update_of_ne hut] at hq ⊢
      exact W.waits u q ((View.hasTask_addTask.mp hu).resolve_left hut) hq
  · exact fun d hd => W.pSched d (View.hasProcess_addTask.mp hd)
  · exact W.tSched

theorem addPrim (W : Wf P v) (hp : ¬v.HasPrim p) : Wf (P.addPrim c p) (v.addPrim p) := by
  have hno : v.stopped p = none := by simpa [View.HasPrim] using hp
  constructor
  · exact family_addPrim W.rings hno (W.notLinked_pSiblings fun h => absurd h hp)
  · exact W.stopped.create hno
  · exact (W.overriders.register hp).congr (fun _ => View.hasPrim_addPrim) (fun _ _ => rfl)
      (fun _ _ => rfl)
  · exact W.history
  · exact W.tasks
  · exact W.actives
  · intro q
    change Function.update v.free p true q = true ↔
      (v.addPrim p).HasPrim q ∧ Function.update P.pOverridden p none q = none
    rw [View.hasPrim_addPrim]
    by_cases hq : q = p
    · simp [hq]
    · simpa [hq] using W.free q
  · exact W.processes
  · exact W.threads
  · exact W.member
  · intro u q hu hq
    have hqp : q ≠ p := fun e => hp (e ▸ W.stopped.container hu hq)
    simpa [Pointers.addPrim, hqp] using W.waits u q hu hq
  · exact W.pSched
  · exact W.tSched

/-- A primitive that stops no task and overrides none may be forgotten. -/
theorem dropPrim (W : Wf P v) (hp : v.stopped p = some []) (ho : P.pOverridden p = none) :
    Wf P (v.dropPrim p) := by
  constructor
  · exact family_dropPrim W.rings
  · exact W.stopped.close hp
  · exact (W.overriders.forget ho).congr (fun _ => View.hasPrim_dropPrim) (fun _ _ => rfl)
      (fun _ _ => rfl)
  · exact W.history
  · exact W.tasks
  · exact W.actives
  · intro q
    change Function.update v.free p false q = true ↔ (v.dropPrim p).HasPrim q ∧ P.pOverridden q = none
    rw [View.hasPrim_dropPrim]
    by_cases hq : q = p
    · simp [hq]
    · simpa [hq] using W.free q
  · exact W.processes
  · exact W.threads
  · exact W.member
  · exact W.waits
  · exact W.pSched
  · exact W.tSched

theorem addThread (W : Wf P v) (hh : ¬v.HasThread h) : Wf (P.addThread h) (v.addThread h) := by
  have hno : v.history h = none := by simpa [View.HasThread] using hh
  have hlink : ¬v.Linked (.threadList h) := fun hm => hh ((W.threads h).mp hm)
  refine { W with
    rings := family_addThread W.rings hno hlink
    history := W.history.create hno
    threads := ?_
    tSched := ?_ }
  · intro g
    change g ∈ h :: v.threads ↔ _
    rw [View.hasThread_addThread, List.mem_cons, W.threads g]
  · intro g hg
    by_cases hgh : g = h
    · simp [Pointers.addThread, hgh]
    · simpa [Pointers.addThread, hgh] using W.tSched g ((View.hasThread_addThread.mp hg).resolve_left hgh)

theorem addProcess (W : Wf P v) (hc : ¬v.HasProcess c) : Wf (P.addProcess c) (v.addProcess c) := by
  have hno : v.tasks c = none := by simpa [View.HasProcess] using hc
  have hlink : ¬v.Linked (.pList c) := fun hm => hc ((W.processes c).mp hm)
  refine { W with
    rings := family_addProcess W.rings hno hlink
    tasks := W.tasks.create hno
    processes := ?_
    pSched := ?_ }
  · intro d
    change d ∈ c :: v.processes ↔ _
    rw [View.hasProcess_addProcess, List.mem_cons, W.processes d]
  · intro d hd
    by_cases hdc : d = c
    · simp [Pointers.addProcess, hdc]
    · simpa [Pointers.addProcess, hdc] using
        W.pSched d ((View.hasProcess_addProcess.mp hd).resolve_left hdc)

theorem empty (ha : IsRing P.links .sActives []) (hp : IsRing P.links .sProcesses [])
    (ht : IsRing P.links .sThreads []) : Wf P (View.empty : View k) := by
  have hrings : ∀ {n : Node k} {l}, (View.empty : View k).rings n = some l →
      l = [] ∧ IsRing P.links n [] := by
    intro n l hr
    cases n with
    | sActives => exact ⟨(Option.some.inj hr).symm, ha⟩
    | sProcesses => exact ⟨(Option.some.inj hr).symm, hp⟩
    | sThreads => exact ⟨(Option.some.inj hr).symm, ht⟩
    | _ => cases hr
  have hfamily : Family P.links (View.empty : View k).rings := by
    constructor
    · intro n l hr
      obtain ⟨rfl, h⟩ := hrings hr
      exact h
    · intro n n' l l' x hr hr' hx hx'
      obtain ⟨rfl, -⟩ := hrings hr
      obtain ⟨rfl, -⟩ := hrings hr'
      exact (List.mem_singleton.mp hx).symm.trans (List.mem_singleton.mp hx')
  have hT : ∀ t, ¬(View.empty : View k).HasTask t := fun t h => by cases h
  have hP : ∀ p, ¬(View.empty : View k).HasPrim p := fun p h => by cases h
  constructor
  · exact hfamily
  · exact .empty (fun _ => rfl) hT
  · exact .empty (fun _ => rfl) hP
  · exact .empty (fun _ => rfl) hT
  · exact .empty (fun _ => rfl) hT
  all_goals simp [View.empty, View.HasTask, View.HasPrim, View.HasProcess, View.HasThread]

end Wf

end KernelTk.Sched
