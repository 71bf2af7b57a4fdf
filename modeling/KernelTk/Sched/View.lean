import KernelTk.Sched.State

/-! # The lists of the scheduler

The abstract layer: a `View` is what the intrusive lists are for, a handful of lists of tasks,
primitives, processes and threads.

* **Views.** The active tasks, the processes and the threads of the scheduler; the tasks of a process; the
  tasks that a primitive has stopped; the primitives that override a task, and those that override none;
  the history of a thread.  An entry `none` of a view means that the object is not registered.
* **Rings.** `View.rings` is the table of rings that a view stands for; a memory represents the
  view when its link words form that family.
* **Loose nodes.** A node that is linked in no list of the view is loose (`View.loose`), so that it may be
  linked in; `View.Linked` says in which list a node is, field by field.
* **Edits.** Every edit of a view (`View.stop`, `View.resume`, ...) is carried out by the link
  operations of one function of `sched.c` (`family_stop`, `family_resume`, ...).  Each proof applies the
  updates of the family in the order of the source, and then compares two tables of rings
  (`family_of_eq`).
* **Forgetting.** A family may have more rings than the view: `family_dropPrim` forgets those of a
  primitive without touching the memory, as `process_unregister_prim` leaves the words of its lists. -/

namespace KernelTk.Sched

open CircularList (Links IsRing Family Loose)

variable {k : Machine}

/-- The lists of the scheduler. -/
structure View (k : Machine) where
  actives : List (TaskId k)
  processes : List (ProcessId k)
  threads : List (ThreadId k)
  tasks : ProcessId k → Option (List (TaskId k))
  stopped : PrimId k → Option (List (TaskId k))
  overriders : TaskId k → Option (List (PrimId k))
  history : ThreadId k → Option (List (TaskId k))
  /-- The registered primitives that override no task. -/
  free : PrimId k → Bool

namespace View

variable (v : View k)

/-- The ring of each head. -/
def rings : Node k → Option (List (Node k))
  | .sActives => some (v.actives.map .tSchedList)
  | .sProcesses => some (v.processes.map .pList)
  | .sThreads => some (v.threads.map .threadList)
  | .pTasks c => (v.tasks c).map (List.map .tSiblings)
  | .pStopped p => (v.stopped p).map (List.map .tStopped)
  | .tOverriders t => (v.overriders t).map (List.map .pSiblings)
  | .threadHistory h => (v.history h).map (List.map .tHistory)
  | .pSiblings p => bif v.free p then some [] else none
  | _ => none

section rings
variable (c : ProcessId k) (t : TaskId k) (p : PrimId k) (h : ThreadId k)

@[simp] theorem rings_sActives : v.rings .sActives = some (v.actives.map .tSchedList) := rfl
@[simp] theorem rings_sProcesses : v.rings .sProcesses = some (v.processes.map .pList) := rfl
@[simp] theorem rings_sThreads : v.rings .sThreads = some (v.threads.map .threadList) := rfl
@[simp] theorem rings_pTasks :
    v.rings (.pTasks c) = (v.tasks c).map (List.map .tSiblings) := rfl
@[simp] theorem rings_pStopped :
    v.rings (.pStopped p) = (v.stopped p).map (List.map .tStopped) := rfl
@[simp] theorem rings_tOverriders :
    v.rings (.tOverriders t) = (v.overriders t).map (List.map .pSiblings) := rfl
@[simp] theorem rings_threadHistory :
    v.rings (.threadHistory h) = (v.history h).map (List.map .tHistory) := rfl
@[simp] theorem rings_pSiblings :
    v.rings (.pSiblings p) = bif v.free p then some [] else none := rfl
@[simp] theorem rings_pList : v.rings (.pList c) = none := rfl
@[simp] theorem rings_pPrimitives : v.rings (.pPrimitives c) = none := rfl
@[simp] theorem rings_tSchedList : v.rings (.tSchedList t) = none := rfl
@[simp] theorem rings_tSiblings : v.rings (.tSiblings t) = none := rfl
@[simp] theorem rings_tStopped : v.rings (.tStopped t) = none := rfl
@[simp] theorem rings_tHistory : v.rings (.tHistory t) = none := rfl
@[simp] theorem rings_pOverriders : v.rings (.pOverriders p) = none := rfl
@[simp] theorem rings_threadList : v.rings (.threadList h) = none := rfl

end rings

/-- The task is registered. -/
def HasTask (t : TaskId k) : Prop := (v.overriders t).isSome

/-- The primitive is registered. -/
def HasPrim (p : PrimId k) : Prop := (v.stopped p).isSome

/-- The thread is registered. -/
def HasThread (h : ThreadId k) : Prop := (v.history h).isSome

/-- The process is registered. -/
def HasProcess (c : ProcessId k) : Prop := (v.tasks c).isSome

/-! ### Edits -/

/-- `t` leaves the active list and waits last for `p`. -/
def stop (p : PrimId k) (t : TaskId k) : View k :=
  { v with
    actives := v.actives.erase t
    stopped := Function.update v.stopped p ((v.stopped p).map (· ++ [t])) }

/-- `t` leaves the stopped list of `p` and becomes the first active task. -/
def resume (p : PrimId k) (t : TaskId k) : View k :=
  { v with
    actives := t :: v.actives
    stopped := Function.update v.stopped p ((v.stopped p).map (·.erase t)) }

/-- `p` becomes the first overrider of `t`. -/
def override (p : PrimId k) (t : TaskId k) : View k :=
  { v with
    overriders := Function.update v.overriders t ((v.overriders t).map (p :: ·))
    free := Function.update v.free p false }

/-- `p` leaves the overriders of `t`. -/
def unoverride (p : PrimId k) (t : TaskId k) : View k :=
  { v with
    overriders := Function.update v.overriders t ((v.overriders t).map (·.erase p))
    free := Function.update v.free p true }

/-- `t` leaves the history of `h`. -/
def leave (h : ThreadId k) (t : TaskId k) : View k :=
  { v with history := Function.update v.history h ((v.history h).map (·.erase t)) }

/-- `t` becomes the most recent task of `h`. -/
def enter (h : ThreadId k) (t : TaskId k) : View k :=
  { v with history := Function.update v.history h ((v.history h).map (t :: ·)) }

/-- A new task of `c`. -/
def addTask (c : ProcessId k) (t : TaskId k) : View k :=
  { v with
    actives := t :: v.actives
    tasks := Function.update v.tasks c ((v.tasks c).map (t :: ·))
    overriders := Function.update v.overriders t (some []) }

/-- A new primitive. -/
def addPrim (p : PrimId k) : View k :=
  { v with
    stopped := Function.update v.stopped p (some [])
    free := Function.update v.free p true }

/-- The primitive is forgotten. -/
def dropPrim (p : PrimId k) : View k :=
  { v with
    stopped := Function.update v.stopped p none
    free := Function.update v.free p false }

/-- A new thread. -/
def addThread (h : ThreadId k) : View k :=
  { v with
    threads := h :: v.threads
    history := Function.update v.history h (some []) }

/-- A new process. -/
def addProcess (c : ProcessId k) : View k :=
  { v with
    processes := c :: v.processes
    tasks := Function.update v.tasks c (some []) }

/-- Nothing is registered. -/
def empty : View k :=
  ⟨[], [], [], fun _ => none, fun _ => none, fun _ => none, fun _ => none, fun _ => false⟩

end View

/-! ### Loose nodes -/

/-- The node is linked in a list. -/
def View.Linked (v : View k) : Node k → Prop
  | .tSchedList t => t ∈ v.actives
  | .pList c => c ∈ v.processes
  | .threadList h => h ∈ v.threads
  | .tSiblings t => ∃ c l, v.tasks c = some l ∧ t ∈ l
  | .tStopped t => ∃ p l, v.stopped p = some l ∧ t ∈ l
  | .pSiblings p => ∃ t l, v.overriders t = some l ∧ p ∈ l
  | .tHistory t => ∃ h l, v.history h = some l ∧ t ∈ l
  | _ => False

theorem View.linked_of_mem {v : View k} {m n : Node k} {l : List (Node k)}
    (hr : v.rings m = some l) (hn : n ∈ l) : v.Linked n := by
  cases m with
  | sActives | sProcesses | sThreads =>
      obtain rfl := Option.some.inj hr
      obtain ⟨x, hx, rfl⟩ := List.mem_map.mp hn
      exact hx
  | pTasks | pStopped | tOverriders | threadHistory =>
      obtain ⟨l', hl', rfl⟩ := Option.map_eq_some_iff.mp hr
      obtain ⟨x, hx, rfl⟩ := List.mem_map.mp hn
      exact ⟨_, l', hl', hx⟩
  | pSiblings p =>
      cases hf : v.free p with
      | true =>
          simp only [rings_pSiblings, hf, cond_true, Option.some.injEq] at hr
          simp [← hr] at hn
      | false => simp [hf] at hr
  | _ => cases hr

/-- A node that is linked in no list and heads no list but possibly an empty one is loose. -/
theorem View.loose {v : View k} {n : Node k} (hn : ¬v.Linked n)
    (hhead : v.rings n = none ∨ v.rings n = some []) : Loose v.rings n := by
  intro m l hr hmem
  rcases List.mem_cons.mp hmem with rfl | hmem
  · rcases hhead with h | h
    · simp [h] at hr
    · exact ⟨rfl, Option.some.inj (hr.symm.trans h)⟩
  · exact absurd (v.linked_of_mem hr hmem) hn

/-! ### The edits, in memory -/

section family

variable {v : View k} {L : Links (Node k)} {p : PrimId k} {t : TaskId k} {h : ThreadId k}
  {c : ProcessId k}

theorem map_erase_tSchedList (l : List (TaskId k)) :
    (l.map Node.tSchedList).erase (.tSchedList t) = (l.erase t).map Node.tSchedList :=
  (List.map_erase (fun _ _ e => Node.tSchedList.inj e) l).symm

theorem map_erase_tStopped (l : List (TaskId k)) :
    (l.map Node.tStopped).erase (.tStopped t) = (l.erase t).map Node.tStopped :=
  (List.map_erase (fun _ _ e => Node.tStopped.inj e) l).symm

theorem map_erase_tHistory (l : List (TaskId k)) :
    (l.map Node.tHistory).erase (.tHistory t) = (l.erase t).map Node.tHistory :=
  (List.map_erase (fun _ _ e => Node.tHistory.inj e) l).symm

theorem map_erase_pSiblings (l : List (PrimId k)) :
    (l.map Node.pSiblings).erase (.pSiblings p) = (l.erase p).map Node.pSiblings :=
  (List.map_erase (fun _ _ e => Node.pSiblings.inj e) l).symm

/-- A family represents a view when it has the rings of the view, and possibly others. -/
theorem family_of_eq {R : Node k → Option (List (Node k))} (F : Family L R)
    (h : ∀ n, v.rings n = none ∨ v.rings n = R n) : Family L v.rings := by
  refine F.mono ?_
  intro n m hm
  rcases h n with hn | hn
  · simp [hn] at hm
  · exact hn ▸ hm

theorem family_stop {l : List (TaskId k)} (F : Family L v.rings) (hp : v.stopped p = some l)
    (ht : t ∈ v.actives) (hl : ¬v.Linked (.tStopped t)) :
    Family ((L.insertBefore (.pStopped p) (.tStopped t)).remove (.tSchedList t))
      (v.stop p t).rings := by
  have F₁ := F.insertBefore (h := .pStopped p) (l := l.map .tStopped) (by simp [hp])
    (v.loose hl (.inl rfl)) (by simp)
  have F₂ := F₁.remove (h := .sActives) (l := v.actives.map .tSchedList) (n := .tSchedList t)
    (by simp) (by simpa using ht)
  refine family_of_eq F₂ ?_
  intro n
  cases n with
  | pStopped q =>
      by_cases hq : q = p
      · subst hq
        simp [View.stop, hp]
      · simp [View.stop, hq]
  | pSiblings q => exact .inr (by simp [View.stop])
  | _ => simp [View.stop, map_erase_tSchedList]

theorem family_resume {l : List (TaskId k)} (F : Family L v.rings) (hp : v.stopped p = some l)
    (ht : t ∈ l) (hl : ¬v.Linked (.tSchedList t)) :
    Family ((L.insertAfter .sActives (.tSchedList t)).remove (.tStopped t))
      (v.resume p t).rings := by
  have F₁ := F.insertAfter (h := .sActives) (l := v.actives.map .tSchedList) (by simp)
    (v.loose hl (.inl rfl)) (by simp)
  have F₂ := F₁.remove (h := .pStopped p) (l := l.map .tStopped) (n := .tStopped t)
    (by simp [hp]) (by simpa using ht)
  refine family_of_eq F₂ ?_
  intro n
  cases n with
  | pStopped q =>
      by_cases hq : q = p
      · subst hq
        simp [View.resume, hp, map_erase_tStopped]
      · simp [View.resume, hq]
  | pSiblings q => exact .inr (by simp [View.resume])
  | _ => simp [View.resume]

theorem family_override {l : List (PrimId k)} (F : Family L v.rings)
    (ht : v.overriders t = some l) (hl : ¬v.Linked (.pSiblings p)) :
    Family (L.insertAfter (.tOverriders t) (.pSiblings p)) (v.override p t).rings := by
  have hhead : v.rings (.pSiblings p) = none ∨ v.rings (.pSiblings p) = some [] := by
    cases hf : v.free p <;> simp [hf]
  have F₁ := F.insertAfter (h := .tOverriders t) (l := l.map .pSiblings)
    (by simp [ht]) (v.loose hl hhead) (by simp)
  refine family_of_eq F₁ ?_
  intro n
  cases n with
  | tOverriders u =>
      by_cases hu : u = t
      · subst hu
        simp [View.override, ht]
      · simp [View.override, hu]
  | pSiblings q =>
      by_cases hq : q = p
      · simp [View.override, hq]
      · exact .inr (by simp [View.override, hq])
  | _ => simp [View.override]

theorem family_unoverride {l : List (PrimId k)} (F : Family L v.rings)
    (ht : v.overriders t = some l) (hp : p ∈ l) :
    Family (L.remove (.pSiblings p)) (v.unoverride p t).rings := by
  have F₁ := F.remove (h := .tOverriders t) (l := l.map .pSiblings) (n := .pSiblings p)
    (by simp [ht]) (by simpa using hp)
  refine family_of_eq F₁ ?_
  intro n
  cases n with
  | tOverriders u =>
      by_cases hu : u = t
      · subst hu
        simp [View.unoverride, ht, map_erase_pSiblings]
      · simp [View.unoverride, hu]
  | pSiblings q =>
      by_cases hq : q = p
      · simp [View.unoverride, hq]
      · exact .inr (by simp [View.unoverride, hq])
  | _ => simp [View.unoverride]

theorem family_leave {l : List (TaskId k)} (F : Family L v.rings) (hh : v.history h = some l)
    (ht : t ∈ l) : Family (L.remove (.tHistory t)) (v.leave h t).rings := by
  have F₁ := F.remove (h := .threadHistory h) (l := l.map .tHistory) (n := .tHistory t)
    (by simp [hh]) (by simpa using ht)
  refine family_of_eq F₁ ?_
  intro n
  cases n with
  | threadHistory g =>
      by_cases hg : g = h
      · subst hg
        simp [View.leave, hh, map_erase_tHistory]
      · simp [View.leave, hg]
  | pSiblings q => exact .inr (by simp [View.leave])
  | _ => simp [View.leave]

theorem family_enter {l : List (TaskId k)} (F : Family L v.rings) (hh : v.history h = some l)
    (hl : ¬v.Linked (.tHistory t)) :
    Family (L.insertAfter (.threadHistory h) (.tHistory t)) (v.enter h t).rings := by
  have F₁ := F.insertAfter (h := .threadHistory h) (l := l.map .tHistory)
    (by simp [hh]) (v.loose hl (.inl rfl)) (by simp)
  refine family_of_eq F₁ ?_
  intro n
  cases n with
  | threadHistory g =>
      by_cases hg : g = h
      · subst hg
        simp [View.enter, hh]
      · simp [View.enter, hg]
  | pSiblings q => exact .inr (by simp [View.enter])
  | _ => simp [View.enter]

/-- The links of `process_register_task`. -/
def addTaskLinks (c : ProcessId k) (t : TaskId k) (L : Links (Node k)) : Links (Node k) :=
  ((((L.insertAfter .sActives (.tSchedList t)).insertAfter (.pTasks c) (.tSiblings t)).init
    (.tOverriders t)).init (.tStopped t)).init (.tHistory t)

theorem family_addTask {l : List (TaskId k)} (F : Family L v.rings) (hc : v.tasks c = some l)
    (ht : v.overriders t = none) (h₁ : ¬v.Linked (.tSchedList t)) (h₂ : ¬v.Linked (.tSiblings t))
    (h₃ : ¬v.Linked (.tStopped t)) (h₄ : ¬v.Linked (.tHistory t)) :
    Family (addTaskLinks c t L) (v.addTask c t).rings := by
  have l₁ : Loose v.rings (.tSchedList t) := v.loose h₁ (.inl rfl)
  have l₂ : Loose v.rings (.tSiblings t) := v.loose h₂ (.inl rfl)
  have l₃ : Loose v.rings (.tOverriders t) := v.loose id (.inl (by simp [ht]))
  have l₄ : Loose v.rings (.tStopped t) := v.loose h₃ (.inl rfl)
  have l₅ : Loose v.rings (.tHistory t) := v.loose h₄ (.inl rfl)
  have F₁ := F.insertAfter (h := .sActives) (l := v.actives.map .tSchedList) (by simp)
    l₁ (by simp)
  have F₂ := F₁.insertAfter (h := .pTasks c) (l := l.map .tSiblings) (by simp [hc])
    (l₂.drop.add (by simp)) (by simp)
  have F₃ := F₂.init ((l₃.drop.add (by simp)).drop.add (by simp))
  have F₄ := F₃.init (((l₄.drop.add (by simp)).drop.add (by simp)).add (by simp))
  have F₅ := F₄.init ((((l₅.drop.add (by simp)).drop.add (by simp)).add (by simp)).add (by simp))
  refine family_of_eq F₅ ?_
  intro n
  cases n with
  | pTasks d =>
      by_cases hd : d = c
      · subst hd
        simp [View.addTask, hc]
      · simp [View.addTask, hd]
  | tOverriders u =>
      by_cases hu : u = t
      · subst hu
        simp [View.addTask]
      · simp [View.addTask, hu]
  | _ => simp [View.addTask]

/-- The links of `process_register_prim`. -/
def addPrimLinks (p : PrimId k) (L : Links (Node k)) : Links (Node k) :=
  ((L.init (.pSiblings p)).init (.pStopped p)).init (.pOverriders p)

theorem family_addPrim (F : Family L v.rings) (hp : v.stopped p = none)
    (hl : ¬v.Linked (.pSiblings p)) : Family (addPrimLinks p L) (v.addPrim p).rings := by
  have hhead : v.rings (.pSiblings p) = none ∨ v.rings (.pSiblings p) = some [] := by
    cases hf : v.free p <;> simp [hf]
  have l₂ : Loose v.rings (.pStopped p) := v.loose id (.inl (by simp [hp]))
  have l₃ : Loose v.rings (.pOverriders p) := v.loose id (.inl rfl)
  have F₁ := F.init (v.loose hl hhead)
  have F₂ := F₁.init (l₂.add (by simp))
  have F₃ := F₂.init ((l₃.add (by simp)).add (by simp))
  refine family_of_eq F₃ ?_
  intro n
  cases n with
  | pStopped q =>
      by_cases hq : q = p
      · subst hq
        simp [View.addPrim]
      · simp [View.addPrim, hq]
  | pSiblings q =>
      by_cases hq : q = p
      · subst hq
        simp [View.addPrim]
      · simp [View.addPrim, hq]
  | _ => simp [View.addPrim]

theorem family_dropPrim (F : Family L v.rings) : Family L (v.dropPrim p).rings := by
  refine family_of_eq F ?_
  intro n
  cases n with
  | pStopped q =>
      by_cases hq : q = p
      · simp [View.dropPrim, hq]
      · simp [View.dropPrim, hq]
  | pSiblings q =>
      by_cases hq : q = p
      · simp [View.dropPrim, hq]
      · simp [View.dropPrim, hq]
  | _ => simp [View.dropPrim]

/-- The links of `sched_register_thread`. -/
def addThreadLinks (h : ThreadId k) (L : Links (Node k)) : Links (Node k) :=
  (L.insertAfter .sThreads (.threadList h)).init (.threadHistory h)

theorem family_addThread (F : Family L v.rings) (hh : v.history h = none)
    (hl : ¬v.Linked (.threadList h)) : Family (addThreadLinks h L) (v.addThread h).rings := by
  have l₂ : Loose v.rings (.threadHistory h) := v.loose id (.inl (by simp [hh]))
  have F₁ := F.insertAfter (h := .sThreads) (l := v.threads.map .threadList) (by simp)
    (v.loose hl (.inl rfl)) (by simp)
  have F₂ := F₁.init (l₂.drop.add (by simp))
  refine family_of_eq F₂ ?_
  intro n
  cases n with
  | threadHistory g =>
      by_cases hg : g = h
      · subst hg
        simp [View.addThread]
      · simp [View.addThread, hg]
  | _ => simp [View.addThread]

/-- The links of `sched_register_process`, before those of its primitive. -/
def addProcessLinks (c : ProcessId k) (L : Links (Node k)) : Links (Node k) :=
  ((L.insertAfter .sProcesses (.pList c)).init (.pTasks c)).init (.pPrimitives c)

theorem family_addProcess (F : Family L v.rings) (hc : v.tasks c = none)
    (hl : ¬v.Linked (.pList c)) : Family (addProcessLinks c L) (v.addProcess c).rings := by
  have l₂ : Loose v.rings (.pTasks c) := v.loose id (.inl (by simp [hc]))
  have l₃ : Loose v.rings (.pPrimitives c) := v.loose id (.inl rfl)
  have F₁ := F.insertAfter (h := .sProcesses) (l := v.processes.map .pList) (by simp)
    (v.loose hl (.inl rfl)) (by simp)
  have F₂ := F₁.init (l₂.drop.add (by simp))
  have F₃ := F₂.init ((l₃.drop.add (by simp)).add (by simp))
  refine family_of_eq F₃ ?_
  intro n
  cases n with
  | pTasks d =>
      by_cases hd : d = c
      · subst hd
        simp [View.addProcess]
      · simp [View.addProcess, hd]
  | _ => simp [View.addProcess]

end family

end KernelTk.Sched
