import KernelTk.Lib.RingTable
import KernelTk.Sched.Status
import KernelTk.Sched.Execution

/-! # The tasks of the processes

The lists through which the scheduler finds a task: `s_actives`, the `p_tasks` of its process and
the `p_stopped` of its stopper.

* **Ghosts.** `process_unregister_task` leaves a task in `p_tasks`: `taskLinked hist t` says that
  the task is there, registered or not, and `OnLinked` that calls are made on such tasks.  Such a task
  is registered again only after its process has been unregistered, which empties the list.
* **Invariant.** `Members P K R A M W` : the three kinds of lists agree with `t_process` and
  `t_stopper`, for the linked tasks `K` and the registered ones `R`.  It is made of three tables of
  rings, one for each kind, and not of a family of all rings, because the histories and the overriders
  may be broken meanwhile.
* **Single tasks.** A linked task that is not active is linked to itself by `t_sched_list`, so that it may
  be unlinked again without harm (`Members.remove_actives`).
* **Moves.** A move changes `s_actives` by `Move.actives` (`Members.stop`, `Members.resume`,
  `Members.unlink`, `Members.addTask`), and leaves the tables whose zones it does not touch.
* **Walks.** Those of `sched_pause_process`, `process_unregister_prim` and
  `sched_unregister_process` visit the members of one list (`unlinkTask` is a turn of the last). -/

namespace KernelTk.Sched

open Transition
open CircularList (Links IsRing RingTable Shape SameZone Zoned)

variable {k : Machine} {policy : Policy k} {hist : Hist k} {s s' : State k} {c : Call k}
  {r : BitVec 8} {p : PrimId k} {t u : TaskId k} {h : ThreadId k} {d : ProcessId k}
  {T : ThreadId k → Prop}

/-- The task is linked in the `p_tasks` of its process. -/
def taskLinked : Hist k → TaskId k → Bool
  | [], _ => false
  | e :: hist, t =>
      match e.call with
      | .registerTask _ u => t == u || taskLinked hist t
      | .unregisterProcess d => (e.pre.task t).tProcess != some d && taskLinked hist t
      | _ => taskLinked hist t

/-- Objects are registered once, tasks in a registered process that they are not linked in, and
calls are made on registered primitives, registered processes and linked tasks. -/
def OnLinked (hist : Hist k) (s : State k) (c : Call k) : Prop :=
  fresh hist c = true ∧ onRegistered hist c = true ∧ match c with
    | .registerTask d t => processRegistered hist d = true ∧ taskLinked hist t = false
    | .pauseProcess d | .unregisterProcess d => processRegistered hist d = true
    | .stopThread _ h | .mutexLock _ h | .semTake _ h | .unregisterTask h =>
        ∀ t, (s.thread h).tTask = some t → taskLinked hist t = true
    | .resumeTask t => taskLinked hist t = true
    | _ => True

instance (hist : Hist k) (s : State k) (c : Call k) : Decidable (OnLinked hist s c) := by
  induction c using Call.casesOn <;> exact inferInstanceAs (Decidable (_ ∧ _ ∧ _))

/-- One turn of the loop of `sched_unregister_process`. -/
def unlinkTask (n : Node k) (s : State k) : Except Fault (State k) := do
  let task ← deref (containerOf n tSiblingsOffset).task?
  if (s.task task).tStatus = schedStatusActive then
    .ok (s.modLinks fun l => l.removeUnsafe (.tSchedList task))
  else .ok s

/-! ### The invariant -/

theorem init_zone {n : Node k} {z : Zone} (hz : n.zone ≠ z) (L : Links (Node k)) :
    SameZone Node.zone z L (L.init n) :=
  Zoned.init_same hz L

theorem activesShape : Shape (fun _ : Unit => Node.sActives (k := k)) Node.tSchedList where
  head_inj := fun _ => rfl
  node_inj := Node.tSchedList.inj
  ne := fun _ _ => nofun

theorem tasksShape : Shape (Node.pTasks (k := k)) Node.tSiblings where
  head_inj := Node.pTasks.inj
  node_inj := Node.tSiblings.inj
  ne := fun _ _ => nofun

theorem stoppedShape : Shape (Node.pStopped (k := k)) Node.tStopped where
  head_inj := Node.pStopped.inj
  node_inj := Node.tStopped.inj
  ne := fun _ _ => nofun

/-- The lists of the tasks of the processes, when a task that is in none of them is registered. -/
theorem Zones.tasks_addTask {P : Pointers k} {M : ProcessId k → Option (List (TaskId k))}
    {l : List (TaskId k)} (Z : Zones P T)
    (B : RingTable P.links Node.pTasks Node.tSiblings M (fun _ => False)) (hl : M d = some l)
    (hout : ∀ e m, M e = some m → t ∉ m) :
    RingTable (P.addTask d t).links Node.pTasks Node.tSiblings
      (Function.update M d (some (t :: l))) (fun _ => False) := by
  have hz := Z.links.insertAfter_same (h := Node.sActives) (n := Node.tSchedList t) (z := .tasks)
    trivial rfl (fun e => nomatch e)
  have hz' : ∀ L : Links (Node k), SameZone Node.zone .tasks L
      (((L.init (.tOverriders t)).init (.tStopped t)).init (.tHistory t)) := fun L =>
    ((init_zone (n := Node.tOverriders t) (z := Zone.tasks) nofun L).trans
      (init_zone (n := Node.tStopped t) (z := Zone.tasks) nofun _)).trans
        (init_zone (n := Node.tHistory t) (z := Zone.tasks) nofun _)
  have B₁ : RingTable (P.links.insertAfter .sActives (.tSchedList t)) Node.pTasks Node.tSiblings M
      (fun _ => False) :=
    B.congr (fun _ _ => id) (fun _ => id) (fun c _ => hz (.pTasks c) rfl)
      fun u => hz (.tSiblings u) rfl
  exact (B₁.insertAfter tasksShape hl hout).congr (fun _ _ => id) nofun
    (fun c _ => hz' _ (.pTasks c) rfl) fun u => hz' _ (.tSiblings u) rfl

theorem Zones.tasks_addProcess {P : Pointers k} {M : ProcessId k → Option (List (TaskId k))}
    (Z : Zones P T) (B : RingTable P.links Node.pTasks Node.tSiblings M (fun _ => False))
    (hd : M d = none) :
    RingTable (P.addProcess d).links Node.pTasks Node.tSiblings (Function.update M d (some []))
      (fun _ => False) := by
  have hz := Z.links.insertAfter_same (h := Node.sProcesses) (n := Node.pList d) (z := .tasks)
    trivial rfl (fun e => nomatch e)
  have hz' := init_zone (n := Node.pPrimitives d) (z := Zone.tasks) nofun
    ((P.links.insertAfter .sProcesses (.pList d)).init (.pTasks d))
  have B₁ : RingTable _ Node.pTasks Node.tSiblings M (fun _ => False) :=
    B.congr (fun _ _ => id) (fun _ => id) (fun c _ => hz (.pTasks c) rfl)
      fun u => hz (.tSiblings u) rfl
  exact (B₁.initHead tasksShape d (by simp [hd])).congr (fun _ _ => id) (fun _ => id)
    (fun c _ => hz' (.pTasks c) rfl) fun u => hz' (.tSiblings u) rfl

/-- The list of the active tasks `A`, those of the processes and those of the stoppers, for the
linked tasks `K` and the registered ones `R`. -/
structure Members (P : Pointers k) (K R : TaskId k → Prop) (A : List (TaskId k))
    (M : ProcessId k → Option (List (TaskId k))) (W : PrimId k → Option (List (TaskId k))) : Prop where
  actives : RingTable P.links (fun _ : Unit => Node.sActives) Node.tSchedList (fun _ => some A)
    (fun t => K t ∧ t ∉ A)
  tasks : RingTable P.links Node.pTasks Node.tSiblings M (fun _ => False)
  stopped : RingTable P.links Node.pStopped Node.tStopped W (fun _ => False)
  active : ∀ t ∈ A, K t ∧ P.tStopper t = none
  running : ∀ t, R t → P.tStopper t = none → t ∈ A
  registered : ∀ t, R t → K t
  member : ∀ {c l t}, M c = some l → (t ∈ l ↔ K t ∧ P.tProcess t = some c)
  waits : ∀ {p l t}, W p = some l → (t ∈ l ↔ K t ∧ P.tStopper t = some p)
  process : ∀ t, K t → ∃ c, P.tProcess t = some c ∧ (M c).isSome
  stopper : ∀ t p, K t → P.tStopper t = some p → (W p).isSome ∧ P.pProcess p = P.tProcess t

/-- What a move does to the list of the active tasks. -/
def Move.actives (A : List (TaskId k)) : Move k → List (TaskId k)
  | .edit (.stop _ t) | .unlink t | .unlinkUnsafe t => A.erase t
  | .edit (.resume _ t) | .addTask _ t => t :: A
  | _ => A

namespace Members

variable {P P' : Pointers k} {K R R' : TaskId k → Prop} {A : List (TaskId k)}
  {M : ProcessId k → Option (List (TaskId k))} {W : PrimId k → Option (List (TaskId k))}

theorem nodup (B : Members P K R A M W) : A.Nodup :=
  (B.actives.ring (a := ()) rfl).nodup_nodes.of_map _

theorem frame (B : Members P K R A M W) (hactives : SameZone Node.zone .actives P.links P'.links)
    (htasks : SameZone Node.zone .tasks P.links P'.links)
    (hstopped : SameZone Node.zone .stopped P.links P'.links) (h₁ : P'.tProcess = P.tProcess)
    (h₂ : P'.tStopper = P.tStopper)
    (h₃ : ∀ p, (W p).isSome → P'.pProcess p = P.pProcess p) : Members P' K R A M W where
  actives := B.actives.congr (fun _ _ => id) (fun _ => id) (fun _ _ => hactives .sActives rfl)
    fun t => hactives (.tSchedList t) rfl
  tasks := B.tasks.congr (fun _ _ => id) (fun _ => id) (fun c _ => htasks (.pTasks c) rfl)
    fun t => htasks (.tSiblings t) rfl
  stopped := B.stopped.congr (fun _ _ => id) (fun _ => id) (fun p _ => hstopped (.pStopped p) rfl)
    fun t => hstopped (.tStopped t) rfl
  active := by
    rw [h₂]
    exact B.active
  running := by
    rw [h₂]
    exact B.running
  registered := B.registered
  member := by
    rw [h₁]
    exact B.member
  waits := by
    rw [h₂]
    exact B.waits
  process := by
    rw [h₁]
    exact B.process
  stopper := by
    rw [h₁, h₂]
    intro t p ht hp
    obtain ⟨hW, hprc⟩ := B.stopper t p ht hp
    exact ⟨hW, (h₃ p hW).trans hprc⟩

theorem fewer (B : Members P K R A M W) (hR : ∀ t, R' t → R t) : Members P K R' A M W :=
  { B with
    running := fun t ht => B.running t (hR t ht)
    registered := fun t ht => B.registered t (hR t ht) }

/-- A linked task that is not active is linked to itself, so that it may be unlinked again. -/
theorem remove_actives {L : Links (Node k)}
    (B : RingTable L (fun _ : Unit => Node.sActives) Node.tSchedList (fun _ => some A)
      (fun t => K t ∧ t ∉ A)) (ht : K t) :
    RingTable (L.remove (.tSchedList t)) (fun _ : Unit => Node.sActives) Node.tSchedList
      (fun _ => some (A.erase t)) (fun u => K u ∧ u ∉ A.erase t) := by
  by_cases hmem : t ∈ A
  · have B' := B.remove activesShape (a := ()) rfl hmem
    have e : Function.update (fun _ : Unit => some A) () (some (A.erase t)) =
        fun _ => some (A.erase t) := by
      funext a
      simp
    rw [e] at B'
    refine B'.weaken fun u hu => ?_
    by_cases hut : u = t
    · exact .inl hut
    · exact .inr ⟨hu.1, fun h => hu.2 ((List.mem_erase_of_ne hut).mpr h)⟩
  · rw [List.erase_of_not_mem hmem, B.remove_single ⟨ht, hmem⟩]
    exact B

/-- A task becomes active: it was in no list, or linked to itself. -/
theorem insert_actives {L : Links (Node k)}
    (B : RingTable L (fun _ : Unit => Node.sActives) Node.tSchedList (fun _ => some A)
      (fun t => K t ∧ t ∉ A)) (ht : t ∉ A) :
    RingTable (L.insertAfter .sActives (.tSchedList t)) (fun _ : Unit => Node.sActives)
      Node.tSchedList (fun _ => some (t :: A)) (fun u => (u = t ∨ K u) ∧ u ∉ t :: A) := by
  have B' := B.insertAfter activesShape (a := ()) rfl (b := t) fun _ l hl => Option.some.inj hl ▸ ht
  have e : Function.update (fun _ : Unit => some A) () (some (t :: A)) = fun _ => some (t :: A) := by
    funext a
    simp
  rw [e] at B'
  refine B'.weaken fun u hu => ?_
  rw [List.mem_cons, not_or] at hu
  exact ⟨hu.2.1, hu.1.resolve_left hu.2.1, hu.2.2⟩

section edits

variable (Z : Zones P T) (B : Members P K R A M W)
include B

theorem member_process (ht : K t) : P.tProcess t ≠ none := by
  obtain ⟨c, hc, -⟩ := B.process t ht
  simp [hc]

theorem stoppers (ht : K t) (hs : P.tStopper t = some p) : ∃ l, W p = some l ∧ t ∈ l := by
  obtain ⟨l, hl⟩ := Option.isSome_iff_exists.mp (B.stopper t p ht hs).1
  exact ⟨l, hl, (B.waits hl).mpr ⟨ht, hs⟩⟩

include Z

theorem stop (ht : K t) (hp : (W p).isSome) (hsame : P.pProcess p = P.tProcess t)
    (hs : P.tStopper t = none) : ∃ l, W p = some l ∧
      Members (P.stop p t) K R (Move.actives A (.edit (.stop p t))) M
        (Function.update W p (some (l ++ [t]))) := by
  obtain ⟨l, hl⟩ := Option.isSome_iff_exists.mp hp
  refine ⟨l, hl, ?_⟩
  have hprc : P.tProcess t ≠ none := B.member_process ht
  have hpp : P.pProcess p ≠ none := hsame ▸ hprc
  have hout : ∀ q m, W q = some m → t ∉ m := by
    intro q m hm hmem
    cases hs.symm.trans ((B.waits hm).mp hmem).2
  have Z₁ := (Z.links.insertBefore (h := Node.pStopped p) (n := Node.tStopped t) hpp rfl).absorb hprc
  have hsame₁ : ∀ z, z ≠ .stopped → SameZone Node.zone z P.links
      (P.links.insertBefore (.pStopped p) (.tStopped t)) := fun z hz =>
    Z.links.insertBefore_same (h := Node.pStopped p) (n := Node.tStopped t) hpp rfl (Ne.symm hz)
  have hsame₂ : ∀ z, z ≠ .actives → SameZone Node.zone z
      (P.links.insertBefore (.pStopped p) (.tStopped t)) (P.stop p t).links := fun z hz =>
    Z₁.remove_same (n := Node.tSchedList t) hprc (Ne.symm hz)
  have hst : ∀ u, u ≠ t → (P.stop p t).tStopper u = P.tStopper u := fun u hu =>
    Function.update_of_ne hu ..
  have hself : (P.stop p t).tStopper t = some p := Function.update_self ..
  constructor
  · refine remove_actives (L := P.links.insertBefore (.pStopped p) (.tStopped t)) ?_ ht
    have hz := hsame₁ .actives nofun
    exact B.actives.congr (fun _ _ => id) (fun _ => id) (fun _ _ => hz .sActives rfl)
      fun u => hz (.tSchedList u) rfl
  · have hz := (hsame₁ .tasks nofun).trans (hsame₂ .tasks nofun)
    exact B.tasks.congr (fun _ _ => id) (fun _ => id) (fun c _ => hz (.pTasks c) rfl)
      fun u => hz (.tSiblings u) rfl
  · have hz := hsame₂ .stopped nofun
    refine (B.stopped.insertBefore stoppedShape hl hout).congr (fun _ _ => id) nofun ?_ ?_
    · exact fun q _ => hz (.pStopped q) rfl
    · exact fun u => hz (.tStopped u) rfl
  · intro u hu
    have hut : u ≠ t := ((B.nodup.mem_erase_iff).mp hu).1
    rw [hst u hut]
    exact B.active u (List.mem_of_mem_erase hu)
  · intro u hu hnone
    have hut : u ≠ t := by
      rintro rfl
      cases hself.symm.trans hnone
    rw [hst u hut] at hnone
    exact (List.mem_erase_of_ne hut).mpr (B.running u hu hnone)
  · exact B.registered
  · exact B.member
  · intro q m u hm
    by_cases hq : q = p
    · subst hq
      rw [Function.update_self, Option.some.injEq] at hm
      subst hm
      by_cases hut : u = t
      · subst hut
        simp [hself, ht]
      · rw [hst u hut, List.mem_append, List.mem_singleton, or_iff_left hut]
        exact B.waits hl
    · rw [Function.update_of_ne hq] at hm
      by_cases hut : u = t
      · subst hut
        rw [hself]
        exact iff_of_false (hout q m hm) fun h => hq (Option.some.inj h.2).symm
      · rw [hst u hut]
        exact B.waits hm
  · exact B.process
  · intro u q hu hq
    by_cases hut : u = t
    · subst hut
      obtain rfl := Option.some.inj (hself.symm.trans hq)
      exact ⟨by simp, hsame⟩
    · rw [hst u hut] at hq
      obtain ⟨hW, hprc⟩ := B.stopper u q hu hq
      refine ⟨?_, hprc⟩
      by_cases hqp : q = p
      · simp [hqp]
      · simpa [hqp] using hW

theorem resume (ht : K t) (hs : P.tStopper t = some p) : ∃ l, W p = some l ∧ t ∈ l ∧
    Members (P.resume p t) K R (Move.actives A (.edit (.resume p t))) M
      (Function.update W p (some (l.erase t))) := by
  obtain ⟨l, hl, hmem⟩ := B.stoppers ht hs
  refine ⟨l, hl, hmem, ?_⟩
  have hprc : P.tProcess t ≠ none := B.member_process ht
  have htA : t ∉ A := fun h => by cases hs.symm.trans (B.active t h).2
  have Z₁ := (Z.links.insertAfter (h := Node.sActives) (n := Node.tSchedList t) trivial rfl).absorb
    hprc
  have hsame₁ : ∀ z, z ≠ .actives → SameZone Node.zone z P.links
      (P.links.insertAfter .sActives (.tSchedList t)) := fun z hz =>
    Z.links.insertAfter_same (h := Node.sActives) (n := Node.tSchedList t) trivial rfl (Ne.symm hz)
  have hsame₂ : ∀ z, z ≠ .stopped → SameZone Node.zone z
      (P.links.insertAfter .sActives (.tSchedList t)) (P.resume p t).links := fun z hz =>
    Z₁.remove_same (n := Node.tStopped t) hprc (Ne.symm hz)
  have hst : ∀ u, u ≠ t → (P.resume p t).tStopper u = P.tStopper u := fun u hu =>
    Function.update_of_ne hu ..
  have hself : (P.resume p t).tStopper t = none := Function.update_self ..
  constructor
  · have hz := hsame₂ .actives nofun
    refine (insert_actives B.actives htA).congr (fun _ _ => id) ?_ (fun _ _ => hz .sActives rfl)
      fun u => hz (.tSchedList u) rfl
    exact fun u hu => ⟨.inr hu.1, hu.2⟩
  · have hz := (hsame₁ .tasks nofun).trans (hsame₂ .tasks nofun)
    exact B.tasks.congr (fun _ _ => id) (fun _ => id) (fun c _ => hz (.pTasks c) rfl)
      fun u => hz (.tSiblings u) rfl
  · have hz := hsame₁ .stopped nofun
    have B₁ : RingTable (P.links.insertAfter .sActives (.tSchedList t)) Node.pStopped Node.tStopped W
        (fun _ => False) :=
      B.stopped.congr (fun _ _ => id) (fun _ => id) (fun q _ => hz (.pStopped q) rfl)
        fun u => hz (.tStopped u) rfl
    exact (B₁.remove stoppedShape hl hmem).weaken nofun
  · intro u hu
    rcases List.mem_cons.mp hu with rfl | hu
    · exact ⟨ht, hself⟩
    · have hut : u ≠ t := fun e => htA (e ▸ hu)
      rw [hst u hut]
      exact B.active u hu
  · intro u hu hnone
    by_cases hut : u = t
    · exact hut ▸ List.mem_cons_self
    · rw [hst u hut] at hnone
      exact List.mem_cons_of_mem _ (B.running u hu hnone)
  · exact B.registered
  · exact B.member
  · have hnd : l.Nodup := (B.stopped.ring hl).nodup_nodes.of_map _
    intro q m u hm
    by_cases hut : u = t
    · subst hut
      rw [hself]
      refine iff_of_false (fun hum => ?_) nofun
      by_cases hq : q = p
      · subst hq
        rw [Function.update_self, Option.some.injEq] at hm
        exact absurd rfl ((hnd.mem_erase_iff).mp (hm ▸ hum)).1
      · rw [Function.update_of_ne hq] at hm
        exact hq (Option.some.inj (((B.waits hm).mp hum).2.symm.trans hs))
    · rw [hst u hut]
      by_cases hq : q = p
      · subst hq
        rw [Function.update_self, Option.some.injEq] at hm
        rw [← hm, List.mem_erase_of_ne hut]
        exact B.waits hl
      · rw [Function.update_of_ne hq] at hm
        exact B.waits hm
  · exact B.process
  · intro u q hu hq
    have hut : u ≠ t := by
      rintro rfl
      cases hself.symm.trans hq
    rw [hst u hut] at hq
    obtain ⟨hW, hprc⟩ := B.stopper u q hu hq
    refine ⟨?_, hprc⟩
    by_cases hqp : q = p
    · simp [hqp]
    · simpa [hqp] using hW

theorem unlink (ht : K t) (hR : ¬R t) :
    Members { P with links := P.links.remove (.tSchedList t) } K R
      (Move.actives A (.unlink t)) M W := by
  have hprc : P.tProcess t ≠ none := B.member_process ht
  have hsame : ∀ z, z ≠ .actives → SameZone Node.zone z P.links
      (P.links.remove (.tSchedList t)) := fun z hz =>
    Z.links.remove_same (n := Node.tSchedList t) hprc (Ne.symm hz)
  have htasks := hsame .tasks nofun
  have hstopped := hsame .stopped nofun
  refine { B with
    actives := remove_actives B.actives ht
    tasks := B.tasks.congr (fun _ _ => id) (fun _ => id) (fun c _ => htasks (.pTasks c) rfl)
      fun u => htasks (.tSiblings u) rfl
    stopped := B.stopped.congr (fun _ _ => id) (fun _ => id) (fun q _ => hstopped (.pStopped q) rfl)
      fun u => hstopped (.tStopped u) rfl
    active := fun u hu => B.active u (List.mem_of_mem_erase hu)
    running := fun u hu hnone => ?_ }
  have hut : u ≠ t := fun e => hR (e ▸ hu)
  exact (List.mem_erase_of_ne hut).mpr (B.running u hu hnone)

theorem addTask {l : List (TaskId k)} (ht : ¬K t) (hl : M d = some l) (hd : P.pSched d = true) :
    Members (P.addTask d t) (fun u => u = t ∨ K u) (fun u => u = t ∨ R u)
      (Move.actives A (.addTask d t)) (Function.update M d (some (t :: l))) W := by
  have htA : t ∉ A := fun h => ht (B.active t h).1
  have hout : ∀ e m, M e = some m → t ∉ m := fun e m hm hmem => ht ((B.member hm).mp hmem).1
  have hstop : ∀ q m, W q = some m → t ∉ m := fun q m hm hmem => ht ((B.waits hm).mp hmem).1
  have Z₁ := Z.links.insertAfter (h := Node.sActives) (n := Node.tSchedList t) trivial rfl
  have hsame₁ : ∀ z, z ≠ .actives → SameZone Node.zone z P.links
      (P.links.insertAfter .sActives (.tSchedList t)) := fun z hz =>
    Z.links.insertAfter_same (h := Node.sActives) (n := Node.tSchedList t) trivial rfl (Ne.symm hz)
  have hsame₂ : ∀ z, z ≠ .tasks → SameZone Node.zone z
      (P.links.insertAfter .sActives (.tSchedList t))
      ((P.links.insertAfter .sActives (.tSchedList t)).insertAfter (.pTasks d) (.tSiblings t)) :=
    fun z hz => Z₁.insertAfter_same (h := Node.pTasks d) (n := Node.tSiblings t) (.inr hd) rfl
      (Ne.symm hz)
  have hsame₃ : ∀ (z : Zone) (L : Links (Node k)), z ≠ .overriders → z ≠ .stopped → z ≠ .history →
      SameZone Node.zone z L (((L.init (.tOverriders t)).init (.tStopped t)).init (.tHistory t)) :=
    fun z L h₁ h₂ h₃ => ((Zoned.init_same (n := Node.tOverriders t) (Ne.symm h₁) L).trans
      (Zoned.init_same (n := Node.tStopped t) (Ne.symm h₂) _)).trans
        (Zoned.init_same (n := Node.tHistory t) (Ne.symm h₃) _)
  have hprc : ∀ u, u ≠ t → (P.addTask d t).tProcess u = P.tProcess u := fun u hu =>
    Function.update_of_ne hu ..
  have hprct : (P.addTask d t).tProcess t = some d := Function.update_self ..
  have hst : ∀ u, u ≠ t → (P.addTask d t).tStopper u = P.tStopper u := fun u hu =>
    Function.update_of_ne hu ..
  have hstt : (P.addTask d t).tStopper t = none := Function.update_self ..
  have hKt : ∀ {u}, u = t ∨ K u → u ≠ t → K u := fun hu hut => hu.resolve_left hut
  constructor
  · have hz := (hsame₂ .actives nofun).trans (hsame₃ .actives _ nofun nofun nofun)
    exact (insert_actives B.actives htA).congr (fun _ _ => id) (fun _ => id)
      (fun _ _ => hz .sActives rfl) fun u => hz (.tSchedList u) rfl
  · exact Z.tasks_addTask B.tasks hl hout
  · have hz := ((hsame₁ .stopped nofun).trans (hsame₂ .stopped nofun)).trans
      (init_zone (n := Node.tOverriders t) (z := Zone.stopped) nofun _)
    have B₁ : RingTable _ Node.pStopped Node.tStopped W (fun _ => False) :=
      B.stopped.congr (fun _ _ => id) (fun _ => id) (fun q _ => hz (.pStopped q) rfl)
        fun u => hz (.tStopped u) rfl
    have hz' := init_zone (n := Node.tHistory t) (z := Zone.stopped) nofun
      ((((P.links.insertAfter .sActives (.tSchedList t)).insertAfter (.pTasks d)
        (.tSiblings t)).init (.tOverriders t)).init (.tStopped t))
    exact (B₁.initNode stoppedShape hstop).congr (fun _ _ => id) nofun
      (fun q _ => hz' (.pStopped q) rfl) fun u => hz' (.tStopped u) rfl
  · intro u hu
    rcases List.mem_cons.mp hu with rfl | hu
    · exact ⟨.inl rfl, hstt⟩
    · have hut : u ≠ t := fun e => htA (e ▸ hu)
      rw [hst u hut]
      exact ⟨.inr (B.active u hu).1, (B.active u hu).2⟩
  · intro u hu hnone
    by_cases hut : u = t
    · exact hut ▸ List.mem_cons_self
    · rw [hst u hut] at hnone
      exact List.mem_cons_of_mem _ (B.running u (hu.resolve_left hut) hnone)
  · exact fun u hu => hu.imp_right (B.registered u)
  · intro e m u hm
    by_cases hut : u = t
    · subst hut
      rw [hprct]
      by_cases he : e = d
      · subst he
        rw [Function.update_self, Option.some.injEq] at hm
        simp [← hm]
      · rw [Function.update_of_ne he] at hm
        exact iff_of_false (hout e m hm) fun h => he (Option.some.inj h.2).symm
    · rw [hprc u hut, or_iff_right hut]
      by_cases he : e = d
      · subst he
        rw [Function.update_self, Option.some.injEq] at hm
        rw [← hm, List.mem_cons, or_iff_right hut]
        exact B.member hl
      · rw [Function.update_of_ne he] at hm
        exact B.member hm
  · intro q m u hm
    by_cases hut : u = t
    · subst hut
      rw [hstt]
      exact iff_of_false (hstop q m hm) nofun
    · rw [hst u hut, or_iff_right hut]
      exact B.waits hm
  · intro u hu
    by_cases hut : u = t
    · exact ⟨d, hut ▸ hprct, by simp⟩
    · obtain ⟨c, hc, hM⟩ := B.process u (hu.resolve_left hut)
      refine ⟨c, (hprc u hut).trans hc, ?_⟩
      by_cases hcd : c = d
      · simp [hcd]
      · simpa [hcd] using hM
  · intro u q hu hq
    have hut : u ≠ t := by
      rintro rfl
      cases hstt.symm.trans hq
    rw [hst u hut] at hq
    rw [hprc u hut]
    exact B.stopper u q (hu.resolve_left hut) hq

omit Z in
theorem addPrim (hp : W p = none) :
    Members (P.addPrim d p) K R A M (Function.update W p (some [])) := by
  have hne : ∀ q, (W q).isSome → q ≠ p := by
    rintro q hq rfl
    simp [hp] at hq
  have hinit : ∀ (z : Zone) (L : Links (Node k)), z ≠ .overriders → z ≠ .stopped → z ≠ .stray →
      SameZone Node.zone z L (((L.init (.pSiblings p)).init (.pStopped p)).init (.pOverriders p)) :=
    fun z L h₁ h₂ h₃ => ((Zoned.init_same (n := Node.pSiblings p) (Ne.symm h₁) L).trans
      (Zoned.init_same (n := Node.pStopped p) (Ne.symm h₂) _)).trans
        (Zoned.init_same (n := Node.pOverriders p) (Ne.symm h₃) _)
  constructor
  · have hz := hinit .actives P.links nofun nofun nofun
    exact B.actives.congr (fun _ _ => id) (fun _ => id) (fun _ _ => hz .sActives rfl)
      fun u => hz (.tSchedList u) rfl
  · have hz := hinit .tasks P.links nofun nofun nofun
    exact B.tasks.congr (fun _ _ => id) (fun _ => id) (fun c _ => hz (.pTasks c) rfl)
      fun u => hz (.tSiblings u) rfl
  · have hz := init_zone (n := Node.pSiblings p) (z := Zone.stopped) nofun P.links
    have hz' := init_zone (n := Node.pOverriders p) (z := Zone.stopped) nofun
      ((P.links.init (.pSiblings p)).init (.pStopped p))
    have B₁ : RingTable _ Node.pStopped Node.tStopped W (fun _ => False) :=
      B.stopped.congr (fun _ _ => id) (fun _ => id) (fun q _ => hz (.pStopped q) rfl)
        fun u => hz (.tStopped u) rfl
    exact (B₁.initHead stoppedShape p (by simp [hp])).congr (fun _ _ => id) (fun _ => id)
      (fun q _ => hz' (.pStopped q) rfl) fun u => hz' (.tStopped u) rfl
  · exact B.active
  · exact B.running
  · exact B.registered
  · exact B.member
  · intro q m u hm
    by_cases hq : q = p
    · subst hq
      rw [Function.update_self, Option.some.injEq] at hm
      subst hm
      exact iff_of_false nofun fun h => hne q (B.stopper u q h.1 h.2).1 rfl
    · rw [Function.update_of_ne hq] at hm
      exact B.waits hm
  · exact B.process
  · intro u q hu hq
    obtain ⟨hW, hprc⟩ := B.stopper u q hu hq
    have hqp := hne q hW
    refine ⟨by simpa [hqp] using hW, ?_⟩
    exact (Function.update_of_ne hqp ..).trans hprc

theorem addProcess (hd : M d = none) :
    Members (P.addProcess d) K R A (Function.update M d (some [])) W := by
  have hsame : ∀ z, z ≠ .processes → SameZone Node.zone z P.links
      (P.links.insertAfter .sProcesses (.pList d)) := fun z hz =>
    Z.links.insertAfter_same (h := Node.sProcesses) (n := Node.pList d) trivial rfl (Ne.symm hz)
  have hinit : ∀ (z : Zone) (L : Links (Node k)), z ≠ .tasks → z ≠ .primitives →
      SameZone Node.zone z L ((L.init (.pTasks d)).init (.pPrimitives d)) := fun z L h₁ h₂ =>
    (Zoned.init_same (n := Node.pTasks d) (Ne.symm h₁) L).trans
      (Zoned.init_same (n := Node.pPrimitives d) (Ne.symm h₂) _)
  constructor
  · have hz := (hsame .actives nofun).trans (hinit .actives _ nofun nofun)
    exact B.actives.congr (fun _ _ => id) (fun _ => id) (fun _ _ => hz .sActives rfl)
      fun u => hz (.tSchedList u) rfl
  · exact Z.tasks_addProcess B.tasks hd
  · have hz := (hsame .stopped nofun).trans (hinit .stopped _ nofun nofun)
    exact B.stopped.congr (fun _ _ => id) (fun _ => id) (fun q _ => hz (.pStopped q) rfl)
      fun u => hz (.tStopped u) rfl
  · exact B.active
  · exact B.running
  · exact B.registered
  · intro e m u hm
    by_cases he : e = d
    · subst he
      rw [Function.update_self, Option.some.injEq] at hm
      subst hm
      refine iff_of_false nofun fun h => ?_
      obtain ⟨c, hc, hM⟩ := B.process u h.1
      obtain rfl := Option.some.inj (hc.symm.trans h.2)
      simp [hd] at hM
    · rw [Function.update_of_ne he] at hm
      exact B.member hm
  · exact B.waits
  · intro u hu
    obtain ⟨c, hc, hM⟩ := B.process u hu
    refine ⟨c, hc, ?_⟩
    by_cases hcd : c = d
    · simp [hcd]
    · simpa [hcd] using hM
  · exact B.stopper

omit Z in
theorem dropPrim (hp : W p = some []) : Members P K R A M (Function.update W p none) where
  actives := B.actives
  tasks := B.tasks
  stopped := by
    refine B.stopped.congr (fun q l hl => ?_) (fun _ => id) (fun _ _ => ⟨rfl, rfl⟩) fun _ => ⟨rfl, rfl⟩
    by_cases hq : q = p
    · simp [hq] at hl
    · rwa [Function.update_of_ne hq] at hl
  active := B.active
  running := B.running
  registered := B.registered
  member := B.member
  waits := by
    intro q l u hl
    by_cases hq : q = p
    · simp [hq] at hl
    · rw [Function.update_of_ne hq] at hl
      exact B.waits hl
  process := B.process
  stopper := by
    intro u q hu hq
    have hqp : q ≠ p := by
      rintro rfl
      cases (B.waits hp).mpr ⟨hu, hq⟩
    obtain ⟨hW, hprc⟩ := B.stopper u q hu hq
    exact ⟨by simpa [hqp] using hW, hprc⟩

omit Z in
/-- A process is forgotten with its tasks and its primitives, when its tasks are out of the active
list. -/
theorem dropProcess {L : Links (Node k)} {A' : List (TaskId k)}
    (hL : RingTable L (fun _ : Unit => Node.sActives) Node.tSchedList (fun _ => some A')
      (fun t => K t ∧ t ∉ A))
    (hA : ∀ u, u ∈ A' ↔ u ∈ A ∧ P.tProcess u ≠ some d)
    (htasks : SameZone Node.zone .tasks P.links L)
    (hstopped : SameZone Node.zone .stopped P.links L) :
    Members { P with links := L } (fun t => K t ∧ P.tProcess t ≠ some d)
      (fun t => R t ∧ P.tProcess t ≠ some d) A' (Function.update M d none)
      (fun p => if P.pProcess p = some d then none else W p) := by
  have hM : ∀ {c l}, Function.update M d none c = some l → c ≠ d ∧ M c = some l := by
    intro c l hl
    by_cases hc : c = d
    · simp [hc] at hl
    · exact ⟨hc, by rwa [Function.update_of_ne hc] at hl⟩
  have hW : ∀ {q l}, (if P.pProcess q = some d then none else W q) = some l →
      P.pProcess q ≠ some d ∧ W q = some l := fun hl => Option.ite_none_left_eq_some.mp hl
  constructor
  · exact hL.weaken fun u hu => ⟨hu.1.1, fun h => hu.2 ((hA u).mpr ⟨h, hu.1.2⟩)⟩
  · exact B.tasks.congr (fun _ _ hl => (hM hl).2) (fun _ => id) (fun c _ => htasks (.pTasks c) rfl)
      fun u => htasks (.tSiblings u) rfl
  · exact B.stopped.congr (fun _ _ hl => (hW hl).2) (fun _ => id)
      (fun q _ => hstopped (.pStopped q) rfl) fun u => hstopped (.tStopped u) rfl
  · intro u hu
    obtain ⟨hu, hne⟩ := (hA u).mp hu
    exact ⟨⟨(B.active u hu).1, hne⟩, (B.active u hu).2⟩
  · exact fun u hu hnone => (hA u).mpr ⟨B.running u hu.1 hnone, hu.2⟩
  · exact fun u hu => ⟨B.registered u hu.1, hu.2⟩
  · intro c l u hl
    obtain ⟨hc, hl⟩ := hM hl
    rw [B.member hl]
    constructor
    · exact fun h => ⟨⟨h.1, fun e => hc (Option.some.inj (h.2.symm.trans e))⟩, h.2⟩
    · exact fun h => ⟨h.1.1, h.2⟩
  · intro q l u hl
    obtain ⟨hq, hl⟩ := hW hl
    rw [B.waits hl]
    constructor
    · exact fun h => ⟨⟨h.1, fun e => hq ((B.stopper u q h.1 h.2).2.trans e)⟩, h.2⟩
    · exact fun h => ⟨h.1.1, h.2⟩
  · intro u hu
    obtain ⟨c, hc, hMc⟩ := B.process u hu.1
    have hcd : c ≠ d := fun e => hu.2 (e ▸ hc)
    exact ⟨c, hc, by simpa [hcd] using hMc⟩
  · intro u q hu hq
    obtain ⟨hWq, hprc⟩ := B.stopper u q hu.1 hq
    have hqd : P.pProcess q ≠ some d := hprc ▸ hu.2
    exact ⟨by rw [if_neg hqd]; exact hWq, hprc⟩

end edits

end Members

end KernelTk.Sched
