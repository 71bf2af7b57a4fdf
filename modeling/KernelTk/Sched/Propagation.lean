import KernelTk.Lib.Trail
import KernelTk.Sched.Effects

/-! # The objects that a walk marks

The tasks and the primitives are the nodes of a graph, in which a task leads to its `t_stopper` and a
primitive to its `p_overridden`; the pointers are arbitrary, and may lead in a circle.

* **Iterations.** `taskPropagateStep` and `primitivePropagateStep` : an iteration of the two loops,
  and where they go on unless they break.  `propagateStep` is an iteration of either, from any object.
* **Paths.** `State.Met o x` : the path from the object `o` comes to `x`, before the first object
  that is marked.  What is met once an object has been marked is what is met before the walk comes back
  to it (`State.met_iff`).
* **Marks.** `State.WalkTo o s'` : the objects that the walk from `o` meets are marked in `s'`, and nothing
  else is changed.  It follows the iterations backwards, from the one that breaks
  (`propagateStep_last`) to the first (`walkTo_of_ends`).
* **Ends.** Every iteration but the last one marks a task that was not, so that the loops end on every
  graph (`taskPropagateLoop_ends`).
* **Theorem.** `propagation_exact` : the two walks end, mark exactly the objects that they meet, change
  nothing else, and do the same from one object to the next. -/

namespace KernelTk.Sched

open Trail (Ends ends_of_measure)

variable {k : Machine}

/-! ### Iterations -/

/-- An iteration of the loop of `task_propagate_update`. -/
def taskPropagateStep (task : TaskId k) (s : State k) : Option (TaskId k) × State k :=
  if s.taskUpdated task then (none, s)
  else
    let s := s.markTask task
    match (s.task task).tStopper with
    | none => (none, s)
    | some prim =>
        if s.primUpdated prim then (none, s)
        else
          let s := s.markPrim prim
          ((s.prim prim).pOverridden, s)

/-- An iteration of the loop of `primitive_propagate_update`. -/
def primitivePropagateStep (prim : PrimId k) (s : State k) : Option (PrimId k) × State k :=
  if s.primUpdated prim then (none, s)
  else
    let s := s.markPrim prim
    match (s.prim prim).pOverridden with
    | none => (none, s)
    | some task =>
        if s.taskUpdated task then (none, s)
        else
          let s := s.markTask task
          ((s.task task).tStopper, s)

theorem taskPropagateLoop_succ (fuel : ℕ) (t : TaskId k) (s : State k) :
    taskPropagateLoop (fuel + 1) t s =
      (taskPropagateStep t s).1.elim (taskPropagateStep t s).2
        fun t' => taskPropagateLoop fuel t' (taskPropagateStep t s).2 := by
  rw [taskPropagateLoop, taskPropagateStep]
  split
  · rfl
  · dsimp only
    cases ((s.markTask t).task t).tStopper with
    | none => rfl
    | some p =>
        dsimp only
        split
        · rfl
        · cases (((s.markTask t).markPrim p).prim p).pOverridden <;> rfl

theorem primitivePropagateLoop_succ (fuel : ℕ) (p : PrimId k) (s : State k) :
    primitivePropagateLoop (fuel + 1) p s =
      (primitivePropagateStep p s).1.elim (primitivePropagateStep p s).2
        fun p' => primitivePropagateLoop fuel p' (primitivePropagateStep p s).2 := by
  rw [primitivePropagateLoop, primitivePropagateStep]
  split
  · rfl
  · dsimp only
    cases ((s.markPrim p).prim p).pOverridden with
    | none => rfl
    | some t =>
        dsimp only
        split
        · rfl
        · cases (((s.markPrim p).markTask t).task t).tStopper <;> rfl

/-! ### Paths -/

namespace State

variable (s : State k)

/-- The path from `o` comes to `x`, before the first object that is marked. -/
def Met (o x : PrimId k ⊕ TaskId k) : Prop := Trail.Met s.above (fun y => s.updated y = true) o x

/-- The walk from `o` has left `s'` : the objects that it meets are marked, and nothing else is
changed. -/
def WalkTo (o : PrimId k ⊕ TaskId k) (s' : State k) : Prop :=
  ∃ τ π, s' = s.mark τ π ∧ ∀ x, Sum.elim π τ x = true ↔ s.Met o x

end State

section marks
variable {s s' s₁ s₂ : State k} {o o' x : PrimId k ⊕ TaskId k}

theorem State.updated_mark (s : State k) (τ : TaskId k → Bool) (π : PrimId k → Bool)
    (x : PrimId k ⊕ TaskId k) : (s.mark τ π).updated x = (Sum.elim π τ x || s.updated x) := by
  cases x with
  | inl p => exact s.primUpdated_mark τ π p
  | inr t => exact s.taskUpdated_mark τ π t

theorem State.above_mark (s : State k) (τ : TaskId k → Bool) (π : PrimId k → Bool) :
    (s.mark τ π).above = s.above := by
  funext x
  cases x <;> rfl

theorem State.markNode_eq_mark (s : State k) (o : PrimId k ⊕ TaskId k) :
    s.markNode o = s.mark (fun t => decide (.inr t = o)) (fun p => decide (.inl p = o)) := by
  cases o with
  | inl p =>
      refine (s.markPrim_eq_mark p).trans ?_
      simp
  | inr t =>
      refine (s.markTask_eq_mark t).trans ?_
      simp

theorem State.above_markNode (s : State k) (o : PrimId k ⊕ TaskId k) :
    (s.markNode o).above = s.above := by
  rw [markNode_eq_mark, above_mark]

@[simp] theorem State.above_task (s : State k) (t : TaskId k) :
    s.above (.inr t) = (s.task t).tStopper.map .inl := rfl

@[simp] theorem State.above_prim (s : State k) (p : PrimId k) :
    s.above (.inl p) = (s.prim p).pOverridden.map .inr := rfl

theorem State.met_markNode : (s.markNode o).Met o' x ↔
    Trail.Met s.above (fun y => y = o ∨ s.updated y = true) o' x := by
  have hmarked : (fun y => (s.markNode o).updated y = true) =
      fun y => y = o ∨ s.updated y = true := by
    funext y
    rw [markNode_eq_mark, updated_mark]
    cases y <;> simp
  unfold Met
  rw [hmarked, markNode_eq_mark, above_mark]

/-- What a walk meets from an object that is not marked. -/
theorem State.met_iff (ho : s.updated o = false) : s.Met o x ↔
    x = o ∨ ∃ o', s.above o = some o' ∧ (s.markNode o).Met o' x := by
  simp only [State.met_markNode]
  exact Trail.met_iff (by simp [ho])

namespace State.WalkTo

theorem of_updated (ho : s.updated o = true) : s.WalkTo o s := by
  refine ⟨fun _ => false, fun _ => false, s.mark_false.symm, fun x => ?_⟩
  have hnone : ¬s.Met o x := fun h => h.not_marked ho
  cases x <;> simpa using hnone

theorem last (ho : s.updated o = false) (hp : s.above o = none) : s.WalkTo o (s.markNode o) := by
  refine ⟨_, _, s.markNode_eq_mark o, fun x => ?_⟩
  rw [State.met_iff ho, hp]
  cases x <;> simp

theorem step (ho : s.updated o = false) (hp : s.above o = some o')
    (h : (s.markNode o).WalkTo o' s') : s.WalkTo o s' := by
  obtain ⟨τ, π, rfl, hmet⟩ := h
  rw [State.markNode_eq_mark, State.mark_mark]
  refine ⟨_, _, rfl, fun x => ?_⟩
  rw [State.met_iff ho, hp]
  simp only [Option.some.injEq, exists_eq_left']
  rw [← hmet]
  cases x <;> simp

theorem task {t : TaskId k} (ht : s.taskUpdated t = false) (hs : (s.task t).tStopper = none) :
    s.WalkTo (.inr t) (s.markTask t) := .last ht (by simp [hs])

theorem prim {p : PrimId k} (hp : s.primUpdated p = false) (ho : (s.prim p).pOverridden = none) :
    s.WalkTo (.inl p) (s.markPrim p) := .last hp (by simp [ho])

theorem toStopper {t : TaskId k} {p : PrimId k} (ht : s.taskUpdated t = false)
    (hs : (s.task t).tStopper = some p) (h : (s.markTask t).WalkTo (.inl p) s') :
    s.WalkTo (.inr t) s' := .step ht (by simp [hs]) h

theorem toOverridden {p : PrimId k} {t : TaskId k} (hp : s.primUpdated p = false)
    (ho : (s.prim p).pOverridden = some t) (h : (s.markPrim p).WalkTo (.inr t) s') :
    s.WalkTo (.inl p) s' := .step hp (by simp [ho]) h

theorem unique (h₁ : s.WalkTo o s₁) (h₂ : s.WalkTo o s₂) : s₁ = s₂ := by
  obtain ⟨τ₁, π₁, rfl, hmet₁⟩ := h₁
  obtain ⟨τ₂, π₂, rfl, hmet₂⟩ := h₂
  have hsame : ∀ x, Sum.elim π₁ τ₁ x = Sum.elim π₂ τ₂ x := fun x =>
    Bool.eq_iff_iff.mpr ((hmet₁ x).trans (hmet₂ x).symm)
  obtain rfl : τ₁ = τ₂ := funext fun t => hsame (.inr t)
  obtain rfl : π₁ = π₂ := funext fun p => hsame (.inl p)
  rfl

theorem above (h : s.WalkTo o s') : s'.above = s.above := by
  obtain ⟨τ, π, rfl, -⟩ := h
  exact s.above_mark τ π

theorem tProcess (h : s.WalkTo o s') (t : TaskId k) :
    (s'.task t).tProcess = (s.task t).tProcess := by
  obtain ⟨τ, π, rfl, -⟩ := h
  rfl

theorem pProcess (h : s.WalkTo o s') (p : PrimId k) :
    (s'.prim p).pProcess = (s.prim p).pProcess := by
  obtain ⟨τ, π, rfl, -⟩ := h
  rfl

end State.WalkTo

end marks

/-! ### Walks -/

section walks
variable {s s' : State k} {o o₁ : PrimId k ⊕ TaskId k} {t t' : TaskId k} {p p' : PrimId k}

/-- An iteration of either loop, from any object. -/
def propagateStep (o : PrimId k ⊕ TaskId k) (s : State k) :
    Option (PrimId k ⊕ TaskId k) × State k :=
  if s.updated o then (none, s)
  else
    match s.above o with
    | none => (none, s.markNode o)
    | some o' =>
        if (s.markNode o).updated o' then (none, s.markNode o)
        else (s.above o', (s.markNode o).markNode o')

/-- The iteration is the one of `task_propagate_update` from a task. -/
theorem propagateStep_task (t : TaskId k) (s : State k) : propagateStep (.inr t) s =
    ((taskPropagateStep t s).1.map .inr, (taskPropagateStep t s).2) := by
  have hstopper : ((s.markTask t).task t).tStopper = (s.task t).tStopper := by
    simp [State.markTask]
  cases ht : s.taskUpdated t with
  | true => simp [propagateStep, taskPropagateStep, State.updated, ht]
  | false =>
      cases hs : (s.task t).tStopper with
      | none => simp [propagateStep, taskPropagateStep, State.updated, State.markNode, hstopper, ht, hs]
      | some p =>
          have hover : (((s.markTask t).markPrim p).prim p).pOverridden = (s.prim p).pOverridden := by
            simp [State.markPrim, State.markTask]
          cases hp : (s.markTask t).primUpdated p <;>
            simp [propagateStep, taskPropagateStep, State.updated, State.markNode, hstopper, hover,
              ht, hs, hp]

theorem propagateStep_prim (p : PrimId k) (s : State k) : propagateStep (.inl p) s =
    ((primitivePropagateStep p s).1.map .inl, (primitivePropagateStep p s).2) := by
  have hover : ((s.markPrim p).prim p).pOverridden = (s.prim p).pOverridden := by
    simp [State.markPrim]
  cases hp : s.primUpdated p with
  | true => simp [propagateStep, primitivePropagateStep, State.updated, hp]
  | false =>
      cases ho : (s.prim p).pOverridden with
      | none =>
          simp [propagateStep, primitivePropagateStep, State.updated, State.markNode, hover, hp, ho]
      | some t =>
          have hstopper : (((s.markPrim p).markTask t).task t).tStopper = (s.task t).tStopper := by
            simp [State.markPrim, State.markTask]
          cases ht : (s.markPrim p).taskUpdated t <;>
            simp [propagateStep, primitivePropagateStep, State.updated, State.markNode, hstopper,
              hover, hp, ho, ht]

/-- An iteration that goes on meets two objects. -/
theorem propagateStep_again (h : propagateStep o s = (some o₁, s')) : ∃ o',
    s.updated o = false ∧ s.above o = some o' ∧ (s.markNode o).updated o' = false ∧
      s.above o' = some o₁ ∧ s' = (s.markNode o).markNode o' := by
  unfold propagateStep at h
  split at h
  · cases h
  · rename_i ho
    split at h
    · cases h
    · rename_i o' habove
      split at h
      · cases h
      · rename_i ho'
        obtain ⟨habove', rfl⟩ := Prod.mk.inj h
        exact ⟨o', Bool.eq_false_of_not_eq_true ho, habove, Bool.eq_false_of_not_eq_true ho',
          habove', rfl⟩

/-- An iteration that breaks has marked the objects that its walk meets. -/
theorem propagateStep_last (h : propagateStep o s = (none, s')) : s.WalkTo o s' := by
  unfold propagateStep at h
  split at h
  · rename_i ho
    cases h
    exact .of_updated ho
  · rename_i ho
    have ho := Bool.eq_false_of_not_eq_true ho
    split at h
    · rename_i habove
      cases h
      exact .last ho habove
    · rename_i o' habove
      split at h
      · rename_i ho'
        cases h
        exact .step ho habove (.of_updated ho')
      · rename_i ho'
        obtain ⟨habove', rfl⟩ := Prod.mk.inj h
        exact .step ho habove (.last (Bool.eq_false_of_not_eq_true ho')
          (by rw [State.above_markNode, habove']))

theorem propagateStep_unmarked (h : propagateStep o s = (some o₁, s')) :
    s'.unmarked < s.unmarked := by
  obtain ⟨o', ho, habove, ho', -, rfl⟩ := propagateStep_again h
  cases o with
  | inl p =>
      obtain ⟨t, -, rfl⟩ := Option.map_eq_some_iff.mp habove
      exact State.unmarked_markTask_lt (s := s.markPrim p) ho'
  | inr t =>
      obtain ⟨p, -, rfl⟩ := Option.map_eq_some_iff.mp habove
      exact State.unmarked_markTask_lt ho

theorem taskPropagateStep_unmarked (h : taskPropagateStep t s = (some t', s')) :
    s'.unmarked < s.unmarked := by
  have hstep : propagateStep (.inr t) s = (some (.inr t'), s') := by
    rw [propagateStep_task, h]
    rfl
  exact propagateStep_unmarked hstep

theorem primitivePropagateStep_unmarked (h : primitivePropagateStep p s = (some p', s')) :
    s'.unmarked < s.unmarked := by
  have hstep : propagateStep (.inl p) s = (some (.inl p'), s') := by
    rw [propagateStep_prim, h]
    rfl
  exact propagateStep_unmarked hstep

/-- A walk has marked the objects that it meets. -/
theorem walkTo_of_ends (h : Ends propagateStep o s s') : s.WalkTo o s' := by
  induction h with
  | last h => exact propagateStep_last h
  | again h _ ih =>
      obtain ⟨o', ho, habove, ho', habove', rfl⟩ := propagateStep_again h
      exact .step ho habove (.step ho' (by rw [State.above_markNode, habove']) ih)

/-- The walks end within more iterations than there are tasks. -/
theorem taskPropagateLoop_ends {fuel : ℕ} (hfuel : k.tasks < fuel) (t : TaskId k) (s : State k) :
    Ends taskPropagateStep t s (taskPropagateLoop fuel t s) :=
  ends_of_measure taskPropagateLoop_succ (fun _ _ _ _ h => taskPropagateStep_unmarked h) fuel t s
    (Nat.lt_of_le_of_lt s.unmarked_le hfuel)

theorem primitivePropagateLoop_ends {fuel : ℕ} (hfuel : k.tasks < fuel) (p : PrimId k)
    (s : State k) : Ends primitivePropagateStep p s (primitivePropagateLoop fuel p s) :=
  ends_of_measure primitivePropagateLoop_succ (fun _ _ _ _ h => primitivePropagateStep_unmarked h)
    fuel p s (Nat.lt_of_le_of_lt s.unmarked_le hfuel)

theorem taskPropagateUpdate_ends (t : TaskId k) (s : State k) :
    Ends taskPropagateStep t s (taskPropagateUpdate t s) :=
  taskPropagateLoop_ends (Nat.lt_succ_self _) t s

theorem primitivePropagateUpdate_ends (p : PrimId k) (s : State k) :
    Ends primitivePropagateStep p s (primitivePropagateUpdate p s) :=
  primitivePropagateLoop_ends (Nat.lt_succ_self _) p s

theorem taskPropagateUpdate_walkTo (t : TaskId k) (s : State k) :
    s.WalkTo (.inr t) (taskPropagateUpdate t s) :=
  walkTo_of_ends ((taskPropagateUpdate_ends t s).map propagateStep_task)

theorem primitivePropagateUpdate_walkTo (p : PrimId k) (s : State k) :
    s.WalkTo (.inl p) (primitivePropagateUpdate p s) :=
  walkTo_of_ends ((primitivePropagateUpdate_ends p s).map propagateStep_prim)

/-! ### What the two walks do -/

/-- The walks end, whatever the iterations that they may execute; they mark the objects that they
meet and change nothing else; and each of them marks its first object and does what the other one
does from the next object. -/
structure PropagationExact (s : State k) : Prop where
  taskEnds : ∀ t, Ends taskPropagateStep t s (taskPropagateUpdate t s) ∧
    ∀ fuel > k.tasks, taskPropagateLoop fuel t s = taskPropagateUpdate t s
  taskMarks : ∀ t, s.WalkTo (.inr t) (taskPropagateUpdate t s)
  taskAgrees : ∀ t, s.taskUpdated t = false → taskPropagateUpdate t s =
    match (s.task t).tStopper with
    | none => s.markTask t
    | some p => primitivePropagateUpdate p (s.markTask t)
  primEnds : ∀ p, Ends primitivePropagateStep p s (primitivePropagateUpdate p s) ∧
    ∀ fuel > k.tasks, primitivePropagateLoop fuel p s = primitivePropagateUpdate p s
  primMarks : ∀ p, s.WalkTo (.inl p) (primitivePropagateUpdate p s)
  primAgrees : ∀ p, s.primUpdated p = false → primitivePropagateUpdate p s =
    match (s.prim p).pOverridden with
    | none => s.markPrim p
    | some t => taskPropagateUpdate t (s.markPrim p)

/-- **The walks end on every graph, mark exactly the objects that they meet, and agree.** -/
theorem propagation_exact (s : State k) : PropagationExact s where
  taskEnds t := ⟨taskPropagateUpdate_ends t s, fun _ hfuel =>
    (taskPropagateLoop_ends hfuel t s).unique (taskPropagateUpdate_ends t s)⟩
  taskMarks t := taskPropagateUpdate_walkTo t s
  taskAgrees t ht := by
    refine (taskPropagateUpdate_walkTo t s).unique ?_
    cases hs : (s.task t).tStopper with
    | none => exact .task ht hs
    | some p => exact .toStopper ht hs (primitivePropagateUpdate_walkTo p (s.markTask t))
  primEnds p := ⟨primitivePropagateUpdate_ends p s, fun _ hfuel =>
    (primitivePropagateLoop_ends hfuel p s).unique (primitivePropagateUpdate_ends p s)⟩
  primMarks p := primitivePropagateUpdate_walkTo p s
  primAgrees p hp := by
    refine (primitivePropagateUpdate_walkTo p s).unique ?_
    cases ho : (s.prim p).pOverridden with
    | none => exact .prim hp ho
    | some t => exact .toOverridden hp ho (taskPropagateUpdate_walkTo t (s.markPrim p))

end walks

end KernelTk.Sched
