import Mathlib.Data.Fintype.Card
import KernelTk.Sched.State

/-! # Update propagation

`task_propagate_update` and `primitive_propagate_update` mark a task or a primitive and its
parents: from a task to the primitive that stopped it, from a primitive to the task it
overrides, until a marked object or the end of the path.

* **Marks.** The mark of a task is a bit of its status word, the same bit as
  `SCHED_STATUS_ACTIVE` : an active task counts as marked, and marking a stopped task gives the
  status word `3`.
* **Loops.** The two `while (1)` loops are structural on a fuel of one more than the number of
  tasks.  Every iteration but the last marks a new task, which leaves fewer unmarked ones
  (`State.unmarked_markTask_lt`), so that this fuel is never used up.
* **The alternating walk.** Both loops are the walk `walkUp` from an object to the one above it, which
  marks one object at a time: an iteration of a loop makes two of its steps
  (`taskPropagateLoop_eq_walkUp`, `primitivePropagateLoop_eq_walkUp`).
* **Effect.** A walk sets the mark of some tasks and primitives and changes nothing else
  (`walkUp_eq_mark`, by induction on the number of objects that it may visit); `State.mark` is such a
  state, and two of them compose. -/

namespace KernelTk.Sched

variable {k : Machine}

namespace State

variable (s : State k)

/-- `task->t_status & STASK_STATUS_UPDATED`. -/
def taskUpdated (t : TaskId k) : Bool := (s.task t).tStatus &&& staskStatusUpdated != 0

/-- `prim->p_status & SCHED_PRIM_STATUS_UPDATED`. -/
def primUpdated (p : PrimId k) : Bool := (s.prim p).pStatus &&& schedPrimStatusUpdated != 0

/-- `task->t_status |= STASK_STATUS_UPDATED`. -/
def markTask (t : TaskId k) : State k :=
  s.modTask t fun x => { x with tStatus := x.tStatus ||| staskStatusUpdated }

/-- `prim->p_status |= SCHED_PRIM_STATUS_UPDATED`. -/
def markPrim (p : PrimId k) : State k :=
  s.modPrim p fun x => { x with pStatus := x.pStatus ||| schedPrimStatusUpdated }

end State

/-- The loop of `task_propagate_update`. -/
def taskPropagateLoop : ℕ → TaskId k → State k → State k
  | 0, _, s => s
  | fuel + 1, task, s =>
      if s.taskUpdated task then s
      else
        let s := s.markTask task
        match (s.task task).tStopper with
        | none => s
        | some prim =>
            if s.primUpdated prim then s
            else
              let s := s.markPrim prim
              match (s.prim prim).pOverridden with
              | none => s
              | some task => taskPropagateLoop fuel task s

/-- `task_propagate_update`. -/
def taskPropagateUpdate (task : TaskId k) (s : State k) : State k :=
  taskPropagateLoop (k.tasks + 1) task s

/-- The loop of `primitive_propagate_update`. -/
def primitivePropagateLoop : ℕ → PrimId k → State k → State k
  | 0, _, s => s
  | fuel + 1, prim, s =>
      if s.primUpdated prim then s
      else
        let s := s.markPrim prim
        match (s.prim prim).pOverridden with
        | none => s
        | some task =>
            if s.taskUpdated task then s
            else
              let s := s.markTask task
              match (s.task task).tStopper with
              | none => s
              | some prim => primitivePropagateLoop fuel prim s

/-- `primitive_propagate_update`. -/
def primitivePropagateUpdate (prim : PrimId k) (s : State k) : State k :=
  primitivePropagateLoop (k.tasks + 1) prim s

/-! ### The ownership tree -/

namespace State

variable (s : State k)

/-- The object above: the task that a primitive overrides, the primitive that stops a task. -/
def above : PrimId k ⊕ TaskId k → Option (PrimId k ⊕ TaskId k)
  | .inl p => (s.prim p).pOverridden.map .inr
  | .inr t => (s.task t).tStopper.map .inl

/-- The object is marked. -/
def updated : PrimId k ⊕ TaskId k → Bool
  | .inl p => s.primUpdated p
  | .inr t => s.taskUpdated t

/-- Mark an object. -/
def markNode : PrimId k ⊕ TaskId k → State k
  | .inl p => s.markPrim p
  | .inr t => s.markTask t

end State

/-- The alternating walk that both loops make, of `n` objects at most. -/
def walkUp : ℕ → PrimId k ⊕ TaskId k → State k → State k
  | 0, _, s => s
  | n + 1, o, s =>
      if s.updated o then s
      else
        let s := s.markNode o
        match s.above o with
        | none => s
        | some o' => walkUp n o' s

theorem taskPropagateLoop_eq_walkUp (fuel : ℕ) (t : TaskId k) (s : State k) :
    taskPropagateLoop fuel t s = walkUp (2 * fuel) (.inr t) s := by
  induction fuel generalizing t s with
  | zero => rfl
  | succ fuel ih =>
      simp only [taskPropagateLoop, Nat.mul_succ, walkUp, State.updated, State.above, State.markNode,
        ih]
      cases ((s.markTask t).task t).tStopper with
      | none => rfl
      | some p =>
          simp only [Option.map_some]
          cases (((s.markTask t).markPrim p).prim p).pOverridden <;> rfl

theorem primitivePropagateLoop_eq_walkUp (fuel : ℕ) (p : PrimId k) (s : State k) :
    primitivePropagateLoop fuel p s = walkUp (2 * fuel) (.inl p) s := by
  induction fuel generalizing p s with
  | zero => rfl
  | succ fuel ih =>
      simp only [primitivePropagateLoop, Nat.mul_succ, walkUp, State.updated, State.above,
        State.markNode, ih]
      cases ((s.markPrim p).prim p).pOverridden with
      | none => rfl
      | some t =>
          simp only [Option.map_some]
          cases (((s.markPrim p).markTask t).task t).tStopper <;> rfl

/-! ### Effect of a walk -/

/-- The state with the marks of the tasks `τ` and of the primitives `π` set. -/
@[simps] def State.mark (s : State k) (τ : TaskId k → Bool) (π : PrimId k → Bool) : State k :=
  { s with
    task := fun t => { s.task t with
      tStatus := if τ t then (s.task t).tStatus ||| staskStatusUpdated else (s.task t).tStatus }
    prim := fun p => { s.prim p with
      pStatus := if π p then (s.prim p).pStatus ||| schedPrimStatusUpdated else (s.prim p).pStatus } }

namespace State

variable (s : State k)

@[simp] theorem mark_false : s.mark (fun _ => false) (fun _ => false) = s := rfl

theorem markTask_eq_mark (t : TaskId k) :
    s.markTask t = s.mark (fun x => decide (x = t)) (fun _ => false) := by
  simp only [markTask, modTask, mark, Bool.false_eq_true, if_false, decide_eq_true_eq]
  congr 1
  funext x
  by_cases hx : x = t
  · subst hx
    simp
  · simp [hx]

theorem markPrim_eq_mark (p : PrimId k) :
    s.markPrim p = s.mark (fun _ => false) (fun x => decide (x = p)) := by
  simp only [markPrim, modPrim, mark, Bool.false_eq_true, if_false, decide_eq_true_eq]
  congr 1
  funext x
  by_cases hx : x = p
  · subst hx
    simp
  · simp [hx]

theorem mark_mark (τ τ' : TaskId k → Bool) (π π' : PrimId k → Bool) :
    (s.mark τ π).mark τ' π' = s.mark (fun t => τ t || τ' t) (fun p => π p || π' p) := by
  simp only [mark]
  congr 1
  · funext t
    by_cases hτ : τ t = true <;> by_cases hτ' : τ' t = true <;> simp [hτ, hτ', BitVec.or_assoc]
  · funext p
    by_cases hπ : π p = true <;> by_cases hπ' : π' p = true <;> simp [hπ, hπ', BitVec.or_assoc]

end State

/-- **The walk only sets marks.** -/
theorem walkUp_eq_mark (n : ℕ) (o : PrimId k ⊕ TaskId k) (s : State k) :
    ∃ τ π, walkUp n o s = s.mark τ π := by
  induction n generalizing o s with
  | zero => exact ⟨_, _, s.mark_false.symm⟩
  | succ n ih =>
      have hone : ∃ τ π, s.markNode o = s.mark τ π := by
        cases o with
        | inl p => exact ⟨_, _, s.markPrim_eq_mark p⟩
        | inr t => exact ⟨_, _, s.markTask_eq_mark t⟩
      unfold walkUp
      split
      · exact ⟨_, _, s.mark_false.symm⟩
      · dsimp only
        split
        · exact hone
        · rename_i o' _
          obtain ⟨τ, π, hmark⟩ := hone
          obtain ⟨τ', π', hrest⟩ := ih o' (s.markNode o)
          rw [hrest, hmark, State.mark_mark]
          exact ⟨_, _, rfl⟩

theorem primitivePropagateLoop_eq_mark (fuel : ℕ) (p : PrimId k) (s : State k) :
    ∃ τ π, primitivePropagateLoop fuel p s = s.mark τ π := by
  rw [primitivePropagateLoop_eq_walkUp]
  exact walkUp_eq_mark _ _ s

theorem taskPropagateUpdate_eq_mark (t : TaskId k) (s : State k) :
    ∃ τ π, taskPropagateUpdate t s = s.mark τ π := by
  rw [taskPropagateUpdate, taskPropagateLoop_eq_walkUp]
  exact walkUp_eq_mark _ _ s

theorem primitivePropagateUpdate_eq_mark (p : PrimId k) (s : State k) :
    ∃ τ π, primitivePropagateUpdate p s = s.mark τ π :=
  primitivePropagateLoop_eq_mark _ p s

/-- A walk from a marked primitive changes nothing. -/
theorem primitivePropagateUpdate_of_updated {p : PrimId k} {s : State k}
    (h : s.primUpdated p = true) : primitivePropagateUpdate p s = s := by
  simp [primitivePropagateUpdate, primitivePropagateLoop, h]

theorem taskPropagateUpdate_of_updated {t : TaskId k} {s : State k}
    (h : s.taskUpdated t = true) : taskPropagateUpdate t s = s := by
  simp [taskPropagateUpdate, taskPropagateLoop, h]

/-! ### Unmarked tasks -/

/-- The number of tasks whose mark is not set. -/
def State.unmarked (s : State k) : ℕ :=
  (Finset.univ.filter fun t => s.taskUpdated t = false).card

theorem State.unmarked_le (s : State k) : s.unmarked ≤ k.tasks := by
  have h := Finset.card_filter_le (Finset.univ : Finset (TaskId k)) fun t => s.taskUpdated t = false
  simpa [unmarked] using h

@[simp] theorem State.taskUpdated_markPrim (s : State k) (p : PrimId k) (t : TaskId k) :
    (s.markPrim p).taskUpdated t = s.taskUpdated t := rfl

theorem State.taskUpdated_mark (s : State k) (τ : TaskId k → Bool) (π : PrimId k → Bool)
    (u : TaskId k) : (s.mark τ π).taskUpdated u = (τ u || s.taskUpdated u) := by
  cases hu : τ u with
  | false => simp [taskUpdated, hu]
  | true =>
      have hbit : ∀ v : BitVec 32, (v ||| staskStatusUpdated) &&& staskStatusUpdated ≠ 0 := by
        intro v h
        have := congrArg (fun b => b.getLsbD 1) h
        simp [staskStatusUpdated] at this
      simpa [taskUpdated, hu] using hbit (s.task u).tStatus

theorem State.taskUpdated_markTask (s : State k) (t x : TaskId k) :
    (s.markTask t).taskUpdated x = (decide (x = t) || s.taskUpdated x) := by
  rw [markTask_eq_mark, taskUpdated_mark]

/-- Marking an unmarked task leaves fewer unmarked ones. -/
theorem State.unmarked_markTask_lt {s : State k} {t : TaskId k} (h : s.taskUpdated t = false) :
    (s.markTask t).unmarked < s.unmarked := by
  refine Finset.card_lt_card ⟨?_, ?_⟩
  · intro x hx
    simp only [Finset.mem_filter, Finset.mem_univ, true_and, taskUpdated_markTask,
      Bool.or_eq_false_iff] at hx ⊢
    exact hx.2
  · intro hsub
    have ht : t ∈ Finset.univ.filter fun x => (s.markTask t).taskUpdated x = false :=
      hsub (by simp [h])
    simp [taskUpdated_markTask] at ht

end KernelTk.Sched
