import KernelTk.Sched.Board
import KernelTk.Sched.Propagation
import KernelTk.Sched.Status

/-! # The memory represents a board

What a memory has to do with the board that it stands for, before any call is made.

* **Relation.** `Represents s b` : the lists of the memory are those of the board, and so are its
  pointers, its counters, its status words and its marks.  `SameQueues` is the part about the lists;
  `Places` and `Tally` are the pointers and the counters that a board keeps, and forget the others.
* **Boards.** `Sound b` : what holds of every board that calls reach.  A registered primitive has a process,
  it overrides a task of its process, and a thread executes registered tasks.
* **Status words.** The status of a task is a function of the board (`Board.status`), and so is the one of
  a process.  What the code reads in a bit is therefore a place of the board
  (`Board.status_eq_stopped`, `active_iff`, `stopped_iff`).
* **Conditions.** Each check of the code is a condition of the board (`pSched_iff`, `mayOwn_iff`), which is
  how the functions and their specifications come to fail together.
* **Marks.** The walks of the memory mark what the board reaches (`Represents.met_iff`), also around the
  edge that the caller has just written, or taken away. -/

namespace KernelTk.Sched

variable {k : Machine} {s s' : State k} {b b' : Board k} {v : View k} {p q : PrimId k} {t u : TaskId k}
  {h g : ThreadId k} {c d : ProcessId k} {o x : PrimId k ⊕ TaskId k}

/-! ### The relation -/

/-- The pointers that a board keeps. -/
@[ext] structure Places (k : Machine) where
  home : TaskId k → Option (ProcessId k)
  owner : PrimId k → Option (ProcessId k)
  overrides : PrimId k → Option (TaskId k)
  threads : ThreadId k → Bool

/-- What a board keeps of the ledger. -/
@[ext] structure Tally (k : Machine) where
  running : ThreadId k → Option (TaskId k)
  taken : PrimId k → Usize k
  owned : TaskId k → Usize k
  bound : PrimId k → Usize k
  stamp : TaskId k → Usize k
  opened : Bool
  index : Usize k
  heard : List (HookCall k)

def Pointers.places (P : Pointers k) : Places k := ⟨P.tProcess, P.pProcess, P.pOverridden, P.tSched⟩

def Ledger.tally (l : Ledger k) : Tally k :=
  ⟨l.tTask, l.pNbOwningTasks, l.tNbOwnedPrimitives, l.sNbOwners, l.tCommit, l.sched.sCommitOpened,
    l.sched.sCommitIndex, l.hooks⟩

namespace Board

def places (b : Board k) : Places k := ⟨b.home, b.owner, b.overrides, b.threads⟩

def tally (b : Board k) : Tally k :=
  ⟨b.running, b.taken, b.owned, b.bound, b.stamp, b.opened, b.index, b.heard⟩

/-- The status word of a task. -/
noncomputable def status (b : Board k) (t : TaskId k) : BitVec 32 :=
  letI := Classical.propDecidable
  if t ∈ b.ready then schedStatusActive
  else if .inr t ∈ b.marked then schedStatusStopped ||| staskStatusUpdated
  else schedStatusStopped

open scoped Classical in
/-- The status word of a process. -/
noncomputable def processStatus (b : Board k) (c : ProcessId k) : BitVec 32 :=
  if c ∈ b.paused then schedStatusStopped else schedStatusActive

/-- What holds of every board: a registered primitive has a process, a primitive overrides a task of
its process, and what a registered thread executes is registered. -/
structure Sound (b : Board k) : Prop where
  owner : ∀ p, b.waiting p ≠ none → b.owner p ≠ none
  shares : ∀ p t, b.waiting p ≠ none → b.overrides p = some t → b.Shares p t
  runs : ∀ h t, b.threads h = true → b.running h = some t → b.home t ≠ none

/-- The object is registered. -/
def Known (b : Board k) : PrimId k ⊕ TaskId k → Prop
  | .inl p => b.waiting p ≠ none
  | .inr t => b.home t ≠ none

end Board

/-- The lists of the memory are those of the board. -/
structure SameQueues (b : Board k) (v : View k) : Prop where
  actives : v.actives = b.ready
  tasks : v.tasks = b.members
  stopped : v.stopped = b.waiting

/-- The memory represents the board. -/
structure Represents (s : State k) (b : Board k) : Prop where
  lists : ∃ v, Good s v ∧ SameQueues b v
  places : s.pointers.places = b.places
  tally : s.ledger.tally = b.tally
  status : ∀ t, b.home t ≠ none → s.tStatus t = b.status t
  marks : ∀ p, b.waiting p ≠ none → (s.primUpdated p = true ↔ .inl p ∈ b.marked)
  paused : ∀ c, b.members c ≠ none → (s.process c).pStatus = b.processStatus c
  /-- A task that a registered thread executes is in its history. -/
  thread : ∀ h t, b.threads h = true → b.running h = some t → (s.task t).tThread = some h
  sound : b.Sound

/-! ### Status words -/

section status

theorem Board.status_eq_active : b.status t = schedStatusActive ↔ t ∈ b.ready := by
  unfold Board.status
  split
  · rename_i ht
    exact iff_of_true rfl ht
  · rename_i ht
    refine iff_of_false ?_ ht
    split <;> decide

theorem Board.status_eq_stopped :
    b.status t = schedStatusStopped ↔ t ∉ b.ready ∧ .inr t ∉ b.marked := by
  unfold Board.status
  split
  · rename_i ht
    exact iff_of_false (by decide) fun h => h.1 ht
  · rename_i ht
    split
    · rename_i hm
      exact iff_of_false (by decide) fun h => h.2 hm
    · rename_i hm
      exact iff_of_true rfl ⟨ht, hm⟩

/-- The mark of a task is a bit of its status word. -/
theorem Board.status_mark {P : Prop} [Decidable P] (hready : t ∈ b'.ready ↔ t ∈ b.ready)
    (hmarked : .inr t ∈ b'.marked ↔ .inr t ∈ b.marked ∨ P) :
    b'.status t = if P then b.status t ||| staskStatusUpdated else b.status t := by
  have hactive : schedStatusActive ||| staskStatusUpdated = schedStatusActive := by decide
  have hmark : (schedStatusStopped ||| staskStatusUpdated) ||| staskStatusUpdated =
      schedStatusStopped ||| staskStatusUpdated := by decide
  unfold Board.status
  by_cases ht : t ∈ b.ready
  · rw [if_pos ht, if_pos (hready.mpr ht), hactive, ite_self]
  · rw [if_neg ht, if_neg (mt hready.mp ht)]
    by_cases hm : .inr t ∈ b.marked
    · rw [if_pos hm, if_pos (hmarked.mpr (.inl hm)), hmark, ite_self]
    · rw [if_neg hm]
      by_cases hP : P
      · rw [if_pos hP, if_pos (hmarked.mpr (.inr hP))]
      · rw [if_neg hP, if_neg (mt hmarked.mp (not_or.mpr ⟨hm, hP⟩))]

theorem Board.status_congr (hready : t ∈ b'.ready ↔ t ∈ b.ready)
    (hmarked : .inr t ∈ b'.marked ↔ .inr t ∈ b.marked) : b'.status t = b.status t :=
  (Board.status_mark (P := False) hready (by rw [hmarked, or_false])).trans (if_neg id)

open scoped Classical in
theorem Board.processStatus_congr (h : c ∈ b'.paused ↔ c ∈ b.paused) :
    b'.processStatus c = b.processStatus c := by
  unfold Board.processStatus
  exact if_congr h rfl rfl

theorem Board.processStatus_eq_active : b.processStatus c = schedStatusActive ↔ c ∉ b.paused := by
  unfold Board.processStatus
  split
  · rename_i hc
    exact iff_of_false (by decide) (not_not_intro hc)
  · rename_i hc
    exact iff_of_true rfl hc

theorem Board.processStatus_eq_stopped : b.processStatus c = schedStatusStopped ↔ c ∈ b.paused := by
  unfold Board.processStatus
  split
  · rename_i hc
    exact iff_of_true rfl hc
  · rename_i hc
    exact iff_of_false (by decide) hc

end status

/-! ### What the memory and the board have in common -/

namespace Represents

section facts
variable (R : Represents s b)
include R

theorem home (t : TaskId k) : (s.task t).tProcess = b.home t :=
  congrFun (congrArg Places.home R.places) t

theorem owner (p : PrimId k) : (s.prim p).pProcess = b.owner p :=
  congrFun (congrArg Places.owner R.places) p

theorem overrides (p : PrimId k) : (s.prim p).pOverridden = b.overrides p :=
  congrFun (congrArg Places.overrides R.places) p

theorem tSched (h : ThreadId k) : (s.thread h).tSched = b.threads h :=
  congrFun (congrArg Places.threads R.places) h

theorem running (h : ThreadId k) : (s.thread h).tTask = b.running h :=
  congrFun (congrArg Tally.running R.tally) h

theorem taken (p : PrimId k) : (s.prim p).pNbOwningTasks = b.taken p :=
  congrFun (congrArg Tally.taken R.tally) p

theorem owned (t : TaskId k) : (s.task t).tNbOwnedPrimitives = b.owned t :=
  congrFun (congrArg Tally.owned R.tally) t

theorem bound (p : PrimId k) : s.sNbOwners p = b.bound p :=
  congrFun (congrArg Tally.bound R.tally) p

theorem stamp (t : TaskId k) : (s.task t).tCommit = b.stamp t :=
  congrFun (congrArg Tally.stamp R.tally) t

theorem opened : s.sched.sCommitOpened = b.opened := congrArg Tally.opened R.tally

theorem index : s.sched.sCommitIndex = b.index := congrArg Tally.index R.tally

theorem heard : s.hooks = b.heard := congrArg Tally.heard R.tally

end facts

end Represents

theorem Good.hasTask_iff (G : Good s v) : v.HasTask t ↔ (s.task t).tProcess ≠ none :=
  ⟨G.wf.member t, G.attached.task t⟩

theorem SameQueues.hasPrim (Q : SameQueues b v) : v.HasPrim p ↔ b.waiting p ≠ none := by
  rw [View.HasPrim, Q.stopped, Option.isSome_iff_ne_none]

theorem SameQueues.hasProcess (Q : SameQueues b v) : v.HasProcess c ↔ b.members c ≠ none := by
  rw [View.HasProcess, Q.tasks, Option.isSome_iff_ne_none]

namespace Represents

section facts
variable (R : Represents s b)
include R

theorem hasTask_iff (G : Good s v) : v.HasTask t ↔ b.home t ≠ none := by
  rw [G.hasTask_iff, R.home]

theorem ready_iff : t ∈ b.ready ↔ b.home t ≠ none ∧ (s.task t).tStopper = none := by
  obtain ⟨v, G, Q⟩ := R.lists
  rw [← Q.actives, G.wf.actives t, G.hasTask_iff, R.home]
  rfl

theorem waits_iff {l : List (TaskId k)} (hl : b.waiting p = some l) :
    t ∈ l ↔ b.home t ≠ none ∧ (s.task t).tStopper = some p := by
  obtain ⟨v, G, Q⟩ := R.lists
  rw [G.wf.stopped.mem (Q.stopped ▸ hl), G.hasTask_iff, R.home]
  rfl

theorem exists_queue (ht : b.home t ≠ none) (hs : (s.task t).tStopper = some p) :
    ∃ l, b.waiting p = some l ∧ t ∈ l := by
  obtain ⟨v, G, Q⟩ := R.lists
  obtain ⟨l, hl, htl⟩ := G.wf.stopped.exists_list ((R.hasTask_iff G).mpr ht) hs
  exact ⟨l, Q.stopped ▸ hl, htl⟩

theorem waits_owner (ht : b.home t ≠ none) (hs : (s.task t).tStopper = some p) :
    b.owner p = b.home t := by
  obtain ⟨v, G, Q⟩ := R.lists
  rw [← R.owner, ← R.home]
  exact G.wf.waits t p ((R.hasTask_iff G).mpr ht) hs

theorem process_of_home (hc : b.home t = some c) :
    b.members c ≠ none ∧ (s.process c).pSched = true := by
  obtain ⟨v, G, Q⟩ := R.lists
  have ht : v.HasTask t := (R.hasTask_iff G).mpr (by simp [hc])
  have hd : v.HasProcess c := G.wf.tasks.container ht ((R.home t).trans hc)
  exact ⟨Q.hasProcess.mp hd, G.wf.pSched c hd⟩

theorem pSched_iff : (s.process c).pSched = true ↔ b.members c ≠ none := by
  obtain ⟨v, G, Q⟩ := R.lists
  rw [← Q.hasProcess]
  exact ⟨G.attached.process c, G.wf.pSched c⟩

theorem related_iff : s.Related p t ↔ b.Shares p t := by
  constructor
  · intro h
    rw [Board.Shares, ← R.home, ← R.owner]
    exact ⟨h.member, h.same⟩
  · rintro ⟨ht, he⟩
    obtain ⟨c, hc⟩ := Option.ne_none_iff_exists'.mp ht
    refine ⟨R.home t ▸ ht, by rw [R.owner, R.home, he], ?_⟩
    rw [R.home, hc]
    exact (R.process_of_home hc).2

theorem active_iff (ht : b.home t ≠ none) :
    (s.task t).tStatus = schedStatusActive ↔ t ∈ b.ready := by
  rw [← Board.status_eq_active, ← R.status t ht]
  rfl

theorem stopped_iff (ht : b.home t ≠ none) :
    (s.task t).tStatus = schedStatusStopped ↔ t ∉ b.ready ∧ .inr t ∉ b.marked := by
  rw [← Board.status_eq_stopped, ← R.status t ht]
  rfl

theorem mayOwn_iff : (s.Related p t ∧ (s.task t).tStatus = schedStatusActive) ↔ b.MayOwn p t := by
  rw [Board.MayOwn, R.related_iff]
  exact and_congr_right fun h => R.active_iff h.1

/-! ### Marks -/

theorem updated_iff (hx : b.Known x) : s.updated x = true ↔ b.Marked x := by
  cases x with
  | inl p => exact R.marks p hx
  | inr t =>
      have hst : (s.task t).tStatus = b.status t := R.status t hx
      simp only [State.updated, State.taskUpdated, Board.Marked, hst, Board.status]
      split
      · rename_i ht
        exact iff_of_true (by decide) (.inl ht)
      · rename_i ht
        split
        · rename_i hm
          exact iff_of_true (by decide) (.inr hm)
        · rename_i hm
          exact iff_of_false (by decide) (not_or.mpr ⟨ht, hm⟩)

theorem above_iff {y : PrimId k ⊕ TaskId k} (hx : b.Known x) : s.above x = some y ↔ b.Above x y := by
  cases x with
  | inl p =>
      rw [State.above_prim, R.overrides, Option.map_eq_some_iff]
      constructor
      · rintro ⟨t, ht, rfl⟩
        exact .overrides ht
      · rintro ⟨ht⟩
        exact ⟨_, ht, rfl⟩
  | inr t =>
      rw [State.above_task, Option.map_eq_some_iff]
      constructor
      · rintro ⟨p, hp, rfl⟩
        obtain ⟨l, hl, htl⟩ := R.exists_queue hx hp
        exact .waits hl htl
      · rintro ⟨⟩
        rename_i p l hl htl
        exact ⟨p, ((R.waits_iff hl).mp htl).2, rfl⟩

theorem known_of_above {y : PrimId k ⊕ TaskId k} (hx : b.Known x) (hy : b.Above x y) :
    b.Known y := by
  cases hy with
  | overrides ht => exact (R.sound.shares _ _ hx ht).1
  | waits hl _ => exact fun e => by simp [hl] at e

/-- **A walk meets what the board reaches**, also when the edge that led to its start has just been
written, or taken away. -/
theorem met_iff {s₁ : State k} (ho : b.Known o) (hup : ∀ x, s₁.updated x = s.updated x)
    (habove : ∀ x y, b.Known x → y ≠ o → (s₁.above x = some y ↔ s.above x = some y)) :
    s₁.Met o x ↔ x ∈ b.reached o := by
  rw [State.Met, Trail.met_iff_reflTransGen]
  refine and_congr (not_congr ?_) ?_
  · rw [hup]
    exact R.updated_iff ho
  · refine (Trail.reflTransGen_congr (P := b.Known) ho ?_ ?_).symm
    · exact fun y z hy h => R.known_of_above hy h.1
    · intro y z hy hz
      rw [habove y z hy hz, R.above_iff hy]
      refine and_congr_right fun h => ?_
      rw [hup, R.updated_iff (R.known_of_above hy h)]

open scoped Classical in
/-- The marks after a walk. -/
theorem walk_marks {s₁ s₂ : State k} (ho : b.Known o) (hw : s₁.WalkTo o s₂)
    (hup : ∀ x, s₁.updated x = s.updated x)
    (habove : ∀ x y, b.Known x → y ≠ o → (s₁.above x = some y ↔ s.above x = some y)) :
    (∀ u, s₂.tStatus u = if .inr u ∈ b.reached o then s₁.tStatus u ||| staskStatusUpdated
      else s₁.tStatus u) ∧
    ∀ q, s₂.primUpdated q = true ↔ .inl q ∈ b.reached o ∨ s.primUpdated q = true := by
  obtain ⟨τ, π, rfl, hmet⟩ := hw
  have hreach : ∀ x, Sum.elim π τ x = true ↔ x ∈ b.reached o := fun x =>
    (hmet x).trans (R.met_iff ho hup habove)
  constructor
  · intro u
    have hu := hreach (.inr u)
    simp only [Sum.elim_inr] at hu
    simp only [State.tStatus, State.mark, hu]
  · intro q
    have hq := hreach (.inl q)
    simp only [Sum.elim_inl] at hq
    rw [State.primUpdated_mark, Bool.or_eq_true, hq]
    exact or_congr_right (by rw [← show s₁.primUpdated q = s.primUpdated q from hup (.inl q)])

end facts

end Represents

end KernelTk.Sched
