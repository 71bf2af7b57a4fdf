import Mathlib.Logic.Equiv.Basic
import KernelTk.Lib.RingTable
import KernelTk.Lib.Transition
import KernelTk.Taskman.Serving

/-! # Several execution contexts

`Fin k.tasks` calls of `taskman_exec` share the managers.

* **State.** `Contexts` : the link words and the trees, and what each call has on its stack
  (`Context`).  The list field of the task of the context `i` is the node `other i`; the code of one
  context runs on `Contexts.view`, where this node has the name `tList`.
* **Calls.** `taskman_init` initialises a manager, `taskman_exec` enters a context, and each context takes
  its steps one at a time, in any order: the sections between `mgr_lock` and `mgr_unlock` do not
  overlap.
* **Queues.** `queue mgr hist` : the contexts that wait at a manager, in the order in which they began
  to, read off the places that the contexts went through.
* **Steps.** `Local` : what holds of one context at each place; `Goes` : what one of its steps does.  The
  names of the nodes apart (`naming`), the code is that of one context on its own.
* **Runs.** `Shared` : the link words are the rings of the queues, in every state (`shared_of_reach`).
  `contexts_orderly` : so no context meets a failure, and a task waits at one manager at most.
  `abort_returns` :
  a context leaves in a bounded number of its own steps, once it is told to.  `stall_lasts` : one that
  stalls makes no further call. -/

namespace KernelTk.Taskman

open CircularList (Links IsRing RingTable Shape)
open Transition (History Reach Onward exists_reach_of_replay exists_onward_of_replay)

variable {k : Machine} {Tree : Type}

/-! ### The system -/

/-- What a call of `taskman_exec` has on its stack, and what it did so far. -/
structure Context (k : Machine) where
  task : TaskmanTask k
  label : Label
  calls : List (Call k)
  readies : ℕ
  aborts : ℕ

/-- The shared memory and the calls of `taskman_exec`. -/
structure Contexts (k : Machine) (Tree : Type) where
  links : Links (Node k)
  mTree : MgrId k → Tree
  context : Fin k.tasks → Option (Context k)

/-- The operations of the managers, and what each context is told. -/
structure World (k : Machine) (Tree : Type) where
  mExec : MgrId k → FnId k
  avlTreeInsert : Tree → Usize k → Tree
  address : Fin k.tasks → Usize k
  ready : Fin k.tasks → ℕ → Ready k
  abort : Fin k.tasks → ℕ → BitVec 8

def World.env (w : World k Tree) (i : Fin k.tasks) : Env k Tree :=
  ⟨w.mExec, w.avlTreeInsert, w.address i, w.ready i, w.abort i⟩

/-- `tList` names the list field of the context `i`. -/
def naming (i : Fin k.tasks) : Node k ≃ Node k := Equiv.swap .tList (.other i)

def State.context (s : State k Tree) : Context k := ⟨s.task, s.label, s.calls, s.readies, s.aborts⟩

namespace Contexts

variable (s : Contexts k Tree) (i : Fin k.tasks)

/-- The state, for the code of the context `i`. -/
def view (c : Context k) : State k Tree :=
  ⟨⟨c.task, s.links.rename (naming i), s.mTree⟩, c.label, c.calls, c.readies, c.aborts⟩

def set (x : State k Tree) : Contexts k Tree :=
  ⟨x.links.rename (naming i), x.mTree, Function.update s.context i (some x.context)⟩

end Contexts

/-- `taskman_init`. -/
def taskmanInit (mgr : MgrId k) (s : Contexts k Tree) : Contexts k Tree :=
  { s with links := s.links.init (.mFreeTasks mgr) }

/-- What happens: a manager is initialised, a context enters `taskman_exec` with some content of its
task, a context takes a step. -/
inductive Action (k : Machine) where
  | init (mgr : MgrId k)
  | exec (i : Fin k.tasks) (mgr : MgrId k) (stackSize : Usize k) (task : TaskmanTask k)
  | step (i : Fin k.tasks)

def Action.run (w : World k Tree) (s : Contexts k Tree) : Action k → Except Fault (Contexts k Tree)
  | .init mgr => .ok (taskmanInit mgr s)
  | .exec i mgr stackSize task =>
      .ok (s.set i (mgrRegisterTask (w.env i) mgr stackSize
        (s.view i ⟨task, .taskInsertion, [], 0, 0⟩)))
  | .step i =>
      match s.context i with
      | none => .ok s
      | some c => s.set i <$> taskmanStep (w.env i) (s.view i c)

/-- `Action.run`, for the runs of `Transition`. -/
def perform (w : World k Tree) (a : Action k) (s : Contexts k Tree) :
    Except Fault (Unit × Contexts k Tree) :=
  (fun s' => ((), s')) <$> a.run w s

abbrev Past (k : Machine) (Tree : Type) := History (Contexts k Tree) (Action k) Unit

/-- `taskman_init` was called on the manager. -/
def initialised (mgr : MgrId k) (hist : Past k Tree) : Bool :=
  hist.any fun e => match e.call with
    | .init m => m == mgr
    | _ => false

/-- No context has entered. -/
def boot (s : Contexts k Tree) : Prop := ∀ i, s.context i = none

/-- A manager is initialised once, before the contexts enter.  The content of a new task is such that
`t_ready` is null and `t_list` a list of its own: `taskman_exec` initialises neither. -/
def guard (hist : Past k Tree) (s : Contexts k Tree) : Action k → Prop
  | .init mgr => initialised mgr hist = false
  | .exec i mgr _ task => initialised mgr hist = true ∧ s.context i = none ∧ task.tReady = 0 ∧
      s.links.next (.other i) = .other i ∧ s.links.prev (.other i) = .other i
  | .step _ => True

instance (hist : Past k Tree) (s : Contexts k Tree) (a : Action k) : Decidable (guard hist s a) :=
  match a with
  | .init _ => inferInstanceAs (Decidable (_ = _))
  | .exec i _ _ _ =>
      haveI : Decidable (s.context i = none) := decidable_of_iff _ Option.isNone_iff_eq_none
      inferInstanceAs (Decidable (_ ∧ _))
  | .step _ => inferInstanceAs (Decidable True)

/-! ### The contexts that wait -/

/-- Between a failed call of `m_ready` and the removal from `m_free_tasks`. -/
def Label.waits : Label → Bool
  | .stall | .delay => true
  | _ => false

/-- The manager that the context waits at. -/
def Contexts.waitsAt (s : Contexts k Tree) (i : Fin k.tasks) : Option (MgrId k) :=
  (s.context i).bind fun c => if c.label.waits then some c.task.tMgr else none

/-- The contexts that wait at a manager, in the order in which they began to. -/
def queue (mgr : MgrId k) : Past k Tree → List (Fin k.tasks)
  | [] => []
  | e :: hist =>
      match e.call with
      | .step i =>
          if e.pre.waitsAt i = e.post.waitsAt i then queue mgr hist
          else if e.post.waitsAt i = some mgr then queue mgr hist ++ [i]
          else (queue mgr hist).erase i
      | _ => queue mgr hist

/-! ### One context -/

section step

variable {env : Env k Tree} {s x : State k Tree} {c : Context k}

/-- What holds of a context at each place: the calls made so far, and what its task holds. -/
inductive Local (env : Env k Tree) (c : Context k) : Prop
  | idle : c.label = .taskInsertion ∨ c.label = .addition ∨ c.label.waits = true → c.task.tReady = 0 →
      Served c.task.tMgr (env.mExec c.task.tMgr) c.calls → Local env c
  | execution {l : List (Call k)} {a : Usize k} : c.label = .execution →
      c.calls = l ++ [.ready c.task.tMgr ⟨0, a⟩] → Served c.task.tMgr (env.mExec c.task.tMgr) l →
      c.task.tFunction = some (env.mExec c.task.tMgr) → c.task.tArgs = a → c.task.tRoot ≠ 0 →
      Local env c
  | cleanup {l : List (Call k)} {a : Usize k} : c.label = .cleanup →
      c.calls = l ++ [.ready c.task.tMgr ⟨0, a⟩, .exec (env.mExec c.task.tMgr) a] →
      Served c.task.tMgr (env.mExec c.task.tMgr) l → c.task.tArgs = a → c.task.tRoot ≠ 0 → Local env c
  | execExit : c.label = .execExit → Served c.task.tMgr (env.mExec c.task.tMgr) c.calls →
      0 < c.aborts → env.abort (c.aborts - 1) ≠ 0 → Local env c

/-- How many steps are left at most, once `*abort` is set. -/
def Label.left : Label → ℕ
  | .execExit => 0
  | .taskInsertion | .stall => 1
  | .delay | .cleanup => 2
  | .execution => 3
  | .addition => 4

/-- How many calls of `m_ready` are left at most, once `*abort` is set. -/
def Label.demands : Label → ℕ
  | .addition => 1
  | _ => 0

/-- What a step does to the lists. -/
inductive Moved (s x : State k Tree) : Prop
  | stays : x.label.waits = s.label.waits → x.links = s.links → Moved s x
  | joins : s.label.waits = false → x.label.waits = true →
      x.links = s.links.concat (.mFreeTasks s.task.tMgr) .tList → Moved s x
  | leaves : s.label.waits = true → x.label.waits = false → x.links = s.links.remove .tList → Moved s x

/-- What a step does. -/
structure Goes (env : Env k Tree) (s x : State k Tree) : Prop where
  keeps : Local env x.context
  moved : Moved s x
  tMgr : x.task.tMgr = s.task.tMgr
  calls : s.calls <+: x.calls
  aborts : s.aborts ≤ x.aborts
  closed : s.label = .stall ∨ s.label = .execExit →
    x.calls = s.calls ∧ (x.label = .stall ∨ x.label = .execExit)
  aborted : (∀ n, s.aborts ≤ n → env.abort n ≠ 0) → x.label.left ≤ s.label.left - 1 ∧
    x.readies + x.label.demands ≤ s.readies + s.label.demands

theorem Goes.taskInsertion (hl : s.label = .taskInsertion) (hready : s.task.tReady = 0)
    (hc : Served s.task.tMgr (env.mExec s.task.tMgr) s.calls) :
    ∃ x, taskmanStep env s = .ok x ∧ Goes env s x := by
  have hnot : ¬(s.label = .stall ∨ s.label = .execExit) := by simp [hl]
  by_cases habort : env.abort s.aborts = 0
  · exact ⟨_, step_taskInsertion_unset hl habort, .idle (.inr (.inl rfl)) hready hc,
      .stays (by rw [hl]; rfl) rfl, rfl, List.prefix_rfl, Nat.le_succ _, fun h => absurd h hnot,
      fun h => absurd habort (h _ le_rfl)⟩
  · refine ⟨_, step_taskInsertion_set hl habort, .execExit rfl hc (Nat.succ_pos _) habort,
      .stays (by rw [hl]; rfl) rfl, rfl, List.prefix_rfl, Nat.le_succ _, fun h => absurd h hnot, ?_⟩
    intro _
    simp [hl, Label.left, Label.demands]

theorem Goes.addition (hl : s.label = .addition) (hready : s.task.tReady = 0)
    (hc : Served s.task.tMgr (env.mExec s.task.tMgr) s.calls)
    (hm : s.links.Joined (.mFreeTasks s.task.tMgr)) (ht : s.links.Joined .tList) :
    ∃ x, taskmanStep env s = .ok x ∧ Goes env s x := by
  have hnot : ¬(s.label = .stall ∨ s.label = .execExit) := by simp [hl]
  by_cases hd : (env.ready s.readies).delay = 0
  · have hroot : (1 : BitVec 8) ≠ 0 := by decide
    have hr : env.ready s.readies = ⟨0, (env.ready s.readies).args⟩ := by
      rw [← hd]
    refine ⟨_, step_addition_ready hl hd, .execution (l := s.calls) rfl ?_ hc rfl rfl hroot,
      .stays (by rw [hl]; rfl) rfl, rfl, List.prefix_append _ _, le_rfl, fun h => absurd h hnot, ?_⟩
    · exact congrArg (s.calls ++ [Call.ready s.task.tMgr ·]) hr
    · intro _
      simp [hl, Label.left, Label.demands]
  · have hwaits : Label.waits (if (env.ready s.readies).delay = -1 then .stall else .delay) = true := by
      split <;> rfl
    refine ⟨_, step_addition_later hl hd hm ht, .idle (.inr (.inr hwaits)) hready
      (hc.append (.later hd .nil)), .joins (by rw [hl]; rfl) hwaits rfl, rfl, List.prefix_append _ _,
      le_rfl, fun h => absurd h hnot, ?_⟩
    intro _
    rw [hl]
    split <;> simp [Label.left, Label.demands]

theorem Goes.free (hl : s.label.waits = true) (hready : s.task.tReady = 0)
    (hc : Served s.task.tMgr (env.mExec s.task.tMgr) s.calls) (ht : s.links.Joined .tList) :
    ∃ x, taskmanStep env s = .ok x ∧ Goes env s x := by
  by_cases hstall : s.label = .stall
  · by_cases habort : env.abort s.aborts = 0
    · refine ⟨{ s with aborts := s.aborts + 1 }, ?_, .idle (.inr (.inr hl)) hready hc, .stays rfl rfl,
        rfl, List.prefix_rfl, Nat.le_succ _, fun h => ⟨rfl, h⟩, fun h => absurd habort (h _ le_rfl)⟩
      rw [step_stall_unset hstall habort, if_neg (not_not_intro hready)]
    · let y := { s with aborts := s.aborts + 1 }
      refine ⟨(y.modLinks (·.remove .tList)).goto .execExit, ?_,
        .execExit rfl hc (Nat.succ_pos _) habort, .leaves hl rfl rfl, rfl, List.prefix_rfl,
        Nat.le_succ _, fun _ => ⟨rfl, .inr rfl⟩, ?_⟩
      · have hremove : mgrRemoveFreeTask y = _ := mgrRemoveFreeTask_unready hready ht
        rw [step_stall_set hstall habort, hremove]
        rfl
      · intro _
        simp [y, hstall, Label.left, Label.demands, State.goto, State.modLinks]
  · have hdelay : s.label = .delay := by
      cases h : s.label <;> simp_all [Label.waits]
    refine ⟨(s.modLinks (·.remove .tList)).goto .taskInsertion, ?_, .idle (.inl rfl) hready hc,
      .leaves hl rfl rfl, rfl, List.prefix_rfl, le_rfl, fun h => absurd h (by simp [hdelay]), ?_⟩
    · rw [step_delay hdelay, mgrRemoveFreeTask_unready hready ht]
      rfl
    · intro _
      simp [hdelay, Label.left, Label.demands, State.goto, State.modLinks]

/-- **One step of a context.** -/
theorem Local.step (L : Local env s.context) (hm : s.links.Joined (.mFreeTasks s.task.tMgr))
    (ht : s.links.Joined .tList) : ∃ x, taskmanStep env s = .ok x ∧ Goes env s x := by
  cases L with
  | idle hl hready hc =>
      rcases hl with hl | hl | hl
      · exact Goes.taskInsertion hl hready hc
      · exact Goes.addition hl hready hc hm ht
      · exact Goes.free hl hready hc ht
  | @execution l a hl hcalls hc hf hargs hroot =>
      have hl : s.label = .execution := hl
      have hnot : ¬(s.label = .stall ∨ s.label = .execExit) := by simp [hl]
      refine ⟨_, step_execution hl hf, .cleanup rfl ?_ hc hargs hroot, .stays (by rw [hl]; rfl) rfl, rfl,
        List.prefix_append _ _, le_rfl, fun h => absurd h hnot, ?_⟩
      · have hcalls : s.calls = l ++ [.ready s.task.tMgr ⟨0, a⟩] := hcalls
        have hargs : s.task.tArgs = a := hargs
        simp [State.context, State.goto, State.call, hcalls, hargs]
      · intro _
        simp [hl, Label.left, Label.demands, State.goto, State.call]
  | cleanup hl hcalls hc hargs hroot =>
      have hl : s.label = .cleanup := hl
      have hnot : ¬(s.label = .stall ∨ s.label = .execExit) := by simp [hl]
      refine ⟨_, step_cleanup hl hroot, .idle (.inl rfl) rfl ?_, .stays (by rw [hl]; rfl) rfl, rfl,
        List.prefix_append _ _, le_rfl, fun h => absurd h hnot, ?_⟩
      · show Served _ _ (s.calls ++ [.cleanup s.task.tMgr s.task.tArgs])
        have hcalls : s.calls = _ := hcalls
        have hargs : s.task.tArgs = _ := hargs
        rw [hcalls, hargs]
        exact hc.cleaned _
      · intro _
        simp [hl, Label.left, Label.demands, State.goto, State.call, State.modTask]
  | execExit hl hc h0 habort =>
      have hl : s.label = .execExit := hl
      refine ⟨s, ?_, .execExit hl hc h0 habort, .stays rfl rfl, rfl, List.prefix_rfl, le_rfl,
        fun h => ⟨rfl, h⟩, ?_⟩
      · simp [taskmanStep, hl, mgrUnregisterTask, pure, Except.pure]
      · intro _
        simp [hl, Label.left]

end step

/-! ### The code of one context on the shared memory -/

section shared

variable {w : World k Tree} {hist : Past k Tree} {s s' : Contexts k Tree} {x : State k Tree}
  {i j : Fin k.tasks} {c : Context k} {mgr : MgrId k}

theorem naming_mFreeTasks (i : Fin k.tasks) (mgr : MgrId k) :
    naming i (.mFreeTasks mgr) = .mFreeTasks mgr :=
  Equiv.swap_apply_of_ne_of_ne nofun nofun

theorem naming_other (i : Fin k.tasks) : naming i (.other i) = .tList := Equiv.swap_apply_right _ _

theorem rename_naming (L : Links (Node k)) (i : Fin k.tasks) :
    (L.rename (naming i)).rename (naming i) = L :=
  L.rename_rename_symm (naming i)

namespace Contexts

theorem view_joined_mFreeTasks (h : s.links.Joined (.mFreeTasks mgr)) :
    (s.view i c).links.Joined (.mFreeTasks mgr) := by
  rw [← naming_mFreeTasks i mgr]
  exact (s.links.joined_rename (naming i) _).mpr h

theorem view_joined_tList (h : s.links.Joined (.other i)) : (s.view i c).links.Joined .tList := by
  rw [← naming_other i]
  exact (s.links.joined_rename (naming i) _).mpr h

theorem set_links_stays (h : x.links = (s.view i c).links) : (s.set i x).links = s.links := by
  show x.links.rename (naming i) = s.links
  rw [h]
  exact rename_naming s.links i

theorem set_links_joins (h : x.links = (s.view i c).links.concat (.mFreeTasks mgr) .tList) :
    (s.set i x).links = s.links.concat (.mFreeTasks mgr) (.other i) := by
  show x.links.rename (naming i) = _
  rw [h, ← naming_mFreeTasks i mgr, ← naming_other i]
  exact (congrArg (Links.rename · (naming i)) (s.links.rename_concat (naming i) _ _)).trans
    (rename_naming _ i)

theorem set_links_leaves (h : x.links = (s.view i c).links.remove .tList) :
    (s.set i x).links = s.links.remove (.other i) := by
  show x.links.rename (naming i) = _
  rw [h, ← naming_other i]
  exact (congrArg (Links.rename · (naming i)) (s.links.rename_remove (naming i) _)).trans
    (rename_naming _ i)

@[simp] theorem set_context_self : (s.set i x).context i = some x.context := by
  simp [set]

@[simp] theorem set_context_of_ne (h : j ≠ i) : (s.set i x).context j = s.context j := by
  simp [set, h]

theorem waitsAt_of_none (h : s.context i = none) : s.waitsAt i = none := by
  simp [waitsAt, h]

theorem waitsAt_of_some (h : s.context i = some c) :
    s.waitsAt i = if c.label.waits then some c.task.tMgr else none := by
  simp [waitsAt, h]

theorem waitsAt_congr (h : s'.context i = s.context i) : s'.waitsAt i = s.waitsAt i := by
  simp only [waitsAt, h]

theorem exists_of_waitsAt (h : s.waitsAt i = some mgr) :
    ∃ c, s.context i = some c ∧ c.label.waits = true ∧ c.task.tMgr = mgr := by
  simpa [waitsAt, Option.bind_eq_some_iff] using h

end Contexts

/-! ### The queues -/

/-- The queue of each manager that is initialised. -/
def queues (hist : Past k Tree) (mgr : MgrId k) : Option (List (Fin k.tasks)) :=
  if initialised mgr hist then some (queue mgr hist) else none

theorem queues_exec {m : MgrId k} {n : Usize k} {task : TaskmanTask k} :
    queues (⟨s, .exec i m n task, (), s'⟩ :: hist) = queues hist := rfl

theorem queues_init (hq : queue mgr hist = []) :
    queues (⟨s, .init mgr, (), s'⟩ :: hist) = Function.update (queues hist) mgr (some []) := by
  funext m
  by_cases hm : m = mgr
  · subst hm
    simp [queues, initialised, queue, hq]
  · simp [queues, initialised, queue, hm, Ne.symm hm]

theorem queues_stays (h : s.waitsAt i = s'.waitsAt i) :
    queues (⟨s, .step i, (), s'⟩ :: hist) = queues hist := by
  funext m
  simp [queues, initialised, queue, h]

theorem queues_joins (h : s.waitsAt i = none) (h' : s'.waitsAt i = some mgr)
    (hi : initialised mgr hist = true) (hout : ∀ m, i ∉ queue m hist) :
    queues (⟨s, .step i, (), s'⟩ :: hist) =
      Function.update (queues hist) mgr (some (queue mgr hist ++ [i])) := by
  funext m
  by_cases hm : m = mgr
  · subst hm
    simp only [initialised] at hi
    simp [queues, initialised, queue, h, h', hi]
  · simp [queues, initialised, queue, h, h', hm, Ne.symm hm, List.erase_of_not_mem (hout m)]

theorem queues_leaves (h : s.waitsAt i = some mgr) (h' : s'.waitsAt i = none)
    (hi : initialised mgr hist = true) (hout : ∀ m, m ≠ mgr → i ∉ queue m hist) :
    queues (⟨s, .step i, (), s'⟩ :: hist) =
      Function.update (queues hist) mgr (some ((queue mgr hist).erase i)) := by
  funext m
  by_cases hm : m = mgr
  · subst hm
    simp only [initialised] at hi
    simp [queues, initialised, queue, h, h', hi]
  · simp [queues, initialised, queue, h, h', hm, List.erase_of_not_mem (hout m hm)]

theorem shape : Shape (α := MgrId k) (β := Fin k.tasks) Node.mFreeTasks Node.other :=
  ⟨fun h => Node.mFreeTasks.inj h, fun h => Node.other.inj h, nofun⟩

/-- What holds in every state. -/
structure Shared (w : World k Tree) (hist : Past k Tree) (s : Contexts k Tree) : Prop where
  rings : RingTable s.links Node.mFreeTasks Node.other (queues hist)
    fun i => (s.context i).isSome ∧ s.waitsAt i = none
  waits : ∀ m i, i ∈ queue m hist ↔ s.waitsAt i = some m
  known : ∀ i c, s.context i = some c → initialised c.task.tMgr hist = true
  keeps : ∀ i c, s.context i = some c → Local (w.env i) c

namespace Shared

theorem queues_eq (S : Shared w hist s) (h : s.context i = some c) :
    queues hist c.task.tMgr = some (queue c.task.tMgr hist) :=
  if_pos (S.known i c h)

theorem isRing (S : Shared w hist s) (h : initialised mgr hist = true) :
    IsRing s.links (.mFreeTasks mgr) ((queue mgr hist).map .other) :=
  S.rings.ring (if_pos h)

theorem notMem (S : Shared w hist s) (h : s.waitsAt i = none) (m : MgrId k) : i ∉ queue m hist := by
  intro hi
  cases h.symm.trans ((S.waits m i).mp hi)

theorem joined (S : Shared w hist s) (h : s.context i = some c) : s.links.Joined (.other i) := by
  cases hwaits : s.waitsAt i with
  | none =>
      have halone : IsRing s.links (.other i) [] :=
        S.rings.single ⟨Option.isSome_iff_exists.mpr ⟨c, h⟩, hwaits⟩
      exact halone.joined List.mem_cons_self
  | some m =>
      obtain ⟨c', hc', -, rfl⟩ := Contexts.exists_of_waitsAt hwaits
      have hmem := (S.waits _ i).mpr hwaits
      exact (S.isRing (S.known i c' hc')).joined
        (List.mem_cons_of_mem _ (List.mem_map_of_mem hmem))

/-- **A context can take its next step.** -/
theorem goes (S : Shared w hist s) (h : s.context i = some c) :
    ∃ x, taskmanStep (w.env i) (s.view i c) = .ok x ∧ Goes (w.env i) (s.view i c) x := by
  have hring := S.isRing (S.known i c h)
  have L : Local (w.env i) (s.view i c).context := S.keeps i c h
  exact L.step (Contexts.view_joined_mFreeTasks (hring.joined List.mem_cons_self))
    (Contexts.view_joined_tList (S.joined h))

theorem queue_eq_nil (S : Shared w hist s) (h : initialised mgr hist = false) : queue mgr hist = [] := by
  refine List.eq_nil_iff_forall_not_mem.mpr fun i hi => ?_
  obtain ⟨c, hc, -, rfl⟩ := Contexts.exists_of_waitsAt ((S.waits mgr i).mp hi)
  cases h.symm.trans (S.known i c hc)

theorem nodup (S : Shared w hist s) (mgr : MgrId k) : (queue mgr hist).Nodup := by
  cases h : initialised mgr hist with
  | true => exact (S.isRing h).nodup_nodes.of_map _
  | false => simp [S.queue_eq_nil h]

/-- The queues hold the contexts that wait, after a step of the context `i`. -/
theorem waits_step (S : Shared w hist s) (hother : ∀ j, j ≠ i → s'.waitsAt j = s.waitsAt j)
    (hi : s'.waitsAt i = s.waitsAt i ∨ s.waitsAt i = none ∨ s'.waitsAt i = none) (m : MgrId k)
    (j : Fin k.tasks) : j ∈ queue m (⟨s, .step i, (), s'⟩ :: hist) ↔ s'.waitsAt j = some m := by
  have hq : queue m (⟨s, .step i, (), s'⟩ :: hist) = if s.waitsAt i = s'.waitsAt i then queue m hist
      else if s'.waitsAt i = some m then queue m hist ++ [i] else (queue m hist).erase i := rfl
  rw [hq]
  by_cases hj : j = i
  · subst hj
    split
    · rename_i h
      rw [S.waits, h]
    · split
      · simp_all
      · rename_i _ h
        simp [(S.nodup m).mem_erase_iff, h]
  · rw [hother j hj, ← S.waits]
    split
    · rfl
    · split
      · simp [hj]
      · rw [List.mem_erase_of_ne hj]

theorem init (S : Shared w hist s) (hg : initialised mgr hist = false) :
    Shared w (⟨s, .init mgr, (), taskmanInit mgr s⟩ :: hist) (taskmanInit mgr s) := by
  have hnone : queues hist mgr = none := if_neg (by simp [hg])
  refine ⟨?_, S.waits, fun i c hc => ?_, S.keeps⟩
  · rw [queues_init (S.queue_eq_nil hg)]
    exact S.rings.initHead shape mgr fun l hl => by cases hnone.symm.trans hl
  · exact Bool.or_eq_true_iff.mpr (.inr (S.known i c hc))

theorem exec (S : Shared w hist s) {n : Usize k} {task : TaskmanTask k}
    (hg : guard hist s (.exec i mgr n task))
    (hs' : s' = s.set i (mgrRegisterTask (w.env i) mgr n (s.view i ⟨task, .taskInsertion, [], 0, 0⟩))) :
    Shared w (⟨s, .exec i mgr n task, (), s'⟩ :: hist) s' := by
  obtain ⟨hinit, hnone, hready, hlinks⟩ := hg
  have hself : s'.context i =
      some ⟨{ task with tMgr := mgr, tStackSize := n }, .taskInsertion, [], 0, 0⟩ := by
    rw [hs', Contexts.set_context_self]
    rfl
  have hother : ∀ j, j ≠ i → s'.context j = s.context j := fun j hj => by
    rw [hs', Contexts.set_context_of_ne hj]
  have hwaits : ∀ j, s'.waitsAt j = s.waitsAt j := by
    intro j
    by_cases hj : j = i
    · subst hj
      rw [Contexts.waitsAt_of_some hself, Contexts.waitsAt_of_none hnone]
      rfl
    · exact Contexts.waitsAt_congr (hother j hj)
  refine ⟨?_, fun m j => ?_, fun j c hc => ?_, fun j c hc => ?_⟩
  · have hsame : s'.links = s.links := by
      rw [hs']
      exact rename_naming s.links i
    rw [queues_exec, hsame]
    refine (S.rings.addSingle (IsRing.nil_iff.mpr hlinks)).weaken fun j hj => ?_
    by_cases hji : j = i
    · exact .inl hji
    · rw [hother j hji, hwaits] at hj
      exact .inr hj
  · rw [hwaits]
    exact S.waits m j
  · by_cases hj : j = i
    · subst hj
      cases hself.symm.trans hc
      exact hinit
    · exact S.known j c (hother j hj ▸ hc)
  · by_cases hj : j = i
    · subst hj
      cases hself.symm.trans hc
      exact .idle (.inl rfl) hready .nil
    · exact S.keeps j c (hother j hj ▸ hc)

theorem step (S : Shared w hist s) (h : s.context i = some c) (G : Goes (w.env i) (s.view i c) x) :
    Shared w (⟨s, .step i, (), s.set i x⟩ :: hist) (s.set i x) := by
  have hself : (s.set i x).context i = some x.context := Contexts.set_context_self
  have hother : ∀ j, j ≠ i → (s.set i x).waitsAt j = s.waitsAt j := fun j hj =>
    Contexts.waitsAt_congr (Contexts.set_context_of_ne hj)
  have hmgr : x.context.task.tMgr = c.task.tMgr := G.tMgr
  have hinit := S.known i c h
  have hsome : ∀ j, ((s.set i x).context j).isSome = (s.context j).isSome := by
    intro j
    by_cases hj : j = i
    · subst hj
      rw [hself, h]
      rfl
    · rw [Contexts.set_context_of_ne hj]
  have hrest : ∀ j c', (s.set i x).context j = some c' →
      initialised c'.task.tMgr hist = true ∧ Local (w.env j) c' := by
    intro j c' hc'
    by_cases hj : j = i
    · subst hj
      cases hself.symm.trans hc'
      exact ⟨hmgr ▸ hinit, G.keeps⟩
    · rw [Contexts.set_context_of_ne hj] at hc'
      exact ⟨S.known j c' hc', S.keeps j c' hc'⟩
  have hpre := Contexts.waitsAt_of_some h
  have hpost := Contexts.waitsAt_of_some hself
  rw [hmgr] at hpost
  cases G.moved with
  | stays hw hl =>
      have hw : x.context.label.waits = c.label.waits := hw
      have hsame : (s.set i x).waitsAt i = s.waitsAt i := by rw [hpost, hpre, hw]
      refine ⟨?_, S.waits_step hother (.inl hsame), fun j c' hc' => (hrest j c' hc').1,
        fun j c' hc' => (hrest j c' hc').2⟩
      rw [queues_stays hsame.symm, Contexts.set_links_stays hl]
      refine S.rings.weaken fun j hj => ?_
      by_cases hji : j = i
      · subst hji
        rwa [hsome, hsame] at hj
      · rwa [hsome, hother j hji] at hj
  | joins hw hw' hl =>
      have hpre : s.waitsAt i = none := hpre.trans (if_neg (Bool.eq_false_iff.mp hw))
      have hpost : (s.set i x).waitsAt i = some c.task.tMgr := hpost.trans (if_pos hw')
      refine ⟨?_, S.waits_step hother (.inr (.inl hpre)), fun j c' hc' => (hrest j c' hc').1,
        fun j c' hc' => (hrest j c' hc').2⟩
      rw [queues_joins hpre hpost hinit (S.notMem hpre), Contexts.set_links_joins hl]
      refine (S.rings.concat shape (S.queues_eq h) ⟨by rw [h]; rfl, hpre⟩).weaken fun j hj => ?_
      have hji : j ≠ i := by
        rintro rfl
        cases hpost.symm.trans hj.2
      rw [hsome, hother j hji] at hj
      exact ⟨hji, hj⟩
  | leaves hw hw' hl =>
      have hpre : s.waitsAt i = some c.task.tMgr := hpre.trans (if_pos hw)
      have hpost : (s.set i x).waitsAt i = none := hpost.trans (if_neg (Bool.eq_false_iff.mp hw'))
      have hout : ∀ m, m ≠ c.task.tMgr → i ∉ queue m hist := fun m hm hmem =>
        hm (Option.some.inj (hpre.symm.trans ((S.waits m i).mp hmem))).symm
      refine ⟨?_, S.waits_step hother (.inr (.inr hpost)), fun j c' hc' => (hrest j c' hc').1,
        fun j c' hc' => (hrest j c' hc').2⟩
      rw [queues_leaves hpre hpost hinit hout, Contexts.set_links_leaves hl]
      refine (S.rings.remove shape (S.queues_eq h) ((S.waits _ i).mpr hpre)).weaken fun j hj => ?_
      by_cases hji : j = i
      · exact .inl hji
      · rw [hsome, hother j hji] at hj
        exact .inr hj

end Shared

end shared

/-! ### Runs -/

section runs

variable {w : World k Tree} {hist new : Past k Tree} {s s' : Contexts k Tree} {i : Fin k.tasks}
  {c : Context k} {mgr : MgrId k} {a : Action k} {u : Unit}

theorem perform_ok (h : perform w a s = .ok (u, s')) : a.run w s = .ok s' := by
  cases hrun : a.run w s with
  | error f => simp [perform, hrun] at h
  | ok x =>
      rw [perform, hrun] at h
      cases h
      rfl

/-- A step of a context that has not entered, or a step of its code. -/
theorem run_step (h : (Action.step i).run w s = .ok s') : s.context i = none ∧ s' = s ∨
    ∃ c x, s.context i = some c ∧ taskmanStep (w.env i) (s.view i c) = .ok x ∧ s' = s.set i x := by
  cases hc : s.context i with
  | none =>
      simp only [Action.run, hc, Except.ok.injEq] at h
      exact .inl ⟨rfl, h.symm⟩
  | some c =>
      cases hstep : taskmanStep (w.env i) (s.view i c) with
      | error f => simp [Action.run, hc, hstep] at h
      | ok x =>
          simp only [Action.run, hc, hstep] at h
          exact .inr ⟨c, x, rfl, hstep, (Except.ok.inj h).symm⟩

theorem Shared.perform (S : Shared w hist s) (hg : guard hist s a) (h : perform w a s = .ok (u, s')) :
    Shared w (⟨s, a, u, s'⟩ :: hist) s' := by
  have hrun := perform_ok h
  cases a with
  | init mgr =>
      cases hrun
      exact S.init hg
  | exec i mgr n task => exact S.exec hg (Except.ok.inj hrun).symm
  | step i =>
      rcases run_step hrun with ⟨-, rfl⟩ | ⟨c, x, hc, hstep, rfl⟩
      · exact ⟨by rw [queues_stays rfl]; exact S.rings, S.waits_step (fun _ _ => rfl) (.inl rfl),
          S.known, S.keeps⟩
      · obtain ⟨y, hy, G⟩ := S.goes hc
        cases hstep.symm.trans hy
        exact S.step hc G

/-- **Every run.** -/
theorem shared_of_reach (hr : Reach boot (perform w) guard hist s) : Shared w hist s := by
  refine hr.invariant (fun s hs => ?_) fun S hg h => S.perform hg h
  have hs : ∀ i, s.context i = none := hs
  have hnone : ∀ i, s.waitsAt i = none := fun i => Contexts.waitsAt_of_none (hs i)
  refine ⟨⟨fun hl => ?_, fun hl => ?_, fun hb => ?_, fun hb => ?_⟩, fun m i => ?_, fun i c hc => ?_,
    fun i c hc => ?_⟩
  · cases hl
  · cases hl
  · simp [hs] at hb
  · simp [hs] at hb
  · simp [queue, hnone]
  · cases (hs i).symm.trans hc
  · cases (hs i).symm.trans hc

/-- What the steps of the other contexts and of the managers leave of a context. -/
theorem perform_context (hg : guard hist s a) (h : perform w a s = .ok (u, s'))
    (hc : s.context i = some c) (ha : ∀ j, a = .step j → j ≠ i) : s'.context i = some c := by
  have hrun := perform_ok h
  cases a with
  | init mgr =>
      cases hrun
      exact hc
  | exec j mgr n task =>
      have hji : i ≠ j := by
        rintro rfl
        cases hc.symm.trans hg.2.1
      cases hrun
      rw [Contexts.set_context_of_ne hji]
      exact hc
  | step j =>
      rcases run_step hrun with ⟨-, rfl⟩ | ⟨c', x, hc', hstep, rfl⟩
      · exact hc
      · rw [Contexts.set_context_of_ne (ha j rfl).symm]
        exact hc

/-- How many steps the context took. -/
def steps (i : Fin k.tasks) (new : Past k Tree) : ℕ :=
  new.countP fun e => match e.call with
    | .step j => j == i
    | _ => false

/-- **What every step of a context keeps holds later**, whatever the others do; `n` counts its steps. -/
theorem Shared.onward {P : ℕ → Context k → Prop} (S : Shared w hist s) (hc : s.context i = some c)
    (h0 : P 0 c) (hstep : ∀ {n} {x y : State k Tree}, P n x.context → Goes (w.env i) x y →
      P (n + 1) y.context)
    (h : Onward (Taskman.perform w) guard hist s new s') :
    Shared w (new ++ hist) s' ∧ ∃ c', s'.context i = some c' ∧ P (steps i new) c' := by
  induction h with
  | start he =>
      subst he
      exact ⟨S, c, hc, h0⟩
  | @call new s s' a u _ hg he ih =>
      obtain ⟨S', c', hc', hP⟩ := ih
      refine ⟨S'.perform hg he, ?_⟩
      by_cases ha : a = .step i
      · subst ha
        rcases run_step (perform_ok he) with ⟨hnone, -⟩ | ⟨c'', x, hc'', hx, rfl⟩
        · cases hnone.symm.trans hc'
        · cases hc'.symm.trans hc''
          obtain ⟨y, hy, G⟩ := S'.goes hc'
          cases hx.symm.trans hy
          refine ⟨x.context, Contexts.set_context_self, ?_⟩
          have hP : P _ (s.view i c').context := hP
          have hsucc := hstep hP G
          simpa [steps] using hsucc
      · refine ⟨c', perform_context hg he hc' fun j hj hji => ha (hji ▸ hj), ?_⟩
        have hsame : steps i (⟨s, a, u, s'⟩ :: new) = steps i new := by
          cases a with
          | step j =>
              have hji : j ≠ i := fun e => ha (e ▸ rfl)
              simp [steps, hji]
          | _ => simp [steps]
        rw [hsame]
        exact hP

/-! ### The free tasks -/

/-- The contexts share their managers in order. -/
structure Orderly (w : World k Tree) (hist : Past k Tree) (s : Contexts k Tree) : Prop where
  queues : ∀ mgr, initialised mgr hist = true →
    IsRing s.links (.mFreeTasks mgr) ((queue mgr hist).map .other)
  waits : ∀ mgr i, i ∈ queue mgr hist ↔ s.waitsAt i = some mgr
  alone : ∀ i, (s.context i).isSome → s.waitsAt i = none → IsRing s.links (.other i) []
  goesOn : ∀ i, ∃ s', perform w (.step i) s = .ok ((), s')
  serves : ∀ i c, s.context i = some c →
    ∃ rest, Served c.task.tMgr (w.mExec c.task.tMgr) (c.calls ++ rest)
  unready : ∀ i c, s.context i = some c → c.label.waits = true → c.task.tReady = 0
  exits : ∀ i c, s.context i = some c → c.label = .execExit →
    Served c.task.tMgr (w.mExec c.task.tMgr) c.calls ∧ 0 < c.aborts ∧ w.abort i (c.aborts - 1) ≠ 0

/-- The calls made so far begin a sequence of instances, each one executed and cleaned up. -/
theorem Local.serves {env : Env k Tree} (L : Local env c) :
    ∃ rest, Served c.task.tMgr (env.mExec c.task.tMgr) (c.calls ++ rest) := by
  cases L with
  | idle _ _ hc | execExit _ hc => exact ⟨[], by simpa using hc⟩
  | @execution l a _ hcalls hc =>
      refine ⟨[.exec (env.mExec c.task.tMgr) a, .cleanup c.task.tMgr a], ?_⟩
      rw [hcalls]
      simpa using hc.cleaned a
  | @cleanup l a _ hcalls hc =>
      refine ⟨[.cleanup c.task.tMgr a], ?_⟩
      rw [hcalls]
      exact hc.cleaned a

theorem Local.exits {env : Env k Tree} (L : Local env c) (h : c.label = .execExit) :
    Served c.task.tMgr (env.mExec c.task.tMgr) c.calls ∧ 0 < c.aborts ∧ env.abort (c.aborts - 1) ≠ 0 := by
  cases L with
  | execExit _ hc h0 habort => exact ⟨hc, h0, habort⟩
  | idle hl => simp [h, Label.waits] at hl
  | execution hl | cleanup hl => cases h.symm.trans hl

theorem Local.unready {env : Env k Tree} (L : Local env c) (h : c.label.waits = true) :
    c.task.tReady = 0 := by
  cases L with
  | idle _ hready => exact hready
  | execution hl | cleanup hl | execExit hl => simp [hl, Label.waits] at h

/-- **The free tasks of every manager are the contexts that wait at it, the first to come first**: for
any number of contexts and every order of their steps. -/
theorem contexts_orderly (hr : Reach boot (perform w) guard hist s) : Orderly w hist s := by
  have S := shared_of_reach hr
  refine ⟨fun mgr => S.isRing, S.waits, fun i hsome hnone => S.rings.single ⟨hsome, hnone⟩, fun i => ?_,
    fun i c hc => (S.keeps i c hc).serves, fun i c hc => (S.keeps i c hc).unready,
    fun i c hc => (S.keeps i c hc).exits⟩
  cases hc : s.context i with
  | none => exact ⟨s, by simp [perform, Action.run, hc]⟩
  | some c =>
      obtain ⟨x, hx, -⟩ := S.goes hc
      refine ⟨s.set i x, ?_⟩
      simp only [perform, Action.run, hc, hx]
      rfl

/-- One manager, two contexts. -/
abbrev pair : Machine := ⟨8, Nat.succ_pos 7, 1, 2, 1⟩

instance : NeZero pair.managers := ⟨by decide⟩
instance : NeZero pair.tasks := ⟨by decide⟩
instance : NeZero pair.functions := ⟨by decide⟩

/-- The context 0 is asked to wait for 5 units, the context 1 to stall; `*abort` is set after one
reading. -/
def pairWorld : World pair Unit where
  mExec _ := 0
  avlTreeInsert _ _ := ()
  address _ := 64
  ready i _ := if i = 0 then ⟨5, 0⟩ else ⟨-1, 0⟩
  abort _ n := if n < 1 then 0 else 1

/-- Every list is empty. -/
def pairBoot : Contexts pair Unit := ⟨⟨id, id⟩, fun _ => (), fun _ => none⟩

/-- The task of a context that enters. -/
def pairTask : TaskmanTask pair := ⟨0, 0, 0, 0, none, 7⟩

/-- The context 1 is the first to wait. -/
theorem contexts_orderly_run :
    ∃ hist s, queue 0 hist = [1, 0] ∧ Orderly pairWorld hist s := by
  obtain ⟨hist, s, hr, hp⟩ := @exists_reach_of_replay _ _ _ _ boot pairBoot (perform pairWorld) guard
    inferInstance (fun _ => rfl) (fun hist _ => decide (queue 0 hist = [1, 0]))
    [.init 0, .exec 0 0 32 pairTask, .exec 1 0 32 pairTask, .step 1, .step 0, .step 1, .step 0]
    (by decide +kernel)
  exact ⟨hist, s, of_decide_eq_true hp, contexts_orderly hr⟩

/-! ### The end of a context -/

/-- **Once `*abort` is set, a context returns within four steps of its own**, whatever the other contexts
do; it calls `m_ready` at most once more, an instance that it started is executed and cleaned up, and
its task is in no list. -/
theorem abort_returns (hr : Reach boot (perform w) guard hist s) (hc : s.context i = some c)
    (habort : ∀ n, c.aborts ≤ n → w.abort i n ≠ 0)
    (hlater : Onward (perform w) guard hist s new s') (hsteps : 4 ≤ steps i new) :
    ∃ c', s'.context i = some c' ∧ c'.label = .execExit ∧ c.calls <+: c'.calls ∧
      Served c.task.tMgr (w.mExec c.task.tMgr) c'.calls ∧ c'.readies ≤ c.readies + 1 ∧
      IsRing s'.links (.other i) [] := by
  obtain ⟨S, c', hc', hmgr, haborts, hcalls, hleft, hready⟩ := (shared_of_reach hr).onward hc
    (P := fun n x => x.task.tMgr = c.task.tMgr ∧ c.aborts ≤ x.aborts ∧ c.calls <+: x.calls ∧
      x.label.left ≤ 4 - n ∧ x.readies + x.label.demands ≤ c.readies + 1)
    ⟨rfl, le_rfl, List.prefix_rfl, by cases c.label <;> decide, by cases c.label <;> simp [Label.demands]⟩
    (by
      rintro n x y ⟨hmgr, haborts, hcalls, hleft, hready⟩ G
      obtain ⟨hleft', hready'⟩ := G.aborted fun n hn => habort n (haborts.trans hn)
      refine ⟨G.tMgr.trans hmgr, haborts.trans G.aborts, hcalls.trans G.calls, ?_, ?_⟩
      · have hleft : x.label.left ≤ 4 - n := hleft
        have hleft' : y.label.left ≤ x.label.left - 1 := hleft'
        show y.label.left ≤ 4 - (n + 1)
        omega
      · exact hready'.trans hready) hlater
  have hexit : c'.label = .execExit := by
    have hzero : c'.label.left = 0 := by omega
    cases hl : c'.label <;> simp_all [Label.left]
  have hnone : s'.waitsAt i = none := by
    rw [Contexts.waitsAt_of_some hc', hexit]
    rfl
  refine ⟨c', hc', hexit, hcalls, hmgr ▸ ((S.keeps i c' hc').exits hexit).1, by omega,
    S.rings.single ⟨by rw [hc']; rfl, hnone⟩⟩

/-- The context 0 waits, and returns. -/
theorem abort_returns_run : ∃ s : Contexts pair Unit, ∃ c, s.context 0 = some c ∧ c.label = .execExit ∧
    IsRing s.links (.other 0) [] := by
  obtain ⟨hist, s, new, s', hr, hlater, hp⟩ := @exists_onward_of_replay _ _ _ _ boot pairBoot
    (perform pairWorld) guard inferInstance (fun _ => rfl)
    (fun s new => decide (4 ≤ steps 0 new) &&
      (s.context 0).any fun (c : Context pair) => decide (1 ≤ c.aborts))
    [.init 0, .exec 0 0 32 pairTask, .step 0] (List.replicate 4 (.step 0))
    (by decide +kernel)
  obtain ⟨hsteps, hone⟩ := (Bool.and_eq_true_iff).mp hp
  obtain ⟨c, hc, haborts⟩ := (Option.any_eq_true _ _).mp hone
  have haborts := of_decide_eq_true haborts
  have habort : ∀ n, c.aborts ≤ n → pairWorld.abort 0 n ≠ 0 := fun n hn => by
    have hn : n ≠ 0 := by omega
    simp [pairWorld, hn]
  obtain ⟨c', hc', hexit, -, -, -, hout⟩ :=
    abort_returns hr hc habort hlater (of_decide_eq_true hsteps)
  exact ⟨s', c', hc', hexit, hout⟩

/-- **A context that stalls makes no further call**, whatever the other contexts do: it is executed by
none of them, and it leaves `m_free_tasks` only to return, once `*abort` is set. -/
theorem stall_lasts (hr : Reach boot (perform w) guard hist s) (hc : s.context i = some c)
    (hl : c.label = .stall) (hlater : Onward (perform w) guard hist s new s') :
    ∃ c', s'.context i = some c' ∧ c'.calls = c.calls ∧
      (c'.label = .stall ∧ i ∈ queue c.task.tMgr (new ++ hist) ∨
        c'.label = .execExit ∧ 0 < c'.aborts ∧ w.abort i (c'.aborts - 1) ≠ 0) := by
  obtain ⟨S, c', hc', hmgr, hcalls, hplace⟩ := (shared_of_reach hr).onward hc
    (P := fun _ x => x.task.tMgr = c.task.tMgr ∧ x.calls = c.calls ∧
      (x.label = .stall ∨ x.label = .execExit))
    ⟨rfl, rfl, .inl hl⟩
    (by
      rintro n x y ⟨hmgr, hcalls, hl⟩ G
      obtain ⟨hcalls', hl'⟩ := G.closed hl
      exact ⟨G.tMgr.trans hmgr, hcalls'.trans hcalls, hl'⟩) hlater
  refine ⟨c', hc', hcalls, hplace.imp (fun hl => ⟨hl, ?_⟩) fun hl => ⟨hl, ?_⟩⟩
  · rw [S.waits, Contexts.waitsAt_of_some hc', hl, hmgr]
    rfl
  · exact ((S.keeps i c' hc').exits hl).2

/-- The context 1 stalls, and the context 0 waits after it. -/
theorem stall_lasts_run : ∃ (hist : Past pair Unit) (s : Contexts pair Unit), ∃ c, s.context 1 = some c ∧
    (c.label = .stall ∧ 1 ∈ queue 0 hist ∨ c.label = .execExit) := by
  obtain ⟨hist, s, new, s', hr, hlater, hp⟩ := @exists_onward_of_replay _ _ _ _ boot pairBoot
    (perform pairWorld) guard inferInstance (fun _ => rfl)
    (fun s _ => (s.context 1).any fun (c : Context pair) => decide (c.label = .stall))
    [.init 0, .exec 0 0 32 pairTask, .exec 1 0 32 pairTask, .step 1, .step 1] [.step 0, .step 0]
    (by decide +kernel)
  obtain ⟨c, hc, hl⟩ := (Option.any_eq_true _ _).mp hp
  obtain ⟨c', hc', -, hplace⟩ := stall_lasts hr hc (of_decide_eq_true hl) hlater
  have hmgr : c.task.tMgr = 0 := Subsingleton.elim (α := Fin 1) _ _
  exact ⟨new ++ hist, s', c', hc', hmgr ▸ hplace.imp_right And.left⟩

end runs

end KernelTk.Taskman
