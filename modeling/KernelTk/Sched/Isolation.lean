import KernelTk.Sched.Deadlock
import KernelTk.Sched.Propagation

/-! # Processes are apart

A call that works in a process leaves the tasks, the primitives and the lists of the others.

* **Wards.** `Node.ward` is the process of the object of a list field, if the list is one of a process.
  `Apart` : no list, no wait and no override leads from one process to another.
* **Condition.** `StaysHome` : an object is registered in one process only, and the `p_prim` of a process in
  that one.  The code asks for neither; `t_process` and `p_process` are never reset, so that an object
  that changes its process would be in the lists of both.
* **Frame.** `Frame d s s'` : what belongs to `d` is the same in both memories, the assignments of its tasks
  to threads apart; threads belong to no process, and the policy may assign any task.
* **Walks.** A move that propagates marks edits one task and one primitive of a process, before a walk or
  after it (`Touched`, `Walked`).  Paths do not leave the process (`walk_apart`), whence one frame lemma
  for the four of them (`Walked.frame`).
* **Calls.** `exec_isolated` : a call keeps processes apart, and leaves those that it does not work in.
* **Runs.** `processes_isolated` : whatever is called, as long as no call works in `d`. -/

namespace KernelTk.Sched

open Transition
open CircularList (Links SameZone Zoned)

variable {k : Machine} {policy : Policy k} {hist new : Hist k} {s s' s₀ s₁ x : State k} {c : Call k}
  {r : BitVec 8} {p q : PrimId k} {t u : TaskId k} {h : ThreadId k} {d e : ProcessId k}
  {T : ThreadId k → Prop} {P P' : Pointers k}

/-! ### Wards -/

/-- The process of the object of a list field, given those of the tasks and of the primitives; the
lists of the scheduler and of the threads belong to no process. -/
def Node.ward (home : TaskId k → Option (ProcessId k)) (owner : PrimId k → Option (ProcessId k)) :
    Node k → Option (ProcessId k)
  | .pTasks c | .pPrimitives c => some c
  | .tSiblings t | .tStopped t | .tOverriders t => home t
  | .pSiblings p | .pStopped p | .pOverriders p => owner p
  | _ => none

/-- Nothing leads from one process to another. -/
structure Apart (P : Pointers k) (T : ThreadId k → Prop) : Prop where
  links : Zoned (Node.ward P.tProcess P.pProcess) (Node.known P T) P.links
  stopper : ∀ {t p}, P.tProcess t ≠ none → P.tStopper t = some p → P.pProcess p = P.tProcess t
  overridden : ∀ {p t}, P.pProcess p ≠ none → P.pOverridden p = some t → P.tProcess t = P.pProcess p
  prim : ∀ {d c}, P.pProcess (pPrim d) = some c → c = d

/-- The words of the lists of a process. -/
def SameWard (P : Pointers k) (d : ProcessId k) (L : Links (Node k)) : Prop :=
  SameZone (Node.ward P.tProcess P.pProcess) (some d) P.links L

namespace Apart

variable (A : Apart P T)
include A

theorem links_only (hL : Zoned (Node.ward P.tProcess P.pProcess) (Node.known P T) P'.links)
    (ht : P'.tProcess = P.tProcess) (hs : P'.tStopper = P.tStopper) (hp : P'.pProcess = P.pProcess)
    (ho : P'.pOverridden = P.pOverridden) (hc : P'.pSched = P.pSched) : Apart P' T where
  links := by
    rw [ht, hp]
    refine hL.congr (fun n => ?_) fun _ _ => ⟨rfl, rfl⟩
    cases n <;> simp only [Node.known, ht, hp, hc]
  stopper := by
    rw [ht, hs, hp]
    exact A.stopper
  overridden := by
    rw [ht, hp, ho]
    exact A.overridden
  prim := by
    rw [hp]
    exact A.prim

theorem stop (ht : P.tProcess t ≠ none) (hp : P.pProcess p = P.tProcess t) :
    Apart (P.stop p t) T ∧ ∀ d, P.tProcess t ≠ some d → SameWard P d (P.stop p t).links := by
  have hknown : Node.known P T (.pStopped p) := fun e => ht (hp.symm.trans e)
  have h₁ := (A.links.insertBefore (n := Node.tStopped t) hknown hp.symm).absorb ht
  have h₂ := h₁.remove (n := Node.tSchedList t) ht
  refine ⟨⟨?_, fun {u q} hu hq => ?_, A.overridden, A.prim⟩, fun d hd => ?_⟩
  · exact h₂.congr (fun n => by cases n <;> rfl) fun _ _ => ⟨rfl, rfl⟩
  · by_cases hut : u = t
    · subst hut
      simp only [Pointers.stop, Function.update_self, Option.some.injEq] at hq
      exact hq ▸ hp
    · simp only [Pointers.stop, Function.update_of_ne hut] at hq
      exact A.stopper hu hq
  · refine (A.links.insertBefore_same (n := Node.tStopped t) hknown hp.symm hd).trans ?_
    exact h₁.remove_same (n := Node.tSchedList t) ht (Option.some_ne_none d).symm

theorem resume (ht : P.tProcess t ≠ none) :
    Apart (P.resume p t) T ∧ ∀ d, P.tProcess t ≠ some d → SameWard P d (P.resume p t).links := by
  have h₁ := (A.links.insertAfter (h := Node.sActives) (n := Node.tSchedList t) trivial rfl).absorb ht
  have h₂ := h₁.remove (n := Node.tStopped t) ht
  refine ⟨⟨?_, fun {u q} hu hq => ?_, A.overridden, A.prim⟩, fun d hd => ?_⟩
  · exact h₂.congr (fun n => by cases n <;> rfl) fun _ _ => ⟨rfl, rfl⟩
  · by_cases hut : u = t
    · simp [Pointers.resume, hut] at hq
    · simp only [Pointers.resume, Function.update_of_ne hut] at hq
      exact A.stopper hu hq
  · have hne : Node.ward P.tProcess P.pProcess (.tSchedList t) ≠ some d :=
      (Option.some_ne_none d).symm
    refine (A.links.insertAfter_same (h := Node.sActives) (n := Node.tSchedList t) trivial rfl
      hne).trans ?_
    exact h₁.remove_same (n := Node.tStopped t) ht hd

theorem override (ht : P.tProcess t ≠ none) (hp : P.pProcess p = P.tProcess t) :
    Apart (P.override p t) T ∧ ∀ d, P.tProcess t ≠ some d → SameWard P d (P.override p t).links := by
  have hknown : Node.known P T (.pSiblings p) := fun e => ht (hp.symm.trans e)
  have h₁ := (A.links.insertAfter (h := Node.tOverriders t) (n := Node.pSiblings p) ht hp).absorb hknown
  refine ⟨⟨?_, A.stopper, fun {q u} hq hu => ?_, A.prim⟩, fun d hd => ?_⟩
  · exact h₁.congr (fun n => by cases n <;> rfl) fun _ _ => ⟨rfl, rfl⟩
  · by_cases hqp : q = p
    · subst hqp
      simp only [Pointers.override, Function.update_self, Option.some.injEq] at hu
      exact hu ▸ hp.symm
    · simp only [Pointers.override, Function.update_of_ne hqp] at hu
      exact A.overridden hq hu
  · exact A.links.insertAfter_same (h := Node.tOverriders t) (n := Node.pSiblings p) ht hp
      fun e => hd (hp.symm.trans e)

theorem unoverride (hp : P.pProcess p ≠ none) :
    Apart (P.unoverride p t) T ∧ ∀ d, P.pProcess p ≠ some d → SameWard P d (P.unoverride p t).links := by
  have h₁ := A.links.remove (n := Node.pSiblings p) hp
  refine ⟨⟨?_, A.stopper, fun {q u} hq hu => ?_, A.prim⟩, fun d hd => ?_⟩
  · exact h₁.congr (fun n => by cases n <;> rfl) fun _ _ => ⟨rfl, rfl⟩
  · by_cases hqp : q = p
    · simp [Pointers.unoverride, hqp] at hu
    · simp only [Pointers.unoverride, Function.update_of_ne hqp] at hu
      exact A.overridden hq hu
  · exact A.links.remove_same (n := Node.pSiblings p) hp hd

theorem unlinked (P' : Pointers k) {n : Node k} (hn : n.known P T)
    (hL : P'.links = P.links.remove n ∨ P'.links = P.links.removeUnsafe n)
    (ht : P'.tProcess = P.tProcess) (hs : P'.tStopper = P.tStopper) (hp : P'.pProcess = P.pProcess)
    (ho : P'.pOverridden = P.pOverridden) (hc : P'.pSched = P.pSched) :
    Apart P' T ∧ ∀ d, n.ward P.tProcess P.pProcess ≠ some d → SameWard P d P'.links := by
  rcases hL with hL | hL
  · refine ⟨A.links_only ?_ ht hs hp ho hc, fun d hd => ?_⟩
    · rw [hL]
      exact A.links.remove hn
    · rw [hL]
      exact A.links.remove_same hn hd
  · refine ⟨A.links_only ?_ ht hs hp ho hc, fun d hd => ?_⟩
    · rw [hL]
      exact A.links.removeUnsafe hn
    · rw [hL]
      exact A.links.removeUnsafe_same hn hd

theorem leave (ht : P.tProcess t ≠ none) (o : Option (ThreadId k)) :
    Apart (o.elim P fun g => P.leave g t) T ∧
      ∀ d, SameWard P d (o.elim P fun g => P.leave g t).links := by
  cases o with
  | none => exact ⟨A, fun d => .refl _ _ _⟩
  | some g =>
      obtain ⟨A', hsame⟩ := A.unlinked (P.leave g t) (n := .tHistory t) ht (.inl rfl) rfl rfl rfl
        rfl rfl
      exact ⟨A', fun d => hsame d (Option.some_ne_none d).symm⟩

theorem enter (ht : P.tProcess t ≠ none) (hh : T h) :
    Apart (P.enter h t) T ∧ ∀ d, SameWard P d (P.enter h t).links := by
  have h₁ := (A.links.insertAfter (h := Node.threadHistory h) (n := Node.tHistory t) hh rfl).absorb ht
  refine ⟨A.links_only h₁ rfl rfl rfl rfl rfl, fun d => ?_⟩
  have hne : Node.ward P.tProcess P.pProcess (.tHistory t) ≠ some d :=
      (Option.some_ne_none d).symm
  exact A.links.insertAfter_same (h := Node.threadHistory h) hh rfl hne

theorem addTask (hd : P.pSched d = true) (hhome : ∀ c, P.tProcess t = some c → c = d) :
    Apart (P.addTask d t) T ∧ ∀ c, some d ≠ some c → SameWard P c (P.addTask d t).links := by
  have hold : ∀ u, P.tProcess u ≠ none → Function.update P.tProcess t (some d) u = P.tProcess u := by
    intro u hu
    by_cases hut : u = t
    · subst hut
      obtain ⟨c, hc⟩ := Option.ne_none_iff_exists'.mp hu
      rw [Function.update_self, hc, hhome c hc]
    · rw [Function.update_of_ne hut]
  have h₀ : Zoned (Node.ward (Function.update P.tProcess t (some d)) P.pProcess) (Node.known P T)
      P.links := by
    refine A.links.rezone fun n hn => ?_
    cases n with
    | tSiblings u | tStopped u | tOverriders u => exact hold u hn
    | _ => rfl
  have hself : Function.update P.tProcess t (some d) t = some d := Function.update_self ..
  have h₁ := h₀.insertAfter (h := Node.sActives) (n := Node.tSchedList t) trivial rfl
  have h₂ := h₁.insertAfter (h := Node.pTasks d) (n := Node.tSiblings t) (.inr hd) hself
  have h₃ := ((h₂.init (.tOverriders t)).init (.tStopped t)).init (.tHistory t)
  refine ⟨⟨?_, fun {u q} hu hq => ?_, fun {q u} hq hu => ?_, A.prim⟩, fun c hc => ?_⟩
  · refine h₃.congr (fun n => ?_) fun _ _ => ⟨rfl, rfl⟩
    cases n with
    | tSchedList u | tSiblings u | tStopped u | tOverriders u | tHistory u =>
        by_cases hu : u = t
        · simp [Node.known, Pointers.addTask, hu]
        · simp [Node.known, Pointers.addTask, hu]
    | _ => simp [Node.known, Pointers.addTask]
  · by_cases hut : u = t
    · simp [Pointers.addTask, hut] at hq
    · simp only [Pointers.addTask, Function.update_of_ne hut] at hu hq ⊢
      exact A.stopper hu hq
  · have hu' := A.overridden hq hu
    have hne : P.tProcess u ≠ none := hu' ▸ hq
    exact (hold u hne).trans hu'
  · -- a field of another process is no field of the task
    have hnew : ∀ n : Node k, n.ward P.tProcess P.pProcess = some c →
        n.ward (Function.update P.tProcess t (some d)) P.pProcess = some c := by
      intro n hn
      cases n with
      | tSiblings u | tStopped u | tOverriders u =>
          exact (hold u fun e => by cases e.symm.trans hn).trans hn
      | _ => exact hn
    have hsched : Node.ward (Function.update P.tProcess t (some d)) P.pProcess (.tSchedList t) ≠ some c :=
      (Option.some_ne_none c).symm
    have hhist : Node.ward (Function.update P.tProcess t (some d)) P.pProcess (.tHistory t) ≠ some c :=
      (Option.some_ne_none c).symm
    have htask : Function.update P.tProcess t (some d) t ≠ some c :=
      fun e => hc (hself.symm.trans e)
    have hsame := (h₀.insertAfter_same (h := Node.sActives) (n := Node.tSchedList t) trivial rfl
      hsched).trans
      (h₁.insertAfter_same (h := Node.pTasks d) (n := Node.tSiblings t) (.inr hd) hself htask)
    have hinit := (Zoned.init_same (n := Node.tOverriders t) htask
      ((P.links.insertAfter .sActives (.tSchedList t)).insertAfter (.pTasks d) (.tSiblings t))).trans
      ((Zoned.init_same (n := Node.tStopped t) htask _).trans (Zoned.init_same hhist _))
    exact fun n hn => (hsame.trans hinit) n (hnew n hn)

theorem addPrim (howner : ∀ c, P.pProcess p = some c → c = d) (hprim : ∀ c, p = pPrim c → c = d) :
    Apart (P.addPrim d p) T ∧ ∀ c, some d ≠ some c → SameWard P c (P.addPrim d p).links := by
  have hold : ∀ q, P.pProcess q ≠ none → Function.update P.pProcess p (some d) q = P.pProcess q := by
    intro q hq
    by_cases hqp : q = p
    · subst hqp
      obtain ⟨c, hc⟩ := Option.ne_none_iff_exists'.mp hq
      rw [Function.update_self, hc, howner c hc]
    · rw [Function.update_of_ne hqp]
  have h₀ : Zoned (Node.ward P.tProcess (Function.update P.pProcess p (some d))) (Node.known P T)
      P.links := by
    refine A.links.rezone fun n hn => ?_
    cases n with
    | pSiblings q | pStopped q | pOverriders q => exact hold q hn
    | _ => rfl
  have h₁ := ((h₀.init (.pSiblings p)).init (.pStopped p)).init (.pOverriders p)
  refine ⟨⟨?_, fun {u q} hu hq => ?_, fun {q u} hq hu => ?_, fun {e c} hc => ?_⟩, fun c hc => ?_⟩
  · refine h₁.congr (fun n => ?_) fun _ _ => ⟨rfl, rfl⟩
    cases n with
    | pSiblings q | pStopped q | pOverriders q =>
        by_cases hq : q = p
        · simp [Node.known, Pointers.addPrim, hq]
        · simp [Node.known, Pointers.addPrim, hq]
    | _ => simp [Node.known, Pointers.addPrim]
  · have hq' := A.stopper hu hq
    have hne : P.pProcess q ≠ none := hq' ▸ hu
    exact (hold q hne).trans hq'
  · by_cases hqp : q = p
    · simp [Pointers.addPrim, hqp] at hu
    · simp only [Pointers.addPrim, Function.update_of_ne hqp] at hq hu ⊢
      exact A.overridden hq hu
  · by_cases hep : pPrim e = p
    · have he := hprim e hep.symm
      simp only [Pointers.addPrim, hep, Function.update_self, Option.some.injEq] at hc
      rw [he, hc]
    · simp only [Pointers.addPrim, Function.update_of_ne hep] at hc
      exact A.prim hc
  · have hnew : ∀ n : Node k, n.ward P.tProcess P.pProcess = some c →
        n.ward P.tProcess (Function.update P.pProcess p (some d)) = some c := by
      intro n hn
      cases n with
      | pSiblings q | pStopped q | pOverriders q =>
          exact (hold q fun e => by cases e.symm.trans hn).trans hn
      | _ => exact hn
    have hself : Function.update P.pProcess p (some d) p ≠ some c :=
      fun e => hc ((Function.update_self p (some d) P.pProcess).symm.trans e)
    have hinit : SameZone (Node.ward P.tProcess (Function.update P.pProcess p (some d))) (some c)
        P.links (addPrimLinks p P.links) :=
      (Zoned.init_same (n := Node.pSiblings p) hself _).trans
        ((Zoned.init_same (n := Node.pStopped p) hself _).trans
          (Zoned.init_same (n := Node.pOverriders p) hself _))
    exact fun n hn => hinit n (hnew n hn)

theorem addProcess :
    Apart (P.addProcess d) T ∧ ∀ c, some d ≠ some c → SameWard P c (P.addProcess d).links := by
  have h₁ := A.links.insertAfter (h := Node.sProcesses) (n := Node.pList d) trivial rfl
  have h₂ := (h₁.init (.pTasks d)).init (.pPrimitives d)
  refine ⟨⟨?_, A.stopper, A.overridden, A.prim⟩, fun c hc => ?_⟩
  · refine h₂.congr (fun n => ?_) fun _ _ => ⟨rfl, rfl⟩
    cases n with
    | pList e | pTasks e | pPrimitives e =>
        by_cases he : e = d
        · simp [Node.known, Pointers.addProcess, he]
        · simp [Node.known, Pointers.addProcess, he]
    | _ => simp [Node.known, Pointers.addProcess]
  · have hne : Node.ward P.tProcess P.pProcess (.pList d) ≠ some c :=
      (Option.some_ne_none c).symm
    refine (A.links.insertAfter_same (h := Node.sProcesses) (n := Node.pList d) trivial rfl hne).trans ?_
    exact (Zoned.init_same (n := Node.pTasks d) hc _).trans
      (Zoned.init_same (n := Node.pPrimitives d) hc _)

theorem addThread :
    Apart (P.addThread h) (fun g => g = h ∨ T g) ∧ ∀ d, SameWard P d (P.addThread h).links := by
  have h₁ := A.links.insertAfter (h := Node.sThreads) (n := Node.threadList h) trivial rfl
  have h₂ := h₁.init (.threadHistory h)
  refine ⟨⟨?_, A.stopper, A.overridden, A.prim⟩, fun d => ?_⟩
  · refine h₂.congr (fun n => ?_) fun _ _ => ⟨rfl, rfl⟩
    cases n <;> simp [Node.known, Pointers.addThread]
  · have hlist : Node.ward P.tProcess P.pProcess (.threadList h) ≠ some d :=
      (Option.some_ne_none d).symm
    have hhist : Node.ward P.tProcess P.pProcess (.threadHistory h) ≠ some d :=
      (Option.some_ne_none d).symm
    exact (A.links.insertAfter_same (h := Node.sThreads) (n := Node.threadList h) trivial rfl
      hlist).trans (Zoned.init_same hhist _)

end Apart

/-! ### Moves -/

/-- The move works in the process `o`, if it works in one. -/
def Move.Works (o : Option (ProcessId k)) (x : State k) : Move k → Prop
  | .edit e => match e with
      | .stop p _ | .override p _ | .unoverride p _ | .take p _ | .release p _ | .releasePrim p =>
          (x.prim p).pProcess = o
      | .resume _ t => (x.task t).tProcess = o
      | .processStatus d _ => some d = o
      | .commit _ => True
  | .addProcess d | .uncount d => some d = o
  | .addTask d t => some d = o ∧ ∀ c, (x.task t).tProcess = some c → c = d
  | .addPrim d p => some d = o ∧ (∀ c, (x.prim p).pProcess = some c → c = d) ∧ ∀ c, p = pPrim c → c = d
  | .setBound p _ => ∀ c, (x.prim p).pProcess = some c → some c = o
  | .forgetPrim d p => (x.prim p).pProcess = o ∧ some d = o
  | _ => True

/-- **Every move keeps processes apart**, and leaves the lists of those that it does not work in. -/
theorem Apart.move {o : Option (ProcessId k)} (Z : Zones x.pointers T) (A : Apart x.pointers T)
    (m : Move k) (hm : m.Checked x) (hw : m.Works o x) :
    Apart (m.apply x).pointers (m.threads T) ∧
      ∀ d, o ≠ some d → SameWard x.pointers d (m.apply x).pointers.links := by
  rw [m.apply_pointers]
  have hrefl : Apart x.pointers T ∧ ∀ d, o ≠ some d → SameWard x.pointers d x.pointers.links :=
    ⟨A, fun d _ => .refl _ _ _⟩
  cases m with
  | edit e =>
      obtain ⟨he, hextra⟩ := hm
      cases e with
      | stop p t =>
          obtain ⟨A', hsame⟩ := A.stop he.1.member he.1.same
          exact ⟨A', fun d hd => hsame d fun e => hd (hw.symm.trans (he.1.same.trans e))⟩
      | resume p t =>
          obtain ⟨A', hsame⟩ := A.resume (p := p) he.1
          exact ⟨A', fun d hd => hsame d fun e => hd (hw.symm.trans e)⟩
      | override p t =>
          obtain ⟨A', hsame⟩ := A.override he.1.member he.1.same
          exact ⟨A', fun d hd => hsame d fun e => hd (hw.symm.trans (he.1.same.trans e))⟩
      | unoverride p t =>
          obtain ⟨A', hsame⟩ := A.unoverride (t := t) hextra
          exact ⟨A', fun d hd => hsame d fun e => hd (hw.symm.trans e)⟩
      | _ => exact hrefl
  | assign h t =>
      simp only [Move.pointers]
      split
      · exact hrefl
      · obtain ⟨A₁, h₁⟩ := A.leave hm.1 (x.pointers.tThread t)
        cases ho : x.pointers.tThread t with
        | none =>
            rw [ho] at A₁ h₁
            obtain ⟨A₂, h₂⟩ := A₁.enter hm.1 (Z.thread h hm.2)
            exact ⟨A₂, fun d _ => (h₁ d).trans (h₂ d)⟩
        | some g =>
            rw [ho] at A₁ h₁
            obtain ⟨A₂, h₂⟩ := A₁.enter hm.1 (Z.thread h hm.2)
            exact ⟨A₂, fun d _ => (h₁ d).trans (h₂ d)⟩
  | leave t =>
      obtain ⟨A', hsame⟩ := A.leave hm (x.pointers.tThread t)
      exact ⟨A', fun d _ => hsame d⟩
  | unlink t =>
      obtain ⟨A', hsame⟩ := A.unlinked ((Move.unlink t).pointers x.pointers)
        (n := .tSchedList t) hm (.inl rfl) rfl rfl rfl rfl rfl
      exact ⟨A', fun d _ => hsame d (Option.some_ne_none d).symm⟩
  | unlinkUnsafe t =>
      obtain ⟨A', hsame⟩ := A.unlinked ((Move.unlinkUnsafe t).pointers x.pointers)
        (n := .tSchedList t) hm (.inr rfl) rfl rfl rfl rfl rfl
      exact ⟨A', fun d _ => hsame d (Option.some_ne_none d).symm⟩
  | uncount c => exact ⟨A.links_only A.links rfl rfl rfl rfl rfl, fun d _ => .refl _ _ _⟩
  | addProcess c =>
      obtain ⟨A', hsame⟩ := A.addProcess (d := c)
      exact ⟨A', fun d hd => hsame d fun e => hd (hw.symm.trans e)⟩
  | addThread h =>
      obtain ⟨A', hsame⟩ := A.addThread (h := h)
      exact ⟨A', fun d _ => hsame d⟩
  | addTask c t =>
      obtain ⟨A', hsame⟩ := A.addTask (t := t) hm hw.2
      exact ⟨A', fun d hd => hsame d fun e => hd (hw.1.symm.trans e)⟩
  | addPrim c p =>
      obtain ⟨A', hsame⟩ := A.addPrim (d := c) hw.2.1 hw.2.2
      exact ⟨A', fun d hd => hsame d fun e => hd (hw.1.symm.trans e)⟩
  | forgetPrim c p =>
      obtain ⟨A', hsame⟩ := A.unlinked ((Move.forgetPrim c p).pointers x.pointers)
        (n := .pSiblings p) hm.1 (.inr rfl) rfl rfl rfl rfl rfl
      exact ⟨A', fun d hd => hsame d fun e => hd (hw.1.symm.trans e)⟩
  | forgetThread h =>
      obtain ⟨A', hsame⟩ := A.unlinked ((Move.forgetThread h).pointers x.pointers)
        (n := .threadList h) (Z.thread h hm) (.inr rfl) rfl rfl rfl rfl rfl
      exact ⟨A', fun d _ => hsame d (Option.some_ne_none d).symm⟩
  | forgetProcess c =>
      obtain ⟨A', hsame⟩ := A.unlinked ((Move.forgetProcess c).pointers x.pointers)
        (n := .pList c) hm (.inr rfl) rfl rfl rfl rfl rfl
      exact ⟨A', fun d _ => hsame d (Option.some_ne_none d).symm⟩
  | report | idle | setBound => exact hrefl

/-! ### Frames -/

/-- What belongs to `d` is the same in both memories, the assignments of its tasks apart. -/
structure Frame (d : ProcessId k) (s s' : State k) : Prop where
  task : ∀ t, (s.task t).tProcess = some d → s'.task t =
    { s.task t with tThread := (s'.task t).tThread, tCommit := (s'.task t).tCommit }
  prim : ∀ p, (s.prim p).pProcess = some d → s'.prim p = s.prim p
  bound : ∀ p, (s.prim p).pProcess = some d → s'.sNbOwners p = s.sNbOwners p
  process : s'.process d = s.process d
  links : SameWard s.pointers d s'.links

namespace Frame

theorem refl (d : ProcessId k) (s : State k) : Frame d s s :=
  ⟨fun _ _ => rfl, fun _ _ => rfl, fun _ _ => rfl, rfl, .refl _ _ _⟩

theorem tProcess (F : Frame d s s') (ht : (s.task t).tProcess = some d) :
    (s'.task t).tProcess = some d := by
  rw [F.task t ht]
  exact ht

theorem pProcess (F : Frame d s s') (hp : (s.prim p).pProcess = some d) :
    (s'.prim p).pProcess = some d := by
  rw [F.prim p hp]
  exact hp

theorem trans (F : Frame d s s₁) (F' : Frame d s₁ s') : Frame d s s' where
  task := fun t ht => by rw [F'.task t (F.tProcess ht), F.task t ht]
  prim := fun p hp => (F'.prim p (F.pProcess hp)).trans (F.prim p hp)
  bound := fun p hp => (F'.bound p (F.pProcess hp)).trans (F.bound p hp)
  process := F'.process.trans F.process
  links := fun n hn => by
    have hn' : n.ward s₁.pointers.tProcess s₁.pointers.pProcess = some d := by
      cases n with
      | tSiblings t | tStopped t | tOverriders t => exact F.tProcess hn
      | pSiblings p | pStopped p | pOverriders p => exact F.pProcess hn
      | _ => exact hn
    obtain ⟨hnext, hprev⟩ := F'.links n hn'
    exact ⟨hnext.trans (F.links n hn).1, hprev.trans (F.links n hn).2⟩

theorem of_objects (htask : ∀ t, (s.task t).tProcess = some d → s'.task t = s.task t)
    (hprim : ∀ p, (s.prim p).pProcess = some d → s'.prim p = s.prim p)
    (hbound : s'.sNbOwners = s.sNbOwners) (hprocess : s'.process d = s.process d)
    (hlinks : SameWard s.pointers d s'.links) : Frame d s s' where
  task := fun t ht => by rw [htask t ht]
  prim := hprim
  bound := fun p _ => congrFun hbound p
  process := hprocess
  links := hlinks

end Frame

/-- The process of an object. -/
def Pointers.wardOf (P : Pointers k) : PrimId k ⊕ TaskId k → Option (ProcessId k) :=
  Sum.elim P.pProcess P.tProcess

/-- A walk stays in a process; `x` has the pointers that it follows. -/
theorem walk_apart {a : PrimId k ⊕ TaskId k} {o : Option (ProcessId k)} (hw : s₀.WalkTo a s₁)
    (A : Apart x.pointers T) (habove : ∀ b, s₀.above b = x.above b) (ha : x.pointers.wardOf a = o)
    (ho : o ≠ none) :
    (∀ u, (x.task u).tProcess ≠ o → s₁.task u = s₀.task u) ∧
      (∀ q, (x.prim q).pProcess ≠ o → s₁.prim q = s₀.prim q) ∧
      s₁.process = s₀.process ∧ s₁.sNbOwners = s₀.sNbOwners := by
  obtain ⟨τ, π, rfl, hmet⟩ := hw
  have hstay : ∀ b, s₀.Met a b → x.pointers.wardOf b = o := by
    refine fun b hb => hb.keeps (I := fun b => x.pointers.wardOf b = o) ha fun {b c} hb hc => ?_
    rw [habove] at hc
    cases b with
    | inl q =>
        obtain ⟨u, hu, rfl⟩ := Option.map_eq_some_iff.mp hc
        exact (A.overridden (fun e => ho (hb.symm.trans e)) hu).trans hb
    | inr u =>
        obtain ⟨q, hq, rfl⟩ := Option.map_eq_some_iff.mp hc
        exact (A.stopper (fun e => ho (hb.symm.trans e)) hq).trans hb
  refine ⟨fun u hu => ?_, fun q hq => ?_, rfl, rfl⟩
  · have hτ : τ u = false := Bool.eq_false_iff.mpr fun h => hu (hstay _ ((hmet (.inr u)).mp h))
    simp [State.mark, hτ]
  · have hπ : π q = false := Bool.eq_false_iff.mpr fun h => hq (hstay _ ((hmet (.inl q)).mp h))
    simp [State.mark, hπ]

/-! ### Edits -/

/-- An edit of the task `t` and of the primitive `p`, which stay in their processes. -/
structure Touched (p : PrimId k) (t : TaskId k) (s s' : State k) : Prop where
  task : ∀ u, u ≠ t → s'.task u = s.task u
  prim : ∀ q, q ≠ p → s'.prim q = s.prim q
  home : (s'.task t).tProcess = (s.task t).tProcess
  owner : (s'.prim p).pProcess = (s.prim p).pProcess
  process : s'.process = s.process
  bound : s'.sNbOwners = s.sNbOwners

/-- `t` and `p` are edited around a walk upwards from one of the two; what follows the walk leaves the
pointers that the walk follows. -/
def Walked (p : PrimId k) (t : TaskId k) (s s' : State k) : Prop :=
  ∃ a s₀ s₁, (a = .inl p ∨ a = .inr t) ∧ Touched p t s s₀ ∧ s₀.WalkTo a s₁ ∧ Touched p t s₁ s' ∧
    s₁.above = s'.above

theorem above_modTask {f : Stask k → Stask k} (hf : ∀ x, (f x).tStopper = x.tStopper) :
    (s.modTask t f).above = s.above := by
  funext b
  cases b with
  | inl q => rfl
  | inr u => by_cases hu : u = t <;> simp [hu, hf]

theorem stopTask_walked (s : State k) (p : PrimId k) (t : TaskId k) :
    Walked p t s (stopTask p t s) := by
  simp only [stopTask]
  generalize hs₀ : State.modPrim _ p _ = s₀
  refine ⟨.inl p, s₀, _, .inl rfl, ?_, primitivePropagateUpdate_walkTo p s₀, ?_, ?_⟩
  · subst hs₀
    exact ⟨fun u hu => by simp [hu], fun q hq => by simp [hq], by simp, by simp, rfl, rfl⟩
  · exact ⟨fun u hu => by simp [hu], fun q _ => rfl, by simp, rfl, rfl, rfl⟩
  · refine Eq.symm (above_modTask ?_)
    exact fun _ => rfl

theorem resumeTask_walked (s : State k) (p : PrimId k) (t : TaskId k) :
    Walked p t s (resumeTask p t s) := by
  simp only [resumeTask]
  generalize hs₀ : State.modPrim _ p _ = s₀
  refine ⟨.inl p, s₀, _, .inl rfl, ?_, primitivePropagateUpdate_walkTo p s₀, ?_, ?_⟩
  · subst hs₀
    exact ⟨fun u hu => by simp [hu], fun q hq => by simp [hq], by simp, by simp, rfl, rfl⟩
  · exact ⟨fun u hu => by simp [hu], fun q _ => rfl, by simp, rfl, rfl, rfl⟩
  · refine Eq.symm (above_modTask ?_)
    exact fun _ => rfl

theorem overrideTask_walked (s : State k) (p : PrimId k) (t : TaskId k) :
    Walked p t s (overrideTask p t s) := by
  refine ⟨.inr t, _, _, .inr rfl, ?_, taskPropagateUpdate_walkTo t _, ?_, rfl⟩
  · exact ⟨fun u hu => by simp [hu], fun q hq => by simp [hq], by simp, by simp, rfl, rfl⟩
  · exact ⟨fun u _ => rfl, fun q _ => rfl, rfl, rfl, rfl, rfl⟩

theorem unOverride_walked (s : State k) (p : PrimId k) (t : TaskId k) :
    Walked p t s (unOverride p t s) := by
  refine ⟨.inr t, _, _, .inr rfl, ?_, taskPropagateUpdate_walkTo t _, ?_, rfl⟩
  · exact ⟨fun u hu => by simp [hu], fun q hq => by simp [hq], by simp, by simp, rfl, rfl⟩
  · exact ⟨fun u _ => rfl, fun q _ => rfl, rfl, rfl, rfl, rfl⟩

/-- The walk of an edit in the process `o` stays in `o`. -/
theorem Walked.frame {o : Option (ProcessId k)} (W : Walked p t s s') (A : Apart s'.pointers T)
    (hp : (s.prim p).pProcess = o) (ht : (s.task t).tProcess = o) (ho : o ≠ none) (hd : o ≠ some d)
    (hlinks : SameWard s.pointers d s'.links) : Frame d s s' := by
  obtain ⟨a, s₀, s₁, ha, B, hw, E, habove⟩ := W
  have hhome : ∀ u, (s'.task u).tProcess = (s.task u).tProcess := fun u => by
    by_cases hu : u = t
    · rw [hu, E.home, hw.tProcess, B.home]
    · rw [E.task u hu, hw.tProcess, B.task u hu]
  have howner : ∀ q, (s'.prim q).pProcess = (s.prim q).pProcess := fun q => by
    by_cases hq : q = p
    · rw [hq, E.owner, hw.pProcess, B.owner]
    · rw [E.prim q hq, hw.pProcess, B.prim q hq]
  have hstart : s'.pointers.wardOf a = o := by
    rcases ha with rfl | rfl
    · exact (howner p).trans hp
    · exact (hhome t).trans ht
  obtain ⟨hwt, hwp, hwc, hwb⟩ :=
    walk_apart hw A (fun b => congrFun (hw.above.symm.trans habove) b) hstart ho
  refine .of_objects (fun u hu => ?_) (fun q hq => ?_) ?_ ?_ hlinks
  · have hut : u ≠ t := by
      rintro rfl
      exact hd (ht.symm.trans hu)
    have hout : (s'.task u).tProcess ≠ o := fun e => hd (e.symm.trans ((hhome u).trans hu))
    rw [E.task u hut, hwt u hout, B.task u hut]
  · have hqp : q ≠ p := by
      rintro rfl
      exact hd (hp.symm.trans hq)
    have hout : (s'.prim q).pProcess ≠ o := fun e => hd (e.symm.trans ((howner q).trans hq))
    rw [E.prim q hqp, hwp q hout, B.prim q hqp]
  · rw [E.bound, hwb, B.bound]
  · rw [E.process, hwc, B.process]

theorem Frame.of_assigned (E : Assigned s s') (hlinks : SameWard s.pointers d s'.links) :
    Frame d s s' where
  task := fun t _ => E.task t
  prim := fun p _ => congrFun E.prim p
  bound := fun p _ => congrFun E.sNbOwners p
  process := congrFun E.process d
  links := hlinks

theorem Frame.record (F : Frame d s s') (call : HookCall k) : Frame d s (s'.record call) :=
  ⟨F.task, F.prim, F.bound, F.process, F.links⟩

/-- A move that edits the objects of the process `o` leaves those of the others. -/
theorem Move.frame_edit {o : Option (ProcessId k)} {e : Edit k} (Z : Zones x.pointers T)
    (A : Apart x.pointers T) (hm : (Move.edit e).Checked x) (hw : (Move.edit e).Works o x)
    (hd : o ≠ some d) : Frame d x ((Move.edit e).apply x) := by
  obtain ⟨A', hsame⟩ := A.move Z (.edit e) hm hw
  have hlinks : SameWard x.pointers d ((Move.edit e).apply x).links := hsame d hd
  have htask : ∀ {u t}, (x.task t).tProcess = o → (x.task u).tProcess = some d → u ≠ t := by
    rintro u t ht hu rfl
    exact hd (ht.symm.trans hu)
  have hprim : ∀ {q p}, (x.prim p).pProcess = o → (x.prim q).pProcess = some d → q ≠ p := by
    rintro q p hp hq rfl
    exact hd (hp.symm.trans hq)
  obtain ⟨he, hextra⟩ := hm
  cases e with
  | stop p t =>
      have ht : (x.task t).tProcess = o := he.1.same.symm.trans hw
      exact ((stopTask_walked x p t).frame A' hw ht (ht ▸ he.1.member) hd hlinks).record _
  | resume p t =>
      exact ((resumeTask_walked x p t).frame A' (hextra.trans hw) hw (hw ▸ he.1) hd hlinks).record _
  | override p t =>
      have ht : (x.task t).tProcess = o := he.1.same.symm.trans hw
      exact ((overrideTask_walked x p t).frame A' hw ht (ht ▸ he.1.member) hd hlinks).record _
  | unoverride p t =>
      have ht : (x.task t).tProcess = o := (A.overridden hextra he).trans hw
      exact ((unOverride_walked x p t).frame A' hw ht (hw ▸ hextra) hd hlinks).record _
  | take p t =>
      have ht : (x.task t).tProcess = o := he.1.same.symm.trans hw
      refine .of_objects (fun u hu => ?_) (fun q hq => ?_) rfl rfl hlinks
      · simp [Move.apply, Edit.report?, Edit.apply, takeOwnership, htask ht hu]
      · simp [Move.apply, Edit.report?, Edit.apply, takeOwnership, hprim hw hq]
  | release p t =>
      have ht : (x.task t).tProcess = o := he.1.same.symm.trans hw
      refine .of_objects (fun u hu => ?_) (fun q hq => ?_) rfl rfl hlinks
      · simp [Move.apply, Edit.report?, Edit.apply, releaseOwnership, releasePrim, htask ht hu]
      · simp [Move.apply, Edit.report?, Edit.apply, releaseOwnership, releasePrim, hprim hw hq]
  | releasePrim p =>
      refine .of_objects (fun u hu => rfl) (fun q hq => ?_) rfl rfl hlinks
      simp [Move.apply, Edit.report?, Edit.apply, releasePrim, hprim hw hq]
  | processStatus c y =>
      have hc : d ≠ c := fun e => hd (hw.symm.trans (congrArg some e.symm))
      refine .of_objects (fun u hu => rfl) (fun q hq => rfl) rfl ?_ hlinks
      simp [Move.apply, Edit.report?, Edit.apply, setProcessStatus, hc]
  | commit y => exact .of_objects (fun u hu => rfl) (fun q hq => rfl) rfl rfl hlinks

/-- **A move leaves what belongs to the processes that it does not work in.** -/
theorem Move.frame {o : Option (ProcessId k)} (Z : Zones x.pointers T) (A : Apart x.pointers T)
    (m : Move k) (hm : m.Checked x) (hw : m.Works o x) (hd : o ≠ some d) : Frame d x (m.apply x) := by
  obtain ⟨A', hsame⟩ := A.move Z m hm hw
  have hlinks : SameWard x.pointers d (m.apply x).links := hsame d hd
  have hprocess : ∀ c, some c = o → d ≠ c := fun c hc e => hd (hc.symm.trans (congrArg some e.symm))
  cases m with
  | edit e => exact Move.frame_edit Z A hm hw hd
  | assign h t => exact .of_assigned (assignTask_assigned h t x) hlinks
  | leave t => exact .of_assigned (threadUnregisterTask_assigned t x) hlinks
  | uncount c =>
      refine .of_objects (fun u hu => rfl) (fun q hq => rfl) rfl ?_ hlinks
      simp [Move.apply, hprocess c hw]
  | addProcess c =>
      refine .of_objects (fun u hu => rfl) (fun q hq => rfl) rfl ?_ hlinks
      simp [Move.apply, registerProcess, hprocess c hw]
  | addTask c t =>
      have hne : ∀ u, (x.task u).tProcess = some d → u ≠ t := by
        rintro u hu rfl
        exact hprocess c hw.1 (hw.2 d hu)
      refine .of_objects (fun u hu => ?_) (fun q hq => rfl) rfl ?_ hlinks
      · simp [Move.apply, registerTask, hne u hu]
      · simp [Move.apply, registerTask, hprocess c hw.1]
  | addPrim c p =>
      have hne : ∀ q, (x.prim q).pProcess = some d → q ≠ p := by
        rintro q hq rfl
        exact hprocess c hw.1 (hw.2.1 d hq)
      refine .of_objects (fun u hu => rfl) (fun q hq => ?_) rfl ?_ hlinks
      · simp [Move.apply, processRegisterPrim, hne q hq]
      · simp [Move.apply, processRegisterPrim, hprocess c hw.1]
  | setBound p n =>
      refine ⟨fun u hu => rfl, fun q hq => rfl, fun q hq => ?_, rfl, hlinks⟩
      have hqp : q ≠ p := by
        rintro rfl
        exact hd (hw d hq).symm
      simp [Move.apply, hqp]
  | forgetPrim c p =>
      refine .of_objects (fun u hu => rfl) (fun q hq => rfl) rfl ?_ hlinks
      simp [Move.apply, Sched.forgetPrim, hprocess c hw.2]
  | report | idle | unlink | unlinkUnsafe | addThread | forgetThread | forgetProcess =>
      exact .of_objects (fun u hu => rfl) (fun q hq => rfl) rfl rfl hlinks

/-! ### Calls -/

/-- Nothing leads from one process of the memory to another. -/
def State.Apart (s : State k) : Prop := ∃ T, Zones s.pointers T ∧ Sched.Apart s.pointers T

/-- Moves that work in `o`, if in any process. -/
theorem Moves.isolated {allowed : State k → Move k → Prop} {o : Option (ProcessId k)}
    (M : Moves allowed s s') (A : s.Apart)
    (hw : ∀ {x} (m : Move k), Moves allowed s x → x.Apart → m.Checked x → allowed x m → m.Works o x) :
    s'.Apart ∧ ∀ d, o ≠ some d → Frame d s s' := by
  induction M with
  | refl => exact ⟨A, fun d _ => .refl d s⟩
  | @step x m M hm ha ih =>
      obtain ⟨Ax, F⟩ := ih
      have hworks := hw m M Ax hm ha
      obtain ⟨T, Z, A'⟩ := Ax
      exact ⟨⟨_, Z.move m hm, (A'.move Z m hm hworks).1⟩,
        fun d hd => (F d hd).trans (m.frame Z A' hm hworks hd)⟩

/-- The process that a call works in. -/
def Call.process (s : State k) : Call k → Option (ProcessId k)
  | .registerProcess d | .unregisterProcess d | .registerTask d _ | .registerPrim d _
  | .pauseProcess d | .resumeProcess d | .mutexCtor _ d | .semCtor _ _ d => some d
  | .unregisterTask h => (s.thread h).tTask.bind fun t => (s.task t).tProcess
  | .resumeTask t => (s.task t).tProcess
  | .unregisterPrim p | .takeOwnership p _ | .releaseOwnership p _ | .overrideTask p _
  | .unoverrideTask p | .stopThread p _ | .mutexLock p _ | .mutexLockNb p _ | .mutexUnlock p _
  | .semTake p _ | .semTakeNb p _ | .semRelease p _ => (s.prim p).pProcess
  | .registerThread _ | .unregisterThread _ | .openCommit | .closeCommit | .assignTask _ _ => none

/-- A task is registered in its process only, and a primitive too; that of a process belongs to it. -/
def StaysHome (_ : Hist k) (s : State k) : Call k → Prop
  | .registerTask d t => ∀ c, (s.task t).tProcess = some c → c = d
  | .registerPrim d p | .mutexCtor p d | .semCtor p _ d =>
      (∀ c, (s.prim p).pProcess = some c → c = d) ∧ ∀ c, p = pPrim c → c = d
  | _ => True

/-- The calls whose moves `Call.Makes` tells apart. -/
def Call.ordinary : Call k → Bool
  | .registerProcess _ | .registerTask _ _ | .registerPrim _ _ | .mutexCtor _ _ | .semCtor _ _ _
  | .unregisterTask _ | .unregisterPrim _ => false
  | _ => true

theorem exec_isolated_ordinary (A : s.Apart) (hprimed : s.Primed) (hc : c.ordinary = true)
    (he : exec ⟨true, policy⟩ c s = .ok (r, s')) :
    s'.Apart ∧ ∀ d, c.process s ≠ some d → Frame d s s' := by
  obtain ⟨T, Z, -⟩ := id A
  have M := exec_moves Z hprimed he
  refine M.isolated A fun {x} m M Ax hm ha => ?_
  have hno : ∀ {y : State k} {d p}, ¬c.Makes policy s y (.addPrim d p) := by
    intro y d p h
    cases c <;> simp [Call.Makes, Call.primOf, Call.ordinary] at h hc
  have hprim : ∀ p, (x.prim p).pProcess = (s.prim p).pProcess := fun p => M.pProcess_eq fun _ _ => hno
  have hnoTask : ∀ {y : State k} {d t}, ¬c.Makes policy s y (.addTask d t) := by
    intro y d t h
    cases c <;> simp [Call.Makes, Call.ordinary] at h hc
  have htask : ∀ t, (x.task t).tProcess = (s.task t).tProcess :=
    fun t => M.tProcess_eq fun _ _ => hnoTask
  obtain ⟨T', -, A'⟩ := Ax
  cases m with
  | edit e =>
      cases e with
      | stop p t =>
          rcases ha with ⟨h, hb, -⟩ | ⟨d, rfl, rfl⟩
          · refine (hprim p).trans ?_
            cases c <;> simp [Call.blocking] at hb <;> simp [Call.process, hb]
          · obtain ⟨⟨hrel, -⟩, -⟩ := hm
            obtain ⟨e, he⟩ := Option.ne_none_iff_exists'.mp fun e => hrel.member (hrel.same.symm.trans e)
            exact he.trans (congrArg some (A'.prim he))
      | resume p t =>
          rcases ha with rfl | ⟨q, rfl⟩ | ⟨h, rfl, -⟩
          · exact htask t
          · cases hc
          · cases hc
      | override p t | unoverride p t =>
          refine (hprim p).trans ?_
          cases c <;> simp [Call.Makes, Call.overrides] at ha <;> simp [Call.process, ha]
      | take p t | release p t | releasePrim p =>
          refine (hprim p).trans ?_
          cases c <;> simp [Call.Makes, Call.owns] at ha <;> simp [Call.process, ha]
      | processStatus d y => rcases ha with ⟨rfl, -⟩ | ⟨rfl, -⟩ <;> rfl
      | commit y => trivial
  | uncount d =>
      obtain ⟨h, rfl⟩ := ha
      cases hc
  | forgetPrim d p =>
      obtain rfl := ha
      cases hc
  | setBound p n =>
      obtain ⟨d, rfl⟩ := ha
      cases hc
  | addProcess d =>
      obtain rfl := ha
      cases hc
  | addTask d t => exact absurd ha hnoTask
  | addPrim d p => exact absurd ha hno
  | _ => trivial

/-- A move that works in `o`, if in any process, and registers nothing. -/
def Inside (o : Option (ProcessId k)) (x : State k) (m : Move k) : Prop :=
  m.Works o x ∧ (∀ d t, m ≠ .addTask d t) ∧ ∀ d p, m ≠ .addPrim d p

section inside

variable {o : Option (ProcessId k)}

theorem inside_answers (policy : Policy k) (s : State k) (o : Option (ProcessId k)) :
    Answers policy s (Inside o) := by
  intro x h t _
  cases t <;> exact ⟨trivial, nofun, nofun⟩

theorem Moves.home (M : Moves (Inside o) s s') (t : TaskId k) :
    (s'.task t).tProcess = (s.task t).tProcess :=
  M.tProcess_eq fun _ d ha => ha.2.1 d t rfl

theorem Moves.owner (M : Moves (Inside o) s s') (p : PrimId k) :
    (s'.prim p).pProcess = (s.prim p).pProcess :=
  M.pProcess_eq fun _ d ha => ha.2.2 d p rfl

/-- The fields of the stopped lists of a process. -/
def StoppedIn (o : Option (ProcessId k)) (x : State k) (n : Node k) : Prop :=
  (∃ q, n = .pStopped q ∧ (x.prim q).pProcess = o) ∨ ∃ u, n = .tStopped u ∧ (x.task u).tProcess = o

theorem stoppedIn_next {n : Node k} (A : x.Apart) (ho : o ≠ none) (hn : StoppedIn o x n) :
    StoppedIn o x (x.links.next n) := by
  obtain ⟨T, Z, A⟩ := A
  have hknown : n.known x.pointers T ∧ n.zone = .stopped ∧
      n.ward x.pointers.tProcess x.pointers.pProcess = o := by
    rcases hn with ⟨q, rfl, hq⟩ | ⟨u, rfl, hu⟩
    · exact ⟨fun e => ho (hq.symm.trans e), rfl, hq⟩
    · exact ⟨fun e => ho (hu.symm.trans e), rfl, hu⟩
  have hzone := (Z.links.next hknown.1).2.trans hknown.2.1
  have hward := (A.links.next hknown.1).2.trans hknown.2.2
  change (x.links.next n).zone = .stopped at hzone
  change (x.links.next n).ward _ _ = o at hward
  cases hnext : x.links.next n with
  | pStopped q =>
      rw [hnext] at hward
      exact .inl ⟨q, rfl, hward⟩
  | tStopped u =>
      rw [hnext] at hward
      exact .inr ⟨u, rfl, hward⟩
  | _ =>
      rw [hnext] at hzone
      cases hzone

theorem unregisterPrim_inside (A : s.Apart)
    (he : processUnregisterPrim ⟨true, policy⟩ p s = .ok (r, s')) :
    Moves (Inside (s.prim p).pProcess) s s' := by
  obtain ⟨s₁, s₂, d, h₁, h₂, hprc, -, rfl⟩ := processUnregisterPrim_ok he
  rw [hprc]
  have hpolicy := inside_answers policy s (some d)
  have hapart : ∀ {x : State k}, Moves (Inside (some d)) s x → x.Apart :=
    fun M => (M.isolated A fun m _ _ _ ha => ha.1).1
  have M₁ : Moves (Inside (some d)) s s₁ := by
    refine CircularList.walk_closed (I := Moves (Inside (some d)) s) (K := StoppedIn (some d))
      (fun {n x} M hn => stoppedIn_next (hapart M) nofun hn) (fun {n x x'} M hn hb => ?_) .refl
      (stoppedIn_next A nofun (.inl ⟨p, rfl, hprc⟩)) h₁
    have M' : Moves (Inside (some d)) x x' := by
      refine Moves.resumeTask (inside_answers policy x _) List.suffix_rfl (fun q u hu => ?_) hb
      rcases hn with ⟨q', rfl, -⟩ | ⟨u', rfl, hu'⟩
      · cases hu
      · obtain rfl := Option.some.inj hu
        exact ⟨hu', nofun, nofun⟩
    refine ⟨M.trans M', fun m hm => hm.imp ?_ ?_⟩
    · exact fun ⟨q, e, hq⟩ => ⟨q, e, (M'.owner q).trans hq⟩
    · exact fun ⟨u, e, hu⟩ => ⟨u, e, (M'.home u).trans hu⟩
  have hwork : (s₁.prim p).pProcess = some d := (M₁.owner p).trans hprc
  have M₂ := M₁.trans (Moves.unOverride hpolicy M₁.hooks (fun _ => ⟨hwork, nofun, nofun⟩) h₂)
  have hwork₂ : (s₂.prim p).pProcess = some d := (M₂.owner p).trans hprc
  exact M₂.step (.forgetPrim d p) ⟨by simp [hwork₂], primUnOverride_pOverridden h₂⟩
    ⟨⟨hwork₂, rfl⟩, nofun, nofun⟩

theorem unregisterTask_inside (Z : Zones s.pointers T)
    (he : processUnregisterTask ⟨true, policy⟩ h s = .ok (r, s')) :
    Moves (Inside ((Call.unregisterTask h).process s)) s s' := by
  obtain ⟨t, s₁, d, s₂, ht, -, hhome, hresumed, -, h₂, h₃⟩ := processUnregisterTask_home Z he
  have ho : (Call.unregisterTask h).process s = some d := by simp [Call.process, ht, hhome]
  rw [ho]
  have hpolicy := inside_answers policy s (some d)
  have M₁ : Moves (Inside (some d)) s s₁ := by
    split at hresumed
    · refine Moves.resumeTask hpolicy List.suffix_rfl (fun q u hu => ?_) hresumed
      obtain rfl := Option.some.inj hu
      exact ⟨hhome, nofun, nofun⟩
    · exact hresumed ▸ .refl
  have hmember : ∀ {x : State k}, Moves (Inside (some d)) s x → (x.task t).tProcess ≠ none := by
    intro x M
    rw [M.home, hhome]
    exact Option.some_ne_none d
  have M₂ := M₁.step (.unlink t) (hmember M₁) ⟨trivial, nofun, nofun⟩
  have M₃ := M₂.step (.leave t) (hmember M₂) ⟨trivial, nofun, nofun⟩
  have M₄ := M₃.step (.unlink t) (hmember M₃) ⟨trivial, nofun, nofun⟩
  have M₅ := M₄.step (.uncount d) trivial ⟨rfl, nofun, nofun⟩
  have M₆ := M₅.trans (Moves.reporting hpolicy M₅.hooks h₂ ⟨trivial, nofun, nofun⟩)
  exact M₆.trans (Moves.reporting hpolicy M₆.hooks h₃ ⟨trivial, nofun, nofun⟩)

end inside

/-- **A call leaves what belongs to the processes that it does not work in**, and leads from none to
another. -/
theorem exec_isolated (A : s.Apart) (hprimed : s.Primed) (hc : StaysHome hist s c)
    (he : exec ⟨true, policy⟩ c s = .ok (r, s')) :
    s'.Apart ∧ ∀ d, c.process s ≠ some d → Frame d s s' := by
  have hinside : Moves (Inside (c.process s)) s s' →
      s'.Apart ∧ ∀ d, c.process s ≠ some d → Frame d s s' :=
    fun M => M.isolated A fun m _ _ _ ha => ha.1
  have hprocess : ∀ {d c : ProcessId k}, pPrim d = pPrim c → c = d := fun e => (PrimId.ofProcess.inj e).symm
  cases c with
  | registerProcess d =>
      obtain ⟨-, rfl⟩ := ok_pair_eq.mp he
      have M : Moves (fun _ m => m = .addProcess d ∨ m = .addPrim d (pPrim d)) s
          (schedRegisterProcess d s) :=
        (Moves.single (.addProcess d) trivial (.inl rfl)).step (.addPrim d (pPrim d)) trivial (.inr rfl)
      refine M.isolated A fun {x} m _ Ax _ ha => ?_
      rcases ha with rfl | rfl
      · rfl
      · obtain ⟨T', -, A'⟩ := Ax
        exact ⟨rfl, fun c hc => A'.prim hc, fun c => hprocess⟩
  | registerTask d t =>
      obtain ⟨hsched, rfl⟩ := processRegisterTask_iff.mp (void_eq_ok.mp he).2
      have M : Moves (Move.Works (some d)) s (registerTask d t s) :=
        .single (.addTask d t) hsched ⟨rfl, hc⟩
      exact M.isolated A fun _ _ _ _ ha => ha
  | registerPrim d p | mutexCtor p d =>
      obtain ⟨-, rfl⟩ := ok_pair_eq.mp he
      have M : Moves (Move.Works (some d)) s (processRegisterPrim d p s) :=
        .single (.addPrim d p) trivial ⟨rfl, hc⟩
      exact M.isolated A fun _ _ _ _ ha => ha
  | semCtor p n d =>
      obtain ⟨-, rfl⟩ := ok_pair_eq.mp he
      have M : Moves (Move.Works (some d)) s (schedSemCtor p n d s) :=
        (Moves.single (.setBound p n) trivial fun c h => congrArg some (hc.1 c h)).step (.addPrim d p)
          trivial ⟨rfl, hc⟩
      exact M.isolated A fun _ _ _ _ ha => ha
  | unregisterPrim p => exact hinside (unregisterPrim_inside A he)
  | unregisterTask h =>
      obtain ⟨T, Z, -⟩ := id A
      exact hinside (unregisterTask_inside Z he)
  | _ => exact exec_isolated_ordinary A hprimed rfl he

/-! ### Runs -/

theorem Apart.init (hs : Boot s) : Apart s.pointers (fun _ => False) where
  links := by
    have hself : ∀ n : Node k, n.known s.pointers (fun _ => False) →
        s.pointers.links.next n = n ∧ s.pointers.links.prev n = n := by
      intro n hn
      cases n with
      | sActives => exact CircularList.IsRing.nil_iff.mp hs.actives
      | sProcesses => exact CircularList.IsRing.nil_iff.mp hs.processes
      | sThreads => exact CircularList.IsRing.nil_iff.mp hs.threads
      | pList d | pTasks d | pPrimitives d => cases (hs.process d).symm.trans hn
      | tSchedList u | tSiblings u | tStopped u | tOverriders u | tHistory u =>
          exact absurd (hs.task u) hn
      | pSiblings q | pStopped q | pOverriders q => exact absurd (hs.prim q) hn
      | threadList g | threadHistory g => cases hn
    refine ⟨fun {n} hn => ?_, fun {n} hn => ?_⟩
    · rw [(hself n hn).1]
      exact ⟨hn, rfl⟩
    · rw [(hself n hn).2]
      exact ⟨hn, rfl⟩
  stopper := fun {t p} ht => absurd (hs.task t) ht
  overridden := fun {p t} hp => absurd (hs.prim p) hp
  prim := fun {d c} hc => by cases (hs.prim (pPrim d)).symm.trans hc

theorem reach_apart (hr : Reach policy StaysHome hist s) : s.Apart := by
  induction hr with
  | start hs => exact ⟨_, Zones.init hs, Apart.init hs⟩
  | call hr hc he ih => exact (exec_isolated ih (reach_zones hr).2 hc he).1

/-- **What belongs to a process stays as it is while no call works in it**, whatever the policy, and
whatever is called. -/
theorem processes_isolated (hr : Reach policy StaysHome hist s)
    (hlater : Onward (exec ⟨true, policy⟩) (fun hist x c => StaysHome hist x c ∧ c.process x ≠ some d)
      hist s new s') : Frame d s s' := by
  induction hlater with
  | start h => exact h ▸ .refl d _
  | call hl hc he ih =>
      have hx := hr.onward (hl.mono And.left)
      exact ih.trans ((exec_isolated (reach_apart hx) (reach_zones hx).2 hc.1 he).2 d hc.2)

/-- Two processes, and two objects of each other kind. -/
abbrev twin : Machine := ⟨64, 2, 2, 2, 2, by decide⟩

local instance : NeZero twin.tasks := ⟨by decide⟩
local instance : NeZero twin.prims := ⟨by decide⟩
local instance : NeZero twin.procs := ⟨by decide⟩
local instance : NeZero twin.threads := ⟨by decide⟩

def twinBoot : State twin where
  links := ⟨id, id⟩
  task := fun _ => ⟨0, 0, none, 0, none, 0, none⟩
  prim := fun _ => ⟨none, 0, 0, 0, none⟩
  process := fun _ => ⟨false, 0, 0, 0⟩
  thread := fun _ => ⟨false, 0, none, 0⟩
  sched := ⟨false, 0, 0, 0⟩
  sNbOwners := fun _ => 0
  hooks := []

theorem boot_twinBoot : Boot twinBoot where
  actives := CircularList.IsRing.nil_iff.mpr ⟨rfl, rfl⟩
  processes := CircularList.IsRing.nil_iff.mpr ⟨rfl, rfl⟩
  threads := CircularList.IsRing.nil_iff.mpr ⟨rfl, rfl⟩
  commit := rfl
  task := fun _ => rfl
  prim := fun _ => rfl
  process := fun _ => rfl
  thread := fun _ => rfl

instance (hist : Hist k) (s : State k) (c : Call k) : Decidable (StaysHome hist s c) := by
  induction c using Call.casesOn with
  | registerTask d t => exact inferInstanceAs (Decidable (∀ c, (s.task t).tProcess = some c → c = d))
  | registerPrim d p | mutexCtor p d | semCtor p _ d =>
      exact inferInstanceAs (Decidable ((∀ c, (s.prim p).pProcess = some c → c = d) ∧
        ∀ c, p = pPrim c → c = d))
  | _ => exact inferInstanceAs (Decidable True)

set_option maxRecDepth 10000 in
/-- Each process has a task that waits for a mutex that it has locked; the second one, since before. -/
theorem processes_isolated_run : ∃ (s s' : State twin) (new : Hist twin), new.length = 2 ∧
    s.Waits 1 (.other 1) ∧ Frame 1 s s' := by
  obtain ⟨hist, s, new, s', hr, hlater, htest⟩ := @exists_onward_of_replay _ _ _ _ Boot _
    (exec ⟨true, quiet⟩) StaysHome inferInstance boot_twinBoot
    (fun s new => decide (new.length = 2 ∧ s.Waits 1 (.other 1) ∧
      Meets (fun _ x (c : Call twin) => c.process x ≠ some 1) new))
    [.registerProcess 0, .registerProcess 1, .registerThread 0, .registerThread 1, .registerTask 0 0,
      .registerTask 1 1, .mutexCtor (.other 0) 0, .mutexCtor (.other 1) 1, .assignTask 0 (some 0),
      .assignTask 1 (some 1), .mutexLock (.other 1) 1, .mutexLock (.other 1) 1]
    [.mutexLock (.other 0) 0, .mutexLock (.other 0) 0] (by decide +kernel)
  obtain ⟨hlength, hwaits, hmeets⟩ := of_decide_eq_true htest
  exact ⟨s, s', new, hlength, hwaits, processes_isolated hr (hlater.meets hmeets)⟩

end KernelTk.Sched
