import KernelTk.Lib.Zones
import KernelTk.Sched.Moves

/-! # Zones of the scheduler's lists

Whatever calls are made, and on whatever objects, a list field is only ever linked to list fields
that serve the same kind of list.

* **Zones.** `Node.zone` is the kind of a list field; `Node.known` says that its object has been
  registered.  The pointers `t_process`, `p_process` and `p_sched` are set by a registration and
  never reset, so that they say so for tasks, primitives and processes; `t_sched` is reset, and
  the threads registered so far are a parameter.
* **Moves.** Every move keeps `Zones` (`Zones.move`), and leaves the zones that it does not touch
  (`Zones.same`, with `Move.touches`).  There is one lemma for each edit of the pointers, which applies
  the rules of `Zoned` in the order of the assignments; what the rules ask for, that a node is known, is
  among the things that a debug build has checked.
* **Calls.** A call that returns in a debug build is a sequence of moves, so that the zones hold in every
  state reached, by any calls.  They exclude that a walk leaves its list for a node of another kind, and
  they are what a proof about one kind of lists needs to know of the calls that break another one: a
  list is kept as long as no move of its zone is made. -/

namespace KernelTk.Sched

open CircularList (Links Zoned SameZone)

variable {k : Machine}

/-- The kinds of lists. -/
inductive Zone where
  | actives
  | processes
  | threads
  | tasks
  | primitives
  | stopped
  | overriders
  | stray
  | history
deriving DecidableEq

/-- The kind of list a field serves.  No list is linked through `p_overriders`. -/
def Node.zone : Node k → Zone
  | .sActives | .tSchedList _ => .actives
  | .sProcesses | .pList _ => .processes
  | .sThreads | .threadList _ => .threads
  | .pTasks _ | .tSiblings _ => .tasks
  | .pPrimitives _ => .primitives
  | .pStopped _ | .tStopped _ => .stopped
  | .tOverriders _ | .pSiblings _ => .overriders
  | .pOverriders _ => .stray
  | .threadHistory _ | .tHistory _ => .history

/-- The object of the field has been registered. -/
def Node.known (P : Pointers k) (T : ThreadId k → Prop) : Node k → Prop
  | .sActives | .sProcesses | .sThreads => True
  | .pList c | .pTasks c | .pPrimitives c => P.pSched c = true
  | .tSchedList t | .tSiblings t | .tStopped t | .tOverriders t | .tHistory t => P.tProcess t ≠ none
  | .pSiblings p | .pStopped p | .pOverriders p => P.pProcess p ≠ none
  | .threadList h | .threadHistory h => T h

/-- The links stay in their zone. -/
structure Zones (P : Pointers k) (T : ThreadId k → Prop) : Prop where
  links : Zoned Node.zone (Node.known P T) P.links
  thread : ∀ h, P.tSched h = true → T h

namespace Move

/-- The zones whose links a move may change. -/
def touches : Move k → Zone → Bool
  | .edit e, z => match e with
      | .stop _ _ | .resume _ _ => z = .actives ∨ z = .stopped
      | .override _ _ | .unoverride _ _ => z = .overriders
      | _ => false
  | .assign _ _, z | .leave _, z => z = .history
  | .unlink _, z | .unlinkUnsafe _, z => z = .actives
  | .addProcess _, z => z = .processes ∨ z = .tasks ∨ z = .primitives
  | .addThread _, z => z = .threads ∨ z = .history
  | .addTask _ _, z =>
      z = .actives ∨ z = .tasks ∨ z = .overriders ∨ z = .stopped ∨ z = .history
  | .addPrim _ _, z => z = .overriders ∨ z = .stopped ∨ z = .stray
  | .forgetPrim _ _, z => z = .overriders
  | .forgetThread _, z => z = .threads
  | .forgetProcess _, z => z = .processes
  | _, _ => false

/-- The threads registered so far, after a move. -/
def threads (T : ThreadId k → Prop) : Move k → ThreadId k → Prop
  | .addThread h => fun g => g = h ∨ T g
  | _ => T

end Move

variable {policy : Policy k} {s s' s₀ : State k} {P P' : Pointers k} {T : ThreadId k → Prop}
  {p : PrimId k} {t : TaskId k} {h : ThreadId k} {c : ProcessId k} {z : Zone} {L : Links (Node k)}

theorem Zones.init (hs : Boot s) : Zones s.pointers (fun _ => False) where
  links := by
    have hnext := CircularList.IsRing.nil_iff.mp hs.actives
    have hprocs := CircularList.IsRing.nil_iff.mp hs.processes
    have hthreads := CircularList.IsRing.nil_iff.mp hs.threads
    have hself : ∀ n : Node k, n.known s.pointers (fun _ => False) →
        s.links.next n = n ∧ s.links.prev n = n := by
      intro n hn
      cases n with
      | sActives => exact hnext
      | sProcesses => exact hprocs
      | sThreads => exact hthreads
      | pList d | pTasks d | pPrimitives d => cases (hs.process d).symm.trans hn
      | tSchedList u | tSiblings u | tStopped u | tOverriders u | tHistory u =>
          exact absurd (hs.task u) hn
      | pSiblings q | pStopped q | pOverriders q => exact absurd (hs.prim q) hn
      | threadList g | threadHistory g => cases hn
    constructor
    · intro n hn
      have e : s.pointers.links.next n = n := (hself n hn).1
      rw [e]
      exact ⟨hn, rfl⟩
    · intro n hn
      have e : s.pointers.links.prev n = n := (hself n hn).2
      rw [e]
      exact ⟨hn, rfl⟩
  thread := fun h hh => absurd ((hs.thread h).symm.trans hh) Bool.false_ne_true

namespace Zones

variable (Z : Zones P T)
include Z

theorem links_only {L : Links (Node k)} (hL : Zoned Node.zone (Node.known P T) L) :
    Zones { P with links := L } T :=
  ⟨hL.congr (fun n => by cases n <;> rfl) fun _ _ => ⟨rfl, rfl⟩, Z.thread⟩

/-! ### Edits of the pointers -/

theorem stop (ht : P.tProcess t ≠ none) (hp : P.pProcess p ≠ none) : Zones (P.stop p t) T := by
  have h₁ := (Z.links.insertBefore (h := Node.pStopped p) (n := Node.tStopped t) hp rfl).absorb ht
  have h₂ := h₁.remove (n := Node.tSchedList t) ht
  exact ⟨h₂.congr (fun n => by cases n <;> rfl) fun _ _ => ⟨rfl, rfl⟩, Z.thread⟩

theorem resume (ht : P.tProcess t ≠ none) : Zones (P.resume p t) T := by
  have h₁ := (Z.links.insertAfter (h := Node.sActives) (n := Node.tSchedList t) trivial rfl).absorb ht
  have h₂ := h₁.remove (n := Node.tStopped t) ht
  exact ⟨h₂.congr (fun n => by cases n <;> rfl) fun _ _ => ⟨rfl, rfl⟩, Z.thread⟩

theorem override (ht : P.tProcess t ≠ none) (hp : P.pProcess p ≠ none) :
    Zones (P.override p t) T := by
  have h₁ := (Z.links.insertAfter (h := Node.tOverriders t) (n := Node.pSiblings p) ht rfl).absorb hp
  exact ⟨h₁.congr (fun n => by cases n <;> rfl) fun _ _ => ⟨rfl, rfl⟩, Z.thread⟩

theorem unoverride (hp : P.pProcess p ≠ none) : Zones (P.unoverride p t) T := by
  have h₁ := Z.links.remove (n := Node.pSiblings p) hp
  exact ⟨h₁.congr (fun n => by cases n <;> rfl) fun _ _ => ⟨rfl, rfl⟩, Z.thread⟩

theorem leave (ht : P.tProcess t ≠ none) : Zones (P.leave h t) T := by
  have h₁ := Z.links.remove (n := Node.tHistory t) ht
  exact ⟨h₁.congr (fun n => by cases n <;> rfl) fun _ _ => ⟨rfl, rfl⟩, Z.thread⟩

theorem leave? (ht : P.tProcess t ≠ none) (o : Option (ThreadId k)) :
    Zones (o.elim P fun g => P.leave g t) T := by
  cases o with
  | none => exact Z
  | some g => exact Z.leave ht

theorem enter (ht : P.tProcess t ≠ none) (hh : P.tSched h = true) : Zones (P.enter h t) T := by
  have h₁ := (Z.links.insertAfter (h := Node.threadHistory h) (n := Node.tHistory t)
    (Z.thread h hh) rfl).absorb ht
  exact ⟨h₁.congr (fun n => by cases n <;> rfl) fun _ _ => ⟨rfl, rfl⟩, Z.thread⟩

theorem addTask (hc : P.pSched c = true) : Zones (P.addTask c t) T := by
  have h₁ := Z.links.insertAfter (h := Node.sActives) (n := Node.tSchedList t) trivial rfl
  have h₂ := h₁.insertAfter (h := Node.pTasks c) (n := Node.tSiblings t) (.inr hc) rfl
  have h₃ := ((h₂.init (.tOverriders t)).init (.tStopped t)).init (.tHistory t)
  refine ⟨h₃.congr (fun n => ?_) fun _ _ => ⟨rfl, rfl⟩, Z.thread⟩
  cases n with
  | tSchedList u | tSiblings u | tStopped u | tOverriders u | tHistory u =>
      by_cases hu : u = t
      · simp [Node.known, Pointers.addTask, hu]
      · simp [Node.known, Pointers.addTask, hu]
  | _ => simp [Node.known, Pointers.addTask]

theorem addPrim : Zones (P.addPrim c p) T := by
  have h₁ := ((Z.links.init (.pSiblings p)).init (.pStopped p)).init (.pOverriders p)
  refine ⟨h₁.congr (fun n => ?_) fun _ _ => ⟨rfl, rfl⟩, Z.thread⟩
  cases n with
  | pSiblings q | pStopped q | pOverriders q =>
      by_cases hq : q = p
      · simp [Node.known, Pointers.addPrim, hq]
      · simp [Node.known, Pointers.addPrim, hq]
  | _ => simp [Node.known, Pointers.addPrim]

theorem addThread : Zones (P.addThread h) (fun g => g = h ∨ T g) := by
  have h₁ := Z.links.insertAfter (h := Node.sThreads) (n := Node.threadList h) trivial rfl
  have h₂ := h₁.init (.threadHistory h)
  refine ⟨h₂.congr (fun n => ?_) fun _ _ => ⟨rfl, rfl⟩, fun g hg => ?_⟩
  · cases n <;> simp [Node.known, Pointers.addThread]
  · by_cases hgh : g = h
    · exact .inl hgh
    · simp only [Pointers.addThread, Function.update_of_ne hgh] at hg
      exact .inr (Z.thread g hg)

theorem addProcess : Zones (P.addProcess c) T := by
  have h₁ := Z.links.insertAfter (h := Node.sProcesses) (n := Node.pList c) trivial rfl
  have h₂ := (h₁.init (.pTasks c)).init (.pPrimitives c)
  refine ⟨h₂.congr (fun n => ?_) fun _ _ => ⟨rfl, rfl⟩, Z.thread⟩
  cases n with
  | pList d | pTasks d | pPrimitives d =>
      by_cases hd : d = c
      · simp [Node.known, Pointers.addProcess, hd]
      · simp [Node.known, Pointers.addProcess, hd]
  | _ => simp [Node.known, Pointers.addProcess]

end Zones

/-- **Every move keeps the zones.** -/
theorem Zones.move (Z : Zones s.pointers T) (m : Move k) (hm : m.Checked s) :
    Zones (m.apply s).pointers (m.threads T) := by
  rw [m.apply_pointers]
  cases m with
  | edit e =>
      obtain ⟨he, hextra⟩ := hm
      cases e with
      | stop p t =>
          have hp : s.pointers.pProcess p ≠ none := fun e => he.1.member (he.1.same.symm.trans e)
          exact Z.stop he.1.member hp
      | resume p t => exact Z.resume he.1
      | override p t =>
          have hp : s.pointers.pProcess p ≠ none := fun e => he.1.member (he.1.same.symm.trans e)
          exact Z.override he.1.member hp
      | unoverride p t => exact Z.unoverride hextra
      | _ => exact Z
  | assign h t =>
      simp only [Move.pointers]
      split
      · exact Z
      · refine Zones.enter (Z.leave? hm.1 _) ?_ ?_
        · cases s.pointers.tThread t <;> exact hm.1
        · cases s.pointers.tThread t <;> exact hm.2
  | leave t => exact Z.leave? hm _
  | unlink t => exact Z.links_only (Z.links.remove (n := Node.tSchedList t) hm)
  | unlinkUnsafe t => exact Z.links_only (Z.links.removeUnsafe (n := Node.tSchedList t) hm)
  | uncount c => exact ⟨Z.links.congr (fun n => by cases n <;> rfl) fun _ _ => ⟨rfl, rfl⟩, Z.thread⟩
  | addProcess c => exact Z.addProcess
  | addThread h => exact Z.addThread
  | addTask c t => exact Z.addTask hm
  | addPrim c p => exact Z.addPrim
  | forgetPrim c p => exact Z.links_only (Z.links.removeUnsafe (n := Node.pSiblings p) hm.1)
  | forgetThread h =>
      have h₁ := Z.links.removeUnsafe (n := Node.threadList h) (Z.thread h hm)
      refine ⟨h₁.congr (fun n => by cases n <;> rfl) fun _ _ => ⟨rfl, rfl⟩, fun g hg => Z.thread g ?_⟩
      by_cases hgh : g = h
      · simp [Move.pointers, hgh] at hg
      · simpa [Move.pointers, hgh] using hg
  | forgetProcess c => exact Z.links_only (Z.links.removeUnsafe (n := Node.pList c) hm)
  | report | idle | setBound => exact Z

/-! ### Frames -/

/-- The links of a move stay in the zones it touches. -/
theorem Zones.same (Z : Zones s.pointers T) (m : Move k) (hm : m.Checked s)
    (hz : m.touches z = false) :
    SameZone Node.zone z s.pointers.links (m.apply s).pointers.links := by
  rw [m.apply_pointers]
  have hleave : ∀ (P : Pointers k) (t : TaskId k) (o : Option (ThreadId k)), Zones P T →
      P.tProcess t ≠ none → z ≠ .history →
      SameZone Node.zone z P.links (o.elim P fun g => P.leave g t).links := by
    intro P t o Z ht hne
    cases o with
    | none => exact .refl _ _ _
    | some g => exact Z.links.remove_same (n := Node.tHistory t) ht (Ne.symm hne)
  cases m with
  | edit e =>
      obtain ⟨he, hextra⟩ := hm
      cases e with
      | stop p t =>
          simp only [Move.touches, decide_eq_false_iff_not, not_or] at hz
          have hp : s.pointers.pProcess p ≠ none := fun e => he.1.member (he.1.same.symm.trans e)
          have h₁ := (Z.links.insertBefore (h := Node.pStopped p) (n := Node.tStopped t) hp rfl).absorb
            he.1.member
          refine (Z.links.insertBefore_same (h := Node.pStopped p) (n := Node.tStopped t) hp rfl
            (Ne.symm hz.2)).trans ?_
          exact h₁.remove_same (n := Node.tSchedList t) he.1.member (Ne.symm hz.1)
      | resume p t =>
          simp only [Move.touches, decide_eq_false_iff_not, not_or] at hz
          have h₁ := (Z.links.insertAfter (h := Node.sActives) (n := Node.tSchedList t) trivial
            rfl).absorb he.1
          refine (Z.links.insertAfter_same (h := Node.sActives) (n := Node.tSchedList t) trivial rfl
            (Ne.symm hz.1)).trans ?_
          exact h₁.remove_same (n := Node.tStopped t) he.1 (Ne.symm hz.2)
      | override p t =>
          simp only [Move.touches, decide_eq_false_iff_not] at hz
          exact Z.links.insertAfter_same (h := Node.tOverriders t) (n := Node.pSiblings p)
            he.1.member rfl (Ne.symm hz)
      | unoverride p t =>
          simp only [Move.touches, decide_eq_false_iff_not] at hz
          exact Z.links.remove_same (n := Node.pSiblings p) hextra (Ne.symm hz)
      | _ => exact .refl _ _ _
  | assign h t =>
      simp only [Move.touches, decide_eq_false_iff_not] at hz
      simp only [Move.pointers]
      split
      · exact .refl _ _ _
      · have Z₁ := Z.leave? hm.1 (s.pointers.tThread t)
        refine (hleave s.pointers t (s.pointers.tThread t) Z hm.1 hz).trans ?_
        refine Z₁.links.insertAfter_same (h := Node.threadHistory h) (n := Node.tHistory t) ?_ rfl
          (Ne.symm hz)
        exact Z.thread h hm.2
  | leave t =>
      simp only [Move.touches, decide_eq_false_iff_not] at hz
      exact hleave s.pointers t _ Z hm hz
  | unlink t =>
      simp only [Move.touches, decide_eq_false_iff_not] at hz
      exact Z.links.remove_same (n := Node.tSchedList t) hm (Ne.symm hz)
  | unlinkUnsafe t =>
      simp only [Move.touches, decide_eq_false_iff_not] at hz
      exact Z.links.removeUnsafe_same (n := Node.tSchedList t) hm (Ne.symm hz)
  | addProcess c =>
      simp only [Move.touches, decide_eq_false_iff_not, not_or] at hz
      refine (Z.links.insertAfter_same (h := Node.sProcesses) (n := Node.pList c) trivial rfl
        (Ne.symm hz.1)).trans ?_
      exact (Zoned.init_same (n := Node.pTasks c) (Ne.symm hz.2.1) _).trans
        (Zoned.init_same (n := Node.pPrimitives c) (Ne.symm hz.2.2) _)
  | addThread h =>
      simp only [Move.touches, decide_eq_false_iff_not, not_or] at hz
      refine (Z.links.insertAfter_same (h := Node.sThreads) (n := Node.threadList h) trivial rfl
        (Ne.symm hz.1)).trans ?_
      exact Zoned.init_same (n := Node.threadHistory h) (Ne.symm hz.2) _
  | addTask c t =>
      simp only [Move.touches, decide_eq_false_iff_not, not_or] at hz
      obtain ⟨hactives, htasks, hoverriders, hstopped, hhistory⟩ := hz
      have h₁ := Z.links.insertAfter (h := Node.sActives) (n := Node.tSchedList t) trivial rfl
      refine (Z.links.insertAfter_same (h := Node.sActives) (n := Node.tSchedList t) trivial rfl
        (Ne.symm hactives)).trans ?_
      refine (h₁.insertAfter_same (h := Node.pTasks c) (n := Node.tSiblings t) (.inr hm) rfl
        (Ne.symm htasks)).trans ?_
      refine (Zoned.init_same (n := Node.tOverriders t) (Ne.symm hoverriders) _).trans ?_
      exact (Zoned.init_same (n := Node.tStopped t) (Ne.symm hstopped) _).trans
        (Zoned.init_same (n := Node.tHistory t) (Ne.symm hhistory) _)
  | addPrim c p =>
      simp only [Move.touches, decide_eq_false_iff_not, not_or] at hz
      refine (Zoned.init_same (n := Node.pSiblings p) (Ne.symm hz.1) _).trans ?_
      exact (Zoned.init_same (n := Node.pStopped p) (Ne.symm hz.2.1) _).trans
        (Zoned.init_same (n := Node.pOverriders p) (Ne.symm hz.2.2) _)
  | forgetPrim c p =>
      simp only [Move.touches, decide_eq_false_iff_not] at hz
      exact Z.links.removeUnsafe_same (n := Node.pSiblings p) hm.1 (Ne.symm hz)
  | forgetThread h =>
      simp only [Move.touches, decide_eq_false_iff_not] at hz
      exact Z.links.removeUnsafe_same (n := Node.threadList h) (Z.thread h hm) (Ne.symm hz)
  | forgetProcess c =>
      simp only [Move.touches, decide_eq_false_iff_not] at hz
      exact Z.links.removeUnsafe_same (n := Node.pList c) hm (Ne.symm hz)
  | report | idle | uncount | setBound => exact .refl _ _ _

theorem Zones.addTask_words (Z : Zones P T) (hc : P.pSched c = true) {x : Node k}
    (hactives : x.zone ≠ .actives) (htasks : x.zone ≠ .tasks) (h₁ : x ≠ .tOverriders t)
    (h₂ : x ≠ .tStopped t) (h₃ : x ≠ .tHistory t) :
    (P.addTask c t).links.next x = P.links.next x ∧
      (P.addTask c t).links.prev x = P.links.prev x := by
  have Z₁ := Z.links.insertAfter (h := Node.sActives) (n := Node.tSchedList t) trivial rfl
  have hsame := (Z.links.insertAfter_same (h := Node.sActives) (n := Node.tSchedList t) (z := x.zone)
    trivial rfl (Ne.symm hactives)).trans
    (Z₁.insertAfter_same (h := Node.pTasks c) (n := Node.tSiblings t) (.inr hc) rfl (Ne.symm htasks))
  obtain ⟨hnext, hprev⟩ := hsame x rfl
  constructor
  · rw [← hnext]
    simp [Pointers.addTask, addTaskLinks, Links.init, h₁, h₂, h₃]
  · rw [← hprev]
    simp [Pointers.addTask, addTaskLinks, Links.init, h₁, h₂, h₃]

end KernelTk.Sched
