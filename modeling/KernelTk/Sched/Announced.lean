import KernelTk.Lib.SetLog
import KernelTk.Sched.Roster

/-! # What the policy is told about the active tasks

A policy that keeps its own set of tasks adds those of `s_registered` and `s_resumed`, and removes
those of `s_unregistered` and `s_stopped`.

* **Property.** `StreamTrue` : at the end of every call this set is the one of `s_actives`, no task
  has been added twice, and none has been removed that was not there. `Truthful` : the same for one
  call, from the set before it.
* **Condition.** `Announces` : `process_register_task` calls no hook, `sched_unregister_process` neither; the
  hooks of `s_stopped` and `s_unregistered` are called for tasks that are not in `s_actives` any
  more, if they have been unregistered before.  It is a condition on the memory before the call: which
  of the tasks that the call works on are linked by their `t_sched_list`.
* **One call.** What a call does to the active list and what it tells are known from `Roster.lean`
  (`Shift`); `truthful_step` compares the two, by cases on the shift, as sets kept from logs.
* **Runs.** `stream_true_iff` : a run tells the truth throughout iff every call announces its changes, and
  a call of any run tells the truth iff it does.  The first part amounts to a run without tasks, as a
  registration tells nothing; the second one says what each call of the others is worth. -/

namespace KernelTk.Sched

open Transition SetLog
open CircularList (IsRing)

variable {k : Machine} {policy : Policy k} {hist : Hist k} {s s' : State k} {c : Call k}
  {r : BitVec 8} {p : PrimId k} {t : TaskId k} {h : ThreadId k} {d : ProcessId k}

/-- What a call to the policy says of the set of the active tasks. -/
def HookCall.change : HookCall k → Option (Bool × TaskId k)
  | .registered t | .resumed t => some (true, t)
  | .unregistered t | .stopped t => some (false, t)
  | _ => none

/-- The policy has been told the active tasks. -/
def StreamTrue (hist : Hist k) (s : State k) : Prop :=
  Sound HookCall.change ∅ (stream hist) ∧
    ∃ actives : List (TaskId k), IsRing s.links .sActives (actives.map .tSchedList) ∧
      kept HookCall.change ∅ (stream hist) = {t | t ∈ actives}

/-- A call tells what it does to the active tasks. -/
def Truthful (e : Event (State k) (Call k) (BitVec 8)) : Prop :=
  ∃ before after : List (TaskId k),
    IsRing e.pre.links .sActives (before.map .tSchedList) ∧
    IsRing e.post.links .sActives (after.map .tSchedList) ∧
    Sound HookCall.change {t | t ∈ before} (reported e) ∧
    kept HookCall.change {t | t ∈ before} (reported e) = {t | t ∈ after}

/-- The task is linked to another node than its own by `t_sched_list`. -/
def State.scheduled (s : State k) (t : TaskId k) : Bool :=
  s.links.next (.tSchedList t) != .tSchedList t

/-- The call changes `s_actives` for the tasks that it tells, and for no others. -/
def Announces (hist : Hist k) (s : State k) : Call k → Prop
  | .registerTask _ _ => False
  | .pauseProcess d => ∀ t, taskLinked hist t = true → (s.task t).tProcess = some d →
      (s.task t).tStatus = schedStatusActive → s.scheduled t = true
  | .unregisterTask h => ∀ t, (s.thread h).tTask = some t →
      (s.task t).tStatus ≠ schedStatusStopped → s.scheduled t = true
  | .unregisterProcess d => ∀ t, taskLinked hist t = true → (s.task t).tProcess = some d →
      s.scheduled t = false
  | c => ∀ p h, c.blocks s = some (p, h) → ∀ t, (s.thread h).tTask = some t → s.scheduled t = true

theorem HookCall.change_resumed (t : TaskId k) : (HookCall.resumed t).change = some (true, t) := rfl

theorem HookCall.change_stopped (t : TaskId k) : (HookCall.stopped t).change = some (false, t) := rfl

theorem HookCall.isSome_change (call : HookCall k) : call.change.isSome = call.tellsTask := by
  cases call <;> rfl

section calls

variable {A A' : List (TaskId k)} {M : ProcessId k → Option (List (TaskId k))}
  {W : PrimId k → Option (List (TaskId k))} {l : List (HookCall k)}

/-- A linked task is linked to itself, or in the active list. -/
theorem Enrolled.scheduled_iff (E : Enrolled hist s A M W) (ht : taskLinked hist t = true) :
    s.scheduled t = true ↔ t ∈ A := by
  unfold State.scheduled
  rw [bne_iff_ne]
  constructor
  · intro hne
    by_contra htA
    exact hne (IsRing.nil_iff.mp (E.roster.members.actives.single ⟨ht, htA⟩)).1
  · intro htA
    exact E.ring.next_ne (List.mem_map_of_mem htA)

theorem Tells.reported (h : Tells s s' l) :
    (reported ⟨s, c, r, s'⟩).filter (fun call => call.change.isSome) = l := by
  obtain ⟨l', hl', rfl⟩ := h
  rw [reported_of_append hl']
  simp only [HookCall.isSome_change]

theorem truthful_iff {M' : ProcessId k → Option (List (TaskId k))}
    {W' : PrimId k → Option (List (TaskId k))} (E : Enrolled hist s A M W)
    (E' : Enrolled (⟨s, c, r, s'⟩ :: hist) s' A' M' W') (htells : Tells s s' l) :
    Truthful ⟨s, c, r, s'⟩ ↔
      Sound HookCall.change {t | t ∈ A} l ∧ kept HookCall.change {t | t ∈ A} l = {t | t ∈ A'} := by
  rw [← htells.reported (c := c) (r := r), sound_filter, kept_filter]
  constructor
  · rintro ⟨before, after, hbefore, hafter, hsound, hkept⟩
    obtain rfl := E.actives_eq hbefore
    obtain rfl := E'.actives_eq hafter
    exact ⟨hsound, hkept⟩
  · rintro ⟨hsound, hkept⟩
    exact ⟨A, A', E.ring, E'.ring, hsound, hkept⟩

theorem Enrolled.told_resumed (E : Enrolled hist s A M W) (ts : List (TaskId k)) (hnd : ts.Nodup)
    (hts : ∀ t ∈ ts, ∃ p, (s.task t).tStopper = some p) :
    Sound HookCall.change {t | t ∈ A} (ts.map .resumed) := by
  rw [sound_adds HookCall.change_resumed hnd]
  intro t ht htA
  obtain ⟨p, hp⟩ := hts t ht
  cases hp.symm.trans (E.roster.members.active t htA).2

theorem blocked_linked (hg : OnLinked hist s c) (hb : c.blocks s = some (p, h))
    (ht : (s.thread h).tTask = some t) : taskLinked hist t = true := by
  cases c with
  | stopThread q g =>
      obtain ⟨-, rfl⟩ := Prod.mk.inj (Option.some.inj hb)
      exact hg.2.2 t ht
  | mutexLock q g | semTake q g =>
      obtain ⟨-, hb⟩ := Option.ite_none_right_eq_some.mp hb
      obtain ⟨-, rfl⟩ := Prod.mk.inj (Option.some.inj hb)
      exact hg.2.2 t ht
  | _ => cases hb

/-! ### What a call announces, on the list of the active tasks -/

theorem Enrolled.announces_blocks (E : Enrolled hist s A M W) (hg : OnLinked hist s c)
    (hb : c.blocks s = some (p, h)) (ht : (s.thread h).tTask = some t) :
    Announces hist s c ↔ t ∈ A := by
  have hK := blocked_linked hg hb ht
  rw [← E.scheduled_iff hK]
  cases c with
  | stopThread | mutexLock | semTake =>
      constructor
      · intro hall
        exact hall p h hb t ht
      · intro hsched q g hb' u hu
        obtain ⟨rfl, rfl⟩ := Prod.mk.inj (Option.some.inj (hb.symm.trans hb'))
        obtain rfl := Option.some.inj (ht.symm.trans hu)
        exact hsched
  | _ => cases hb

theorem Enrolled.announces_pauseProcess {ts : List (TaskId k)} (E : Enrolled hist s A M W)
    (hts : M d = some ts) :
    Announces hist s (.pauseProcess d) ↔ ∀ u ∈ (ts.filter (running s)).reverse, u ∈ A := by
  have hmem : ∀ u, u ∈ ts.filter (running s) ↔ taskLinked hist u = true ∧
      (s.task u).tProcess = some d ∧ (s.task u).tStopper = none := by
    intro u
    rw [List.mem_filter, E.roster.members.member hts, running, Option.isNone_iff_eq_none]
    exact and_assoc
  constructor
  · intro hall u hu
    obtain ⟨hK, hd, hnone⟩ := (hmem u).mp (List.mem_reverse.mp hu)
    have hst := (E.roster.status u hK).active_iff.mpr hnone
    exact (E.scheduled_iff hK).mp (hall u hK hd hst)
  · intro hall u hK hd hst
    have hnone := (E.roster.status u hK).active_iff.mp hst
    have hu := List.mem_reverse.mpr ((hmem u).mpr ⟨hK, hd, hnone⟩)
    exact (E.scheduled_iff hK).mpr (hall u hu)

theorem Enrolled.announces_unregisterTask (E : Enrolled hist s A M W)
    (ht : (s.thread h).tTask = some t) (hK : taskLinked hist t = true) :
    Announces hist s (.unregisterTask h) ↔
      ((s.task t).tStatus ≠ schedStatusStopped → t ∈ A) := by
  rw [← E.scheduled_iff hK]
  constructor
  · exact fun hall => hall t ht
  · intro hsched u hu
    obtain rfl := Option.some.inj (ht.symm.trans hu)
    exact hsched

theorem Enrolled.announces_unregisterProcess (E : Enrolled hist s A M W) :
    Announces hist s (.unregisterProcess d) ↔ ∀ u ∈ A, (s.task u).tProcess ≠ some d := by
  constructor
  · intro hall u hu hd
    have hK := (E.roster.members.active u hu).1
    have hsched := (E.scheduled_iff hK).mpr hu
    cases hsched.symm.trans (hall u hK hd)
  · intro hall u hK hd
    rw [← Bool.not_eq_true, E.scheduled_iff hK]
    exact fun hu => hall u hu hd

/-- **One call.** -/
theorem truthful_step (E : Enrolled hist s A M W) (hprimed : s.Primed) (hg : OnLinked hist s c)
    (he : exec ⟨true, policy⟩ c s = .ok (r, s')) :
    Truthful ⟨s, c, r, s'⟩ ↔ Announces hist s c := by
  obtain ⟨A', M', W', l, E', hshift, htells⟩ := exec_shift E hprimed hg he
  rw [truthful_iff E E' htells]
  have hstopper : ∀ u ∈ A, (s.task u).tStopper = none := fun u hu =>
    (E.roster.members.active u hu).2
  cases hshift with
  | still c hb hs =>
      refine iff_of_true ⟨trivial, rfl⟩ ?_
      cases c with
      | registerTask | pauseProcess | unregisterTask | unregisterProcess => cases hs
      | _ =>
          intro p h hb'
          cases hb.symm.trans hb'
  | stop c p h t hb hs ht hnone =>
      rw [E.announces_blocks hg hb ht]
      constructor
      · exact fun h => h.1.2
      · intro htA
        refine ⟨⟨trivial, htA⟩, ?_⟩
        ext u
        show u ∈ A ∧ u ≠ t ↔ u ∈ A.erase t
        rw [E.roster.members.nodup.mem_erase_iff, and_comm]
  | resume t p hp =>
      refine iff_of_true ⟨E.told_resumed [t] (List.nodup_singleton t) ?_, ?_⟩ nofun
      · intro u hu
        obtain rfl := List.mem_singleton.mp hu
        exact ⟨p, hp⟩
      · ext u
        exact List.mem_cons.symm
  | wake p l hl =>
      have hnd : l.Nodup := (E.roster.members.stopped.ring hl).nodup_nodes.of_map _
      refine iff_of_true ⟨E.told_resumed _ (List.nodup_reverse.mpr hnd) fun u hu => ?_, ?_⟩ nofun
      · exact ⟨p, ((E.roster.members.waits hl).mp (List.mem_reverse.mp hu)).2⟩
      · rw [kept_adds HookCall.change_resumed]
        ext u
        show u ∈ A ∨ u ∈ l.reverse ↔ u ∈ l.reverse ++ A
        rw [List.mem_append, or_comm]
  | add d t ht =>
      refine iff_of_false (fun h => ?_) id
      have e : ({u | u ∈ A} : Set (TaskId k)) = {u | u ∈ t :: A} := h.2
      exact ht (e.symm.subset List.mem_cons_self)
  | pause d ts A' hts hA =>
      have hnd : ts.Nodup := (E.roster.members.tasks.ring hts).nodup_nodes.of_map _
      rw [← List.map_reverse, E.announces_pauseProcess hts, kept_removes HookCall.change_stopped,
        sound_removes HookCall.change_stopped (List.nodup_reverse.mpr (hnd.filter _))]
      refine and_iff_left_of_imp fun _ => ?_
      ext u
      show u ∈ A ∧ u ∉ (ts.filter (running s)).reverse ↔ u ∈ A'
      rw [hA, List.mem_reverse, List.mem_filter]
      refine and_congr_right fun hu => not_congr (and_iff_left ?_)
      rw [running, hstopper u hu]
      rfl
  | drop h t A' l ht hA hl =>
      have hK : taskLinked hist t = true := hg.2.2 t ht
      have hrest : ({u | u ∈ A} : Set (TaskId k)) \ {t} = {u | u ∈ A'} := by
        ext u
        exact (hA u).symm
      rw [E.announces_unregisterTask ht hK]
      rcases hl with ⟨rfl, hst⟩ | ⟨rfl, hstop, hst⟩
      · constructor
        · exact fun h _ => h.1.2
        · exact fun htA => ⟨⟨trivial, htA hst⟩, hrest⟩
      · have htA : t ∉ A := fun htA => hstop (hstopper t htA)
        refine iff_of_true ⟨⟨⟨trivial, htA⟩, Set.mem_insert t _⟩, ?_⟩ fun hne => absurd hst hne
        rw [← hrest]
        show insert t {u | u ∈ A} \ {t} = _
        rw [Set.insert_sdiff_of_mem _ (Set.mem_singleton t)]
  | dropAll d A' hA =>
      rw [E.announces_unregisterProcess]
      constructor
      · rintro ⟨-, e⟩ u hu
        have e : ({u | u ∈ A} : Set (TaskId k)) = {u | u ∈ A'} := e
        exact ((hA u).mp (e.subset hu)).2
      · intro hall
        refine ⟨trivial, ?_⟩
        ext u
        show u ∈ A ↔ u ∈ A'
        rw [hA]
        exact ⟨fun hu => ⟨hu, hall u hu⟩, And.left⟩

end calls

/-! ### Runs -/

/-- The stream is true after a call iff it was before, and the call is truthful. -/
theorem streamTrue_cons {e : Event (State k) (Call k) (BitVec 8)} (htrue : StreamTrue hist e.pre) :
    StreamTrue (e :: hist) e.post ↔ Truthful e := by
  obtain ⟨hsound, actives, hring, hkept⟩ := htrue
  obtain ⟨s, c, r, s'⟩ := e
  unfold StreamTrue
  rw [stream_cons, sound_append, kept_append, hkept]
  constructor
  · rintro ⟨⟨-, hsound'⟩, after, hafter, hkept'⟩
    exact ⟨actives, after, hring, hafter, hsound', hkept'⟩
  · rintro ⟨before, after, hbefore, hafter, hsound', hkept'⟩
    have e := hbefore.unique hring
    obtain rfl := List.map_injective_iff.mpr (fun _ _ => Node.tSchedList.inj) e
    exact ⟨⟨hsound, hsound'⟩, after, hafter, hkept'⟩

/-- **The policy is told the truth**, throughout a run of calls on linked tasks, iff every call
announces the changes that it makes; and a call of the run tells the truth, from the set of the
active tasks before it, iff it does. -/
theorem stream_true_iff (hr : Reach policy OnLinked hist s) :
    (Throughout StreamTrue hist s ↔ Meets Announces hist) ∧
      ∀ e hist', hist = e :: hist' → (Truthful e ↔ Announces hist' e.pre e.call) := by
  constructor
  · refine hr.throughout_iff (fun s hs => ?_) fun {hist s c r s'} hr htrue hg he => ?_
    · refine ⟨trivial, [], hs.actives, ?_⟩
      ext t
      exact iff_of_false (Set.notMem_empty t) List.not_mem_nil
    · obtain ⟨A, M, W, E⟩ := reach_enrolled (hr.mono And.left)
      rw [streamTrue_cons (e := ⟨s, c, r, s'⟩) htrue]
      exact truthful_step E (reach_zones hr).2 hg he
  · rintro e hist' rfl
    cases hr with
    | call hr hg he =>
        obtain ⟨A, M, W, E⟩ := reach_enrolled hr
        exact truthful_step E (reach_zones hr).2 hg he

instance (hist : Hist k) (s : State k) (c : Call k) : Decidable (Announces hist s c) := by
  induction c using Call.casesOn with
  | registerTask => exact inferInstanceAs (Decidable False)
  | pauseProcess => exact inferInstanceAs (Decidable (∀ _, _ → _ → _ → _))
  | unregisterTask => exact inferInstanceAs (Decidable (∀ _, _ → _ → _))
  | unregisterProcess => exact inferInstanceAs (Decidable (∀ _, _ → _ → _))
  | _ => exact inferInstanceAs (Decidable (∀ _ _, _ → ∀ _, _ → _))

set_option maxRecDepth 10000 in
/-- A process is paused when one of its tasks is active, and another one stopped: the call tells the
truth, the run has not.  A run that registers no task tells the truth throughout. -/
theorem stream_true_run :
    (∃ (e : Event (State small) (Call small) (BitVec 8)) (hist : Hist small) (s : State small),
      Reach quiet OnLinked (e :: hist) s ∧ (e.pre.task 1).tStopper = some (.other 0) ∧
        reported e = [.stopped 0] ∧ Truthful e ∧ ¬Throughout StreamTrue (e :: hist) s) ∧
    ∃ (hist : Hist small) (s : State small),
      Reach quiet OnLinked hist s ∧ hist.length = 4 ∧ Throughout StreamTrue hist s := by
  constructor
  · obtain ⟨hist, s, hr, htest⟩ := exists_reach_of_replay (exec ⟨true, quiet⟩) OnLinked
      boot_smallBoot
      (fun hist _ => hist.head?.any fun e : Event (State small) (Call small) (BitVec 8) =>
        decide (((e.pre.task 1).tStopper = some (.other 0) ∧ reported e = [.stopped 0]) ∧
          Announces hist.tail e.pre e.call ∧ ¬Meets Announces hist))
      [.registerProcess 0, .registerThread 0, .registerThread 1, .registerTask 0 0,
        .registerTask 0 1, .registerPrim 0 (.other 0), .openCommit, .assignTask 0 (some 0),
        .assignTask 1 (some 1), .stopThread (.other 0) 1, .pauseProcess 0] (by decide +kernel)
    obtain ⟨e, he, htest⟩ := (Option.any_eq_true _ _).mp htest
    obtain ⟨⟨hstop, hrep⟩, hcond, hmute⟩ := of_decide_eq_true htest
    obtain ⟨hrun, hcall⟩ := stream_true_iff hr
    have hhist := List.eq_cons_of_mem_head? he
    refine ⟨e, hist.tail, s, ?_, hstop, hrep, (hcall e _ hhist).mpr hcond, ?_⟩
    · exact hhist ▸ hr
    · exact hhist ▸ fun h => hmute (hrun.mp h)
  · obtain ⟨hist, s, hr, htest⟩ := exists_reach_of_replay (exec ⟨true, quiet⟩) OnLinked
      boot_smallBoot (fun hist _ => decide (hist.length = 4 ∧ Meets Announces hist))
      [.registerProcess 0, .registerThread 0, .registerPrim 0 (.other 0), .openCommit]
      (by decide +kernel)
    obtain ⟨hlength, hmeets⟩ := of_decide_eq_true htest
    exact ⟨hist, s, hr, hlength, (stream_true_iff hr).1.mpr hmeets⟩

set_option maxRecDepth 10000 in
/-- A task is registered. -/
theorem stream_true_fails : ¬∀ (hist : Hist small) (s : State small),
    Reach quiet OnLinked hist s → StreamTrue hist s := by
  intro hall
  obtain ⟨hist, s, hr, htest⟩ := exists_reach_of_replay (exec ⟨true, quiet⟩) OnLinked boot_smallBoot
    (fun hist s => decide (stream hist = [] ∧ s.links.next .sActives ≠ .sActives))
    [.registerProcess 0, .registerTask 0 0] (by decide +kernel)
  obtain ⟨hstream, hnext⟩ := of_decide_eq_true htest
  obtain ⟨-, actives, hring, hkept⟩ := hall hist s hr
  rw [hstream] at hkept
  cases actives with
  | nil => exact hnext (IsRing.nil_iff.mp hring).1
  | cons t actives => exact Set.notMem_empty t (hkept.symm.subset List.mem_cons_self)

end KernelTk.Sched
