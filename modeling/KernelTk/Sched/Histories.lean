import KernelTk.Lib.RingTable
import KernelTk.Sched.Activity

/-! # The histories of the threads

A thread keeps the tasks that it has executed in `t_history`, and the one that it executes in `t_task`.

* **Property.** `HistoriesAgree` : the `t_history` lists, the `t_thread` pointers, the
  `t_history_size` counters and the `t_task` pointers agree, so that no task is executed by two
  threads.
* **Condition.** `process_unregister_task` and `sched_unregister_process` leave the `t_process` of
  a task, so that the task can still be assigned, and be in a history when it is registered again.
  `OffHistory` : it is not.
* **Invariant.** `Histories` : a family of rings, one for each thread registered so far, with the counters as
  lengths.  A task leaves a list (`Histories.leave`), enters one (`Histories.enter`), or is registered off
  them.
* **Calls.** `exec_histories` : one call keeps the invariant, whatever moves it makes;
  `unregisterThread_histories` is the walk of `sched_unregister_thread`, which empties the list that it
  follows.
* **Runs.** A run has the property throughout iff every task is registered again off any history
  (`histories_agree_iff`): a registration clears the `t_thread` of the task, and a history that still
  holds its node is wrong from then on. -/

namespace KernelTk.Sched

open Transition
open CircularList (IsRing RingTable Shape SameZone walk_partial)

variable {k : Machine} {policy : Policy k} {hist : Hist k} {s s' : State k} {c : Call k}
  {r : BitVec 8} {t : TaskId k} {h : ThreadId k} {d : ProcessId k} {T : ThreadId k → Prop}

/-- The histories of the threads registered so far. -/
structure HistoriesAgree (hist : Hist k) (s : State k) (history : ThreadId k → List (TaskId k)) :
    Prop where
  ring : ∀ h, threadKnown hist h = true →
    IsRing s.links (.threadHistory h) ((history h).map .tHistory)
  nodup : ∀ h, threadKnown hist h = true → (history h).Nodup
  size : ∀ h, threadKnown hist h = true → (s.thread h).tHistorySize.toNat = (history h).length
  mem : ∀ h t, threadKnown hist h = true →
    (t ∈ history h ↔ (s.task t).tProcess ≠ none ∧ (s.task t).tThread = some h)
  only : ∀ g h t, threadKnown hist g = true → threadKnown hist h = true → t ∈ history g →
    t ∈ history h → g = h
  executes : ∀ h t, threadKnown hist h = true → (s.thread h).tTask = some t →
    (s.task t).tProcess ≠ none ∧ (s.task t).tThread = some h
  one : ∀ g h t, threadKnown hist g = true → threadKnown hist h = true →
    (s.thread g).tTask = some t → (s.thread h).tTask = some t → g = h
  closed : ∀ h, threadKnown hist h = true → threadRegistered hist h = false → history h = []

/-- The history of every thread is a list, and `t_history_size` its length. -/
def HistoriesSized (hist : Hist k) (s : State k) : Prop :=
  ∀ h, threadKnown hist h = true → ∃ l : List (TaskId k),
    IsRing s.links (.threadHistory h) (l.map .tHistory) ∧
      (s.thread h).tHistorySize.toNat = l.length

/-- A task that was registered before is registered off any history. -/
def OffHistory (_ : Hist k) (s : State k) : Call k → Prop
  | .registerTask _ t => (s.task t).tProcess ≠ none → (s.task t).tThread = none
  | _ => True

/-! ### The invariant -/

theorem historyShape : Shape (Node.threadHistory (k := k)) Node.tHistory where
  head_inj := Node.threadHistory.inj
  node_inj := Node.tHistory.inj
  ne := fun _ _ => nofun

/-- The histories of the threads of `T`. -/
structure Histories (P : Pointers k) (tTask : ThreadId k → Option (TaskId k)) (T : ThreadId k → Prop)
    (M : ThreadId k → Option (List (TaskId k))) : Prop where
  table : RingTable P.links Node.threadHistory Node.tHistory M (fun _ => False)
  registry : Registry M (fun t => P.tProcess t ≠ none) P.tThread P.tHistorySize
  known : ∀ h, (M h).isSome ↔ T h
  executes : ∀ h t, T h → tTask h = some t → P.tProcess t ≠ none ∧ P.tThread t = some h
  closed : ∀ h, T h → P.tSched h = false → M h = some []

namespace Histories

variable {P P' : Pointers k} {A A' : ThreadId k → Option (TaskId k)}
  {M : ThreadId k → Option (List (TaskId k))} {l : List (TaskId k)}

theorem init (s : State k) (hs : ∀ t, (s.task t).tProcess = none) :
    Histories s.pointers s.activity.tTask (fun _ => False) (fun _ => none) where
  table := ⟨nofun, nofun, nofun, nofun⟩
  registry := .empty (fun _ => rfl) fun t ht => ht (hs t)
  known := fun _ => by simp
  executes := nofun
  closed := nofun

theorem list (H : Histories P A T M) (hh : T h) : M h = some ((M h).getD []) :=
  (Option.getD_of_ne_none (Option.isSome_iff_ne_none.mp ((H.known h).mpr hh)) []).symm

theorem frame (H : Histories P A T M) (hz : SameZone Node.zone .history P.links P'.links)
    (hprocess : P'.tProcess = P.tProcess) (hthread : P'.tThread = P.tThread)
    (hsize : P'.tHistorySize = P.tHistorySize)
    (hsched : ∀ h, P'.tSched h = false → P.tSched h = false ∨ M h = some []) :
    Histories P' A T M where
  table := H.table.congr (fun _ _ => id) (fun _ => id) (fun h _ => hz (.threadHistory h) rfl)
    fun t => hz (.tHistory t) rfl
  registry := by
    rw [hprocess, hthread, hsize]
    exact H.registry
  known := H.known
  executes := by
    rw [hprocess, hthread]
    exact H.executes
  closed := fun h hh hh' => (hsched h hh').elim (H.closed h hh) id

theorem fewer (H : Histories P A T M) (hA : ∀ h t, A' h = some t → A h = some t) :
    Histories P A' T M :=
  { H with executes := fun h t hh ht => H.executes h t hh (hA h t ht) }

theorem leave (H : Histories P A T M) (A' : ThreadId k → Option (TaskId k)) (hl : M h = some l)
    (hmem : t ∈ l) (hA : ∀ g u, A' g = some u → A g = some u ∧ (u = t → g ≠ h)) :
    Histories (P.leave h t) A' T (Function.update M h (some (l.erase t))) := by
  have hh : P.tThread t = some h := ((H.registry.mem hl).mp hmem).2
  refine ⟨?_, H.registry.leave hl hmem, ?_, ?_, ?_⟩
  · exact (H.table.remove historyShape hl hmem).weaken fun _ => False.elim
  · intro g
    by_cases hg : g = h
    · subst hg
      simpa [hl] using H.known g
    · simpa [hg] using H.known g
  · intro g u hg hu
    obtain ⟨hu, hne⟩ := hA g u hu
    obtain ⟨h₁, h₂⟩ := H.executes g u hg hu
    refine ⟨h₁, ?_⟩
    have hut : u ≠ t := by
      rintro rfl
      exact hne rfl (Option.some.inj (h₂.symm.trans hh))
    simpa [Pointers.leave, hut] using h₂
  · intro g hg hsched
    have hclosed := H.closed g hg hsched
    by_cases hgh : g = h
    · subst hgh
      obtain rfl := Option.some.inj (hl.symm.trans hclosed)
      cases hmem
    · simpa [hgh] using hclosed

theorem enter (H : Histories P A T M) (ht : P.tProcess t ≠ none) (hn : P.tThread t = none)
    (hl : M h = some l) (hsched : P.tSched h = true)
    (hA : ∀ g u, A' g = some u → g = h ∧ u = t ∨ A g = some u) :
    Histories (P.enter h t) A' T (Function.update M h (some (t :: l))) := by
  have hh : T h := (H.known h).mp (by simp [hl])
  refine ⟨?_, H.registry.join (card_task_lt k) hl ht hn (.refl _), ?_, ?_, ?_⟩
  · exact (H.table.insertAfter historyShape hl fun _ _ hl' => H.registry.notMem_of_none hn hl').weaken
      fun _ => False.elim
  · intro g
    by_cases hg : g = h
    · subst hg
      simpa using hh
    · simpa [hg] using H.known g
  · intro g u hg hu
    rcases hA g u hu with ⟨rfl, rfl⟩ | hu
    · exact ⟨ht, by simp [Pointers.enter]⟩
    · obtain ⟨h₁, h₂⟩ := H.executes g u hg hu
      have hut : u ≠ t := by
        rintro rfl
        cases hn.symm.trans h₂
      exact ⟨h₁, by simpa [Pointers.enter, hut] using h₂⟩
  · intro g hg hg'
    have hgh : g ≠ h := by
      rintro rfl
      cases hsched.symm.trans hg'
    simpa [hgh] using H.closed g hg hg'

theorem addTask (H : Histories P A T M) (ht : P.tProcess t ≠ none → P.tThread t = none)
    (hz : ∀ x : Node k, x ≠ .tHistory t → x.zone = .history →
      (P.addTask d t).links.next x = P.links.next x ∧ (P.addTask d t).links.prev x = P.links.prev x) :
    Histories (P.addTask d t) A T M := by
  have hout : ∀ h l, M h = some l → t ∉ l := by
    intro h l hl hmem
    obtain ⟨h₁, h₂⟩ := (H.registry.mem hl).mp hmem
    cases (ht h₁).symm.trans h₂
  refine ⟨⟨fun {h l} hl => ?_, H.table.disjoint, fun hS => hS.elim, fun hS => hS.elim⟩, ?_, H.known,
    ?_, H.closed⟩
  · refine (H.table.ring hl).congr fun x hx => ?_
    rcases List.mem_cons.mp hx with rfl | hx
    · exact hz _ nofun rfl
    · obtain ⟨u, hu, rfl⟩ := List.mem_map.mp hx
      refine hz _ (fun e => hout h l hl ?_) rfl
      exact Node.tHistory.inj e ▸ hu
  · refine ⟨H.registry.nodup, fun {h l u} hl => ?_, fun {h u} hu hf => ?_, H.registry.count⟩
    · by_cases hut : u = t
      · subst hut
        simp [Pointers.addTask, hout h l hl]
      · simpa [Pointers.addTask, hut] using H.registry.mem (b := u) hl
    · by_cases hut : u = t
      · simp [Pointers.addTask, hut] at hf
      · simp only [Pointers.addTask, Function.update_of_ne hut] at hu hf
        exact H.registry.container hu hf
  · intro h u hh hu
    obtain ⟨h₁, h₂⟩ := H.executes h u hh hu
    have hut : u ≠ t := by
      rintro rfl
      cases (ht h₁).symm.trans h₂
    simpa [Pointers.addTask, hut] using And.intro h₁ h₂

theorem addThread (H : Histories P A T M) (hh : T h → P.tSched h = false) (hA : A' h = none)
    (hA' : ∀ g t, A' g = some t → A g = some t)
    (hz : SameZone Node.zone .history (P.links.init (.threadHistory h)) P'.links)
    (hprocess : P'.tProcess = P.tProcess) (hthread : P'.tThread = P.tThread)
    (hsize : P'.tHistorySize = Function.update P.tHistorySize h 0)
    (hsched : P'.tSched = Function.update P.tSched h true) :
    Histories P' A' (fun g => g = h ∨ T g) (Function.update M h (some [])) := by
  have hnil : ∀ l, M h = some l → l = [] := by
    intro l hl
    have hT := (H.known h).mp (by simp [hl])
    exact Option.some.inj (hl.symm.trans (H.closed h hT (hh hT)))
  have hclosed : Registry (Function.update M h none) (fun t => P.tProcess t ≠ none) P.tThread
      P.tHistorySize := by
    cases hM : M h with
    | none =>
        rw [← hM, Function.update_eq_self]
        exact H.registry
    | some l => exact H.registry.close (hM.trans (congrArg some (hnil l hM)))
  constructor
  · refine (H.table.initHead historyShape h hnil).congr (fun _ _ => id) (fun _ => id) ?_ ?_
    · exact fun g _ => hz (.threadHistory g) rfl
    · exact fun t => hz (.tHistory t) rfl
  · rw [hprocess, hthread, hsize]
    simpa using hclosed.create (a := h) (by simp)
  · intro g
    by_cases hg : g = h
    · simp [hg]
    · simpa [hg] using H.known g
  · intro g t hg ht
    rw [hprocess, hthread]
    rcases hg with rfl | hg
    · cases hA.symm.trans ht
    · exact H.executes g t hg (hA' g t ht)
  · intro g hg hg'
    have hgh : g ≠ h := by
      rintro rfl
      simp [hsched] at hg'
    rw [hsched, Function.update_of_ne hgh] at hg'
    simpa [hgh] using H.closed g (hg.resolve_left hgh) hg'

end Histories

/-! ### Moves -/

theorem Activity.leave_tTask_ne {A : Activity k} {g : ThreadId k} {t u : TaskId k}
    (hu : (A.leave (some g) t).tTask h = some u) : A.tTask h = some u ∧ (u = t → h ≠ g) := by
  obtain ⟨h₁, -, h₂⟩ := A.leave_tTask hu
  exact ⟨h₁, fun e eh => h₂ e (congrArg some eh.symm)⟩

/-- The lists after a departure. -/
def leaveLists (M : ThreadId k → Option (List (TaskId k))) (o : Option (ThreadId k)) (t : TaskId k) :
    ThreadId k → Option (List (TaskId k)) :=
  o.elim M fun g => Function.update M g ((M g).map fun l => l.erase t)

/-- The lists after an assignment; `o` is the thread of the task. -/
def assignLists (M : ThreadId k → Option (List (TaskId k))) (o : Option (ThreadId k))
    (h : ThreadId k) (t : TaskId k) : ThreadId k → Option (List (TaskId k)) :=
  if o = some h then M
  else Function.update (leaveLists M o t) h ((leaveLists M o t h).map fun l => t :: l)

namespace Histories

variable {P : Pointers k} {A : Activity k} {M : ThreadId k → Option (List (TaskId k))}

theorem left (H : Histories s.pointers s.activity.tTask T M) (ht : (s.task t).tProcess ≠ none) :
    Histories ((s.pointers.tThread t).elim s.pointers fun g => s.pointers.leave g t)
      (s.activity.leave (s.pointers.tThread t) t).tTask T
      (leaveLists M (s.pointers.tThread t) t) := by
  cases ho : s.pointers.tThread t with
  | none => exact H
  | some g =>
      obtain ⟨l, hl, hmem⟩ := H.registry.exists_list ht ho
      have hleft := H.leave (s.activity.leave (some g) t).tTask hl hmem
        fun _ _ => Activity.leave_tTask_ne
      simpa [leaveLists, hl] using hleft

theorem run_tTask {A : Activity k} {g : ThreadId k} {u : TaskId k}
    (hu : (A.run h t).tTask g = some u) : g = h ∧ u = t ∨ A.tTask g = some u := by
  by_cases hg : g = h
  · subst hg
    simp only [Activity.run, Function.update_self, Option.some.injEq] at hu
    exact .inl ⟨rfl, hu.symm⟩
  · simp only [Activity.run, Function.update_of_ne hg] at hu
    exact .inr hu

/-- The task is assigned to a thread. -/
theorem assigned (H : Histories s.pointers s.activity.tTask T M) (ht : (s.task t).tProcess ≠ none)
    (hh : T h) (hsched : (s.thread h).tSched = true) :
    Histories ((Move.assign h t).pointers s.pointers)
      ((Move.assign h t).activity s.pointers.tThread s.activity).tTask T
      (assignLists M (s.pointers.tThread t) h t) := by
  simp only [Move.pointers, Move.activity, assignLists]
  split
  · rename_i hth
    refine { H with executes := fun g u hg hu => ?_ }
    rcases run_tTask hu with ⟨rfl, rfl⟩ | hu
    · exact ⟨ht, hth⟩
    · exact H.executes g u hg hu
  · have Hleft := H.left ht
    obtain ⟨l, hl⟩ := Option.isSome_iff_exists.mp ((Hleft.known h).mpr hh)
    rw [hl, Option.map_some]
    have hn : ((s.pointers.tThread t).elim s.pointers fun g => s.pointers.leave g t).tThread t =
        none := by
      cases ho : s.pointers.tThread t with
      | none => exact ho
      | some g => simp [Pointers.leave]
    cases ho : s.pointers.tThread t with
    | none =>
        rw [ho] at Hleft hl hn
        exact Hleft.enter ht hn hl hsched fun _ _ => run_tTask
    | some g =>
        rw [ho] at Hleft hl hn
        exact Hleft.enter ht hn hl hsched fun _ _ => run_tTask

theorem idle_tTask {A : Activity k} {g : ThreadId k} {u : TaskId k}
    (hu : (A.idle h).tTask g = some u) : A.tTask g = some u := by
  by_cases hg : g = h
  · simp [Activity.idle, hg] at hu
  · simpa [Activity.idle, hg] using hu

theorem idle (H : Histories P A.tTask T M) (h : ThreadId k) : Histories P (A.idle h).tTask T M :=
  H.fewer fun _ _ => idle_tTask

end Histories

/-- **A move keeps the histories**, the registrations of tasks and of threads and the end of the
unregistration of a thread apart. -/
theorem Histories.move {M : ThreadId k → Option (List (TaskId k))} (Z : Zones s.pointers T)
    (H : Histories s.pointers s.activity.tTask T M) (m : Move k) (hm : m.Checked s)
    (hthread : ∀ h, m ≠ .addThread h) (htask : ∀ c t, m ≠ .addTask c t)
    (hforget : ∀ h, m ≠ .forgetThread h) :
    ∃ M', Histories (m.apply s).pointers (m.apply s).activity.tTask T M' := by
  have hframe : m.touches .history = false →
      (m.pointers s.pointers).tProcess = s.pointers.tProcess →
      (m.pointers s.pointers).tThread = s.pointers.tThread →
      (m.pointers s.pointers).tHistorySize = s.pointers.tHistorySize →
      (m.pointers s.pointers).tSched = s.pointers.tSched →
      Histories (m.pointers s.pointers) s.activity.tTask T M := by
    intro hz h₁ h₂ h₃ h₄
    refine H.frame ?_ h₁ h₂ h₃ fun h hh => .inl (h₄ ▸ hh)
    rw [← m.apply_pointers]
    exact Z.same m hm hz
  rw [m.apply_pointers, m.apply_activity]
  cases m with
  | edit e => cases e <;> exact ⟨M, hframe rfl rfl rfl rfl rfl⟩
  | assign h t => exact ⟨_, H.assigned hm.1 (Z.thread h hm.2) hm.2⟩
  | idle h => exact ⟨M, H.idle h⟩
  | leave t => exact ⟨_, H.left hm⟩
  | addThread h => exact absurd rfl (hthread h)
  | addTask c t => exact absurd rfl (htask c t)
  | forgetThread h => exact absurd rfl (hforget h)
  | _ => exact ⟨M, hframe rfl rfl rfl rfl rfl⟩

/-! ### Calls -/

/-- The histories of a memory, whatever they are. -/
def HasHistories (s : State k) (T : ThreadId k → Prop) : Prop :=
  ∃ M, Histories s.pointers s.activity.tTask T M

theorem registerThread_histories (Z : Zones s.pointers T) (H : HasHistories s T)
    (hh : T h → (s.thread h).tSched = false) :
    HasHistories (schedRegisterThread h s) (fun g => g = h ∨ T g) := by
  obtain ⟨M, H⟩ := H
  have hp : (schedRegisterThread h s).pointers = s.pointers.addThread h :=
    Move.apply_pointers s (.addThread h)
  have ha : (schedRegisterThread h s).activity = s.activity.idle h :=
    Move.apply_activity (.addThread h) s
  refine ⟨Function.update M h (some []), ?_⟩
  rw [hp, ha]
  refine H.addThread hh (by simp [Activity.idle]) (fun g t ht => ?_) ?_ rfl rfl rfl rfl
  · by_cases hg : g = h
    · simp [Activity.idle, hg] at ht
    · simpa [Activity.idle, hg] using ht
  · have hne : (Node.threadList h).zone ≠ .history := fun e => by cases e
    exact CircularList.Zoned.init_congr (Z.links.insertAfter_same (h := Node.sThreads)
      (n := Node.threadList h) trivial rfl hne) _

theorem registerTask_histories (Z : Zones s.pointers T) (H : HasHistories s T)
    (hd : (s.process d).pSched = true)
    (ht : (s.task t).tProcess ≠ none → (s.task t).tThread = none) :
    HasHistories (registerTask d t s) T := by
  obtain ⟨M, H⟩ := H
  refine ⟨M, ?_⟩
  have e : (registerTask d t s).activity.tTask = s.activity.tTask := rfl
  rw [registerTask_pointers, e]
  refine H.addTask ht fun x hx hz => Z.addTask_words hd ?_ ?_ ?_ ?_ hx
  · exact fun e => nomatch hz.symm.trans e
  · exact fun e => nomatch hz.symm.trans e
  · rintro rfl
    cases hz
  · rintro rfl
    cases hz

/-- The walk of `sched_unregister_thread` empties the history that it follows. -/
theorem unregisterThread_histories (Z : Zones s.pointers T) (H : HasHistories s T)
    (he : schedUnregisterThread ⟨true, policy⟩ h s = .ok s') : HasHistories s' T := by
  obtain ⟨hsched, s₁, hwalk, M₁, hsched₁, rfl⟩ :=
    schedUnregisterThread_ok (fun _ m => ∃ t, m = .leave t) Z (fun _ t => ⟨t, rfl⟩) he
  have Z₁ : Zones s₁.pointers T := M₁.zones (fun x g hg => by obtain ⟨t, ht⟩ := hg; cases ht) Z
  obtain ⟨M, H⟩ := H
  obtain ⟨l, hl⟩ := Option.isSome_iff_exists.mp ((H.known h).mpr (Z.thread h hsched))
  obtain ⟨M', H', hM'⟩ : ∃ M', Histories s₁.pointers s₁.activity.tTask T M' ∧ M' h = some [] := by
    refine forEachNode_ring Node.tHistory
      (fun l x => ∃ M, Histories x.pointers x.activity.tTask T M ∧ M h = some l) ?_ ?_ ⟨M, H, hl⟩
      (H.table.next_head hl) hwalk
    · rintro t l x ⟨M, H, hl⟩
      exact ⟨nofun, H.table.next_first hl⟩
    · rintro t l x x' ⟨M, H, hl⟩ hbody
      obtain rfl : threadUnregisterTask t x = x' := Except.ok.inj hbody
      obtain ⟨ht, hth⟩ := (H.registry.mem hl).mp List.mem_cons_self
      have H' := H.left ht
      rw [hth] at H'
      refine ⟨leaveLists M (some h) t, ?_, ?_⟩
      · have e : (x.task t).tThread = some h := hth
        rw [leave_pointers, leave_activity, hth, e]
        exact H'
      · simp [leaveLists, hl]
  refine ⟨M', ?_⟩
  have ha : (Sched.forgetThread h s₁).activity.tTask = s₁.activity.tTask :=
    congrArg Activity.tTask (Move.apply_activity (.forgetThread h) s₁)
  have hp : (Sched.forgetThread h s₁).pointers = _ := Move.apply_pointers s₁ (.forgetThread h)
  rw [ha]
  refine H'.frame (Z₁.same (.forgetThread h) hsched₁ rfl) ?_ ?_ ?_ fun g hg => ?_
  · rw [hp]
    rfl
  · rw [hp]
    rfl
  · rw [hp]
    rfl
  · by_cases hgh : g = h
    · exact .inr (hgh ▸ hM')
    · rw [hp] at hg
      exact .inl (by simpa [Move.pointers, hgh] using hg)

/-- **A call keeps the histories** if it registers tasks off any history and threads that are not
registered. -/
theorem exec_histories (Z : Zones s.pointers (threadKnown hist · = true)) (hprimed : s.Primed)
    (hsched : ∀ h, (s.thread h).tSched = threadRegistered hist h) (hf : fresh hist c = true)
    (ho : OffHistory hist s c) (H : HasHistories s (threadKnown hist · = true))
    (he : exec ⟨true, policy⟩ c s = .ok (r, s')) :
    HasHistories s' (threadKnown (⟨s, c, r, s'⟩ :: hist) · = true) := by
  have hmoves : (∀ h, c ≠ .registerThread h) → (∀ d t, c ≠ .registerTask d t) →
      (∀ h, c ≠ .unregisterThread h) → HasHistories s' (threadKnown hist · = true) := by
    intro hthread htask hforget
    refine ((exec_moves Z hprimed he).keeps (I := fun x => Zones x.pointers (threadKnown hist · = true) ∧
      HasHistories x (threadKnown hist · = true)) (fun {x} m hx hm ha => ?_) ⟨Z, H⟩).2
    have hadd : ∀ h, m ≠ .addThread h := by
      rintro h rfl
      exact hthread h ha
    constructor
    · have hmove := hx.1.move m hm
      cases m with
      | addThread h => exact absurd rfl (hadd h)
      | _ => exact hmove
    · obtain ⟨M, H⟩ := hx.2
      refine H.move hx.1 m hm hadd ?_ ?_
      · rintro d t rfl
        exact htask d t ha
      · rintro h rfl
        exact hforget h ha
  cases c with
  | registerThread h =>
      obtain ⟨-, rfl⟩ := ok_pair_eq.mp he
      have e : (threadKnown (⟨s, .registerThread h, r, schedRegisterThread h s⟩ :: hist) · = true) =
          fun g => g = h ∨ threadKnown hist g = true := by
        funext g
        simp [threadKnown]
      rw [e]
      refine registerThread_histories Z H fun _ => ?_
      rw [hsched]
      simpa [fresh] using hf
  | registerTask d t =>
      obtain ⟨hd, rfl⟩ := processRegisterTask_iff.mp (void_eq_ok.mp he).2
      exact registerTask_histories Z H hd ho
  | unregisterThread h => exact unregisterThread_histories Z H (void_eq_ok.mp he).2
  | _ => exact hmoves (fun _ e => by cases e) (fun _ _ e => by cases e) fun _ e => by cases e

/-! ### Runs -/

theorem reach_histories
    (hr : Reach policy (fun hist s c => Fresh hist s c ∧ OffHistory hist s c) hist s) :
    HasHistories s (threadKnown hist · = true) := by
  induction hr with
  | start hs => exact ⟨_, by simpa [threadKnown] using Histories.init _ hs.task⟩
  | call hr hg he ih =>
      obtain ⟨Z, hprimed⟩ := reach_zones hr
      exact exec_histories Z hprimed (reach_tSched hr) hg.1 hg.2 ih he

theorem HasHistories.agree (H : HasHistories s (threadKnown hist · = true))
    (hsched : ∀ h, (s.thread h).tSched = threadRegistered hist h) :
    ∃ history, HistoriesAgree hist s history := by
  obtain ⟨M, H⟩ := H
  refine ⟨fun h => (M h).getD [], ?_⟩
  have hM : ∀ h, threadKnown hist h = true → M h = some ((M h).getD []) := fun _ => H.list
  have hmem : ∀ h t, threadKnown hist h = true →
      (t ∈ (M h).getD [] ↔ (s.task t).tProcess ≠ none ∧ (s.task t).tThread = some h) :=
    fun h t hh => H.registry.mem (hM h hh)
  constructor
  · exact fun h hh => H.table.ring (hM h hh)
  · exact fun h hh => H.registry.nodup (hM h hh)
  · exact fun h hh => H.registry.count (hM h hh)
  · exact hmem
  · intro g h t hg hh htg hth
    have h₁ := ((hmem g t hg).mp htg).2
    have h₂ := ((hmem h t hh).mp hth).2
    exact Option.some.inj (h₁.symm.trans h₂)
  · exact fun h t hh ht => H.executes h t hh ht
  · intro g h t hg hh htg hth
    have h₁ := (H.executes g t hg htg).2
    have h₂ := (H.executes h t hh hth).2
    exact Option.some.inj (h₁.symm.trans h₂)
  · intro h hh hclosed
    rw [H.closed h hh ((hsched h).trans hclosed)]
    rfl

theorem HasHistories.sized (H : HasHistories s (threadKnown hist · = true)) :
    HistoriesSized hist s := by
  obtain ⟨M, H⟩ := H
  exact fun h hh => ⟨_, H.table.ring (H.list hh), H.registry.count (H.list hh)⟩

theorem HistoriesAgree.sized {history : ThreadId k → List (TaskId k)}
    (H : HistoriesAgree hist s history) : HistoriesSized hist s :=
  fun h hh => ⟨history h, H.ring h hh, H.size h hh⟩

/-- A task that is registered when it is in a history breaks it. -/
theorem offHistory_of_sized {M : ThreadId k → Option (List (TaskId k))}
    (Z : Zones s.pointers (threadKnown hist · = true))
    (H : Histories s.pointers s.activity.tTask (threadKnown hist · = true) M)
    (hd : (s.process d).pSched = true)
    (hsized : HistoriesSized (⟨s, .registerTask d t, r, registerTask d t s⟩ :: hist)
      (registerTask d t s)) : OffHistory hist s (.registerTask d t) := by
  intro hprc
  by_contra hth
  obtain ⟨h, hth⟩ := Option.ne_none_iff_exists'.mp hth
  obtain ⟨l, hl, hmem⟩ := H.registry.exists_list hprc hth
  have hh : threadKnown hist h = true := (H.known h).mp (by simp [hl])
  obtain ⟨l', hl', -⟩ := hsized h hh
  -- the links of a task in a history are rewritten, and the task stays in the ring
  have hin := (H.table.ring hl).mem_of_rewritten (List.mem_map_of_mem hmem) hl' fun x hx hne => by
    have hzone : x.zone = .history := by
      rcases List.mem_cons.mp hx with rfl | hx
      · rfl
      · obtain ⟨u, -, rfl⟩ := List.mem_map.mp hx
        rfl
    have hwords := Z.addTask_words (t := t) hd (x := x) (by simp [hzone]) (by simp [hzone])
      (by rintro rfl; cases hzone) (by rintro rfl; cases hzone) hne
    rw [← registerTask_pointers] at hwords
    exact hwords.1
  -- where its successor is now itself
  refine hl'.next_ne hin ?_
  simp [registerTask, CircularList.Links.init]

/-- **The histories agree**, throughout a run of any calls that registers objects that are not
registered, iff every task that is registered again is in no history. -/
theorem histories_agree_iff (hr : Reach policy Fresh hist s) :
    Throughout (fun hist s => ∃ history, HistoriesAgree hist s history) hist s ↔
      Meets OffHistory hist := by
  refine hr.throughout_iff (fun s hs => ?_) (fun {hist s c r s'} hr _ hf he => ?_)
  · exact HasHistories.agree ⟨_, by simpa [threadKnown] using Histories.init s hs.task⟩ hs.thread
  · obtain ⟨Z, hprimed⟩ := reach_zones hr
    have H := reach_histories hr
    have hsched := fun h => reach_tSched hr h
    constructor
    · intro hagree
      cases c with
      | registerTask d t =>
          obtain ⟨hd, rfl⟩ := processRegisterTask_iff.mp (void_eq_ok.mp he).2
          obtain ⟨history, hagree⟩ := hagree
          obtain ⟨M, H⟩ := H
          exact offHistory_of_sized Z H hd hagree.sized
      | _ => trivial
    · intro ho
      exact (exec_histories Z hprimed hsched hf ho H he).agree fun h =>
        exec_tSched Z hprimed (hsched h) he

instance (hist : Hist k) (s : State k) (c : Call k) : Decidable (OffHistory hist s c) := by
  induction c using Call.casesOn with
  | registerTask d t => exact inferInstanceAs (Decidable (_ → _))
  | _ => exact inferInstanceAs (Decidable True)

set_option maxRecDepth 10000 in
/-- A task goes from one thread to another, leaves, and is registered and executed again. -/
theorem histories_agree_run : ∃ (hist : Hist small) (s : State small),
    (s.thread 1).tTask = some 0 ∧
      Throughout (fun hist s => ∃ history, HistoriesAgree hist s history) hist s := by
  obtain ⟨hist, s, hr, htest⟩ := exists_reach_of_replay (exec ⟨true, quiet⟩)
    (fun hist s c => Fresh hist s c ∧ OffHistory hist s c) boot_smallBoot
    (fun _ s => (s.thread 1).tTask == some 0)
    (smallSetup ++ [.openCommit, .assignTask 0 (some 0), .assignTask 1 (some 0), .unregisterTask 1,
      .unregisterThread 0, .registerThread 0, .registerTask 0 0, .assignTask 1 (some 0)])
    (by decide +kernel)
  refine ⟨hist, s, by simpa using htest, ?_⟩
  exact (histories_agree_iff (hr.mono fun h => h.1)).mpr (hr.mono fun h => h.2).meets_guard

set_option maxRecDepth 10000 in
/-- A task that has been unregistered still passes the checks of `thread_assign_task`; its next
registration leaves it in the history of the thread, with a null `t_thread`. -/
theorem histories_agree_fails : ¬∀ (hist : Hist small) (s : State small),
    Reach quiet Fresh hist s → ∃ history, HistoriesAgree hist s history := by
  intro hall
  obtain ⟨hist, s, hr, htest⟩ := exists_reach_of_replay (exec ⟨true, quiet⟩) Fresh boot_smallBoot
    (fun hist s => threadKnown hist 0 && ((s.thread 0).tTask == some 0 && (s.task 0).tThread == none))
    (smallSetup ++ [.assignTask 0 (some 0), .unregisterTask 0, .assignTask 0 (some 0),
      .registerTask 0 0]) (by decide +kernel)
  simp only [Bool.and_eq_true, beq_iff_eq] at htest
  obtain ⟨hknown, htask, hthread⟩ := htest
  obtain ⟨history, hagree⟩ := hall hist s hr
  cases hthread.symm.trans (hagree.executes 0 0 hknown htask).2

end KernelTk.Sched
