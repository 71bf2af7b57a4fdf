import KernelTk.Lib.CountedRing
import KernelTk.Sched.Execution

/-! # The registries of the scheduler

The scheduler has a list of its threads and a list of its processes, and counts both.

* **Property.** `RegistriesAgree` : each list holds exactly what is registered, the latest registration
  first, and its counter is its length.
* **Condition.** `InTurn` : nothing is registered twice, and a process is unregistered when it is
  registered.  `sched_unregister_process` leaves the `p_sched` of the process, so that its check does
  not say so; that of a thread is reset.
* **Registries.** Both lists are a ring of objects with a counter (`CountedRing`), whose rules are stated
  once and hold for either.  `SameRegistry` : a registry is the same in both memories.
* **Calls.** `Call.threadPassage` and `Call.processPassage` say what a call does to each list.  The calls that
  register or unregister such an object change it (`exec_counted`), and the others make moves that leave
  it (`exec_registries`); one call keeps the property iff it is in turn (`exec_registries_iff`).
* **Runs.** `registries_agree_iff` : whatever calls are made, a run has the property throughout iff it meets
  the condition. -/

namespace KernelTk.Sched

open Transition
open CircularList (Counted SameZone Passage Zoned)

variable {k : Machine} {policy : Policy k} {hist : Hist k} {s s' x : State k} {c : Call k}
  {r : BitVec 8} {h : ThreadId k} {d : ProcessId k} {T : ThreadId k → Prop}

/-- The registered threads, the latest first. -/
def threadsOf : Hist k → List (ThreadId k)
  | [] => []
  | e :: hist =>
      match e.call with
      | .registerThread h => h :: threadsOf hist
      | .unregisterThread h => (threadsOf hist).erase h
      | _ => threadsOf hist

/-- The registered processes, the latest first. -/
def processesOf : Hist k → List (ProcessId k)
  | [] => []
  | e :: hist =>
      match e.call with
      | .registerProcess d => d :: processesOf hist
      | .unregisterProcess d => (processesOf hist).erase d
      | _ => processesOf hist

/-- The lists and the counters of the scheduler agree with the registrations. -/
structure RegistriesAgree (hist : Hist k) (s : State k) : Prop where
  threads : Counted s.links .sThreads .threadList s.sched.sNbThreads (threadsOf hist)
  processes : Counted s.links .sProcesses .pList s.sched.sNbProcesses (processesOf hist)
  thread : ∀ h, h ∈ threadsOf hist ↔ (s.thread h).tSched = true
  process : ∀ d, d ∈ processesOf hist ↔ processRegistered hist d = true
  pSched : ∀ d ∈ processesOf hist, (s.process d).pSched = true

/-- Nothing is registered twice, and a process is unregistered when it is registered. -/
def inTurn (hist : Hist k) : Call k → Bool
  | .registerThread h => !threadRegistered hist h
  | .registerProcess d => !processRegistered hist d
  | .unregisterProcess d => processRegistered hist d
  | _ => true

def InTurn (hist : Hist k) (_ : State k) (c : Call k) : Prop := inTurn hist c = true

/-- Nothing is registered, and the counters are null. -/
def BootCounted (s : State k) : Prop :=
  Boot s ∧ s.sched.sNbThreads = 0 ∧ s.sched.sNbProcesses = 0

instance (hist : Hist k) (s : State k) (c : Call k) : Decidable (InTurn hist s c) :=
  inferInstanceAs (Decidable (_ = _))

/-! ### Moves -/

/-- What a move does to the words of the scheduler. -/
def Move.scheduler (x : Scheduler k) : Move k → Scheduler k
  | .edit e => match e with
      | .commit y => y
      | _ => x
  | .addProcess _ => { x with sNbProcesses := x.sNbProcesses + 1 }
  | .addThread _ => { x with sNbThreads := x.sNbThreads + 1 }
  | .forgetThread _ => { x with sNbThreads := x.sNbThreads - 1 }
  | .forgetProcess _ => { x with sNbProcesses := x.sNbProcesses - 1 }
  | _ => x

theorem Move.apply_sched (m : Move k) : (m.apply x).sched = m.scheduler x.sched := by
  cases m with
  | edit e =>
      cases e with
      | stop p t => exact congrArg Ledger.sched (stopTask_ledger x p t)
      | resume p t => exact congrArg Ledger.sched (resumeTask_ledger x p t)
      | override p t => exact congrArg Ledger.sched (overrideTask_ledger x p t)
      | unoverride p t => exact congrArg Ledger.sched (unOverride_ledger x p t)
      | _ => rfl
  | assign h t =>
      simp only [Move.apply, Move.scheduler, assignTask, State.modThread_sched, State.modTask_sched]
      split
      · rfl
      · exact (threadUnregisterTask_assigned t x).sched
  | leave t => exact (threadUnregisterTask_assigned t x).sched
  | _ => rfl

/-- A registry is the same in both memories: its list lies in a zone, the scheduler has its counter. -/
structure SameRegistry (z : Zone) (counter : Scheduler k → BitVec k.width) (s s' : State k) : Prop where
  list : SameZone Node.zone z s.links s'.links
  count : counter s'.sched = counter s.sched

/-- The registries are the same in both memories. -/
structure SameRegistries (s s' : State k) : Prop where
  threads : SameRegistry .threads Scheduler.sNbThreads s s'
  processes : SameRegistry .processes Scheduler.sNbProcesses s s'

theorem SameRegistry.counted {β : Type} {z : Zone} {counter : Scheduler k → BitVec k.width}
    {head : Node k} {node : β → Node k} {l : List β} (R : SameRegistry z counter s s')
    (hhead : head.zone = z) (hnode : ∀ b, (node b).zone = z)
    (C : Counted s.links head node (counter s.sched) l) :
    Counted s'.links head node (counter s'.sched) l :=
  R.count ▸ C.congr R.list hhead hnode

/-- The move leaves the registries. -/
def Move.Aside (x : State k) (m : Move k) : Prop :=
  m.touches .threads = false ∧ m.touches .processes = false ∧
    (m.scheduler x.sched).sNbThreads = x.sched.sNbThreads ∧
    (m.scheduler x.sched).sNbProcesses = x.sched.sNbProcesses

theorem Moves.registries {allowed : State k → Move k → Prop} (M : Moves allowed s s')
    (Z : Zones s.pointers T) (haside : ∀ x m, allowed x m → m.Aside x) :
    SameRegistries s s' ∧ Zones s'.pointers T := by
  refine M.keeps (I := fun x => SameRegistries s x ∧ Zones x.pointers T)
    (fun {x} m ⟨R, Z⟩ hm ha => ?_) ⟨⟨⟨.refl _ _ _, rfl⟩, .refl _ _ _, rfl⟩, Z⟩
  obtain ⟨hthreads, hprocesses, hnbThreads, hnbProcesses⟩ := haside x m ha
  constructor
  · exact ⟨⟨R.threads.list.trans (Z.same m hm hthreads),
        by rw [m.apply_sched, hnbThreads, R.threads.count]⟩,
      R.processes.list.trans (Z.same m hm hprocesses),
        by rw [m.apply_sched, hnbProcesses, R.processes.count]⟩
  · have hmove := Z.move m hm
    cases m with
    | addThread h => cases hthreads
    | _ => exact hmove

/-! ### The registered objects -/

/-- What a call does to the list of the threads, and to that of the processes. -/
def Call.threadPassage : Call k → Passage (ThreadId k)
  | .registerThread h => .enter h
  | .unregisterThread h => .leave h
  | _ => .stay

def Call.processPassage : Call k → Passage (ProcessId k)
  | .registerProcess d => .enter d
  | .unregisterProcess d => .leave d
  | _ => .stay

section passages
variable (e : Event (State k) (Call k) (BitVec 8))

theorem threadsOf_cons : threadsOf (e :: hist) = e.call.threadPassage.list (threadsOf hist) := by
  obtain ⟨s, c, r, s'⟩ := e
  cases c <;> rfl

theorem processesOf_cons : processesOf (e :: hist) = e.call.processPassage.list (processesOf hist) := by
  obtain ⟨s, c, r, s'⟩ := e
  cases c <;> rfl

theorem threadRegistered_cons (g : ThreadId k) : threadRegistered (e :: hist) g =
    e.call.threadPassage.registered (threadRegistered hist) g := by
  obtain ⟨s, c, r, s'⟩ := e
  cases c <;> rfl

theorem processRegistered_cons (g : ProcessId k) : processRegistered (e :: hist) g =
    e.call.processPassage.registered (processRegistered hist) g := by
  obtain ⟨s, c, r, s'⟩ := e
  cases c <;> rfl

end passages

theorem card_thread_lt (k : Machine) : Fintype.card (ThreadId k) < 2 ^ k.width := by
  have := k.fits
  simp only [Fintype.card_fin]
  omega

theorem card_process_lt (k : Machine) : Fintype.card (ProcessId k) < 2 ^ k.width := by
  have := k.fits
  simp only [Fintype.card_fin]
  omega

/-! ### Calls -/

/-- The call changes a registry. -/
def Call.enrols : Call k → Bool
  | .registerThread _ | .unregisterThread _ | .registerProcess _ | .unregisterProcess _ => true
  | _ => false

/-- The other calls leave the registries. -/
theorem exec_registries (Z : Zones s.pointers T) (hprimed : s.Primed) (hc : c.enrols = false)
    (he : exec ⟨true, policy⟩ c s = .ok (r, s')) : SameRegistries s s' := by
  refine ((exec_moves Z hprimed he).registries Z fun x m ha => ?_).1
  cases m with
  | edit e =>
      cases e with
      | commit y => rcases ha with ⟨-, rfl⟩ | ⟨-, rfl⟩ <;> exact ⟨rfl, rfl, rfl, rfl⟩
      | _ => exact ⟨rfl, rfl, rfl, rfl⟩
  | addThread h => exact absurd (ha ▸ hc) (by simp [Call.enrols])
  | addProcess d => exact absurd (ha ▸ hc) (by simp [Call.enrols])
  | forgetThread h => exact absurd (ha ▸ hc) (by simp [Call.enrols])
  | forgetProcess d => exact absurd (ha ▸ hc) (by simp [Call.enrols])
  | _ => exact ⟨rfl, rfl, rfl, rfl⟩

theorem registerThread_counted {l : List (ThreadId k)}
    (C : Counted s.links .sThreads .threadList s.sched.sNbThreads l) (hh : h ∉ l) :
    Counted (schedRegisterThread h s).links .sThreads .threadList
      (schedRegisterThread h s).sched.sNbThreads (h :: l) := by
  have hne : (Node.threadHistory h).zone ≠ .threads := nofun
  have hhead : Node.threadList h ≠ .sThreads := nofun
  exact C.enter (card_thread_lt k) (fun _ _ => Node.threadList.inj) rfl (fun _ => rfl) hhead hh
    (Zoned.init_same hne _)

theorem registerProcess_counted {l : List (ProcessId k)}
    (C : Counted s.links .sProcesses .pList s.sched.sNbProcesses l) (hd : d ∉ l) :
    Counted (schedRegisterProcess d s).links .sProcesses .pList
      (schedRegisterProcess d s).sched.sNbProcesses (d :: l) := by
  have hne : ∀ n : Node k, n = .pTasks d ∨ n = .pPrimitives d ∨ n = .pSiblings (pPrim d) ∨
      n = .pStopped (pPrim d) ∨ n = .pOverriders (pPrim d) → n.zone ≠ .processes := by
    rintro n (rfl | rfl | rfl | rfl | rfl) <;> nofun
  have hinit : SameZone Node.zone .processes (s.links.insertAfter .sProcesses (.pList d))
      (registerProcess d s).links :=
    (Zoned.init_same (hne (.pTasks d) (by simp)) _).trans
      (Zoned.init_same (hne (.pPrimitives d) (by simp)) _)
  have hprim : SameZone Node.zone .processes (registerProcess d s).links
      (schedRegisterProcess d s).links := by
    refine (Zoned.init_same (hne (.pSiblings (pPrim d)) (by simp)) _).trans ?_
    exact (Zoned.init_same (hne (.pStopped (pPrim d)) (by simp)) _).trans
      (Zoned.init_same (hne (.pOverriders (pPrim d)) (by simp)) _)
  have hhead : Node.pList d ≠ .sProcesses := nofun
  exact C.enter (card_process_lt k) (fun _ _ => Node.pList.inj) rfl (fun _ => rfl) hhead hd
    (hinit.trans hprim)

/-- The walks of the two unregistrations leave the registries. -/
theorem unregisterThread_registries (Z : Zones s.pointers T)
    (he : schedUnregisterThread ⟨true, policy⟩ h s = .ok s') :
    (s.thread h).tSched = true ∧ ∃ s₁, SameRegistries s s₁ ∧ Zones s₁.pointers T ∧
      (Move.forgetThread h).Checked s₁ ∧ s' = Sched.forgetThread h s₁ := by
  obtain ⟨hh, s₁, -, M, hsched, rfl⟩ :=
    schedUnregisterThread_ok (fun _ m => ∃ t, m = .leave t) Z (fun _ t => ⟨t, rfl⟩) he
  obtain ⟨R, Z₁⟩ := M.registries Z fun x m ⟨t, e⟩ => e ▸ ⟨rfl, rfl, rfl, rfl⟩
  exact ⟨hh, s₁, R, Z₁, hsched, rfl⟩

theorem unregisterProcess_registries (Z : Zones s.pointers T)
    (he : schedUnregisterProcess ⟨true, policy⟩ d s = .ok s') :
    ∃ s₁, SameRegistries s s₁ ∧ Zones s₁.pointers T ∧ (Move.forgetProcess d).Checked s₁ ∧
      s' = Sched.forgetProcess d s₁ := by
  obtain ⟨-, s₁, -, M, hsched, rfl⟩ :=
    schedUnregisterProcess_ok (fun _ m => ∃ t, m = .unlinkUnsafe t) Z (fun _ t => ⟨t, rfl⟩) he
  obtain ⟨R, Z₁⟩ := M.registries Z fun x m ⟨t, e⟩ => e ▸ ⟨rfl, rfl, rfl, rfl⟩
  exact ⟨s₁, R, Z₁, hsched, rfl⟩

/-- **The lists after one call**, if it is in turn. -/
theorem exec_counted (Z : Zones s.pointers T) (hprimed : s.Primed)
    (hsched : ∀ h, (s.thread h).tSched = threadRegistered hist h) (R : RegistriesAgree hist s)
    (hc : InTurn hist s c) (he : exec ⟨true, policy⟩ c s = .ok (r, s')) :
    Counted s'.links .sThreads .threadList s'.sched.sNbThreads
        (threadsOf (⟨s, c, r, s'⟩ :: hist)) ∧
      Counted s'.links .sProcesses .pList s'.sched.sNbProcesses
        (processesOf (⟨s, c, r, s'⟩ :: hist)) := by
  have hsame : c.enrols = false → SameRegistries s s' := fun hc => exec_registries Z hprimed hc he
  cases c with
  | registerThread h =>
      obtain ⟨-, rfl⟩ := ok_pair_eq.mp he
      have hh : h ∉ threadsOf hist := by
        rw [R.thread, hsched]
        simpa [InTurn, inTurn] using hc
      refine ⟨registerThread_counted R.threads hh, ?_⟩
      exact R.processes.congr (Z.same (.addThread h) trivial rfl) rfl fun _ => rfl
  | unregisterThread h =>
      obtain ⟨hh, s₁, S, Z₁, hm, rfl⟩ := unregisterThread_registries Z (void_eq_ok.mp he).2
      refine ⟨(S.threads.counted rfl (fun _ => rfl) R.threads).removeUnsafe ((R.thread h).mpr hh), ?_⟩
      have C := S.processes.counted rfl (fun _ => rfl) R.processes
      exact C.congr (Z₁.same (.forgetThread h) hm rfl) rfl fun _ => rfl
  | registerProcess d =>
      obtain ⟨-, rfl⟩ := ok_pair_eq.mp he
      have hd : d ∉ processesOf hist := by
        rw [R.process]
        simpa [InTurn, inTurn] using hc
      refine ⟨?_, registerProcess_counted R.processes hd⟩
      have Z₁ := Z.move (.addProcess d) trivial
      exact R.threads.congr ((Z.same (.addProcess d) trivial rfl).trans
        (Z₁.same (.addPrim d (pPrim d)) trivial rfl)) rfl fun _ => rfl
  | unregisterProcess d =>
      obtain ⟨s₁, S, Z₁, hm, rfl⟩ := unregisterProcess_registries Z (void_eq_ok.mp he).2
      have hd : d ∈ processesOf hist := (R.process d).mpr hc
      refine ⟨?_, (S.processes.counted rfl (fun _ => rfl) R.processes).removeUnsafe hd⟩
      have C := S.threads.counted rfl (fun _ => rfl) R.threads
      exact C.congr (Z₁.same (.forgetProcess d) hm rfl) rfl fun _ => rfl
  | _ =>
      exact ⟨(hsame rfl).threads.counted rfl (fun _ => rfl) R.threads,
        (hsame rfl).processes.counted rfl (fun _ => rfl) R.processes⟩

/-- The processes of the list point to the scheduler. -/
theorem exec_listed (Z : Zones s.pointers T) (hprimed : s.Primed)
    (hlisted : ∀ d ∈ processesOf hist, (s.process d).pSched = true)
    (he : exec ⟨true, policy⟩ c s = .ok (r, s')) :
    ∀ d ∈ processesOf (⟨s, c, r, s'⟩ :: hist), (s'.process d).pSched = true := by
  intro d hd
  by_cases hc : c = .registerProcess d
  · subst hc
    obtain ⟨-, rfl⟩ := ok_pair_eq.mp he
    simp [schedRegisterProcess, processRegisterPrim]
  · rw [exec_pSched Z hprimed hc he]
    refine hlisted d ?_
    cases c with
    | registerProcess d' => exact List.mem_of_ne_of_mem (fun e => hc (e ▸ rfl)) hd
    | unregisterProcess d' => exact List.mem_of_mem_erase hd
    | _ => exact hd

/-- **One call.** -/
theorem exec_registries_iff (Z : Zones s.pointers T) (hprimed : s.Primed)
    (hsched : ∀ h, (s.thread h).tSched = threadRegistered hist h) (R : RegistriesAgree hist s)
    (he : exec ⟨true, policy⟩ c s = .ok (r, s')) :
    RegistriesAgree (⟨s, c, r, s'⟩ :: hist) s' ↔ InTurn hist s c := by
  have hthread : ∀ g, g ∈ threadsOf hist ↔ threadRegistered hist g = true :=
    fun g => hsched g ▸ R.thread g
  constructor
  · intro R'
    cases c with
    | registerThread h =>
        have hh : h ∉ threadsOf hist := (List.nodup_cons.mp R'.threads.nodup).1
        rw [hthread] at hh
        simpa [InTurn, inTurn] using hh
    | registerProcess d =>
        have hd : d ∉ processesOf hist := (List.nodup_cons.mp R'.processes.nodup).1
        rw [R.process] at hd
        simpa [InTurn, inTurn] using hd
    | unregisterProcess d =>
        -- a second unregistration changes the counter, and no list
        by_contra hd
        have hd : d ∉ processesOf hist := fun hmem => hd ((R.process d).mp hmem)
        obtain ⟨s₁, S, -, -, rfl⟩ := unregisterProcess_registries Z (void_eq_ok.mp he).2
        have C' := R'.processes
        have hpos : 0 < k.procs := Fin.pos d
        have hw : 1 < 2 ^ k.width := by
          have := k.fits
          omega
        simp only [processesOf, List.erase_of_not_mem hd] at C'
        exact (S.processes.counted rfl (fun _ => rfl) R.processes).not_decr hw C'
    | _ => rfl
  · intro hc
    obtain ⟨hthreads, hprocesses⟩ := exec_counted Z hprimed hsched R hc he
    refine ⟨hthreads, hprocesses, fun g => ?_, fun g => ?_, exec_listed Z hprimed R.pSched he⟩
    · rw [exec_tSched Z hprimed (hsched g) he, threadsOf_cons, threadRegistered_cons]
      exact Passage.mem_list R.threads.nodup hthread _ g
    · rw [processesOf_cons, processRegistered_cons]
      exact Passage.mem_list R.processes.nodup R.process _ g

/-- **The registries are kept iff nothing is registered or unregistered twice**, whatever else is called. -/
theorem registries_agree_iff {guard : Hist k → State k → Call k → Prop}
    (hr : Transition.Reach BootCounted (exec ⟨true, policy⟩) guard hist s) :
    Throughout RegistriesAgree hist s ↔ Meets InTurn hist := by
  refine Reach.throughout_iff (fun s hs => ?_) (fun hr R _ he => ?_) hr
  · obtain ⟨hs, hthreads, hprocesses⟩ := hs
    refine ⟨?_, ?_, fun h => ?_, fun d => iff_of_false List.not_mem_nil Bool.false_ne_true, nofun⟩
    · rw [hthreads]
      exact .empty hs.threads
    · rw [hprocesses]
      exact .empty hs.processes
    · rw [hs.thread h]
      exact iff_of_false List.not_mem_nil Bool.false_ne_true
  · have hr : Reach policy _ _ _ := hr.mono_init fun _ hs => hs.1
    exact exec_registries_iff (reach_zones hr).1 (reach_zones hr).2 (reach_tSched hr) R he

/-- Two threads of three are left; a process is unregistered twice. -/
theorem registries_agree_run : (∃ (hist : Hist small) (s : State small),
      threadsOf hist = [2, 0] ∧ Throughout RegistriesAgree hist s) ∧
    ∃ (hist : Hist small) (s : State small), processesOf hist = [] ∧ s.sched.sNbProcesses ≠ 0 ∧
      ¬Throughout RegistriesAgree hist s := by
  have hboot : BootCounted smallBoot := ⟨boot_smallBoot, rfl, rfl⟩
  constructor
  · obtain ⟨hist, s, hr, htest⟩ := exists_reach_of_replay (exec ⟨true, quiet⟩) InTurn hboot
      (fun hist _ => threadsOf hist = [2, 0])
      (smallSetup ++ [.openCommit, .unregisterThread 1, .unregisterProcess 0]) (by decide +kernel)
    exact ⟨hist, s, of_decide_eq_true htest, (registries_agree_iff hr).mpr hr.meets_guard⟩
  · obtain ⟨hist, s, hr, htest⟩ := exists_reach_of_replay (exec ⟨true, quiet⟩) (fun _ _ _ => True) hboot
      (fun hist s => decide (processesOf hist = [] ∧ s.sched.sNbProcesses ≠ 0 ∧ ¬Meets InTurn hist))
      (smallSetup ++ [.openCommit, .unregisterProcess 0, .unregisterProcess 0]) (by decide +kernel)
    obtain ⟨hnil, hne, hmeets⟩ := of_decide_eq_true htest
    exact ⟨hist, s, hnil, hne, fun h => hmeets ((registries_agree_iff hr).mp h)⟩

end KernelTk.Sched
