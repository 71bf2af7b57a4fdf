import KernelTk.Lib.Lockstep
import KernelTk.Sched.BoardEdits

/-! # The functions agree with those of the board

In a debug build, the functions of `sched.c`, `mutex.c` and `sem.c` that walk along no list do what
the functions of the board that have their names do, and they fail when these refuse.

* **Relation.** `Shows O s b` : the memory represents the board, whose registered objects are `O`.  A
  function agrees with one of the board if it returns iff the other one accepts, with the same value
  and related states (`Returns`); the rules are those of `Agrees`.
* **Policy.** `hear_agree` : the policy is told the same thing in the memory and on the board, and then
  assigns the same tasks, one by one (`assign_agree`).  What it assigns may be refused, in both.
* **Functions.** One lemma a function: `stopTask_agree`, `resumeTask_agree`, `take_agree`, ...  Each one
  compares the checks with the conditions of the board, applies the lemma of its edit, and tells the
  policy.
* **Locks.** `mutexUnlock_agree`, `semRelease_agree` : the functions that release a lock look for a task at
  the head of the queue, by an address that belongs to none (`resumeFirst_agree`).  So they return only
  when the queue is empty, and that is what the board says of them. -/

namespace KernelTk.Sched

open Lockstep Transition

variable {k : Machine} {policy : Policy k} {O : Objects k} {hist : Hist k} {s s' : State k}
  {b b' : Board k} {v : View k} {p q : PrimId k} {t u : TaskId k} {h g : ThreadId k}
  {c d : ProcessId k} {call : HookCall k}

/-- The memory represents the board, whose registered objects are `O`. -/
def Shows (O : Objects k) (s : State k) (b : Board k) : Prop := Represents s b ∧ b.objects = O

/-- The same value is returned, and the memory represents the board. -/
def Returns (O : Objects k) (x : BitVec 8 × State k) (y : BitVec 8 × Board k) : Prop :=
  x.1 = y.1 ∧ Shows O x.2 y.2

theorem Shows.prim (R : Shows O s b) (hp : O.prim p = true) : b.waiting p ≠ none := by
  rw [← R.2] at hp
  exact Option.isSome_iff_ne_none.mp hp

/-! ### Objects -/

namespace Board

theorem objects_stop : (b.stop p t).objects = b.objects := by
  simp only [objects, stop, View.isSome_update_map]

theorem objects_resume : (b.resume t).objects = b.objects := by
  simp only [objects, resume, Option.isSome_map]

end Board

/-! ### What the board does -/

namespace Board

theorem foldlM_keeps {α β : Type} {f : β → α → Option β} {I : β → Prop}
    (hstep : ∀ {x a x'}, I x → f x a = some x' → I x') :
    ∀ {l : List α} {x x' : β}, I x → l.foldlM f x = some x' → I x' := by
  intro l
  induction l with
  | nil =>
      intro x x' hx he
      exact Option.some.inj he ▸ hx
  | cons a l ih =>
      intro x x' hx he
      rw [List.foldlM_cons] at he
      obtain ⟨y, hy, he⟩ := Option.bind_eq_some_iff.mp he
      exact ih (hstep hx hy) he

/-- An assignment changes what the threads execute, and the commits of the tasks. -/
theorem assign_same {task : Option (TaskId k)} (hb : b.assign h task = some b') :
    b.SameLists b' := by
  cases task with
  | none =>
      obtain rfl := Option.some.inj hb
      exact ⟨rfl, rfl, rfl, rfl, rfl⟩
  | some t =>
      simp only [assign] at hb
      split at hb
      · obtain rfl := Option.some.inj hb
        exact ⟨rfl, rfl, rfl, rfl, rfl⟩
      · cases hb

theorem SameLists.refl (b : Board k) : b.SameLists b := ⟨rfl, rfl, rfl, rfl, rfl⟩

theorem SameLists.trans {b'' : Board k} (e : b.SameLists b') (e' : b'.SameLists b'') :
    b.SameLists b'' :=
  ⟨e'.ready.trans e.ready, e'.members.trans e.members, e'.waiting.trans e.waiting,
    e'.marked.trans e.marked, e'.places.trans e.places⟩

theorem SameLists.mayOwn (e : b.SameLists b') : b'.MayOwn p t ↔ b.MayOwn p t := by
  have hhome : b'.home = b.home := congrArg Places.home e.places
  have howner : b'.owner = b.owner := congrArg Places.owner e.places
  rw [MayOwn, Shares, hhome, howner, e.ready]
  rfl

theorem hear_same (hb : b.hear policy call = some b') : b.SameLists b' := by
  have h0 : b.SameLists { b with heard := call :: b.heard } := ⟨rfl, rfl, rfl, rfl, rfl⟩
  exact foldlM_keeps (I := fun x => b.SameLists x) (fun hx ha => hx.trans (assign_same ha)) h0 hb

theorem take_same (hb : b.take p t = some b') :
    b'.running = b.running ∧ b'.waiting = b.waiting := by
  simp only [take] at hb
  split at hb
  · obtain rfl := Option.some.inj hb
    exact ⟨rfl, rfl⟩
  · cases hb

theorem giveBack_same {r : BitVec 8} (hb : b.giveBack p t = some (r, b')) :
    b'.waiting = b.waiting := by
  simp only [giveBack] at hb
  split at hb
  · split at hb
    · cases hb
      rfl
    · split at hb
      · cases hb
        rfl
      · cases hb
        rfl
  · cases hb

theorem unoverride_same (hb : b.unoverride policy p = some b') :
    b'.waiting = b.waiting ∧ (∀ q t, b'.MayOwn q t ↔ b.MayOwn q t) ∧ b'.overrides p = none := by
  unfold unoverride at hb
  split at hb
  · rename_i ho
    obtain rfl := Option.some.inj hb
    exact ⟨rfl, fun _ _ => Iff.rfl, ho⟩
  · rename_i t _
    have e := hear_same hb
    refine ⟨e.waiting, fun q u => e.mayOwn, ?_⟩
    rw [show b'.overrides = (b.release p t).overrides from congrArg Places.overrides e.places]
    simp [release]

end Board

/-! ### The policy -/

/-- **`thread_assign_task`** -/
theorem assign_agree (R : Shows O s b) (task : Option (TaskId k)) :
    Agree (Shows O) (threadAssignTask ⟨true, policy⟩ h task s) (b.assign h task) := by
  cases task with
  | none => exact .ok ⟨R.1.idle h, R.2⟩
  | some t =>
      refine .guard (fun x hx => ?_) fun hm => ?_
      · obtain ⟨hprc, hsched, -⟩ := threadAssignTask_ok hx
        exact ⟨(R.1.tSched h).symm.trans hsched, R.1.home t ▸ hprc rfl⟩
      · rw [R.1.assign_ok hm]
        exact .ok ⟨R.1.run hm, R.2⟩

/-- **A call to the policy** -/
theorem hear_agree (R : Shows O s b) :
    Agree (Shows O) (callHook ⟨true, policy⟩ true call s) (b.hear policy call) := by
  simp only [callHook, derefSched, Board.hear, R.1.heard]
  refine Agree.foldlM (fun x y a hxy => assign_agree hxy a.2) _ _ _ ⟨?_, R.2⟩
  have h := R.1.record call
  rwa [R.1.heard] at h

/-! ### Ownership -/

/-- **`primitive_take_ownership`** -/
theorem take_agree (R : Shows O s b) :
    Agree (Shows O) (primitiveTakeOwnership ⟨true, policy⟩ p (some t) s) (b.take p t) := by
  refine .guard (fun x hx => ?_) fun hm => ?_
  · obtain ⟨u, hu, hchecks, -⟩ := primitiveTakeOwnership_ok.mp hx
    obtain rfl := Option.some.inj hu
    exact R.1.mayOwn_iff.mp (hchecks rfl)
  · rw [primitiveTakeOwnership_ok.mpr ⟨t, rfl, fun _ => R.1.mayOwn_iff.mpr hm, rfl⟩]
    exact .ok ⟨R.1.take p t, R.2⟩

/-- **`primitive_release_ownership`** -/
theorem giveBack_agree (R : Shows O s b) :
    Agree (Returns O) (primitiveReleaseOwnership ⟨true, policy⟩ p (some t) s) (b.giveBack p t) := by
  refine .guard (fun x hx => ?_) fun hm => ?_
  · obtain ⟨u, hu, hchecks, -⟩ := primitiveReleaseOwnership_ok.mp hx
    obtain rfl := Option.some.inj hu
    exact R.1.mayOwn_iff.mp (hchecks rfl)
  · have hchecks := R.1.mayOwn_iff.mpr hm
    have htaken := R.1.taken p
    have howned := R.1.owned t
    split
    · rename_i h0
      rw [primitiveReleaseOwnership_ok.mpr ⟨t, rfl, fun _ => hchecks, .inl ⟨htaken.trans h0, rfl, rfl⟩⟩]
      exact .ok ⟨rfl, R⟩
    · rename_i h0
      rw [← htaken] at h0
      dsimp only
      split
      · rename_i h1
        rw [primitiveReleaseOwnership_ok.mpr ⟨t, rfl, fun _ => hchecks,
          .inr (.inl ⟨h0, howned.trans h1, rfl, rfl⟩)⟩]
        exact .ok ⟨rfl, R.1.releasePrim p, R.2⟩
      · rename_i h1
        rw [primitiveReleaseOwnership_ok.mpr ⟨t, rfl, fun _ => hchecks,
          .inr (.inr ⟨h0, fun e => h1 (howned.symm.trans e), rfl, rfl⟩)⟩]
        exact .ok ⟨rfl, R.1.giveBack p t, R.2⟩

/-! ### Overrides -/

/-- **`_prim_un_override`** -/
theorem unoverride_agree (R : Shows O s b) (hp : b.waiting p ≠ none) :
    Agree (Shows O) (primUnOverride ⟨true, policy⟩ p s) (b.unoverride policy p) := by
  unfold Board.unoverride
  split
  · rename_i ho
    rw [primUnOverride_ok.mpr (.inl ⟨(R.1.overrides p).trans ho, rfl⟩)]
    exact .ok R
  · rename_i t ho
    obtain ⟨ht, hshares⟩ := R.1.sound.shares p t hp ho
    obtain ⟨c, hc⟩ := Option.ne_none_iff_exists'.mp ht
    have ho' : (s.prim p).pOverridden = some t := (R.1.overrides p).trans ho
    have hprc : (s.prim p).pProcess = some c := (R.1.owner p).trans (hshares.trans hc)
    have hsched := (R.1.process_of_home hc).2
    have hR : Shows O (unOverride p t s) (b.release p t) := ⟨R.1.release hp ho, R.2⟩
    refine (hear_agree hR).congr fun x => ?_
    rw [primUnOverride_ok]
    constructor
    · rintro (⟨h, -⟩ | ⟨u, d, hu, hd, h⟩)
      · cases h.symm.trans ho'
      · obtain rfl := Option.some.inj (hu.symm.trans ho')
        obtain rfl := Option.some.inj (hd.symm.trans hprc)
        exact hsched ▸ h
    · intro h
      exact .inr ⟨t, c, ho', hprc, hsched.symm ▸ h⟩

/-- **`primitive_override_task`** -/
theorem overrideTask_agree (R : Shows O s b) (hp : b.waiting p ≠ none) :
    Agree (Shows O) (primitiveOverrideTask ⟨true, policy⟩ p (some t) s)
      (b.overrideTask policy p t) := by
  refine .guard (fun x hx => ?_) fun hm => ?_
  · obtain ⟨u, c, s₁, hu, -, hchecks, -⟩ := primitiveOverrideTask_ok.mp hx
    obtain rfl := Option.some.inj hu
    exact R.1.mayOwn_iff.mp (hchecks rfl)
  · have hchecks := R.1.mayOwn_iff.mpr hm
    obtain ⟨c, hc⟩ := Option.ne_none_iff_exists'.mp hm.1.1
    have hprc : (s.prim p).pProcess = some c := (R.1.owner p).trans (hm.1.2.trans hc)
    have hsched := (R.1.process_of_home hc).2
    have hseq : Agree (Shows O)
        (primUnOverride ⟨true, policy⟩ p s >>= fun s₁ =>
          callHook ⟨true, policy⟩ true (.overrideTaken p t) (overrideTask p t s₁))
        (b.unoverride policy p >>= fun b₁ => (b₁.override p t).hear policy (.overrideTaken p t)) := by
      refine (unoverride_agree R hp).bind fun s₁ b₁ _ hb₁ R₁ => hear_agree ?_
      obtain ⟨hwaiting, hown, ho⟩ := Board.unoverride_same hb₁
      exact ⟨R₁.1.override (hwaiting ▸ hp) ((hown p t).mpr hm) ho, R₁.2⟩
    refine hseq.congr fun x => ?_
    rw [primitiveOverrideTask_ok, bind_eq_ok]
    constructor
    · rintro ⟨u, d, s₁, hu, hd, -, h₁, h⟩
      obtain rfl := Option.some.inj hu
      obtain rfl := Option.some.inj (hd.symm.trans hprc)
      exact ⟨s₁, h₁, hsched ▸ h⟩
    · rintro ⟨s₁, h₁, h⟩
      exact ⟨t, c, s₁, rfl, hprc, fun _ => hchecks, h₁, hsched.symm ▸ h⟩

/-! ### Queues -/

/-- **`primitive_stop_task`** -/
theorem stopTask_agree (R : Shows O s b) (hp : b.waiting p ≠ none) :
    Agree (Shows O) (primitiveStopTask ⟨true, policy⟩ p (some t) s) (b.stopTask policy p t) := by
  refine .guard (fun x hx => ?_) fun hm => ?_
  · obtain ⟨u, c, hu, -, hchecks, -⟩ := primitiveStopTask_ok.mp hx
    obtain rfl := Option.some.inj hu
    obtain ⟨hrel, hact, hs⟩ := hchecks rfl
    have hshares := R.1.related_iff.mp hrel
    refine ⟨⟨hshares, R.1.ready_iff.mpr ⟨hshares.1, hs⟩⟩, ?_⟩
    rw [← R.1.stamp, ← R.1.index]
    exact beq_iff_eq.mp hact
  · have hrel := R.1.related_iff.mpr hm.1.1
    have hs := (R.1.ready_iff.mp hm.1.2).2
    have hact : s.taskActive t = true := by
      rw [State.taskActive, R.1.stamp, R.1.index]
      exact beq_iff_eq.mpr hm.2
    obtain ⟨c, hc⟩ := Option.ne_none_iff_exists'.mp hm.1.1.1
    have hprc : (s.task t).tProcess = some c := (R.1.home t).trans hc
    have hsched := (R.1.process_of_home hc).2
    have hR : Shows O (stopTask p t s) (b.stop p t) :=
      ⟨R.1.stop hp hm, Board.objects_stop.trans R.2⟩
    refine (hear_agree hR).congr fun x => ?_
    rw [primitiveStopTask_ok]
    constructor
    · rintro ⟨u, d, hu, hd, -, h⟩
      obtain rfl := Option.some.inj hu
      obtain rfl := Option.some.inj (hd.symm.trans hprc)
      exact hsched ▸ h
    · exact fun h => ⟨t, c, rfl, hprc, fun _ => ⟨hrel, hact, hs⟩, hsched.symm ▸ h⟩

/-- **`primitive_stop_thread`** -/
theorem stopThread_agree (R : Shows O s b) (hp : b.waiting p ≠ none) :
    Agree (Shows O) (primitiveStopThread ⟨true, policy⟩ p h s) (b.stopThread policy p h) := by
  refine .guard (fun x hx => ?_) fun hm => ?_
  · rw [← R.1.tSched]
    exact ((primitiveStopThread_ok.mp hx).1 rfl).2.1
  · have hsched : (s.thread h).tSched = true := (R.1.tSched h).trans hm
    cases ht : b.running h with
    | none =>
        refine .refused fun x hx => ?_
        obtain ⟨-, s₁, h₁, -⟩ := primitiveStopThread_ok.mp hx
        obtain ⟨u, -, hu, -⟩ := primitiveStopTask_ok.mp h₁
        cases ((R.1.running h).trans ht).symm.trans hu
    | some t =>
        have htask : (s.thread h).tTask = some t := (R.1.running h).trans ht
        have hseq : Agree (Shows O)
            (primitiveStopTask ⟨true, policy⟩ p (some t) s >>= fun s₁ =>
              callHook ⟨true, policy⟩ true (.assignOne h) s₁)
            (b.stopTask policy p t >>= fun b₁ => b₁.hear policy (.assignOne h)) :=
          (stopTask_agree R hp).bind fun s₁ b₁ _ _ R₁ => hear_agree R₁
        refine hseq.congr fun x => ?_
        rw [primitiveStopThread_ok, bind_eq_ok, htask, hsched]
        refine ⟨fun h => h.2, fun h => ⟨fun _ => ?_, h⟩⟩
        -- the task is in the process of the primitive, so that this one is registered
        obtain ⟨s₁, h₁, -⟩ := h
        obtain ⟨u, c, hu, hc, hchecks, -⟩ := primitiveStopTask_ok.mp h₁
        obtain rfl := Option.some.inj hu
        obtain ⟨hrel, -⟩ := hchecks rfl
        rw [hrel.same]
        exact ⟨hrel.member, rfl, hrel.sched⟩

/-- **`primitive_resume_task`** -/
theorem resumeTask_agree {a : Addr k} (R : Shows O s b) (ha : a.task? = some t) :
    Agree (Shows O) (primitiveResumeTask ⟨true, policy⟩ a s) (b.resumeTask policy t) := by
  refine .guard (fun x hx => ?_) fun hm => ?_
  · obtain ⟨u, c, p, hu, hc, hp, hchecks, -⟩ := primitiveResumeTask_ok.mp hx
    obtain rfl := Option.some.inj (hu.symm.trans ha)
    have ht : b.home u ≠ none := by
      rw [← R.1.home, hc]
      exact Option.some_ne_none c
    exact ⟨ht, (R.1.stopped_iff ht).mp (hchecks rfl).2.2⟩
  · obtain ⟨ht, hnready, hnmarked⟩ := hm
    obtain ⟨c, hc⟩ := Option.ne_none_iff_exists'.mp ht
    have hprc : (s.task t).tProcess = some c := (R.1.home t).trans hc
    have hsched := (R.1.process_of_home hc).2
    have hstopper : (s.task t).tStopper ≠ none := fun e => hnready (R.1.ready_iff.mpr ⟨ht, e⟩)
    obtain ⟨p, hp⟩ := Option.ne_none_iff_exists'.mp hstopper
    have hR : Shows O (resumeTask p t s) (b.resume t) :=
      ⟨R.1.resume ht hp, Board.objects_resume.trans R.2⟩
    have hsame : (s.prim p).pProcess = (s.task t).tProcess := by
      rw [R.1.owner, R.1.home]
      exact R.1.waits_owner ht hp
    refine (hear_agree hR).congr fun x => ?_
    rw [primitiveResumeTask_ok]
    constructor
    · rintro ⟨u, d, q, hu, hd, hq, -, h⟩
      obtain rfl := Option.some.inj (hu.symm.trans ha)
      obtain rfl := Option.some.inj (hd.symm.trans hprc)
      obtain rfl := Option.some.inj (hq.symm.trans hp)
      exact hsched ▸ h
    · exact fun h => ⟨t, c, p, ha, hprc, hp,
        fun _ => ⟨hsched, hsame, (R.1.stopped_iff ht).mpr ⟨hnready, hnmarked⟩⟩, hsched.symm ▸ h⟩

/-! ### Locks -/

/-- **The taking of a free mutex** -/
theorem mutexAcquire_agree (R : Shows O s b) (hp : b.waiting p ≠ none) :
    Agree (Shows O) (mutexAcquire ⟨true, policy⟩ p h s) (b.mutexAcquire policy p h) := by
  simp only [mutexAcquire, Board.mutexAcquire, R.1.running]
  cases ht : b.running h with
  | none =>
      refine .refused fun x hx => ?_
      obtain ⟨s₁, h₁, -⟩ := bind_eq_ok.mp hx
      obtain ⟨t, ht, -⟩ := primitiveTakeOwnership_ok.mp h₁
      cases ht
  | some t =>
      refine (take_agree R).bind fun s₁ b₁ _ hb₁ R₁ => ?_
      obtain ⟨hrunning, hwaiting⟩ := Board.take_same hb₁
      rw [R₁.1.running, hrunning, ht]
      exact overrideTask_agree R₁ (hwaiting ▸ hp)

/-- **`sched_mutex_lock`** -/
theorem mutexLock_agree (R : Shows O s b) (hp : b.waiting p ≠ none) :
    Agree (Shows O) (schedMutexLock ⟨true, policy⟩ p h s) (b.mutexLock policy p h) := by
  have htaken := R.1.taken p
  unfold Board.mutexLock
  split
  · rename_i h0
    refine (mutexAcquire_agree R hp).congr fun x => ?_
    simp only [schedMutexLock_ok, htaken, h0, ne_eq, not_true_eq_false, false_and, true_and, false_or]
  · rename_i h0
    refine (stopThread_agree R hp).congr fun x => ?_
    simp only [schedMutexLock_ok, htaken, h0, ne_eq, not_false_eq_true, true_and, false_and, or_false]

theorem takeRunning_agree (R : Shows O s b) :
    Agree (Shows O) (primitiveTakeOwnership ⟨true, policy⟩ p (s.thread h).tTask s)
      (b.running h >>= (b.take p ·)) := by
  rw [R.1.running]
  cases b.running h with
  | none =>
      refine .refused fun x hx => ?_
      obtain ⟨t, ht, -⟩ := primitiveTakeOwnership_ok.mp hx
      cases ht
  | some t => exact take_agree R

/-- **`sched_sem_take`** -/
theorem semTake_agree (R : Shows O s b) (hp : b.waiting p ≠ none) :
    Agree (Shows O) (schedSemTake ⟨true, policy⟩ p h s) (b.semTake policy p h) := by
  have htaken := R.1.taken p
  have hbound := R.1.bound p
  unfold Board.semTake
  split
  · rename_i h0
    refine (stopThread_agree R hp).congr fun x => ?_
    simp only [schedSemTake_ok, htaken, hbound, h0, ne_eq, not_true_eq_false, false_and, true_and,
      or_false]
  · rename_i h0
    have htake : Agree (Shows O) (primitiveTakeOwnership ⟨true, policy⟩ p (s.thread h).tTask s)
        (b.running h >>= (b.take p ·)) := takeRunning_agree R
    refine htake.congr fun x => ?_
    simp only [schedSemTake_ok, htaken, hbound, h0, ne_eq, not_false_eq_true, true_and, false_and,
      false_or]

/-- The first task of a queue is never resumed: the queue has to be empty. -/
theorem resumeFirst_agree (R : Shows O s b) (hp : b.waiting p ≠ none) :
    Agree (Shows O) (resumeFirst ⟨true, policy⟩ p s)
      (if b.waiting p = some [] then some b else none) := by
  obtain ⟨l, hl⟩ := Option.ne_none_iff_exists'.mp hp
  obtain ⟨v, G, Q⟩ := R.1.lists
  have hempty : s.links.isEmpty (.pStopped p) = true ↔ b.waiting p = some [] := by
    rw [G.isEmpty_iff (Q.stopped ▸ hl), hl, Option.some.injEq]
  refine .guard (fun x hx => hempty.mp (resumeFirst_ok.mp hx).1) fun h0 => ?_
  rw [resumeFirst_ok.mpr ⟨hempty.mpr h0, rfl⟩]
  exact .ok R

theorem wake_agree (R : Shows O s b) (hp : b.waiting p ≠ none) :
    Agree (Returns O) (resumeFirst ⟨true, policy⟩ p s >>= fun s₁ => .ok (0, s₁))
      (if b.waiting p = some [] then some (0, b) else none) := by
  have hseq : (if b.waiting p = some [] then some ((0 : BitVec 8), b) else none) =
      (if b.waiting p = some [] then some b else none) >>= fun b₁ => some (0, b₁) := by
    split <;> rfl
  rw [hseq]
  exact (resumeFirst_agree R hp).bind fun _ _ _ _ R₁ => .ok ⟨rfl, R₁⟩

/-- **`sched_mutex_unlock`** -/
theorem mutexUnlock_agree (R : Shows O s b) (hp : b.waiting p ≠ none) :
    Agree (Returns O) (schedMutexUnlock ⟨true, policy⟩ p h s) (b.mutexUnlock policy p h) := by
  simp only [schedMutexUnlock, Board.mutexUnlock, R.1.running, R.1.overrides]
  cases b.overrides p with
  | none => exact .ok ⟨rfl, R⟩
  | some t =>
      rw [if_neg (Option.some_ne_none t)]
      dsimp only
      split
      · exact .ok ⟨rfl, R⟩
      · rename_i heq
        rw [not_not.mp heq, if_pos rfl]
        refine (giveBack_agree R).bind fun x y _ hy hxy => ?_
        obtain ⟨hr, R₁⟩ := hxy
        have hp₁ : y.2.waiting p ≠ none := by
          rw [Board.giveBack_same hy]
          exact hp
        simp only [hr]
        split
        · exact .ok ⟨rfl, R₁⟩
        · rename_i h0
          rw [if_pos (not_not.mp h0)]
          refine ((unoverride_agree R₁ hp₁).congr fun _ => primitiveUnoverrideTask_ok).bind
            fun s₂ b₂ _ hb₂ R₂ => ?_
          have hp₂ : b₂.waiting p ≠ none := by
            rw [(Board.unoverride_same hb₂).1]
            exact hp₁
          exact wake_agree R₂ hp₂

/-- **`sched_sem_release`** -/
theorem semRelease_agree (R : Shows O s b) (hp : b.waiting p ≠ none) :
    Agree (Returns O) (schedSemRelease ⟨true, policy⟩ p h s) (b.semRelease p h) := by
  simp only [schedSemRelease, Board.semRelease, R.1.running]
  cases b.running h with
  | none =>
      refine .refused fun x hx => ?_
      obtain ⟨x₁, h₁, -⟩ := bind_eq_ok.mp hx
      obtain ⟨t, ht, -⟩ := primitiveReleaseOwnership_ok.mp h₁
      cases ht
  | some t =>
      refine (giveBack_agree R).bind fun x y _ hy hxy => ?_
      obtain ⟨hr, R₁⟩ := hxy
      have hp₁ : y.2.waiting p ≠ none := by
        rw [Board.giveBack_same hy]
        exact hp
      simp only [hr]
      split
      · exact .ok ⟨rfl, R₁⟩
      · rename_i h0
        rw [if_pos (not_not.mp h0)]
        exact wake_agree R₁ hp₁

end KernelTk.Sched
