import KernelTk.Sched.Waiters
import KernelTk.Sched.Execution

/-! # Releases that find waiters

* **Property.** `HandsOver` : a release returns 0 and resumes the first of the stopped tasks, and no
  other one.  For a mutex, the task that is resumed is its new owner.
* **Releases.** `Relinquishes` : the thread releases the mutex or the semaphore, and
  `primitive_release_ownership` succeeds.  Whether the thread executes the owner, and how the tasks came
  to wait, does not matter.
* **Code.** `sched_mutex_unlock` and `sched_sem_release` take `container_of` of the head of the list,
  a field of the primitive, instead of its first node: what they pass to `primitive_resume_task` is
  no task (`containerOf_pStopped_task?`), and its first field is read before anything is checked.
* **Frame.** What comes before the resumption leaves the stopped lists (`Zones.stopped_ring`), in a state
  that any calls have reached: the override that ends and the counters that decrease are of other zones.
* **Theorem.** A release of the ownership that succeeds while a task is stopped does not return
  (`Relinquishes.stuck`), and hands over to no one (`release_hands_over_none`), for every queue, policy
  and thread. -/

namespace KernelTk.Sched

open Transition
open CircularList (IsRing)

variable {k : Machine} {env : Env k} {policy : Policy k} {hist : Hist k} {s s' : State k} {c : Call k}
  {r : BitVec 8} {p : PrimId k} {t : TaskId k} {h : ThreadId k} {l : List (TaskId k)}
  {T : ThreadId k → Prop}

/-- The thread releases the mutex or the semaphore, and `primitive_release_ownership` succeeds. -/
structure Relinquishes (env : Env k) (s : State k) (p : PrimId k) (h : ThreadId k) (c : Call k) :
    Prop where
  call : c = .mutexUnlock p h ∨ c = .semRelease p h
  tries : ∃ t, c.releasing s = some (p, t)
  releases : ∃ s₁, primitiveReleaseOwnership env p (s.thread h).tTask s = .ok (0, s₁)

/-- The call resumes `t`, and leaves the tasks `l` stopped by `p`. -/
structure HandsOver (env : Env k) (s : State k) (c : Call k) (p : PrimId k) (t : TaskId k)
    (l : List (TaskId k)) (s' : State k) : Prop where
  returns : exec env c s = .ok (0, s')
  status : (s'.task t).tStatus = schedStatusActive
  stopper : (s'.task t).tStopper = none
  actives : ∃ A : List (TaskId k), IsRing s'.links .sActives (A.map .tSchedList) ∧ t ∈ A
  waiters : IsRing s'.links (.pStopped p) (l.map .tStopped)
  count : (s'.prim p).nbStoppedTasks.toNat = l.length
  others : ∀ u, u ≠ t → (s'.task u).tStopper = (s.task u).tStopper

/-- What comes before the resumption in `sched_mutex_unlock` and `sched_sem_release` leaves the
stopped lists. -/
theorem Zones.stopped_ring {s₁ : State k} {task : Option (TaskId k)} (Z : Zones s.pointers T)
    (h₁ : primitiveReleaseOwnership ⟨true, policy⟩ p task s = .ok (r, s₁))
    (h₂ : primUnOverride ⟨true, policy⟩ p s₁ = .ok s' ∨ s' = s₁)
    (hring : IsRing s.links (.pStopped p) (l.map .tStopped)) :
    IsRing s'.links (.pStopped p) (l.map .tStopped) := by
  have M₁ : Moves (fun _ m => m.touches .stopped = false) s s₁ :=
    .releaseOwnership (fun _ => rfl) rfl h₁
  have hpolicy : Answers policy s₁ (fun _ m => m.touches .stopped = false) := by
    intro x h u _
    cases u <;> rfl
  have M₂ : Moves (fun _ m => m.touches .stopped = false) s s' := by
    rcases h₂ with h₂ | rfl
    · exact M₁.trans (.unOverride hpolicy List.suffix_rfl (fun _ => rfl) h₂)
    · exact M₁
  have hsame : CircularList.SameZone Node.zone .stopped s.links s'.links := M₂.same (fun _ _ => id) Z
  exact hsame.isRing rfl (fun _ => rfl) hring

/-- The resumption of the head of a list that is not empty does not return. -/
theorem resumeFirst_stuck (hring : IsRing s.links (.pStopped p) ((t :: l).map .tStopped)) :
    resumeFirst env p s ≠ .ok s' :=
  fun he => List.cons_ne_nil _ _ (hring.isEmpty_iff.mp (resumeFirst_ok.mp he).1)

/-- **A release that succeeds while tasks are stopped does not return.** -/
theorem Relinquishes.stuck (R : Relinquishes ⟨true, policy⟩ s p h c) (Z : Zones s.pointers T)
    (hring : IsRing s.links (.pStopped p) ((t :: l).map .tStopped)) :
    exec ⟨true, policy⟩ c s ≠ .ok (r, s') := by
  intro he
  obtain ⟨s₀, h₀⟩ := R.releases
  obtain ⟨u, hu⟩ := R.tries
  rcases R.call with rfl | rfl
  · rcases schedMutexUnlock_ok.mp he with ⟨ho, -, -⟩ | ⟨-, hne, -, -⟩ |
      ⟨v, e, s₁, -, hv, h₁, ⟨hfail, -, -⟩ | ⟨-, -, s₂, h₂, h₃⟩⟩
    · simp only [Call.releasing, ho] at hu
      split at hu
      · rename_i hnone
        simp [hnone] at hu
      · cases hu
    · simp [Call.releasing, hne] at hu
    · rw [hv, h₁] at h₀
      exact hfail (Prod.mk.inj (Except.ok.inj h₀)).1
    · exact resumeFirst_stuck (Z.stopped_ring h₁ (.inl h₂) hring) h₃
  · obtain ⟨e, s₁, h₁, ⟨hfail, -, -⟩ | ⟨-, -, h₂⟩⟩ := schedSemRelease_ok.mp he
    · rw [h₁] at h₀
      exact hfail (Prod.mk.inj (Except.ok.inj h₀)).1
    · exact resumeFirst_stuck (Z.stopped_ring h₁ (.inr rfl) hring) h₂

/-- **No release hands over**: in every state reached by any calls in which the tasks `t :: l` are
stopped by a mutex or by a semaphore, whoever releases it. -/
theorem release_hands_over_none {guard : Hist k → State k → Call k → Prop}
    (hr : Reach policy guard hist s)
    (hring : IsRing s.links (.pStopped p) ((t :: l).map .tStopped))
    (hc : Relinquishes ⟨true, policy⟩ s p h c) : ¬∃ s', HandsOver ⟨true, policy⟩ s c p t l s' := by
  rintro ⟨s', H⟩
  exact hc.stuck (reach_zones hr).1 hring H.returns

set_option maxRecDepth 10000 in
/-- The calls after which the second task waits for the mutex that the first one holds. -/
theorem contended_handover : ∃ (hist : Hist small) (s : State small) (t : TaskId small)
    (l : List (TaskId small)), Reach quiet (fun hist _ c => Additive hist c) hist s ∧
      IsRing s.links (.pStopped (.other 0)) ((t :: l).map .tStopped) ∧
      Relinquishes ⟨true, quiet⟩ s (.other 0) 0 (.mutexUnlock (.other 0) 0) ∧
      exec ⟨true, quiet⟩ (.mutexUnlock (.other 0) 0) s = .error .pointer := by
  obtain ⟨hist, s, hr, htest⟩ := exists_reach_of_replay (exec ⟨true, quiet⟩)
    (fun hist _ c => Additive hist c) boot_smallBoot
    (fun hist s => primRegistered hist (.other 0) && (!s.links.isEmpty (.pStopped (.other 0)) &&
      (decide ((Call.mutexUnlock (.other 0) 0).releasing s = some (.other 0, 0)) &&
        ((primitiveReleaseOwnership ⟨true, quiet⟩ (.other 0) (s.thread 0).tTask s).toOption.any
            (·.1 == 0) &&
          fails .pointer (exec ⟨true, quiet⟩ (.mutexUnlock (.other 0) 0) s)))))
    contendedCalls (by decide +kernel)
  simp only [Bool.and_eq_true, Bool.not_eq_true', decide_eq_true_eq] at htest
  obtain ⟨hp, hempty, hreleasing, hreleases, hfault⟩ := htest
  obtain ⟨v, G, R⟩ := reach_good (fun hg => Additive.regular hg) hr
  obtain ⟨l, hl⟩ := Option.isSome_iff_exists.mp ((R.prim _).mpr hp)
  have hring : IsRing s.links (.pStopped (.other 0)) (l.map .tStopped) :=
    G.wf.rings.ring (by simp [hl])
  cases l with
  | nil => cases (hring.isEmpty_iff.mpr rfl).symm.trans hempty
  | cons t l =>
      refine ⟨hist, s, t, l, hr, hring, ⟨.inl rfl, ⟨0, hreleasing⟩, ?_⟩, fails_iff.mp hfault⟩
      revert hreleases
      cases primitiveReleaseOwnership ⟨true, quiet⟩ (.other 0) (s.thread 0).tTask s with
      | error f => exact fun he => by cases he
      | ok x => exact fun he => ⟨x.2, congrArg _ (Prod.ext (eq_of_beq he) rfl)⟩

/-- The first task unlocks the mutex that the second one waits for. -/
theorem release_hands_over_run : ∃ (hist : Hist small) (s : State small) (t : TaskId small)
    (l : List (TaskId small)), Reach quiet (fun hist _ c => Additive hist c) hist s ∧
      ¬∃ s', HandsOver ⟨true, quiet⟩ s (.mutexUnlock (.other 0) 0) (.other 0) t l s' := by
  obtain ⟨hist, s, t, l, hr, hring, hc, -⟩ := contended_handover
  exact ⟨hist, s, t, l, hr, release_hands_over_none hr hring hc⟩

/-- The unlock uses an invalid pointer. -/
theorem release_hands_over_fails : ¬∀ (hist : Hist small) (s : State small) (p : PrimId small)
    (h : ThreadId small) (c : Call small) (t : TaskId small) (l : List (TaskId small)),
    Reach quiet (fun hist _ c => Additive hist c) hist s →
    IsRing s.links (.pStopped p) ((t :: l).map .tStopped) → Relinquishes ⟨true, quiet⟩ s p h c →
    ∃ s', HandsOver ⟨true, quiet⟩ s c p t l s' := by
  intro hall
  obtain ⟨hist, s, t, l, hr, hring, hc, hfault⟩ := contended_handover
  obtain ⟨s', H⟩ := hall hist s _ _ _ t l hr hring hc
  cases hfault.symm.trans H.returns

end KernelTk.Sched
