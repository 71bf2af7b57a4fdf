import KernelTk.Sched.Ownership

/-! # Failed releases

`sched_mutex_unlock` and `sched_sem_release` return `1` when they fail, and a caller expects that nothing
has happened.

* **Half releases.** `primitive_release_ownership` decreases the counter of the primitive, then looks at the
  counter of the task, and fails if it is null: `HalfDone` says that the release of `p` for `t` passes
  the checks of the build and comes to this point.  The decrement changes the memory even where it wraps
  (`releasePrim_ne`).
* **Releases.** `primitiveReleaseOwnership_fails` : a release that fails changes the memory iff it is a half
  release.  It is an equivalence on one function, with no assumption on the memory.
* **Theorem.** `failed_release_frame` : a failed unlock of a mutex or release of a semaphore leaves the
  memory as it is, unless it is a half release; for every memory, in both builds.  The wrappers do nothing
  before the release, and nothing after one that fails.
* **Defects.** `failed_release_changes` : a task that owns nothing releases a semaphore that another one has
  taken.  The call returns `1`, and the semaphore is free. -/

namespace KernelTk.Sched

open Transition

variable {k : Machine}

/-- The release of `p` for `t` passes the checks of the build, finds the counter of the primitive
not null and the counter of the task null. -/
def HalfDone (env : Env k) (s : State k) (p : PrimId k) (t : TaskId k) : Prop :=
  (env.debug = true → s.Related p t ∧ (s.task t).tStatus = schedStatusActive) ∧
    (s.prim p).pNbOwningTasks ≠ 0 ∧ (s.task t).tNbOwnedPrimitives = 0

section

variable {env : Env k} {s s' : State k} {p : PrimId k} {t : TaskId k}

/-- A half release decreases the counter of the primitive. -/
theorem releasePrim_ne (hp : (s.prim p).pNbOwningTasks ≠ 0) : releasePrim p s ≠ s := by
  intro e
  have h := congrArg (fun x : State k => (x.prim p).pNbOwningTasks.toNat) e
  simp only [releasePrim, State.modPrim_prim, Function.update_self] at h
  rw [Word.toNat_decr hp] at h
  have hpos := Word.toNat_pos hp
  omega

/-- A failed release changes the memory iff it is a half release. -/
theorem primitiveReleaseOwnership_fails : (∀ r s', r ≠ 0 →
    primitiveReleaseOwnership env p (some t) s = .ok (r, s') → s' = s) ↔ ¬HalfDone env s p t := by
  constructor
  · rintro h ⟨hchecks, hp, ht⟩
    refine releasePrim_ne hp (h 1 (releasePrim p s) (by decide) ?_)
    exact primitiveReleaseOwnership_ok.mpr ⟨t, rfl, hchecks, .inr (.inl ⟨hp, ht, rfl, rfl⟩)⟩
  · intro h r s' hr he
    obtain ⟨u, hu, hchecks, hcases⟩ := primitiveReleaseOwnership_ok.mp he
    obtain rfl := Option.some.inj hu
    rcases hcases with ⟨-, -, rfl⟩ | ⟨hp, ht, -, -⟩ | ⟨-, -, rfl, -⟩
    · rfl
    · exact absurd ⟨hchecks, hp, ht⟩ h
    · exact absurd rfl hr

end

/-- **A failed unlock or release changes nothing, unless it is a half release**: for every
memory, in both builds. -/
theorem failed_release_frame (env : Env k) (s : State k) (p : PrimId k) (h : ThreadId k) :
    ((∀ r s', r ≠ 0 → schedMutexUnlock env p h s = .ok (r, s') → s' = s) ↔
      ¬∃ t, (s.thread h).tTask = some t ∧ (s.prim p).pOverridden = some t ∧ HalfDone env s p t) ∧
    ((∀ r s', r ≠ 0 → schedSemRelease env p h s = .ok (r, s') → s' = s) ↔
      ¬∃ t, (s.thread h).tTask = some t ∧ HalfDone env s p t) := by
  constructor
  · constructor
    · rintro hall ⟨t, ht, ho, hhalf⟩
      refine primitiveReleaseOwnership_fails.mp (fun r s' hr he => ?_) hhalf
      refine hall 3 s' (by decide) (schedMutexUnlock_ok.mpr (.inr (.inr ⟨t, r, s', ho, ht, he, ?_⟩)))
      exact .inl ⟨hr, rfl, rfl⟩
    · intro hno r s' hr he
      rcases schedMutexUnlock_ok.mp he with ⟨-, -, rfl⟩ | ⟨-, -, -, rfl⟩ |
        ⟨t, e, s₁, ho, ht, h₁, ⟨he, -, rfl⟩ | ⟨-, rfl, -⟩⟩
      · rfl
      · rfl
      · exact primitiveReleaseOwnership_fails.mpr (fun hh => hno ⟨t, ht, ho, hh⟩) e _ he h₁
      · exact absurd rfl hr
  · constructor
    · rintro hall ⟨t, ht, hhalf⟩
      refine primitiveReleaseOwnership_fails.mp (fun r s' hr he => ?_) hhalf
      exact hall 1 s' (by decide) (schedSemRelease_ok.mpr ⟨r, s', ht ▸ he, .inl ⟨hr, rfl, rfl⟩⟩)
    · intro hno r s' hr he
      obtain ⟨e, s₁, h₁, ⟨he, -, rfl⟩ | ⟨-, rfl, -⟩⟩ := schedSemRelease_ok.mp he
      · obtain ⟨t, ht, -⟩ := primitiveReleaseOwnership_ok.mp h₁
        exact primitiveReleaseOwnership_fails.mpr (fun hh => hno ⟨t, ht, hh⟩) e _ he (ht ▸ h₁)
      · exact absurd rfl hr

/-- The first task has taken the semaphore; the second one owns nothing and releases it. -/
def thiefCalls : List (Call small) :=
  smallSetup ++ [.semCtor (.other 0) 1 0, .assignTask 0 (some 0), .assignTask 1 (some 1),
    .semTake (.other 0) 0]

set_option maxRecDepth 10000 in
/-- The release returns `1` and has decreased the counter of the semaphore. -/
theorem failed_release_changes : ¬∀ (hist : Hist small) (s : State small),
    Reach quiet (fun hist _ c => Additive hist c) hist s → ∀ p h r s', r ≠ 0 →
      schedSemRelease ⟨true, quiet⟩ p h s = .ok (r, s') → s' = s := by
  intro hall
  obtain ⟨hist, s, hr, htest⟩ := exists_reach_of_replay (exec ⟨true, quiet⟩)
    (fun hist _ c => Additive hist c) boot_smallBoot
    (fun _ s => match schedSemRelease ⟨true, quiet⟩ (.other 0) 1 s with
      | .ok (r, s') => r != 0 && (s'.prim (.other 0)).pNbOwningTasks !=
          (s.prim (.other 0)).pNbOwningTasks
      | .error _ => false) thiefCalls (by decide +kernel)
  split at htest
  · rename_i r s' he
    simp only [Bool.and_eq_true, bne_iff_ne] at htest
    exact htest.2 (by rw [hall hist s hr _ _ _ _ htest.1 he])
  · cases htest

end KernelTk.Sched
