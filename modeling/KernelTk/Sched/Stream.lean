import KernelTk.Sched.Execution

/-! # The calls made to the policy

`State.hooks` records every call that the scheduler has made to an operation of its policy.  It is a
ghost, and grows with every call; here it is cut into the parts of the calls of a run.

* **Reports.** `reported e` is the list of the calls made to the policy during one call of the kernel, the
  latest first: what the record after it has more than the record before it.
* **Stream.** `stream hist` is the list of the calls made to the policy by the calls of a run, the latest
  first, and it is composed of their reports (`stream_cons`).  It does not depend on what the record held
  at the start, which nobody has cleared.
* **Moves.** A move adds the calls that it reports, in the course of a call (`stream_move`).  So what a call
  tells is known from the moves that it makes, without unfolding it; and a call that reports nothing
  leaves the stream (`stream_of_hooks`). -/

namespace KernelTk.Sched

open Transition

variable {k : Machine} {hist : Hist k} {s x : State k} {c : Call k} {r : BitVec 8}

/-- The calls made to the policy during a call, the latest first. -/
def reported (e : Event (State k) (Call k) (BitVec 8)) : List (HookCall k) :=
  e.post.hooks.take (e.post.hooks.length - e.pre.hooks.length)

/-- The calls made to the policy so far, the latest first. -/
def stream (hist : Hist k) : List (HookCall k) := hist.flatMap reported

theorem reported_of_append {l : List (HookCall k)} (hx : x.hooks = l ++ s.hooks) :
    reported ⟨s, c, r, x⟩ = l := by
  simp [reported, hx]

theorem stream_cons : stream (⟨s, c, r, x⟩ :: hist) = reported ⟨s, c, r, x⟩ ++ stream hist := by
  simp [stream]

theorem stream_of_hooks (hx : x.hooks = s.hooks) : stream (⟨s, c, r, x⟩ :: hist) = stream hist := by
  rw [stream_cons, reported_of_append (l := []) hx, List.nil_append]

/-- **A move adds its reports**, in the course of a call. -/
theorem stream_move (hx : s.hooks <:+ x.hooks) (m : Move k) :
    stream (⟨s, c, r, m.apply x⟩ :: hist) = m.reports ++ stream (⟨s, c, r, x⟩ :: hist) := by
  obtain ⟨l, hl⟩ := hx
  have h₁ : reported ⟨s, c, r, x⟩ = l := reported_of_append hl.symm
  have h₂ : reported ⟨s, c, r, m.apply x⟩ = m.reports ++ l := by
    apply reported_of_append
    rw [m.apply_hooks, ← hl, List.append_assoc]
  rw [stream_cons, stream_cons, h₁, h₂, List.append_assoc]

end KernelTk.Sched
