import Mathlib.Logic.Basic

/-! # Climbing between two kinds of nodes

A path that alternates between nodes of two types: `up a b` leads from a node of the first type
to one of the second, `next b` leads back to at most one node of the first.  The nodes of the second
type have at most one way on, those of the first may have several: seen from below, the paths from `a`
are the branches of a tree that is followed upwards.

* **Nodes met.** `Climbs up next a b` : the node `b` of the second type is met on a path from `a`.  It
  is the closure of the two relations taken in turn, stated for the nodes of the second type only,
  because these are the ones that a loop over such a path counts or marks.
* **Edges.** Fewer edges, fewer nodes met (`Climbs.mono`).
* **Cuts.** When the edges at one node are taken away, what was met is that node, or is met without
  it, or is met from the node that followed it (`Climbs.cut`).  A program that goes through the branches
  one after another and takes each one away before it follows it is described by this lemma applied
  once a turn: nothing is lost by the removal but what the turn itself visits. -/

namespace Climb

variable {α β : Type*} {up up' : α → β → Prop} {next next' : β → Option α} {a a' : α} {b c : β}

/-- `b` is met on a path from `a`. -/
inductive Climbs (up : α → β → Prop) (next : β → Option α) : α → β → Prop
  | here {a : α} {b : β} : up a b → Climbs up next a b
  | step {a a' : α} {b c : β} : up a b → next b = some a' → Climbs up next a' c →
      Climbs up next a c

namespace Climbs

theorem mono (hup : ∀ a b, up a b → up' a b) (hnext : ∀ b a, next b = some a → next' b = some a)
    (hc : Climbs up next a c) : Climbs up' next' a c := by
  induction hc with
  | here h => exact .here (hup _ _ h)
  | step h hb _ ih => exact .step (hup _ _ h) (hnext _ _ hb) ih

/-- Without the edges at `b`. -/
theorem cut (hup : ∀ a c, c ≠ b → up a c → up' a c)
    (hnext : ∀ c a, c ≠ b → next c = some a → next' c = some a) (hb : next b = some a')
    (hc : Climbs up next a c) : c = b ∨ Climbs up' next' a c ∨ Climbs up' next' a' c := by
  induction hc with
  | @here a c h =>
      by_cases hcb : c = b
      · exact .inl hcb
      · exact .inr (.inl (.here (hup a c hcb h)))
  | @step a a₁ b₁ c h hb₁ _ ih =>
      rcases ih with hcb | hc | hc
      · exact .inl hcb
      · by_cases hbb : b₁ = b
        · subst hbb
          obtain rfl : a₁ = a' := Option.some.inj (hb₁.symm.trans hb)
          exact .inr (.inr hc)
        · exact .inr (.inl (.step (hup a b₁ hbb h) (hnext b₁ a₁ hbb hb₁) hc))
      · exact .inr (.inr hc)

end Climbs

end Climb
