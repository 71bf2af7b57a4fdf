import Mathlib.Data.Nat.Notation
import Mathlib.Logic.Relation
import Mathlib.Tactic.TypeStar

/-! # Walks that mark as they go

A loop follows a pointer from node to node, marks the nodes, and ends at the first one that is marked
or that leads nowhere.  The graph of the pointer is arbitrary, and may have cycles.

* **Nodes met.** `Met next marked a x` : the path of `next` from `a` comes to `x`, and no node up to
  `x` is marked.  Equivalently `x` is reached from `a` through nodes that are not marked
  (`met_iff_reflTransGen`).
* **Marks.** What is met from an unmarked node is itself, and what is met from the next one once it
  is marked (`met_iff`): a node that the path comes back to ends the walk, and loses nothing.  This is
  the equation that the loop computes, and the proof that marking the first node hides no other one is
  `Met.cut`, which takes a path from its last visit of the node.
* **Loops.** `Ends step a s s'` : the loop whose iterations are those of `step` ends in the state
  `s'`, an iteration telling where the loop goes on, unless it breaks.  The state is unique
  (`Ends.unique`), a loop may be read through a map of its nodes (`Ends.map`), and it ends when every
  iteration but the last one decreases a measure (`ends_of_measure`), such as the number of nodes that
  are not marked. -/

namespace Trail

/-! ### Nodes met -/

section met
variable {α : Type*} {next : α → Option α} {marked marked' : α → Prop} {a b x : α}

/-- `x` is met on the path from `a`, through nodes that are not marked. -/
inductive Met (next : α → Option α) (marked : α → Prop) : α → α → Prop
  | here {a : α} : ¬marked a → Met next marked a a
  | next {a b x : α} : ¬marked a → next a = some b → Met next marked b x → Met next marked a x

namespace Met

theorem not_marked (h : Met next marked a x) : ¬marked a := by
  cases h with
  | here ha => exact ha
  | next ha _ _ => exact ha

theorem keeps {I : α → Prop} (h : Met next marked a x) (ha : I a)
    (hstep : ∀ {b c}, I b → next b = some c → I c) : I x := by
  induction h with
  | here _ => exact ha
  | next _ hnext _ ih => exact ih (hstep ha hnext)

theorem mono (hm : ∀ y, marked' y → marked y) (h : Met next marked a x) : Met next marked' a x := by
  induction h with
  | here ha => exact .here fun ha' => ha (hm _ ha')
  | next ha hnext _ ih => exact .next (fun ha' => ha (hm _ ha')) hnext ih

/-- With a mark more, at `b` : what was met is `b`, or is met without it, or is met from the node
after it. -/
theorem cut (h : Met next marked a x) :
    x = b ∨ Met next (fun y => y = b ∨ marked y) a x ∨
      ∃ c, next b = some c ∧ Met next (fun y => y = b ∨ marked y) c x := by
  induction h with
  | @here a ha =>
      by_cases hab : a = b
      · exact .inl hab
      · exact .inr (.inl (.here (not_or.mpr ⟨hab, ha⟩)))
  | @next a c x ha hnext _ ih =>
      rcases ih with hx | hc | hc
      · exact .inl hx
      · by_cases hab : a = b
        · exact .inr (.inr ⟨c, hab ▸ hnext, hc⟩)
        · exact .inr (.inl (.next (not_or.mpr ⟨hab, ha⟩) hnext hc))
      · exact .inr (.inr hc)

end Met

/-- **What a walk meets, when its first node has been marked.** -/
theorem met_iff (ha : ¬marked a) : Met next marked a x ↔
    x = a ∨ ∃ b, next a = some b ∧ Met next (fun y => y = a ∨ marked y) b x := by
  constructor
  · intro h
    cases h with
    | here _ => exact .inl rfl
    | next _ hnext hb =>
        rcases hb.cut with hx | hb | hb
        · exact .inl hx
        · exact .inr ⟨_, hnext, hb⟩
        · exact .inr hb
  · rintro (rfl | ⟨b, hnext, hb⟩)
    · exact .here ha
    · exact .next ha hnext (hb.mono fun _ => .inr)

/-- What a walk meets is what is reached through nodes that are not marked. -/
theorem met_iff_reflTransGen : Met next marked a x ↔
    ¬marked a ∧ Relation.ReflTransGen (fun y z => next y = some z ∧ ¬marked z) a x := by
  constructor
  · intro h
    induction h with
    | here ha => exact ⟨ha, .refl⟩
    | next ha hnext _ ih => exact ⟨ha, .head ⟨hnext, ih.1⟩ ih.2⟩
  · rintro ⟨ha, h⟩
    induction h using Relation.ReflTransGen.head_induction_on with
    | refl => exact .here ha
    | head hstep _ ih => exact .next ha hstep.1 (ih hstep.2)

/-- The steps back to the start do not matter, nor do those from nodes that are not reached; `P`
holds of the nodes that may be. -/
theorem reflTransGen_congr {r r' : α → α → Prop} {P : α → Prop} (ha : P a)
    (hr : ∀ y z, P y → r y z → P z) (hsame : ∀ y z, P y → z ≠ a → (r y z ↔ r' y z)) :
    Relation.ReflTransGen r a x ↔ Relation.ReflTransGen r' a x := by
  have hr' : ∀ y z, P y → r' y z → P z := by
    intro y z hy h
    by_cases hz : z = a
    · exact hz ▸ ha
    · exact hr y z hy ((hsame y z hy hz).mpr h)
  have hP : ∀ {r₁ r₂ : α → α → Prop}, (∀ y z, P y → r₁ y z → P z) →
      (∀ y z, P y → z ≠ a → r₁ y z → r₂ y z) → Relation.ReflTransGen r₁ a x →
      P x ∧ Relation.ReflTransGen r₂ a x := by
    intro r₁ r₂ hP hstep h
    induction h with
    | refl => exact ⟨ha, .refl⟩
    | @tail y z _ h ih =>
        refine ⟨hP y z ih.1 h, ?_⟩
        by_cases hz : z = a
        · subst hz
          exact .refl
        · exact ih.2.tail (hstep y z ih.1 hz h)
  constructor
  · exact fun h => (hP hr (fun y z hy hz => (hsame y z hy hz).mp) h).2
  · exact fun h => (hP hr' (fun y z hy hz => (hsame y z hy hz).mpr) h).2

end met

/-! ### Loops -/

section loops
variable {α σ : Type*} {step : α → σ → Option α × σ} {a : α} {s s₁ s₂ : σ}

/-- The iterations from `a` and `s` end in a state; an iteration tells where the loop goes on, unless
it breaks. -/
inductive Ends (step : α → σ → Option α × σ) : α → σ → σ → Prop
  | last {a : α} {s s' : σ} : step a s = (none, s') → Ends step a s s'
  | again {a b : α} {s s' s'' : σ} :
      step a s = (some b, s') → Ends step b s' s'' → Ends step a s s''

theorem Ends.unique (h₁ : Ends step a s s₁) (h₂ : Ends step a s s₂) : s₁ = s₂ := by
  induction h₁ with
  | last ha =>
      cases h₂ with
      | last hb => exact congrArg Prod.snd (ha.symm.trans hb)
      | again hb _ => cases ha.symm.trans hb
  | again ha _ ih =>
      cases h₂ with
      | last hb => cases ha.symm.trans hb
      | again hb hrest =>
          cases ha.symm.trans hb
          exact ih hrest

/-- A loop is the loop over other nodes, through a map of the nodes. -/
theorem Ends.map {β : Type*} {step' : β → σ → Option β × σ} {f : α → β}
    (hstep : ∀ a s, step' (f a) s = ((step a s).1.map f, (step a s).2)) (h : Ends step a s s₁) :
    Ends step' (f a) s s₁ := by
  induction h with
  | last h => exact .last (by rw [hstep, h]; rfl)
  | again h _ ih => exact .again (by rw [hstep, h]; rfl) ih

/-- **A loop ends if every iteration but the last one decreases a measure.** -/
theorem ends_of_measure {loop : ℕ → α → σ → σ} {μ : σ → ℕ}
    (hloop : ∀ fuel a s, loop (fuel + 1) a s =
      (step a s).1.elim (step a s).2 fun b => loop fuel b (step a s).2)
    (hstep : ∀ a b s s', step a s = (some b, s') → μ s' < μ s) :
    ∀ fuel a s, μ s < fuel → Ends step a s (loop fuel a s) := by
  intro fuel
  induction fuel with
  | zero => exact fun a s h => absurd h (Nat.not_lt_zero _)
  | succ fuel ih =>
      intro a s hfuel
      rw [hloop]
      cases hs : step a s with
      | mk next s' =>
          cases next with
          | none => exact .last hs
          | some b =>
              have hlt := hstep a b s s' hs
              exact .again hs (ih b s' (by omega))

end loops

end Trail
