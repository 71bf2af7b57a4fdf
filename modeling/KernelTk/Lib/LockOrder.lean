import Mathlib.Data.Fintype.Card
import Mathlib.Logic.Relation

/-! # Resources taken in order

Parties wait for resources, and resources are held by parties; a deadlock is a circle of parties each
of which waits for a resource that the next one holds.  The classical remedy is an order: whoever
waits does so for a resource above all those it holds.

* **Relation.** `Blocks waits held t u` : `t` waits for a resource that `u` holds.  The two relations are
  arbitrary, so that a party may wait for several resources and a resource may be held by several
  parties.
* **Order.** `InOrder rank waits held` : a party waits only for resources of a rank above those of the
  resources it holds.  Waiting in this way (`InOrder.wait`), being handed a resource while waiting for none
  (`InOrder.hold`) and giving up either (`InOrder.mono`) keep it; a system whose steps are of these
  three kinds keeps it along its runs.
* **Consequence.** Along a path of `Blocks` the ranks of the resources grow (`InOrder.path`), so that no
  party waits for itself, be it through others (`InOrder.acyclic`); and as there are finitely many
  parties, following the relation from a party ends at one that is blocked by none (`InOrder.ends`).
  The ranks are those of any preorder. -/

namespace LockOrder

open Relation

variable {T R ρ : Type}

/-- `t` waits for a resource that `u` holds. -/
def Blocks (waits : T → R → Prop) (held : R → T → Prop) (t u : T) : Prop := ∃ r, waits t r ∧ held r u

variable [Preorder ρ]

/-- What is waited for is above what is held. -/
def InOrder (rank : R → ρ) (waits : T → R → Prop) (held : R → T → Prop) : Prop :=
  ∀ r r' t, held r t → waits t r' → rank r < rank r'

namespace InOrder

variable {rank : R → ρ} {waits waits' : T → R → Prop} {held held' : R → T → Prop} {t : T} {r : R}

theorem mono (O : InOrder rank waits held) (hw : ∀ t r, waits' t r → waits t r)
    (hh : ∀ r t, held' r t → held r t) : InOrder rank waits' held' :=
  fun r r' t h h' => O r r' t (hh r t h) (hw t r' h')

theorem wait (O : InOrder rank waits held) (hr : ∀ q, held q t → rank q < rank r)
    (hw : ∀ u q, waits' u q → u = t ∧ q = r ∨ waits u q) : InOrder rank waits' held := by
  intro q q' u hq hq'
  rcases hw u q' hq' with ⟨rfl, rfl⟩ | hq'
  · exact hr q hq
  · exact O q q' u hq hq'

theorem hold (O : InOrder rank waits held) (ht : ∀ q, ¬waits t q)
    (hh : ∀ q u, held' q u → q = r ∧ u = t ∨ held q u) : InOrder rank waits held' := by
  intro q q' u hq hq'
  rcases hh q u hq with ⟨rfl, rfl⟩ | hq
  · exact absurd hq' (ht q')
  · exact O q q' u hq hq'

/-- The ranks grow along a path. -/
theorem path (O : InOrder rank waits held) {t u : T} (h : TransGen (Blocks waits held) t u) :
    ∃ r r', waits t r ∧ held r' u ∧ rank r ≤ rank r' := by
  induction h with
  | single h =>
      obtain ⟨r, hw, hh⟩ := h
      exact ⟨r, r, hw, hh, le_rfl⟩
  | tail _ h ih =>
      obtain ⟨r, r', hw, hh, hle⟩ := ih
      obtain ⟨q, hwq, hhq⟩ := h
      exact ⟨r, q, hw, hhq, hle.trans (O _ _ _ hh hwq).le⟩

/-- **No party waits for itself.** -/
theorem acyclic (O : InOrder rank waits held) (t : T) : ¬TransGen (Blocks waits held) t t := by
  intro h
  obtain ⟨r, r', hw, hh, hle⟩ := O.path h
  exact (hle.trans_lt (O _ _ _ hh hw)).false

/-- **A party that waits does so, in the end, for one that waits for no other.** -/
theorem ends [Finite T] (O : InOrder rank waits held) (t : T) :
    ∃ u, ReflTransGen (Blocks waits held) t u ∧ ∀ v, ¬Blocks waits held u v := by
  have hirrefl : Std.Irrefl (Function.swap (TransGen (Blocks waits held))) := ⟨fun x => O.acyclic x⟩
  have htrans : IsTrans T (Function.swap (TransGen (Blocks waits held))) :=
    ⟨fun _ _ _ hab hbc => hbc.trans hab⟩
  have hwf := Finite.wellFounded_of_trans_of_irrefl (Function.swap (TransGen (Blocks waits held)))
  induction t using hwf.induction with
  | h t ih =>
      by_cases hend : ∀ v, ¬Blocks waits held t v
      · exact ⟨t, .refl, hend⟩
      · push Not at hend
        obtain ⟨v, hv⟩ := hend
        obtain ⟨u, hu, hlast⟩ := ih v (.single hv)
        exact ⟨u, .head hv hu, hlast⟩

end InOrder

end LockOrder
