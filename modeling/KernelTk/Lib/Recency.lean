import Mathlib.Data.List.Basic

/-! # Lists ordered by recency

A list of elements, each of which was last used at some time, the most recently used first.

* **Times.** `lastTime p events` : the number of events up to the last one that satisfies `p`, the
  latest event first; 0 if there is none.  An event that satisfies `p` is later than all former ones
  (`lastTime_lt_cons`), any other one leaves the time (`lastTime_cons_of_not`).  Times are therefore
  functions of the history of a run, and need no clock in its states.
* **Order.** `RecentFirst stamp l` : read from its head, the list goes back in time, strictly, for the
  times given by `stamp`.  It reads the stamps of its own elements only (`RecentFirst.congr`), which is
  what the other events of a run leave.
* **Edits.** A new element that has just been used enters at the head (`RecentFirst.enter`), and any
  element may leave (`RecentFirst.erase`).
* **Use in place.** An element that is used where it stands keeps the order only if it is the first one
  (`RecentFirst.use_iff`): a program that updates the stamp of an element without moving it breaks the
  order exactly when another element is ahead of it. -/

namespace Recency

/-! ### Times -/

section times
variable {ε : Type*} {p q : ε → Bool} {e : ε} {events : List ε}

def lastTime (p : ε → Bool) : List ε → ℕ
  | [] => 0
  | e :: events => if p e then events.length + 1 else lastTime p events

theorem lastTime_le (p : ε → Bool) (events : List ε) : lastTime p events ≤ events.length := by
  induction events with
  | nil => exact Nat.le_refl 0
  | cons e events ih =>
      unfold lastTime
      split
      · exact Nat.le_refl _
      · exact Nat.le_succ_of_le ih

theorem lastTime_cons_of_not (h : p e = false) : lastTime p (e :: events) = lastTime p events := by
  rw [lastTime, if_neg (by simp [h])]

theorem lastTime_lt_cons (h : p e = true) : lastTime q events < lastTime p (e :: events) := by
  have hle := lastTime_le q events
  rw [lastTime, if_pos h]
  omega

end times

/-! ### Order -/

section order
variable {β : Type*} {stamp stamp' : β → ℕ} {b : β} {l : List β}

/-- Read from its head, the list goes back in time. -/
def RecentFirst (stamp : β → ℕ) (l : List β) : Prop := l.Pairwise fun b c => stamp c < stamp b

namespace RecentFirst

theorem nil : RecentFirst stamp [] := List.Pairwise.nil

theorem congr (H : RecentFirst stamp l) (h : ∀ b ∈ l, stamp' b = stamp b) :
    RecentFirst stamp' l := by
  refine H.imp_of_mem fun {b c} hb hc hlt => ?_
  rw [h b hb, h c hc]
  exact hlt

theorem erase [BEq β] (H : RecentFirst stamp l) (b : β) : RecentFirst stamp (l.erase b) :=
  H.sublist List.erase_sublist

theorem notMem_tail (H : RecentFirst stamp (b :: l)) : b ∉ l := fun hb =>
  Nat.lt_irrefl _ ((List.pairwise_cons.mp H).1 b hb)

theorem enter (H : RecentFirst stamp l) (hb : b ∉ l) (hsame : ∀ c, c ≠ b → stamp' c = stamp c)
    (hnew : ∀ c, stamp c < stamp' b) : RecentFirst stamp' (b :: l) := by
  have hne : ∀ c ∈ l, c ≠ b := fun c hc e => hb (e ▸ hc)
  refine List.pairwise_cons.mpr ⟨fun c hc => ?_, H.congr fun c hc => hsame c (hne c hc)⟩
  rw [hsame c (hne c hc)]
  exact hnew c

/-- **An element is used where it stands** : the order is kept iff it is the first one. -/
theorem use_iff (H : RecentFirst stamp l) (hb : b ∈ l) (hsame : ∀ c, c ≠ b → stamp' c = stamp c)
    (hnew : ∀ c, stamp c < stamp' b) : RecentFirst stamp' l ↔ l.head? = some b := by
  cases l with
  | nil => cases hb
  | cons a l =>
      rw [List.head?_cons, Option.some.injEq]
      constructor
      · intro H'
        by_contra hab
        have hb' : b ∈ l := (List.mem_cons.mp hb).resolve_left fun e => hab e.symm
        have hlt := (List.pairwise_cons.mp H').1 b hb'
        have hlast := hnew a
        rw [hsame a hab] at hlt
        omega
      · rintro rfl
        have H' : RecentFirst stamp l := (List.pairwise_cons.mp H).2
        exact H'.enter H.notMem_tail hsame hnew

end RecentFirst

end order

end Recency
