import Mathlib.Data.List.Basic

/-! # Sweeps over a table

A pointer runs over a table by a constant stride, modulo the size of the address space, as long as
it lies below the end of the table.  A step is executed at each entry: it changes the state, and
the sweep stops at the first one that fails.

* **Visits.** `Visits stop stride a l` : a pointer that starts at `a` visits the addresses `l` and
  then passes `stop`.  There is no such list when it never does, and at most one when it does
  (`Visits.unique`).  `progression stride a n` : the addresses of the first `n` entries, which
  are those visited when they are the ones below the end (`visits_progression_iff`).
* **Runs.** `Runs step l s r s'` : the steps of the items `l` are executed in order from the state
  `s`; `r` is the first failure, if any, and `s'` the state that is left.  `step` is a relation, which may
  be a sweep itself: nested loops are runs of runs.  Runs of a deterministic step are deterministic
  (`Runs.deterministic`).
* **Checks.** `firstFailure checks` : what the first check that does not hold reports.  The checks of
  a function are a list; those that it makes before a call and those of the call itself are appended
  (`firstFailure_append`), and lists that agree up to the first failure report the same
  (`firstFailure_append_congr`), even where the second one could not be read. -/

namespace Sweep

/-! ### Visits -/

section visits
variable {k : ℕ}

/-- The addresses visited from `a` by steps of `stride`, up to the first one that is not below
`stop`. -/
inductive Visits (stop stride : BitVec k) : BitVec k → List (BitVec k) → Prop
  | done {a : BitVec k} : ¬a < stop → Visits stop stride a []
  | next {a : BitVec k} {l : List (BitVec k)} :
      a < stop → Visits stop stride (a + stride) l → Visits stop stride a (a :: l)

theorem Visits.unique {stop stride a : BitVec k} {l l' : List (BitVec k)}
    (h : Visits stop stride a l) (h' : Visits stop stride a l') : l = l' := by
  induction h generalizing l' with
  | done ha =>
      cases h' with
      | done => rfl
      | next ha' => exact absurd ha' ha
  | next ha _ ih =>
      cases h' with
      | done ha' => exact absurd ha ha'
      | next _ hl' => rw [ih hl']

/-- The addresses of `n` entries from `a`. -/
def progression (stride a : BitVec k) (n : ℕ) : List (BitVec k) :=
  (List.range n).map fun i => a + BitVec.ofNat k i * stride

theorem progression_zero {stride a : BitVec k} : progression stride a 0 = [] := rfl

theorem length_progression {stride a : BitVec k} {n : ℕ} : (progression stride a n).length = n := by
  unfold progression
  rw [List.length_map, List.length_range]

theorem mem_progression {stride a b : BitVec k} {n : ℕ} :
    b ∈ progression stride a n ↔ ∃ i < n, a + BitVec.ofNat k i * stride = b := by
  unfold progression
  simp only [List.mem_map, List.mem_range]

theorem add_ofNat_succ_mul {stride a : BitVec k} (i : ℕ) :
    a + BitVec.ofNat k (i + 1) * stride = a + stride + BitVec.ofNat k i * stride := by
  rw [BitVec.ofNat_add, BitVec.add_mul, BitVec.one_mul, BitVec.add_comm (_ * stride),
    BitVec.add_assoc]

theorem progression_succ {stride a : BitVec k} {n : ℕ} :
    progression stride a (n + 1) = a :: progression stride (a + stride) n := by
  unfold progression
  rw [List.range_succ_eq_map, List.map_cons, List.map_map]
  congr 1
  · rw [BitVec.zero_mul, BitVec.add_zero]
  · apply List.map_congr_left
    intro i _
    exact add_ofNat_succ_mul i

/-- A pointer visits `n` entries if these are the ones below the end. -/
theorem visits_progression_iff {stop stride a : BitVec k} {n : ℕ} :
    Visits stop stride a (progression stride a n) ↔
      (∀ i < n, a + BitVec.ofNat k i * stride < stop) ∧ ¬a + BitVec.ofNat k n * stride < stop := by
  induction n generalizing a with
  | zero =>
      rw [progression_zero, BitVec.zero_mul, BitVec.add_zero]
      constructor
      · intro h
        cases h with
        | done ha => exact ⟨fun i hi => absurd hi (Nat.not_lt_zero i), ha⟩
      · exact fun h => .done h.2
  | succ n ih =>
      rw [progression_succ, Nat.forall_lt_succ_left, add_ofNat_succ_mul, BitVec.zero_mul,
        BitVec.add_zero]
      simp only [add_ofNat_succ_mul]
      constructor
      · intro h
        cases h with
        | next ha hrest => exact ⟨⟨ha, (ih.mp hrest).1⟩, (ih.mp hrest).2⟩
      · exact fun h => .next h.1.1 (ih.mpr ⟨h.1.2, h.2⟩)

end visits

/-! ### Runs -/

section runs
variable {α σ ε : Type*} {step : α → σ → Option ε → σ → Prop} {l : List α} {s s₁ s₂ : σ}
  {r r₁ r₂ : Option ε}

/-- The steps of a list of items, up to the first failure. -/
inductive Runs (step : α → σ → Option ε → σ → Prop) : List α → σ → Option ε → σ → Prop
  | nil {s : σ} : Runs step [] s none s
  | fail {a : α} {l : List α} {s s' : σ} {e : ε} :
      step a s (some e) s' → Runs step (a :: l) s (some e) s'
  | cons {a : α} {l : List α} {s s' s'' : σ} {r : Option ε} :
      step a s none s' → Runs step l s' r s'' → Runs step (a :: l) s r s''

theorem Runs.deterministic
    (hstep : ∀ a s r₁ s₁ r₂ s₂, step a s r₁ s₁ → step a s r₂ s₂ → r₁ = r₂ ∧ s₁ = s₂)
    (h₁ : Runs step l s r₁ s₁) (h₂ : Runs step l s r₂ s₂) : r₁ = r₂ ∧ s₁ = s₂ := by
  induction h₁ with
  | nil =>
      cases h₂
      exact ⟨rfl, rfl⟩
  | fail ha =>
      cases h₂ with
      | fail hb => exact hstep _ _ _ _ _ _ ha hb
      | cons hb _ => cases (hstep _ _ _ _ _ _ ha hb).1
  | cons ha _ ih =>
      cases h₂ with
      | fail hb => cases (hstep _ _ _ _ _ _ ha hb).1
      | cons hb hrest =>
          obtain ⟨-, rfl⟩ := hstep _ _ _ _ _ _ ha hb
          exact ih hrest

end runs

/-! ### Checks -/

section checks
variable {ε : Type*}

/-- The report of the first check that does not hold. -/
def firstFailure : List (Bool × ε) → Option ε
  | [] => none
  | (holds, e) :: checks => if holds then firstFailure checks else some e

/-- One check. -/
def check (p : Prop) [Decidable p] (e : ε) : List (Bool × ε) := [(p, e)]

theorem firstFailure_check (p : Prop) [Decidable p] (e : ε) :
    firstFailure (check p e) = if p then none else some e := by
  by_cases h : p <;> simp [check, firstFailure, h]

theorem firstFailure_append (checks checks' : List (Bool × ε)) :
    firstFailure (checks ++ checks') = (firstFailure checks).or (firstFailure checks') := by
  induction checks with
  | nil => rfl
  | cons c checks ih =>
      obtain ⟨holds, e⟩ := c
      cases holds with
      | false => rfl
      | true => exact ih

@[simp] theorem firstFailure_check_eq_none {p : Prop} [Decidable p] {e : ε} :
    firstFailure (check p e) = none ↔ p := by
  rw [firstFailure_check]
  simp

@[simp] theorem firstFailure_append_eq_none {checks checks' : List (Bool × ε)} :
    firstFailure (checks ++ checks') = none ↔
      firstFailure checks = none ∧ firstFailure checks' = none := by
  rw [firstFailure_append, Option.or_eq_none_iff]

/-- The second list matters only if the first one reports nothing. -/
theorem firstFailure_append_congr {checks₁ checks₂ checks₁' checks₂' : List (Bool × ε)}
    (h : firstFailure checks₁ = firstFailure checks₂)
    (h' : firstFailure checks₂ = none → firstFailure checks₁' = firstFailure checks₂') :
    firstFailure (checks₁ ++ checks₁') = firstFailure (checks₂ ++ checks₂') := by
  rw [firstFailure_append, firstFailure_append, h]
  cases hfirst : firstFailure checks₂ with
  | none => exact h' hfirst
  | some e => rfl

theorem firstFailure_append_congr_left {checks₁ checks₂ checks₁' checks₂' : List (Bool × ε)}
    (h : firstFailure checks₁ = firstFailure checks₂)
    (h' : firstFailure checks₁ = none → firstFailure checks₁' = firstFailure checks₂') :
    firstFailure (checks₁ ++ checks₁') = firstFailure (checks₂ ++ checks₂') :=
  firstFailure_append_congr h fun hfirst => h' (h.trans hfirst)

/-- What is reported is the report of a check that does not hold. -/
theorem mem_of_firstFailure {checks : List (Bool × ε)} {e : ε} (h : firstFailure checks = some e) :
    (false, e) ∈ checks := by
  induction checks with
  | nil => cases h
  | cons c checks ih =>
      obtain ⟨holds, e'⟩ := c
      cases holds with
      | false =>
          obtain rfl := Option.some.inj h
          exact List.mem_cons_self
      | true => exact List.mem_cons_of_mem _ (ih h)

end checks

end Sweep
