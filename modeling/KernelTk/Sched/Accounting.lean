import Mathlib.Algebra.BigOperators.Group.Finset.Piecewise
import Mathlib.Algebra.Order.BigOperators.Group.Finset
import KernelTk.Sched.Ownership

/-! # Ownership accounting

`own hist p t` is the number of successful takings of `p` by `t` less the number of successful
releases.  The code stores its sums only, one for each primitive and one for each task, and checks
neither who has taken a primitive that is released nor what a task that releases has taken.

* **Sums.** As long as no release is a half release, the counters are these sums, as machine
  words (`reach_sums`).  A call adds one unit to both sums, takes one away, or leaves them
  (`Sums.calls`); a registration brings an object that nobody owns (`Sums.registers`).
* **Integers.** A release that goes through finds both counters not null, so that no sum becomes negative
  (`reach_nonneg`) and none exceeds the number of the takings (`sum_own_le_takings`): while fewer than
  `2 ^ width` takings have been made, the counters are the sums as integers.
* **Releases.** A release returns `0` iff the two counters are not null (`exec_release`): it may be made by a
  task that owns another primitive, and then `own` is negative (`own_negative`), which the sums do not
  show.
* **Theorem.** `ownership_accounting` : the three together, over every run without half releases. -/

namespace KernelTk.Sched

open Transition

variable {k : Machine} {policy : Policy k} {hist : Hist k} {s s' : State k} {c : Call k}
  {r : BitVec 8}

/-- Takings of `p` by `t` less releases of `p` by `t`. -/
def own (hist : Hist k) (p : PrimId k) (t : TaskId k) : ℤ :=
  (hist.countP fun e => took e = some (p, t) : ℕ) - (hist.countP fun e => released e = some (p, t) : ℕ)

/-- The number of successful takings. -/
def takings (hist : Hist k) : ℕ := hist.countP fun e => (took e).isSome

/-- `1` if the pair has the component, else `0`. -/
def unit {α β : Type} [DecidableEq β] (f : α → β) (o : Option α) (b : β) : ℤ :=
  if o.map f = some b then 1 else 0

theorem own_cons (e : Event (State k) (Call k) (BitVec 8)) (p : PrimId k) (t : TaskId k) :
    own (e :: hist) p t = own hist p t + unit id (took e) (p, t) - unit id (released e) (p, t) := by
  simp only [own, unit, List.countP_cons, Option.map_id_fun, id_eq, decide_eq_true_eq]
  split <;> split <;> push_cast <;> omega

theorem sum_unit_task (o : Option (PrimId k × TaskId k)) (p : PrimId k) :
    ∑ t, unit id o (p, t) = unit Prod.fst o p := by
  cases o with
  | none => simp [unit]
  | some x =>
      obtain ⟨q, u⟩ := x
      by_cases hq : q = p <;> simp [unit, hq]

theorem sum_unit_prim (o : Option (PrimId k × TaskId k)) (t : TaskId k) :
    ∑ p, unit id o (p, t) = unit Prod.snd o t := by
  cases o with
  | none => simp [unit]
  | some x =>
      obtain ⟨q, u⟩ := x
      by_cases hu : u = t <;> simp [unit, hu]

theorem sum_own_task_cons (e : Event (State k) (Call k) (BitVec 8)) (p : PrimId k) :
    ∑ t, own (e :: hist) p t =
      ∑ t, own hist p t + unit Prod.fst (took e) p - unit Prod.fst (released e) p := by
  simp only [own_cons, Finset.sum_sub_distrib, Finset.sum_add_distrib, sum_unit_task]

theorem sum_own_prim_cons (e : Event (State k) (Call k) (BitVec 8)) (t : TaskId k) :
    ∑ p, own (e :: hist) p t =
      ∑ p, own hist p t + unit Prod.snd (took e) t - unit Prod.snd (released e) t := by
  simp only [own_cons, Finset.sum_sub_distrib, Finset.sum_add_distrib, sum_unit_prim]

/-! ### The sums -/

/-- The counters of the registered objects are the sums of `own`; nothing is owned by or of an
object that is not registered. -/
structure Sums (hist : Hist k) (s : State k) : Prop where
  prim : ∀ p, primRegistered hist p = true →
    s.counters.pNb p = BitVec.ofInt k.width (∑ t, own hist p t)
  task : ∀ t, taskRegistered hist t = true →
    s.counters.tNb t = BitVec.ofInt k.width (∑ p, own hist p t)
  noPrim : ∀ p t, primRegistered hist p = false → own hist p t = 0
  noTask : ∀ p t, taskRegistered hist t = false → own hist p t = 0

theorem Sums.init : Sums ([] : Hist k) s :=
  ⟨nofun, nofun, fun _ _ _ => rfl, fun _ _ _ => rfl⟩

/-- A call that registers an object keeps the sums: the new object is owned by no one. -/
theorem Sums.registers (S : Sums hist s) (hg : Additive hist c) (hreg : c.registers = true)
    (he : exec ⟨true, policy⟩ c s = .ok (r, s')) : Sums (⟨s, c, r, s'⟩ :: hist) s' := by
  obtain ⟨hu, hf, -⟩ := hg
  obtain ⟨htook, hreleased, hp, ht, -⟩ := exec_registers hreg hu he
  have hown : ∀ p t, own (⟨s, c, r, s'⟩ :: hist) p t = own hist p t := by
    intro p t
    simp [own_cons, htook, hreleased, unit]
  constructor
  · intro p hp'
    simp only [hp, hown]
    split
    · rename_i hn
      rw [Finset.sum_eq_zero fun t _ => S.noPrim p t (fresh_newPrim hf hn)]
      rfl
    · rename_i hn
      refine S.prim p ?_
      simpa [primRegistered_cons hu, hn] using hp'
  · intro t ht'
    simp only [ht, hown]
    split
    · rename_i hn
      rw [Finset.sum_eq_zero fun p _ => S.noTask p t (fresh_newTask hf hn)]
      rfl
    · rename_i hn
      refine S.task t ?_
      simpa [taskRegistered_cons hu, hn] using ht'
  · intro p t hp'
    rw [hown]
    refine S.noPrim p t ?_
    simp only [primRegistered_cons hu, Bool.or_eq_false_iff] at hp'
    exact hp'.2
  · intro p t ht'
    rw [hown]
    refine S.noTask p t ?_
    simp only [taskRegistered_cons hu, Bool.or_eq_false_iff] at ht'
    exact ht'.2

/-- A call that registers nothing keeps the sums, unless it is a half release. -/
theorem Sums.calls {v : View k} (S : Sums hist s) (G : Good s v) (R : Registered hist v)
    (hg : Additive hist c) (hhalf : ¬HalfRelease s c) (hreg : c.registers = false)
    (he : exec ⟨true, policy⟩ c s = .ok (r, s')) : Sums (⟨s, c, r, s'⟩ :: hist) s' := by
  obtain ⟨hu, hf, ho⟩ := hg
  obtain ⟨eprim, etask⟩ := registered_cons s s' r hist hreg
  have htask : ∀ {p t}, s.Related p t → taskRegistered hist t = true :=
    fun hrel => (R.task _).mp (G.attached.task _ hrel.member)
  cases exec_ownership hreg he with
  | keep htook hreleased _ hcounters =>
      have hown : ∀ p t, own (⟨s, c, r, s'⟩ :: hist) p t = own hist p t := by
        intro p t
        simp [own_cons, htook, hreleased, unit]
      constructor
      · simpa only [eprim, hown, hcounters] using S.prim
      · simpa only [etask, hown, hcounters] using S.task
      · simpa only [eprim, hown] using S.noPrim
      · simpa only [etask, hown] using S.noTask
  | half p t htook hreleased htry hp ht hcounters => exact absurd ⟨p, t, htry, hp, ht⟩ hhalf
  | take p t htook hreleased hrel hcounters =>
      have hP := onRegistered_taking ho (taking_of_took htook)
      have hT := htask hrel
      constructor
      · intro q hq
        rw [eprim] at hq
        rw [sum_own_task_cons, htook, hreleased, hcounters]
        by_cases hqp : q = p
        · subst hqp
          simp [Counters.take, unit, S.prim q hq, Word.ofInt_incr]
        · simp [Counters.take, unit, hqp, Ne.symm hqp, S.prim q hq]
      · intro u hu
        rw [etask] at hu
        rw [sum_own_prim_cons, htook, hreleased, hcounters]
        by_cases hut : u = t
        · subst hut
          simp [Counters.take, unit, S.task u hu, Word.ofInt_incr]
        · simp [Counters.take, unit, hut, Ne.symm hut, S.task u hu]
      · intro q u hq
        rw [eprim] at hq
        have hne : p ≠ q := fun e => by simp [← e, hP] at hq
        simp [own_cons, htook, hreleased, unit, hne, S.noPrim q u hq]
      · intro q u hu
        rw [etask] at hu
        have hne : t ≠ u := fun e => by simp [← e, hT] at hu
        simp [own_cons, htook, hreleased, unit, hne, S.noTask q u hu]
  | release p t htook hreleased hrel hp ht hcounters =>
      have hP := onRegistered_releasing ho (releasing_of_released hreleased)
      have hT := htask hrel
      constructor
      · intro q hq
        rw [eprim] at hq
        rw [sum_own_task_cons, htook, hreleased, hcounters]
        by_cases hqp : q = p
        · subst hqp
          simp [Counters.release, unit, S.prim q hq, Word.ofInt_decr]
        · simp [Counters.release, unit, hqp, Ne.symm hqp, S.prim q hq]
      · intro u hu
        rw [etask] at hu
        rw [sum_own_prim_cons, htook, hreleased, hcounters]
        by_cases hut : u = t
        · subst hut
          simp [Counters.release, unit, S.task u hu, Word.ofInt_decr]
        · simp [Counters.release, unit, hut, Ne.symm hut, S.task u hu]
      · intro q u hq
        rw [eprim] at hq
        have hne : p ≠ q := fun e => by simp [← e, hP] at hq
        simp [own_cons, htook, hreleased, unit, hne, S.noPrim q u hq]
      · intro q u hu
        rw [etask] at hu
        have hne : t ≠ u := fun e => by simp [← e, hT] at hu
        simp [own_cons, htook, hreleased, unit, hne, S.noTask q u hu]

/-! ### Runs -/

/-- Calls that unregister nothing and make no half release. -/
def WholeReleases (hist : Hist k) (s : State k) (c : Call k) : Prop :=
  Additive hist c ∧ ¬HalfRelease s c

instance (hist : Hist k) (s : State k) (c : Call k) : Decidable (WholeReleases hist s c) :=
  inferInstanceAs (Decidable (_ ∧ _))

/-- The counters are the sums of `own`. -/
theorem reach_sums (hr : Reach policy WholeReleases hist s) : Sums hist s := by
  refine (hr.invariant
    (J := fun hist s => (∃ v, Good s v ∧ Registered hist v) ∧ Sums hist s) ?_ ?_).2
  · exact fun s hs => ⟨⟨_, hs.good⟩, .init⟩
  · rintro hist s c r s' ⟨⟨v, G, R⟩, S⟩ ⟨hg, hhalf⟩ he
    refine ⟨exec_good G R hg.regular he, ?_⟩
    cases hreg : c.registers with
    | true => exact S.registers hg hreg he
    | false => exact S.calls G R hg hhalf hreg he

/-- The sums are not negative. -/
structure Nonneg (hist : Hist k) : Prop where
  prim : ∀ p, 0 ≤ ∑ t, own hist p t
  task : ∀ t, 0 ≤ ∑ p, own hist p t

theorem unit_nonneg {α β : Type} [DecidableEq β] (f : α → β) (o : Option α) (b : β) :
    0 ≤ unit f o b := by
  unfold unit
  split <;> omega

theorem pos_of_ofInt_ne_zero {w : ℕ} {i : ℤ} (hi : 0 ≤ i) (h : BitVec.ofInt w i ≠ 0) : 1 ≤ i := by
  have hne : i ≠ 0 := fun e => h (e ▸ Word.ofInt_zero)
  omega

theorem reach_nonneg (hr : Reach policy WholeReleases hist s) : Nonneg hist := by
  induction hr with
  | start _ => exact ⟨fun _ => by simp [own], fun _ => by simp [own]⟩
  | @call hist s s' c r hr hg he ih =>
      have S := reach_sums hr
      obtain ⟨v, G, R⟩ := reach_good (fun h => h.1.regular) hr
      obtain ⟨⟨hu, hf, ho⟩, hhalf⟩ := hg
      have hsame : took ⟨s, c, r, s'⟩ = none → released ⟨s, c, r, s'⟩ = none →
          Nonneg (⟨s, c, r, s'⟩ :: hist) := by
        intro htook hreleased
        constructor
        · intro p
          simpa [sum_own_task_cons, htook, hreleased, unit] using ih.prim p
        · intro t
          simpa [sum_own_prim_cons, htook, hreleased, unit] using ih.task t
      cases hreg : c.registers with
      | true =>
          obtain ⟨htook, hreleased, -⟩ := exec_registers hreg hu he
          exact hsame htook hreleased
      | false =>
          cases exec_ownership hreg he with
          | keep htook hreleased => exact hsame htook hreleased
          | half p t _ _ htry hp ht => exact absurd ⟨p, t, htry, hp, ht⟩ hhalf
          | take p t htook hreleased =>
              constructor
              · intro q
                have hunit := unit_nonneg Prod.fst (took ⟨s, c, r, s'⟩) q
                rw [sum_own_task_cons, hreleased]
                simpa [unit] using add_nonneg (ih.prim q) hunit
              · intro u
                have hunit := unit_nonneg Prod.snd (took ⟨s, c, r, s'⟩) u
                rw [sum_own_prim_cons, hreleased]
                simpa [unit] using add_nonneg (ih.task u) hunit
          | release p t htook hreleased hrel hp ht =>
              have hP := onRegistered_releasing ho (releasing_of_released hreleased)
              have hT := (R.task t).mp (G.attached.task t hrel.member)
              constructor
              · intro q
                rw [sum_own_task_cons, htook, hreleased]
                by_cases hqp : q = p
                · subst hqp
                  have hpos := pos_of_ofInt_ne_zero (ih.prim q) (by rw [← S.prim q hP]; exact hp)
                  simpa [unit] using hpos
                · simpa [unit, Ne.symm hqp] using ih.prim q
              · intro u
                rw [sum_own_prim_cons, htook, hreleased]
                by_cases hut : u = t
                · subst hut
                  have hpos := pos_of_ofInt_ne_zero (ih.task u) (by rw [← S.task u hT]; exact ht)
                  simpa [unit] using hpos
                · simpa [unit, Ne.symm hut] using ih.task u

theorem unit_le {α β : Type} [DecidableEq β] (f : α → β) (o : Option α) (b : β) :
    unit f o b ≤ if o.isSome then 1 else 0 := by
  unfold unit
  cases o with
  | none => simp
  | some a =>
      simp only [Option.isSome_some, if_true]
      split <;> omega

theorem takings_cons (e : Event (State k) (Call k) (BitVec 8)) :
    (takings (e :: hist) : ℤ) = takings hist + if (took e).isSome then 1 else 0 := by
  simp only [takings, List.countP_cons]
  split <;> simp

theorem sum_own_le_takings (hist : Hist k) :
    (∀ p, ∑ t, own hist p t ≤ takings hist) ∧ ∀ t, ∑ p, own hist p t ≤ takings hist := by
  induction hist with
  | nil => exact ⟨fun _ => by simp [own], fun _ => by simp [own]⟩
  | cons e hist ih =>
      refine ⟨fun p => ?_, fun t => ?_⟩
      · have h₁ := unit_le Prod.fst (took e) p
        have h₂ := unit_nonneg Prod.fst (released e) p
        have h₃ := ih.1 p
        rw [sum_own_task_cons, takings_cons]
        omega
      · have h₁ := unit_le Prod.snd (took e) t
        have h₂ := unit_nonneg Prod.snd (released e) t
        have h₃ := ih.2 t
        rw [sum_own_prim_cons, takings_cons]
        omega

theorem toNat_ofInt_of_lt {w : ℕ} {i : ℤ} {n : ℕ} (h0 : 0 ≤ i) (hi : i ≤ n) (hn : n < 2 ^ w) :
    ((BitVec.ofInt w i).toNat : ℤ) = i := by
  have hpow : (n : ℤ) < ((2 ^ w : ℕ) : ℤ) := by exact_mod_cast hn
  rw [BitVec.toNat_ofInt, Int.toNat_of_nonneg (Int.emod_nonneg _ (by omega))]
  exact Int.emod_eq_of_lt h0 (by omega)

/-- A release returns `0` iff it finds both counters not null, whoever makes it. -/
theorem exec_release {p : PrimId k} {t : TaskId k} (he : exec ⟨true, policy⟩ c s = .ok (r, s'))
    (htry : c.releasing s = some (p, t)) :
    r = 0 ↔ (s.prim p).pNbOwningTasks ≠ 0 ∧ (s.task t).tNbOwnedPrimitives ≠ 0 := by
  have hret : released ⟨s, c, r, s'⟩ = if r = 0 then some (p, t) else none := by
    simp only [released, htry]
  have hfail : released ⟨s, c, r, s'⟩ = none → r ≠ 0 := by
    intro h0 hr
    rw [hret, if_pos hr] at h0
    cases h0
  cases hreg : c.registers with
  | true =>
      cases c with
      | releaseOwnership | mutexUnlock | semRelease => cases hreg
      | _ => cases htry
  | false =>
      cases exec_ownership hreg he with
      | keep _ hreleased hnull _ =>
          exact iff_of_false (hfail hreleased) fun h => h.1 (hnull p t htry)
      | take _ _ htook _ =>
          have htaking := taking_of_took htook
          cases c with
          | releaseOwnership | mutexUnlock | semRelease => cases htaking
          | _ => cases htry
      | half q u _ hreleased htry' _ ht =>
          obtain ⟨rfl, rfl⟩ := Prod.mk.inj (Option.some.inj (htry.symm.trans htry'))
          exact iff_of_false (hfail hreleased) fun h => h.2 ht
      | release q u _ hreleased _ hp ht =>
          rw [hret] at hreleased
          obtain ⟨hr, hqu⟩ := Option.ite_none_right_eq_some.mp hreleased
          obtain ⟨rfl, rfl⟩ := Prod.mk.inj (Option.some.inj hqu)
          exact iff_of_true hr ⟨hp, ht⟩

theorem reach_release {guard : Hist k → State k → Call k → Prop} (hr : Reach policy guard hist s) :
    ∀ e ∈ hist, ∀ p t, e.call.releasing e.pre = some (p, t) →
      (e.ret = 0 ↔ (e.pre.prim p).pNbOwningTasks ≠ 0 ∧ (e.pre.task t).tNbOwnedPrimitives ≠ 0) := by
  induction hr with
  | start _ => exact fun _ he => absurd he List.not_mem_nil
  | call hr hg he ih =>
      intro e hmem p t htry
      rcases List.mem_cons.mp hmem with rfl | hmem
      · exact exec_release he htry
      · exact ih e hmem p t htry

/-- **Ownership accounting.**  In every run without half releases the counters are the sums of
`own`, modulo the width of a word, and exactly while the takings can be counted in a word; a
release returns `0` iff both counters are not null, whoever makes it. -/
theorem ownership_accounting (hr : Reach policy WholeReleases hist s) :
    (∀ p, primRegistered hist p = true →
      (s.prim p).pNbOwningTasks = BitVec.ofInt k.width (∑ t, own hist p t)) ∧
    (∀ t, taskRegistered hist t = true →
      (s.task t).tNbOwnedPrimitives = BitVec.ofInt k.width (∑ p, own hist p t)) ∧
    (takings hist < 2 ^ k.width →
      (∀ p, primRegistered hist p = true →
        ((s.prim p).pNbOwningTasks.toNat : ℤ) = ∑ t, own hist p t) ∧
      ∀ t, taskRegistered hist t = true →
        ((s.task t).tNbOwnedPrimitives.toNat : ℤ) = ∑ p, own hist p t) ∧
    ∀ e ∈ hist, ∀ p t, e.call.releasing e.pre = some (p, t) →
      (e.ret = 0 ↔
        (e.pre.prim p).pNbOwningTasks ≠ 0 ∧ (e.pre.task t).tNbOwnedPrimitives ≠ 0) := by
  have S := reach_sums hr
  have N := reach_nonneg hr
  have hle := sum_own_le_takings hist
  refine ⟨S.prim, S.task, fun hw => ⟨fun p hp => ?_, fun t ht => ?_⟩, reach_release hr⟩
  · have e : (s.prim p).pNbOwningTasks = _ := S.prim p hp
    rw [e]
    exact toNat_ofInt_of_lt (N.prim p) (hle.1 p) hw
  · have e : (s.task t).tNbOwnedPrimitives = _ := S.task t ht
    rw [e]
    exact toNat_ofInt_of_lt (N.task t) (hle.2 t) hw

set_option maxRecDepth 10000 in
/-- The first task takes a primitive twice and releases it once, the second task takes it and another
one, and releases the other one twice: the last release fails. -/
theorem ownership_accounting_run : ∃ (hist : Hist small) (s : State small),
    (∀ p, primRegistered hist p = true →
      ((s.prim p).pNbOwningTasks.toNat : ℤ) = ∑ t, own hist p t) ∧
    (∀ t, taskRegistered hist t = true →
      ((s.task t).tNbOwnedPrimitives.toNat : ℤ) = ∑ p, own hist p t) ∧
    ((s.prim (.other 0)).pNbOwningTasks = 2 ∧ (s.task 1).tNbOwnedPrimitives = 1 ∧
      own hist (.other 0) 0 = 1 ∧ own hist (.other 0) 1 = 1 ∧ own hist (.other 1) 1 = 0) ∧
    ∃ e ∈ hist, e.call.releasing e.pre = some (.other 1, 1) ∧ e.ret ≠ 0 := by
  obtain ⟨hist, s, hr, htest⟩ := exists_reach_of_replay (exec ⟨true, quiet⟩) WholeReleases
    boot_smallBoot
    (fun hist s => decide ((takings hist < 2 ^ 64 ∧ (s.prim (.other 0)).pNbOwningTasks = 2 ∧
        (s.task 1).tNbOwnedPrimitives = 1 ∧ own hist (.other 0) 0 = 1 ∧ own hist (.other 0) 1 = 1 ∧
        own hist (.other 1) 1 = 0) ∧
      ∃ e ∈ hist, e.call.releasing e.pre = some (.other 1, 1) ∧
        (e.pre.prim (.other 1)).pNbOwningTasks = 0))
    (smallSetup ++ [.registerPrim 0 (.other 0), .registerPrim 0 (.other 1),
      .takeOwnership (.other 0) 0, .takeOwnership (.other 0) 0, .takeOwnership (.other 0) 1,
      .takeOwnership (.other 1) 1, .releaseOwnership (.other 0) 0, .releaseOwnership (.other 1) 1,
      .releaseOwnership (.other 1) 1]) (by decide +kernel)
  obtain ⟨⟨hw, hcounters⟩, e, he, hreleasing, hnull⟩ := of_decide_eq_true htest
  obtain ⟨-, -, hexact, hreleases⟩ := ownership_accounting hr
  obtain ⟨hprim, htask⟩ := hexact hw
  refine ⟨hist, s, hprim, htask, hcounters, e, he, hreleasing, fun h => ?_⟩
  exact ((hreleases e he _ _ hreleasing).mp h).1 hnull

set_option maxRecDepth 10000 in
/-- The second task owns another primitive and releases the one of the first task: the release
returns `0`, and `own` is negative. -/
theorem own_negative : ¬∀ (hist : Hist small) (s : State small),
    Reach quiet (fun hist _ c => Additive hist c) hist s →
      (∀ p t, 0 ≤ own hist p t) ∧
      (∀ p, primRegistered hist p = true →
        ((s.prim p).pNbOwningTasks.toNat : ℤ) = ∑ t, own hist p t) ∧
      ∀ t, taskRegistered hist t = true →
        ((s.task t).tNbOwnedPrimitives.toNat : ℤ) = ∑ p, own hist p t := by
  intro hall
  obtain ⟨hist, s, hr, hown⟩ := exists_reach_of_replay (exec ⟨true, quiet⟩)
    (fun hist _ c => Additive hist c) boot_smallBoot (fun hist _ => own hist (.other 0) 1 < 0)
    (smallSetup ++ [.registerPrim 0 (.other 0), .registerPrim 0 (.other 1),
      .takeOwnership (.other 0) 0, .takeOwnership (.other 1) 1,
      .releaseOwnership (.other 0) 1]) (by decide +kernel)
  exact absurd ((hall hist s hr).1 (.other 0) 1) (not_le.mpr (of_decide_eq_true hown))

end KernelTk.Sched
