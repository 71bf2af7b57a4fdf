import KernelTk.Sched.ProcessTasks

/-! # The primitive registry of the processes

A process has a list `p_primitives` and a counter `p_nb_primitives`, as it has for its tasks.

* **Property.** `PrimsAgree` : the `p_primitives` of a process is a ring of the primitives that are
  registered to it, and `p_nb_primitives` its length.
* **Code.** `process_register_prim` links `p_siblings` in no list, and sets `p_nb_primitives` to 0
  instead of incrementing it; `process_unregister_prim` decrements it.
* **Invariant.** `Reset` : the counter is the number of the primitives unregistered since the latest
  registration, below zero, in machine arithmetic; there are fewer of them than its word can count,
  because the primitives of a memory are finitely many.  The list is empty.
* **Calls.** `exec_prims` : every call keeps the lists empty and the counters reset.  Only registrations and
  unregistrations of primitives change the counter (`Move.pNbPrimitives`).
* **Runs.** No registered process has the property in any state (`prims_disagree`): its list is
  empty, and when no primitive is registered to it any more the counter has been decremented below
  zero.  A process has a primitive of its own, so that this is so from its registration on. -/

namespace KernelTk.Sched

open Transition
open CircularList (IsRing SameZone Zoned)

variable {k : Machine} {policy : Policy k} {hist : Hist k} {s s' : State k} {c : Call k}
  {r : BitVec 8} {p q : PrimId k} {d e : ProcessId k} {T : ThreadId k → Prop}

/-- The process that the primitive is registered to. -/
def primProcess : Hist k → PrimId k → Option (ProcessId k)
  | [], _ => none
  | e :: hist, p =>
      match e.call with
      | .registerProcess d => if p = pPrim d then some d else primProcess hist p
      | .registerPrim d q => if p = q then some d else primProcess hist p
      | .mutexCtor q d => if p = q then some d else primProcess hist p
      | .semCtor q _ d => if p = q then some d else primProcess hist p
      | .unregisterPrim q => if p = q then none else primProcess hist p
      | .unregisterProcess d => if primProcess hist p = some d then none else primProcess hist p
      | _ => primProcess hist p

/-- The list of the primitives of a process. -/
structure PrimsAgree (hist : Hist k) (s : State k) (d : ProcessId k) (prims : List (PrimId k)) :
    Prop where
  ring : IsRing s.links (.pPrimitives d) (prims.map .pSiblings)
  nodup : prims.Nodup
  mem : ∀ p, p ∈ prims ↔ primProcess hist p = some d
  size : (s.process d).pNbPrimitives.toNat = prims.length

/-- Registrations on objects that are not registered, unregistrations of registered primitives, and
any calls that unregister no process. -/
def PrimCall (hist : Hist k) (_ : State k) (c : Call k) : Prop :=
  fresh hist c = true ∧ c.endsProcess = false ∧ ∀ p, c = .unregisterPrim p → primRegistered hist p = true

instance (hist : Hist k) (s : State k) (c : Call k) : Decidable (PrimCall hist s c) := by
  have : Decidable (∀ p, c = .unregisterPrim p → primRegistered hist p = true) := by
    induction c using Call.casesOn with
    | unregisterPrim p =>
        exact decidable_of_iff (primRegistered hist p = true)
          ⟨fun h q e => Call.unregisterPrim.inj e ▸ h, fun h => h p rfl⟩
    | _ => exact isTrue fun _ e => nomatch e
  exact inferInstanceAs (Decidable (_ ∧ _ ∧ _))

/-! ### The counter -/

/-- The primitives registered to a process. -/
def primsOf (hist : Hist k) (d : ProcessId k) : Finset (PrimId k) :=
  Finset.univ.filter fun p => primProcess hist p = some d

theorem mem_primsOf : p ∈ primsOf hist d ↔ primProcess hist p = some d := by simp [primsOf]

/-- The counter of a process whose primitives are those of `prims`: `n` of them have been
unregistered since the latest registration, which has reset it. -/
structure Reset (nb : Usize k) (prims : Finset (PrimId k)) (n : ℕ) : Prop where
  counter : nb = BitVec.ofInt k.width (-(n : ℤ))
  pos : 0 < n + prims.card
  le : n + prims.card ≤ Fintype.card (PrimId k)

namespace Reset

variable {nb : Usize k} {prims prims' : Finset (PrimId k)} {n : ℕ}

theorem start (hp : p ∈ prims) : Reset (0 : Usize k) prims 0 where
  counter := (Word.ofInt_zero).symm
  pos := by
    have hpos := Finset.card_pos.mpr ⟨p, hp⟩
    omega
  le := by
    rw [Nat.zero_add]
    exact Finset.card_le_univ prims

theorem drop (R : Reset nb prims n) (hp : p ∈ prims) : Reset (nb - 1) (prims.erase p) (n + 1) := by
  have hcard := Finset.card_erase_of_mem hp
  have hpos := Finset.card_pos.mpr ⟨p, hp⟩
  have hle := R.le
  refine ⟨?_, by omega, by omega⟩
  have e : -((n + 1 : ℕ) : ℤ) = -(n : ℤ) - 1 := by omega
  rw [R.counter, e, Word.ofInt_decr]

/-- The counter of a process without primitives is not null. -/
theorem ne_zero (R : Reset nb ∅ n) : nb.toNat ≠ 0 := by
  have hpos := R.pos
  have hle := R.le
  have hlt := card_prim_lt k
  rw [Finset.card_empty] at hpos hle
  rw [R.counter, BitVec.toNat_ofInt]
  intro h0
  have hdvd : ((2 ^ k.width : ℕ) : ℤ) ∣ (n : ℤ) := by
    refine (Int.dvd_neg).mp (Int.dvd_of_emod_eq_zero ?_)
    have hnonneg := Int.emod_nonneg (-(n : ℤ)) (b := ((2 ^ k.width : ℕ) : ℤ)) (by omega)
    omega
  have hge := Nat.le_of_dvd (by omega) (Int.natCast_dvd_natCast.mp hdvd)
  omega

end Reset

/-! ### Moves -/

/-- The counter of a process is changed by registrations and unregistrations of primitives only. -/
theorem Move.pNbPrimitives (m : Move k) (s : State k) (d : ProcessId k)
    (hprocess : ∀ c, m ≠ .addProcess c) (hadd : ∀ c p, m ≠ .addPrim c p)
    (hforget : ∀ c p, m ≠ .forgetPrim c p) :
    ((m.apply s).process d).pNbPrimitives = (s.process d).pNbPrimitives := by
  have hledger : ∀ {L : Ledger k}, L = s.ledger → L.pNbPrimitives d = s.ledger.pNbPrimitives d :=
    fun hL => congrFun (congrArg Ledger.pNbPrimitives hL) d
  cases m with
  | edit e =>
      cases e with
      | stop p t => exact hledger (stopTask_ledger s p t)
      | resume p t => exact hledger (resumeTask_ledger s p t)
      | override p t => exact hledger (overrideTask_ledger s p t)
      | unoverride p t => exact hledger (unOverride_ledger s p t)
      | processStatus c x =>
          by_cases hc : d = c <;> simp [Move.apply, Edit.report?, Edit.apply, setProcessStatus, hc]
      | _ => rfl
  | assign h t => exact congrArg (fun f => (f d).pNbPrimitives) (assignTask_assigned h t s).process
  | leave t => exact congrArg (fun f => (f d).pNbPrimitives) (threadUnregisterTask_assigned t s).process
  | uncount c => by_cases hc : d = c <;> simp [Move.apply, hc]
  | addTask c t => by_cases hc : d = c <;> simp [Move.apply, registerTask, hc]
  | addProcess c => exact absurd rfl (hprocess c)
  | addPrim c p => exact absurd rfl (hadd c p)
  | forgetPrim c p => exact absurd rfl (hforget c p)
  | _ => rfl

theorem Zones.primitives_same (Z : Zones s.pointers T) (m : Move k) (hm : m.Checked s)
    (hprocess : ∀ c, m ≠ .addProcess c) :
    SameZone Node.zone .primitives s.links (m.apply s).links := by
  refine Z.same m hm ?_
  cases m with
  | edit e => cases e <;> rfl
  | addProcess c => exact absurd rfl (hprocess c)
  | _ => rfl

/-! ### Calls -/

/-- The registries of the primitives at the end of a run. -/
structure PrimState (hist : Hist k) (s : State k) : Prop where
  registered : ∀ p, (primProcess hist p).isSome = primRegistered hist p
  member : ∀ p d, primProcess hist p = some d → (s.prim p).pProcess = some d
  empty : ∀ d, processRegistered hist d = true → IsRing s.links (.pPrimitives d) []
  count : ∀ d, processRegistered hist d = true →
    ∃ n, Reset (s.process d).pNbPrimitives (primsOf hist d) n

theorem empty_of_same {L L' : CircularList.Links (Node k)}
    (hz : SameZone Node.zone .primitives L L') (h : IsRing L (.pPrimitives d) []) :
    IsRing L' (.pPrimitives d) [] := by
  refine h.congr fun x hx => hz x ?_
  rw [List.mem_singleton.mp hx]
  rfl

theorem PrimState.keep (B : PrimState hist s) (Z : Zones s.pointers T) (hprimed : s.Primed)
    (hprim : c.primOf = none) (hforget : ∀ p, c ≠ .unregisterPrim p) (hends : c.endsProcess = false)
    (he : exec ⟨true, policy⟩ c s = .ok (r, s')) : PrimState (⟨s, c, r, s'⟩ :: hist) s' := by
  have e : processRegistered (⟨s, c, r, s'⟩ :: hist) = processRegistered hist ∧
      primProcess (⟨s, c, r, s'⟩ :: hist) = primProcess hist ∧
      primRegistered (⟨s, c, r, s'⟩ :: hist) = primRegistered hist := by
    cases c with
    | registerProcess | registerPrim | mutexCtor | semCtor => cases hprim
    | unregisterPrim p => exact absurd rfl (hforget p)
    | unregisterProcess => cases hends
    | _ => exact ⟨rfl, rfl, rfl⟩
  obtain ⟨h₁, h₂, h₃⟩ := e
  have hmoves := exec_moves Z hprimed he
  have hno : ∀ x m, c.Makes policy s x m → (∀ d, m ≠ .addProcess d) ∧ (∀ d p, m ≠ .addPrim d p) ∧
      ∀ d p, m ≠ .forgetPrim d p := by
    intro x m ha
    refine ⟨?_, ?_, ?_⟩
    · rintro d rfl
      obtain rfl : c = .registerProcess d := ha
      cases hprim
    · rintro d p rfl
      cases hprim.symm.trans ha
    · rintro d p rfl
      exact hforget p ha
  refine ⟨?_, ?_, ?_, ?_⟩
  · rw [h₂, h₃]
    exact B.registered
  · rw [h₂]
    intro p d hp
    exact (hmoves.pProcess_eq fun x e ha => (hno x _ ha).2.1 e p rfl).trans (B.member p d hp)
  · rw [h₁]
    intro d hd
    refine (hmoves.keeps (I := fun x => (∃ T, Zones x.pointers T) ∧ IsRing x.links (.pPrimitives d) [])
      (fun {x} m hx hm ha => ?_) ⟨⟨T, Z⟩, B.empty d hd⟩).2
    obtain ⟨⟨T', Zx⟩, hring⟩ := hx
    exact ⟨⟨_, Zx.move m hm⟩, empty_of_same (Zx.primitives_same m hm (hno x m ha).1) hring⟩
  · rw [h₁]
    intro d hd
    have hnb : (s'.process d).pNbPrimitives = (s.process d).pNbPrimitives := by
      refine hmoves.keeps (I := fun x => (x.process d).pNbPrimitives = (s.process d).pNbPrimitives)
        (fun {x} m hx _ ha => ?_) rfl
      obtain ⟨h₁, h₂, h₃⟩ := hno x m ha
      exact (m.pNbPrimitives x d h₁ h₂ h₃).trans hx
    have hprims : primsOf (⟨s, c, r, s'⟩ :: hist) d = primsOf hist d := by
      unfold primsOf
      rw [h₂]
    rw [hnb, hprims]
    exact B.count d hd

/-- A registration resets the counter of the process, and leaves its list. -/
theorem exec_registersPrim (Z : Zones s.pointers T) (hp : c.primOf = some (d, p))
    (he : exec ⟨true, policy⟩ c s = .ok (r, s')) :
    (∀ e, (s'.process e).pNbPrimitives = if e = d then 0 else (s.process e).pNbPrimitives) ∧
      (∀ q, (s'.prim q).pProcess = if q = p then some d else (s.prim q).pProcess) ∧
      ∀ e, c = .registerProcess e ∨ IsRing s.links (.pPrimitives e) [] →
        IsRing s'.links (.pPrimitives e) [] := by
  have hprim : ∀ (x : State k), x.prim = s.prim →
      (∀ e, e ≠ d → (x.process e).pNbPrimitives = (s.process e).pNbPrimitives) →
      (∀ e, ((processRegisterPrim d p x).process e).pNbPrimitives =
          if e = d then 0 else (s.process e).pNbPrimitives) ∧
        (∀ q, ((processRegisterPrim d p x).prim q).pProcess =
          if q = p then some d else (s.prim q).pProcess) ∧
        ∀ e, IsRing x.links (.pPrimitives e) [] →
          IsRing (processRegisterPrim d p x).links (.pPrimitives e) [] := by
    intro x hx hnb
    refine ⟨fun e => ?_, fun q => ?_, fun e => empty_of_same ?_⟩
    · by_cases he : e = d
      · simp [processRegisterPrim, he]
      · simp [processRegisterPrim, he, hnb e he]
    · by_cases hq : q = p
      · simp [processRegisterPrim, hq]
      · simp [processRegisterPrim, hq, hx]
    · exact ((init_zone (n := Node.pSiblings p) (z := Zone.primitives) (fun e => by cases e) _).trans
        (init_zone (n := Node.pStopped p) (z := Zone.primitives) (fun e => by cases e) _)).trans
          (init_zone (n := Node.pOverriders p) (z := Zone.primitives) (fun e => by cases e) _)
  cases c with
  | registerProcess d' =>
      obtain ⟨rfl, rfl⟩ := Prod.mk.inj (Option.some.inj hp)
      obtain ⟨-, rfl⟩ := ok_pair_eq.mp he
      obtain ⟨h₁, h₂, h₃⟩ := hprim (registerProcess d' s) rfl fun e he => by simp [registerProcess, he]
      refine ⟨h₁, h₂, fun e h => h₃ e ?_⟩
      by_cases hed : e = d'
      · subst hed
        exact IsRing.init _ _
      · have hring := h.resolve_left fun h => hed (Call.registerProcess.inj h).symm
        have hz : SameZone Node.zone .primitives s.links
            ((s.links.insertAfter .sProcesses (.pList d')).init (.pTasks d')) :=
          (Z.links.insertAfter_same (h := Node.sProcesses) (n := Node.pList d') (z := .primitives)
            trivial rfl (fun e => by cases e)).trans
              (init_zone (n := Node.pTasks d') (z := Zone.primitives) (fun e => by cases e) _)
        refine (empty_of_same hz hring).congr fun x hx => ?_
        have hne : x ≠ .pPrimitives d' := by
          rw [List.mem_singleton.mp hx]
          exact fun h => hed (Node.pPrimitives.inj h)
        simp [registerProcess, CircularList.Links.init, hne]
  | registerPrim | mutexCtor =>
      obtain ⟨rfl, rfl⟩ := Prod.mk.inj (Option.some.inj hp)
      obtain ⟨-, rfl⟩ := ok_pair_eq.mp he
      obtain ⟨h₁, h₂, h₃⟩ := hprim s rfl fun _ _ => rfl
      exact ⟨h₁, h₂, fun e h => h₃ e (h.resolve_left fun e => by cases e)⟩
  | semCtor q n d' =>
      obtain ⟨rfl, rfl⟩ := Prod.mk.inj (Option.some.inj hp)
      obtain ⟨-, rfl⟩ := ok_pair_eq.mp he
      obtain ⟨h₁, h₂, h₃⟩ :=
        hprim { s with sNbOwners := Function.update s.sNbOwners q n } rfl fun _ _ => rfl
      exact ⟨h₁, h₂, fun e h => h₃ e (h.resolve_left fun e => by cases e)⟩
  | _ => cases hp

theorem primProcess_registers (hp : c.primOf = some (d, p)) :
    primProcess (⟨s, c, r, s'⟩ :: hist) q = (if q = p then some d else primProcess hist q) ∧
      primRegistered (⟨s, c, r, s'⟩ :: hist) q = (q == p || primRegistered hist q) := by
  cases c with
  | registerProcess | registerPrim | mutexCtor | semCtor =>
      obtain ⟨rfl, rfl⟩ := Prod.mk.inj (Option.some.inj hp)
      exact ⟨rfl, rfl⟩
  | _ => cases hp

theorem PrimState.registers (B : PrimState hist s) (Z : Zones s.pointers T)
    (hp : c.primOf = some (d, p)) (hf : fresh hist c = true)
    (he : exec ⟨true, policy⟩ c s = .ok (r, s')) : PrimState (⟨s, c, r, s'⟩ :: hist) s' := by
  obtain ⟨hnb, hprc, hempty⟩ := exec_registersPrim Z hp he
  have hnew : primProcess hist p = none := by
    have hfp : primRegistered hist p = false := by
      cases c with
      | registerProcess | registerPrim | mutexCtor | semCtor =>
          obtain ⟨rfl, rfl⟩ := Prod.mk.inj (Option.some.inj hp)
          simp only [fresh, Bool.and_eq_true, Bool.not_eq_true'] at hf
          first
            | exact hf
            | exact hf.2
      | _ => cases hp
    rw [← B.registered, ← Bool.not_eq_true, Option.not_isSome_iff_eq_none] at hfp
    exact hfp
  have hold : ∀ e, processRegistered (⟨s, c, r, s'⟩ :: hist) e = true →
      c = .registerProcess e ∨ processRegistered hist e = true := by
    intro e he
    cases c with
    | registerProcess d' =>
        simp only [processRegistered, Bool.or_eq_true, beq_iff_eq] at he
        exact he.imp_left fun h => congrArg _ h.symm
    | registerPrim | mutexCtor | semCtor => exact .inr he
    | _ => cases hp
  refine ⟨fun q => ?_, fun q e hq => ?_, fun e he => ?_, fun e he => ?_⟩
  · rw [(primProcess_registers hp).1, (primProcess_registers hp).2]
    by_cases hqp : q = p
    · simp [hqp]
    · simp [hqp, B.registered]
  · rw [(primProcess_registers hp).1] at hq
    rw [hprc]
    by_cases hqp : q = p
    · rwa [if_pos hqp] at hq ⊢
    · rw [if_neg hqp] at hq ⊢
      exact B.member q e hq
  · exact hempty e ((hold e he).imp_right (B.empty e))
  · rw [hnb]
    by_cases hed : e = d
    · subst hed
      rw [if_pos rfl]
      refine ⟨0, .start (p := p) ?_⟩
      rw [mem_primsOf, (primProcess_registers hp).1, if_pos rfl]
    · have hreg : processRegistered hist e = true := by
        refine (hold e he).resolve_left ?_
        rintro rfl
        obtain ⟨rfl, -⟩ := Prod.mk.inj (Option.some.inj hp)
        exact hed rfl
      have hprims : primsOf (⟨s, c, r, s'⟩ :: hist) e = primsOf hist e := by
        ext q
        rw [mem_primsOf, mem_primsOf, (primProcess_registers hp).1]
        by_cases hqp : q = p
        · subst hqp
          rw [if_pos rfl, hnew]
          exact iff_of_false (fun h => hed (Option.some.inj h).symm) fun h => by cases h
        · rw [if_neg hqp]
      rw [if_neg hed, hprims]
      exact B.count e hreg

theorem PrimState.unregisters (B : PrimState hist s) (Z : Zones s.pointers T) (hprimed : s.Primed)
    (hp : primRegistered hist p = true)
    (he : exec ⟨true, policy⟩ (.unregisterPrim p) s = .ok (r, s')) :
    PrimState (⟨s, .unregisterPrim p, r, s'⟩ :: hist) s' := by
  obtain ⟨d, hd⟩ := Option.isSome_iff_exists.mp ((B.registered p).trans hp)
  have hprc := B.member p d hd
  have hmoves := exec_moves Z hprimed he
  have hprim : ∀ q, (s'.prim q).pProcess = (s.prim q).pProcess := fun q =>
    hmoves.pProcess_eq fun _ _ ha => by cases ha
  have hlinks : SameZone Node.zone .primitives s.links s'.links := by
    refine hmoves.same (fun x m ha => ?_) Z
    cases m with
    | edit e => cases e <;> rfl
    | addProcess d => cases ha
    | _ => rfl
  have hnb : ∀ e, (s'.process e).pNbPrimitives =
      if e = d then (s.process e).pNbPrimitives - 1 else (s.process e).pNbPrimitives := by
    obtain ⟨s₁, s₂, d', h₁, h₂, hd', -, rfl⟩ := processUnregisterPrim_ok he
    obtain rfl := Option.some.inj (hprc.symm.trans hd')
    have hpolicy : Answers policy s (fun _ m => (∀ c, m ≠ .addProcess c) ∧
        (∀ c p, m ≠ .addPrim c p) ∧ ∀ c p, m ≠ .forgetPrim c p) := by
      intro x h u _
      cases u <;> exact ⟨nofun, nofun, nofun⟩
    have M₁ := Moves.forEachNode List.suffix_rfl (fun hx hb =>
      Moves.resumeTask hpolicy hx (fun _ _ _ => ⟨nofun, nofun, nofun⟩) hb) h₁
    have M₂ := M₁.trans (Moves.unOverride hpolicy M₁.hooks (fun _ => ⟨nofun, nofun, nofun⟩) h₂)
    intro e
    have hsame : (s₂.process e).pNbPrimitives = (s.process e).pNbPrimitives :=
      M₂.keeps (I := fun x => (x.process e).pNbPrimitives = (s.process e).pNbPrimitives)
        (fun {x} m hx _ ha => (m.pNbPrimitives x e ha.1 ha.2.1 ha.2.2).trans hx) rfl
    by_cases hed : e = d
    · subst hed
      simp [forgetPrim, hsame]
    · simp [forgetPrim, hed, hsame]
  refine ⟨fun q => ?_, fun q e hq => ?_, fun e he => ?_, fun e he => ?_⟩
  · by_cases hqp : q = p
    · simp [primProcess, primRegistered, hqp]
    · simp [primProcess, primRegistered, hqp, B.registered]
  · rw [hprim]
    simp only [primProcess] at hq
    split at hq
    · cases hq
    · exact B.member q e hq
  · exact empty_of_same hlinks (B.empty e he)
  · obtain ⟨n, R⟩ := B.count e he
    rw [hnb]
    by_cases hed : e = d
    · subst hed
      have hprims : primsOf (⟨s, .unregisterPrim p, r, s'⟩ :: hist) e = (primsOf hist e).erase p := by
        ext q
        by_cases hqp : q = p
        · simp [mem_primsOf, primProcess, hqp]
        · simp [mem_primsOf, primProcess, hqp]
      rw [if_pos rfl, hprims]
      exact ⟨n + 1, R.drop (mem_primsOf.mpr hd)⟩
    · have hprims : primsOf (⟨s, .unregisterPrim p, r, s'⟩ :: hist) e = primsOf hist e := by
        ext q
        by_cases hqp : q = p
        · subst hqp
          simp [mem_primsOf, primProcess, hd, Ne.symm hed]
        · simp [mem_primsOf, primProcess, hqp]
      rw [if_neg hed, hprims]
      exact ⟨n, R⟩

/-- **A call keeps the registries of the primitives**: empty lists, and counters reset. -/
theorem exec_prims (B : PrimState hist s) (Z : Zones s.pointers T) (hprimed : s.Primed)
    (hg : PrimCall hist s c) (he : exec ⟨true, policy⟩ c s = .ok (r, s')) :
    PrimState (⟨s, c, r, s'⟩ :: hist) s' := by
  obtain ⟨hf, hends, hon⟩ := hg
  cases c with
  | registerProcess | registerPrim | mutexCtor | semCtor => exact B.registers Z rfl hf he
  | unregisterPrim p => exact B.unregisters Z hprimed (hon p rfl) he
  | unregisterProcess => cases hends
  | _ => exact B.keep Z hprimed rfl (fun _ => nofun) rfl he

/-! ### Runs -/

theorem reach_prims (hr : Reach policy PrimCall hist s) : PrimState hist s := by
  induction hr with
  | start hs => exact ⟨fun _ => rfl, nofun, nofun, nofun⟩
  | call hr hg he ih => exact exec_prims ih (reach_zones hr).1 (reach_zones hr).2 hg he

/-- **The list and the counter of the primitives of a registered process are wrong**, in every state
reached by calls that register objects that are not registered, unregister registered primitives and
unregister no process. -/
theorem prims_disagree (hr : Reach policy PrimCall hist s) (hd : processRegistered hist d = true) :
    ¬∃ prims, PrimsAgree hist s d prims := by
  rintro ⟨prims, H⟩
  have B := reach_prims hr
  obtain ⟨n, R⟩ := B.count d hd
  have hnil : prims = [] := List.map_eq_nil_iff.mp (H.ring.unique (B.empty d hd))
  have hprims : primsOf hist d = ∅ := by
    refine Finset.eq_empty_iff_forall_notMem.mpr fun p hp => ?_
    have hmem := (H.mem p).mpr (mem_primsOf.mp hp)
    rw [hnil] at hmem
    exact List.not_mem_nil hmem
  rw [hprims] at R
  refine R.ne_zero ?_
  rw [H.size, hnil]
  rfl

set_option maxRecDepth 10000 in
/-- A primitive is registered and unregistered again. -/
theorem prims_disagree_run : ∃ (hist : Hist small) (s : State small),
    processRegistered hist 0 = true ∧ ¬∃ prims, PrimsAgree hist s 0 prims := by
  obtain ⟨hist, s, hr, htest⟩ := exists_reach_of_replay (exec ⟨true, quiet⟩) PrimCall boot_smallBoot
    (fun hist _ => processRegistered hist 0)
    [.registerProcess 0, .registerPrim 0 (.other 0), .unregisterPrim (.other 0)] (by decide +kernel)
  exact ⟨hist, s, htest, prims_disagree hr htest⟩

set_option maxRecDepth 10000 in
/-- A process is registered: its primitive is in no list. -/
theorem prims_agree_fails : ¬∀ (hist : Hist small) (s : State small), Reach quiet PrimCall hist s →
    ∀ d, processRegistered hist d = true → ∃ prims, PrimsAgree hist s d prims := by
  intro hall
  obtain ⟨hist, s, hr, htest⟩ := exists_reach_of_replay (exec ⟨true, quiet⟩) PrimCall boot_smallBoot
    (fun hist s => processRegistered hist 0 && (s.links.isEmpty (.pPrimitives 0) &&
      primProcess hist (pPrim 0) == some 0)) [.registerProcess 0] (by decide +kernel)
  simp only [Bool.and_eq_true, beq_iff_eq] at htest
  obtain ⟨hreg, hempty, hprc⟩ := htest
  obtain ⟨prims, hagree⟩ := hall hist s hr 0 hreg
  have hnil := List.map_eq_nil_iff.mp (hagree.ring.isEmpty_iff.mp hempty)
  have hmem := (hagree.mem (pPrim 0)).mpr hprc
  rw [hnil] at hmem
  exact List.not_mem_nil hmem

end KernelTk.Sched
