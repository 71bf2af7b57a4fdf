import KernelTk.Lib.RingTable
import KernelTk.Sched.Ownership
import KernelTk.Sched.Stream

/-! # The override relation

A primitive overrides one task at most, and a task is overridden by any number of primitives.  The code keeps
this relation in pointers, in lists and in counters, and tells it to the policy.

* **Property.** `OverridersAgree` : the `t_overriders` lists, the `p_overridden` pointers, the
  `t_nb_overrides` counters and the calls that the policy has received agree.
* **Policy.** `overrideFold` is the relation that a policy learns from the calls that it receives, and
  `releasesSound` says that every release is of a pair that it was told of.
* **Condition.** `process_unregister_prim` leaves the `p_process` of a primitive, so that the
  primitive can still override a task, and do so when it is registered again.  `Unoverridden` : it
  does not, and the same for a task.
* **Invariant.** `Overriders` are the lists, a family of rings that every primitive is in or apart from, and
  `Told` is the record of the calls; `OverrideState` is both, and every move keeps it but the
  registrations (`Overriders.move`).
* **Runs.** A run has the property throughout iff no primitive is registered again while it overrides
  a task, and no task while it is overridden (`overriders_agree_iff`). -/

namespace KernelTk.Sched

open Transition
open CircularList (IsRing RingTable Shape SameZone)

variable {k : Machine} {policy : Policy k} {hist : Hist k} {s s' : State k} {c : Call k}
  {r : BitVec 8} {p : PrimId k} {t : TaskId k} {d : ProcessId k} {T : ThreadId k → Prop}

/-- The relation told by the calls to the policy, the latest first. -/
def overrideFold : List (HookCall k) → PrimId k → TaskId k → Bool
  | [], _, _ => false
  | .overrideTaken p t :: l, q, u => (q == p && u == t) || overrideFold l q u
  | .overrideReleased p t :: l, q, u => !(q == p && u == t) && overrideFold l q u
  | _ :: l, q, u => overrideFold l q u

/-- Every release is of a pair of the relation told before. -/
def releasesSound : List (HookCall k) → Bool
  | [] => true
  | .overrideReleased p t :: l => overrideFold l p t && releasesSound l
  | _ :: l => releasesSound l

/-- The overriders of the tasks registered so far. -/
structure OverridersAgree (hist : Hist k) (s : State k) (overriders : TaskId k → List (PrimId k)) :
    Prop where
  ring : ∀ t, (s.task t).tProcess ≠ none →
    IsRing s.links (.tOverriders t) ((overriders t).map .pSiblings)
  nodup : ∀ t, (s.task t).tProcess ≠ none → (overriders t).Nodup
  size : ∀ t, (s.task t).tProcess ≠ none → (s.task t).tNbOverrides.toNat = (overriders t).length
  mem : ∀ t p, (s.task t).tProcess ≠ none →
    (p ∈ overriders t ↔ (s.prim p).pProcess ≠ none ∧ (s.prim p).pOverridden = some t)
  only : ∀ t u p, (s.task t).tProcess ≠ none → (s.task u).tProcess ≠ none → p ∈ overriders t →
    p ∈ overriders u → t = u
  told : ∀ p t, overrideFold (stream hist) p t = true ↔
    (s.prim p).pProcess ≠ none ∧ (s.prim p).pOverridden = some t
  sound : releasesSound (stream hist) = true

/-- A primitive that was registered before overrides no task when it is registered, and a task is
overridden by none. -/
def Unoverridden (_ : Hist k) (s : State k) (c : Call k) : Prop :=
  (∀ x ∈ c.primOf, (s.prim x.2).pProcess ≠ none → (s.prim x.2).pOverridden = none) ∧
  ∀ t ∈ c.newTask, (s.task t).tProcess ≠ none →
    ∀ p, (s.prim p).pProcess ≠ none → (s.prim p).pOverridden ≠ some t

instance (hist : Hist k) (s : State k) (c : Call k) : Decidable (Unoverridden hist s c) :=
  inferInstanceAs (Decidable (_ ∧ _))

theorem overridersShape : Shape (Node.tOverriders (k := k)) Node.pSiblings where
  head_inj := Node.tOverriders.inj
  node_inj := Node.pSiblings.inj
  ne := fun _ _ => nofun

/-! ### The lists -/

/-- The primitive overrides no task. -/
def Pointers.Free (P : Pointers k) (p : PrimId k) : Prop := P.pProcess p ≠ none ∧ P.pOverridden p = none

/-- The overriders of the tasks registered so far; the other primitives are linked to
themselves. -/
structure Overriders (P : Pointers k) (M : TaskId k → Option (List (PrimId k))) : Prop where
  table : RingTable P.links Node.tOverriders Node.pSiblings M P.Free
  registry : Registry M (fun p => P.pProcess p ≠ none) P.pOverridden P.tNbOverrides
  known : ∀ t, (M t).isSome ↔ P.tProcess t ≠ none

namespace Overriders

variable {P P' : Pointers k} {M : TaskId k → Option (List (PrimId k))}

theorem init (s : State k) (hp : ∀ p, (s.prim p).pProcess = none)
    (ht : ∀ t, (s.task t).tProcess = none) : Overriders s.pointers (fun _ => none) where
  table := ⟨nofun, nofun, fun hb => absurd (hp _) hb.1, nofun⟩
  registry := .empty (fun _ => rfl) fun p h => h (hp p)
  known := by
    intro t
    have e : s.pointers.tProcess t = none := ht t
    simp [e]

theorem frame (O : Overriders P M) (hz : SameZone Node.zone .overriders P.links P'.links)
    (hprim : P'.pProcess = P.pProcess) (hover : P'.pOverridden = P.pOverridden)
    (hcount : P'.tNbOverrides = P.tNbOverrides) (htask : P'.tProcess = P.tProcess) :
    Overriders P' M where
  table := O.table.congr (fun _ _ => id)
    (fun p hp => ⟨fun e => hp.1 (by rw [hprim, e]), by rw [← hover]; exact hp.2⟩)
    (fun t _ => hz (.tOverriders t) rfl) fun p => hz (.pSiblings p) rfl
  registry := by
    rw [hprim, hover, hcount]
    exact O.registry
  known := by
    rw [htask]
    exact O.known

theorem override (O : Overriders P M) (hp : P.pProcess p ≠ none) (ht : P.tProcess t ≠ none)
    (ho : P.pOverridden p = none) : ∃ M', Overriders (P.override p t) M' := by
  obtain ⟨l, hl⟩ := Option.isSome_iff_exists.mp ((O.known t).mpr ht)
  refine ⟨Function.update M t (some (p :: l)), ?_, O.registry.join (card_prim_lt k) hl hp ho (.refl _),
    fun u => ?_⟩
  · refine (O.table.insertAfter overridersShape hl
      fun _ _ hl' => O.registry.notMem_of_none ho hl').weaken ?_
    rintro q ⟨hq, hfree⟩
    have hqp : q ≠ p := by
      rintro rfl
      simp [Pointers.override] at hfree
    simp only [Pointers.override, Function.update_of_ne hqp] at hq hfree
    exact ⟨hqp, hq, hfree⟩
  · show _ ↔ P.tProcess u ≠ none
    by_cases hu : u = t
    · subst hu
      simpa using ht
    · simpa [hu] using O.known u

theorem unoverride (O : Overriders P M) (hp : P.pProcess p ≠ none)
    (ho : P.pOverridden p = some t) : ∃ M', Overriders (P.unoverride p t) M' := by
  obtain ⟨l, hl, hmem⟩ := O.registry.exists_list hp ho
  refine ⟨Function.update M t (some (l.erase p)), ?_, O.registry.leave hl hmem, fun u => ?_⟩
  · refine (O.table.remove overridersShape hl hmem).weaken ?_
    rintro q ⟨hq, hfree⟩
    refine or_iff_not_imp_left.mpr fun hqp => ⟨hq, ?_⟩
    simpa [Pointers.unoverride, hqp] using hfree
  · show _ ↔ P.tProcess u ≠ none
    by_cases hu : u = t
    · subst hu
      simpa [hl] using O.known u
    · simpa [hu] using O.known u

theorem addPrim (O : Overriders P M) (ho : P.pProcess p ≠ none → P.pOverridden p = none) :
    Overriders (P.addPrim d p) M := by
  have hout : ∀ t l, M t = some l → p ∉ l := by
    intro t l hl hmem
    obtain ⟨h₁, h₂⟩ := (O.registry.mem hl).mp hmem
    cases (ho h₁).symm.trans h₂
  have hmem : ∀ q, q ≠ p → (P.addPrim d p).pProcess q = P.pProcess q ∧
      (P.addPrim d p).pOverridden q = P.pOverridden q := by
    intro q hq
    simp [Pointers.addPrim, hq]
  constructor
  · refine (O.table.initNode overridersShape hout).congr (fun _ _ => id) ?_ ?_ ?_
    · rintro q ⟨hq, hfree⟩
      refine or_iff_not_imp_left.mpr fun hqp => ?_
      rw [(hmem q hqp).1] at hq
      rw [(hmem q hqp).2] at hfree
      exact ⟨hq, hfree⟩
    · exact fun t _ => by simp [Pointers.addPrim, addPrimLinks, CircularList.Links.init]
    · exact fun q => by simp [Pointers.addPrim, addPrimLinks, CircularList.Links.init]
  · refine ⟨O.registry.nodup, fun {t l q} hl => ?_, fun {t q} hq hf => ?_, O.registry.count⟩
    · by_cases hqp : q = p
      · subst hqp
        simp [Pointers.addPrim, hout t l hl]
      · rw [(hmem q hqp).1, (hmem q hqp).2]
        exact O.registry.mem hl
    · by_cases hqp : q = p
      · simp [Pointers.addPrim, hqp] at hf
      · rw [(hmem q hqp).1] at hq
        rw [(hmem q hqp).2] at hf
        exact O.registry.container hq hf
  · exact O.known

theorem addTask (O : Overriders P M)
    (ht : P.tProcess t ≠ none → ∀ p, P.pProcess p ≠ none → P.pOverridden p ≠ some t)
    (hz : SameZone Node.zone .overriders (P.links.init (.tOverriders t)) (P.addTask d t).links) :
    ∃ M', Overriders (P.addTask d t) M' := by
  have hnil : ∀ l, M t = some l → l = [] := by
    intro l hl
    have hknown := (O.known t).mp (by simp [hl])
    refine List.eq_nil_iff_forall_not_mem.mpr fun p hp => ?_
    obtain ⟨h₁, h₂⟩ := (O.registry.mem hl).mp hp
    exact ht hknown p h₁ h₂
  have hclosed : Registry (Function.update M t none) (fun p => P.pProcess p ≠ none) P.pOverridden
      P.tNbOverrides := by
    cases hM : M t with
    | none =>
        rw [← hM, Function.update_eq_self]
        exact O.registry
    | some l => exact O.registry.close (hM.trans (congrArg some (hnil l hM)))
  refine ⟨Function.update M t (some []), ?_, ?_, fun u => ?_⟩
  · exact (O.table.initHead overridersShape t hnil).congr (fun _ _ => id) (fun _ => id)
      (fun u _ => hz (.tOverriders u) rfl) fun p => hz (.pSiblings p) rfl
  · have G := hclosed.create (a := t) (by simp)
    rw [Function.update_idem] at G
    exact G
  · by_cases hu : u = t
    · simp [hu, Pointers.addTask]
    · simpa [hu, Pointers.addTask] using O.known u

end Overriders

/-! ### The calls to the policy -/

/-- The policy has been told the relation. -/
structure Told (l : List (HookCall k)) (P : Pointers k) : Prop where
  iff : ∀ p t, overrideFold l p t = true ↔ P.pProcess p ≠ none ∧ P.pOverridden p = some t
  sound : releasesSound l = true

namespace Told

variable {P P' : Pointers k} {l : List (HookCall k)}

theorem frame (H : Told l P) (hprim : P'.pProcess = P.pProcess)
    (hover : P'.pOverridden = P.pOverridden) : Told l P' := by
  refine ⟨fun p t => ?_, H.sound⟩
  rw [hprim, hover]
  exact H.iff p t

theorem override (H : Told l P) (hp : P.pProcess p ≠ none) (ho : P.pOverridden p = none) :
    Told (.overrideTaken p t :: l) (P.override p t) := by
  refine ⟨fun q u => ?_, H.sound⟩
  by_cases hq : q = p
  · subst hq
    have hf : overrideFold l q u = false := by
      rw [← Bool.not_eq_true, H.iff, ho]
      exact fun h => nomatch h.2
    simp only [overrideFold, hf, Bool.or_false, Pointers.override, Function.update_self, beq_self_eq_true,
      Bool.true_and, beq_iff_eq, Option.some.injEq]
    exact ⟨fun e => ⟨hp, e.symm⟩, fun e => e.2.symm⟩
  · simpa [overrideFold, Pointers.override, hq] using H.iff q u

theorem unoverride (H : Told l P) (hp : P.pProcess p ≠ none) (ho : P.pOverridden p = some t) :
    Told (.overrideReleased p t :: l) (P.unoverride p t) := by
  have hpt : overrideFold l p t = true := (H.iff p t).mpr ⟨hp, ho⟩
  refine ⟨fun q u => ?_, by simp [releasesSound, hpt, H.sound]⟩
  by_cases hq : q = p
  · subst hq
    have hf : overrideFold (.overrideReleased q t :: l) q u = false := by
      rw [← Bool.not_eq_true]
      intro h
      simp only [overrideFold, beq_self_eq_true, Bool.true_and, Bool.and_eq_true, Bool.not_eq_true',
        beq_eq_false_iff_ne] at h
      exact h.1 (Option.some.inj (((H.iff q u).mp h.2).2.symm.trans ho))
    simp [hf, Pointers.unoverride]
  · simpa [overrideFold, Pointers.unoverride, hq] using H.iff q u

theorem addPrim (H : Told l P) (ho : P.pProcess p ≠ none → P.pOverridden p = none) :
    Told l (P.addPrim d p) := by
  refine ⟨fun q u => ?_, H.sound⟩
  rw [H.iff]
  by_cases hq : q = p
  · subst hq
    simp only [Pointers.addPrim, Function.update_self, reduceCtorEq, and_false, iff_false]
    rintro ⟨h₁, h₂⟩
    cases (ho h₁).symm.trans h₂
  · simp [Pointers.addPrim, hq]

end Told

/-! ### Moves -/

/-- The lists and the calls to the policy agree with the pointers. -/
def OverrideState (hist : Hist k) (s : State k) : Prop :=
  (∃ M, Overriders s.pointers M) ∧ Told (stream hist) s.pointers

/-- **A move keeps the relation**, the registrations of primitives and of tasks apart. -/
theorem Overriders.move {M : TaskId k → Option (List (PrimId k))} {l : List (HookCall k)}
    (Z : Zones s.pointers T) (O : Overriders s.pointers M) (H : Told l s.pointers) (m : Move k)
    (hm : m.Checked s) (hprim : ∀ d p, m ≠ .addPrim d p) (htask : ∀ d t, m ≠ .addTask d t)
    (hreport : ∀ call, m = .report call →
      (∀ p t, call ≠ .overrideTaken p t) ∧ ∀ p t, call ≠ .overrideReleased p t) :
    (∃ M', Overriders (m.apply s).pointers M') ∧ Told (m.reports ++ l) (m.apply s).pointers := by
  have hframe : m.touches .overriders = false →
      (m.pointers s.pointers).pOverridden = s.pointers.pOverridden →
      (m.pointers s.pointers).tNbOverrides = s.pointers.tNbOverrides →
      (∀ q u, overrideFold (m.reports ++ l) q u = overrideFold l q u) →
      releasesSound (m.reports ++ l) = releasesSound l →
      (∃ M', Overriders (m.pointers s.pointers) M') ∧
        Told (m.reports ++ l) (m.pointers s.pointers) := by
    intro hz hover hcount hfold hsound
    obtain ⟨h₁, h₂, -⟩ := m.pointers_processes s.pointers
    refine ⟨⟨M, O.frame ?_ (h₂ hprim) hover hcount (h₁ htask)⟩, fun q u => ?_, hsound.trans H.sound⟩
    · rw [← m.apply_pointers]
      exact Z.same m hm hz
    · rw [hfold, h₂ hprim, hover]
      exact H.iff q u
  rw [m.apply_pointers]
  cases m with
  | edit e =>
      obtain ⟨he, hextra⟩ := hm
      cases e with
      | override p t =>
          obtain ⟨hrel, -, ho⟩ := he
          have hp : s.pointers.pProcess p ≠ none := fun e => hrel.member (hrel.same.symm.trans e)
          exact ⟨O.override hp hrel.member ho, H.override hp ho⟩
      | unoverride p t => exact ⟨O.unoverride hextra he, H.unoverride hextra he⟩
      | _ => exact hframe rfl rfl rfl (fun _ _ => rfl) rfl
  | report call =>
      obtain ⟨htaken, hreleased⟩ := hreport call rfl
      cases call with
      | overrideTaken p t => exact absurd rfl (htaken p t)
      | overrideReleased p t => exact absurd rfl (hreleased p t)
      | _ => exact hframe rfl rfl rfl (fun _ _ => rfl) rfl
  | assign h t =>
      refine hframe rfl ?_ ?_ (fun _ _ => rfl) rfl
      · simp only [Move.pointers]
        split
        · rfl
        · cases s.pointers.tThread t <;> rfl
      · simp only [Move.pointers]
        split
        · rfl
        · cases s.pointers.tThread t <;> rfl
  | leave t =>
      refine hframe rfl ?_ ?_ (fun _ _ => rfl) rfl
      · cases e : s.pointers.tThread t <;> simp [Move.pointers, e, Pointers.leave]
      · cases e : s.pointers.tThread t <;> simp [Move.pointers, e, Pointers.leave]
  | addTask d t => exact absurd rfl (htask d t)
  | addPrim d p => exact absurd rfl (hprim d p)
  | forgetPrim d p =>
      -- a primitive that overrides no task is linked to itself
      have e : (Move.forgetPrim d p).pointers s.pointers = s.pointers := by
        show { s.pointers with links := s.pointers.links.removeUnsafe (.pSiblings p) } = s.pointers
        rw [O.table.removeUnsafe_single hm]
      rw [e]
      exact ⟨⟨M, O⟩, H⟩
  | _ => exact hframe rfl rfl rfl (fun _ _ => rfl) rfl

/-! ### Calls -/

theorem addTask_same (Z : Zones s.pointers T) (hd : (s.process d).pSched = true) :
    SameZone Node.zone .overriders (s.pointers.links.init (.tOverriders t))
      (s.pointers.addTask d t).links := by
  intro x hx
  by_cases hxt : x = .tOverriders t
  · subst hxt
    simp [Pointers.addTask, addTaskLinks, CircularList.Links.init]
  · have hwords := Z.addTask_words (t := t) hd (x := x) (by simp [hx]) (by simp [hx]) hxt
      (by rintro rfl; cases hx) (by rintro rfl; cases hx)
    simpa [CircularList.Links.init, hxt] using hwords

theorem OverrideState.addPrim {x : State k} {l : List (HookCall k)}
    (O : (∃ M, Overriders x.pointers M) ∧ Told l x.pointers)
    (ho : (x.prim p).pProcess ≠ none → (x.prim p).pOverridden = none) :
    (∃ M, Overriders (processRegisterPrim d p x).pointers M) ∧
      Told l (processRegisterPrim d p x).pointers := by
  obtain ⟨⟨M, O⟩, H⟩ := O
  rw [processRegisterPrim_pointers]
  exact ⟨⟨M, O.addPrim ho⟩, H.addPrim ho⟩

/-- **A call keeps the relation** if it registers primitives that override no task and tasks that
are not overridden. -/
theorem exec_overriders (Z : Zones s.pointers T) (hprimed : s.Primed) (hu : Unoverridden hist s c)
    (O : OverrideState hist s) (he : exec ⟨true, policy⟩ c s = .ok (r, s')) :
    OverrideState (⟨s, c, r, s'⟩ :: hist) s' := by
  have hmoves : c.primOf = none → (∀ d t, c ≠ .registerTask d t) →
      OverrideState (⟨s, c, r, s'⟩ :: hist) s' := by
    intro hprim htask
    refine ((exec_moves Z hprimed he).keeps (I := fun x => s.hooks <:+ x.hooks ∧
      (∃ T, Zones x.pointers T) ∧ OverrideState (⟨s, c, r, x⟩ :: hist) x) ?_ ?_).2.2
    · rintro x m ⟨hhooks, ⟨T, Z⟩, ⟨M, O⟩, H⟩ hm ha
      refine ⟨?_, ⟨_, Z.move m hm⟩, ?_⟩
      · rw [m.apply_hooks]
        exact hhooks.trans (List.suffix_append _ _)
      · unfold OverrideState
        rw [stream_move hhooks]
        refine O.move Z H m hm ?_ ?_ ?_
        · rintro d p rfl
          cases hprim.symm.trans ha
        · rintro d t rfl
          exact htask d t ha
        · rintro call rfl
          constructor
          · rintro p t rfl
            exact ha
          · rintro p t rfl
            exact ha
    · refine ⟨List.suffix_rfl, ⟨T, Z⟩, ?_⟩
      unfold OverrideState
      rw [stream_of_hooks rfl]
      exact O
  have hframe : ∀ {x : State k}, x.hooks = s.hooks →
      (∃ M, Overriders x.pointers M) ∧ Told (stream hist) x.pointers →
      OverrideState (⟨s, c, r, x⟩ :: hist) x := by
    intro x hx O
    unfold OverrideState
    rw [stream_of_hooks hx]
    exact O
  cases c with
  | registerProcess d =>
      obtain ⟨-, rfl⟩ := ok_pair_eq.mp he
      obtain ⟨⟨M, O⟩, H⟩ := O
      have O₁ := O.move Z H (.addProcess d) trivial (fun _ _ => nofun) (fun _ _ => nofun) nofun
      exact hframe rfl (OverrideState.addPrim O₁ (hu.1 _ rfl))
  | registerPrim d p | mutexCtor p d =>
      obtain ⟨-, rfl⟩ := ok_pair_eq.mp he
      exact hframe rfl (OverrideState.addPrim O (hu.1 _ rfl))
  | semCtor p n d =>
      obtain ⟨-, rfl⟩ := ok_pair_eq.mp he
      obtain ⟨⟨M, O⟩, H⟩ := O
      have O₁ := O.move Z H (.setBound p n) trivial (fun _ _ => nofun) (fun _ _ => nofun) nofun
      exact hframe rfl (OverrideState.addPrim O₁ (hu.1 _ rfl))
  | registerTask d t =>
      obtain ⟨hd, rfl⟩ := processRegisterTask_iff.mp (void_eq_ok.mp he).2
      obtain ⟨⟨M, O⟩, H⟩ := O
      refine hframe rfl ⟨?_, ?_⟩
      · rw [registerTask_pointers]
        exact O.addTask (hu.2 t rfl) (addTask_same Z hd)
      · rw [registerTask_pointers]
        exact H.frame rfl rfl
  | _ => exact hmoves rfl fun _ _ => nofun

/-! ### Runs -/

theorem Boot.overrideState (hs : Boot s) : OverrideState [] s := by
  refine ⟨⟨_, .init s hs.prim hs.task⟩, fun p t => ?_, rfl⟩
  have e : s.pointers.pProcess p = none := hs.prim p
  simp [stream, overrideFold, e]

theorem reach_overriders (hr : Reach policy Unoverridden hist s) : OverrideState hist s := by
  induction hr with
  | start hs => exact hs.overrideState
  | call hr hg he ih => exact exec_overriders (reach_zones hr).1 (reach_zones hr).2 hg ih he

theorem OverrideState.agree (O : OverrideState hist s) :
    ∃ overriders, OverridersAgree hist s overriders := by
  obtain ⟨⟨M, O⟩, H⟩ := O
  refine ⟨fun t => (M t).getD [], ?_⟩
  have hM : ∀ t, (s.task t).tProcess ≠ none → M t = some ((M t).getD []) := by
    intro t ht
    have hlist : M t ≠ none := Option.isSome_iff_ne_none.mp ((O.known t).mpr ht)
    exact (Option.getD_of_ne_none hlist []).symm
  have hmem : ∀ t p, (s.task t).tProcess ≠ none →
      (p ∈ (M t).getD [] ↔ (s.prim p).pProcess ≠ none ∧ (s.prim p).pOverridden = some t) :=
    fun t p ht => O.registry.mem (hM t ht)
  refine ⟨?_, ?_, ?_, hmem, ?_, H.iff, H.sound⟩
  · exact fun t ht => O.table.ring (hM t ht)
  · exact fun t ht => O.registry.nodup (hM t ht)
  · exact fun t ht => O.registry.count (hM t ht)
  · intro t u p ht hu hpt hpu
    have h₁ := ((hmem t p ht).mp hpt).2
    have h₂ := ((hmem u p hu).mp hpu).2
    exact Option.some.inj (h₁.symm.trans h₂)

/-- The registration of a primitive clears its `p_overridden`, and makes no call to the policy. -/
theorem exec_primOf (hp : c.primOf = some (d, p)) (he : exec ⟨true, policy⟩ c s = .ok (r, s')) :
    s'.hooks = s.hooks ∧ (s'.prim p).pOverridden = none := by
  cases c with
  | registerProcess | registerPrim | mutexCtor | semCtor =>
      obtain ⟨rfl, rfl⟩ := Prod.mk.inj (Option.some.inj hp)
      obtain ⟨-, rfl⟩ := ok_pair_eq.mp he
      refine ⟨rfl, ?_⟩
      simp [schedRegisterProcess, schedMutexCtor, schedSemCtor, processRegisterPrim]
  | _ => cases hp

/-- **The override relation agrees with its lists, its counters and the policy**, throughout a run of
any calls, iff what is registered again neither overrides a task nor is overridden. -/
theorem overriders_agree_iff (hr : Reach policy (fun _ _ _ => True) hist s) :
    Throughout (fun hist s => ∃ overriders, OverridersAgree hist s overriders) hist s ↔
      Meets Unoverridden hist := by
  refine hr.throughout_iff (fun s hs => hs.overrideState.agree)
    (fun {hist s c r s'} hr hbefore _ he => ?_)
  obtain ⟨Z, hprimed⟩ := reach_zones hr
  constructor
  · rintro ⟨overriders', hafter⟩
    obtain ⟨overriders, hbefore⟩ := hbefore
    constructor
    · rintro ⟨d, p⟩ hp hmember
      -- the policy is not told that the primitive has left its task
      obtain ⟨hhooks, hnone⟩ := exec_primOf hp he
      by_contra ho
      obtain ⟨t, ho⟩ := Option.ne_none_iff_exists'.mp ho
      have htold := (hbefore.told p t).mpr ⟨hmember, ho⟩
      rw [← stream_of_hooks (c := c) (r := r) hhooks, hafter.told] at htold
      cases hnone.symm.trans htold.2
    · intro u hu ht p hp ho
      cases c with
      | registerTask d t =>
          obtain rfl := Option.some.inj hu
          obtain ⟨hd, rfl⟩ := processRegisterTask_iff.mp (void_eq_ok.mp he).2
          -- the head of the list is linked to itself, and the list is not empty
          have hmember : ((registerTask d t s).task t).tProcess ≠ none := by simp [registerTask]
          have hmem : p ∈ overriders' t := (hafter.mem t p hmember).mpr ⟨hp, ho⟩
          have hnext : (registerTask d t s).links.next (.tOverriders t) = .tOverriders t := by
            simp [registerTask, CircularList.Links.init]
          have hring := hafter.ring t hmember
          rw [hring.next_head] at hnext
          cases hl : overriders' t with
          | nil => simp [hl] at hmem
          | cons q l => simp [hl] at hnext
      | _ => cases hu
  · exact fun hu => (exec_overriders Z hprimed hu (reach_overriders (hr.mono And.right)) he).agree

set_option maxRecDepth 10000 in
/-- A primitive overrides one task, then another one, and is registered again. -/
theorem overriders_agree_run : ∃ (hist : Hist small) (s : State small),
    (s.prim (.other 0)).pOverridden = some 1 ∧
      Throughout (fun hist s => ∃ overriders, OverridersAgree hist s overriders) hist s := by
  obtain ⟨hist, s, hr, htest⟩ := exists_reach_of_replay (exec ⟨true, quiet⟩) Unoverridden
    boot_smallBoot (fun _ s => (s.prim (.other 0)).pOverridden == some 1)
    (smallSetup ++ [.registerPrim 0 (.other 0), .overrideTask (.other 0) 0, .overrideTask (.other 0) 1,
      .unregisterPrim (.other 0), .registerPrim 0 (.other 0), .overrideTask (.other 0) 1])
    (by decide +kernel)
  refine ⟨hist, s, by simpa using htest, ?_⟩
  exact (overriders_agree_iff (hr.mono fun _ => trivial)).mpr hr.meets_guard

set_option maxRecDepth 10000 in
/-- A primitive that has been unregistered still passes the checks of `primitive_override_task`; its
next registration clears its `p_overridden`, and the policy is not told. -/
theorem overriders_agree_fails : ¬∀ (hist : Hist small) (s : State small),
    Reach quiet Fresh hist s → ∃ overriders, OverridersAgree hist s overriders := by
  intro hall
  obtain ⟨hist, s, hr, htest⟩ := exists_reach_of_replay (exec ⟨true, quiet⟩) Fresh boot_smallBoot
    (fun hist s => (s.prim (.other 0)).pOverridden == none &&
      overrideFold (stream hist) (.other 0) 0)
    (smallSetup ++ [.registerPrim 0 (.other 0), .unregisterPrim (.other 0),
      .overrideTask (.other 0) 0, .registerPrim 0 (.other 0)]) (by decide +kernel)
  simp only [Bool.and_eq_true, beq_iff_eq] at htest
  obtain ⟨overriders, hagree⟩ := hall hist s hr
  cases htest.1.symm.trans ((hagree.told _ _).mp htest.2).2

end KernelTk.Sched
