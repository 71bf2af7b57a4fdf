import KernelTk.Lib.Sweep
import KernelTk.Loader.Loader

/-! # The relocation of an image

What `rmld_apply_relocations` does to an image, step by step, and what it returns.

* **Steps.** Before the entries of a relocation table are applied, its header, the header of its
  symbol table and that of the section to relocate are checked (`tableChecks`); then every entry
  is checked and applied (`entryChecks`, `EntryStep`).  The checks are lists, in the order of the source,
  and the first one that does not hold is the failure.
* **Relocation.** `Relocates env m r m'` : the steps are made in the order of the section table
  and of the entries, up to the first failure `r`, if any; `m'` is the memory they leave.  It is a sweep
  over the headers whose steps are sweeps over entries, and it is deterministic
  (`Relocates.deterministic`).
* **Refinement.** `applySections_of_relocates` : the loops of the source make these steps, and the
  error variable of the block receives the first failure.  Each function of the source is first shown
  to make its checks before anything else (`applyReloactionTable_apply`,
  `applyRelocationEntry_apply`), then a loop to make the step of its body at every entry
  (`tableIterate_of_runs`), given fuel for those that are visited.
* **Result.** The error variable is not returned: `relocation_reported_iff` says that what is reported
  is right where no relocation fails, and `relocation_unreported` is an image with an undefined symbol
  for which 0 is returned. -/

namespace KernelTk.Loader

open LoaderM
open Sweep (Visits Runs check firstFailure)

/-! ### The steps -/

section steps
variable (env : LoadingEnv) (m : Memory)

/-- The header at a subscript of the section table. -/
def headerAt (id : U16) : Addr :=
  env.rShtable.tStart + id.setWidth 64 * env.rShtable.tBsize

/-- The table of a section. -/
def tableAt (hdr : Addr) : ElfTable :=
  ⟨env.rHdr + shOffset m hdr, env.rHdr + shOffset m hdr + shSize m hdr, shEntsize m hdr⟩

/-- An entry must lie below the end of its table. -/
def indexChecks (table : ElfTable) (entry : Addr) : List (Bool × U8) :=
  check (entry < table.tEnd) loaderErrorBadTableIndex

/-- A header must lie below the end of the section table and have the expected type. -/
def headerChecks (id : U16) (type : U32) : List (Bool × U8) :=
  indexChecks env.rShtable (headerAt env id) ++
    check (shType m (headerAt env id) = type) loaderErrBadSectionType

/-- The section of a table must have entries. -/
def entsizeChecks (hdr : Addr) : List (Bool × U8) :=
  check (shEntsize m hdr ≠ 0) loaderErrTypeSectEntsizeNull

/-- The symbol table of a relocation table, and the section it relocates. -/
def symtabId (hdr : Addr) : U16 := (shLink m hdr).setWidth 16
def targetId (hdr : Addr) : U16 := (shInfo m hdr).setWidth 16

/-- The checks made before the entries of a relocation table, in order. -/
def tableChecks (hdr : Addr) : List (Bool × U8) :=
  entsizeChecks m hdr ++ headerChecks env m (symtabId m hdr) shtSymtab ++
    entsizeChecks m (headerAt env (symtabId m hdr)) ++
    headerChecks env m (targetId m hdr) shtProgbits

end steps

section entries
variable (explicitAddend : Bool) (symtbl : ElfTable) (relSectStart : U64) (rel : Addr) (m : Memory)

/-- The symbol of an entry. -/
def symbolOf : Addr :=
  symtbl.tStart + (elf64RSym (rInfo m rel)).setWidth 64 * symtbl.tBsize

/-- The call that an entry asks of the processor. -/
def applied : U8 × Memory :=
  loaderApplyRelocation (relSectStart + rOffset m rel) (syValue m (symbolOf symtbl rel m))
    (if explicitAddend then rAddend m rel else 0) (elf64RType (rInfo m rel)) m

/-- The checks made on an entry, in order. -/
def entryChecks : List (Bool × U8) :=
  check (elf64RSym (rInfo m rel) ≠ 0) loaderErrorRelSymbolNullIndex ++
    indexChecks symtbl (symbolOf symtbl rel m) ++
    check (syValue m (symbolOf symtbl rel m) ≠ 0) loaderErrorRelSymbolNullAddress ++
    check ((applied explicitAddend symtbl relSectStart rel m).1 = 0)
      (applied explicitAddend symtbl relSectStart rel m).1

/-- An entry that passes its checks is applied; one that does not leaves the memory unchanged. -/
inductive EntryStep : Option U8 → Memory → Prop
  | applied : firstFailure (entryChecks explicitAddend symtbl relSectStart rel m) = none →
      EntryStep none (applied explicitAddend symtbl relSectStart rel m).2
  | failed {e : U8} :
      firstFailure (entryChecks explicitAddend symtbl relSectStart rel m) = some e →
      EntryStep (some e) m

end entries

section sections
variable (env : LoadingEnv)

/-- The entries of a relocation table are applied in the order of the table. -/
def AppliesEntries (hdr : Addr) (m : Memory) (r : Option U8) (m' : Memory) : Prop :=
  ∃ l, Visits (tableAt env m hdr).tEnd (tableAt env m hdr).tBsize (tableAt env m hdr).tStart l ∧
    Runs (fun rel m₀ => EntryStep (shType m hdr = shtRela)
      (tableAt env m (headerAt env (symtabId m hdr)))
      (shAddr m (headerAt env (targetId m hdr))) rel m₀) l m r m'

/-- A section that holds no relocations is skipped. -/
inductive SectionStep (hdr : Addr) (m : Memory) : Option U8 → Memory → Prop
  | skipped : ¬(shType m hdr = shtRel ∨ shType m hdr = shtRela) → SectionStep hdr m none m
  | rejected {e : U8} : shType m hdr = shtRel ∨ shType m hdr = shtRela →
      firstFailure (tableChecks env m hdr) = some e → SectionStep hdr m (some e) m
  | entries {r : Option U8} {m' : Memory} : shType m hdr = shtRel ∨ shType m hdr = shtRela →
      firstFailure (tableChecks env m hdr) = none → AppliesEntries env hdr m r m' →
      SectionStep hdr m r m'

/-- The image is relocated up to the first failure, if any. -/
def Relocates (m : Memory) (r : Option U8) (m' : Memory) : Prop :=
  ∃ l, Visits env.rShtable.tEnd env.rShtable.tBsize env.rShtable.tStart l ∧
    Runs (SectionStep env) l m r m'

/-- Every entry of every relocation table is applied. -/
def AllApplied (m : Memory) : Prop := ∃ m', Relocates env m none m'

end sections

/-! ### Determinism -/

variable {env : LoadingEnv} {m m' m₁ m₂ : Memory} {r r₁ r₂ : Option U8} {hdr rel : Addr}
  {explicitAddend : Bool} {symtbl : ElfTable} {relSectStart : U64}

theorem EntryStep.deterministic
    (h₁ : EntryStep explicitAddend symtbl relSectStart rel m r₁ m₁)
    (h₂ : EntryStep explicitAddend symtbl relSectStart rel m r₂ m₂) : r₁ = r₂ ∧ m₁ = m₂ := by
  cases h₁ with
  | applied hc₁ =>
      cases h₂ with
      | applied => exact ⟨rfl, rfl⟩
      | failed hc₂ => cases hc₁.symm.trans hc₂
  | failed hc₁ =>
      cases h₂ with
      | applied hc₂ => cases hc₁.symm.trans hc₂
      | failed hc₂ => exact ⟨hc₁.symm.trans hc₂, rfl⟩

theorem AppliesEntries.deterministic (h₁ : AppliesEntries env hdr m r₁ m₁)
    (h₂ : AppliesEntries env hdr m r₂ m₂) : r₁ = r₂ ∧ m₁ = m₂ := by
  obtain ⟨l, hv, hrun⟩ := h₁
  obtain ⟨l', hv', hrun'⟩ := h₂
  obtain rfl := hv.unique hv'
  refine hrun.deterministic (fun rel s r₁ s₁ r₂ s₂ h₁ h₂ => ?_) hrun'
  exact h₁.deterministic h₂

theorem SectionStep.deterministic (h₁ : SectionStep env hdr m r₁ m₁)
    (h₂ : SectionStep env hdr m r₂ m₂) : r₁ = r₂ ∧ m₁ = m₂ := by
  cases h₁ with
  | skipped ht₁ =>
      cases h₂ with
      | skipped => exact ⟨rfl, rfl⟩
      | rejected ht₂ => exact absurd ht₂ ht₁
      | entries ht₂ => exact absurd ht₂ ht₁
  | rejected ht₁ hc₁ =>
      cases h₂ with
      | skipped ht₂ => exact absurd ht₁ ht₂
      | rejected _ hc₂ => exact ⟨hc₁.symm.trans hc₂, rfl⟩
      | entries _ hc₂ => cases hc₁.symm.trans hc₂
  | entries ht₁ hc₁ ha₁ =>
      cases h₂ with
      | skipped ht₂ => exact absurd ht₁ ht₂
      | rejected _ hc₂ => cases hc₁.symm.trans hc₂
      | entries _ _ ha₂ => exact ha₁.deterministic ha₂

/-- There is one first failure. -/
theorem Relocates.deterministic (h₁ : Relocates env m r₁ m₁) (h₂ : Relocates env m r₂ m₂) :
    r₁ = r₂ ∧ m₁ = m₂ := by
  obtain ⟨l, hv, hrun⟩ := h₁
  obtain ⟨l', hv', hrun'⟩ := h₂
  obtain rfl := hv.unique hv'
  refine hrun.deterministic (fun hdr s r₁ s₁ r₂ s₂ h₁ h₂ => ?_) hrun'
  exact h₁.deterministic h₂

/-! ### The checks of the source -/

/-- The outcome of a function that makes checks before anything else. -/
def Outcome.after {α : Type} (checks : List (Bool × U8)) (m : Memory) (o : Outcome α) :
    Outcome α :=
  match firstFailure checks with
  | none => o
  | some e => .thrown e m

section after
variable {α β : Type} {checks checks' : List (Bool × U8)} {o : Outcome α} {a : α}
  {f : LoaderM α} {g : α → LoaderM β}

theorem after_check {p : Prop} [Decidable p] {e : U8} :
    o.after (check p e) m = if p then o else .thrown e m := by
  unfold Outcome.after
  rw [Sweep.firstFailure_check]
  by_cases h : p <;> simp [h]

theorem after_append : o.after (checks ++ checks') m = (o.after checks' m).after checks m := by
  unfold Outcome.after
  rw [Sweep.firstFailure_append]
  cases firstFailure checks <;> rfl

theorem bind_after (h : f m = (Outcome.ret a m).after checks m) :
    (f >>= g) m = (g a m).after checks m := by
  unfold Outcome.after at h ⊢
  cases hc : firstFailure checks with
  | none =>
      rw [hc] at h
      exact bind_ret h
  | some e =>
      rw [hc] at h
      exact bind_thrown h

end after

theorem getTableEntry_apply (table : ElfTable) (index : U64) :
    getTableEntry table index m =
      (Outcome.ret (table.tStart + index * table.tBsize) m).after
        (indexChecks table (table.tStart + index * table.tBsize)) m := by
  unfold getTableEntry indexChecks
  rw [after_check]
  by_cases h : table.tStart + index * table.tBsize < table.tEnd
  · rw [if_pos h, if_neg (BitVec.not_le.mpr h)]
    rfl
  · rw [if_neg h, if_pos (BitVec.not_lt.mp h)]
    rfl

theorem getSectionHeader_apply {id : U16} {type : U32} (htype : type ≠ 0) :
    getSectionHeader env id type m =
      (Outcome.ret (headerAt env id) m).after (headerChecks env m id type) m := by
  unfold getSectionHeader headerChecks
  rw [bind_after (getTableEntry_apply _ _), after_append, after_check, fetch_bind]
  show Outcome.after _ m _ = Outcome.after _ m _
  congr 1
  by_cases h : shType m (headerAt env id) = type
  · rw [if_pos h]
    exact congrFun (if_neg (fun hc => hc.2 h)) m
  · rw [if_neg h]
    exact congrFun (if_pos ⟨htype, h⟩) m

theorem sectionHeaderToTable_apply :
    sectionHeaderToTable env hdr m =
      (Outcome.ret (tableAt env m hdr) m).after (entsizeChecks m hdr) m := by
  unfold sectionHeaderToTable entsizeChecks
  rw [after_check, fetch_bind]
  by_cases h : shEntsize m hdr = 0
  · rw [if_pos h, if_neg (not_not.mpr h)]
    rfl
  · rw [if_neg h, if_pos h]
    rfl

theorem getSectionTable_apply {id : U16} {type : U32} (htype : type ≠ 0) :
    getSectionTable env id type m =
      (Outcome.ret (tableAt env m (headerAt env id)) m).after
        (headerChecks env m id type ++ entsizeChecks m (headerAt env id)) m := by
  unfold getSectionTable
  rw [bind_after (getSectionHeader_apply htype), sectionHeaderToTable_apply, after_append]

/-- The checks of a relocation table are made before its entries are applied. -/
theorem applyReloactionTable_apply {fuel : ℕ} :
    applyReloactionTable fuel env hdr m =
      (tableIterate (tableAt env m hdr)
        (applyRelocationEntry (shType m hdr = shtRela)
          (tableAt env m (headerAt env (symtabId m hdr)))
          (shAddr m (headerAt env (targetId m hdr)))) fuel
        (tableAt env m hdr).tStart m).after (tableChecks env m hdr) m := by
  have hsymtab : shtSymtab ≠ 0 := by decide
  have hprogbits : shtProgbits ≠ 0 := by decide
  unfold applyReloactionTable tableChecks
  rw [fetch_bind, bind_after sectionHeaderToTable_apply, fetch_bind,
    bind_after (getSectionTable_apply hsymtab), fetch_bind,
    bind_after (getSectionHeader_apply hprogbits), fetch_bind]
  simp only [after_append]
  rfl

theorem applyRelocationEntry_apply :
    applyRelocationEntry explicitAddend symtbl relSectStart rel m =
      (Outcome.ret () (applied explicitAddend symtbl relSectStart rel m).2).after
        (entryChecks explicitAddend symtbl relSectStart rel m) m := by
  unfold applyRelocationEntry entryChecks
  simp only [after_append, after_check]
  rw [fetch_bind, fetch_bind]
  by_cases hsym : elf64RSym (rInfo m rel) = 0
  · rw [if_pos hsym, if_neg (not_not.mpr hsym)]
    rfl
  rw [if_neg hsym, if_pos hsym, bind_after (getTableEntry_apply _ _), fetch_bind]
  show Outcome.after _ m _ = Outcome.after _ m _
  congr 1
  by_cases hval : syValue m (symbolOf symtbl rel m) = 0
  · rw [if_neg (not_not.mpr hval)]
    exact congrFun (if_pos hval) m
  rw [if_pos hval]
  refine (congrFun (if_neg hval) m).trans ?_
  rw [fetch_bind, update_bind]
  by_cases happ : (applied explicitAddend symtbl relSectStart rel m).1 = 0
  · rw [if_pos happ]
    exact congrFun (if_neg (not_not.mpr happ)) _
  · rw [if_neg happ]
    refine (congrFun (if_pos happ) _).trans ?_
    exact congrArg (Outcome.thrown _) (loaderApplyRelocation_error happ)

/-! ### The loops of the source -/

/-- The outcome of a block whose first failure is `r`. -/
def Outcome.ofFailure (m : Memory) : Option U8 → Outcome Unit
  | none => .ret () m
  | some e => .thrown e m

theorem after_eq_of_none {α : Type} {checks : List (Bool × U8)} {o : Outcome α}
    (h : firstFailure checks = none) : o.after checks m = o := by
  unfold Outcome.after
  rw [h]

theorem after_eq_of_some {α : Type} {checks : List (Bool × U8)} {o : Outcome α} {e : U8}
    (h : firstFailure checks = some e) : o.after checks m = .thrown e m := by
  unfold Outcome.after
  rw [h]

/-- A loop whose body makes a step at every entry runs through the table, given fuel for the
entries that are visited; the body may itself need fuel. -/
theorem tableIterate_of_runs {step : Addr → Memory → Option U8 → Memory → Prop}
    (body : ℕ → Addr → LoaderM Unit) {table : ElfTable} {entry : Addr} {l : List Addr}
    (hbody : ∀ a m r m', step a m r m' → ∃ n, ∀ fuel ≥ n, body fuel a m = .ofFailure m' r)
    (hv : Visits table.tEnd table.tBsize entry l) (hr : Runs step l m r m') :
    ∃ n, ∀ fuel ≥ n, ∀ rounds ≥ n,
      tableIterate table (body fuel) rounds entry m = .ofFailure m' r := by
  induction hv generalizing m with
  | done hstop =>
      cases hr
      refine ⟨0, fun fuel _ rounds _ => ?_⟩
      cases rounds <;> exact congrFun (if_neg hstop) _
  | next hlt _ ih =>
      cases hr with
      | fail ha =>
          obtain ⟨n, hn⟩ := hbody _ _ _ _ ha
          refine ⟨n + 1, fun fuel hfuel rounds hrounds => ?_⟩
          obtain ⟨rounds, rfl⟩ := Nat.exists_eq_add_of_le' (Nat.le_trans (Nat.le_add_left 1 n) hrounds)
          unfold tableIterate
          rw [if_pos hlt]
          exact bind_thrown (hn fuel (by omega))
      | cons ha hrest =>
          obtain ⟨n, hn⟩ := hbody _ _ _ _ ha
          obtain ⟨n', hn'⟩ := ih hrest
          refine ⟨n + n' + 1, fun fuel hfuel rounds hrounds => ?_⟩
          obtain ⟨rounds, rfl⟩ :=
            Nat.exists_eq_add_of_le' (Nat.le_trans (Nat.le_add_left 1 (n + n')) hrounds)
          unfold tableIterate
          rw [if_pos hlt]
          exact (bind_ret (hn fuel (by omega))).trans (hn' fuel (by omega) rounds (by omega))

theorem EntryStep.body (h : EntryStep explicitAddend symtbl relSectStart rel m r m') :
    applyRelocationEntry explicitAddend symtbl relSectStart rel m = .ofFailure m' r := by
  rw [applyRelocationEntry_apply]
  cases h with
  | applied hc => exact after_eq_of_none hc
  | failed hc => exact after_eq_of_some hc

theorem SectionStep.body (h : SectionStep env hdr m r m') :
    ∃ n, ∀ fuel ≥ n, applySection fuel env hdr m = .ofFailure m' r := by
  unfold applySection
  cases h with
  | skipped ht =>
      refine ⟨0, fun fuel _ => ?_⟩
      rw [fetch_bind]
      exact congrFun (if_neg ht) _
  | rejected ht hc =>
      refine ⟨0, fun fuel _ => ?_⟩
      rw [fetch_bind, if_pos ht, applyReloactionTable_apply]
      exact after_eq_of_some hc
  | entries ht hc ha =>
      obtain ⟨l, hv, hrun⟩ := ha
      obtain ⟨n, hn⟩ := tableIterate_of_runs (fun _ => applyRelocationEntry _ _ _)
        (fun _ _ _ _ hstep => ⟨0, fun _ _ => hstep.body⟩) hv hrun
      refine ⟨n, fun fuel hfuel => ?_⟩
      rw [fetch_bind, if_pos ht, applyReloactionTable_apply, after_eq_of_none hc]
      exact hn fuel hfuel fuel hfuel

/-- **The block of the source makes the steps of the relocation**, and throws the first failure. -/
theorem applySections_of_relocates (h : Relocates env m r m') :
    ∃ n, ∀ fuel ≥ n, applySections fuel env m = .ofFailure m' r := by
  obtain ⟨l, hv, hrun⟩ := h
  obtain ⟨n, hn⟩ := tableIterate_of_runs (fun fuel => applySection fuel env)
    (fun _ _ _ _ hstep => hstep.body) hv hrun
  exact ⟨n, fun fuel hfuel => hn fuel hfuel fuel hfuel⟩

/-! ### The result -/

/-- The call returns a code and leaves a memory. -/
def Returns (env : LoadingEnv) (m : Memory) (code : U8) (m' : Memory) : Prop :=
  ∃ n, ∀ fuel ≥ n, rmldApplyRelocations fuel env m = .ret code m'

/-- The memory left is that of the steps before the first failure, but the code is 0. -/
theorem returns_of_relocates (h : Relocates env m r m') : Returns env m 0 m' := by
  obtain ⟨n, hn⟩ := applySections_of_relocates h
  refine ⟨n, fun fuel hfuel => ?_⟩
  have hblock : attempt (applySections fuel env) m = .ret (r.getD 0) m' := by
    unfold attempt
    rw [hn fuel hfuel]
    cases r <;> rfl
  exact bind_ret hblock

/-- The memory that is left is determined. -/
theorem Returns.unique {code code' : U8} {m'' : Memory} (h : Returns env m code m')
    (h' : Returns env m code' m'') : m' = m'' := by
  obtain ⟨n, hn⟩ := h
  obtain ⟨n', hn'⟩ := h'
  have heq := (hn (n + n') (by omega)).symm.trans (hn' (n + n') (by omega))
  injection heq

theorem Returns.eq_zero {code : U8} (h : Returns env m code m') : code = 0 := by
  obtain ⟨n, hn⟩ := h
  have hrun := hn n (Nat.le_refl n)
  unfold rmldApplyRelocations at hrun
  cases hblock : attempt (applySections n env) m with
  | ret a m₁ =>
      rw [bind_ret hblock] at hrun
      cases hrun
      rfl
  | thrown e m₁ =>
      rw [bind_thrown hblock] at hrun
      cases hrun
  | running =>
      rw [bind_apply, LoaderM.bind, hblock] at hrun
      cases hrun

/-- What is expected of a call: it returns 0 if and only if every entry is applied, and the first
failure otherwise, having made no step after it. -/
def ReportsFailures (env : LoadingEnv) (m : Memory) : Prop :=
  ∃ code m', Returns env m code m' ∧ (code = 0 ↔ AllApplied env m) ∧
    ∀ e m'', Relocates env m (some e) m'' → code = e ∧ m' = m''

/-- **Failures are reported where there are none.** -/
theorem relocation_reported_iff : ReportsFailures env m ↔ AllApplied env m := by
  constructor
  · rintro ⟨code, m', hret, hcode, -⟩
    exact hcode.mp hret.eq_zero
  · rintro ⟨m', hall⟩
    refine ⟨0, m', returns_of_relocates hall, ⟨fun _ => ⟨m', hall⟩, fun _ => rfl⟩, ?_⟩
    intro e m'' hfail
    cases (hall.deterministic hfail).1

/-! ### An undefined symbol -/

/-- The bytes of an image that are not null, by offset: a section of four bytes, a symbol table
whose symbol 1 has no definition, and a table of one relocation of that symbol. -/
def importImage : List (ℕ × U8) :=
  [(40, 64), (58, 64), (60, 4),
    (132, 1), (144, 0x40), (145, 0x01), (146, 0x01), (152, 0x40), (153, 0x01), (160, 4),
    (196, 2), (216, 0x48), (217, 0x01), (224, 48), (248, 24),
    (260, 4), (280, 0x78), (281, 0x01), (288, 24), (296, 2), (300, 1), (312, 24),
    (384, 2), (388, 1), (392, 0xfc), (393, 0xff), (394, 0xff), (395, 0xff), (396, 0xff),
    (397, 0xff), (398, 0xff), (399, 0xff)]

/-- The image lies at address `0x10000`. -/
def importMemory : Memory := fun a => (importImage.lookup (a - 0x10000).toNat).getD 0

theorem importMemory_relocates :
    Relocates (loaderInit 0x10000 importMemory) importMemory
      (some loaderErrorRelSymbolNullAddress) importMemory := by
  have hentries : AppliesEntries (loaderInit 0x10000 importMemory) 0x10100 importMemory
      (some loaderErrorRelSymbolNullAddress) importMemory :=
    ⟨[0x10178], .next (by decide) (.done (by decide)), .fail (.failed (by decide))⟩
  refine ⟨[0x10040, 0x10080, 0x100c0, 0x10100], ?_, ?_⟩
  · exact .next (by decide) (.next (by decide) (.next (by decide) (.next (by decide)
      (.done (by decide)))))
  · exact .cons (.skipped (by decide)) (.cons (.skipped (by decide)) (.cons (.skipped (by decide))
      (.fail (.entries (by decide) (by decide) hentries))))

/-- The undefined symbol is not reported. -/
theorem relocation_unreported :
    ¬ReportsFailures (loaderInit 0x10000 importMemory) importMemory := by
  rintro ⟨code, m', hret, -, hfail⟩
  have hcode := (hfail _ _ importMemory_relocates).1
  rw [hret.eq_zero] at hcode
  exact absurd hcode (by decide)

end KernelTk.Loader
