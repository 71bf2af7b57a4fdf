import Mathlib.Logic.Function.Iterate
import KernelTk.Loader.Symbols
import KernelTk.Loader.Relocations

/-! # The steps of a load

A load is a sequence of iterations over tables. Between two iterations it is at a `Point`; a `Config` is
a point, the memory and the queries.

* **Points.** The pass that is made, the header it has come to, and in a table the tables that the
  source has found, and the entry it has come to.  A load that has ended is at `halted`, with the pass
  and the error.
* **Steps.** `Config.step` makes one iteration. The checks of the iteration are those of
  `Relocations.lean` for the relocations, `symtabChecks` and `symbolChecks` for the symbols.  Steps are
  total, and need no fuel: invariants of a load are proved of one step, and carried along `Config.run`.
* **Refinement.** `Follows` says that a block of the source does what the steps do from a point to
  another: they reach the end of the block if it returns, halt with the error that it throws, and are
  as many as the fuel if it is still running.  Blocks follow one another (`Follows.bind`), and a loop
  follows the points of its entries (`tableIterate_follows`).  So the loops of the source go from point to
  point as the steps do (`applySections_follows`, `assignTables_follows`, `load_follows`).
* **Ends.** `load_of_halted` : once the steps have ended, a load with more fuel returns the codes of the
  pass (`Pass.codes`) and leaves their memory and their queries. -/

namespace KernelTk.Loader

open LoaderM
open AssignM (lift modify)
open Sweep (check firstFailure)

/-! ### Checks -/

section checks
variable (env : LoadingEnv) (m : Memory)

/-- The checks made before the entries of a symbol table, in order. -/
def symtabChecks (hdr : Addr) : List (Bool × U8) :=
  entsizeChecks m hdr ++ headerChecks env m (symtabId m hdr) shtStrtab ++
    entsizeChecks m (headerAt env (symtabId m hdr))

/-- The name of a symbol. -/
def nameOf (strTable : ElfTable) (sym : Addr) : Addr :=
  strTable.tStart + (syName m sym).setWidth 64 * strTable.tBsize

/-- The section of the symbol must be read. -/
def located (sym : Addr) : Prop := checkSectionIndex (syShndx m sym) = 0

instance (sym : Addr) : Decidable (located m sym) := inferInstanceAs (Decidable (_ = _))

/-- The checks made on a symbol, in order. -/
def symbolChecks (strTable : ElfTable) (sym : Addr) : List (Bool × U8) :=
  indexChecks strTable (nameOf m strTable sym) ++
    if located m sym then headerChecks env m (syShndx m sym) shtProgbits else []

end checks

/-! ### Points and steps -/

/-- The functions that report errors. -/
inductive Pass where
  | sections
  | symbols
  | relocations
deriving DecidableEq

/-- Where a load has come to. The size of the section that is relocated is not used. -/
inductive Point where
  | assignSections (shdr : Addr)
  | assignSymbols (shdr : Addr)
  | assignTable (shdr : Addr) (symtable strTable : ElfTable) (sym : Addr)
  | applyRelocations (shdr : Addr)
  | applyTable (shdr : Addr) (explicitAddend : Bool) (reltable symtbl : ElfTable)
      (relSectStart relSectSize : U64) (rel : Addr)
  | halted (pass : Pass) (error : U8)
deriving DecidableEq

structure Config where
  point : Point
  memory : Memory
  queries : List LoaderSymbol

section machine
variable (strCmp : Memory → Addr → List U8 → ℤ) (env : LoadingEnv) (defs : List LoaderSymbol)

/-- The value that is assigned to a symbol. -/
def symbolValue (m : Memory) (strTable : ElfTable) (sym : Addr) : U64 :=
  if syShndx m sym = shnUndef then symDefFind strCmp m (nameOf m strTable sym) defs
  else if located m sym then syValue m sym + shAddr m (headerAt env (syShndx m sym)) else 0

/-- The queries after a symbol that has been assigned. -/
def answer (m : Memory) (name : Addr) (value : U64) (queries : List LoaderSymbol) :
    List LoaderSymbol :=
  if value = 0 then queries else defineQuery strCmp name value m queries

/-- One iteration. -/
def Config.step (c : Config) : Config :=
  let ⟨point, m, queries⟩ := c
  let next := fun shdr => shdr + env.rShtable.tBsize
  match point with
  | .assignSections shdr =>
      if shdr < env.rShtable.tEnd then
        if shType m shdr = shtNobits ∧ shSize m shdr ≠ 0 then
          ⟨.halted .sections loaderErrorNonEmptyNobitsSection, m, queries⟩
        else ⟨.assignSections (next shdr), setShAddr m shdr (env.rHdr + shOffset m shdr), queries⟩
      else ⟨.assignSymbols env.rShtable.tStart, m, queries⟩
  | .assignSymbols shdr =>
      if shdr < env.rShtable.tEnd then
        if shType m shdr = shtSymtab then
          match firstFailure (symtabChecks env m shdr) with
          | some e => ⟨.halted .symbols e, m, queries⟩
          | none => ⟨.assignTable shdr (tableAt env m shdr)
              (tableAt env m (headerAt env (symtabId m shdr))) (tableAt env m shdr).tStart,
              m, queries⟩
        else ⟨.assignSymbols (next shdr), m, queries⟩
      else ⟨.applyRelocations env.rShtable.tStart, m, queries⟩
  | .assignTable shdr symtable strTable sym =>
      if sym < symtable.tEnd then
        match firstFailure (symbolChecks env m strTable sym) with
        | some e => ⟨.halted .symbols e, m, queries⟩
        | none =>
            let value := symbolValue strCmp env defs m strTable sym
            let m' := setSyValue m sym value
            ⟨.assignTable shdr symtable strTable (sym + symtable.tBsize), m',
              answer strCmp m' (nameOf m strTable sym) value queries⟩
      else ⟨.assignSymbols (next shdr), m, queries⟩
  | .applyRelocations shdr =>
      if shdr < env.rShtable.tEnd then
        if shType m shdr = shtRel ∨ shType m shdr = shtRela then
          match firstFailure (tableChecks env m shdr) with
          | some e => ⟨.halted .relocations e, m, queries⟩
          | none => ⟨.applyTable shdr (shType m shdr = shtRela) (tableAt env m shdr)
              (tableAt env m (headerAt env (symtabId m shdr)))
              (shAddr m (headerAt env (targetId m shdr)))
              (shSize m (headerAt env (targetId m shdr))) (tableAt env m shdr).tStart, m, queries⟩
        else ⟨.applyRelocations (next shdr), m, queries⟩
      else ⟨.halted .relocations 0, m, queries⟩
  | .applyTable shdr explicitAddend reltable symtbl relSectStart relSectSize rel =>
      if rel < reltable.tEnd then
        match firstFailure (entryChecks explicitAddend symtbl relSectStart rel m) with
        | some e => ⟨.halted .relocations e, m, queries⟩
        | none => ⟨.applyTable shdr explicitAddend reltable symtbl relSectStart relSectSize
            (rel + reltable.tBsize), (applied explicitAddend symtbl relSectStart rel m).2, queries⟩
      else ⟨.applyRelocations (next shdr), m, queries⟩
  | .halted pass error => ⟨.halted pass error, m, queries⟩

/-- `n` iterations. -/
def Config.run (n : ℕ) (c : Config) : Config := (Config.step strCmp env defs)^[n] c

/-- The load has ended. -/
def Config.Halted (c : Config) : Prop := ∃ pass error, c.point = .halted pass error

end machine

/-! ### What the loops do -/

section follows
variable {strCmp : Memory → Addr → List U8 → ℤ} {env : LoadingEnv} {defs : List LoaderSymbol}
  {c c' : Config} {m m' : Memory} {queries queries' : List LoaderSymbol} {pass : Pass} {k k' : ℕ}
  {exit : Memory → List LoaderSymbol → Config}

theorem Config.run_succ (n : ℕ) (c : Config) :
    c.run strCmp env defs (n + 1) = (c.step strCmp env defs).run strCmp env defs n := rfl

theorem Config.run_succ' (n : ℕ) (c : Config) :
    c.run strCmp env defs (n + 1) = (c.run strCmp env defs n).step strCmp env defs :=
  Function.iterate_succ_apply' _ _ _

theorem Config.run_add (n n' : ℕ) (c : Config) :
    c.run strCmp env defs (n + n') = (c.run strCmp env defs n).run strCmp env defs n' := by
  unfold Config.run
  rw [Nat.add_comm, Function.iterate_add_apply]

theorem Config.Halted.run (h : c.Halted) (n : ℕ) : c.run strCmp env defs n = c := by
  obtain ⟨pass, error, hc⟩ := h
  obtain ⟨point, m, queries⟩ := c
  obtain rfl : point = .halted pass error := hc
  induction n with
  | zero => rfl
  | succ n ih =>
      rw [Config.run_succ]
      exact ih

/-- A load ends once. -/
theorem Config.halted_unique {n n' : ℕ} (h : (c.run strCmp env defs n).Halted)
    (h' : (c.run strCmp env defs n').Halted) :
    c.run strCmp env defs n = c.run strCmp env defs n' := by
  rcases Nat.le_total n n' with hle | hle
  · obtain ⟨k, rfl⟩ := Nat.exists_eq_add_of_le hle
    rw [Config.run_add, h.run]
  · obtain ⟨k, rfl⟩ := Nat.exists_eq_add_of_le hle
    rw [Config.run_add, h'.run]

/-- From the configuration `c`, the steps do what a block of the source does: they reach `exit` if it
returns, and halt with the error that it throws; there are at least `k` steps if it is still
running. -/
def Follows (strCmp : Memory → Addr → List U8 → ℤ) (env : LoadingEnv) (defs : List LoaderSymbol)
    (c : Config) (k : ℕ) (pass : Pass) (exit : Memory → List LoaderSymbol → Config) :
    Outcome Unit × List LoaderSymbol → Prop
  | (.ret _ m, queries) => ∃ n, c.run strCmp env defs (n + 1) = exit m queries
  | (.thrown e m, queries) => ∃ n, c.run strCmp env defs n = ⟨.halted pass e, m, queries⟩
  | (.running, _) => ∃ n ≥ k, ¬(c.run strCmp env defs n).Halted

theorem Follows.of_step (h : c.step strCmp env defs = exit m queries) :
    Follows strCmp env defs c k pass exit (.ret () m, queries) :=
  ⟨0, h⟩

theorem Follows.of_halt {e : U8} (h : c.step strCmp env defs = ⟨.halted pass e, m, queries⟩) :
    Follows strCmp env defs c k pass exit (.thrown e m, queries) :=
  ⟨1, h⟩

theorem Follows.step {o : Outcome Unit × List LoaderSymbol}
    (h : Follows strCmp env defs (c.step strCmp env defs) k pass exit o) :
    Follows strCmp env defs c (k + 1) pass exit o := by
  obtain ⟨o, queries⟩ := o
  cases o with
  | ret a m =>
      obtain ⟨n, hn⟩ := h
      exact ⟨n + 1, hn⟩
  | thrown e m =>
      obtain ⟨n, hn⟩ := h
      exact ⟨n + 1, hn⟩
  | running =>
      obtain ⟨n, hk, hn⟩ := h
      exact ⟨n + 1, Nat.succ_le_succ hk, hn⟩

/-- A block follows another one. -/
theorem Follows.bind {f g : AssignM Unit} {middle : Memory → List LoaderSymbol → Config}
    (hf : Follows strCmp env defs c (k + 1) pass middle (f queries m))
    (hg : ∀ m queries, Follows strCmp env defs (middle m queries) k pass exit (g queries m)) :
    Follows strCmp env defs c (k + 1) pass exit ((f >>= fun _ => g) queries m) := by
  cases hblock : f queries m with
  | mk o queries' =>
      rw [hblock] at hf
      cases o with
      | ret a m' =>
          obtain ⟨n, hn⟩ := hf
          rw [AssignM.bind_ret hblock]
          have hrest := hg m' queries'
          cases hblock' : g queries' m' with
          | mk o' queries'' =>
              rw [hblock'] at hrest
              cases o' with
              | ret a' m'' =>
                  obtain ⟨n', hn'⟩ := hrest
                  refine ⟨n + 1 + n', ?_⟩
                  rw [Nat.add_assoc, Config.run_add, hn, hn']
              | thrown e m'' =>
                  obtain ⟨n', hn'⟩ := hrest
                  refine ⟨n + 1 + n', ?_⟩
                  rw [Config.run_add, hn, hn']
              | running =>
                  obtain ⟨n', hk, hn'⟩ := hrest
                  refine ⟨n + 1 + n', by omega, ?_⟩
                  rw [Config.run_add, hn]
                  exact hn'
      | thrown e m' =>
          rw [AssignM.bind_thrown hblock]
          exact hf
      | running =>
          rw [AssignM.bind_running hblock]
          exact hf

theorem Follows.mono {o : Outcome Unit × List LoaderSymbol}
    (h : Follows strCmp env defs c k' pass exit o) (hk : k ≤ k') :
    Follows strCmp env defs c k pass exit o := by
  obtain ⟨o, queries⟩ := o
  cases o with
  | ret a m => exact h
  | thrown e m => exact h
  | running =>
      obtain ⟨n, hk', hn⟩ := h
      exact ⟨n, Nat.le_trans hk hk', hn⟩

/-- **The loop rule** : the points `at` are those of the entries of a table, and the body of the loop
goes from one to the next. -/
theorem tableIterate_follows {table : ElfTable} {body : Addr → AssignM Unit} {entryAt : Addr → Point}
    {last : Point} {fuel : ℕ}
    (hbody : ∀ entry m queries, entry < table.tEnd → Follows strCmp env defs
      ⟨entryAt entry, m, queries⟩ fuel pass (fun m queries => ⟨entryAt (entry + table.tBsize), m, queries⟩)
      (body entry queries m))
    (hlive : ∀ entry m queries, ¬Config.Halted ⟨entryAt entry, m, queries⟩)
    (hlast : ∀ entry m queries, ¬entry < table.tEnd →
      Config.step strCmp env defs ⟨entryAt entry, m, queries⟩ = ⟨last, m, queries⟩) :
    ∀ rounds ≤ fuel, ∀ entry m queries, Follows strCmp env defs ⟨entryAt entry, m, queries⟩ rounds pass
      (fun m queries => ⟨last, m, queries⟩)
      (tableIterateQueries table body rounds entry queries m) := by
  intro rounds
  induction rounds with
  | zero =>
      intro _ entry m queries
      unfold tableIterateQueries
      split
      · exact ⟨0, Nat.le_refl 0, hlive entry m queries⟩
      · rename_i hstop
        exact .of_step (hlast entry m queries hstop)
  | succ rounds ih =>
      intro hrounds entry m queries
      unfold tableIterateQueries
      split
      · rename_i hlt
        refine Follows.bind ((hbody entry m queries hlt).mono hrounds) fun m' queries' => ?_
        exact ih (Nat.le_of_succ_le hrounds) _ m' queries'
      · rename_i hstop
        exact .of_step (hlast entry m queries hstop)

theorem lift_tableIterate {table : ElfTable} {body : Addr → LoaderM Unit} :
    ∀ (fuel : ℕ) (entry : Addr) (queries : List LoaderSymbol) (m : Memory),
      (tableIterate table body fuel entry m, queries) =
        tableIterateQueries table (fun a => lift (body a)) fuel entry queries m := by
  intro fuel
  induction fuel with
  | zero =>
      intro entry queries m
      unfold tableIterate tableIterateQueries
      split <;> rfl
  | succ fuel ih =>
      intro entry queries m
      unfold tableIterate tableIterateQueries
      split
      · cases hbody : body entry m with
        | ret a m' =>
            have hlift : lift (body entry) queries m = (.ret a m', queries) := by
              rw [AssignM.lift_apply, hbody]
            rw [LoaderM.bind_ret hbody, AssignM.bind_ret hlift, ih]
        | thrown e m' =>
            have hlift : lift (body entry) queries m = (.thrown e m', queries) := by
              rw [AssignM.lift_apply, hbody]
            rw [LoaderM.bind_thrown hbody, AssignM.bind_thrown hlift]
        | running =>
            have hlift : lift (body entry) queries m = (.running, queries) := by
              rw [AssignM.lift_apply, hbody]
            rw [LoaderM.bind_apply, LoaderM.bind, hbody, AssignM.bind_running hlift]
      · rfl

/-! ### Relocations -/

section relocations
variable {shdr rel : Addr} {explicitAddend : Bool} {reltable symtbl : ElfTable}
  {relSectStart relSectSize : U64} {fuel : ℕ}

theorem applyRelocationEntry_follows (hlt : rel < reltable.tEnd) :
    Follows strCmp env defs
      ⟨.applyTable shdr explicitAddend reltable symtbl relSectStart relSectSize rel, m, queries⟩ k
      .relocations (fun m queries => ⟨.applyTable shdr explicitAddend reltable symtbl relSectStart
        relSectSize (rel + reltable.tBsize), m, queries⟩)
      (lift (applyRelocationEntry explicitAddend symtbl relSectStart rel) queries m) := by
  rw [AssignM.lift_apply, applyRelocationEntry_apply]
  cases hc : firstFailure (entryChecks explicitAddend symtbl relSectStart rel m) with
  | none =>
      rw [after_eq_of_none hc]
      apply Follows.of_step
      simp only [Config.step, if_pos hlt, hc]
  | some e =>
      rw [after_eq_of_some hc]
      apply Follows.of_halt
      simp only [Config.step, if_pos hlt, hc]

theorem applySection_follows (hlt : shdr < env.rShtable.tEnd) :
    Follows strCmp env defs ⟨.applyRelocations shdr, m, queries⟩ fuel .relocations
      (fun m queries => ⟨.applyRelocations (shdr + env.rShtable.tBsize), m, queries⟩)
      (lift (applySection fuel env shdr) queries m) := by
  rw [AssignM.lift_apply, applySection, fetch_bind]
  by_cases ht : shType m shdr = shtRel ∨ shType m shdr = shtRela
  · rw [if_pos ht, applyReloactionTable_apply]
    cases hc : firstFailure (tableChecks env m shdr) with
    | none =>
        rw [after_eq_of_none hc, lift_tableIterate]
        refine Follows.mono (Follows.step ?_) (Nat.le_succ fuel)
        simp only [Config.step, if_pos hlt, if_pos ht, hc]
        refine tableIterate_follows (fun rel m queries hrel => applyRelocationEntry_follows hrel) ?_ ?_
          fuel (Nat.le_refl fuel) _ m queries
        · rintro rel m queries ⟨pass, error, h⟩
          cases h
        · intro rel m queries hstop
          simp only [Config.step, if_neg hstop]
    | some e =>
        rw [after_eq_of_some hc]
        apply Follows.of_halt
        simp only [Config.step, if_pos hlt, if_pos ht, hc]
  · rw [if_neg ht]
    apply Follows.of_step
    simp only [Config.step, if_pos hlt, if_neg ht]

variable (strCmp env defs) in
/-- **The steps do what `rmld_apply_relocations` tries.** -/
theorem applySections_follows (fuel : ℕ) (m : Memory) (queries : List LoaderSymbol) :
    Follows strCmp env defs ⟨.applyRelocations env.rShtable.tStart, m, queries⟩ fuel .relocations
      (fun m queries => ⟨.halted .relocations 0, m, queries⟩)
      (applySections fuel env m, queries) := by
  rw [applySections, lift_tableIterate]
  refine tableIterate_follows (fun shdr m queries hlt => applySection_follows hlt) ?_ ?_ fuel
    (Nat.le_refl fuel) _ m queries
  · rintro shdr m queries ⟨pass, error, h⟩
    cases h
  · intro shdr m queries hstop
    simp only [Config.step, if_neg hstop]

end relocations

/-! ### Symbols -/

section symbols
variable {shdr sym : Addr} {symtable strTable : ElfTable} {fuel : ℕ} {v : U64}

theorem syValue_setSyValue : syValue (setSyValue m sym v) sym = v :=
  Bytes.load_store (by decide)

/-- What follows a function that makes checks comes after them. -/
theorem lift_bind_after {α β : Type} {checks : List (Bool × U8)} {f : LoaderM α} {g : α → AssignM β}
    {a : α} (h : f m = (Outcome.ret a m').after checks m) :
    (lift f >>= g) queries m = match firstFailure checks with
      | some e => (.thrown e m, queries)
      | none => g a queries m' := by
  unfold Outcome.after at h
  cases hc : firstFailure checks with
  | none =>
      rw [hc] at h
      apply AssignM.bind_ret
      rw [AssignM.lift_apply, h]
  | some e =>
      rw [hc] at h
      apply AssignM.bind_thrown
      rw [AssignM.lift_apply, h]

theorem updateSymbolAddress_apply : updateSymbolAddress env sym m =
    (Outcome.ret () (setSyValue m sym (if located m sym then
      syValue m sym + shAddr m (headerAt env (syShndx m sym)) else 0))).after
        (if located m sym then headerChecks env m (syShndx m sym) shtProgbits else []) m := by
  have hprogbits : shtProgbits ≠ 0 := by decide
  unfold updateSymbolAddress
  rw [fetch_bind]
  by_cases hl : located m sym
  · have hbad : checkSectionIndex (syShndx m sym) = 0 := hl
    rw [if_pos hl, if_pos hl, if_neg (not_not.mpr hbad), bind_after (getSectionHeader_apply hprogbits)]
    rfl
  · have hbad : checkSectionIndex (syShndx m sym) ≠ 0 := hl
    rw [if_neg hl, if_neg hl, if_pos hbad]
    rfl

/-- The checks of a symbol are made before it is assigned. -/
theorem assignSymbol_apply : assignSymbol strCmp env defs strTable sym queries m =
    match firstFailure (symbolChecks env m strTable sym) with
    | some e => (.thrown e m, queries)
    | none =>
        let value := symbolValue strCmp env defs m strTable sym
        let m' := setSyValue m sym value
        (.ret () m', answer strCmp m' (nameOf m strTable sym) value queries) := by
  have hanswer : ∀ name value, (lift (fetch fun m => syValue m sym) >>= fun v =>
      if v = 0 then pure () else modify (defineQuery strCmp name v)) queries
        (setSyValue m sym value) = (.ret () (setSyValue m sym value),
          answer strCmp (setSyValue m sym value) name value queries) := by
    intro name value
    rw [AssignM.fetch_bind, syValue_setSyValue]
    unfold answer
    split <;> rfl
  unfold assignSymbol symbolChecks symbolValue
  rw [AssignM.fetch_bind, lift_bind_after (getTableEntry_apply _ _), Sweep.firstFailure_append]
  have hname : strTable.tStart + (syName m sym).setWidth 64 * strTable.tBsize = nameOf m strTable sym :=
    rfl
  rw [hname]
  cases firstFailure (indexChecks strTable (nameOf m strTable sym)) with
  | some e => rfl
  | none =>
      show (lift (fetch fun m => syShndx m sym) >>= _) queries m = _
      rw [AssignM.fetch_bind]
      by_cases hundef : syShndx m sym = shnUndef
      · have hl : ¬located m sym := by
          simp [located, checkSectionIndex, hundef]
        rw [if_pos hundef, if_pos hundef, if_neg hl]
        exact hanswer _ _
      · rw [if_neg hundef, if_neg hundef, lift_bind_after updateSymbolAddress_apply]
        cases firstFailure (if located m sym then headerChecks env m (syShndx m sym) shtProgbits
          else []) with
        | some e => rfl
        | none => exact hanswer _ _

theorem assignSymbol_follows (hlt : sym < symtable.tEnd) :
    Follows strCmp env defs ⟨.assignTable shdr symtable strTable sym, m, queries⟩ k .symbols
      (fun m queries => ⟨.assignTable shdr symtable strTable (sym + symtable.tBsize), m, queries⟩)
      (assignSymbol strCmp env defs strTable sym queries m) := by
  rw [assignSymbol_apply]
  cases hc : firstFailure (symbolChecks env m strTable sym) with
  | none =>
      apply Follows.of_step
      simp only [Config.step, if_pos hlt, hc]
  | some e =>
      apply Follows.of_halt
      simp only [Config.step, if_pos hlt, hc]

theorem assingSymbolTable_apply : assingSymbolTable strCmp fuel env shdr defs queries m =
    match firstFailure (symtabChecks env m shdr) with
    | some e => (.thrown e m, queries)
    | none => tableIterateQueries (tableAt env m shdr) (assignSymbol strCmp env defs
        (tableAt env m (headerAt env (symtabId m shdr)))) fuel (tableAt env m shdr).tStart queries m := by
  have hstrtab : shtStrtab ≠ 0 := by decide
  unfold assingSymbolTable symtabChecks
  rw [lift_bind_after sectionHeaderToTable_apply, List.append_assoc, Sweep.firstFailure_append]
  cases firstFailure (entsizeChecks m shdr) with
  | some e => rfl
  | none =>
      show (lift (fetch fun m => shLink m shdr) >>= _) queries m = _
      rw [AssignM.fetch_bind, lift_bind_after (getSectionTable_apply hstrtab)]
      rfl

theorem assignSection_follows (hlt : shdr < env.rShtable.tEnd) :
    Follows strCmp env defs ⟨.assignSymbols shdr, m, queries⟩ fuel .symbols
      (fun m queries => ⟨.assignSymbols (shdr + env.rShtable.tBsize), m, queries⟩)
      (assignSection strCmp fuel env defs shdr queries m) := by
  rw [assignSection, AssignM.fetch_bind]
  by_cases ht : shType m shdr = shtSymtab
  · rw [if_pos ht, assingSymbolTable_apply]
    cases hc : firstFailure (symtabChecks env m shdr) with
    | none =>
        refine Follows.mono (Follows.step ?_) (Nat.le_succ fuel)
        simp only [Config.step, if_pos hlt, if_pos ht, hc]
        refine tableIterate_follows (fun sym m queries hsym => assignSymbol_follows hsym) ?_ ?_
          fuel (Nat.le_refl fuel) _ m queries
        · rintro rel m queries ⟨pass, error, h⟩
          cases h
        · intro rel m queries hstop
          simp only [Config.step, if_neg hstop]
    | some e =>
        apply Follows.of_halt
        simp only [Config.step, if_pos hlt, if_pos ht, hc]
  · rw [if_neg ht]
    apply Follows.of_step
    simp only [Config.step, if_pos hlt, if_neg ht]

variable (strCmp env defs) in
/-- **The steps do what `loader_assign_symbols` tries.** -/
theorem assignTables_follows (fuel : ℕ) (m : Memory) (queries : List LoaderSymbol) :
    Follows strCmp env defs ⟨.assignSymbols env.rShtable.tStart, m, queries⟩ fuel .symbols
      (fun m queries => ⟨.applyRelocations env.rShtable.tStart, m, queries⟩)
      (tableIterateQueries env.rShtable (assignSection strCmp fuel env defs) fuel env.rShtable.tStart
        queries m) := by
  refine tableIterate_follows (fun shdr m queries hlt => assignSection_follows hlt) ?_ ?_ fuel
    (Nat.le_refl fuel) _ m queries
  · rintro shdr m queries ⟨pass, error, h⟩
    cases h
  · intro shdr m queries hstop
    simp only [Config.step, if_neg hstop]

end symbols

/-! ### Sections -/

/-- A code that is returned, as an error that is thrown. -/
def Outcome.raise : Outcome U8 → Outcome Unit
  | .ret code m => if code = 0 then .ret () m else .thrown code m
  | .thrown e m => .thrown e m
  | .running => .running

variable (strCmp env defs) in
theorem assignSectionsFrom_follows : ∀ (fuel : ℕ) (shdr : Addr) (m : Memory)
    (queries : List LoaderSymbol), Follows strCmp env defs ⟨.assignSections shdr, m, queries⟩ fuel
      .sections (fun m queries => ⟨.assignSymbols env.rShtable.tStart, m, queries⟩)
      ((assignSectionsFrom env fuel shdr m).raise, queries) := by
  intro fuel
  induction fuel with
  | zero =>
      intro shdr m queries
      unfold assignSectionsFrom
      split
      · refine ⟨0, Nat.le_refl 0, ?_⟩
        rintro ⟨pass, error, h⟩
        cases h
      · rename_i hstop
        apply Follows.of_step
        simp only [Config.step, if_neg hstop]
  | succ fuel ih =>
      intro shdr m queries
      unfold assignSectionsFrom
      split
      · rename_i hlt
        rw [fetch_bind, fetch_bind]
        by_cases hbits : shType m shdr = shtNobits ∧ shSize m shdr ≠ 0
        · rw [if_pos hbits]
          apply Follows.of_halt
          simp only [Config.step, if_pos hlt, if_pos hbits]
        · rw [if_neg hbits, fetch_bind, update_bind]
          have hstep : Config.step strCmp env defs ⟨.assignSections shdr, m, queries⟩ =
              ⟨.assignSections (shdr + env.rShtable.tBsize),
                setShAddr m shdr (env.rHdr + shOffset m shdr), queries⟩ := by
            simp only [Config.step, if_pos hlt, if_neg hbits]
          have hrest := ih (shdr + env.rShtable.tBsize)
            (setShAddr m shdr (env.rHdr + shOffset m shdr)) queries
          rw [← hstep] at hrest
          exact Follows.step hrest
      · rename_i hstop
        apply Follows.of_step
        simp only [Config.step, if_neg hstop]

theorem assignSectionsFrom_ne_thrown {e : U8} : ∀ (fuel : ℕ) (shdr : Addr) (m m' : Memory),
    assignSectionsFrom env fuel shdr m ≠ .thrown e m' := by
  intro fuel
  induction fuel with
  | zero =>
      intro shdr m m' h
      unfold assignSectionsFrom at h
      split at h <;> cases h
  | succ fuel ih =>
      intro shdr m m' h
      unfold assignSectionsFrom at h
      split at h
      · rw [fetch_bind, fetch_bind] at h
        split at h
        · cases h
        · rw [fetch_bind, update_bind] at h
          exact ih _ _ _ h
      · cases h

/-! ### The load -/

/-- The codes that a list of checks may report are not null. -/
def Nonnull (checks : List (Bool × U8)) : Prop := ∀ x ∈ checks, x.2 ≠ 0

section nonnull
variable {checks checks' : List (Bool × U8)}

theorem Nonnull.append (h : Nonnull checks) (h' : Nonnull checks') : Nonnull (checks ++ checks') :=
  fun x hx => (List.mem_append.mp hx).elim (h x) (h' x)

theorem nonnull_check {p : Prop} [Decidable p] {e : U8} (he : e ≠ 0) : Nonnull (check p e) := by
  intro x hx
  obtain rfl := List.mem_singleton.mp hx
  exact he

theorem Nonnull.firstFailure {e : U8} (h : Nonnull checks) (hfail : firstFailure checks = some e) :
    e ≠ 0 :=
  h _ (Sweep.mem_of_firstFailure hfail)

theorem headerChecks_nonnull {id : U16} {type : U32} : Nonnull (headerChecks env m id type) :=
  (nonnull_check (by decide)).append (nonnull_check (by decide))

theorem symtabChecks_nonnull {hdr : Addr} : Nonnull (symtabChecks env m hdr) :=
  ((nonnull_check (by decide)).append headerChecks_nonnull).append (nonnull_check (by decide))

theorem symbolChecks_nonnull {strTable : ElfTable} {sym : Addr} :
    Nonnull (symbolChecks env m strTable sym) := by
  refine (nonnull_check (by decide)).append ?_
  split
  · exact headerChecks_nonnull
  · intro x hx
    cases hx

end nonnull

/-- An error of the symbols with which the load has ended is not null. -/
def Config.SymbolsFail (c : Config) : Prop := ∀ e, c.point = .halted .symbols e → e ≠ 0

theorem Config.SymbolsFail.step (h : c.SymbolsFail) : (c.step strCmp env defs).SymbolsFail := by
  obtain ⟨point, m, queries⟩ := c
  intro e
  cases point with
  | assignSections shdr =>
      simp only [Config.step]
      split
      · split <;> rintro ⟨⟩
      · rintro ⟨⟩
  | assignSymbols shdr =>
      simp only [Config.step]
      split
      · split
        · split
          · rename_i e' hfail
            rintro ⟨⟩
            exact symtabChecks_nonnull.firstFailure hfail
          · rintro ⟨⟩
        · rintro ⟨⟩
      · rintro ⟨⟩
  | assignTable shdr symtable strTable sym =>
      simp only [Config.step]
      split
      · split
        · rename_i e' hfail
          rintro ⟨⟩
          exact symbolChecks_nonnull.firstFailure hfail
        · rintro ⟨⟩
      · rintro ⟨⟩
  | applyRelocations shdr =>
      simp only [Config.step]
      split
      · split
        · split <;> rintro ⟨⟩
        · rintro ⟨⟩
      · rintro ⟨⟩
  | applyTable shdr explicitAddend reltable symtbl relSectStart relSectSize rel =>
      simp only [Config.step]
      split
      · split <;> rintro ⟨⟩
      · rintro ⟨⟩
  | halted pass error => exact h e

variable (strCmp env defs) in
theorem Config.SymbolsFail.run (h : c.SymbolsFail) (n : ℕ) :
    (c.run strCmp env defs n).SymbolsFail := by
  induction n generalizing c with
  | zero => exact h
  | succ n ih => exact ih h.step

/-- What the calls of a load have returned. The error of the relocations is not returned. -/
def Pass.codes : Pass → U8 → List U16
  | .sections, e => [e.setWidth 16]
  | .symbols, e => [0, e.setWidth 16]
  | .relocations, _ => [0, 0, 0]

/-- Where the load of an image starts. -/
def Config.start (env : LoadingEnv) (m : Memory) (queries : List LoaderSymbol) : Config :=
  ⟨.assignSections env.rShtable.tStart, m, queries⟩

/-- What the steps from `c` make of a load: they end with the codes that it returns; it does not
throw; there are as many steps as fuel if it is still running. -/
def LoadFollows (strCmp : Memory → Addr → List U8 → ℤ) (env : LoadingEnv)
    (defs : List LoaderSymbol) (c : Config) (fuel : ℕ) :
    Outcome (List U16) × List LoaderSymbol → Prop
  | (.ret codes m, queries) => ∃ n pass e,
      c.run strCmp env defs n = ⟨.halted pass e, m, queries⟩ ∧ codes = pass.codes e
  | (.thrown _ _, _) => False
  | (.running, _) => ∃ n ≥ fuel, ¬(c.run strCmp env defs n).Halted

theorem LoadFollows.after {n fuel : ℕ} {o : Outcome (List U16) × List LoaderSymbol}
    (hc : c.run strCmp env defs n = c') (h : LoadFollows strCmp env defs c' fuel o) :
    LoadFollows strCmp env defs c fuel o := by
  obtain ⟨o, queries⟩ := o
  cases o with
  | ret codes m =>
      obtain ⟨n', pass, e, hn, hcodes⟩ := h
      refine ⟨n + n', pass, e, ?_, hcodes⟩
      rw [Config.run_add, hc, hn]
  | thrown e m => exact h
  | running =>
      obtain ⟨n', hk, hn⟩ := h
      refine ⟨n + n', by omega, ?_⟩
      rwa [Config.run_add, hc]

theorem relocations_follow (fuel : ℕ) (m : Memory) (queries : List LoaderSymbol) :
    LoadFollows strCmp env defs ⟨.applyRelocations env.rShtable.tStart, m, queries⟩ fuel
      ((lift (rmldApplyRelocations fuel env) >>= fun relocations =>
        pure [0, 0, relocations.setWidth 16]) queries m) := by
  have hblock := applySections_follows strCmp env defs fuel m queries
  cases happly : applySections fuel env m with
  | ret a m' =>
      rw [happly] at hblock
      obtain ⟨n, hn⟩ := hblock
      have htry : lift (rmldApplyRelocations fuel env) queries m = (.ret 0 m', queries) := by
        rw [AssignM.lift_apply, rmldApplyRelocations, bind_apply, LoaderM.bind, attempt, happly]
        rfl
      rw [AssignM.bind_ret htry]
      exact ⟨n + 1, .relocations, 0, hn, rfl⟩
  | thrown e m' =>
      rw [happly] at hblock
      obtain ⟨n, hn⟩ := hblock
      have htry : lift (rmldApplyRelocations fuel env) queries m = (.ret 0 m', queries) := by
        rw [AssignM.lift_apply, rmldApplyRelocations, bind_apply, LoaderM.bind, attempt, happly]
        rfl
      rw [AssignM.bind_ret htry]
      exact ⟨n, .relocations, e, hn, rfl⟩
  | running =>
      rw [happly] at hblock
      have htry : lift (rmldApplyRelocations fuel env) queries m = (.running, queries) := by
        rw [AssignM.lift_apply, rmldApplyRelocations, bind_apply, LoaderM.bind, attempt, happly]
      rw [AssignM.bind_running htry]
      exact hblock

theorem symbols_follow (fuel : ℕ) (m : Memory) (queries : List LoaderSymbol) :
    LoadFollows strCmp env defs ⟨.assignSymbols env.rShtable.tStart, m, queries⟩ fuel
      ((loaderAssignSymbols strCmp fuel env defs >>= fun symbols =>
        if symbols ≠ 0 then pure [0, symbols]
        else lift (rmldApplyRelocations fuel env) >>= fun relocations =>
          pure [0, 0, relocations.setWidth 16]) queries m) := by
  have hblock := assignTables_follows strCmp env defs fuel m queries
  cases happly : tableIterateQueries env.rShtable (assignSection strCmp fuel env defs) fuel
      env.rShtable.tStart queries m with
  | mk o queries' =>
      rw [happly] at hblock
      cases o with
      | ret a m' =>
          obtain ⟨n, hn⟩ := hblock
          have htry : loaderAssignSymbols strCmp fuel env defs queries m = (.ret 0 m', queries') := by
            rw [loaderAssignSymbols, AssignM.bind_apply, AssignM.bind, AssignM.attempt, happly]
            rfl
          rw [AssignM.bind_ret htry, if_neg (not_not.mpr rfl)]
          exact (relocations_follow fuel m' queries').after hn
      | thrown e m' =>
          obtain ⟨n, hn⟩ := hblock
          have he : e ≠ 0 := by
            have hstart : Config.SymbolsFail ⟨.assignSymbols env.rShtable.tStart, m, queries⟩ :=
              fun _ h => by cases h
            have hend := hstart.run strCmp env defs n
            rw [hn] at hend
            exact hend e rfl
          have hcode : e.setWidth 16 ≠ 0 := by
            intro h0
            apply he
            bv_omega
          have htry : loaderAssignSymbols strCmp fuel env defs queries m =
              (.ret (e.setWidth 16) m', queries') := by
            rw [loaderAssignSymbols, AssignM.bind_apply, AssignM.bind, AssignM.attempt, happly]
            rfl
          rw [AssignM.bind_ret htry, if_pos hcode]
          exact ⟨n, .symbols, e, hn, rfl⟩
      | running =>
          have htry : loaderAssignSymbols strCmp fuel env defs queries m = (.running, queries') := by
            rw [loaderAssignSymbols, AssignM.bind_apply, AssignM.bind, AssignM.attempt, happly]
          rw [AssignM.bind_running htry]
          exact hblock

variable (strCmp defs) in
/-- **The steps do what a load does.** -/
theorem load_follows (fuel : ℕ) (ramStart : Addr) (m : Memory) (queries : List LoaderSymbol) :
    LoadFollows strCmp (loaderInit ramStart m) defs (.start (loaderInit ramStart m) m queries) fuel
      (load strCmp fuel ramStart defs queries m) := by
  unfold load
  rw [AssignM.fetch_bind]
  generalize loaderInit ramStart m = env
  have hblock := assignSectionsFrom_follows strCmp env defs fuel env.rShtable.tStart m queries
  cases hsections : assignSectionsFrom env fuel env.rShtable.tStart m with
  | ret code m' =>
      have htry : lift (loaderAssignSections fuel env) queries m = (.ret code m', queries) := by
        rw [AssignM.lift_apply, loaderAssignSections, hsections]
      rw [hsections, Outcome.raise] at hblock
      rw [AssignM.bind_ret htry]
      by_cases hcode : code = 0
      · rw [if_pos hcode] at hblock
        obtain ⟨n, hn⟩ := hblock
        rw [if_neg (not_not.mpr hcode)]
        exact (symbols_follow fuel m' queries).after hn
      · rw [if_neg hcode] at hblock
        obtain ⟨n, hn⟩ := hblock
        rw [if_pos hcode]
        exact ⟨n, .sections, code, hn, rfl⟩
  | thrown e m' => exact absurd hsections (assignSectionsFrom_ne_thrown _ _ _ _)
  | running =>
      have htry : lift (loaderAssignSections fuel env) queries m = (.running, queries) := by
        rw [AssignM.lift_apply, loaderAssignSections, hsections]
      rw [hsections, Outcome.raise] at hblock
      rw [AssignM.bind_running htry]
      exact hblock

/-- A load that has ended returns what it has left. -/
theorem load_of_halted {ramStart : Addr} {n fuel : ℕ} {e : U8}
    (hhalt : (Config.run strCmp (loaderInit ramStart m) defs n
      (.start (loaderInit ramStart m) m queries)).point = .halted pass e) (hfuel : fuel > n) :
    load strCmp fuel ramStart defs queries m =
      (.ret (pass.codes e) (Config.run strCmp (loaderInit ramStart m) defs n
        (.start (loaderInit ramStart m) m queries)).memory,
      (Config.run strCmp (loaderInit ramStart m) defs n
        (.start (loaderInit ramStart m) m queries)).queries) := by
  generalize hc : Config.run strCmp (loaderInit ramStart m) defs n
    (.start (loaderInit ramStart m) m queries) = c at hhalt ⊢
  have hend : c.Halted := ⟨pass, e, hhalt⟩
  have hfollows := load_follows strCmp defs fuel ramStart m queries
  cases hload : load strCmp fuel ramStart defs queries m with
  | mk o queries' =>
      rw [hload] at hfollows
      cases o with
      | ret codes m' =>
          obtain ⟨n', pass', e', hn', rfl⟩ := hfollows
          have hsame : c = ⟨.halted pass' e', m', queries'⟩ := by
            rw [← hc]
            exact (Config.halted_unique (hc ▸ hend) ⟨pass', e', congrArg Config.point hn'⟩).trans hn'
          rw [hsame] at hhalt ⊢
          cases hhalt
          rfl
      | thrown e' m' => exact hfollows.elim
      | running =>
          obtain ⟨n', hle, hn'⟩ := hfollows
          obtain ⟨k, rfl⟩ := Nat.exists_eq_add_of_le (Nat.le_trans (Nat.le_of_lt hfuel) hle)
          rw [Config.run_add, hc, hend.run] at hn'
          exact absurd hend hn'

end follows

end KernelTk.Loader
