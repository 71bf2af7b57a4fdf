import KernelTk.Loader.Layout

/-! # What an iteration covers

`TABLE_ITERATE` moves a pointer by a stride that is read in the file, as long as it is below the end
of the table; sums of addresses wrap.

* **Tables.** `Produced T size` : the table is made by `loader_init` or by
  `__section_header_to_table`, from a header that states `size` bytes.  No other table is iterated over.
* **Iterations.** `IteratesOver T l` : the loops of the source over the table end, and execute their
  body at the addresses `l`, in order, for all three kinds of loops and every body.  A body that only
  records where it is executed shows that the addresses are those of the pointer
  (`iteratesOver_iff`, with `recordVisit`).
* **Coverage.** `CoversTable T size` : these are the addresses of the entries that fit in the size, each
  of which lies in the table.
* **Theorem.** This is so exactly if the end of the table does not wrap and the size is made of whole
  entries, or the end wraps and the size is less than an entry, in which case nothing is visited and
  nothing should be (`covers_table_iff`).
* **Defects.** `table_not_covered` has one table of each of the other kinds: the partial entry at the end of
  a table is visited, and the iteration over a table that ends at the last address never ends. -/

namespace KernelTk.Loader

open LoaderM
open AssignM (lift modify)
open Sweep (Visits firstFailure progression)

/-! ### Tables of a file -/

/-- The table is made from a header that states its size. -/
inductive Produced : ElfTable → ℕ → Prop
  | init (ramStart : Addr) (m : Memory) :
      Produced (loaderInit ramStart m).rShtable
        ((eShentsize m ramStart).toNat * (eShnum m ramStart).toNat)
  | sectionTable {env : LoadingEnv} {hdr : Addr} {m : Memory} {T : ElfTable} :
      sectionHeaderToTable env hdr m = .ret T m → Produced T (shSize m hdr).toNat

section produced
variable {env : LoadingEnv} {hdr : Addr} {m : Memory} {T : ElfTable} {size i : ℕ}

theorem Produced.of_header (hent : shEntsize m hdr ≠ 0) :
    Produced (tableAt env m hdr) (shSize m hdr).toNat :=
  .sectionTable (sectionHeaderToTable_apply.trans
    (after_eq_of_none (Sweep.firstFailure_check_eq_none.mpr hent)))

theorem sectionHeaderToTable_eq_ret (h : sectionHeaderToTable env hdr m = .ret T m) :
    T = tableAt env m hdr ∧ shEntsize m hdr ≠ 0 := by
  rw [sectionHeaderToTable_apply] at h
  cases hc : firstFailure (entsizeChecks m hdr) with
  | none =>
      rw [after_eq_of_none hc] at h
      cases h
      exact ⟨rfl, Sweep.firstFailure_check_eq_none.mp hc⟩
  | some e =>
      rw [after_eq_of_some hc] at h
      cases h

theorem Produced.tEnd_eq (h : Produced T size) : T.tEnd = T.tStart + off size := by
  cases h with
  | init ramStart m =>
      rw [off_mul, off_toNat, off_toNat]
      rfl
  | sectionTable h =>
      obtain ⟨rfl, -⟩ := sectionHeaderToTable_eq_ret h
      rw [off_toNat_self]
      rfl

theorem Produced.size_lt (h : Produced T size) : size < 2 ^ 64 := by
  cases h with
  | init ramStart m =>
      calc (eShentsize m ramStart).toNat * (eShnum m ramStart).toNat
          ≤ 2 ^ 16 * 2 ^ 16 := Nat.mul_le_mul (Nat.le_of_lt (eShentsize m ramStart).isLt)
            (Nat.le_of_lt (eShnum m ramStart).isLt)
        _ < 2 ^ 64 := by decide
  | sectionTable => exact BitVec.isLt _

/-- Only a table of no bytes has a null stride. -/
theorem Produced.size_eq_zero (h : Produced T size) (hb : T.tBsize.toNat = 0) : size = 0 := by
  cases h with
  | init ramStart m =>
      have hent : ((eShentsize m ramStart).setWidth 64).toNat = 0 := hb
      rw [BitVec.toNat_setWidth_of_le (by decide)] at hent
      rw [hent, Nat.zero_mul]
  | sectionTable h =>
      obtain ⟨rfl, hent⟩ := sectionHeaderToTable_eq_ret h
      exact absurd (BitVec.eq_of_toNat_eq hb) hent

/-- The end of the table, without and with a wrap. -/
theorem Produced.tEnd_toNat (h : Produced T size) :
    T.tStart.toNat + size < 2 ^ 64 ∧ T.tEnd.toNat = T.tStart.toNat + size ∨
      2 ^ 64 ≤ T.tStart.toNat + size ∧ T.tEnd.toNat + 2 ^ 64 = T.tStart.toNat + size := by
  have hsize := h.size_lt
  have hstart := T.tStart.isLt
  have hend : T.tEnd.toNat = (T.tStart.toNat + size) % 2 ^ 64 := by
    rw [h.tEnd_eq, BitVec.toNat_add, toNat_off hsize]
  omega

theorem toNat_tableEntry (h : T.tStart.toNat + i * T.tBsize.toNat < 2 ^ 64) :
    (T.tStart + off i * T.tBsize).toNat = T.tStart.toNat + i * T.tBsize.toNat := by
  rw [← off_toNat_self T.tBsize, ← off_mul, off_toNat_self, toNat_add_off h]

end produced

/-! ### Iterations -/

/-- The loop of `loader_assign_sections`, at the headers of a list. -/
def assignSectionsAt (hdr : Addr) : List Addr → LoaderM U8
  | [] => pure 0
  | shdr :: l => do
      let type ← fetch fun m => shType m shdr
      let size ← fetch fun m => shSize m shdr
      if type = shtNobits ∧ size ≠ 0 then pure loaderErrorNonEmptyNobitsSection
      else
        let offset ← fetch fun m => shOffset m shdr
        update fun m => ((), setShAddr m shdr (hdr + offset))
        assignSectionsAt hdr l

/-- The loops over a table execute their body at these addresses, in order, and end. -/
structure IteratesOver (T : ElfTable) (l : List Addr) : Prop where
  loop : ∀ (body : Addr → LoaderM Unit) (fuel : ℕ), l.length ≤ fuel →
    tableIterate T body fuel T.tStart = l.forM body
  queries : ∀ (body : Addr → AssignM Unit) (fuel : ℕ), l.length ≤ fuel →
    tableIterateQueries T body fuel T.tStart = l.forM body
  sections : ∀ (hdr : Addr) (fuel : ℕ), l.length ≤ fuel →
    assignSectionsFrom ⟨hdr, T⟩ fuel T.tStart = assignSectionsAt hdr l

/-- The loops end and cover exactly the entries that fit in the size that is stated; each of these
lies in the table. -/
structure CoversTable (T : ElfTable) (size : ℕ) : Prop where
  iterates : IteratesOver T (progression T.tBsize T.tStart (size / T.tBsize.toNat))
  inside : ∀ entry ∈ progression T.tBsize T.tStart (size / T.tBsize.toNat),
    T.tStart.toNat ≤ entry.toNat ∧ entry.toNat + T.tBsize.toNat ≤ T.tEnd.toNat

section iterations
variable {T : ElfTable} {entry : Addr} {l : List Addr} {m : Memory} {fuel : ℕ}

theorem tableIterate_eq_forM {body : Addr → LoaderM Unit} (h : Visits T.tEnd T.tBsize entry l)
    (hfuel : l.length ≤ fuel) : tableIterate T body fuel entry = l.forM body := by
  induction h generalizing fuel with
  | done hstop => cases fuel <;> exact if_neg hstop
  | next hlt _ ih =>
      obtain ⟨fuel, rfl⟩ := Nat.exists_eq_add_of_le' (Nat.le_trans (Nat.le_add_left 1 _) hfuel)
      unfold tableIterate
      rw [if_pos hlt, ih (Nat.le_of_succ_le_succ hfuel)]
      rfl

theorem tableIterateQueries_eq_forM {body : Addr → AssignM Unit}
    (h : Visits T.tEnd T.tBsize entry l) (hfuel : l.length ≤ fuel) :
    tableIterateQueries T body fuel entry = l.forM body := by
  induction h generalizing fuel with
  | done hstop => cases fuel <;> exact if_neg hstop
  | next hlt _ ih =>
      obtain ⟨fuel, rfl⟩ := Nat.exists_eq_add_of_le' (Nat.le_trans (Nat.le_add_left 1 _) hfuel)
      unfold tableIterateQueries
      rw [if_pos hlt, ih (Nat.le_of_succ_le_succ hfuel)]
      rfl

theorem assignSectionsFrom_eq_at {hdr : Addr} (h : Visits T.tEnd T.tBsize entry l)
    (hfuel : l.length ≤ fuel) :
    assignSectionsFrom ⟨hdr, T⟩ fuel entry = assignSectionsAt hdr l := by
  induction h generalizing fuel with
  | done hstop => cases fuel <;> exact if_neg hstop
  | next hlt _ ih =>
      obtain ⟨fuel, rfl⟩ := Nat.exists_eq_add_of_le' (Nat.le_trans (Nat.le_add_left 1 _) hfuel)
      unfold assignSectionsFrom assignSectionsAt
      rw [if_pos hlt, ← ih (Nat.le_of_succ_le_succ hfuel)]

/-! ### What an iteration visits -/

/-- A query that tells that an address has been visited. -/
def mark (a : Addr) : LoaderSymbol := ⟨a, 0, []⟩

/-- A body that only tells where it is executed. -/
def recordVisit (a : Addr) : AssignM Unit := modify fun _ queries => queries ++ [mark a]

theorem mark_injective : Function.Injective mark := by
  intro a b h
  exact congrArg LoaderSymbol.sAddr h

theorem forM_recordVisit (queries : List LoaderSymbol) :
    l.forM recordVisit queries m = (.ret () m, queries ++ l.map mark) := by
  induction l generalizing queries with
  | nil =>
      rw [List.map_nil, List.append_nil]
      rfl
  | cons a l ih =>
      have hhead : recordVisit a queries m = (.ret () m, queries ++ [mark a]) := rfl
      show (recordVisit a >>= fun _ => l.forM recordVisit) queries m = _
      rw [AssignM.bind_ret hhead, ih, List.map_cons, List.append_assoc]
      rfl

theorem tableIterateQueries_recordVisit {queries queries' : List LoaderSymbol}
    (h : tableIterateQueries T recordVisit fuel entry queries m = (.ret () m, queries')) :
    ∃ l, Visits T.tEnd T.tBsize entry l ∧ queries' = queries ++ l.map mark := by
  induction fuel generalizing entry queries with
  | zero =>
      unfold tableIterateQueries at h
      split at h
      · cases h
      · rename_i hstop
        cases h
        exact ⟨[], .done hstop, (List.append_nil _).symm⟩
  | succ fuel ih =>
      unfold tableIterateQueries at h
      split at h
      · rename_i hlt
        have hhead : recordVisit entry queries m = (.ret () m, queries ++ [mark entry]) := rfl
        rw [AssignM.bind_ret hhead] at h
        obtain ⟨l, hl, rfl⟩ := ih h
        exact ⟨entry :: l, .next hlt hl, List.append_assoc _ _ _⟩
      · rename_i hstop
        cases h
        exact ⟨[], .done hstop, (List.append_nil _).symm⟩

/-- The loops execute their body where their pointer goes. -/
theorem iteratesOver_iff : IteratesOver T l ↔ Visits T.tEnd T.tBsize T.tStart l := by
  constructor
  · intro h
    have hrun := congrFun (congrFun (h.queries recordVisit l.length (Nat.le_refl _)) [])
      (fun _ => 0)
    rw [forM_recordVisit] at hrun
    obtain ⟨l', hv, heq⟩ := tableIterateQueries_recordVisit hrun
    rw [List.nil_append, List.nil_append] at heq
    rwa [mark_injective.list_map heq]
  · exact fun h => ⟨fun _ _ => tableIterate_eq_forM h, fun _ _ => tableIterateQueries_eq_forM h,
      fun _ _ => assignSectionsFrom_eq_at h⟩

end iterations

/-! ### Whole entries -/

section whole
variable {T : ElfTable} {size n : ℕ}

theorem Produced.visits (h : Produced T size) (hwrap : T.tStart.toNat + size < 2 ^ 64)
    (hsize : n * T.tBsize.toNat = size) (hpos : 0 < n → 0 < T.tBsize.toNat) :
    Visits T.tEnd T.tBsize T.tStart (progression T.tBsize T.tStart n) := by
  have hend := h.tEnd_toNat
  have hentry : ∀ i ≤ n, (T.tStart + off i * T.tBsize).toNat =
      T.tStart.toNat + i * T.tBsize.toNat := by
    intro i hi
    have hle := Nat.mul_le_mul_right T.tBsize.toNat hi
    exact toNat_tableEntry (by omega)
  refine Sweep.visits_progression_iff.mpr ⟨fun i hi => ?_, fun hlt => ?_⟩
  · show (T.tStart + off i * T.tBsize).toNat < T.tEnd.toNat
    have hle := Nat.mul_le_mul_right T.tBsize.toNat (Nat.succ_le_of_lt hi)
    rw [Nat.succ_mul] at hle
    have hstride := hpos (Nat.zero_lt_of_lt hi)
    rw [hentry i (Nat.le_of_lt hi)]
    omega
  · have hlast : (T.tStart + off n * T.tBsize).toNat < T.tEnd.toNat := hlt
    rw [hentry n (Nat.le_refl n)] at hlast
    omega

/-- If the loops stop at the last whole entry, there are no other bytes. -/
theorem Produced.mul_eq_of_visits (h : Produced T size)
    (hwrap : T.tStart.toNat + size < 2 ^ 64) (hle : n * T.tBsize.toNat ≤ size)
    (hv : Visits T.tEnd T.tBsize T.tStart (progression T.tBsize T.tStart n)) :
    n * T.tBsize.toNat = size := by
  have hend := h.tEnd_toNat
  have hlast : ¬(T.tStart + off n * T.tBsize).toNat < T.tEnd.toNat :=
    (Sweep.visits_progression_iff.mp hv).2
  rw [toNat_tableEntry (by omega)] at hlast
  omega

/-- Nothing is visited in a table that wraps. -/
theorem Produced.visits_nil (h : Produced T size) (hwrap : 2 ^ 64 ≤ T.tStart.toNat + size) :
    Visits T.tEnd T.tBsize T.tStart [] := by
  have hend := h.tEnd_toNat
  have hsize := h.size_lt
  refine .done fun hlt => ?_
  have hlt' : T.tStart.toNat < T.tEnd.toNat := hlt
  omega

/-- **An iteration covers exactly the whole entries of the table if the table does not wrap and is
made of whole entries, or wraps and is less than an entry; in no other table.** -/
theorem covers_table_iff (h : Produced T size) : CoversTable T size ↔
    T.tStart.toNat + size < 2 ^ 64 ∧ T.tBsize.toNat ∣ size ∨
      2 ^ 64 ≤ T.tStart.toNat + size ∧ size < T.tBsize.toNat := by
  have hend := h.tEnd_toNat
  have hle := Nat.div_mul_le_self size T.tBsize.toNat
  constructor
  · intro hc
    have hv := iteratesOver_iff.mp hc.iterates
    rcases hend with ⟨hwrap, -⟩ | ⟨hwrap, -⟩
    · exact .inl ⟨hwrap, _, ((h.mul_eq_of_visits hwrap hle hv).symm.trans (Nat.mul_comm _ _))⟩
    · right
      have hnone := congrArg List.length (hv.unique (h.visits_nil hwrap))
      rw [Sweep.length_progression, List.length_nil, Nat.div_eq_zero_iff] at hnone
      rcases hnone with hb | hlt
      · have hstart := T.tStart.isLt
        have hzero := h.size_eq_zero hb
        omega
      · exact ⟨hwrap, hlt⟩
  · rintro (⟨hwrap, hdvd⟩ | ⟨hwrap, hlt⟩)
    · have hwhole := Nat.div_mul_cancel hdvd
      have hpos : 0 < size / T.tBsize.toNat → 0 < T.tBsize.toNat := fun hdiv =>
        (Nat.div_pos_iff.mp hdiv).1
      refine ⟨iteratesOver_iff.mpr (h.visits hwrap hwhole hpos), fun entry he => ?_⟩
      obtain ⟨i, hi, rfl⟩ := Sweep.mem_progression.mp he
      have hmul := Nat.mul_le_mul_right T.tBsize.toNat (Nat.succ_le_of_lt hi)
      rw [Nat.succ_mul] at hmul
      have hentry : (T.tStart + BitVec.ofNat 64 i * T.tBsize).toNat = _ :=
        toNat_tableEntry (by omega)
      rw [hentry]
      omega
    · have hzero : size / T.tBsize.toNat = 0 := Nat.div_eq_of_lt hlt
      constructor
      · rw [hzero]
        exact iteratesOver_iff.mpr (h.visits_nil hwrap)
      · rw [hzero]
        exact fun _ he => absurd he List.not_mem_nil

/-- The symbol table of an image is covered. -/
theorem import_symtab_covered : CoversTable ⟨0x10148, 0x10178, 24⟩ 48 := by
  have htable : tableAt (loaderInit 0x10000 importMemory) importMemory 0x100c0 =
      ⟨0x10148, 0x10178, 24⟩ := by decide +kernel
  have hproduced : Produced ⟨0x10148, 0x10178, 24⟩ (shSize importMemory 0x100c0).toNat :=
    htable ▸ .of_header (by decide +kernel)
  have hsize : (shSize importMemory 0x100c0).toNat = 48 := by decide +kernel
  rw [hsize] at hproduced
  exact (covers_table_iff hproduced).mpr (.inl ⟨by decide, by decide⟩)

end whole

/-! ### Tables that are not covered -/

/-- The bytes of an image that are not null, by offset: the header of a symbol table of 30 bytes, and
that of a symbol table which ends at the last address and whose entries are half of the memory. -/
def rowsImage : List (ℕ × U8) :=
  [(40, 64), (58, 64), (60, 3),
    (132, 2), (153, 1), (160, 30), (184, 24),
    (196, 2), (218, 0xff), (219, 0xff), (220, 0xff), (221, 0xff), (222, 0xff), (223, 0xff),
    (224, 0xff), (225, 0xff), (226, 0xff), (227, 0xff), (228, 0xff), (229, 0xff), (230, 0xff),
    (231, 0xff), (255, 0x80)]

/-- The image lies at address `0x10000`. -/
def rowsMemory : Memory := fun a => (rowsImage.lookup (a - 0x10000).toNat).getD 0

def oddTable : ElfTable := tableAt (loaderInit 0x10000 rowsMemory) rowsMemory 0x10080
def endlessTable : ElfTable := tableAt (loaderInit 0x10000 rowsMemory) rowsMemory 0x100c0

theorem oddTable_eq : oddTable = ⟨0x10100, 0x1011e, 24⟩ := by decide +kernel

theorem endlessTable_eq : endlessTable = ⟨0, 0xffffffffffffffff, 0x8000000000000000⟩ := by
  decide +kernel

theorem oddTable_produced : Produced oddTable 30 := by
  have hsize : (shSize rowsMemory 0x10080).toNat = 30 := by decide +kernel
  exact hsize ▸ .of_header (by decide +kernel)

theorem endlessTable_produced : Produced endlessTable (2 ^ 64 - 1) := by
  have hsize : (shSize rowsMemory 0x100c0).toNat = 2 ^ 64 - 1 := by decide +kernel
  exact hsize ▸ .of_header (by decide +kernel)

/-- The pointer comes back to its first entry. -/
theorem endlessTable_running (fuel : ℕ) (m : Memory) :
    tableIterate endlessTable (fun _ => pure ()) fuel endlessTable.tStart m = .running := by
  rw [endlessTable_eq]
  suffices h : ∀ entry, entry = 0 ∨ entry = 0x8000000000000000 →
      tableIterate ⟨0, 0xffffffffffffffff, 0x8000000000000000⟩ (fun _ => pure ()) fuel entry m =
        .running from h 0 (.inl rfl)
  induction fuel with
  | zero => rintro entry (rfl | rfl) <;> exact congrFun (if_pos (by decide)) m
  | succ fuel ih =>
      rintro entry (rfl | rfl)
      · exact (congrFun (if_pos (by decide)) m).trans (ih _ (.inr rfl))
      · exact (congrFun (if_pos (by decide)) m).trans (ih _ (.inl (by decide)))

/-- The partial entry of a table is visited, and an iteration may not end. -/
theorem table_not_covered :
    (∃ T size, Produced T size ∧ ¬CoversTable T size) ∧
      ∃ T size, Produced T size ∧ ∀ fuel m,
        tableIterate T (fun _ => pure ()) fuel T.tStart m = .running := by
  refine ⟨⟨oddTable, 30, oddTable_produced, fun hc => ?_⟩,
    endlessTable, 2 ^ 64 - 1, endlessTable_produced, endlessTable_running⟩
  have hv : Visits oddTable.tEnd oddTable.tBsize oddTable.tStart [0x10100, 0x10118] := by
    rw [oddTable_eq]
    exact .next (by decide) (.next (by decide) (.done (by decide)))
  have hlist := congrArg List.length (hv.unique (iteratesOver_iff.mp hc.iterates))
  rw [Sweep.length_progression, oddTable_eq] at hlist
  exact absurd hlist (by decide)

end KernelTk.Loader
