import KernelTk.Loader.Coverage

/-! # The references between tables

A file refers to the entries of its tables by their subscripts, and `__get_table_entry` compares the
address of the entry with the end of the table; the subscript may have been truncated, and the
address may have wrapped.

* **References.** A `Reference` is one of the five that the loader follows, with the record that
  holds it; `Reference.written` is the subscript in the file, `Reference.subscript` the one that is looked
  up, `FollowedBy` the functions of the source that follow it.
* **Checks.** `Reference.Checked` : a subscript that is not one of a whole entry is refused before
  anything is read through it, by whichever function follows it and with nothing changed; any other one
  leads to its own entry, which lies in the table.
* **Condition.** A reference is checked exactly if it is `Sound` (`reference_checked_iff`): the subscript is
  looked up as it is written, and the offset of the entry is on the right side of the end of the table,
  and of the end of the address space.  The proof compares two sums modulo `2 ^ 64`, once when the end of
  the table does not wrap and once when it does (`Produced.lt_tEnd_iff`).
* **Defects.** `reference_unchecked` : the section 65537 of a file of three sections is taken for the
  section 1. -/

namespace KernelTk.Loader

open AssignM (lift)
open Sweep (firstFailure)

/-! ### References -/

/-- A reference of a file: the string table of a symbol table, the symbol table of a relocation
table, the section that it relocates, the section of a symbol, and the symbol of a relocation. -/
inductive Reference where
  | strings (hdr : Addr)
  | symbols (hdr : Addr)
  | target (hdr : Addr)
  | home (sym : Addr)
  | symbol (symtbl : ElfTable) (rel : Addr)

namespace Reference

variable (env : LoadingEnv) (m : Memory) (size : ℕ)

/-- The table that is referred to. -/
def table : Reference → ElfTable
  | strings _ => env.rShtable
  | symbols _ => env.rShtable
  | target _ => env.rShtable
  | home _ => env.rShtable
  | symbol symtbl _ => symtbl

/-- The subscript that is written in the file. -/
def written : Reference → ℕ
  | strings hdr => (shLink m hdr).toNat
  | symbols hdr => (shLink m hdr).toNat
  | target hdr => (shInfo m hdr).toNat
  | home sym => (syShndx m sym).toNat
  | symbol _ rel => (elf64RSym (rInfo m rel)).toNat

/-- The subscript that is looked up. -/
def subscript : Reference → U64
  | strings hdr => (symtabId m hdr).setWidth 64
  | symbols hdr => (symtabId m hdr).setWidth 64
  | target hdr => (targetId m hdr).setWidth 64
  | home sym => (syShndx m sym).setWidth 64
  | symbol _ rel => (elf64RSym (rInfo m rel)).setWidth 64

/-- The loader comes to the reference. -/
def Followed : Reference → Prop
  | strings hdr => shEntsize m hdr ≠ 0
  | symbols hdr => shEntsize m hdr ≠ 0
  | target hdr => shEntsize m hdr ≠ 0 ∧
      ∃ symtbl, getSectionTable env (symtabId m hdr) shtSymtab m = .ret symtbl m
  | home sym => located m sym
  | symbol _ rel => elf64RSym (rInfo m rel) ≠ 0

/-- The functions that follow a reference. -/
inductive FollowedBy : Reference → AssignM Unit → Prop
  | strings (strCmp : Memory → Addr → List U8 → ℤ) (fuel : ℕ) (defs : List LoaderSymbol)
      (hdr : Addr) : FollowedBy (strings hdr) (assingSymbolTable strCmp fuel env hdr defs)
  | symbols (fuel : ℕ) (hdr : Addr) :
      FollowedBy (symbols hdr) (lift (applyReloactionTable fuel env hdr))
  | target (fuel : ℕ) (hdr : Addr) :
      FollowedBy (target hdr) (lift (applyReloactionTable fuel env hdr))
  | home (sym : Addr) : FollowedBy (home sym) (lift (updateSymbolAddress env sym))
  | symbol (explicitAddend : Bool) (symtbl : ElfTable) (relSectStart : U64) (rel : Addr) :
      FollowedBy (symbol symtbl rel)
        (lift (applyRelocationEntry explicitAddend symtbl relSectStart rel))

/-- The table has `size` bytes: the reference is refused if its subscript is not one of a whole
entry, in any function that follows it and with nothing changed; the entry that is found is otherwise
the one at the subscript, and lies in the table. -/
structure Checked (r : Reference) : Prop where
  refused : size / (r.table env).tBsize.toNat ≤ r.written m →
    getTableEntry (r.table env) (r.subscript m) m = .thrown loaderErrorBadTableIndex m ∧
      ∀ f, FollowedBy env r f → ∀ queries, f queries m = (.thrown loaderErrorBadTableIndex m, queries)
  found : r.written m < size / (r.table env).tBsize.toNat →
    getTableEntry (r.table env) (r.subscript m) m =
        .ret ((r.table env).tStart + off (r.written m) * (r.table env).tBsize) m ∧
      (r.written m + 1) * (r.table env).tBsize.toNat ≤ size

/-- The number of bytes from the start of the table to the entry that is looked up. -/
def offset (r : Reference) : ℕ := (r.subscript m).toNat * (r.table env).tBsize.toNat % 2 ^ 64

/-- The subscript of an entry is the one that is looked up, and the entry is on the side of the wrap
where the end of the table is; the offset of any other one is past the table, on the side where the
comparison tells so. -/
def Sound (r : Reference) : Prop :=
  if r.written m < size / (r.table env).tBsize.toNat then
    (r.subscript m).toNat = r.written m ∧
      ((r.table env).tStart.toNat + size < 2 ^ 64 ∨
        2 ^ 64 ≤ (r.table env).tStart.toNat + r.written m * (r.table env).tBsize.toNat)
  else if (r.table env).tStart.toNat + size < 2 ^ 64 then
    size ≤ r.offset env m ∧ (r.table env).tStart.toNat + r.offset env m < 2 ^ 64
  else size ≤ r.offset env m ∨ (r.table env).tStart.toNat + r.offset env m < 2 ^ 64

end Reference

/-! ### Look-ups -/

section lookups
variable {T : ElfTable} {size : ℕ} {index : U64} {m : Memory}

/-- Which offsets the comparison admits, without and with a wrap of the end. -/
theorem Produced.lt_tEnd_iff (h : Produced T size) (index : U64) :
    T.tStart + index * T.tBsize < T.tEnd ↔
    if T.tStart.toNat + size < 2 ^ 64 then
      index.toNat * T.tBsize.toNat % 2 ^ 64 < size ∨
        2 ^ 64 ≤ T.tStart.toNat + index.toNat * T.tBsize.toNat % 2 ^ 64
    else index.toNat * T.tBsize.toNat % 2 ^ 64 < size ∧
      2 ^ 64 ≤ T.tStart.toNat + index.toNat * T.tBsize.toNat % 2 ^ 64 := by
  have hend := h.tEnd_toNat
  have hstart := T.tStart.isLt
  have hlast := T.tEnd.isLt
  have hsize := h.size_lt
  have hoffset := Nat.mod_lt (index.toNat * T.tBsize.toNat) (Nat.two_pow_pos 64)
  rw [BitVec.lt_def, BitVec.toNat_add, BitVec.toNat_mul]
  generalize index.toNat * T.tBsize.toNat % 2 ^ 64 = o at hoffset ⊢
  split <;> omega

theorem getTableEntry_eq_ret_iff {entry : Addr} : getTableEntry T index m = .ret entry m ↔
    T.tStart + index * T.tBsize < T.tEnd ∧ T.tStart + index * T.tBsize = entry := by
  rw [getTableEntry_apply, indexChecks, after_check]
  split
  · rename_i hlt
    constructor
    · rintro ⟨⟩
      exact ⟨hlt, rfl⟩
    · rintro ⟨-, rfl⟩
      rfl
  · rename_i hstop
    exact ⟨fun h => (nomatch h), fun h => absurd h.1 hstop⟩

theorem getTableEntry_eq_thrown_iff :
    getTableEntry T index m = .thrown loaderErrorBadTableIndex m ↔
      ¬T.tStart + index * T.tBsize < T.tEnd := by
  rw [getTableEntry_apply, indexChecks, after_check]
  split
  · rename_i hlt
    exact ⟨fun h => (nomatch h), fun h => absurd hlt h⟩
  · rename_i hstop
    exact ⟨fun _ => hstop, fun _ => rfl⟩

theorem firstFailure_indexChecks {entry : Addr} (h : ¬entry < T.tEnd) :
    firstFailure (indexChecks T entry) = some loaderErrorBadTableIndex := by
  unfold indexChecks
  rw [Sweep.firstFailure_check, if_neg h]

theorem firstFailure_headerChecks {env : LoadingEnv} {id : U16} {type : U32}
    (h : ¬headerAt env id < env.rShtable.tEnd) :
    firstFailure (headerChecks env m id type) = some loaderErrorBadTableIndex := by
  unfold headerChecks
  rw [Sweep.firstFailure_append, firstFailure_indexChecks h]
  rfl

theorem firstFailure_of_after {α : Type} {checks : List (Bool × U8)} {a b : α} {m' : Memory}
    (h : (Outcome.ret a m).after checks m = .ret b m') : firstFailure checks = none := by
  cases hc : firstFailure checks with
  | none => rfl
  | some e =>
      rw [after_eq_of_some hc] at h
      cases h

end lookups

namespace Reference

section checked
variable {env : LoadingEnv} {m : Memory} {size : ℕ} {r : Reference} {f : AssignM Unit}

/-- A function that follows the reference throws if the entry is not found, and has changed
nothing. -/
theorem FollowedBy.thrown (hf : FollowedBy env r f) (hr : r.Followed env m)
    (hstop : ¬(r.table env).tStart + r.subscript m * (r.table env).tBsize < (r.table env).tEnd)
    (queries : List LoaderSymbol) : f queries m = (.thrown loaderErrorBadTableIndex m, queries) := by
  cases hf with
  | strings strCmp fuel defs hdr =>
      have hent : firstFailure (entsizeChecks m hdr) = none :=
        Sweep.firstFailure_check_eq_none.mpr hr
      have hfail : firstFailure (symtabChecks env m hdr) = some loaderErrorBadTableIndex := by
        unfold symtabChecks
        rw [Sweep.firstFailure_append, Sweep.firstFailure_append, hent,
          firstFailure_headerChecks hstop]
        rfl
      rw [assingSymbolTable_apply, hfail]
  | symbols fuel hdr =>
      have hent : firstFailure (entsizeChecks m hdr) = none :=
        Sweep.firstFailure_check_eq_none.mpr hr
      have hfail : firstFailure (tableChecks env m hdr) = some loaderErrorBadTableIndex := by
        unfold tableChecks
        rw [Sweep.firstFailure_append, Sweep.firstFailure_append, Sweep.firstFailure_append, hent,
          firstFailure_headerChecks hstop]
        rfl
      rw [AssignM.lift_apply, applyReloactionTable_apply, after_eq_of_some hfail]
  | target fuel hdr =>
      obtain ⟨hnonnull, symtbl, hsymtbl⟩ := hr
      have hsymtab : shtSymtab ≠ 0 := by decide
      rw [getSectionTable_apply hsymtab] at hsymtbl
      have hent : firstFailure (entsizeChecks m hdr) = none :=
        Sweep.firstFailure_check_eq_none.mpr hnonnull
      have hlink := firstFailure_of_after hsymtbl
      rw [Sweep.firstFailure_append_eq_none] at hlink
      have hfail : firstFailure (tableChecks env m hdr) = some loaderErrorBadTableIndex := by
        unfold tableChecks
        rw [Sweep.firstFailure_append, Sweep.firstFailure_append, Sweep.firstFailure_append,
          hent, hlink.1, hlink.2, firstFailure_headerChecks hstop]
        rfl
      rw [AssignM.lift_apply, applyReloactionTable_apply, after_eq_of_some hfail]
  | home sym =>
      have hlocated : located m sym := hr
      rw [AssignM.lift_apply, updateSymbolAddress_apply, if_pos hlocated, if_pos hlocated,
        after_eq_of_some (firstFailure_headerChecks hstop)]
  | symbol explicitAddend symtbl relSectStart rel =>
      have hnonnull : elf64RSym (rInfo m rel) ≠ 0 := hr
      have hentry : ¬symbolOf symtbl rel m < symtbl.tEnd := hstop
      have hfail : firstFailure (entryChecks explicitAddend symtbl relSectStart rel m) =
          some loaderErrorBadTableIndex := by
        unfold entryChecks
        rw [Sweep.firstFailure_append, Sweep.firstFailure_append, Sweep.firstFailure_append,
          Sweep.firstFailure_check_eq_none.mpr hnonnull, firstFailure_indexChecks hentry]
        rfl
      rw [AssignM.lift_apply, applyRelocationEntry_apply, after_eq_of_some hfail]

/-- A subscript that is looked up is not more than the one that is written. -/
theorem subscript_le_written : (r.subscript m).toNat ≤ r.written m := by
  have hsection : ∀ v : U32, ((v.setWidth 16).setWidth 64).toNat ≤ v.toNat := by
    intro v
    rw [BitVec.toNat_setWidth_of_le (by decide), BitVec.toNat_setWidth]
    exact Nat.mod_le _ _
  cases r with
  | strings hdr => exact hsection (shLink m hdr)
  | symbols hdr => exact hsection (shLink m hdr)
  | target hdr => exact hsection (shInfo m hdr)
  | home sym => exact Nat.le_of_eq (BitVec.toNat_setWidth_of_le (by decide))
  | symbol symtbl rel => exact Nat.le_of_eq (BitVec.toNat_setWidth_of_le (by decide))

/-- Two subscripts lead to the same entry of a table only if they are equal. -/
theorem subscript_eq_of_entry_eq {T : ElfTable} {index : U64} {i : ℕ}
    (hsize : (i + 1) * T.tBsize.toNat < 2 ^ 64) (hstride : 0 < T.tBsize.toNat)
    (hle : index.toNat ≤ i)
    (h : T.tStart + index * T.tBsize = T.tStart + off i * T.tBsize) : index.toNat = i := by
  have hmul := Nat.mul_le_mul_right T.tBsize.toNat hle
  rw [Nat.succ_mul] at hsize
  have hentry : index * T.tBsize = off i * T.tBsize := by simpa using h
  have hbytes : (off index.toNat * off T.tBsize.toNat).toNat = (off i * off T.tBsize.toNat).toNat := by
    rw [off_toNat_self, off_toNat_self, hentry]
  rw [← off_mul, ← off_mul, toNat_off (by omega), toNat_off (by omega)] at hbytes
  exact Nat.eq_of_mul_eq_mul_right hstride hbytes

/-- **A reference is checked exactly if it is sound.** -/
theorem reference_checked_iff (h : Produced (r.table env) size) (hr : r.Followed env m) :
    r.Checked env m size ↔ r.Sound env m size := by
  have hlt := h.lt_tEnd_iff (r.subscript m)
  have hsize := h.size_lt
  unfold Sound offset
  constructor
  · intro hc
    by_cases hw : r.written m < size / (r.table env).tBsize.toNat
    · obtain ⟨hret, hinside⟩ := hc.found hw
      obtain ⟨hbelow, hentry⟩ := getTableEntry_eq_ret_iff.mp hret
      have hstride := (Nat.div_pos_iff.mp (Nat.zero_lt_of_lt hw)).1
      have hindex := subscript_eq_of_entry_eq (by omega) hstride subscript_le_written hentry
      rw [Nat.succ_mul] at hinside
      rw [hlt, hindex, Nat.mod_eq_of_lt (by omega)] at hbelow
      rw [if_pos hw]
      refine ⟨hindex, ?_⟩
      split at hbelow <;> omega
    · have hstop := getTableEntry_eq_thrown_iff.mp (hc.refused (by omega)).1
      rw [if_neg hw]
      rw [hlt] at hstop
      split at hstop <;> split <;> omega
  · intro hs
    constructor
    · intro hw
      rw [if_neg (by omega)] at hs
      have hstop : ¬(r.table env).tStart + r.subscript m * (r.table env).tBsize <
          (r.table env).tEnd := by
        rw [hlt]
        split at hs <;> split <;> omega
      exact ⟨getTableEntry_eq_thrown_iff.mpr hstop, fun f hf queries => hf.thrown hr hstop queries⟩
    · intro hw
      have hinside := Nat.mul_le_of_le_div _ _ _ (Nat.succ_le_of_lt hw)
      have hstride := (Nat.div_pos_iff.mp (Nat.zero_lt_of_lt hw)).1
      have hbytes := hinside
      rw [Nat.succ_mul] at hbytes
      rw [if_pos hw] at hs
      obtain ⟨hindex, hside⟩ := hs
      have hbelow : (r.table env).tStart + r.subscript m * (r.table env).tBsize <
          (r.table env).tEnd := by
        rw [hlt, hindex, Nat.mod_eq_of_lt (by omega)]
        split <;> omega
      have hentry : off (r.written m) = r.subscript m := by
        rw [← hindex, off_toNat_self]
      rw [hentry]
      exact ⟨getTableEntry_eq_ret_iff.mpr ⟨hbelow, rfl⟩, hinside⟩

/-- The symbol table of a relocation table is found. -/
theorem import_symbols_checked : (symbols 0x10100).Checked (loaderInit 0x10000 importMemory)
    importMemory 256 := by
  have hsize : (eShentsize importMemory 0x10000).toNat * (eShnum importMemory 0x10000).toNat = 256 := by
    decide +kernel
  have hproduced : Produced (table (loaderInit 0x10000 importMemory) (symbols 0x10100)) 256 :=
    hsize ▸ .init 0x10000 importMemory
  have hentsize : shEntsize importMemory 0x10100 ≠ 0 := by decide +kernel
  refine (reference_checked_iff hproduced hentsize).mpr ?_
  unfold Sound
  decide +kernel

end checked

end Reference

/-! ### A subscript that is truncated -/

/-- The bytes of an image that are not null, by offset: a string table, and a symbol table whose
string table is the section 65537. -/
def linkImage : List (ℕ × U8) :=
  [(40, 64), (58, 64), (60, 3),
    (132, 3), (153, 1), (160, 1), (184, 1),
    (196, 2), (217, 1), (232, 1), (234, 1), (248, 24)]

/-- The image lies at address `0x10000`. -/
def linkMemory : Memory := fun a => (linkImage.lookup (a - 0x10000).toNat).getD 0

/-- The section 1 is taken for the section 65537. -/
theorem reference_unchecked : ∃ r size,
    Produced (r.table (loaderInit 0x10000 linkMemory)) size ∧
      Reference.Followed (loaderInit 0x10000 linkMemory) linkMemory r ∧
      ¬r.Checked (loaderInit 0x10000 linkMemory) linkMemory size := by
  refine ⟨.strings 0x100c0, _, .init 0x10000 linkMemory, ?_, fun hc => ?_⟩
  · show shEntsize linkMemory 0x100c0 ≠ 0
    decide +kernel
  · have hwritten : (eShentsize linkMemory 0x10000).toNat * (eShnum linkMemory 0x10000).toNat /
        (loaderInit 0x10000 linkMemory).rShtable.tBsize.toNat ≤ (shLink linkMemory 0x100c0).toNat := by
      decide +kernel
    have hbelow : headerAt (loaderInit 0x10000 linkMemory) (symtabId linkMemory 0x100c0) <
        (loaderInit 0x10000 linkMemory).rShtable.tEnd := by decide +kernel
    exact getTableEntry_eq_thrown_iff.mp (hc.refused hwritten).1 hbelow

end KernelTk.Loader
