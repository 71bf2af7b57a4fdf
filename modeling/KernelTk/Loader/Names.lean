import KernelTk.Loader.Position

/-! # The names of symbols

`sy_name` is a byte offset in the string table that `sh_link` designates; the loader looks it up as
a subscript of a table of entries of `sh_entsize` bytes, with the check of a subscript.  An assembler
writes 0 there for a string table, or 1, and the file format asks for neither.

* **Names.** `nameAddress` is the byte at the offset `sy_name` of the string table, `linkedHeader` the header
  that `sh_link` designates by all its 32 bits.
* **Property.** `NameFound` : the string table is found, and the symbol is looked up in the lists under
  the name at its offset.  The body of the loop is compared with `assignNamed`, which takes the name
  from that address.
* **Condition.** `NameReached` : the header lies in the section table, the string table has entries, the
  product of the offset and the size of an entry is the offset, modulo `2 ^ 64`, and the byte lies below
  the end of the table.
* **Theorem.** `name_found_iff` : the name of a symbol is found iff it is reached, for every image, header,
  symbol and comparison of strings.  `plain_name_not_found` is a file of the other kind: its string table
  has entries of size 0, and no symbol of it is assigned. -/

namespace KernelTk.Loader

open LoaderM
open AssignM (lift modify)
open Sweep (check firstFailure)

section names
variable (env : LoadingEnv) (m m' : Memory) (hdr sym : Addr)

/-- The header that `sh_link` designates. -/
def linkedHeader : Addr :=
  env.rShtable.tStart + (shLink m hdr).setWidth 64 * env.rShtable.tBsize

/-- The byte at the offset `sy_name` of the string table. -/
def nameAddress : Addr :=
  env.rHdr + shOffset m (linkedHeader env m hdr) + (syName m' sym).setWidth 64

/-- A symbol that bears the name at an address is assigned. -/
def assignNamed (strCmp : Memory → Addr → List U8 → ℤ) (defs : List LoaderSymbol) (sName : Addr) :
    AssignM Unit := do
  let shndx ← lift (fetch fun m => syShndx m sym)
  if shndx = shnUndef then
    lift (update fun m => ((), setSyValue m sym (symDefFind strCmp m sName defs)))
  else lift (updateSymbolAddress env sym)
  let value ← lift (fetch fun m => syValue m sym)
  if value = 0 then pure ()
  else modify (defineQuery strCmp sName value)

/-- The string table of `hdr` is found in the memory `m`; in the memory `m'`, the symbol is looked up
in the lists under the name at its offset. -/
def NameFound : Prop :=
  ∃ strTable, getSectionTable env (symtabId m hdr) shtStrtab m = .ret strTable m ∧
    getTableEntry strTable ((syName m' sym).setWidth 64) m' = .ret (nameAddress env m m' hdr sym) m' ∧
    ∀ strCmp defs queries, assignSymbol strCmp env defs strTable sym queries m' =
      assignNamed env sym strCmp defs (nameAddress env m m' hdr sym) queries m'

/-- The header lies in the section table, the string table has entries, and neither the product of
the offset and the size of an entry nor the end of the string table is in the way. -/
def NameReached : Prop :=
  linkedHeader env m hdr < env.rShtable.tEnd ∧ shEntsize m (linkedHeader env m hdr) ≠ 0 ∧
    (syName m' sym).setWidth 64 * shEntsize m (linkedHeader env m hdr) =
      (syName m' sym).setWidth 64 ∧
    nameAddress env m m' hdr sym < env.rHdr + shOffset m (linkedHeader env m hdr) +
      shSize m (linkedHeader env m hdr)

end names

section found
variable {env : LoadingEnv} {m m' : Memory} {hdr sym : Addr}

theorem Outcome.of_after_eq_ret {α : Type} {checks : List (Bool × U8)} {a b : α} {m₁ m₂ : Memory}
    (h : (Outcome.ret a m₁).after checks m₁ = .ret b m₂) : firstFailure checks = none ∧ a = b := by
  unfold Outcome.after at h
  cases hc : firstFailure checks with
  | none =>
      rw [hc] at h
      cases h
      exact ⟨rfl, rfl⟩
  | some e =>
      rw [hc] at h
      cases h

/-- An index of 32 bits that is below `e_shnum` is one of 16 bits. -/
theorem linkedHeader_eq {image : Memory} {base : Addr}
    (hlink : (shLink m hdr).toNat < (eShnum image base).toNat) :
    headerAt (loaderInit base image) (symtabId m hdr) = linkedHeader (loaderInit base image) m hdr := by
  have hid : ((symtabId m hdr).setWidth 64 : U64) = (shLink m hdr).setWidth 64 := by
    unfold symtabId
    bv_omega
  unfold headerAt linkedHeader
  rw [hid]

theorem assignSymbol_named {strTable : ElfTable} {name : Addr}
    (h : getTableEntry strTable ((syName m' sym).setWidth 64) m' = .ret name m')
    (strCmp : Memory → Addr → List U8 → ℤ) (defs queries : List LoaderSymbol) :
    assignSymbol strCmp env defs strTable sym queries m' =
      assignNamed env sym strCmp defs name queries m' := by
  have hlift : lift (getTableEntry strTable ((syName m' sym).setWidth 64)) queries m' =
      (.ret name m', queries) := by rw [AssignM.lift_apply, h]
  unfold assignSymbol
  rw [AssignM.fetch_bind, AssignM.bind_ret hlift]
  rfl

theorem stringChecks_eq_none {header : Addr} {id : U16} (hid : headerAt env id = header)
    (htype : shType m header = shtStrtab) :
    firstFailure (headerChecks env m id shtStrtab ++ entsizeChecks m (headerAt env id)) = none ↔
      header < env.rShtable.tEnd ∧ shEntsize m header ≠ 0 := by
  unfold headerChecks indexChecks entsizeChecks
  rw [hid, Sweep.firstFailure_append_eq_none, Sweep.firstFailure_append_eq_none,
    Sweep.firstFailure_check_eq_none, Sweep.firstFailure_check_eq_none,
    Sweep.firstFailure_check_eq_none]
  exact ⟨fun h => ⟨h.1.1, h.2⟩, fun h => ⟨⟨h.1, htype⟩, h.2⟩⟩

/-- **When a name is found.** -/
theorem name_found_iff (image : Memory) (base : Addr) (m m' : Memory) (hdr sym : Addr)
    (hlink : (shLink m hdr).toNat < (eShnum image base).toNat)
    (htype : shType m (linkedHeader (loaderInit base image) m hdr) = shtStrtab) :
    NameFound (loaderInit base image) m m' hdr sym ↔
      NameReached (loaderInit base image) m m' hdr sym := by
  have hid : headerAt (loaderInit base image) (symtabId m hdr) =
    linkedHeader (loaderInit base image) m hdr := linkedHeader_eq hlink
  generalize loaderInit base image = env at hid htype ⊢
  have hstrtab : shtStrtab ≠ 0 := by decide
  have hchecks := stringChecks_eq_none hid htype
  unfold NameFound NameReached
  constructor
  · rintro ⟨strTable, htable, hentry, -⟩
    rw [getSectionTable_apply hstrtab] at htable
    obtain ⟨hnone, rfl⟩ := Outcome.of_after_eq_ret htable
    rw [getTableEntry_apply, hid] at hentry
    obtain ⟨hindex, hsame⟩ := Outcome.of_after_eq_ret hentry
    obtain ⟨hheader, hentsize⟩ := hchecks.mp hnone
    have hoffset := (BitVec.add_right_inj _).mp hsame
    refine ⟨hheader, hentsize, hoffset, ?_⟩
    rw [hsame] at hindex
    exact Sweep.firstFailure_check_eq_none.mp hindex
  · rintro ⟨hheader, hentsize, hoffset, hend⟩
    have hname : nameAddress env m m' hdr sym = (tableAt env m (linkedHeader env m hdr)).tStart +
        (syName m' sym).setWidth 64 * (tableAt env m (linkedHeader env m hdr)).tBsize := by
      show _ = _ + _ * shEntsize m (linkedHeader env m hdr)
      rw [hoffset]
      rfl
    have hentry : getTableEntry (tableAt env m (linkedHeader env m hdr))
        ((syName m' sym).setWidth 64) m' = .ret (nameAddress env m m' hdr sym) m' := by
      rw [getTableEntry_apply, ← hname, after_eq_of_none]
      exact Sweep.firstFailure_check_eq_none.mpr hend
    refine ⟨tableAt env m (linkedHeader env m hdr), ?_, hentry, assignSymbol_named hentry⟩
    rw [getSectionTable_apply hstrtab, after_eq_of_none (hchecks.mpr ⟨hheader, hentsize⟩), hid]

end found

/-- The bytes of an image that are not null, by offset: a symbol table whose symbol 1 bears the name at
offset 1 of a string table, and the string table, whose entry size is null. -/
def plainStringsImage : List (ℕ × U8) :=
  [(40, 64), (58, 64), (60, 3),
    (132, 2), (153, 1), (160, 48), (168, 2), (184, 24),
    (196, 3), (216, 0x30), (217, 1), (224, 3),
    (280, 1), (305, 102)]

def plainStringsMemory : Memory := fun a => (plainStringsImage.lookup (a - 0x10000).toNat).getD 0

/-- Symbol 1 of a file whose string table has entries of one byte is found. -/
theorem export_name_found : NameFound (loaderInit 0x10000 (copyAt exportFile 0x10000))
    (copyAt exportFile 0x10000) (copyAt exportFile 0x10000) (0x10000 + 192) (0x10000 + 416) :=
  (name_found_iff (copyAt exportFile 0x10000) 0x10000 (copyAt exportFile 0x10000)
    (copyAt exportFile 0x10000) (0x10000 + 192) (0x10000 + 416) (by decide +kernel)
    (by decide +kernel)).mpr
      ⟨by decide +kernel, by decide +kernel, by decide +kernel, by decide +kernel⟩

/-- The name of symbol 1 is not found in a string table without entries, and the symbols are not
assigned. -/
theorem plain_name_not_found :
    (shLink plainStringsMemory 0x10080).toNat < (eShnum plainStringsMemory 0x10000).toNat ∧
    shType plainStringsMemory (linkedHeader (loaderInit 0x10000 plainStringsMemory) plainStringsMemory
      0x10080) = shtStrtab ∧
    (syName plainStringsMemory 0x10118).toNat < (shSize plainStringsMemory (linkedHeader
      (loaderInit 0x10000 plainStringsMemory) plainStringsMemory 0x10080)).toNat ∧
    ¬NameFound (loaderInit 0x10000 plainStringsMemory) plainStringsMemory plainStringsMemory 0x10080
      0x10118 ∧
    ∀ strCmp defs queries, loaderAssignSymbols strCmp 4 (loaderInit 0x10000 plainStringsMemory) defs
      queries plainStringsMemory = (.ret 4 plainStringsMemory, queries) := by
  refine ⟨by decide +kernel, by decide +kernel, by decide +kernel, ?_, ?_⟩
  · rintro ⟨strTable, htable, -⟩
    rw [getSectionTable_apply (by decide)] at htable
    have hfails := (Outcome.of_after_eq_ret htable).1
    revert hfails
    decide +kernel
  · intro strCmp defs queries
    rfl

end KernelTk.Loader
