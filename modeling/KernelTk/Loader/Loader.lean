import KernelTk.Loader.RelX86

/-! # The functions of the loader

The functions of `loader.c` that relocate an image, in the order of the source: `loader_init`, the
look-ups of entries, of section headers and of tables, and `rmld_apply_relocations` with the functions
that it calls.  The functions that assign addresses follow in `Symbols.lean`.

* **Loops.** `TABLE_ITERATE` is `tableIterate`: a pointer runs from the start of a table by its stride as
  long as it is below the end, so that the loop need not end.  A loop takes the number of iterations
  that it may execute as its fuel; a nested loop has the fuel of its own.
* **Look-ups.** `getTableEntry` compares the address of the entry with the end of the table, both modulo
  `2 ^ 64`, and throws `LOADER_ERROR_BAD_TABLE_INDEX` when it is not below.  A section is looked up by 16
  bits of a subscript, as its parameter is a `u16`.
* **Bodies.** The bodies of the loops are functions of their own (`applyRelocationEntry`,
  `applySection`), which the proofs compare with one step each.
* **Errors.** The block that `rmld_apply_relocations` tries is `applySections`; the error variable that
  the block assigns is not returned. -/

namespace KernelTk.Loader

open LoaderM

/-- `TABLE_ITERATE`, from an entry. -/
def tableIterate (table : ElfTable) (body : Addr → LoaderM Unit) : ℕ → Addr → LoaderM Unit
  | 0, entry => if entry < table.tEnd then stillRunning else pure ()
  | fuel + 1, entry =>
      if entry < table.tEnd then do
        body entry
        tableIterate table body fuel (entry + table.tBsize)
      else pure ()

def loaderInit (ramStart : Addr) (m : Memory) : LoadingEnv :=
  let shtable := ramStart + eShoff m ramStart
  let shentrySize : U64 := (eShentsize m ramStart).setWidth 64
  ⟨ramStart,
    ⟨shtable, shtable + shentrySize * (eShnum m ramStart).setWidth 64, shentrySize⟩⟩

/-! ### Tables -/

def getTableEntry (table : ElfTable) (index : U64) : LoaderM Addr := do
  let bref := table.tStart + index * table.tBsize
  if bref ≥ table.tEnd then loadingError loaderErrorBadTableIndex
  else pure bref

/-- The header at a subscript; type 0 is not checked. -/
def getSectionHeader (env : LoadingEnv) (sectionId : U16) (sectionType : U32) :
    LoaderM Addr := do
  let shdr ← getTableEntry env.rShtable (sectionId.setWidth 64)
  let type ← fetch fun m => shType m shdr
  if sectionType ≠ 0 ∧ type ≠ sectionType then loadingError loaderErrBadSectionType
  else pure shdr

def sectionHeaderToTable (env : LoadingEnv) (hdr : Addr) : LoaderM ElfTable := do
  let entSize ← fetch fun m => shEntsize m hdr
  if entSize = 0 then loadingError loaderErrTypeSectEntsizeNull
  else
    let start ← fetch fun m => env.rHdr + shOffset m hdr
    let size ← fetch fun m => shSize m hdr
    pure ⟨start, start + size, entSize⟩

def getSectionTable (env : LoadingEnv) (sectionId : U16) (sectionType : U32) :
    LoaderM ElfTable := do
  let hdr ← getSectionHeader env sectionId sectionType
  sectionHeaderToTable env hdr

/-! ### Relocations -/

/-- The body of the loop of `apply_reloaction_table`. -/
def applyRelocationEntry (explicitAddend : Bool) (symtbl : ElfTable) (relSectStart : U64)
    (rel : Addr) : LoaderM Unit := do
  let offset ← fetch fun m => rOffset m rel
  let relAddr := relSectStart + offset
  let relInfo ← fetch fun m => rInfo m rel
  let symIndex := elf64RSym relInfo
  let relType := elf64RType relInfo
  if symIndex = 0 then loadingError loaderErrorRelSymbolNullIndex
  else
    let sym ← getTableEntry symtbl (symIndex.setWidth 64)
    let symAddr ← fetch fun m => syValue m sym
    if symAddr = 0 then loadingError loaderErrorRelSymbolNullAddress
    else
      let addend ← fetch fun m => if explicitAddend then rAddend m rel else 0
      let relError ← update (loaderApplyRelocation relAddr symAddr addend relType)
      if relError ≠ 0 then loadingError relError
      else pure ()

def applyReloactionTable (fuel : ℕ) (env : LoadingEnv) (relTableHdr : Addr) : LoaderM Unit := do
  let type ← fetch fun m => shType m relTableHdr
  let explicitAddend := decide (type = shtRela)
  let reltable ← sectionHeaderToTable env relTableHdr
  let link ← fetch fun m => shLink m relTableHdr
  let symtbl ← getSectionTable env (link.setWidth 16) shtSymtab
  let info ← fetch fun m => shInfo m relTableHdr
  let relSectHdr ← getSectionHeader env (info.setWidth 16) shtProgbits
  let relSectStart ← fetch fun m => shAddr m relSectHdr
  tableIterate reltable (applyRelocationEntry explicitAddend symtbl relSectStart) fuel
    reltable.tStart

/-- The body of the loop of `rmld_apply_relocations`. -/
def applySection (fuel : ℕ) (env : LoadingEnv) (shdr : Addr) : LoaderM Unit := do
  let type ← fetch fun m => shType m shdr
  if type = shtRel ∨ type = shtRela then applyReloactionTable fuel env shdr
  else pure ()

/-- The block that `rmld_apply_relocations` tries. -/
def applySections (fuel : ℕ) (env : LoadingEnv) : LoaderM Unit :=
  tableIterate env.rShtable (applySection fuel env) fuel env.rShtable.tStart

/-- The error variable is assigned and not returned. -/
def rmldApplyRelocations (fuel : ℕ) (env : LoadingEnv) : LoaderM U8 := do
  let _errorId ← attempt (applySections fuel env)
  pure 0

end KernelTk.Loader
