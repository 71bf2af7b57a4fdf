import KernelTk.Loader.Loader

/-! # The assignment of sections and symbols

The functions of `loader.c` that give their addresses to the sections and to the symbols of an
image, in the order of the source, and the sequence of calls that is a load.

* **Symbols of the kernel.** A `struct loader_symbol` is the cell of a list that lies outside of
  the image; its name is the string without its final zero.  The definitions and the queries are two
  lists, and no cell belongs to both.
* **Strings.** `str_cmp` is a function of the C library of the kernel: `strCmp m name s` compares
  the string at the address `name` with `s`, and is 0 if they are equal.  It is a parameter here; what the
  theorems need of it is stated where it is needed.
* **Queries.** A function that fills queries is an `AssignM`; the queries filled before an error
  remain filled.  `lift` takes a function that fills none.
* **Loads.** `load` is the sequence of calls that loads a file: `loader_init`, `loader_assign_sections`,
  `loader_assign_symbols` and `rmld_apply_relocations`, up to the first one that reports an error, which
  should stop the loading; it returns the codes of the last three.  The source leaves this sequence to
  the caller, as in `main.c`. -/

namespace KernelTk.Loader

open LoaderM

/-! ### Structures -/

section fields
variable (m : Memory) (a : Addr)

/-- Fields of `struct elf64_sym`. -/
def syName : U32 := Bytes.load m a 4
def syShndx : U16 := Bytes.load m (a + 6) 2

/-- The fields that are assigned. -/
def setShAddr (v : U64) : Memory := Bytes.store (n := 8) m (a + 16) v
def setSyValue (v : U64) : Memory := Bytes.store (n := 8) m (a + 8) v

end fields

/-- `SHT_STRTAB` and `SHT_NOBITS`. -/
def shtStrtab : U32 := 3
def shtNobits : U32 := 8

/-- `SHN_UNDEF` and `SHN_LORESERVE`. -/
def shnUndef : U16 := 0
def shnLoreserve : U16 := 0xff00

def loaderErrorNonEmptyNobitsSection : U8 := 1

/-- `struct loader_symbol`. -/
structure LoaderSymbol where
  sAddr : Addr
  sDefined : U8
  sName : List U8
deriving DecidableEq

/-! ### Functions that fill queries -/

/-- A function of the loader that fills queries. -/
def AssignM (α : Type) := List LoaderSymbol → Memory → Outcome α × List LoaderSymbol

namespace AssignM

variable {α β : Type}

protected def pure (a : α) : AssignM α := fun queries m => (.ret a m, queries)

protected def bind (f : AssignM α) (g : α → AssignM β) : AssignM β := fun queries m =>
  match f queries m with
  | (.ret a m', queries') => g a queries' m'
  | (.thrown e m', queries') => (.thrown e m', queries')
  | (.running, queries') => (.running, queries')

instance : Monad AssignM where
  pure := AssignM.pure
  bind := AssignM.bind

/-- A function that fills none. -/
def lift (f : LoaderM α) : AssignM α := fun queries m => (f m, queries)

/-- Change the queries. -/
def modify (f : Memory → List LoaderSymbol → List LoaderSymbol) : AssignM Unit :=
  fun queries m => (.ret () m, f m queries)

/-- `try ... try_end`. -/
def attempt (block : AssignM Unit) : AssignM U8 := fun queries m =>
  match block queries m with
  | (.ret _ m', queries') => (.ret 0 m', queries')
  | (.thrown e m', queries') => (.ret e m', queries')
  | (.running, queries') => (.running, queries')

end AssignM

open AssignM (lift modify)

/-- `TABLE_ITERATE`, in a function that fills queries. -/
def tableIterateQueries (table : ElfTable) (body : Addr → AssignM Unit) : ℕ → Addr → AssignM Unit
  | 0, entry => if entry < table.tEnd then lift stillRunning else pure ()
  | fuel + 1, entry =>
      if entry < table.tEnd then do
        body entry
        tableIterateQueries table body fuel (entry + table.tBsize)
      else pure ()

/-! ### Sections -/

/-- The loop of `loader_assign_sections`, from a header. -/
def assignSectionsFrom (env : LoadingEnv) : ℕ → Addr → LoaderM U8
  | 0, shdr => if shdr < env.rShtable.tEnd then stillRunning else pure 0
  | fuel + 1, shdr =>
      if shdr < env.rShtable.tEnd then do
        let type ← fetch fun m => shType m shdr
        let size ← fetch fun m => shSize m shdr
        if type = shtNobits ∧ size ≠ 0 then pure loaderErrorNonEmptyNobitsSection
        else
          let offset ← fetch fun m => shOffset m shdr
          let address := env.rHdr + offset
          update fun m => ((), setShAddr m shdr address)
          assignSectionsFrom env fuel (shdr + env.rShtable.tBsize)
      else pure 0

def loaderAssignSections (fuel : ℕ) (env : LoadingEnv) : LoaderM U8 :=
  assignSectionsFrom env fuel env.rShtable.tStart

/-! ### Symbols -/

def checkSectionIndex (index : U16) : U8 := if index = shnUndef ∨ index ≥ shnLoreserve then 1 else 0

section symbols
variable (strCmp : Memory → Addr → List U8 → ℤ)

def symDefFind (m : Memory) (name : Addr) : List LoaderSymbol → Addr
  | [] => 0
  | d :: defs => if d.sDefined = 0 ∨ strCmp m name d.sName ≠ 0 then symDefFind m name defs else d.sAddr

def updateSymbolAddress (env : LoadingEnv) (sym : Addr) : LoaderM Unit := do
  let sectionId ← fetch fun m => syShndx m sym
  let badIndex := checkSectionIndex sectionId
  if badIndex ≠ 0 then update fun m => ((), setSyValue m sym 0)
  else
    let shdr ← getSectionHeader env sectionId shtProgbits
    let value ← fetch fun m => syValue m sym + shAddr m shdr
    update fun m => ((), setSyValue m sym value)

/-- The last loop of `assing_symbol_table` : the first query that is not defined and bears the name
is filled. -/
def defineQuery (name : Addr) (value : U64) (m : Memory) : List LoaderSymbol → List LoaderSymbol
  | [] => []
  | q :: queries =>
      if q.sDefined ≠ 0 ∨ strCmp m name q.sName ≠ 0 then q :: defineQuery name value m queries
      else ⟨value, 1, q.sName⟩ :: queries

/-- The body of the loop of `assing_symbol_table`. -/
def assignSymbol (env : LoadingEnv) (defs : List LoaderSymbol) (strTable : ElfTable) (sym : Addr) :
    AssignM Unit := do
  let index ← lift (fetch fun m => syName m sym)
  let sName ← lift (getTableEntry strTable (index.setWidth 64))
  let shndx ← lift (fetch fun m => syShndx m sym)
  if shndx = shnUndef then
    lift (update fun m => ((), setSyValue m sym (symDefFind strCmp m sName defs)))
  else lift (updateSymbolAddress env sym)
  let value ← lift (fetch fun m => syValue m sym)
  if value = 0 then pure ()
  else modify (defineQuery strCmp sName value)

def assingSymbolTable (fuel : ℕ) (env : LoadingEnv) (symTableHeader : Addr)
    (defs : List LoaderSymbol) : AssignM Unit := do
  let symtable ← lift (sectionHeaderToTable env symTableHeader)
  let link ← lift (fetch fun m => shLink m symTableHeader)
  let strTable ← lift (getSectionTable env (link.setWidth 16) shtStrtab)
  tableIterateQueries symtable (assignSymbol strCmp env defs strTable) fuel symtable.tStart

/-- The body of the loop of `loader_assign_symbols`. -/
def assignSection (fuel : ℕ) (env : LoadingEnv) (defs : List LoaderSymbol) (sheader : Addr) :
    AssignM Unit := do
  let type ← lift (fetch fun m => shType m sheader)
  if type = shtSymtab then assingSymbolTable strCmp fuel env sheader defs
  else pure ()

def loaderAssignSymbols (fuel : ℕ) (env : LoadingEnv) (defs : List LoaderSymbol) : AssignM U16 := do
  let errorId ← AssignM.attempt
    (tableIterateQueries env.rShtable (assignSection strCmp fuel env defs) fuel env.rShtable.tStart)
  pure (errorId.setWidth 16)

/-- The calls of a load, in order, up to the first one that reports an error; what they return. -/
def load (fuel : ℕ) (ramStart : Addr) (defs : List LoaderSymbol) : AssignM (List U16) := do
  let env ← lift (fetch (loaderInit ramStart))
  let sections ← lift (loaderAssignSections fuel env)
  if sections ≠ 0 then pure [sections.setWidth 16]
  else
    let symbols ← loaderAssignSymbols strCmp fuel env defs
    if symbols ≠ 0 then pure [0, symbols]
    else
      let relocations ← lift (rmldApplyRelocations fuel env)
      pure [0, 0, relocations.setWidth 16]

end symbols

/-! ### Sequences -/

namespace AssignM

variable {α β : Type} {m m' : Memory} {queries queries' : List LoaderSymbol} {a : α} {e : U8}
  {f : AssignM α} {g : α → AssignM β} {h : LoaderM α}

theorem bind_apply : (f >>= g) queries m = AssignM.bind f g queries m := rfl

theorem bind_ret (hf : f queries m = (.ret a m', queries')) :
    (f >>= g) queries m = g a queries' m' := by
  rw [bind_apply, AssignM.bind, hf]

theorem bind_thrown (hf : f queries m = (.thrown e m', queries')) :
    (f >>= g) queries m = (.thrown e m', queries') := by
  rw [bind_apply, AssignM.bind, hf]

theorem bind_running (hf : f queries m = (.running, queries')) :
    (f >>= g) queries m = (.running, queries') := by
  rw [bind_apply, AssignM.bind, hf]

theorem lift_apply : lift h queries m = (h m, queries) := rfl

@[simp] theorem fetch_bind {f : Memory → α} :
    (lift (fetch f) >>= g) queries m = g (f m) queries m := rfl

@[simp] theorem update_bind {f : Memory → α × Memory} :
    (lift (update f) >>= g) queries m = g (f m).1 queries (f m).2 := rfl

end AssignM

end KernelTk.Loader
