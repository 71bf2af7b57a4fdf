import Mathlib.Tactic.TypeStar
import KernelTk.Lib.Bytes

/-! # The memory of the loader

The structures of `elf64.h` and `loader.h`, on a 64-bit little-endian machine, and the way in which the
functions of the loader compute.

* **Image.** The file lies in memory and is changed in place; a `struct` of the file is a pointer
  to its first byte, and a field is read at its offset (`shType`, `shAddr`, `syValue`, `rOffset` and the
  others).  Nothing says that a pointer is in the file: the memory has a byte at every address.
* **Addresses.** A pointer and a `u64` are the same words; sums of addresses wrap, and pointers
  are compared as unsigned numbers.
* **Structures of the loader.** `ElfTable` and `LoadingEnv` are those of `loader.h`, without the error
  context.
* **Errors.** A function that may throw is a `LoaderM`: it returns, throws an error code, or is
  still running when its fuel is exhausted (`Outcome`), and leaves a memory in the first two cases.
  `r_error_ctx`, the context to which `throw_error` jumps, is the `attempt` around the call: it makes an
  error code of what is thrown, and keeps what has been stored before. -/

namespace KernelTk.Loader

abbrev U8 := BitVec 8
abbrev U16 := BitVec 16
abbrev U32 := BitVec 32
abbrev U64 := BitVec 64
abbrev Addr := BitVec 64
abbrev Memory := Bytes.Mem 64

/-! ### Structures of the file -/

section fields
variable (m : Memory) (a : Addr)

/-- Fields of `struct elf64_hdr`. -/
def eShoff : U64 := Bytes.load m (a + 40) 8
def eShentsize : U16 := Bytes.load m (a + 58) 2
def eShnum : U16 := Bytes.load m (a + 60) 2

/-- Fields of `struct elf64_shdr`. -/
def shType : U32 := Bytes.load m (a + 4) 4
def shAddr : U64 := Bytes.load m (a + 16) 8
def shOffset : U64 := Bytes.load m (a + 24) 8
def shSize : U64 := Bytes.load m (a + 32) 8
def shLink : U32 := Bytes.load m (a + 40) 4
def shInfo : U32 := Bytes.load m (a + 44) 4
def shEntsize : U64 := Bytes.load m (a + 56) 8

/-- Fields of `struct elf64_sym`. -/
def syValue : U64 := Bytes.load m (a + 8) 8

/-- Fields of `struct elf64_rela`; the first two are those of `struct elf64_rel`. -/
def rOffset : U64 := Bytes.load m a 8
def rInfo : U64 := Bytes.load m (a + 8) 8
def rAddend : U64 := Bytes.load m (a + 16) 8

end fields

/-- `SHT_PROGBITS`, `SHT_SYMTAB`, `SHT_RELA` and `SHT_REL`. -/
def shtProgbits : U32 := 1
def shtSymtab : U32 := 2
def shtRela : U32 := 4
def shtRel : U32 := 9

/-- `ELF64_R_SYM` and `ELF64_R_TYPE`. -/
def elf64RSym (info : U64) : U32 := (info >>> 32).setWidth 32
def elf64RType (info : U64) : U32 := info.setWidth 32

/-! ### Structures of the loader -/

/-- `struct elf_table`. -/
structure ElfTable where
  tStart : Addr
  tEnd : Addr
  tBsize : U64
deriving DecidableEq

/-- `struct loading_env`. -/
structure LoadingEnv where
  rHdr : Addr
  rShtable : ElfTable
deriving DecidableEq

/-- The error codes of `loader.h`. -/
def loaderErrorBadTableIndex : U8 := 2
def loaderErrBadSectionType : U8 := 3
def loaderErrTypeSectEntsizeNull : U8 := 4
def loaderErrorRelSymbolNullIndex : U8 := 5
def loaderErrorRelSymbolNullAddress : U8 := 6
def loaderErrorRelBadType : U8 := 7
def loaderErrorRelValueOverflow : U8 := 8

/-! ### Functions that throw -/

/-- How a call ends, and the memory it leaves. -/
inductive Outcome (α : Type) where
  | ret (a : α) (m : Memory)
  | thrown (error : U8) (m : Memory)
  | running

/-- A function of the loader. -/
def LoaderM (α : Type) := Memory → Outcome α

namespace LoaderM

variable {α β : Type}

protected def pure (a : α) : LoaderM α := fun m => .ret a m

protected def bind (f : LoaderM α) (g : α → LoaderM β) : LoaderM β := fun m =>
  match f m with
  | .ret a m' => g a m'
  | .thrown e m' => .thrown e m'
  | .running => .running

instance : Monad LoaderM where
  pure := LoaderM.pure
  bind := LoaderM.bind

/-- Read the memory. -/
def fetch (f : Memory → α) : LoaderM α := fun m => .ret (f m) m

/-- Read and write the memory. -/
def update (f : Memory → α × Memory) : LoaderM α := fun m => .ret (f m).1 (f m).2

/-- `loading_error` : jump to the context of the environment with an error code. -/
def loadingError (error : U8) : LoaderM α := fun m => .thrown error m

/-- No fuel is left. -/
def stillRunning : LoaderM α := fun _ => .running

/-- `try ... try_end` : execute the block; the result is the error variable, 0 if nothing was
thrown. -/
def attempt (block : LoaderM Unit) : LoaderM U8 := fun m =>
  match block m with
  | .ret _ m' => .ret 0 m'
  | .thrown e m' => .ret e m'
  | .running => .running

variable {m m' : Memory} {a : α} {e : U8} {f : LoaderM α} {g : α → LoaderM β}

@[simp] theorem pure_apply : (pure a : LoaderM α) m = .ret a m := rfl

theorem bind_apply : (f >>= g) m = LoaderM.bind f g m := rfl

theorem bind_ret (h : f m = .ret a m') : (f >>= g) m = g a m' := by
  rw [bind_apply, LoaderM.bind, h]

theorem bind_thrown (h : f m = .thrown e m') : (f >>= g) m = .thrown e m' := by
  rw [bind_apply, LoaderM.bind, h]

@[simp] theorem fetch_bind {f : Memory → α} : (fetch f >>= g) m = g (f m) m := rfl

@[simp] theorem update_bind {f : Memory → α × Memory} :
    (update f >>= g) m = g (f m).1 (f m).2 := rfl

@[simp] theorem loadingError_apply : (loadingError e : LoaderM α) m = .thrown e m := rfl

@[simp] theorem loadingError_bind : (loadingError e >>= g) m = .thrown e m := rfl

end LoaderM

end KernelTk.Loader
