import KernelTk.Lib.Patch
import KernelTk.Lib.Records
import KernelTk.Loader.Machine

/-! # The layout of a file

A file is read before it lies anywhere: it is a memory whose bytes are numbered by their offset in
the file, and a table of the file is a table of records.

* **Tables.** The section header table is `none`, the table of the section `i` is `some i`. Their
  records hold addresses at some places: `sh_addr` in a header, `sy_value` in a symbol.  These are the
  only bytes of a table that the first two passes change (`Marked`).
* **Well-formed files.** `WellFormed f size` : the tables lie in the file, are made of whole
  records, and are disjoint from one another and from the fields that are relocated.
* **Copies.** `Copy f size base m` : the file lies in the memory at the address `base`;
  `LoadsAt f size base` : nothing wraps there. As long as the tables are `Intact`, the loader reads
  there what the file holds (`Intact.readsHeader`, `Intact.entry_load`).
* **Pointers.** Where nothing wraps, the pointer of an iteration is below the end of its table iff its
  subscript is one of the table (`header_lt`, `entry_lt`): this is what turns the loops over
  addresses into loops over subscripts.
* **Look-ups.** A look-up by subscript may still wrap, whatever the file: it is `ElfTable.Exact` when it
  admits subscripts of the table only, and the check is then one on subscripts
  (`headerAt_lt_iff`, `tableOf_lt_iff`). -/

namespace KernelTk.Loader

open Sweep (check firstFailure)

/-- The address of an offset, for a file that lies at 0. -/
def off (o : ℕ) : Addr := BitVec.ofNat 64 o

section off
variable {o o' : ℕ} {base : Addr}

theorem off_add : off (o + o') = off o + off o' := BitVec.ofNat_add o o'

theorem add_off_zero (a : Addr) : a + off 0 = a := BitVec.add_zero a

theorem off_mul : off (o * o') = off o * off o' := by
  apply BitVec.eq_of_toNat_eq
  simp [off, Nat.mul_mod]

theorem off_toNat {w : ℕ} (v : BitVec w) : off v.toNat = v.setWidth 64 := BitVec.ofNat_toNat 64 v

theorem off_toNat_self (v : U64) : off v.toNat = v := BitVec.ofNat_toNat 64 v |>.trans v.setWidth_eq

theorem toNat_off (h : o < 2 ^ 64) : (off o).toNat = o := by
  unfold off
  rw [BitVec.toNat_ofNat, Nat.mod_eq_of_lt h]

theorem toNat_add_off (h : base.toNat + o < 2 ^ 64) : (base + off o).toNat = base.toNat + o := by
  rw [BitVec.toNat_add, toNat_off (by omega), Nat.mod_eq_of_lt h]

end off

/-! ### Tables -/

section layout
variable (f : Memory)

/-- The section header table. -/
def headers : Records.Table := ⟨(eShoff f 0).toNat, (eShnum f 0).toNat, (eShentsize f 0).toNat⟩

def header (i : ℕ) : Addr := off ((headers f).offset i 0)

/-- The table of a section. -/
def entries (i : ℕ) : Records.Table :=
  ⟨(shOffset f (header f i)).toNat,
    (shSize f (header f i)).toNat / (shEntsize f (header f i)).toNat,
    (shEntsize f (header f i)).toNat⟩

def entry (i j : ℕ) : Addr := off ((entries f i).offset j 0)

/-- The size of the structure that is read in the entries of a section, by type; 0 if the section
is not read as a table. -/
def structSize (type : U32) : ℕ :=
  if type = shtSymtab then 24
  else if type = shtStrtab then 1
  else if type = shtRela then 24
  else if type = shtRel then 16
  else 0

def tables : Option ℕ → Records.Table
  | none => headers f
  | some i => entries f i

/-- The table is one of the file. -/
def Live : Option ℕ → Prop
  | none => True
  | some i => i < (headers f).count ∧ structSize (shType f (header f i)) ≠ 0

/-- The size of the structure that is read in the records of a table. -/
def recordSize : Option ℕ → ℕ
  | none => 64
  | some i => structSize (shType f (header f i))

/-- The records of a table hold an address, and where. -/
def HasAddress : Option ℕ → Prop
  | none => True
  | some i => shType f (header f i) = shtSymtab

def addressPlace : Option ℕ → ℕ
  | none => 16
  | some _ => 8

/-- The byte of a record belongs to its address. -/
def AddressByte (t : Option ℕ) (k : ℕ) : Prop :=
  HasAddress f t ∧ addressPlace t ≤ k ∧ k < addressPlace t + 8

/-- The byte of the file belongs to the address of a record. -/
def Marked (o : ℕ) : Prop := Records.Marked (tables f) (Live f) (AddressByte f) o

/-- The place of the field that an entry relocates. -/
def place (i j : ℕ) : Addr :=
  shOffset f (header f (targetId f (header f i)).toNat) + rOffset f (entry f i j)

variable (size : ℕ)

/-- A file of `size` bytes. -/
structure WellFormed : Prop where
  elfHeader : 64 ≤ size
  headersInside : (headers f).stop ≤ size
  headersWhole : 0 < (headers f).count → 64 ≤ (headers f).stride
  inside : ∀ i < (headers f).count, structSize (shType f (header f i)) ≠ 0 →
    (shOffset f (header f i)).toNat + (shSize f (header f i)).toNat ≤ size
  whole : ∀ i < (headers f).count, structSize (shType f (header f i)) ≠ 0 →
    (shEntsize f (header f i)).toNat = 0 ∨
      structSize (shType f (header f i)) ≤ (shEntsize f (header f i)).toNat ∧
        (shSize f (header f i)).toNat % (shEntsize f (header f i)).toNat = 0
  apartHeaders : ∀ i < (headers f).count, structSize (shType f (header f i)) ≠ 0 →
    (headers f).Apart (entries f i)
  apart : ∀ i < (headers f).count, ∀ j < (headers f).count, i ≠ j →
    structSize (shType f (header f i)) ≠ 0 → structSize (shType f (header f j)) ≠ 0 →
      (entries f i).Apart (entries f j)
  relocated : ∀ i < (headers f).count,
    shType f (header f i) = shtRel ∨ shType f (header f i) = shtRela →
    (targetId f (header f i)).toNat < (headers f).count →
    ∀ j < (entries f i).count, ∀ k < 4, ¬(headers f).Holds (place f i j + off k).toNat ∧
      ∀ t < (headers f).count, structSize (shType f (header f t)) ≠ 0 →
        ¬(entries f t).Holds (place f i j + off k).toNat

/-- At this address, neither the file nor the address of a symbol wraps. -/
structure LoadsAt (base : Addr) : Prop where
  nonnull : base ≠ 0
  image : base.toNat + size < 2 ^ 64
  symbols : ∀ i < (headers f).count, shType f (header f i) = shtSymtab →
    ∀ j < (entries f i).count, located f (entry f i j) →
      (syShndx f (entry f i j)).toNat < (headers f).count →
      base.toNat + (shOffset f (header f (syShndx f (entry f i j)).toNat)).toNat +
        (syValue f (entry f i j)).toNat < 2 ^ 64

variable (base : Addr)

/-- The file lies at this address. -/
def Copy (m : Memory) : Prop := ∀ o < size, m (base + off o) = f (off o)

/-- The environment of a file that lies at this address. -/
def envAt : LoadingEnv :=
  ⟨base, ⟨base + header f 0, base + off (headers f).stop, (eShentsize f 0).setWidth 64⟩⟩

/-- The table of a section of a file that lies at this address. -/
def tableOf (i : ℕ) : ElfTable := tableAt (envAt f base) f (header f i)

/-- The tables hold what they hold in the file, but for their addresses. -/
def Intact (m : Memory) : Prop :=
  ∀ t o, Live f t → (tables f t).Holds o → ¬Marked f o → m (base + off o) = f (off o)

end layout

section reading
variable {f m : Memory} {size i j : ℕ} {base : Addr} {t : Option ℕ}

theorem loaderInit_eq
    (hread : ∀ d n, d + n ≤ 64 → Bytes.load m (base + off d) n = Bytes.load f (0 + off d) n) :
    loaderInit base m = envAt f base := by
  have hshoff : eShoff m base = eShoff f 0 := hread 40 8 (by omega)
  have hshentsize : eShentsize m base = eShentsize f 0 := hread 58 2 (by omega)
  have hshnum : eShnum m base = eShnum f 0 := hread 60 2 (by omega)
  have hstart : header f 0 = eShoff f 0 := by
    unfold header headers Records.Table.offset
    simp only [Nat.zero_mul, Nat.add_zero, off_toNat_self]
  have hstop : off (headers f).stop =
      eShoff f 0 + (eShentsize f 0).setWidth 64 * (eShnum f 0).setWidth 64 := by
    unfold headers Records.Table.stop
    rw [off_add, off_mul, off_toNat_self, off_toNat, off_toNat, BitVec.mul_comm]
  unfold loaderInit envAt
  rw [hshoff, hshentsize, hshnum, hstart, hstop, ← BitVec.add_assoc]

/-! ### Tables of well-formed files -/

theorem WellFormed.disjoint (wf : WellFormed f size) :
    Records.Disjoint (tables f) (Live f) := by
  intro s t o hs ht hso hto
  cases s with
  | none =>
      cases t with
      | none => rfl
      | some j => exact absurd hto ((wf.apartHeaders j ht.1 ht.2).not_holds hso)
  | some i =>
      cases t with
      | none => exact absurd hso ((wf.apartHeaders i hs.1 hs.2).not_holds hto)
      | some j =>
          by_contra hne
          have hij : i ≠ j := fun h => hne (congrArg some h)
          exact (wf.apart i hs.1 j ht.1 hij hs.2 ht.2).not_holds hso hto

/-- The structure that is read lies in the record. -/
theorem WellFormed.recordSize_le (wf : WellFormed f size) (ht : Live f t)
    (hj : j < (tables f t).count) : recordSize f t ≤ (tables f t).stride := by
  cases t with
  | none => exact wf.headersWhole (Nat.zero_lt_of_lt hj)
  | some i =>
      rcases wf.whole i ht.1 ht.2 with hnull | ⟨hle, -⟩
      · have hcount : (tables f (some i)).count = 0 := by
          show (shSize f (header f i)).toNat / (shEntsize f (header f i)).toNat = 0
          rw [hnull, Nat.div_zero]
        omega
      · exact hle

theorem WellFormed.stop_le (wf : WellFormed f size) (ht : Live f t) :
    (tables f t).stop ≤ size := by
  cases t with
  | none => exact wf.headersInside
  | some i =>
      have hinside := wf.inside i ht.1 ht.2
      have hmul := Nat.div_mul_le_self (shSize f (header f i)).toNat
        (shEntsize f (header f i)).toNat
      show (shOffset f (header f i)).toNat + (shSize f (header f i)).toNat /
        (shEntsize f (header f i)).toNat * (shEntsize f (header f i)).toNat ≤ size
      omega

theorem WellFormed.stop_eq (wf : WellFormed f size) (ht : Live f (some i))
    (hent : shEntsize f (header f i) ≠ 0) :
    (entries f i).stop = (shOffset f (header f i)).toNat + (shSize f (header f i)).toNat := by
  rcases wf.whole i ht.1 ht.2 with hnull | ⟨-, hmod⟩
  · exact absurd (BitVec.eq_of_toNat_eq hnull) hent
  · unfold entries Records.Table.stop
    rw [Nat.div_mul_cancel (Nat.dvd_of_mod_eq_zero hmod)]

theorem addressPlace_add_le (h : HasAddress f t) : addressPlace t + 8 ≤ recordSize f t := by
  cases t with
  | none => exact Nat.le_of_ble_eq_true rfl
  | some i =>
      have htype : shType f (header f i) = shtSymtab := h
      show 16 ≤ structSize (shType f (header f i))
      rw [htype]
      decide

/-! ### Pointers -/

theorem add_off_lt {o o' : ℕ} (hsize : base.toNat + size < 2 ^ 64) (ho : o ≤ size) (ho' : o' ≤ size) :
    base + off o < base + off o' ↔ o < o' := by
  rw [BitVec.lt_def, toNat_add_off (by omega), toNat_add_off (by omega)]
  omega

theorem inWord_off {o p n : ℕ} (hsize : base.toNat + size < 2 ^ 64) (ho : o < size)
    (hp : p + n ≤ size) (h : Bytes.InWord n (base + off p) (base + off o)) : p ≤ o ∧ o < p + n := by
  unfold Bytes.InWord at h
  rw [BitVec.toNat_sub, toNat_add_off (by omega), toNat_add_off (by omega)] at h
  omega

theorem header_add (d : ℕ) : header f i + off d = off ((headers f).offset i d) := by
  unfold header
  rw [← off_add]
  rfl

theorem entry_add (d : ℕ) : entry f i j + off d = off ((entries f i).offset j d) := by
  unfold entry
  rw [← off_add]
  rfl

theorem envAt_tBsize : (envAt f base).rShtable.tBsize = off (headers f).stride :=
  (off_toNat (eShentsize f 0)).symm

theorem tableOf_tBsize : (tableOf f base i).tBsize = off (entries f i).stride :=
  (off_toNat_self (shEntsize f (header f i))).symm

theorem header_succ :
    base + header f i + (envAt f base).rShtable.tBsize = base + header f (i + 1) := by
  rw [envAt_tBsize, BitVec.add_assoc]
  unfold header
  rw [Records.Table.offset_succ, off_add]

theorem entry_succ :
    base + entry f i j + (tableOf f base i).tBsize = base + entry f i (j + 1) := by
  rw [tableOf_tBsize, BitVec.add_assoc]
  unfold entry
  rw [Records.Table.offset_succ, off_add]

theorem tableOf_tStart : (tableOf f base i).tStart = base + entry f i 0 := by
  unfold entry entries Records.Table.offset
  simp only [Nat.zero_mul, Nat.add_zero, off_toNat_self]
  rfl

theorem tableOf_tEnd_eq (hstop : (entries f i).stop =
      (shOffset f (header f i)).toNat + (shSize f (header f i)).toNat) :
    (tableOf f base i).tEnd = base + off (entries f i).stop := by
  rw [hstop, off_add, off_toNat_self, off_toNat_self, ← BitVec.add_assoc]
  rfl

theorem tableOf_tEnd (wf : WellFormed f size) (ht : Live f (some i))
    (hent : shEntsize f (header f i) ≠ 0) :
    (tableOf f base i).tEnd = base + off (entries f i).stop :=
  tableOf_tEnd_eq (wf.stop_eq ht hent)

/-- The iteration over the headers ends with the last one. -/
theorem header_lt (hwhole : 0 < (headers f).count → 64 ≤ (headers f).stride)
    (hstop : (headers f).stop ≤ size) (hsize : base.toNat + size < 2 ^ 64)
    (hi : i ≤ (headers f).count) :
    base + header f i < (envAt f base).rShtable.tEnd ↔ i < (headers f).count := by
  have hstride : i < (headers f).count → 0 < (headers f).stride := fun h => by
    have := hwhole (by omega)
    omega
  have hle : (headers f).offset i 0 ≤ (headers f).stop := by
    have := Nat.mul_le_mul_right (headers f).stride hi
    unfold Records.Table.offset Records.Table.stop
    omega
  show base + off _ < base + off _ ↔ _
  rw [add_off_lt hsize (by omega) hstop]
  exact Records.Table.offset_lt_iff hstride

theorem header_lt_iff (wf : WellFormed f size) (fit : LoadsAt f size base)
    (hi : i ≤ (headers f).count) :
    base + header f i < (envAt f base).rShtable.tEnd ↔ i < (headers f).count :=
  header_lt wf.headersWhole wf.headersInside fit.image hi

theorem entry_lt (hend : (tableOf f base i).tEnd = base + off (entries f i).stop)
    (hstop : (entries f i).stop ≤ size) (hsize : base.toNat + size < 2 ^ 64)
    (hent : shEntsize f (header f i) ≠ 0) (hj : j ≤ (entries f i).count) :
    base + entry f i j < (tableOf f base i).tEnd ↔ j < (entries f i).count := by
  have hle : (entries f i).offset j 0 ≤ (entries f i).stop := by
    have := Nat.mul_le_mul_right (entries f i).stride hj
    unfold Records.Table.offset Records.Table.stop
    omega
  rw [hend]
  show base + off _ < base + off _ ↔ _
  rw [add_off_lt hsize (by omega) hstop]
  exact Records.Table.offset_lt_iff fun _ => Word.toNat_pos hent

theorem entry_lt_iff (wf : WellFormed f size) (fit : LoadsAt f size base)
    (ht : Live f (some i)) (hent : shEntsize f (header f i) ≠ 0) (hj : j ≤ (entries f i).count) :
    base + entry f i j < (tableOf f base i).tEnd ↔ j < (entries f i).count :=
  entry_lt (tableOf_tEnd wf ht hent) (wf.stop_le ht) fit.image hent hj

/-! ### Look-ups -/

/-- The check of `__get_table_entry` admits the subscript only if it is one of the table. -/
def ElfTable.Exact (table : ElfTable) (index : U64) : Prop :=
  table.tStart + index * table.tBsize < table.tEnd →
    table.tStart.toNat + index.toNat * table.tBsize.toNat < table.tEnd.toNat

instance (table : ElfTable) (index : U64) : Decidable (table.Exact index) :=
  inferInstanceAs (Decidable (_ → _))

/-- The check is then that of the subscript. -/
theorem ElfTable.Exact.lt_iff {table : ElfTable} {index : U64} (h : table.Exact index) :
    table.tStart + index * table.tBsize < table.tEnd ↔
      table.tStart.toNat + index.toNat * table.tBsize.toNat < table.tEnd.toNat := by
  refine ⟨h, fun hlt => ?_⟩
  have hend := table.tEnd.isLt
  rw [BitVec.lt_def, BitVec.toNat_add, BitVec.toNat_mul, Nat.add_mod_mod,
    Nat.mod_eq_of_lt (by omega)]
  exact hlt

theorem headerAt_envAt (id : U16) : headerAt (envAt f base) id = base + header f id.toNat := by
  unfold headerAt
  rw [envAt_tBsize, ← off_toNat]
  show base + off (_ + 0 * _ + 0) + _ = base + off (_ + _ * _ + 0)
  simp only [Nat.zero_mul, Nat.add_zero, off_add, off_mul, BitVec.add_assoc]

/-- A header is found if its subscript is one of the section header table. -/
theorem headerAt_lt_iff (wf : WellFormed f size) (fit : LoadsAt f size base) {id : U16}
    (hex : (envAt f base).rShtable.Exact (id.setWidth 64)) :
    headerAt (envAt f base) id < (envAt f base).rShtable.tEnd ↔ id.toNat < (headers f).count := by
  have hstride : id.toNat < (headers f).count → 0 < (headers f).stride := fun h => by
    have := wf.headersWhole (by omega)
    omega
  have hstop := wf.headersInside
  have hsize := fit.image
  have hstart : (headers f).offset 0 0 ≤ (headers f).stop := by
    unfold Records.Table.offset Records.Table.stop
    omega
  rw [← Records.Table.offset_lt_iff hstride]
  unfold headerAt
  rw [hex.lt_iff]
  have hstart' : (envAt f base).rShtable.tStart.toNat = base.toNat + (headers f).offset 0 0 :=
    toNat_add_off (by omega)
  have hend : (envAt f base).rShtable.tEnd.toNat = base.toNat + (headers f).stop :=
    toNat_add_off (by omega)
  have hbsize : (envAt f base).rShtable.tBsize.toNat = (headers f).stride := by
    show ((eShentsize f 0).setWidth 64).toNat = (eShentsize f 0).toNat
    rw [BitVec.toNat_setWidth_of_le (by decide)]
  have hid : (id.setWidth 64).toNat = id.toNat := BitVec.toNat_setWidth_of_le (by decide)
  rw [hstart', hend, hbsize, hid]
  unfold Records.Table.offset
  omega

theorem tableOf_lt_iff (wf : WellFormed f size) (fit : LoadsAt f size base)
    (ht : Live f (some i)) (hent : shEntsize f (header f i) ≠ 0) {index : U64}
    (hex : (tableOf f base i).Exact index) :
    (tableOf f base i).tStart + index * (tableOf f base i).tBsize < (tableOf f base i).tEnd ↔
      index.toNat < (entries f i).count := by
  have hstop : (entries f i).stop ≤ size := wf.stop_le ht
  have hsize := fit.image
  have hstart : (entries f i).offset 0 0 ≤ (entries f i).stop := by
    unfold Records.Table.offset Records.Table.stop
    omega
  rw [← Records.Table.offset_lt_iff fun _ => Word.toNat_pos hent, hex.lt_iff, tableOf_tStart,
    tableOf_tEnd wf ht hent]
  have hstart' : (base + entry f i 0).toNat = base.toNat + (entries f i).offset 0 0 :=
    toNat_add_off (by omega)
  have hend : (base + off (entries f i).stop).toNat = base.toNat + (entries f i).stop :=
    toNat_add_off (by omega)
  have hbsize : (tableOf f base i).tBsize.toNat = (entries f i).stride := rfl
  rw [hstart', hend, hbsize]
  unfold Records.Table.offset
  omega

theorem tableOf_entry {index : U64} :
    (tableOf f base i).tStart + index * (tableOf f base i).tBsize =
      base + entry f i index.toNat := by
  rw [tableOf_tStart, tableOf_tBsize]
  show base + off (_ + 0 * _ + 0) + _ = base + off (_ + _ * _ + 0)
  simp only [Nat.zero_mul, Nat.add_zero, off_add, off_mul, BitVec.add_assoc, off_toNat_self]

/-! ### Fields -/

theorem Intact.load (hI : Intact f base m) (wf : WellFormed f size) (ht : Live f t)
    (hj : j < (tables f t).count) (d n : ℕ) (hd : d + n ≤ recordSize f t)
    (hout : HasAddress f t → d + n ≤ addressPlace t ∨ addressPlace t + 8 ≤ d) :
    Bytes.load m (base + off ((tables f t).offset j d)) n =
      Bytes.load f (off ((tables f t).offset j d)) n := by
  have hstride := wf.recordSize_le ht hj
  apply Bytes.load_congr
  intro k hk
  have hbyte : off ((tables f t).offset j d) + BitVec.ofNat 64 k =
      off ((tables f t).offset j (d + k)) := by
    rw [Records.Table.offset_add, off_add]
    rfl
  rw [BitVec.add_assoc, hbyte]
  refine hI t _ ht (Records.Table.holds_offset hj (by omega)) ?_
  rw [Marked, Records.marked_offset_iff wf.disjoint ht hj (by omega)]
  rintro ⟨haddress, hlo, hhi⟩
  rcases hout haddress with h | h <;> omega

/-- What the loader reads in a header. -/
structure ReadsHeader (m : Memory) (a : Addr) (f : Memory) (a' : Addr) : Prop where
  type : shType m a = shType f a'
  offset : shOffset m a = shOffset f a'
  size : shSize m a = shSize f a'
  link : shLink m a = shLink f a'
  info : shInfo m a = shInfo f a'
  entsize : shEntsize m a = shEntsize f a'

theorem readsHeader_of_load {m' : Memory} {a a' : Addr}
    (h : ∀ d n, d + n ≤ 64 → d + n ≤ 16 ∨ 24 ≤ d →
      Bytes.load m (a + off d) n = Bytes.load m' (a' + off d) n) : ReadsHeader m a m' a' :=
  ⟨h 4 4 (by omega) (by omega), h 24 8 (by omega) (by omega), h 32 8 (by omega) (by omega),
    h 40 4 (by omega) (by omega), h 44 4 (by omega) (by omega), h 56 8 (by omega) (by omega)⟩

theorem Intact.readsHeader (hI : Intact f base m) (wf : WellFormed f size)
    (hi : i < (headers f).count) : ReadsHeader m (base + header f i) f (header f i) := by
  apply readsHeader_of_load
  intro d n hd hout
  rw [BitVec.add_assoc, header_add]
  exact hI.load wf (t := none) trivial hi d n hd fun _ => hout

theorem Intact.entry_load (hI : Intact f base m) (wf : WellFormed f size)
    (ht : Live f (some i)) (hj : j < (entries f i).count) (d n : ℕ)
    (hd : d + n ≤ structSize (shType f (header f i)))
    (hout : shType f (header f i) = shtSymtab → d + n ≤ 8 ∨ 16 ≤ d) :
    Bytes.load m (base + entry f i j + off d) n = Bytes.load f (entry f i j + off d) n := by
  rw [BitVec.add_assoc, entry_add]
  exact hI.load wf ht hj d n hd hout

end reading

end KernelTk.Loader
