import KernelTk.Loader.Simulation

/-! # The tables of an image

An image is read where it lies; seen from its first byte (`view`), it is a file, and its tables are
those of `Layout.lean`.

* **Tables.** `TablesApart` : the symbol tables are disjoint from one another, from the section header
  table and from the string tables, and are made of whole entries; a string table has entries of one
  byte.  `SymbolTables` adds that a section header has room for its structure (`HeadersWhole`), without
  which two headers share bytes.
* **Symbols.** `SymbolIn f p` : `p.2` is a symbol of the symbol table `p.1`.  `sectionAt` and `symbolAt` are
  the addresses of the records, `addressWord` and `valueWord` those of the words that are assigned.
* **Words.** The loader stores `sh_addr` in every header and `sy_value` in every symbol; these words
  are disjoint (`SymbolTables.addresses_apart`, `SymbolTables.values_apart`), and it reads nothing else
  in them: a value is in no header and in no string table (`SymbolTables.value_header`,
  `SymbolTables.value_string`), and in a symbol only where the value is (`SymbolTables.value_symbol`).
  All of it follows from the disjointness of records in natural offsets, since the image does not reach
  the end of the address space. -/

namespace KernelTk.Loader

/-! ### Views -/

/-- The memory, seen from an address. -/
def view (base : Addr) (m : Memory) : Memory := fun o => m (base + o)

section view
variable {base a : Addr} {m : Memory} {n : ℕ}

theorem load_view : Bytes.load (view base m) a n = Bytes.load m (base + a) n := by
  apply Bytes.load_congr
  intro i _
  show m (base + (a + _)) = _
  rw [BitVec.add_assoc]

theorem loaderInit_view : loaderInit base m = envAt (view base m) base := by
  refine loaderInit_eq fun d n _ => ?_
  rw [load_view]
  exact congrArg (fun a => Bytes.load m (base + a) n) (BitVec.zero_add _).symm

end view

/-! ### Symbol tables -/

section tables
variable (f : Memory) (size : ℕ)

/-- The symbol tables of a file of `size` bytes are apart. A string table has entries of one byte. -/
structure TablesApart : Prop where
  headersInside : (headers f).stop ≤ size
  inside : ∀ i < (headers f).count,
    shType f (header f i) = shtSymtab ∨ shType f (header f i) = shtStrtab →
      (shOffset f (header f i)).toNat + (shSize f (header f i)).toNat ≤ size
  whole : ∀ i < (headers f).count, shType f (header f i) = shtSymtab →
    (shEntsize f (header f i)).toNat = 0 ∨ 24 ≤ (shEntsize f (header f i)).toNat ∧
      (shSize f (header f i)).toNat % (shEntsize f (header f i)).toNat = 0
  strings : ∀ i < (headers f).count, shType f (header f i) = shtStrtab →
    shEntsize f (header f i) = 1
  apartHeaders : ∀ i < (headers f).count, shType f (header f i) = shtSymtab →
    (headers f).Apart (entries f i)
  apart : ∀ i < (headers f).count, ∀ j < (headers f).count, i ≠ j →
    shType f (header f i) = shtSymtab → shType f (header f j) = shtSymtab →
      (entries f i).Apart (entries f j)
  apartStrings : ∀ i < (headers f).count, ∀ j < (headers f).count,
    shType f (header f i) = shtSymtab → shType f (header f j) = shtStrtab →
      (entries f i).Apart (entries f j)

/-- A header has room for a `struct elf64_shdr`. -/
def HeadersWhole : Prop := 0 < (headers f).count → 64 ≤ (headers f).stride

/-- The tables are apart, and no header lies in another one. -/
structure SymbolTables : Prop extends TablesApart f size where
  headersWhole : HeadersWhole f

/-- The symbol `p.2` of the symbol table `p.1`. -/
def SymbolIn (p : ℕ × ℕ) : Prop :=
  p.1 < (headers f).count ∧ shType f (header f p.1) = shtSymtab ∧ p.2 < (entries f p.1).count

/-- The records of the sections and of the symbols, and the words that are assigned there. -/
def sectionAt (base : Addr) (i : ℕ) : Addr := base + header f i
def symbolAt (base : Addr) (p : ℕ × ℕ) : Addr := base + entry f p.1 p.2
def addressWord (base : Addr) (i : ℕ) : Addr := sectionAt f base i + 16
def valueWord (base : Addr) (p : ℕ × ℕ) : Addr := symbolAt f base p + 8

end tables

section words
variable {f : Memory} {size i k d o : ℕ} {base : Addr} {p q : ℕ × ℕ}

theorem sectionAt_add : sectionAt f base i + off d = base + off ((headers f).offset i d) := by
  unfold sectionAt
  rw [BitVec.add_assoc, header_add]

theorem symbolAt_add : symbolAt f base p + off d = base + off ((entries f p.1).offset p.2 d) := by
  unfold symbolAt
  rw [BitVec.add_assoc, entry_add]

theorem SymbolTables.stop_eq (ht : SymbolTables f size) (hi : i < (headers f).count)
    (hs : shType f (header f i) = shtSymtab) (hent : shEntsize f (header f i) ≠ 0) :
    (entries f i).stop = (shOffset f (header f i)).toNat + (shSize f (header f i)).toNat := by
  rcases ht.whole i hi hs with hnull | ⟨-, hmod⟩
  · exact absurd (BitVec.eq_of_toNat_eq hnull) hent
  · unfold entries Records.Table.stop
    rw [Nat.div_mul_cancel (Nat.dvd_of_mod_eq_zero hmod)]

theorem SymbolTables.stop_le (ht : SymbolTables f size) (hi : i < (headers f).count)
    (hs : shType f (header f i) = shtSymtab) : (entries f i).stop ≤ size := by
  have hinside := ht.inside i hi (.inl hs)
  have hmul := Nat.div_mul_le_self (shSize f (header f i)).toNat (shEntsize f (header f i)).toNat
  show (shOffset f (header f i)).toNat + (shSize f (header f i)).toNat /
    (shEntsize f (header f i)).toNat * (shEntsize f (header f i)).toNat ≤ size
  omega

theorem SymbolTables.stride (ht : SymbolTables f size) (hp : SymbolIn f p) :
    24 ≤ (entries f p.1).stride := by
  rcases ht.whole p.1 hp.1 hp.2.1 with hnull | ⟨hle, -⟩
  · have hcount : (entries f p.1).count = 0 := by
      unfold entries
      rw [hnull, Nat.div_zero]
    have := hp.2.2
    omega
  · exact hle

theorem SymbolTables.holds (ht : SymbolTables f size) (hp : SymbolIn f p) (hd : d < 24) :
    (entries f p.1).Holds ((entries f p.1).offset p.2 d) :=
  Records.Table.holds_offset hp.2.2 (by have := ht.stride hp; omega)

theorem SymbolTables.holds_header (ht : SymbolTables f size) (hi : i < (headers f).count)
    (hd : d < 64) : (headers f).Holds ((headers f).offset i d) :=
  Records.Table.holds_offset hi (by have := ht.headersWhole (by omega); omega)

theorem SymbolTables.offset_lt (ht : SymbolTables f size) (hp : SymbolIn f p) (hd : d < 24) :
    (entries f p.1).offset p.2 d < size := by
  have hheld := (ht.holds hp hd).2
  have hstop := ht.stop_le hp.1 hp.2.1
  omega

theorem SymbolTables.header_offset_lt (ht : SymbolTables f size) (hi : i < (headers f).count)
    (hd : d < 64) : (headers f).offset i d < size := by
  have hheld := (ht.holds_header hi hd).2
  have hstop := ht.headersInside
  omega

/-! ### Words that are assigned -/

theorem SymbolTables.of_valueWord (ht : SymbolTables f size) (hsize : base.toNat + size < 2 ^ 64)
    (hp : SymbolIn f p) (ho : o < size) (h : Bytes.InWord 8 (valueWord f base p) (base + off o)) :
    ∃ l, 8 ≤ l ∧ l < 16 ∧ o = (entries f p.1).offset p.2 l := by
  have hlast := ht.offset_lt hp (d := 15) (by omega)
  have hword : valueWord f base p = base + off ((entries f p.1).offset p.2 8) := symbolAt_add
  rw [hword] at h
  unfold Records.Table.offset at *
  obtain ⟨hlo, hhi⟩ := inWord_off hsize ho (by omega) h
  exact ⟨o - ((entries f p.1).start + p.2 * (entries f p.1).stride), by omega, by omega, by omega⟩

theorem SymbolTables.of_addressWord (ht : SymbolTables f size) (hsize : base.toNat + size < 2 ^ 64)
    (hi : i < (headers f).count) (ho : o < size)
    (h : Bytes.InWord 8 (addressWord f base i) (base + off o)) :
    ∃ l, 16 ≤ l ∧ l < 24 ∧ o = (headers f).offset i l := by
  have hlast := ht.header_offset_lt hi (d := 23) (by omega)
  have hword : addressWord f base i = base + off ((headers f).offset i 16) := sectionAt_add
  rw [hword] at h
  unfold Records.Table.offset at *
  obtain ⟨hlo, hhi⟩ := inWord_off hsize ho (by omega) h
  exact ⟨o - ((headers f).start + i * (headers f).stride), by omega, by omega, by omega⟩

theorem SymbolTables.value_header (ht : SymbolTables f size) (hsize : base.toNat + size < 2 ^ 64)
    (hp : SymbolIn f p) (hi : i < (headers f).count) (hd : d < 64) :
    ¬Bytes.InWord 8 (valueWord f base p) (sectionAt f base i + off d) := by
  intro h
  rw [sectionAt_add] at h
  obtain ⟨l, -, hl, heq⟩ := ht.of_valueWord hsize hp (ht.header_offset_lt hi hd) h
  have hheld := ht.holds hp (d := l) (by omega)
  rw [← heq] at hheld
  exact (ht.apartHeaders p.1 hp.1 hp.2.1).not_holds (ht.holds_header hi hd) hheld

/-- A byte of a symbol that is in a value is in its own. -/
theorem SymbolTables.value_symbol (ht : SymbolTables f size) (hsize : base.toNat + size < 2 ^ 64)
    (hp : SymbolIn f p) (hq : SymbolIn f q) (hd : d < 24)
    (h : Bytes.InWord 8 (valueWord f base p) (symbolAt f base q + off d)) :
    p = q ∧ 8 ≤ d ∧ d < 16 := by
  rw [symbolAt_add] at h
  obtain ⟨l, hlo, hhi, heq⟩ := ht.of_valueWord hsize hp (ht.offset_lt hq hd) h
  have hheld := ht.holds hp (d := l) (by omega)
  rw [← heq] at hheld
  have hheld' := ht.holds hq hd
  have htable : p.1 = q.1 := by
    by_contra hne
    exact (ht.apart p.1 hp.1 q.1 hq.1 hne hp.2.1 hq.2.1).not_holds hheld hheld'
  have hstride := ht.stride hp
  rw [← htable] at heq
  obtain ⟨hrecord, rfl⟩ := Records.Table.offset_inj (by omega) (by omega) heq
  exact ⟨Prod.ext htable hrecord.symm, hlo, hhi⟩

/-- A value is in no string table. -/
theorem SymbolTables.value_string (ht : SymbolTables f size) (hsize : base.toNat + size < 2 ^ 64)
    (hp : SymbolIn f p) (hk : k < (headers f).count) (hs : shType f (header f k) = shtStrtab)
    (ho : o < (shSize f (header f k)).toNat) :
    ¬Bytes.InWord 8 (valueWord f base p) (base + off ((shOffset f (header f k)).toNat + o)) := by
  intro h
  have hinside := ht.inside k hk (.inr hs)
  obtain ⟨l, -, hl, heq⟩ := ht.of_valueWord hsize hp (by omega) h
  have hheld := ht.holds hp (d := l) (by omega)
  rw [← heq] at hheld
  have hone : (shEntsize f (header f k)).toNat = 1 := by
    rw [ht.strings k hk hs]
    rfl
  refine (ht.apartStrings p.1 hp.1 k hk hp.2.1 hs).not_holds hheld ⟨Nat.le_add_right _ _, ?_⟩
  show _ < (shOffset f (header f k)).toNat + (shSize f (header f k)).toNat /
    (shEntsize f (header f k)).toNat * (shEntsize f (header f k)).toNat
  rw [hone, Nat.div_one, Nat.mul_one]
  omega

theorem SymbolTables.values_apart (ht : SymbolTables f size) (hsize : base.toNat + size < 2 ^ 64) :
    Bytes.Apart (valueWord f base) 8 (SymbolIn f) := by
  intro p q b hp hq hbp hbq
  obtain ⟨l, hl, rfl⟩ := hbq.eq_add
  have hbyte : valueWord f base q + BitVec.ofNat 64 l = symbolAt f base q + off (8 + l) := by
    rw [off_add, ← BitVec.add_assoc]
    rfl
  rw [hbyte] at hbp
  exact (ht.value_symbol hsize hp hq (by omega) hbp).1

/-- A byte of a header that is in an address is in its own. -/
theorem SymbolTables.address_header (ht : SymbolTables f size) (hsize : base.toNat + size < 2 ^ 64)
    (hi : i < (headers f).count) (hk : k < (headers f).count) (hd : d < 64)
    (h : Bytes.InWord 8 (addressWord f base i) (sectionAt f base k + off d)) :
    i = k ∧ 16 ≤ d ∧ d < 24 := by
  rw [sectionAt_add] at h
  obtain ⟨l, hlo, hhi, heq⟩ := ht.of_addressWord hsize hi (ht.header_offset_lt hk hd) h
  have hstride := ht.headersWhole (by omega)
  obtain ⟨rfl, rfl⟩ := Records.Table.offset_inj (by omega) (by omega) heq
  exact ⟨rfl, hlo, hhi⟩

theorem SymbolTables.addresses_apart (ht : SymbolTables f size)
    (hsize : base.toNat + size < 2 ^ 64) :
    Bytes.Apart (addressWord f base) 8 (· < (headers f).count) := by
  intro i k b hi hk hbi hbk
  obtain ⟨l, hl, rfl⟩ := hbk.eq_add
  have hbyte : addressWord f base k + BitVec.ofNat 64 l = sectionAt f base k + off (16 + l) := by
    rw [off_add, ← BitVec.add_assoc]
    rfl
  rw [hbyte] at hbi
  exact (ht.address_header hsize hi hk (by omega) hbi).1

theorem SymbolTables.address_symbol (ht : SymbolTables f size) (hsize : base.toNat + size < 2 ^ 64)
    (hi : i < (headers f).count) (hp : SymbolIn f p) (hd : d < 24) :
    ¬Bytes.InWord 8 (addressWord f base i) (symbolAt f base p + off d) := by
  intro h
  rw [symbolAt_add] at h
  obtain ⟨l, -, hl, heq⟩ := ht.of_addressWord hsize hi (ht.offset_lt hp hd) h
  have hheld := ht.holds_header hi (d := l) (by omega)
  rw [← heq] at hheld
  exact (ht.apartHeaders p.1 hp.1 hp.2.1).not_holds hheld (ht.holds hp hd)

end words

end KernelTk.Loader
