import KernelTk.Loader.Fields
import KernelTk.Loader.Values

/-! # Linking

What the three passes of the loader leave of a file that lies in memory.

* **Files.** `LinkTables` : what a file must be to be linked.  Its tables are whole and apart, its
  relocations have explicit addends, their symbols and target sections are in the file, and no byte
  belongs to two fields.  All of it can be read in the file before it is loaded.
* **Tables.** After the first two passes the tables are intact, but for the addresses of the sections
  and the values of the symbols (`Passed.intact`).
* **Relocations.** Seen from the file, a relocation is a table and an entry (`RelocationIn`); these are
  the relocations of the image (`LinkTables.inImage_iff`), whose fields are apart from what is read
  (`LinkTables.fieldsApart`).
* **Linkable files.** `Linkable` : symbols that are not null, types that are supported, displacements whose
  magnitude is below `2 ^ 32`.  It is what the checks of the third pass ask for
  (`LinkTables.relocatable`), and no less is enough (`LinkTables.linkable`), unless a displacement is the
  one that has no absolute value.
* **Linked images.** `Linked` : every section has its address, every symbol its value, every field the
  low 32 bits of S + A - P, and nothing else is changed. `load_links` : the third pass leaves such an image
  whenever it applies every relocation.  The proof takes the values from `Values.lean` and the fields
  from `Fields.lean`. -/

namespace KernelTk.Loader

open Sweep (Visits check firstFailure)

/-! ### Files -/

section files
variable (f : Memory) (size : ℕ) (base : Addr)

/-- The entry `q.2` of the relocation table `q.1`. -/
def RelocationIn (q : ℕ × ℕ) : Prop :=
  q.1 < (headers f).count ∧ shType f (header f q.1) = shtRela ∧ q.2 < (entries f q.1).count

/-- The symbol of a relocation. -/
def relocationSymbol (q : ℕ × ℕ) : ℕ × ℕ := (link f q.1, symbolIndex f q.1 q.2)

/-- The address P of its field. -/
def fieldWord (q : ℕ × ℕ) : Addr := base + place f q.1 q.2

/-- What a file must be to be linked: its relocations have explicit addends, their symbols and the
sections that they relocate are in the file, and no byte belongs to two fields. -/
structure LinkTables : Prop where
  wellFormed : WellFormed f size
  strings : ∀ i < (headers f).count, shType f (header f i) = shtStrtab →
    shEntsize f (header f i) = 1
  explicit : ∀ i < (headers f).count, shType f (header f i) ≠ shtRel
  symtab : ∀ i < (headers f).count, shType f (header f i) = shtRela →
    link f i < (headers f).count ∧ shType f (header f (link f i)) = shtSymtab
  target : ∀ i < (headers f).count, shType f (header f i) = shtRela → target f i < (headers f).count
  symbol : ∀ q, RelocationIn f q → symbolIndex f q.1 q.2 < (entries f (link f q.1)).count
  apart : Bytes.Apart (fun q : ℕ × ℕ => place f q.1 q.2) 4 (RelocationIn f)

variable (value : ℕ × ℕ → U64)

/-- S + A - P, when the symbols have these values. -/
def displacement (q : ℕ × ℕ) : U64 :=
  value (relocationSymbol f q) + rAddend f (entry f q.1 q.2) - fieldWord f base q

/-- The relocations can be applied, when the symbols have these values. -/
structure Linkable : Prop where
  tables : ∀ i < (headers f).count, shType f (header f i) = shtRela →
    shEntsize f (header f i) ≠ 0 ∧ shEntsize f (header f (link f i)) ≠ 0 ∧
      shType f (header f (target f i)) = shtProgbits
  symbols : ∀ q, RelocationIn f q → symbolIndex f q.1 q.2 ≠ 0 ∧ value (relocationSymbol f q) ≠ 0
  types : ∀ q, RelocationIn f q → elf64RType (rInfo f (entry f q.1 q.2)) = rAmd64Pc32 ∨
    elf64RType (rInfo f (entry f q.1 q.2)) = rAmd64Plt32
  fits : ∀ q, RelocationIn f q → magnitude (displacement f base value q) 1 < 2 ^ 32

/-- The file that lay in the memory `m` is linked in the memory `m'`. -/
structure Linked (m : Memory) (defs : List LoaderSymbol) (m' : Memory) : Prop where
  sections : ∀ i < (headers f).count, shAddr m' (sectionAt f base i) = base + shOffset f (header f i)
  symbols : ∀ p, SymbolIn f p → FinalValue f base m defs p (syValue m' (symbolAt f base p))
  fields : ∀ q, RelocationIn f q → Bytes.load m' (fieldWord f base q) 4 =
    (displacement f base (fun p => syValue m' (symbolAt f base p)) q).setWidth (8 * 4)
  unchanged : ∀ a, (∀ i < (headers f).count, ¬Bytes.InWord 8 (addressWord f base i) a) →
    (∀ p, SymbolIn f p → ¬Bytes.InWord 8 (valueWord f base p) a) →
    (∀ q, RelocationIn f q → ¬Bytes.InWord 4 (fieldWord f base q) a) → m' a = m a

end files

/-! ### The first two passes -/

section passed
variable {f m m₁ m₂ : Memory} {size i j o : ℕ} {base : Addr} {defs : List LoaderSymbol}
  {p : ℕ × ℕ} {s : List U8} {t : Option ℕ}

theorem LinkTables.symbolTables (lt : LinkTables f size) : SymbolTables f size := by
  have wf := lt.wellFormed
  have hsym : structSize shtSymtab ≠ 0 := by decide
  have hstr : structSize shtStrtab ≠ 0 := by decide
  refine ⟨⟨wf.headersInside, fun i hi ht => wf.inside i hi ?_, fun i hi ht => ?_, lt.strings,
    fun i hi ht => wf.apartHeaders i hi ?_, fun i hi j hj hne hti htj => ?_,
    fun i hi j hj hti htj => ?_⟩, wf.headersWhole⟩
  · rcases ht with ht | ht <;> rw [ht]
    · exact hsym
    · exact hstr
  · have hwhole := wf.whole i hi (by rw [ht]; exact hsym)
    rw [ht] at hwhole
    exact hwhole
  · rw [ht]
    exact hsym
  · exact wf.apart i hi j hj hne (by rw [hti]; exact hsym) (by rw [htj]; exact hsym)
  · refine wf.apart i hi j hj ?_ (by rw [hti]; exact hsym) (by rw [htj]; exact hstr)
    rintro rfl
    exact absurd (hti.symm.trans htj) (by decide)

/-- What the first two passes leave of a file: nothing is changed but the addresses of the sections and
the values of the symbols. -/
structure Passed (f : Memory) (base : Addr) (m m₂ : Memory) (defs : List LoaderSymbol) : Prop where
  sections : ∀ i < (headers f).count,
    shAddr m₂ (sectionAt f base i) = base + shOffset f (header f i)
  symbols : ∀ p, SymbolIn f p → ValueOf f base m defs p (syValue m₂ (symbolAt f base p))
  unchanged : ∀ a, (∀ i < (headers f).count, ¬Bytes.InWord 8 (addressWord f base i) a) →
    (∀ p, SymbolIn f p → ¬Bytes.InWord 8 (valueWord f base p) a) → m₂ a = m a

/-- A byte that is of no address is in no word that is assigned. -/
theorem SymbolTables.not_inWord (ht : SymbolTables f size) (hsize : base.toNat + size < 2 ^ 64)
    (ho : o < size) (hmark : ¬Marked f o) :
    (∀ i < (headers f).count, ¬Bytes.InWord 8 (addressWord f base i) (base + off o)) ∧
      ∀ p, SymbolIn f p → ¬Bytes.InWord 8 (valueWord f base p) (base + off o) := by
  constructor
  · intro i hi hin
    obtain ⟨l, hlo, hhi, rfl⟩ := ht.of_addressWord hsize hi ho hin
    have hstride := ht.headersWhole (Nat.zero_lt_of_lt hi)
    exact hmark ⟨none, i, l, trivial, hi, by show l < (headers f).stride; omega,
      ⟨trivial, hlo, hhi⟩, rfl⟩
  · intro p hp hin
    obtain ⟨l, hlo, hhi, rfl⟩ := ht.of_valueWord hsize hp ho hin
    have hstride := ht.stride hp
    exact hmark ⟨some p.1, p.2, l, live_symtab hp.1 hp.2.1, hp.2.2,
      by show l < (entries f p.1).stride; omega, ⟨hp.2.1, hlo, hhi⟩, rfl⟩

theorem LinkTables.string_unmarked (lt : LinkTables f size) (hi : i < (headers f).count)
    (ht : shType f (header f i) = shtStrtab) (ho : o < (shSize f (header f i)).toNat) :
    (shOffset f (header f i)).toNat + o < size ∧ ¬Marked f ((shOffset f (header f i)).toNat + o) := by
  have hlive : Live f (some i) := ⟨hi, by rw [ht]; decide⟩
  have hone : shEntsize f (header f i) ≠ 0 := by
    rw [lt.strings i hi ht]
    decide
  have hstop := lt.wellFormed.stop_eq hlive hone
  have hinside := lt.wellFormed.inside i hi hlive.2
  refine ⟨by omega, Records.not_marked_of_holds lt.wellFormed.disjoint hlive ⟨Nat.le_add_right _ _, ?_⟩
    fun l hl => ?_⟩
  · show _ < (entries f i).stop
    omega
  · have htype : shType f (header f i) = shtSymtab := hl.1
    exact absurd (ht.symm.trans htype) (by decide)

theorem LinkTables.bearsName_iff (lt : LinkTables f size)
    (h : ∀ o < size, ¬Marked f o → m₁ (base + off o) = m (base + off o)) :
    BearsName f base m₁ p s ↔ BearsName f base m p s := by
  have hbytes : ∀ k, Loader.strings f p.1 < (headers f).count →
      shType f (header f (Loader.strings f p.1)) = shtStrtab →
      (syName f (entry f p.1 p.2)).toNat + k < (shSize f (header f (Loader.strings f p.1))).toNat →
      m₁ (base + off (nameOffset f p) + off k) = m (base + off (nameOffset f p) + off k) := by
    intro k hlink ht hk
    obtain ⟨hlt, hmark⟩ := lt.string_unmarked hlink ht hk
    rw [BitVec.add_assoc, ← off_add, nameOffset, Nat.add_assoc]
    exact h _ hlt hmark
  constructor
  · exact fun hs => ⟨hs.link, hs.type, hs.ends, hs.holds.congr fun k hk =>
      hbytes k hs.link hs.type (by have := hs.ends; omega)⟩
  · exact fun hs => ⟨hs.link, hs.type, hs.ends, hs.holds.congr fun k hk =>
      (hbytes k hs.link hs.type (by have := hs.ends; omega)).symm⟩

/-- **The first two passes** of a load that succeed. -/
theorem passed {strCmp : Memory → Addr → List U8 → ℤ} {fuel₁ fuel₂ : ℕ}
    {queries queries' : List LoaderSymbol} (hcmp : ComparesStrings strCmp)
    (hdefs : ∀ d ∈ defs, 0 ∉ d.sName) (hsize : base.toNat + size < 2 ^ 64)
    (lt : LinkTables (view base m) size)
    (hsections : loaderAssignSections fuel₁ (loaderInit base m) m = .ret 0 m₁)
    (hsymbols : loaderAssignSymbols strCmp fuel₂ (loaderInit base m) defs queries m₁ =
      (.ret 0 m₂, queries')) :
    Passed (view base m) base m m₂ defs := by
  have ht := lt.symbolTables
  have hpatch := ht.addresses_patched hsize hsections
  have ha := ht.sectionsAssigned hsize hsections
  obtain ⟨n, hn⟩ := loaderAssignSymbols_run hsymbols
  rw [loaderInit_view] at hn
  have hdone := completed ht hsize ha hcmp hdefs (congrArg Config.point hn)
  have hend : Walked (view base m) base m₁ defs (.relocations 0)
      ⟨.applyRelocations (sectionAt (view base m) base 0), m₂, queries'⟩ := by
    rw [← hdone.last]
    exact (congrArg (Walked (view base m) base m₁ defs _) hn).mp (hdone.walked n (Nat.le_refl n))
  refine ⟨fun i hi => ?_, fun p hp => ?_, fun a haddress hvalue => ?_⟩
  · exact shAddr_of_values ht hsize hend.outside ha hi
  · have hvalue := hend.values p ⟨hp, trivial⟩
    refine ⟨fun hundef s hs => hvalue.imported hundef s ?_, hvalue.located, hvalue.reserved⟩
    refine (lt.bearsName_iff fun o ho hmark => ?_).mpr hs
    exact hpatch.outside _ fun i hi => (ht.not_inWord hsize ho hmark).1 i hi
  · refine (hend.outside a fun p hp => hvalue p hp.1).trans (hpatch.outside a haddress)

/-- **The tables are intact**, but for their addresses. -/
theorem Passed.intact (h : Passed (view base m) base m m₂ defs) (lt : LinkTables (view base m) size)
    (hsize : base.toNat + size < 2 ^ 64) : Intact (view base m) base m₂ := by
  intro t o ht ho hmark
  have hlt : o < size := Nat.lt_of_lt_of_le ho.2 (lt.wellFormed.stop_le ht)
  obtain ⟨haddress, hvalue⟩ := lt.symbolTables.not_inWord hsize hlt hmark
  exact h.unchanged _ haddress hvalue

end passed

/-! ### The relocations of the image -/

section relocations
variable {f m m₂ m₃ : Memory} {size i j : ℕ} {base a : Addr} {defs : List LoaderSymbol} {q : ℕ × ℕ}
  {hdr rel : Addr} {r : Relocation}

/-- The relocation in the image. -/
def relocationAt (f : Memory) (base : Addr) (q : ℕ × ℕ) : Relocation :=
  ⟨sectionAt f base q.1, base + entry f q.1 q.2⟩

theorem headers_progression (i : ℕ) : (envAt f base).rShtable.tStart +
    BitVec.ofNat 64 i * (envAt f base).rShtable.tBsize = sectionAt f base i := by
  rw [envAt_tBsize]
  show base + off (_ + 0 * _ + 0) + off i * _ = base + off (_ + i * _ + 0)
  simp only [Nat.zero_mul, Nat.add_zero, off_add, off_mul, BitVec.add_assoc]

theorem entries_progression (i j : ℕ) : (tableOf f base i).tStart +
    BitVec.ofNat 64 j * (tableOf f base i).tBsize = base + entry f i j := by
  rw [tableOf_tStart, tableOf_tBsize]
  show base + off (_ + 0 * _ + 0) + off j * _ = base + off (_ + j * _ + 0)
  simp only [Nat.zero_mul, Nat.add_zero, off_add, off_mul, BitVec.add_assoc]

theorem LinkTables.visits_headers (lt : LinkTables f size) (base : Addr)
    (hsize : base.toNat + size < 2 ^ 64) :
    Visits (envAt f base).rShtable.tEnd (envAt f base).rShtable.tBsize
      (envAt f base).rShtable.tStart (Sweep.progression (envAt f base).rShtable.tBsize
        (envAt f base).rShtable.tStart (headers f).count) := by
  have hlt : ∀ i ≤ (headers f).count,
      sectionAt f base i < (envAt f base).rShtable.tEnd ↔ i < (headers f).count :=
    fun i hi => header_lt lt.wellFormed.headersWhole lt.wellFormed.headersInside hsize hi
  rw [Sweep.visits_progression_iff]
  simp only [headers_progression]
  exact ⟨fun i hi => (hlt i (Nat.le_of_lt hi)).mpr hi,
    fun h => Nat.lt_irrefl _ ((hlt _ (Nat.le_refl _)).mp h)⟩

theorem LinkTables.listed_iff (lt : LinkTables f size) (hsize : base.toNat + size < 2 ^ 64) :
    Listed (envAt f base) hdr ↔ ∃ i < (headers f).count, hdr = sectionAt f base i := by
  have hv := lt.visits_headers base hsize
  have hmem : hdr ∈ Sweep.progression (envAt f base).rShtable.tBsize
      (envAt f base).rShtable.tStart (headers f).count ↔
        ∃ i < (headers f).count, hdr = sectionAt f base i := by
    rw [Sweep.mem_progression]
    simp only [headers_progression, eq_comm]
  rw [← hmem]
  constructor
  · rintro ⟨l, hv', hl⟩
    rwa [hv.unique hv']
  · exact fun h => ⟨_, hv, h⟩

theorem live_rela (hi : i < (headers f).count) (ht : shType f (header f i) = shtRela) :
    Live f (some i) := by
  refine ⟨hi, ?_⟩
  rw [ht]
  decide

theorem LinkTables.visits_entries (lt : LinkTables f size) (base : Addr) (hsize : base.toNat + size < 2 ^ 64)
    (hi : i < (headers f).count) (ht : shType f (header f i) = shtRela)
    (hent : shEntsize f (header f i) ≠ 0) :
    Visits (tableOf f base i).tEnd (tableOf f base i).tBsize (tableOf f base i).tStart
      (Sweep.progression (tableOf f base i).tBsize (tableOf f base i).tStart (entries f i).count) := by
  have hlive := live_rela hi ht
  have hlt : ∀ j ≤ (entries f i).count,
      base + entry f i j < (tableOf f base i).tEnd ↔ j < (entries f i).count :=
    fun j hj => entry_lt (tableOf_tEnd lt.wellFormed hlive hent) (lt.wellFormed.stop_le hlive) hsize
      hent hj
  rw [Sweep.visits_progression_iff]
  simp only [entries_progression]
  exact ⟨fun j hj => (hlt j (Nat.le_of_lt hj)).mpr hj,
    fun h => Nat.lt_irrefl _ ((hlt _ (Nat.le_refl _)).mp h)⟩

/-- A pointer that does not move visits nothing. -/
theorem visits_zero {stop : Addr} {l : List Addr} (h : Visits stop 0 a l) : l = [] := by
  induction h with
  | done => rfl
  | @next a l hlt hrest ih =>
      subst ih
      have hback : a + 0 = a := BitVec.add_zero a
      cases hrest with
      | done hstop => exact absurd (hback.symm ▸ hlt) hstop

theorem LinkTables.entryOf_iff (lt : LinkTables f size) (hsize : base.toNat + size < 2 ^ 64)
    (hI : Intact f base m₂) (hi : i < (headers f).count) (ht : shType f (header f i) = shtRela) :
    EntryOf (envAt f base) m₂ (sectionAt f base i) rel ↔
      ∃ j < (entries f i).count, rel = base + entry f i j := by
  have htable : tableAt (envAt f base) m₂ (sectionAt f base i) = tableOf f base i :=
    (hI.readsHeader lt.wellFormed hi).tableAt
  unfold EntryOf
  rw [htable]
  by_cases hent : shEntsize f (header f i) = 0
  · have hcount : (entries f i).count = 0 := by
      show (shSize f (header f i)).toNat / (shEntsize f (header f i)).toNat = 0
      rw [hent]
      exact Nat.div_zero _
    have hzero : (tableOf f base i).tBsize = 0 := hent
    constructor
    · rintro ⟨l, hv, hl⟩
      rw [hzero] at hv
      rw [visits_zero hv] at hl
      exact absurd hl List.not_mem_nil
    · rintro ⟨j, hj, -⟩
      omega
  · have hv := lt.visits_entries base hsize hi ht hent
    have hmem : rel ∈ Sweep.progression (tableOf f base i).tBsize (tableOf f base i).tStart
        (entries f i).count ↔ ∃ j < (entries f i).count, rel = base + entry f i j := by
      rw [Sweep.mem_progression]
      simp only [entries_progression, eq_comm]
    rw [← hmem]
    constructor
    · rintro ⟨l, hv', hl⟩
      rwa [hv.unique hv']
    · exact fun h => ⟨_, hv, h⟩

/-- **The relocations of the image** are those of the file. -/
theorem LinkTables.inImage_iff (lt : LinkTables f size) (hsize : base.toNat + size < 2 ^ 64)
    (hI : Intact f base m₂) :
    r.InImage (envAt f base) m₂ ↔ ∃ q, RelocationIn f q ∧ r = relocationAt f base q := by
  constructor
  · rintro ⟨hl, ht, he⟩
    obtain ⟨hdr, rel⟩ := r
    obtain ⟨i, hi, rfl⟩ := (lt.listed_iff hsize).mp hl
    have htype := (hI.readsHeader lt.wellFormed hi).type
    have hrela : shType f (header f i) = shtRela :=
      htype ▸ ht.resolve_left fun h => lt.explicit i hi (htype.symm.trans h)
    obtain ⟨j, hj, rfl⟩ := (lt.entryOf_iff hsize hI hi hrela).mp he
    exact ⟨(i, j), ⟨hi, hrela, hj⟩, rfl⟩
  · rintro ⟨q, ⟨hi, ht, hj⟩, rfl⟩
    refine ⟨(lt.listed_iff hsize).mpr ⟨q.1, hi, rfl⟩, .inr ?_,
      (lt.entryOf_iff hsize hI hi ht).mpr ⟨q.2, hj, rfl⟩⟩
    exact (hI.readsHeader lt.wellFormed hi).type.trans ht

/-! ### What a relocation reads -/

section reads
variable (lt : LinkTables f size) (hI : Intact f base m₂) (hq : RelocationIn f q)

include lt hI hq

theorem load_relocation (d n : ℕ) (hd : d + n ≤ 24) :
    Bytes.load m₂ (base + entry f q.1 q.2 + off d) n = Bytes.load f (entry f q.1 q.2 + off d) n :=
  hI.entry_load lt.wellFormed (live_rela hq.1 hq.2.1) hq.2.2 d n (by rw [hq.2.1]; exact hd)
    fun ht => absurd (hq.2.1.symm.trans ht) (by decide)

theorem rOffset_relocationAt :
    rOffset m₂ (base + entry f q.1 q.2) = rOffset f (entry f q.1 q.2) := by
  have h := load_relocation lt hI hq 0 8 (by omega)
  rwa [add_off_zero, add_off_zero] at h

theorem rInfo_relocationAt : rInfo m₂ (base + entry f q.1 q.2) = rInfo f (entry f q.1 q.2) :=
  load_relocation lt hI hq 8 8 (by omega)

theorem rAddend_relocationAt :
    rAddend m₂ (base + entry f q.1 q.2) = rAddend f (entry f q.1 q.2) :=
  load_relocation lt hI hq 16 8 (by omega)

omit lt hq in
theorem symtabHdr_sectionAt (wf : WellFormed f size) (hi : i < (headers f).count) :
    symtabHdr (envAt f base) m₂ (sectionAt f base i) = sectionAt f base (link f i) := by
  have hlink := (hI.readsHeader wf hi).symtabId
  unfold symtabHdr sectionAt
  rw [hlink]
  exact headerAt_link

omit lt hq in
theorem relSectHdr_sectionAt (wf : WellFormed f size) (hi : i < (headers f).count) :
    relSectHdr (envAt f base) m₂ (sectionAt f base i) = sectionAt f base (target f i) := by
  have htarget := (hI.readsHeader wf hi).targetId
  unfold relSectHdr sectionAt
  rw [htarget]
  exact headerAt_target

theorem symtbl_relocationAt :
    tableAt (envAt f base) m₂ (symtabHdr (envAt f base) m₂ (sectionAt f base q.1)) =
      tableOf f base (link f q.1) := by
  rw [symtabHdr_sectionAt hI lt.wellFormed hq.1]
  exact (hI.readsHeader lt.wellFormed (lt.symtab q.1 hq.1 hq.2.1).1).tableAt

theorem sym_relocationAt : (relocationAt f base q).sym (envAt f base) m₂ =
    symbolAt f base (relocationSymbol f q) := by
  show symbolOf (tableAt _ m₂ (symtabHdr _ m₂ (sectionAt f base q.1))) (base + entry f q.1 q.2) m₂ = _
  rw [symtbl_relocationAt lt hI hq, symbolOf, rInfo_relocationAt lt hI hq, tableOf_entry,
    BitVec.toNat_setWidth_of_le (by decide)]
  rfl

variable (ha : ∀ i < (headers f).count,
  shAddr m₂ (sectionAt f base i) = base + shOffset f (header f i))

include ha

theorem place_relocationAt :
    (relocationAt f base q).place (envAt f base) m₂ = fieldWord f base q := by
  show shAddr m₂ (relSectHdr (envAt f base) m₂ (sectionAt f base q.1)) +
    rOffset m₂ (base + entry f q.1 q.2) = base + place f q.1 q.2
  rw [relSectHdr_sectionAt hI lt.wellFormed hq.1, ha _ (lt.target q.1 hq.1 hq.2.1),
    rOffset_relocationAt lt hI hq, BitVec.add_assoc]
  rfl

theorem field_relocationAt : (relocationAt f base q).field (envAt f base) m₂ =
    (displacement f base (fun p => syValue m₂ (symbolAt f base p)) q).setWidth (8 * 4) := by
  show (syValue m₂ ((relocationAt f base q).sym (envAt f base) m₂) +
    rAddend m₂ (base + entry f q.1 q.2) - (relocationAt f base q).place (envAt f base) m₂).setWidth _ = _
  rw [place_relocationAt lt hI hq ha, sym_relocationAt lt hI hq, rAddend_relocationAt lt hI hq]
  rfl

end reads

/-! ### Fields and tables -/

theorem LinkTables.symbolIn (lt : LinkTables f size) (hq : RelocationIn f q) :
    SymbolIn f (relocationSymbol f q) := by
  obtain ⟨hlink, ht⟩ := lt.symtab q.1 hq.1 hq.2.1
  exact ⟨hlink, ht, lt.symbol q hq⟩

/-- A field is in no table. -/
theorem LinkTables.field_not_held (lt : LinkTables f size) (hsize : base.toNat + size < 2 ^ 64)
    {t : Option ℕ} {o : ℕ} (hq : RelocationIn f q) (ht : Live f t) (ho : (tables f t).Holds o) :
    ¬Bytes.InWord 4 (fieldWord f base q) (base + off o) := by
  intro hin
  have hlt : o < size := Nat.lt_of_lt_of_le ho.2 (lt.wellFormed.stop_le ht)
  obtain ⟨k, hk, hbyte⟩ := hin.eq_add
  have hoff : off o = place f q.1 q.2 + off k := by
    rw [fieldWord, BitVec.add_assoc] at hbyte
    exact (BitVec.add_right_inj base).mp hbyte
  have hnat : (place f q.1 q.2 + off k).toNat = o := by
    rw [← hoff, toNat_off (by omega)]
  have hout := lt.wellFormed.relocated q.1 hq.1 (.inr hq.2.1) (lt.target q.1 hq.1 hq.2.1) q.2 hq.2.2 k hk
  rw [hnat] at hout
  cases t with
  | none => exact hout.1 ho
  | some i => exact hout.2 i ht.1 ht.2 ho

theorem LinkTables.fields_apart (lt : LinkTables f size) :
    Bytes.Apart (fieldWord f base) 4 (RelocationIn f) := by
  have hshift : ∀ x b : Addr, Bytes.InWord 4 (base + x) b → Bytes.InWord 4 x (b - base) := by
    intro x b h
    unfold Bytes.InWord at h ⊢
    rwa [show b - base - x = b - (base + x) by grind]
  exact fun q q' b hq hq' h h' => lt.apart q q' _ hq hq' (hshift _ b h) (hshift _ b h')

theorem LinkTables.record_held (lt : LinkTables f size) (hsize : base.toNat + size < 2 ^ 64)
    (hI : Intact f base m₂) {n : ℕ} {b : Addr} (h : Record (envAt f base) m₂ a n)
    (hb : Bytes.InWord n a b) : ∃ t o, Live f t ∧ (tables f t).Holds o ∧ b = base + off o := by
  have wf := lt.wellFormed
  obtain ⟨d, hd, rfl⟩ := hb.eq_add
  have hheader : ∀ i < (headers f).count, d < 64 →
      ∃ t o, Live f t ∧ (tables f t).Holds o ∧ sectionAt f base i + off d = base + off o :=
    fun i hi hd => ⟨none, _, trivial, lt.symbolTables.holds_header hi hd, sectionAt_add⟩
  -- the header of a section that holds relocations
  have hrela : ∀ i < (headers f).count, HoldsRelocations m₂ (sectionAt f base i) →
      shType f (header f i) = shtRela := by
    intro i hi ht
    have htype := (hI.readsHeader wf hi).type
    exact htype ▸ ht.resolve_left fun h => lt.explicit i hi (htype.symm.trans h)
  cases h with
  | header hl =>
      obtain ⟨i, hi, rfl⟩ := (lt.listed_iff hsize).mp hl
      exact hheader i hi hd
  | symtab hl ht =>
      obtain ⟨i, hi, rfl⟩ := (lt.listed_iff hsize).mp hl
      rw [symtabHdr_sectionAt hI wf hi]
      exact hheader _ (lt.symtab i hi (hrela i hi ht)).1 hd
  | relSect hl ht =>
      obtain ⟨i, hi, rfl⟩ := (lt.listed_iff hsize).mp hl
      rw [relSectHdr_sectionAt hI wf hi]
      exact hheader _ (lt.target i hi (hrela i hi ht)) hd
  | entry hr =>
      obtain ⟨q, hq, rfl⟩ := (lt.inImage_iff hsize hI).mp hr
      have hlive := live_rela hq.1 hq.2.1
      have hstride := wf.recordSize_le hlive hq.2.2
      have hrecord : recordSize f (some q.1) = 24 := by
        show structSize (shType f (header f q.1)) = 24
        rw [hq.2.1]
        rfl
      refine ⟨some q.1, _, hlive, Records.Table.holds_offset hq.2.2 (k := d) (by omega), ?_⟩
      show base + entry f q.1 q.2 + off d = _
      rw [BitVec.add_assoc, entry_add]
      rfl
  | symbol hr =>
      obtain ⟨q, hq, rfl⟩ := (lt.inImage_iff hsize hI).mp hr
      have hp := lt.symbolIn hq
      rw [sym_relocationAt lt hI hq]
      exact ⟨some _, _, live_symtab hp.1 hp.2.1, lt.symbolTables.holds hp hd, symbolAt_add⟩

/-- **The fields of the image are apart.** -/
theorem LinkTables.fieldsApart (lt : LinkTables f size) (hsize : base.toNat + size < 2 ^ 64)
    (hI : Intact f base m₂)
    (ha : ∀ i < (headers f).count, shAddr m₂ (sectionAt f base i) = base + shOffset f (header f i)) :
    FieldsApart (envAt f base) m₂ := by
  constructor
  · intro r r' b hr hr' hb hb'
    obtain ⟨q, hq, rfl⟩ := (lt.inImage_iff hsize hI).mp hr
    obtain ⟨q', hq', rfl⟩ := (lt.inImage_iff hsize hI).mp hr'
    rw [place_relocationAt lt hI hq ha] at hb
    rw [place_relocationAt lt hI hq' ha] at hb'
    rw [lt.fields_apart q q' b hq hq' hb hb']
  · intro r hr a n hrec b hb hin
    obtain ⟨q, hq, rfl⟩ := (lt.inImage_iff hsize hI).mp hr
    rw [place_relocationAt lt hI hq ha] at hb
    obtain ⟨t, o, ht, ho, rfl⟩ := lt.record_held hsize hI hrec hin
    exact lt.field_not_held hsize hq ht ho hb

/-! ### When the relocations can be applied -/

theorem LinkTables.tableChecks_iff (lt : LinkTables f size) (hsize : base.toNat + size < 2 ^ 64)
    (hI : Intact f base m₂) (hi : i < (headers f).count) (ht : shType f (header f i) = shtRela) :
    firstFailure (tableChecks (envAt f base) m₂ (sectionAt f base i)) = none ↔
      shEntsize f (header f i) ≠ 0 ∧ shEntsize f (header f (link f i)) ≠ 0 ∧
        shType f (header f (Loader.target f i)) = shtProgbits := by
  have wf := lt.wellFormed
  obtain ⟨hlink, hsymtab⟩ := lt.symtab i hi ht
  have htarget := lt.target i hi ht
  have hr := hI.readsHeader wf hi
  have hrlink := hI.readsHeader wf hlink
  have hrtarget := hI.readsHeader wf htarget
  have hin : ∀ k < (headers f).count, base + header f k < (envAt f base).rShtable.tEnd :=
    fun k hk => (header_lt wf.headersWhole wf.headersInside hsize (Nat.le_of_lt hk)).mpr hk
  unfold tableChecks headerChecks entsizeChecks indexChecks sectionAt
  rw [hr.symtabId, hr.targetId, headerAt_link, headerAt_target, hr.entsize, hrlink.type,
    hrlink.entsize, hrtarget.type]
  simp only [Sweep.firstFailure_append_eq_none, Sweep.firstFailure_check_eq_none, hin _ hlink,
    hin _ htarget, hsymtab, true_and, and_true, and_assoc]

theorem LinkTables.checks_iff (lt : LinkTables f size) (hsize : base.toNat + size < 2 ^ 64)
    (hI : Intact f base m₂)
    (ha : ∀ i < (headers f).count, shAddr m₂ (sectionAt f base i) = base + shOffset f (header f i))
    (hq : RelocationIn f q) :
    firstFailure ((relocationAt f base q).checks (envAt f base) m₂) = none ↔
      (symbolIndex f q.1 q.2 ≠ 0 ∧ syValue m₂ (symbolAt f base (relocationSymbol f q)) ≠ 0) ∧
      (elf64RType (rInfo f (entry f q.1 q.2)) = rAmd64Pc32 ∨
        elf64RType (rInfo f (entry f q.1 q.2)) = rAmd64Plt32) ∧
      Accepted (displacement f base (fun p => syValue m₂ (symbolAt f base p)) q) := by
  have hp := lt.symbolIn hq
  have hent : shEntsize f (header f (link f q.1)) ≠ 0 := by
    intro hzero
    have hcount : (entries f (link f q.1)).count = 0 := by
      show (shSize f _).toNat / (shEntsize f (header f (link f q.1))).toNat = 0
      rw [hzero]
      exact Nat.div_zero _
    have hlt := lt.symbol q hq
    omega
  have hlive := live_symtab hp.1 hp.2.1
  have hin : symbolAt f base (relocationSymbol f q) < (tableOf f base (link f q.1)).tEnd :=
    (entry_lt (tableOf_tEnd lt.wellFormed hlive hent) (lt.wellFormed.stop_le hlive) hsize hent
      (Nat.le_of_lt hp.2.2)).mpr hp.2.2
  have hsym : symbolOf (tableOf f base (link f q.1)) (base + entry f q.1 q.2) m₂ =
      symbolAt f base (relocationSymbol f q) := by
    rw [← symtbl_relocationAt lt hI hq]
    exact sym_relocationAt lt hI hq
  have hplace := place_relocationAt lt hI hq ha
  have hindex : elf64RSym (rInfo f (entry f q.1 q.2)) ≠ 0 ↔ symbolIndex f q.1 q.2 ≠ 0 :=
    not_congr ⟨fun h => congrArg BitVec.toNat h, fun h => BitVec.eq_of_toNat_eq h⟩
  show firstFailure (entryChecks true (tableAt _ m₂ (symtabHdr _ m₂ (sectionAt f base q.1)))
    (shAddr m₂ (relSectHdr _ m₂ (sectionAt f base q.1))) (base + entry f q.1 q.2) m₂) = none ↔ _
  have hstart : shAddr m₂ (relSectHdr (envAt f base) m₂ (sectionAt f base q.1)) +
      rOffset m₂ (base + entry f q.1 q.2) = fieldWord f base q := hplace
  rw [symtbl_relocationAt lt hI hq]
  unfold entryChecks indexChecks applied
  rw [hsym, hstart, rInfo_relocationAt lt hI hq, if_pos rfl, rAddend_relocationAt lt hI hq]
  simp only [Sweep.firstFailure_append_eq_none, Sweep.firstFailure_check_eq_none, hin, and_true,
    loaderApplyRelocation_eq_zero_iff, hindex]
  exact Iff.rfl

/-- **The relocation tables pass their checks** when the file can be linked. -/
theorem LinkTables.relocatable (lt : LinkTables f size) (hsize : base.toNat + size < 2 ^ 64)
    (hI : Intact f base m₂)
    (ha : ∀ i < (headers f).count, shAddr m₂ (sectionAt f base i) = base + shOffset f (header f i))
    (hlink : Linkable f base fun p => syValue m₂ (symbolAt f base p)) :
    Relocatable (envAt f base) m₂ := by
  refine ⟨_, lt.visits_headers base hsize, fun hdr hmem ht => ?_⟩
  obtain ⟨i, hi, rfl⟩ := (lt.listed_iff hsize).mp ⟨_, lt.visits_headers base hsize, hmem⟩
  have htype : shType m₂ (sectionAt f base i) = shType f (header f i) :=
    (hI.readsHeader lt.wellFormed hi).type
  have hrela : shType f (header f i) = shtRela :=
    htype.symm.trans (ht.resolve_left fun h => lt.explicit i hi (htype.symm.trans h))
  have hl := lt.visits_entries base hsize hi hrela (hlink.tables i hi hrela).1
  rw [← (hI.readsHeader lt.wellFormed hi).tableAt] at hl
  refine ⟨(lt.tableChecks_iff hsize hI hi hrela).mpr (hlink.tables i hi hrela), _, hl,
    fun rel hrel => ?_⟩
  obtain ⟨j, hj, rfl⟩ := (lt.entryOf_iff hsize hI hi hrela).mp ⟨_, hl, hrel⟩
  have hq : RelocationIn f (i, j) := ⟨hi, hrela, hj⟩
  exact (lt.checks_iff hsize hI ha hq).mpr
    ⟨hlink.symbols _ hq, hlink.types _ hq, .inl (hlink.fits _ hq)⟩

/-- **The file can be linked** when the relocation tables pass their checks, and every displacement
has an absolute value. -/
theorem LinkTables.linkable (lt : LinkTables f size) (hsize : base.toNat + size < 2 ^ 64)
    (hI : Intact f base m₂)
    (ha : ∀ i < (headers f).count, shAddr m₂ (sectionAt f base i) = base + shOffset f (header f i))
    (hdef : ∀ q, RelocationIn f q →
      displacement f base (fun p => syValue m₂ (symbolAt f base p)) q ≠ BitVec.intMin 64)
    (hpass : Relocatable (envAt f base) m₂) :
    Linkable f base fun p => syValue m₂ (symbolAt f base p) := by
  obtain ⟨l, hv, hpass⟩ := hpass
  have hpasses : ∀ i < (headers f).count, shType f (header f i) = shtRela →
      PassesTable (envAt f base) m₂ (sectionAt f base i) := by
    intro i hi ht
    refine hpass _ ?_ (.inr ((hI.readsHeader lt.wellFormed hi).type.trans ht))
    obtain ⟨l', hl', hmem⟩ := (lt.listed_iff hsize).mpr ⟨i, hi, rfl⟩
    rwa [hv.unique hl']
  have hchecks : ∀ q, RelocationIn f q →
      firstFailure ((relocationAt f base q).checks (envAt f base) m₂) = none := by
    intro q hq
    obtain ⟨-, l', hl', hall⟩ := hpasses q.1 hq.1 hq.2.1
    refine hall _ ?_
    obtain ⟨l'', hl'', hmem⟩ := (lt.entryOf_iff hsize hI hq.1 hq.2.1).mpr ⟨q.2, hq.2.2, rfl⟩
    rwa [hl'.unique hl'']
  have hparts := fun q hq => (lt.checks_iff hsize hI ha hq).mp (hchecks q hq)
  exact ⟨fun i hi ht => (lt.tableChecks_iff hsize hI hi ht).mp (hpasses i hi ht).1,
    fun q hq => (hparts q hq).1, fun q hq => (hparts q hq).2.1,
    fun q hq => (hparts q hq).2.2.resolve_right (hdef q hq)⟩

/-! ### The linked image -/

/-- The value of a symbol whose references are in the file. -/
theorem ValueOf.final {p : ℕ × ℕ} {v : U64} (h : ValueOf f base m defs p v)
    (href : ReferencesInFile f base m) (hp : SymbolIn f p) : FinalValue f base m defs p v := by
  refine ⟨fun hundef => ?_, fun hreserved => h.reserved (fun hundef => ?_) fun hlocated => ?_,
    fun hdefined hreserved => ?_⟩
  · obtain ⟨s, hs⟩ := nameEnds_iff.mp ((href p hp).1 hundef)
    exact ⟨h.imported hundef, fun hnone => absurd hs (hnone s)⟩
  · rw [hundef] at hreserved
    exact absurd hreserved (by decide)
  · exact (located_iff_section.mp hlocated).2 hreserved
  · have hlocated := located_iff_section.mpr ⟨hdefined, hreserved⟩
    have hin := (href p hp).2 hlocated
    exact ⟨hin, h.located hlocated hin⟩

/-- The third pass changes no table. -/
theorem LinkTables.tables_kept (lt : LinkTables f size) (hsize : base.toNat + size < 2 ^ 64)
    (h : ∀ a, (∀ q, RelocationIn f q → ¬Bytes.InWord 4 (fieldWord f base q) a) → m₃ a = m₂ a)
    {t : Option ℕ} {d n : ℕ} (ht : Live f t) (hj : j < (tables f t).count)
    (hd : d + n ≤ recordSize f t) :
    Bytes.load m₃ (base + off ((tables f t).offset j d)) n =
      Bytes.load m₂ (base + off ((tables f t).offset j d)) n := by
  have hstride := lt.wellFormed.recordSize_le ht hj
  apply Bytes.load_congr
  intro k hk
  have hbyte : base + off ((tables f t).offset j d) + BitVec.ofNat 64 k =
      base + off ((tables f t).offset j (d + k)) := by
    rw [Records.Table.offset_add, off_add, ← BitVec.add_assoc]
    rfl
  rw [hbyte]
  exact h _ fun q hq => lt.field_not_held hsize hq ht (Records.Table.holds_offset hj (by omega))

/-- **The image is linked** when its relocations are applied. -/
theorem Passed.linked (h : Passed f base m m₂ defs) (lt : LinkTables f size)
    (hsize : base.toNat + size < 2 ^ 64) (href : ReferencesInFile f base m) (hI : Intact f base m₂)
    (hrel : Relocated (envAt f base) m₂ m₃) : Linked f base m defs m₃ := by
  have hout : ∀ a, (∀ q, RelocationIn f q → ¬Bytes.InWord 4 (fieldWord f base q) a) →
      m₃ a = m₂ a := by
    intro a ha
    refine hrel.outside a fun r hr => ?_
    obtain ⟨q, hq, rfl⟩ := (lt.inImage_iff hsize hI).mp hr
    rw [place_relocationAt lt hI hq h.sections]
    exact ha q hq
  have hvalue : ∀ p, SymbolIn f p → syValue m₃ (symbolAt f base p) = syValue m₂ (symbolAt f base p) := by
    intro p hp
    have hrecord : recordSize f (some p.1) = 24 := by
      show structSize (shType f (header f p.1)) = 24
      rw [hp.2.1]
      rfl
    have hload := lt.tables_kept hsize hout (live_symtab hp.1 hp.2.1) hp.2.2 (d := 8) (n := 8)
      (by omega)
    exact (congrArg (Bytes.load m₃ · 8) (symbolAt_add (d := 8))).trans
      (hload.trans (congrArg (Bytes.load m₂ · 8) (symbolAt_add (d := 8))).symm)
  refine ⟨fun i hi => ?_, fun p hp => ?_, fun q hq => ?_, fun a haddress hvalueWord hfield => ?_⟩
  · have hload := lt.tables_kept hsize hout (t := none) trivial hi (d := 16) (n := 8)
      (Nat.le_of_ble_eq_true rfl)
    refine .trans ?_ (h.sections i hi)
    exact (congrArg (Bytes.load m₃ · 8) (sectionAt_add (d := 16))).trans
      (hload.trans (congrArg (Bytes.load m₂ · 8) (sectionAt_add (d := 16))).symm)
  · rw [hvalue p hp]
    exact (h.symbols p hp).final href hp
  · have hload := hrel.inside _ ((lt.inImage_iff hsize hI).mpr ⟨q, hq, rfl⟩)
    rw [place_relocationAt lt hI hq h.sections, field_relocationAt lt hI hq h.sections] at hload
    rw [hload]
    unfold displacement
    simp only [hvalue _ (lt.symbolIn hq)]
  · exact (hout a hfield).trans (h.unchanged a haddress hvalueWord)

end relocations

instance {f : Memory} {P : ℕ × ℕ → Prop} [DecidablePred P] :
    Decidable (∀ q, RelocationIn f q → P q) :=
  decidable_of_iff (∀ i < (headers f).count, shType f (header f i) = shtRela →
      ∀ j < (entries f i).count, P (i, j))
    ⟨fun h q hq => h q.1 hq.1 hq.2.1 q.2 hq.2.2, fun h i hi ht j hj => h (i, j) ⟨hi, ht, hj⟩⟩

theorem exportMemory_view : view 0x10000 exportMemory = exportFile := by
  funext o
  show exportFile (0x10000 + o - 0x10000) = exportFile o
  rw [BitVec.add_comm, BitVec.add_sub_cancel]

theorem exportFile_linkTables : LinkTables exportFile 472 := by
  have hone : ∀ q, RelocationIn exportFile q → q = (4, 0) := by decide +kernel
  refine ⟨exportFile_wellFormed, by decide +kernel, by decide +kernel, by decide +kernel,
    by decide +kernel, by decide +kernel, fun q q' b hq hq' _ _ => ?_⟩
  rw [hone q hq, hone q' hq']

end KernelTk.Loader
