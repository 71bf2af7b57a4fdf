import KernelTk.Loader.Walk

/-! # The assignment of an image

What `loader_assign_sections` and `loader_assign_symbols` leave in an image whose tables are disjoint.

* **Sections.** The loop over the headers patches the word `sh_addr` of each with the address of its
  section (`SymbolTables.addresses_patched`), so that the headers and the symbols are otherwise those of
  the file (`SymbolTables.sectionsAssigned`).
* **Walk.** `Walked` : the walk has come to a spot, the values of the symbols that are behind have been
  assigned, and nothing else has been changed.
* **What is read.** In such a memory a header, an address and a symbol that is not behind are those of the
  image (`load_header`, `shAddr_of_values`, `load_symbol`), and so is a string that is settled
  (`ComparedAs.holds_of_values`); a name that ends in its table is settled (`BearsName.comparedAs`).
* **One iteration.** `Walked.next` : the walk advances with every iteration that does not fail, by cases
  on the spot.  An iteration at a symbol assigns the value of `AssignedValue`, and answers the queries
  under the string that is looked up (`Advances`, `Answers`).
* **The end.** A pass that returns 0 has made the iterations of a walk that ends at the relocations
  (`loaderAssignSymbols_run`, `completed`); `Completed` is what the modules on values and on queries
  start from.  The iterations of the relocations do not come back to the first header
  (`Config.PastFirst`), which is why the walk cannot have gone past its end. -/

namespace KernelTk.Loader

open LoaderM
open Sweep (check firstFailure)

/-! ### Sections -/

section sections
variable {m m' m₁ : Memory} {base : Addr} {size i : ℕ} {p : ℕ × ℕ} {past : ℕ → Prop}

theorem SymbolTables.readsHeader_of_addresses (ht : SymbolTables (view base m) size)
    (hsize : base.toNat + size < 2 ^ 64)
    (h : Bytes.Outside (addressWord (view base m) base) 8 past m m')
    (hpast : ∀ k, past k → k < (headers (view base m)).count)
    (hi : i < (headers (view base m)).count) :
    ReadsHeader m' (sectionAt (view base m) base i) (view base m) (header (view base m) i) := by
  apply readsHeader_of_load
  intro d n hd hout
  rw [load_view, ← BitVec.add_assoc]
  apply h.load_eq
  intro l hl k hk hin
  have hbyte : sectionAt (view base m) base i + off d + BitVec.ofNat 64 l =
      sectionAt (view base m) base i + off (d + l) := by
    rw [off_add, ← BitVec.add_assoc]
    rfl
  rw [hbyte] at hin
  obtain ⟨-, hlo, hhi⟩ := ht.address_header hsize (hpast k hk) hi (by omega) hin
  omega

/-- The loop over the headers, from the header `i`. -/
theorem SymbolTables.addresses_from (ht : SymbolTables (view base m) size)
    (hsize : base.toNat + size < 2 ^ 64) : ∀ (fuel i : ℕ) (m' : Memory),
    i ≤ (headers (view base m)).count →
    Bytes.Patched (n := 8) (addressWord (view base m) base)
      (fun k => base + shOffset (view base m) (header (view base m) k)) (· < i) m m' →
    assignSectionsFrom (envAt (view base m) base) fuel (sectionAt (view base m) base i) m' =
      .ret 0 m₁ →
    Bytes.Patched (n := 8) (addressWord (view base m) base)
      (fun k => base + shOffset (view base m) (header (view base m) k))
      (· < (headers (view base m)).count) m m₁ := by
  intro fuel
  induction fuel with
  | zero =>
      intro i m' hi h hrun
      unfold assignSectionsFrom at hrun
      split at hrun
      · cases hrun
      · rename_i hstop
        cases hrun
        have hlast := mt (header_lt ht.headersWhole ht.headersInside hsize hi).mpr hstop
        obtain rfl : i = (headers (view base m)).count := by omega
        exact h
  | succ fuel ih =>
      intro i m' hi h hrun
      unfold assignSectionsFrom at hrun
      split at hrun
      · rename_i hlt
        have hlt' := (header_lt ht.headersWhole ht.headersInside hsize hi).mp hlt
        have hread := ht.readsHeader_of_addresses hsize h.outside
          (fun k hk => Nat.lt_of_lt_of_le hk hi) hlt'
        rw [fetch_bind, fetch_bind] at hrun
        split at hrun
        · cases hrun
        · rw [fetch_bind, update_bind, hread.offset] at hrun
          have hnext : sectionAt (view base m) base i + (envAt (view base m) base).rShtable.tBsize =
              sectionAt (view base m) base (i + 1) := header_succ
          rw [hnext] at hrun
          refine ih (i + 1) _ hlt' ?_ hrun
          exact h.store (by decide) (ht.addresses_apart hsize)
            (fun k hk => Nat.lt_of_lt_of_le hk hi) hlt' fun k => Nat.lt_succ_iff_lt_or_eq
      · rename_i hstop
        cases hrun
        have hlast := mt (header_lt ht.headersWhole ht.headersInside hsize hi).mpr hstop
        obtain rfl : i = (headers (view base m)).count := by omega
        exact h

/-- **The addresses of the sections are assigned**, and nothing else is changed. -/
theorem SymbolTables.addresses_patched (ht : SymbolTables (view base m) size)
    (hsize : base.toNat + size < 2 ^ 64) {fuel : ℕ}
    (h : loaderAssignSections fuel (loaderInit base m) m = .ret 0 m₁) :
    Bytes.Patched (n := 8) (addressWord (view base m) base)
      (fun k => base + shOffset (view base m) (header (view base m) k))
      (· < (headers (view base m)).count) m m₁ := by
  rw [loaderInit_view] at h
  exact ht.addresses_from hsize fuel 0 m (Nat.zero_le _)
    (Bytes.patched_nil fun k => Nat.not_lt_zero k) h

theorem SymbolTables.sectionsAssigned (ht : SymbolTables (view base m) size)
    (hsize : base.toNat + size < 2 ^ 64) {fuel : ℕ}
    (h : loaderAssignSections fuel (loaderInit base m) m = .ret 0 m₁) :
    SectionsAssigned (view base m) base m₁ := by
  have hpatch := ht.addresses_patched hsize h
  refine ⟨fun i hi => ht.readsHeader_of_addresses hsize hpatch.outside (fun _ hk => hk) hi,
    fun i hi => hpatch.inside i hi, fun p hp d n hd => ?_⟩
  rw [load_view, ← BitVec.add_assoc]
  apply hpatch.outside.load_eq
  intro l hl k hk hin
  have hbyte : symbolAt (view base m) base p + off d + BitVec.ofNat 64 l =
      symbolAt (view base m) base p + off (d + l) := by
    rw [off_add, ← BitVec.add_assoc]
    rfl
  exact ht.address_symbol hsize hk hp (by omega : d + l < 24) (hbyte ▸ hin)

end sections

/-! ### The walk -/

/-- The walk is at a point of the loader. -/
def Spot.Reached (f : Memory) (base : Addr) (m₁ : Memory) : Spot → Point → Prop
  | .symbols i, point => i ≤ (headers f).count ∧ point = .assignSymbols (sectionAt f base i)
  | .symbol i j, point => i < (headers f).count ∧ shType f (header f i) = shtSymtab ∧
      shEntsize f (header f i) ≠ 0 ∧ j ≤ (entries f i).count ∧ ∃ strTable,
        (Settled f base (stringHeader f base i) 64 →
          strTable = tableAt (envAt f base) m₁ (stringHeader f base i)) ∧
        point = .assignTable (sectionAt f base i) (tableOf f base i) strTable (symbolAt f base (i, j))
  | .relocations 0, point => point = .applyRelocations (sectionAt f base 0)
  | _, _ => False

/-- The values of the symbols that are behind have been assigned in the memory `m₁`. -/
structure Walked (f : Memory) (base : Addr) (m₁ : Memory) (defs : List LoaderSymbol) (spot : Spot)
    (c : Config) : Prop where
  reached : spot.Reached f base m₁ c.point
  outside : Bytes.Outside (valueWord f base) 8 (spot.Behind f) m₁ c.memory
  values : ∀ p, spot.Behind f p →
    AssignedValue f base m₁ defs p (Bytes.load c.memory (valueWord f base p) 8)

section walked
variable {strCmp : Memory → Addr → List U8 → ℤ} {f m₁ m : Memory} {base : Addr} {size i j : ℕ}
  {defs : List LoaderSymbol} {spot spot' : Spot} {c c' : Config} {p : ℕ × ℕ} {s : List U8}

theorem syShndx_of_located {a : Addr} (h : Loader.located m a) : syShndx m a ≠ shnUndef := by
  intro hundef
  unfold Loader.located checkSectionIndex at h
  rw [if_pos (.inl hundef)] at h
  cases h

section reading
variable (ht : SymbolTables f size) (hsize : base.toNat + size < 2 ^ 64)
  (h : Bytes.Outside (valueWord f base) 8 (spot.Behind f) m₁ m)

include ht hsize h

theorem load_header (hi : i < (headers f).count) (d n : ℕ) (hd : d + n ≤ 64) :
    Bytes.load m (sectionAt f base i + off d) n = Bytes.load m₁ (sectionAt f base i + off d) n := by
  apply h.load_eq
  intro l hl q hq hin
  have hbyte : sectionAt f base i + off d + BitVec.ofNat 64 l = sectionAt f base i + off (d + l) := by
    rw [off_add, ← BitVec.add_assoc]
    rfl
  exact ht.value_header hsize hq.1 hi (by omega : d + l < 64) (hbyte ▸ hin)

omit ht hsize in
/-- A byte that no assignment changes is that of the image. -/
theorem Settled.byte {a : Addr} {n k : ℕ} (hset : Settled f base a n) (hk : k < n) :
    m (a + off k) = m₁ (a + off k) :=
  h _ fun q hq hin => hset k hk q hq.1 hin

omit ht hsize in
theorem Settled.load {a : Addr} {n d l : ℕ} (hset : Settled f base a n) (hd : d + l ≤ n) :
    Bytes.load m (a + off d) l = Bytes.load m₁ (a + off d) l := by
  apply Bytes.load_congr
  intro k hk
  have hbyte : a + off d + BitVec.ofNat 64 k = a + off (d + k) := by
    rw [off_add, ← BitVec.add_assoc]
    rfl
  rw [hbyte]
  exact hset.byte h (by omega)

omit ht hsize in
theorem Settled.tableAt {a : Addr} (hset : Settled f base a 64) :
    Loader.tableAt (envAt f base) m a = Loader.tableAt (envAt f base) m₁ a := by
  have hload := fun d l => hset.load (d := d) (l := l) h
  unfold Loader.tableAt
  rw [show shOffset m a = shOffset m₁ a from hload 24 8 (by omega),
    show shSize m a = shSize m₁ a from hload 32 8 (by omega),
    show shEntsize m a = shEntsize m₁ a from hload 56 8 (by omega)]

omit ht hsize in
/-- The string that the name of a symbol is compared as is that of the image. -/
theorem ComparedAs.holds_of_values (hs : ComparedAs f base m₁ p s) :
    HoldsString m (lookedUp f base m₁ p) s :=
  hs.holds.congr fun k hk => (hs.settled.byte h (by omega)).symm

variable (ha : SectionsAssigned f base m₁)

include ha

theorem readsHeader_of_values (hi : i < (headers f).count) :
    ReadsHeader m (sectionAt f base i) f (header f i) := by
  have hread := ha.headers i hi
  have hload := load_header ht hsize h hi
  exact ⟨(hload 4 4 (by omega)).trans hread.type, (hload 24 8 (by omega)).trans hread.offset,
    (hload 32 8 (by omega)).trans hread.size, (hload 40 4 (by omega)).trans hread.link,
    (hload 44 4 (by omega)).trans hread.info, (hload 56 8 (by omega)).trans hread.entsize⟩

theorem shAddr_of_values (hi : i < (headers f).count) :
    shAddr m (sectionAt f base i) = base + shOffset f (header f i) :=
  (load_header ht hsize h hi 16 8 (by omega)).trans (ha.addresses i hi)

theorem load_symbol (hp : SymbolIn f p) (d n : ℕ) (hd : d + n ≤ 24)
    (hout : d + n ≤ 8 ∨ 16 ≤ d ∨ ¬spot.PastSymbol p.1 p.2) :
    Bytes.load m (symbolAt f base p + off d) n = Bytes.load f (entry f p.1 p.2 + off d) n := by
  rw [← ha.symbols p hp d n hd]
  apply h.load_eq
  intro l hl q hq hin
  have hbyte : symbolAt f base p + off d + BitVec.ofNat 64 l = symbolAt f base p + off (d + l) := by
    rw [off_add, ← BitVec.add_assoc]
    rfl
  obtain ⟨rfl, hlo, hhi⟩ := ht.value_symbol hsize hq.1 hp (by omega : d + l < 24) (hbyte ▸ hin)
  rcases hout with hout | hout | hout
  · omega
  · omega
  · exact hout hq.2

/-- The name that is looked up is that of the image. -/
theorem nameOf_of_values (hp : SymbolIn f p) :
    nameOf m (tableAt (envAt f base) m₁ (stringHeader f base p.1)) (symbolAt f base p) =
      lookedUp f base m₁ p := by
  have hname := load_symbol ht hsize h ha hp 0 4 (by omega) (.inl (by omega))
  have hname₁ := ha.symbols p hp 0 4 (by omega)
  rw [add_off_zero, add_off_zero] at hname hname₁
  unfold lookedUp nameOf
  exact congrArg (fun v : U32 => _ + v.setWidth 64 * _) (hname.trans hname₁.symm)

theorem shndx_of_values (hp : SymbolIn f p) :
    syShndx m (symbolAt f base p) = syShndx f (entry f p.1 p.2) :=
  load_symbol ht hsize h ha hp 6 2 (by omega) (.inl (by omega))

theorem located_of_values (hp : SymbolIn f p) :
    Loader.located m (symbolAt f base p) ↔ Loader.located f (entry f p.1 p.2) := by
  unfold Loader.located
  rw [shndx_of_values ht hsize h ha hp]

/-- An import is given the definition of the string that it is looked up under. -/
theorem symbolValue_imported (hcmp : ComparesStrings strCmp) (hdefs : ∀ d ∈ defs, 0 ∉ d.sName)
    {strTable : ElfTable} (hstrings : Settled f base (stringHeader f base p.1) 64 →
      strTable = Loader.tableAt (envAt f base) m₁ (stringHeader f base p.1))
    (hp : SymbolIn f p) (hundef : syShndx f (entry f p.1 p.2) = shnUndef)
    (hs : ComparedAs f base m₁ p s) :
    Loader.symbolValue strCmp (envAt f base) defs m strTable (symbolAt f base p) =
      definition defs s := by
  unfold Loader.symbolValue
  rw [if_pos ((shndx_of_values ht hsize h ha hp).trans hundef), hstrings hs.header,
    nameOf_of_values ht hsize h ha hp]
  exact symDefFind_eq hcmp (hs.holds_of_values h) hdefs

/-- The checks say that the section of a symbol that is located is one of the program; its address is
added to the value, as long as this has not been done. -/
theorem symbolValue_located {strTable : ElfTable} (hp : SymbolIn f p)
    (hloc : Loader.located f (entry f p.1 p.2)) (hin : sectionOf f p.1 p.2 < (headers f).count)
    (hnew : ¬spot.PastSymbol p.1 p.2)
    (hchecks : firstFailure (symbolChecks (envAt f base) m strTable (symbolAt f base p)) = none) :
    shType f (header f (sectionOf f p.1 p.2)) = shtProgbits ∧
      Loader.symbolValue strCmp (envAt f base) defs m strTable (symbolAt f base p) =
        syValue f (entry f p.1 p.2) + (base + shOffset f (header f (sectionOf f p.1 p.2))) := by
  have hlocated := (located_of_values ht hsize h ha hp).mpr hloc
  have hread := readsHeader_of_values ht hsize h ha hin
  have hheader : headerAt (envAt f base) (syShndx m (symbolAt f base p)) =
      sectionAt f base (sectionOf f p.1 p.2) := by
    rw [shndx_of_values ht hsize h ha hp, headerAt_envAt]
    rfl
  have hvalue : syValue m (symbolAt f base p) = syValue f (entry f p.1 p.2) :=
    load_symbol ht hsize h ha hp 8 8 (by omega) (.inr (.inr hnew))
  unfold symbolChecks at hchecks
  rw [if_pos hlocated, Sweep.firstFailure_append_eq_none, headerChecks,
    Sweep.firstFailure_append_eq_none, hheader] at hchecks
  refine ⟨hread.type.symm.trans (Sweep.firstFailure_check_eq_none.mp hchecks.2.2), ?_⟩
  unfold Loader.symbolValue
  rw [if_neg (syShndx_of_located hlocated), if_pos hlocated, hheader, hvalue,
    shAddr_of_values ht hsize h ha hin]

end reading

/-- A link of 32 bits that designates a section is one of 16 bits. -/
theorem link_eq_strings (h : strings f i < (headers f).count) : link f i = strings f i := by
  have hcount : (headers f).count < 2 ^ 16 := (eShnum f 0).isLt
  have hlink : (shLink f (header f i)).toNat < 2 ^ 16 := Nat.lt_trans h hcount
  unfold link symtabId
  rw [BitVec.toNat_setWidth, Nat.mod_eq_of_lt hlink]
  rfl

theorem BearsName.comparedAs (hs : BearsName f base m₁ p s) (ht : SymbolTables f size)
    (hsize : base.toNat + size < 2 ^ 64) (ha : SectionsAssigned f base m₁) (hp : SymbolIn f p) :
    ComparedAs f base m₁ p s := by
  have hlink := link_eq_strings hs.link
  have hheader : stringHeader f base p.1 = sectionAt f base (strings f p.1) := by
    unfold stringHeader sectionAt
    rw [hlink]
  have htable : tableAt (envAt f base) m₁ (stringHeader f base p.1) =
      tableOf f base (strings f p.1) := by
    rw [hheader]
    exact (ha.headers _ hs.link).tableAt
  have hlooked : lookedUp f base m₁ p = base + off (nameOffset f p) := by
    have hname := ha.symbols p hp 0 4 (by omega)
    rw [add_off_zero, add_off_zero] at hname
    have hone : (tableOf f base (strings f p.1)).tBsize = 1#64 := ht.strings _ hs.link hs.type
    unfold lookedUp nameOf nameOffset
    rw [htable, hone, BitVec.mul_one, off_add, off_toNat_self, off_toNat, ← BitVec.add_assoc]
    exact congrArg (fun v : U32 => base + _ + v.setWidth 64) hname
  refine ⟨fun k hk q hq => ?_, fun k hk q hq => ?_, hlooked ▸ hs.holds⟩
  · rw [hheader]
    exact ht.value_header hsize hq hs.link hk
  · have hends := hs.ends
    rw [hlooked, BitVec.add_assoc, ← off_add, nameOffset, Nat.add_assoc]
    exact ht.value_string hsize hq hs.link hs.type (by omega)

/-- The queries are answered for a symbol, under its name. -/
def Answers (strCmp : Memory → Addr → List U8 → ℤ) (f : Memory) (base : Addr) (m₁ : Memory)
    (p : ℕ × ℕ) (m : Memory) (queries queries' : List LoaderSymbol) : Prop :=
  ∃ name, queries' = answer strCmp m name (Bytes.load m (valueWord f base p) 8) queries ∧
    ∀ s, BearsName f base m₁ p s → HoldsString m name s

/-- What an iteration of the walk does. -/
structure Advances (strCmp : Memory → Addr → List U8 → ℤ) (f : Memory) (base : Addr) (m₁ : Memory)
    (defs : List LoaderSymbol) (spot : Spot) (c c' : Config) : Prop where
  walked : Walked f base m₁ defs (spot.after f) c'
  kept : ∀ p, spot.Behind f p →
    Bytes.load c'.memory (valueWord f base p) 8 = Bytes.load c.memory (valueWord f base p) 8
  answers : ∀ p, SymbolIn f p → spot = .symbol p.1 p.2 →
    Answers strCmp f base m₁ p c'.memory c.queries c'.queries
  silent : (∀ p, SymbolIn f p → spot ≠ .symbol p.1 p.2) → c'.queries = c.queries

/-- An iteration that assigns no symbol. -/
theorem Walked.goto (h : Walked f base m₁ defs spot c) (hmemory : c'.memory = c.memory)
    (hqueries : c'.queries = c.queries) (hnone : ∀ p, SymbolIn f p → spot ≠ .symbol p.1 p.2)
    (hreached : (spot.after f).Reached f base m₁ c'.point) :
    Advances strCmp f base m₁ defs spot c c' := by
  have hbehind : ∀ p, (spot.after f).Behind f p ↔ spot.Behind f p := by
    intro p
    rw [behind_after]
    exact or_iff_left fun hnew => hnone p hnew.1 hnew.2
  refine ⟨⟨hreached, ?_, fun p hp => ?_⟩, fun p _ => by rw [hmemory],
    fun p hp hspot => absurd hspot (hnone p hp), fun _ => hqueries⟩
  · rw [hmemory]
    exact h.outside.congr fun p hp => (hbehind p).mpr hp
  · rw [hmemory]
    exact h.values p ((hbehind p).mp hp)

theorem Walked.next_symbols (ht : SymbolTables f size) (hsize : base.toNat + size < 2 ^ 64)
    (ha : SectionsAssigned f base m₁) (h : Walked f base m₁ defs (.symbols i) c)
    (hlive : ¬(c.step strCmp (envAt f base) defs).Halted) :
    Advances strCmp f base m₁ defs (.symbols i) c (c.step strCmp (envAt f base) defs) := by
  obtain ⟨point, m, queries⟩ := c
  obtain ⟨hi, hpoint⟩ := h.reached
  obtain rfl : point = .assignSymbols (sectionAt f base i) := hpoint
  have hlt : sectionAt f base i < (envAt f base).rShtable.tEnd ↔ i < (headers f).count :=
    header_lt ht.headersWhole ht.headersInside hsize hi
  have hgoto : ∀ point' : Point,
      Config.step strCmp (envAt f base) defs ⟨.assignSymbols (sectionAt f base i), m, queries⟩ =
        ⟨point', m, queries⟩ → ((Spot.symbols i).after f).Reached f base m₁ point' →
      Advances strCmp f base m₁ defs (.symbols i) ⟨.assignSymbols (sectionAt f base i), m, queries⟩
        (Config.step strCmp (envAt f base) defs
          ⟨.assignSymbols (sectionAt f base i), m, queries⟩) := by
    intro point' hstep hreached
    rw [hstep]
    exact h.goto rfl rfl (fun p _ hp => by cases hp) hreached
  by_cases hin : i < (headers f).count
  · have hread := readsHeader_of_values ht hsize h.outside ha hin
    by_cases htype : shType f (header f i) = shtSymtab
    · cases hc : firstFailure (symtabChecks (envAt f base) m (sectionAt f base i)) with
      | some e =>
          refine absurd ⟨.symbols, e, ?_⟩ hlive
          simp only [Config.step, if_pos (hlt.mpr hin), if_pos (hread.type.trans htype), hc]
      | none =>
          have hent : shEntsize f (header f i) ≠ 0 := by
            unfold symtabChecks at hc
            rw [Sweep.firstFailure_append_eq_none, Sweep.firstFailure_append_eq_none] at hc
            rw [← hread.entsize]
            exact Sweep.firstFailure_check_eq_none.mp hc.1.1
          refine hgoto (.assignTable (sectionAt f base i) (tableOf f base i)
            (tableAt (envAt f base) m (base + header f (link f i))) (symbolAt f base (i, 0))) ?_ ?_
          · have htable : tableAt (envAt f base) m (sectionAt f base i) = tableOf f base i :=
              hread.tableAt
            simp only [Config.step, if_pos (hlt.mpr hin), if_pos (hread.type.trans htype), hc]
            rw [htable, hread.symtabId, headerAt_link, tableOf_tStart]
            rfl
          · rw [Spot.after, if_pos hin, if_pos htype]
            exact ⟨hin, htype, hent, Nat.zero_le _, _, fun hset => hset.tableAt h.outside, rfl⟩
    · have hother : shType m (sectionAt f base i) ≠ shtSymtab := by
        rw [hread.type]
        exact htype
      refine hgoto (.assignSymbols (sectionAt f base (i + 1))) ?_ ?_
      · simp only [Config.step, if_pos (hlt.mpr hin), if_neg hother]
        exact congrArg (fun a => Config.mk (.assignSymbols a) m queries) header_succ
      · rw [Spot.after, if_pos hin, if_neg htype]
        exact ⟨hin, rfl⟩
  · refine hgoto (.applyRelocations (sectionAt f base 0)) ?_ ?_
    · simp only [Config.step, if_neg (mt hlt.mp hin)]
      rfl
    · rw [Spot.after, if_neg hin]
      rfl

theorem Walked.next_table (ht : SymbolTables f size) (hsize : base.toNat + size < 2 ^ 64)
    (h : Walked f base m₁ defs (.symbol i j) c) (hj : ¬j < (entries f i).count) :
    Advances strCmp f base m₁ defs (.symbol i j) c (c.step strCmp (envAt f base) defs) := by
  obtain ⟨point, m, queries⟩ := c
  obtain ⟨hi, htype, hent, hle, strTable, -, hpoint⟩ := h.reached
  obtain rfl : point = _ := hpoint
  have hlt : symbolAt f base (i, j) < (tableOf f base i).tEnd ↔ j < (entries f i).count :=
    entry_lt (tableOf_tEnd_eq (ht.stop_eq hi htype hent)) (ht.stop_le hi htype) hsize hent hle
  have hstep : Config.step strCmp (envAt f base) defs ⟨.assignTable (sectionAt f base i)
      (tableOf f base i) strTable (symbolAt f base (i, j)), m, queries⟩ =
      ⟨.assignSymbols (sectionAt f base (i + 1)), m, queries⟩ := by
    simp only [Config.step, if_neg (mt hlt.mp hj)]
    exact congrArg (fun a => Config.mk (.assignSymbols a) m queries) header_succ
  rw [hstep]
  refine h.goto rfl rfl ?_ ?_
  · rintro p hp hspot
    cases hspot
    exact hj hp.2.2
  · rw [Spot.after, if_neg hj]
    exact ⟨hi, rfl⟩

theorem Walked.symbolValue (ht : SymbolTables f size) (hsize : base.toNat + size < 2 ^ 64)
    (ha : SectionsAssigned f base m₁) (hcmp : ComparesStrings strCmp)
    (hdefs : ∀ d ∈ defs, 0 ∉ d.sName) {queries : List LoaderSymbol} {strTable : ElfTable}
    (h : Walked f base m₁ defs (.symbol i j) ⟨.assignTable (sectionAt f base i) (tableOf f base i)
      strTable (symbolAt f base (i, j)), m, queries⟩)
    (hstrings : Settled f base (stringHeader f base i) 64 →
      strTable = tableAt (envAt f base) m₁ (stringHeader f base i))
    (hp : SymbolIn f (i, j))
    (hchecks : firstFailure (symbolChecks (envAt f base) m strTable (symbolAt f base (i, j))) = none) :
    AssignedValue f base m₁ defs (i, j)
      (Loader.symbolValue strCmp (envAt f base) defs m strTable (symbolAt f base (i, j))) := by
  have hshndx := shndx_of_values ht hsize h.outside ha hp
  have hcompared : syShndx f (entry f i j) = shnUndef → ∀ t, ComparedAs f base m₁ (i, j) t →
      Loader.symbolValue strCmp (envAt f base) defs m strTable (symbolAt f base (i, j)) =
        definition defs t :=
    fun hundef t hs => symbolValue_imported ht hsize h.outside ha hcmp hdefs hstrings hp hundef hs
  refine ⟨⟨fun hundef s hs => hcompared hundef s (hs.comparedAs ht hsize ha hp),
    fun hloc hin => symbolValue_located ht hsize h.outside ha hp hloc hin not_past_self hchecks,
    fun hdef hloc => ?_⟩, hcompared, fun hundef hnone => ?_⟩
  · unfold Loader.symbolValue
    rw [if_neg (hshndx ▸ hdef), if_neg (mt (located_of_values ht hsize h.outside ha hp).mp hloc)]
  · unfold Loader.symbolValue
    rw [if_pos (hshndx.trans hundef)]
    exact symDefFind_eq_zero hnone

/-- The iteration at a symbol whose checks pass. -/
theorem step_assigns {strTable : ElfTable} {queries : List LoaderSymbol} {v : U64}
    (hlt : symbolAt f base (i, j) < (tableOf f base i).tEnd)
    (hchecks : firstFailure (symbolChecks (envAt f base) m strTable (symbolAt f base (i, j))) = none)
    (hv : Loader.symbolValue strCmp (envAt f base) defs m strTable (symbolAt f base (i, j)) = v) :
    Config.step strCmp (envAt f base) defs ⟨.assignTable (sectionAt f base i) (tableOf f base i)
      strTable (symbolAt f base (i, j)), m, queries⟩ =
    ⟨.assignTable (sectionAt f base i) (tableOf f base i) strTable (symbolAt f base (i, j + 1)),
      Bytes.store (n := 8) m (valueWord f base (i, j)) v,
      answer strCmp (Bytes.store (n := 8) m (valueWord f base (i, j)) v)
        (nameOf m strTable (symbolAt f base (i, j))) v queries⟩ := by
  have hnext : symbolAt f base (i, j) + (tableOf f base i).tBsize = symbolAt f base (i, j + 1) :=
    entry_succ
  simp only [Config.step, if_pos hlt, hchecks, hv, hnext]
  rfl

theorem Walked.next_symbol (ht : SymbolTables f size) (hsize : base.toNat + size < 2 ^ 64)
    (ha : SectionsAssigned f base m₁) (hcmp : ComparesStrings strCmp)
    (hdefs : ∀ d ∈ defs, 0 ∉ d.sName) (h : Walked f base m₁ defs (.symbol i j) c)
    (hlive : ¬(c.step strCmp (envAt f base) defs).Halted) (hj : j < (entries f i).count) :
    Advances strCmp f base m₁ defs (.symbol i j) c (c.step strCmp (envAt f base) defs) := by
  obtain ⟨point, m, queries⟩ := c
  obtain ⟨hi, htype, hent, hle, strTable, hstrings, hpoint⟩ := h.reached
  obtain rfl : point = _ := hpoint
  have hlt : symbolAt f base (i, j) < (tableOf f base i).tEnd ↔ j < (entries f i).count :=
    entry_lt (tableOf_tEnd_eq (ht.stop_eq hi htype hent)) (ht.stop_le hi htype) hsize hent hle
  have hp : SymbolIn f (i, j) := ⟨hi, htype, hj⟩
  have hafter : (Spot.symbol i j).after f = .symbol i (j + 1) := by rw [Spot.after, if_pos hj]
  have hbehind : ∀ p, (Spot.symbol i (j + 1)).Behind f p ↔
      (Spot.symbol i j).Behind f p ∨ p = (i, j) := by
    intro p
    rw [← hafter, behind_after]
    refine or_congr_right ⟨fun hself => ?_, ?_⟩
    · obtain ⟨i', j'⟩ := p
      cases hself.2
      rfl
    · rintro rfl
      exact ⟨hp, rfl⟩
  cases hc : firstFailure (symbolChecks (envAt f base) m strTable (symbolAt f base (i, j))) with
  | some e =>
      refine absurd ⟨.symbols, e, ?_⟩ hlive
      simp only [Config.step, if_pos (hlt.mpr hj), hc]
  | none =>
      have hvalue := h.symbolValue ht hsize ha hcmp hdefs hstrings hp hc
      generalize hv : Loader.symbolValue strCmp (envAt f base) defs m strTable
        (symbolAt f base (i, j)) = value at hvalue
      have hown : Bytes.load (Bytes.store (n := 8) m (valueWord f base (i, j)) value)
          (valueWord f base (i, j)) 8 = value := Bytes.load_store (by decide)
      have hother : ∀ p, (Spot.symbol i j).Behind f p →
          Bytes.load (Bytes.store (n := 8) m (valueWord f base (i, j)) value) (valueWord f base p) 8 =
            Bytes.load m (valueWord f base p) 8 := by
        intro p hpast
        refine (ht.values_apart hsize).load_store (by decide) hp hpast.1 ?_
        rintro rfl
        exact not_past_self hpast.2
      have houtside : Bytes.Outside (valueWord f base) 8 ((Spot.symbol i (j + 1)).Behind f) m₁
          (Bytes.store (n := 8) m (valueWord f base (i, j)) value) :=
        h.outside.store (fun p hpast => (hbehind p).mpr (.inl hpast)) ((hbehind _).mpr (.inr rfl))
      rw [step_assigns (hlt.mpr hj) hc hv]
      refine ⟨?_, hother, fun p _ hspot => ?_, fun hnone => absurd rfl (hnone (i, j) hp)⟩
      · rw [hafter]
        refine ⟨⟨hi, htype, hent, hj, strTable, hstrings, rfl⟩, houtside, fun p hpast => ?_⟩
        rcases (hbehind p).mp hpast with hold | rfl
        · rw [hother p hold]
          exact h.values p hold
        · rw [hown]
          exact hvalue
      · cases hspot
        refine ⟨_, by rw [hown], fun s hs => ?_⟩
        have hcompared := hs.comparedAs ht hsize ha hp
        rw [hstrings hcompared.header, nameOf_of_values ht hsize h.outside ha hp]
        exact hcompared.holds_of_values houtside

/-- **The walk advances** with every iteration that does not fail. -/
theorem Walked.next (ht : SymbolTables f size) (hsize : base.toNat + size < 2 ^ 64)
    (ha : SectionsAssigned f base m₁) (hcmp : ComparesStrings strCmp)
    (hdefs : ∀ d ∈ defs, 0 ∉ d.sName) (h : Walked f base m₁ defs spot c)
    (hspot : spot ≠ .relocations 0) (hlive : ¬(c.step strCmp (envAt f base) defs).Halted) :
    Advances strCmp f base m₁ defs spot c (c.step strCmp (envAt f base) defs) := by
  have hreached := h.reached
  cases spot with
  | sections i => exact hreached.elim
  | symbols i => exact h.next_symbols ht hsize ha hlive
  | symbol i j =>
      by_cases hj : j < (entries f i).count
      · exact h.next_symbol ht hsize ha hcmp hdefs hlive hj
      · exact h.next_table ht hsize hj
  | relocations i =>
      cases i with
      | zero => exact absurd rfl hspot
      | succ i => exact hreached.elim
  | relocation i j => exact hreached.elim

/-! ### The end of the walk -/

/-- The relocations have gone past the first header. -/
def Config.PastFirst (f : Memory) (base : Addr) (c : Config) : Prop :=
  match c.point with
  | .applyRelocations shdr => ∃ k, 0 < k ∧ k ≤ (headers f).count ∧ shdr = sectionAt f base k
  | .applyTable shdr _ _ _ _ _ _ => ∃ k < (headers f).count, shdr = sectionAt f base k
  | .halted _ _ => True
  | _ => False

theorem Config.pastFirst_step {k : ℕ} {queries : List LoaderSymbol} (ht : SymbolTables f size)
    (hsize : base.toNat + size < 2 ^ 64) (hk : k ≤ (headers f).count) :
    (Config.step strCmp (envAt f base) defs
      ⟨.applyRelocations (sectionAt f base k), m, queries⟩).PastFirst f base := by
  have hlt : sectionAt f base k < (envAt f base).rShtable.tEnd ↔ k < (headers f).count :=
    header_lt ht.headersWhole ht.headersInside hsize hk
  have hnext : sectionAt f base k + (envAt f base).rShtable.tBsize = sectionAt f base (k + 1) :=
    header_succ
  simp only [Config.step, hlt, hnext]
  split
  · rename_i hin
    split
    · split
      · trivial
      · exact ⟨k, hin, rfl⟩
    · exact ⟨k + 1, Nat.succ_pos k, hin, rfl⟩
  · trivial

theorem Config.PastFirst.step (ht : SymbolTables f size) (hsize : base.toNat + size < 2 ^ 64)
    (h : c.PastFirst f base) : (c.step strCmp (envAt f base) defs).PastFirst f base := by
  obtain ⟨point, m, queries⟩ := c
  cases point with
  | assignSections shdr => exact h.elim
  | assignSymbols shdr => exact h.elim
  | assignTable shdr symtable strTable sym => exact h.elim
  | applyRelocations shdr =>
      obtain ⟨k, -, hk, rfl⟩ := h
      exact pastFirst_step ht hsize hk
  | applyTable shdr explicitAddend reltable symtbl relSectStart relSectSize rel =>
      obtain ⟨k, hk, rfl⟩ := h
      simp only [Config.step]
      split
      · split
        · trivial
        · exact ⟨k, hk, rfl⟩
      · exact ⟨k + 1, Nat.succ_pos k, hk, header_succ⟩
  | halted pass error => trivial

theorem Config.PastFirst.run (ht : SymbolTables f size) (hsize : base.toNat + size < 2 ^ 64)
    (h : c.PastFirst f base) (n : ℕ) : (c.run strCmp (envAt f base) defs n).PastFirst f base := by
  induction n generalizing c with
  | zero => exact h
  | succ n ih => exact ih (h.step ht hsize)

/-- The relocations do not come back to the first header. -/
theorem Config.PastFirst.ne (ht : SymbolTables f size) (hsize : base.toNat + size < 2 ^ 64)
    (h : c.PastFirst f base) : c.point ≠ .applyRelocations (sectionAt f base 0) := by
  obtain ⟨point, m, queries⟩ := c
  rintro rfl
  obtain ⟨k, hpos, hk, heq⟩ := h
  have hstop := ht.headersInside
  have hstride := ht.headersWhole (by omega)
  have hle := Nat.mul_le_mul_right (headers f).stride hk
  have hfirst := Nat.mul_le_mul_right (headers f).stride hpos
  have hoffset : off ((headers f).offset 0 0) = off ((headers f).offset k 0) :=
    (BitVec.add_right_inj _).mp heq
  have hnat := congrArg BitVec.toNat hoffset
  unfold Records.Table.stop at hstop
  unfold Records.Table.offset at hnat
  rw [toNat_off (by omega), toNat_off (by omega)] at hnat
  omega

theorem Walked.start {queries : List LoaderSymbol} :
    Walked f base m₁ defs (.symbols 0) ⟨.assignSymbols (sectionAt f base 0), m₁, queries⟩ :=
  ⟨⟨Nat.zero_le _, rfl⟩, .refl, fun _ hp => absurd hp.2 (Nat.not_lt_zero _)⟩

theorem Spot.Reached.eq_relocations {a : Addr}
    (h : spot.Reached f base m₁ (.applyRelocations a)) :
    spot = .relocations 0 := by
  cases spot with
  | sections i => exact h.elim
  | symbols i => cases h.2
  | symbol i j =>
      obtain ⟨-, -, -, -, strTable, -, hpoint⟩ := h
      cases hpoint
  | relocations i =>
      cases i with
      | zero => rfl
      | succ i => exact h.elim
  | relocation i j => exact h.elim

/-- A walk of `n` iterations that ends at the relocations. -/
structure Completed (strCmp : Memory → Addr → List U8 → ℤ) (f : Memory) (base : Addr) (m₁ : Memory)
    (defs : List LoaderSymbol) (c : Config) (n : ℕ) : Prop where
  last : spotAt f n = .relocations 0
  walked : ∀ k ≤ n, Walked f base m₁ defs (spotAt f k) (c.run strCmp (envAt f base) defs k)
  advances : ∀ k < n, Advances strCmp f base m₁ defs (spotAt f k)
    (c.run strCmp (envAt f base) defs k) (c.run strCmp (envAt f base) defs (k + 1))

/-- **A pass over the symbols that does not fail completes its walk.** -/
theorem completed (ht : SymbolTables f size) (hsize : base.toNat + size < 2 ^ 64)
    (ha : SectionsAssigned f base m₁) (hcmp : ComparesStrings strCmp)
    (hdefs : ∀ d ∈ defs, 0 ∉ d.sName) {queries : List LoaderSymbol} {n : ℕ}
    (hend : (Config.run strCmp (envAt f base) defs n
      ⟨.assignSymbols (sectionAt f base 0), m₁, queries⟩).point =
        .applyRelocations (sectionAt f base 0)) :
    Completed strCmp f base m₁ defs ⟨.assignSymbols (sectionAt f base 0), m₁, queries⟩ n := by
  generalize hc : Config.mk (.assignSymbols (sectionAt f base 0)) m₁ queries = c at hend ⊢
  have hlive : ∀ k ≤ n, ¬(c.run strCmp (envAt f base) defs k).Halted := by
    intro k hk hhalted
    obtain ⟨l, rfl⟩ := Nat.exists_eq_add_of_le hk
    rw [Config.run_add, hhalted.run] at hend
    obtain ⟨pass, e, hpoint⟩ := hhalted
    cases hend.symm.trans hpoint
  -- The walk does not reach the relocations before: they would not come back to their start.
  have hbefore : ∀ k < n, Walked f base m₁ defs (spotAt f k) (c.run strCmp (envAt f base) defs k) →
      spotAt f k ≠ .relocations 0 := by
    intro k hk hwalked hspot
    rw [hspot] at hwalked
    obtain ⟨l, rfl⟩ := Nat.exists_eq_add_of_lt hk
    rw [Nat.add_assoc, Config.run_add, Config.run_succ] at hend
    generalize c.run strCmp (envAt f base) defs k = c' at hwalked hend
    obtain ⟨point, m, queries'⟩ := c'
    obtain rfl : point = .applyRelocations (sectionAt f base 0) := hwalked.reached
    exact ((Config.pastFirst_step ht hsize (Nat.zero_le _)).run ht hsize l).ne ht hsize hend
  have hwalked : ∀ k ≤ n, Walked f base m₁ defs (spotAt f k) (c.run strCmp (envAt f base) defs k) := by
    intro k
    induction k with
    | zero =>
        intro _
        rw [← hc]
        exact .start
    | succ k ih =>
        intro hk
        have hold := ih (Nat.le_of_succ_le hk)
        rw [spotAt_succ, Config.run_succ']
        refine (hold.next ht hsize ha hcmp hdefs (hbefore k hk hold) ?_).walked
        rw [← Config.run_succ']
        exact hlive (k + 1) hk
  refine ⟨?_, hwalked, fun k hk => ?_⟩
  · have hreached := (hwalked n (Nat.le_refl n)).reached
    rw [hend] at hreached
    exact hreached.eq_relocations
  · have hold := hwalked k (Nat.le_of_lt hk)
    rw [Config.run_succ']
    refine hold.next ht hsize ha hcmp hdefs (hbefore k hk hold) ?_
    rw [← Config.run_succ']
    exact hlive (k + 1) hk

end walked

/-- The steps of a call of `loader_assign_symbols` that returns 0. -/
theorem loaderAssignSymbols_run {strCmp : Memory → Addr → List U8 → ℤ} {env : LoadingEnv}
    {defs queries queries' : List LoaderSymbol} {fuel : ℕ} {m m' : Memory}
    (h : loaderAssignSymbols strCmp fuel env defs queries m = (.ret 0 m', queries')) :
    ∃ n, Config.run strCmp env defs n ⟨.assignSymbols env.rShtable.tStart, m, queries⟩ =
      ⟨.applyRelocations env.rShtable.tStart, m', queries'⟩ := by
  have hblock := assignTables_follows strCmp env defs fuel m queries
  unfold loaderAssignSymbols at h
  rw [AssignM.bind_apply, AssignM.bind, AssignM.attempt] at h
  cases happly : tableIterateQueries env.rShtable (assignSection strCmp fuel env defs) fuel
      env.rShtable.tStart queries m with
  | mk o queries'' =>
      rw [happly] at hblock h
      cases o with
      | ret a m'' =>
          cases h
          obtain ⟨n, hn⟩ := hblock
          exact ⟨n + 1, hn⟩
      | thrown e m'' =>
          obtain ⟨n, hn⟩ := hblock
          have hfail : Config.SymbolsFail ⟨.assignSymbols env.rShtable.tStart, m, queries⟩ :=
            fun _ hpoint => by cases hpoint
          have hne := hfail.run strCmp env defs n
          rw [hn] at hne
          have hcode : e.setWidth 16 = 0 := by
            injection h with hret _
            injection hret
          refine absurd ?_ (hne e rfl)
          bv_omega
      | running => cases h

end KernelTk.Loader
