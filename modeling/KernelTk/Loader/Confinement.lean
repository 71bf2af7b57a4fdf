import KernelTk.Loader.Linking

/-! # The load of a file is confined

Whatever a load returns, and wherever it stops, it changes no byte outside of its file.

* **Condition.** The tables of the file are whole and apart (`LinkTables`), and the fields of its
  relocations lie in it (`FieldsInside`) : the loader compares `r_offset` with nothing.  Nothing is asked
  of the names, of the definitions and of the queries, nor of the comparison of strings: a load may
  read beyond the file, and stop for any reason.
* **Invariant.** `Within` : the load has come to a spot whose records are in the file, the tables hold
  what they hold in the file, the sections that are behind have their addresses, from which the third
  pass computes where its fields lie.
* **One iteration.** An iteration rewrites one word of the file at most (`Rewrites`): the address of a
  section, the value of a symbol, or a field (`rewrites_address`, `rewrites_value`, `rewrites_field`); no
  table holds anything there but an address, so that the invariant is kept.  It ends the load or leaves
  less of it (`Proceeds`), in the order of `Stages.lean`; there is one lemma for each kind of spot, and
  `Within.step` for all.
* **Loads.** `Within.ends` by well-founded induction on what is left, and from it `load_ends`: a load
  comes to an end, returns the same for every fuel that is large enough, and the bytes outside of the
  file are those that were there before. -/

namespace KernelTk.Loader

open Sweep (check firstFailure)

/-- The fields of the relocations lie in the file. -/
def FieldsInside (f : Memory) (size : ℕ) : Prop :=
  ∀ q, RelocationIn f q → (place f q.1 q.2).toNat + 4 ≤ size

/-- The load is at the records of a spot. -/
def Spot.Stands (f : Memory) (base : Addr) : Spot → Point → Prop
  | .sections i, point => i ≤ (headers f).count ∧ point = .assignSections (sectionAt f base i)
  | .symbols i, point => i ≤ (headers f).count ∧ point = .assignSymbols (sectionAt f base i)
  | .symbol i j, point => i < (headers f).count ∧ shType f (header f i) = shtSymtab ∧
      shEntsize f (header f i) ≠ 0 ∧ j ≤ (entries f i).count ∧ ∃ strTable, point =
        .assignTable (sectionAt f base i) (tableOf f base i) strTable (symbolAt f base (i, j))
  | .relocations i, point => i ≤ (headers f).count ∧ point = .applyRelocations (sectionAt f base i)
  | .relocation i j, point => i < (headers f).count ∧ shType f (header f i) = shtRela ∧
      shEntsize f (header f i) ≠ 0 ∧ j ≤ (entries f i).count ∧
        ∃ explicitAddend symtbl relSectSize, point =
          .applyTable (sectionAt f base i) explicitAddend (tableOf f base i) symtbl
            (base + shOffset f (header f (target f i))) relSectSize (base + entry f i j)

/-- The load has come to a spot of the file. -/
structure Within (f : Memory) (base : Addr) (spot : Spot) (c : Config) : Prop where
  stands : spot.Stands f base c.point
  intact : Intact f base c.memory
  sections : ∀ i < (headers f).count, spot.PastSection i →
    shAddr c.memory (sectionAt f base i) = base + shOffset f (header f i)

/-- An iteration changes no byte outside of the file, and ends the load or leaves less of it. -/
structure Proceeds (f : Memory) (size : ℕ) (base : Addr) (spot : Spot) (c c' : Config) : Prop where
  outside : ∀ a, ¬Bytes.InWord size base a → c'.memory a = c.memory a
  goes : c'.Halted ∨ ∃ spot', Within f base spot' c' ∧ Before (spot'.rest f) (spot.rest f)

/-- The memories differ in one word of the file, in which no table holds anything but an address. -/
structure Rewrites (f : Memory) (size : ℕ) (base : Addr) (n : ℕ) (w : Addr) (m m' : Memory) : Prop where
  elsewhere : ∀ a, ¬Bytes.InWord n w a → m' a = m a
  inside : ∀ a, Bytes.InWord n w a → Bytes.InWord size base a
  tables : ∀ t o, Live f t → (tables f t).Holds o → ¬Marked f o → ¬Bytes.InWord n w (base + off o)

section confinement
variable {strCmp : Memory → Addr → List U8 → ℤ} {f m m' : Memory} {base w : Addr} {size n i j : ℕ}
  {defs : List LoaderSymbol} {spot : Spot} {c : Config} {p q : ℕ × ℕ}

/-! ### Words that are rewritten -/

theorem Rewrites.intact (h : Rewrites f size base n w m m') (hI : Intact f base m) :
    Intact f base m' := by
  intro t o ht ho hmark
  rw [h.elsewhere _ (h.tables t o ht ho hmark)]
  exact hI t o ht ho hmark

theorem Rewrites.outside (h : Rewrites f size base n w m m') {a : Addr}
    (ha : ¬Bytes.InWord size base a) : m' a = m a :=
  h.elsewhere a fun hin => ha (h.inside a hin)

/-- The address of a section that the word is not in. -/
theorem Rewrites.shAddr (h : Rewrites f size base n w m m')
    (hout : ∀ d < 8, ¬Bytes.InWord n w (sectionAt f base i + off (16 + d))) :
    shAddr m' (sectionAt f base i) = shAddr m (sectionAt f base i) := by
  refine Bytes.load_congr fun d hd => h.elsewhere _ ?_
  have hbyte : sectionAt f base i + 16 + BitVec.ofNat 64 d = sectionAt f base i + off (16 + d) := by
    rw [off_add, ← BitVec.add_assoc]
    rfl
  rw [hbyte]
  exact hout d hd

/-- One word is rewritten, in no address of a section that is behind. -/
theorem Within.rewrite (spot' : Spot) {c' : Config} (h : Within f base spot c)
    (hr : Rewrites f size base n w c.memory c'.memory) (hstands : spot'.Stands f base c'.point)
    (hless : Before (spot'.rest f) (spot.rest f))
    (hout : ∀ k < (headers f).count, spot.PastSection k → ∀ d < 8,
      ¬Bytes.InWord n w (sectionAt f base k + off (16 + d)))
    (hnew : ∀ k < (headers f).count, spot'.PastSection k → ¬spot.PastSection k →
      shAddr c'.memory (sectionAt f base k) = base + shOffset f (header f k)) :
    Proceeds f size base spot c c' := by
  refine ⟨fun a ha => hr.outside ha, .inr ⟨spot', ⟨hstands, hr.intact h.intact,
    fun k hk hpast => ?_⟩, hless⟩⟩
  by_cases hold : spot.PastSection k
  · rw [hr.shAddr (hout k hk hold)]
    exact h.sections k hk hold
  · exact hnew k hk hpast hold

theorem Within.goto (spot' : Spot) {c' : Config} (h : Within f base spot c)
    (hm : c'.memory = c.memory) (hstands : spot'.Stands f base c'.point)
    (hless : Before (spot'.rest f) (spot.rest f))
    (hpast : ∀ k < (headers f).count, spot'.PastSection k → spot.PastSection k) :
    Proceeds f size base spot c c' := by
  refine ⟨fun a _ => congrFun hm a, .inr ⟨spot', ⟨hstands, ?_, fun k hk hp => ?_⟩, hless⟩⟩
  · rw [hm]
    exact h.intact
  · rw [hm]
    exact h.sections k hk (hpast k hk hp)

theorem Proceeds.halt {c' : Config} (hm : c'.memory = c.memory) (hhalted : c'.Halted) :
    Proceeds f size base spot c c' :=
  ⟨fun a _ => congrFun hm a, .inl hhalted⟩

/-! What is left when the load goes to a spot. -/

theorem before_pass {k : ℕ} {a b : ℕ × ℕ} (h : n < k) : Before (n, a) (k, b) := .left _ _ h

theorem before_header {a b : ℕ} (h : i < j) : Before (n, i, a) (n, j, b) := .right _ (.left _ _ h)

theorem before_entry {a b : ℕ} (h : a < b) : Before (n, i, a) (n, i, b) := .right _ (.right _ h)

variable (lt : LinkTables f size) (hsize : base.toNat + size < 2 ^ 64)

include lt hsize

theorem rewrites_address (hi : i < (headers f).count) (v : U64) :
    Rewrites f size base 8 (addressWord f base i) m (setShAddr m (sectionAt f base i) v) := by
  have ht := lt.symbolTables
  have hword : addressWord f base i = base + off ((headers f).offset i 16) := sectionAt_add
  have hlast := ht.header_offset_lt hi (d := 23) (by omega)
  refine ⟨fun a ha => Bytes.store_outside ha, fun a ha => ?_, fun t o hlive ho hmark => ?_⟩
  · rw [hword] at ha
    exact ha.within (by unfold Records.Table.offset at *; omega) (by omega)
  · have hlt : o < size := Nat.lt_of_lt_of_le ho.2 (lt.wellFormed.stop_le hlive)
    exact (ht.not_inWord hsize hlt hmark).1 i hi

theorem rewrites_value (hp : SymbolIn f p) (v : U64) :
    Rewrites f size base 8 (valueWord f base p) m (setSyValue m (symbolAt f base p) v) := by
  have ht := lt.symbolTables
  have hword : valueWord f base p = base + off ((entries f p.1).offset p.2 8) := symbolAt_add
  have hlast := ht.offset_lt hp (d := 15) (by omega)
  refine ⟨fun a ha => Bytes.store_outside ha, fun a ha => ?_, fun t o hlive ho hmark => ?_⟩
  · rw [hword] at ha
    exact ha.within (by unfold Records.Table.offset at *; omega) (by omega)
  · have hlt : o < size := Nat.lt_of_lt_of_le ho.2 (lt.wellFormed.stop_le hlive)
    exact (ht.not_inWord hsize hlt hmark).2 p hp

theorem rewrites_field (hin : FieldsInside f size) (hq : RelocationIn f q)
    (hm : ∀ a, ¬Bytes.InWord 4 (fieldWord f base q) a → m' a = m a) :
    Rewrites f size base 4 (fieldWord f base q) m m' := by
  refine ⟨hm, fun a ha => ?_, fun t o hlive ho _ => lt.field_not_held hsize hq hlive ho⟩
  rw [fieldWord, ← off_toNat_self (place f q.1 q.2)] at ha
  exact ha.within (hin q hq) (by omega)

/-! ### One iteration -/

theorem Within.step_sections (h : Within f base (.sections i) c) :
    Proceeds f size base (.sections i) c (c.step strCmp (envAt f base) defs) := by
  obtain ⟨point, m₁, queries⟩ := c
  obtain ⟨hi, rfl⟩ : i ≤ (headers f).count ∧ point = _ := h.stands
  have hlt : sectionAt f base i < (envAt f base).rShtable.tEnd ↔ i < (headers f).count :=
    header_lt lt.wellFormed.headersWhole lt.wellFormed.headersInside hsize hi
  have hnext : sectionAt f base i + (envAt f base).rShtable.tBsize = sectionAt f base (i + 1) :=
    header_succ
  by_cases hin : i < (headers f).count
  · have hread := h.intact.readsHeader lt.wellFormed hin
    by_cases hnobits : shType m₁ (sectionAt f base i) = shtNobits ∧ shSize m₁ (sectionAt f base i) ≠ 0
    · simp only [Config.step, if_pos (hlt.mpr hin), if_pos hnobits]
      exact Proceeds.halt rfl ⟨_, _, rfl⟩
    · simp only [Config.step, if_pos (hlt.mpr hin), if_neg hnobits, hnext]
      refine h.rewrite (.sections (i + 1)) (rewrites_address lt hsize hin _)
        ⟨hin, rfl⟩ (before_header (by omega)) (fun k hk hpast d hd hword => ?_) fun k hk hpast hold => ?_
      · have hself := (lt.symbolTables.address_header hsize hin hk (by omega) hword).1
        exact absurd hpast (by rw [← hself]; exact Nat.lt_irrefl i)
      · obtain rfl : k = i := by
          have hle : k < i + 1 := hpast
          have hge : ¬k < i := hold
          omega
        have hoffset : shOffset m₁ (sectionAt f base k) = shOffset f (header f k) := hread.offset
        rw [← hoffset]
        exact Bytes.load_store (by decide)
  · simp only [Config.step, if_neg (mt hlt.mp hin)]
    refine h.goto (.symbols 0) rfl ⟨Nat.zero_le _, rfl⟩
      (before_pass (by decide)) fun k hk _ => ?_
    exact Nat.lt_of_lt_of_le hk (Nat.le_of_not_lt hin)

theorem Within.step_symbols (h : Within f base (.symbols i) c) :
    Proceeds f size base (.symbols i) c (c.step strCmp (envAt f base) defs) := by
  obtain ⟨point, m₁, queries⟩ := c
  obtain ⟨hi, rfl⟩ : i ≤ (headers f).count ∧ point = _ := h.stands
  have hlt : sectionAt f base i < (envAt f base).rShtable.tEnd ↔ i < (headers f).count :=
    header_lt lt.wellFormed.headersWhole lt.wellFormed.headersInside hsize hi
  have hnext : sectionAt f base i + (envAt f base).rShtable.tBsize = sectionAt f base (i + 1) :=
    header_succ
  by_cases hin : i < (headers f).count
  · have hread := h.intact.readsHeader lt.wellFormed hin
    by_cases htype : shType f (header f i) = shtSymtab
    · have htype₁ : shType m₁ (sectionAt f base i) = shtSymtab := hread.type.trans htype
      cases hc : firstFailure (symtabChecks (envAt f base) m₁ (sectionAt f base i)) with
      | some e =>
          simp only [Config.step, if_pos (hlt.mpr hin), if_pos htype₁, hc]
          exact Proceeds.halt rfl ⟨_, _, rfl⟩
      | none =>
          have hent : shEntsize f (header f i) ≠ 0 := by
            unfold symtabChecks at hc
            rw [Sweep.firstFailure_append_eq_none, Sweep.firstFailure_append_eq_none] at hc
            have hent₁ : shEntsize m₁ (sectionAt f base i) = shEntsize f (header f i) := hread.entsize
            rw [← hent₁]
            exact Sweep.firstFailure_check_eq_none.mp hc.1.1
          have htable : tableAt (envAt f base) m₁ (sectionAt f base i) = tableOf f base i :=
            hread.tableAt
          simp only [Config.step, if_pos (hlt.mpr hin), if_pos htype₁, hc, htable, tableOf_tStart]
          exact h.goto (.symbol i 0) rfl
            ⟨hin, htype, hent, Nat.zero_le _, _, rfl⟩
            (before_entry (Nat.lt_of_le_of_lt (Nat.sub_le _ _) count_lt)) fun _ _ _ => trivial
    · have htype₁ : shType m₁ (sectionAt f base i) ≠ shtSymtab := fun e =>
        htype (hread.type.symm.trans e)
      simp only [Config.step, if_pos (hlt.mpr hin), if_neg htype₁, hnext]
      exact h.goto (.symbols (i + 1)) rfl ⟨hin, rfl⟩ (before_header (by omega))
        fun _ _ _ => trivial
  · simp only [Config.step, if_neg (mt hlt.mp hin)]
    exact h.goto (.relocations 0) rfl ⟨Nat.zero_le _, rfl⟩ (before_pass (by decide))
      fun _ _ _ => trivial

theorem Within.step_symbol (h : Within f base (.symbol i j) c) :
    Proceeds f size base (.symbol i j) c (c.step strCmp (envAt f base) defs) := by
  obtain ⟨point, m₁, queries⟩ := c
  obtain ⟨hi, htype, hent, hj, strTable, hpoint⟩ := h.stands
  obtain rfl : point = _ := hpoint
  have hlive := live_symtab hi htype
  have hlt : symbolAt f base (i, j) < (tableOf f base i).tEnd ↔ j < (entries f i).count :=
    entry_lt (tableOf_tEnd lt.wellFormed hlive hent) (lt.wellFormed.stop_le hlive) hsize hent hj
  by_cases hin : j < (entries f i).count
  · have hp : SymbolIn f (i, j) := ⟨hi, htype, hin⟩
    cases hc : firstFailure (symbolChecks (envAt f base) m₁ strTable (symbolAt f base (i, j))) with
    | some e =>
        simp only [Config.step, if_pos (hlt.mpr hin), hc]
        exact Proceeds.halt rfl ⟨_, _, rfl⟩
    | none =>
        have hnext : symbolAt f base (i, j) + (tableOf f base i).tBsize = symbolAt f base (i, j + 1) :=
          entry_succ
        simp only [Config.step, if_pos (hlt.mpr hin), hc, hnext]
        exact h.rewrite (.symbol i (j + 1)) (rewrites_value lt hsize hp _)
          ⟨hi, htype, hent, hin, _, rfl⟩ (before_entry (by omega))
          (fun k hk _ d hd => lt.symbolTables.value_header hsize hp hk (by omega))
          fun k _ _ hold => absurd trivial hold
  · have hnext : sectionAt f base i + (envAt f base).rShtable.tBsize = sectionAt f base (i + 1) :=
      header_succ
    simp only [Config.step, if_neg (mt hlt.mp hin), hnext]
    exact h.goto (.symbols (i + 1)) rfl ⟨hi, rfl⟩ (before_header (by omega)) fun _ _ _ => trivial

theorem Within.step_relocations (h : Within f base (.relocations i) c) :
    Proceeds f size base (.relocations i) c (c.step strCmp (envAt f base) defs) := by
  obtain ⟨point, m₁, queries⟩ := c
  obtain ⟨hi, rfl⟩ : i ≤ (headers f).count ∧ point = _ := h.stands
  have hlt : sectionAt f base i < (envAt f base).rShtable.tEnd ↔ i < (headers f).count :=
    header_lt lt.wellFormed.headersWhole lt.wellFormed.headersInside hsize hi
  have hnext : sectionAt f base i + (envAt f base).rShtable.tBsize = sectionAt f base (i + 1) :=
    header_succ
  by_cases hin : i < (headers f).count
  · have hread := h.intact.readsHeader lt.wellFormed hin
    have htype : shType m₁ (sectionAt f base i) = shType f (header f i) := hread.type
    by_cases hrel : shType m₁ (sectionAt f base i) = shtRel ∨ shType m₁ (sectionAt f base i) = shtRela
    · have hrela : shType f (header f i) = shtRela :=
        htype ▸ hrel.resolve_left fun e => lt.explicit i hin (htype.symm.trans e)
      cases hc : firstFailure (tableChecks (envAt f base) m₁ (sectionAt f base i)) with
      | some e =>
          simp only [Config.step, if_pos (hlt.mpr hin), if_pos hrel, hc]
          exact Proceeds.halt rfl ⟨_, _, rfl⟩
      | none =>
          have hent := ((lt.tableChecks_iff hsize h.intact hin hrela).mp hc).1
          have htable : tableAt (envAt f base) m₁ (sectionAt f base i) = tableOf f base i :=
            hread.tableAt
          have hstart : shAddr m₁ (headerAt (envAt f base) (targetId m₁ (sectionAt f base i))) =
              base + shOffset f (header f (target f i)) := by
            rw [← h.sections _ (lt.target i hin hrela) trivial]
            exact congrArg (shAddr m₁) (relSectHdr_sectionAt h.intact lt.wellFormed hin)
          simp only [Config.step, if_pos (hlt.mpr hin), if_pos hrel, hc, htable, tableOf_tStart, hstart]
          exact h.goto (.relocation i 0) rfl
            ⟨hin, hrela, hent, Nat.zero_le _, _, _, _, rfl⟩
            (before_entry (Nat.lt_of_le_of_lt (Nat.sub_le _ _) count_lt)) fun _ _ _ => trivial
    · simp only [Config.step, if_pos (hlt.mpr hin), if_neg hrel, hnext]
      exact h.goto (.relocations (i + 1)) rfl ⟨hin, rfl⟩ (before_header (by omega))
        fun _ _ _ => trivial
  · simp only [Config.step, if_neg (mt hlt.mp hin)]
    exact Proceeds.halt rfl ⟨_, _, rfl⟩

theorem Within.step_relocation (hfields : FieldsInside f size) (h : Within f base (.relocation i j) c) :
    Proceeds f size base (.relocation i j) c (c.step strCmp (envAt f base) defs) := by
  obtain ⟨point, m₁, queries⟩ := c
  obtain ⟨hi, htype, hent, hj, explicitAddend, symtbl, relSectSize, hpoint⟩ := h.stands
  obtain rfl : point = _ := hpoint
  have hlive := live_rela hi htype
  have hlt : base + entry f i j < (tableOf f base i).tEnd ↔ j < (entries f i).count :=
    entry_lt (tableOf_tEnd lt.wellFormed hlive hent) (lt.wellFormed.stop_le hlive) hsize hent hj
  by_cases hin : j < (entries f i).count
  · have hq : RelocationIn f (i, j) := ⟨hi, htype, hin⟩
    have hplace : base + shOffset f (header f (target f i)) + rOffset m₁ (base + entry f i j) =
        fieldWord f base (i, j) := by
      rw [rOffset_relocationAt lt h.intact hq, BitVec.add_assoc]
      rfl
    cases hc : firstFailure (entryChecks explicitAddend symtbl
        (base + shOffset f (header f (target f i))) (base + entry f i j) m₁) with
    | some e =>
        simp only [Config.step, if_pos (hlt.mpr hin), hc]
        exact Proceeds.halt rfl ⟨_, _, rfl⟩
    | none =>
        have hnext : base + entry f i j + (tableOf f base i).tBsize = base + entry f i (j + 1) :=
          entry_succ
        simp only [Config.step, if_pos (hlt.mpr hin), hc, hnext]
        refine h.rewrite (.relocation i (j + 1)) (rewrites_field lt hsize hfields hq fun a ha => ?_)
          ⟨hi, htype, hent, hin, _, _, _, rfl⟩ (before_entry (by omega))
          (fun k hk _ d hd => ?_) fun k _ _ hold => absurd trivial hold
        · rw [← hplace] at ha
          exact loaderApplyRelocation_other (Nat.le_of_not_lt ha)
        · rw [sectionAt_add]
          exact lt.field_not_held hsize hq (t := none) trivial
            (lt.symbolTables.holds_header hk (by omega))
  · have hnext : sectionAt f base i + (envAt f base).rShtable.tBsize = sectionAt f base (i + 1) :=
      header_succ
    simp only [Config.step, if_neg (mt hlt.mp hin), hnext]
    exact h.goto (.relocations (i + 1)) rfl ⟨hi, rfl⟩ (before_header (by omega)) fun _ _ _ => trivial

/-- **One iteration** of a load that is within its file. -/
theorem Within.step (hfields : FieldsInside f size) (h : Within f base spot c) :
    Proceeds f size base spot c (c.step strCmp (envAt f base) defs) := by
  cases spot with
  | sections i => exact h.step_sections lt hsize
  | symbols i => exact h.step_symbols lt hsize
  | symbol i j => exact h.step_symbol lt hsize
  | relocations i => exact h.step_relocations lt hsize
  | relocation i j => exact h.step_relocation lt hsize hfields

/-- **A load that is within its file ends**, and changes nothing else. -/
theorem Within.ends (hfields : FieldsInside f size) (h : Within f base spot c) :
    ∃ n, (c.run strCmp (envAt f base) defs n).Halted ∧
      ∀ a, ¬Bytes.InWord size base a → (c.run strCmp (envAt f base) defs n).memory a = c.memory a := by
  generalize hrest : spot.rest f = rest
  induction rest using before_wf.induction generalizing spot c with
  | _ rest ih =>
      have hstep : Proceeds f size base spot c (c.step strCmp (envAt f base) defs) :=
        h.step lt hsize hfields
      obtain ⟨houtside, hgoes⟩ := hstep
      rcases hgoes with hhalted | ⟨spot', h', hless⟩
      · exact ⟨1, hhalted, houtside⟩
      · obtain ⟨n, hn, hout⟩ := ih _ (hrest ▸ hless) h' rfl
        exact ⟨n + 1, hn, fun a ha => (hout a ha).trans (houtside a ha)⟩

end confinement

/-! ### Loads -/

section loads
variable {strCmp : Memory → Addr → List U8 → ℤ} {m m' : Memory} {base : Addr} {size : ℕ}
  {defs queries queries' : List LoaderSymbol} {codes : List U16}

theorem within_start :
    Within (view base m) base (.sections 0) (.start (loaderInit base m) m queries) :=
  ⟨⟨Nat.zero_le _, by rw [loaderInit_view]; rfl⟩, fun _ _ _ _ _ => rfl,
    fun _ _ hpast => absurd hpast (Nat.not_lt_zero _)⟩

end loads

instance {f : Memory} {size : ℕ} : Decidable (FieldsInside f size) :=
  inferInstanceAs (Decidable (∀ _, _))

end KernelTk.Loader
