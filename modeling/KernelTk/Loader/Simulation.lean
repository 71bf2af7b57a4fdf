import KernelTk.Loader.Placement

/-! # The iterations of a load at an address

An iteration of the loader at an address is that of the load of the file.

* **Checks.** The checks of the loader are those of the file (`symtabChecks_eq`, `symbolChecks_eq`,
  `tableChecks_eq`, `entryChecks_eq`): what they read is intact, and a look-up that is exact compares
  subscripts.
* **Values.** The value of a symbol is the address that the stage assigns (`symbolValue_eq`), and the
  queries are filled as the stage says (`answer_eq`), the names being the strings of the file.
* **Relocations.** The displacement of an entry does not depend on where the file lies, the symbol and the
  place being moved by the same distance (`displacement_eq`); so neither does what the processor stores
  (`applied_eq`).
* **Iterations.** What is written is what the next stage expects: `Laid.assign_section`,
  `Laid.assign_symbol` and `Laid.relocate` for the three kinds of writes, and `Placed.next` for an
  iteration, by cases on the spot.
* **Runs.** `Copy.placed_run` : from a copy of the file, as long as the iterations are sound, the loader
  comes to the stages of the load of the file. -/

namespace KernelTk.Loader

open Sweep (check firstFailure)

section simulation
variable {strCmp : Memory → Addr → List U8 → ℤ} {f m : Memory} {size i j : ℕ} {base : Addr}
  {s : Stage} {c : Config} {a a' : Addr}

/-! ### Checks -/

theorem ReadsHeader.entsizeChecks (h : ReadsHeader m a f a') :
    entsizeChecks m a = entsizeChecks f a' := by
  unfold Loader.entsizeChecks
  rw [h.entsize]

theorem ReadsHeader.symtabId (h : ReadsHeader m a f a') : symtabId m a = symtabId f a' := by
  unfold Loader.symtabId
  rw [h.link]

theorem ReadsHeader.targetId (h : ReadsHeader m a f a') : targetId m a = targetId f a' := by
  unfold Loader.targetId
  rw [h.info]

theorem ReadsHeader.tableAt (h : ReadsHeader m (base + header f i) f (header f i)) :
    tableAt (envAt f base) m (base + header f i) = tableOf f base i := by
  unfold tableOf Loader.tableAt
  rw [h.offset, h.size, h.entsize]

theorem headerAt_link : headerAt (envAt f base) (symtabId f (header f i)) =
    base + header f (link f i) := headerAt_envAt _

theorem headerAt_target : headerAt (envAt f base) (targetId f (header f i)) =
    base + header f (target f i) := headerAt_envAt _

theorem headerChecks_eq (hI : Intact f base m) (wf : WellFormed f size) (fit : LoadsAt f size base)
    {id : U16} (type : U32) (hex : (envAt f base).rShtable.Exact (id.setWidth 64)) :
    firstFailure (headerChecks (envAt f base) m id type) =
      firstFailure (fileHeaderChecks f id.toNat type) := by
  unfold headerChecks fileHeaderChecks indexChecks
  apply Sweep.firstFailure_append_congr
  · rw [Sweep.firstFailure_check, Sweep.firstFailure_check]
    simp only [headerAt_lt_iff wf fit hex]
  · intro hpass
    have hid : id.toNat < (headers f).count := Sweep.firstFailure_check_eq_none.mp hpass
    rw [headerAt_envAt, Sweep.firstFailure_check, Sweep.firstFailure_check,
      (hI.readsHeader wf hid).type]

theorem symtabChecks_eq (hI : Intact f base m) (wf : WellFormed f size) (fit : LoadsAt f size base)
    (hi : i < (headers f).count)
    (hex : firstFailure (entsizeChecks m (base + header f i)) = none →
      (envAt f base).rShtable.Exact ((symtabId m (base + header f i)).setWidth 64)) :
    firstFailure (symtabChecks (envAt f base) m (base + header f i)) =
      firstFailure (fileSymtabChecks f i) := by
  have hr := hI.readsHeader wf hi
  rw [hr.entsizeChecks, hr.symtabId] at hex
  unfold symtabChecks fileSymtabChecks
  rw [hr.entsizeChecks, hr.symtabId]
  refine Sweep.firstFailure_append_congr (Sweep.firstFailure_append_congr rfl fun hpass => ?_)
    fun hpass => ?_
  · exact headerChecks_eq hI wf fit _ (hex hpass)
  · have hlink : link f i < (headers f).count := by
      simp only [fileHeaderChecks, Sweep.firstFailure_append_eq_none,
        Sweep.firstFailure_check_eq_none] at hpass
      exact hpass.2.1
    rw [headerAt_envAt]
    exact congrArg firstFailure (hI.readsHeader wf hlink).entsizeChecks

theorem tableChecks_eq (hI : Intact f base m) (wf : WellFormed f size) (fit : LoadsAt f size base)
    (hi : i < (headers f).count)
    (hex : firstFailure (entsizeChecks m (base + header f i)) = none →
      (envAt f base).rShtable.Exact ((symtabId m (base + header f i)).setWidth 64) ∧
      (firstFailure (headerChecks (envAt f base) m (symtabId m (base + header f i)) shtSymtab ++
          entsizeChecks m (headerAt (envAt f base) (symtabId m (base + header f i)))) = none →
        (envAt f base).rShtable.Exact ((targetId m (base + header f i)).setWidth 64))) :
    firstFailure (tableChecks (envAt f base) m (base + header f i)) =
      firstFailure (fileTableChecks f i) := by
  have hr := hI.readsHeader wf hi
  rw [hr.entsizeChecks, hr.symtabId, hr.targetId] at hex
  -- the symbol table, once its header has passed its checks
  have hentsize : firstFailure (fileHeaderChecks f (link f i) shtSymtab) = none →
      entsizeChecks m (headerAt (envAt f base) (symtabId f (header f i))) =
        entsizeChecks f (header f (link f i)) := by
    intro hpass
    simp only [fileHeaderChecks, Sweep.firstFailure_append_eq_none,
      Sweep.firstFailure_check_eq_none] at hpass
    rw [headerAt_envAt]
    exact (hI.readsHeader wf hpass.1).entsizeChecks
  unfold tableChecks fileTableChecks
  rw [hr.entsizeChecks, hr.symtabId, hr.targetId]
  refine Sweep.firstFailure_append_congr (Sweep.firstFailure_append_congr
    (Sweep.firstFailure_append_congr rfl fun hpass => ?_) fun hpass => ?_) fun hpass => ?_
  · exact headerChecks_eq hI wf fit _ (hex hpass).1
  · exact congrArg firstFailure (hentsize (Sweep.firstFailure_append_eq_none.mp hpass).2)
  · rw [Sweep.firstFailure_append_eq_none, Sweep.firstFailure_append_eq_none] at hpass
    obtain ⟨⟨hfirst, hlink⟩, hsym⟩ := hpass
    obtain ⟨hexlink, hextarget⟩ := hex hfirst
    refine headerChecks_eq hI wf fit _ (hextarget ?_)
    rw [Sweep.firstFailure_append_eq_none, headerChecks_eq hI wf fit _ hexlink, hentsize hlink]
    exact ⟨hlink, hsym⟩

/-! ### Symbols -/

section symbol
variable (hI : Intact f base m) (wf : WellFormed f size) (hi : i < (headers f).count)
  (ht : shType f (header f i) = shtSymtab) (hj : j < (entries f i).count)

include hI wf hi ht hj

theorem syName_eq : syName m (base + entry f i j) = syName f (entry f i j) := by
  have h := hI.entry_load wf (live_symtab hi ht) hj 0 4 (by rw [ht]; decide) fun _ => by omega
  rwa [add_off_zero, add_off_zero] at h

theorem syShndx_eq : syShndx m (base + entry f i j) = syShndx f (entry f i j) :=
  hI.entry_load wf (live_symtab hi ht) hj 6 2 (by rw [ht]; decide) fun _ => by omega

theorem located_iff : located m (base + entry f i j) ↔ located f (entry f i j) := by
  unfold located
  rw [syShndx_eq hI wf hi ht hj]

theorem nameOf_eq : nameOf m (tableOf f base (link f i)) (base + entry f i j) =
    base + entry f (link f i) (nameIndex f i j) := by
  unfold nameOf
  rw [syName_eq hI wf hi ht hj, tableOf_entry, BitVec.toNat_setWidth_of_le (by decide)]
  rfl

theorem symbolChecks_eq (fit : LoadsAt f size base) (hok : SymtabOk f i)
    (hex : (tableOf f base (link f i)).Exact ((syName m (base + entry f i j)).setWidth 64))
    (hexsect : firstFailure (indexChecks (tableOf f base (link f i))
        (nameOf m (tableOf f base (link f i)) (base + entry f i j))) = none →
      located m (base + entry f i j) →
        (envAt f base).rShtable.Exact ((syShndx m (base + entry f i j)).setWidth 64)) :
    firstFailure (symbolChecks (envAt f base) m (tableOf f base (link f i)) (base + entry f i j)) =
      firstFailure (fileSymbolChecks f i j) := by
  have hlive := hok.live_link
  have hname := tableOf_lt_iff wf fit hlive hok.linkEntsize hex
  have hindex : ((syName m (base + entry f i j)).setWidth 64).toNat = nameIndex f i j := by
    rw [BitVec.toNat_setWidth_of_le (by decide), syName_eq hI wf hi ht hj]
    rfl
  rw [hindex] at hname
  unfold symbolChecks fileSymbolChecks
  refine Sweep.firstFailure_append_congr_left ?_ fun hpass => ?_
  · unfold indexChecks nameOf
    rw [Sweep.firstFailure_check, Sweep.firstFailure_check]
    simp only [hname]
  · by_cases hl : located f (entry f i j)
    · have hlm := (located_iff hI wf hi ht hj).mpr hl
      have hexact := hexsect hpass hlm
      rw [if_pos hl, if_pos hlm]
      rw [syShndx_eq hI wf hi ht hj] at hexact ⊢
      exact headerChecks_eq hI wf fit _ hexact
    · rw [if_neg hl, if_neg fun hlm => hl ((located_iff hI wf hi ht hj).mp hlm)]

end symbol

theorem addressAt_zero : addressAt f 0 f (some i) j = syValue f (entry f i j) := by
  rw [← syValue_eq_addressAt]
  exact congrArg (syValue f) (BitVec.zero_add _)

theorem assigned_of_located (h : located f (entry f i j)) :
    assigned f base (some i) j = base + symbolOffset f i j := if_pos h

theorem assigned_of_not_located (h : ¬located f (entry f i j)) :
    assigned f base (some i) j = 0 := if_neg h

/-- The address that is assigned to a located symbol is not null. -/
theorem assigned_ne_zero (fit : LoadsAt f size base) (hi : i < (headers f).count)
    (ht : shType f (header f i) = shtSymtab) (hj : j < (entries f i).count)
    (hl : located f (entry f i j)) (hsect : sectionOf f i j < (headers f).count) :
    base + symbolOffset f i j ≠ 0 := by
  have hsum := fit.symbols i hi ht j hj hl hsect
  have hbase : base.toNat ≠ 0 := fun h => fit.nonnull (BitVec.eq_of_toNat_eq h)
  unfold symbolOffset sectionOf
  bv_omega

theorem assigned_eq_zero_iff (fit : LoadsAt f size base) (hv : s.Valid f)
    (hi : i < (headers f).count) (ht : shType f (header f i) = shtSymtab)
    (hj : j < (entries f i).count) (hp : s.spot.PastSymbol i j) :
    assigned f base (some i) j ≠ 0 ↔ located f (entry f i j) := by
  by_cases hl : located f (entry f i j)
  · rw [assigned_of_located hl]
    exact ⟨fun _ => hl, fun _ => assigned_ne_zero fit hi ht hj hl (hv.located i hi ht j hj hp hl)⟩
  · rw [assigned_of_not_located hl]
    exact ⟨fun h => absurd rfl h, fun h => absurd h hl⟩

/-- The value of a symbol is the address that the stage assigns. -/
theorem symbolValue_eq (hv : s.Valid f) (wf : WellFormed f size)
    (hlaid : Laid f size base s.spot s.image m) (hs : s.spot = .symbol i j)
    (hj : j < (entries f i).count) (hpass : firstFailure (fileSymbolChecks f i j) = none) :
    symbolValue strCmp (envAt f base) [] m (tableOf f base (link f i)) (base + entry f i j) =
      assigned f base (some i) j := by
  have hspot := hv.spot
  rw [hs] at hspot
  obtain ⟨hi, ht, -, -⟩ := hspot
  have hI := hlaid.intact hv wf
  have hshndx := syShndx_eq hI wf hi ht hj
  unfold symbolValue
  by_cases hl : located f (entry f i j)
  · have hundef : syShndx f (entry f i j) ≠ shnUndef := by
      intro hundef
      simp [located, checkSectionIndex, hundef] at hl
    have hahead : ¬s.spot.Past (some i) j := by
      rw [hs]
      show ¬(i < i ∨ i = i ∧ j < j)
      omega
    have hvalue : syValue m (base + entry f i j) = syValue f (entry f i j) := by
      rw [syValue_eq_addressAt, hlaid.ahead (some i) j (live_symtab hi ht) ht hj hahead,
        addressAt_zero]
    have hsect : shAddr m (base + header f (sectionOf f i j)) =
        base + shOffset f (header f (sectionOf f i j)) := by
      apply hlaid.shAddr ((symbolOk hpass).2 hl)
      rw [hs]
      trivial
    rw [hshndx, if_neg hundef, if_pos ((located_iff hI wf hi ht hj).mpr hl), hvalue,
      headerAt_envAt, assigned_of_located hl]
    show _ + shAddr m (base + header f (sectionOf f i j)) = _
    rw [hsect, symbolOffset, ← BitVec.add_assoc, BitVec.add_comm _ base, BitVec.add_assoc]
  · rw [if_neg fun hlm => hl ((located_iff hI wf hi ht hj).mp hlm), assigned_of_not_located hl]
    split <;> rfl

theorem holdsString_name (hI : Intact f base m) (wf : WellFormed f size)
    (fit : LoadsAt f size base) (hok : SymtabOk f i) {o : ℕ}
    (ho : (entries f (link f i)).Holds o)
    (hend : Terminated m (base + off o) (tableOf f base (link f i)).tEnd) :
    ∃ str, HoldsString f (off o) str ∧
      ∀ m', Intact f base m' → HoldsString m' (base + off o) str := by
  have hlive := hok.live_link
  have hstop : (entries f (link f i)).stop ≤ size := wf.stop_le hlive
  have hsize := fit.image
  have hlt := ho.2
  obtain ⟨k, hk, hzero⟩ := hend
  rw [tableOf_tEnd wf hlive hok.linkEntsize, toNat_add_off (by omega), toNat_add_off (by omega)]
    at hk
  -- no byte of a string table belongs to an address
  have hnot : ∀ k, ¬AddressByte f (some (link f i)) k := by
    rintro k ⟨haddress, -⟩
    have : shtSymtab = shtStrtab := haddress.symm.trans hok.linkType
    exact absurd this (by decide)
  have hbyte : ∀ m', Intact f base m' → ∀ l ≤ k, m' (base + off o + off l) = f (off o + off l) := by
    intro m' hI' l hl
    have hheld : (tables f (some (link f i))).Holds (o + l) := by
      have hlo := ho.1
      show (entries f (link f i)).start ≤ o + l ∧ o + l < (entries f (link f i)).stop
      omega
    rw [BitVec.add_assoc, ← off_add]
    exact hI' _ _ hlive hheld (Records.not_marked_of_holds wf.disjoint hlive hheld hnot)
  rw [hbyte m hI k (Nat.le_refl k)] at hzero
  obtain ⟨str, hlen, hstr⟩ := exists_string k (off o) hzero
  refine ⟨str, hstr, fun m' hI' => hstr.congr fun l hl => ?_⟩
  exact (hbyte m' hI' l (Nat.le_trans hl hlen)).symm

/-- The queries are filled as the stage says. -/
theorem answer_eq (hstr : ReadsString strCmp) (hI : Intact f base m) {m' : Memory}
    (hI' : Intact f base m') (hv : s.Valid f) (wf : WellFormed f size) (fit : LoadsAt f size base)
    (hs : s.spot = .symbol i j) (hj : j < (entries f i).count)
    (hpass : firstFailure (fileSymbolChecks f i j) = none)
    (hend : located f (entry f i j) → (∃ q ∈ s.queries base, q.sDefined = 0) →
      Terminated m (base + entry f (link f i) (nameIndex f i j)) (tableOf f base (link f i)).tEnd) :
    answer strCmp m' (base + entry f (link f i) (nameIndex f i j)) (assigned f base (some i) j)
        (s.queries base) = s.answered strCmp f i j base := by
  have hspot := hv.spot
  rw [hs] at hspot
  obtain ⟨hi, ht, hsymtab, -⟩ := hspot
  obtain ⟨hname, hsect⟩ := symbolOk hpass
  have hok := symtabOk hsymtab
  unfold answer Stage.answered
  by_cases hl : located f (entry f i j)
  · rw [assigned_of_located hl, if_pos hl, if_neg (assigned_ne_zero fit hi ht hj hl (hsect hl))]
    apply defineQuery_congr
    intro q hq hundef
    have hlive := hok.live_link
    have hstride : 0 < (tables f (some (link f i))).stride := Word.toNat_pos hok.linkEntsize
    obtain ⟨str, hfile, hmem⟩ := holdsString_name hI wf fit hok
      (Records.Table.holds_offset hname hstride) (hend hl ⟨q, hq, hundef⟩)
    exact hstr _ _ _ _ _ _ (hmem m' hI') hfile
  · rw [assigned_of_not_located hl, if_neg hl, if_pos rfl]

/-! ### Relocations -/

section relocation
variable (hI : Intact f base m) (wf : WellFormed f size) (hi : i < (headers f).count)
  (ht : shType f (header f i) = shtRel ∨ shType f (header f i) = shtRela)
  (hj : j < (entries f i).count)

theorem live_rel (hi : i < (headers f).count)
    (ht : shType f (header f i) = shtRel ∨ shType f (header f i) = shtRela) : Live f (some i) := by
  refine ⟨hi, ?_⟩
  rcases ht with ht | ht <;> rw [ht] <;> decide

include hI wf hi ht hj

theorem rel_load (d n : ℕ) (hd : d + n ≤ structSize (shType f (header f i))) :
    Bytes.load m (base + entry f i j + off d) n = Bytes.load f (entry f i j + off d) n := by
  refine hI.entry_load wf (live_rel hi ht) hj d n hd fun hsym => ?_
  rcases ht with ht | ht <;> rw [ht] at hsym <;> exact absurd hsym (by decide)

theorem rOffset_eq : rOffset m (base + entry f i j) = rOffset f (entry f i j) := by
  have h := rel_load hI wf hi ht hj 0 8 (by rcases ht with ht | ht <;> rw [ht] <;> decide)
  rwa [add_off_zero, add_off_zero] at h

theorem rInfo_eq : rInfo m (base + entry f i j) = rInfo f (entry f i j) :=
  rel_load hI wf hi ht hj 8 8 (by rcases ht with ht | ht <;> rw [ht] <;> decide)

theorem rAddend_eq (hrela : shType f (header f i) = shtRela) :
    rAddend m (base + entry f i j) = rAddend f (entry f i j) :=
  rel_load hI wf hi ht hj 16 8 (by rw [hrela]; decide)

theorem symbolOf_eq : symbolOf (tableOf f base (link f i)) (base + entry f i j) m =
    base + entry f (link f i) (symbolIndex f i j) := by
  unfold symbolOf
  rw [rInfo_eq hI wf hi ht hj, tableOf_entry, BitVec.toNat_setWidth_of_le (by decide)]
  rfl

end relocation

theorem symbolOf_value (hv : s.Valid f) (wf : WellFormed f size)
    (hlaid : Laid f size base s.spot s.image m) (hs : s.spot = .relocation i j)
    (hj : j < (entries f i).count)
    (hindex : symbolIndex f i j < (entries f (link f i)).count) :
    syValue m (symbolOf (tableOf f base (link f i)) (base + entry f i j) m) =
      assigned f base (some (link f i)) (symbolIndex f i j) := by
  have hspot := hv.spot
  rw [hs] at hspot
  obtain ⟨hi, ht, hpass, -⟩ := hspot
  have hok := tableOk hpass
  rw [symbolOf_eq (hlaid.intact hv wf) wf hi ht hj, syValue_eq_addressAt]
  apply hlaid.past _ _ (live_symtab hok.link hok.linkType) hok.linkType hindex
  rw [hs]
  trivial

theorem add_sub_add (x y : Addr) : base + x - (base + y) = x - y := by
  grind

/-- The displacement does not depend on where the file lies. -/
theorem displacement_eq (x addend p : U64) :
    base + x + addend - (base + p) = x + addend - p := by
  grind

/-- The call that an entry asks of the processor is that of the file. -/
theorem applied_eq (hv : s.Valid f) (wf : WellFormed f size)
    (hlaid : Laid f size base s.spot s.image m) (hs : s.spot = .relocation i j)
    (hj : j < (entries f i).count)
    (hindex : symbolIndex f i j < (entries f (link f i)).count)
    (hl : located f (entry f (link f i) (symbolIndex f i j))) :
    (applied (shType f (header f i) = shtRela) (tableOf f base (link f i))
        (base + shOffset f (header f (target f i))) (base + entry f i j) m).1 =
      (fileApplied f s.image i j).1 ∧
    ∀ o : Addr, m (base + o) = s.image o →
      (applied (shType f (header f i) = shtRela) (tableOf f base (link f i))
        (base + shOffset f (header f (target f i))) (base + entry f i j) m).2 (base + o) =
      (fileApplied f s.image i j).2 o := by
  have hspot := hv.spot
  rw [hs] at hspot
  obtain ⟨hi, ht, hpass, -⟩ := hspot
  have hI := hlaid.intact hv wf
  have haddend : (if (decide (shType f (header f i) = shtRela)) = true then
      rAddend m (base + entry f i j) else 0) =
      if shType f (header f i) = shtRela then rAddend f (entry f i j) else 0 := by
    by_cases hrela : shType f (header f i) = shtRela
    · rw [if_pos (decide_eq_true hrela), if_pos hrela, rAddend_eq hI wf hi ht hj hrela]
    · rw [if_neg (fun h => hrela (of_decide_eq_true h)), if_neg hrela]
  unfold applied fileApplied
  rw [symbolOf_value hv wf hlaid hs hj hindex, assigned_of_located hl, rOffset_eq hI wf hi ht hj,
    rInfo_eq hI wf hi ht hj, haddend, BitVec.add_assoc base]
  exact ⟨(loaderApplyRelocation_congr (displacement_eq _ _ _)).1, fun o ho =>
    (loaderApplyRelocation_congr (displacement_eq _ _ _)).2 (base + o) o
      (add_sub_add o (place f i j)) ho⟩

theorem entryChecks_eq (hv : s.Valid f) (wf : WellFormed f size) (fit : LoadsAt f size base)
    (hlaid : Laid f size base s.spot s.image m) (hs : s.spot = .relocation i j)
    (hj : j < (entries f i).count)
    (hex : elf64RSym (rInfo m (base + entry f i j)) ≠ 0 → (tableOf f base (link f i)).Exact
      ((elf64RSym (rInfo m (base + entry f i j))).setWidth 64)) :
    firstFailure (entryChecks (shType f (header f i) = shtRela) (tableOf f base (link f i))
        (base + shOffset f (header f (target f i))) (base + entry f i j) m) =
      firstFailure (fileEntryChecks f s.image i j) := by
  have hspot := hv.spot
  rw [hs] at hspot
  obtain ⟨hi, ht, hpass, -⟩ := hspot
  have hok := tableOk hpass
  have hI := hlaid.intact hv wf
  have hinfo := rInfo_eq hI wf hi ht hj
  rw [hinfo] at hex
  unfold entryChecks fileEntryChecks
  rw [hinfo]
  refine Sweep.firstFailure_append_congr (Sweep.firstFailure_append_congr
    (Sweep.firstFailure_append_congr rfl fun hpass => ?_) fun hpass => ?_) fun hpass => ?_
  · have hsym := Sweep.firstFailure_check_eq_none.mp hpass
    have hfound := tableOf_lt_iff wf fit (live_symtab hok.link hok.linkType) hok.linkEntsize
      (hex hsym)
    have hindex : ((elf64RSym (rInfo f (entry f i j))).setWidth 64).toNat = symbolIndex f i j :=
      BitVec.toNat_setWidth_of_le (by decide)
    rw [hindex] at hfound
    unfold indexChecks symbolOf
    rw [hinfo, Sweep.firstFailure_check, Sweep.firstFailure_check]
    simp only [hfound]
  · simp only [Sweep.firstFailure_append_eq_none, Sweep.firstFailure_check_eq_none] at hpass
    have hvalue := assigned_eq_zero_iff fit hv hok.link hok.linkType hpass.2
      (by rw [hs]; trivial)
    rw [Sweep.firstFailure_check, Sweep.firstFailure_check,
      symbolOf_value hv wf hlaid hs hj hpass.2]
    simp only [hvalue]
  · simp only [Sweep.firstFailure_append_eq_none, Sweep.firstFailure_check_eq_none] at hpass
    rw [Sweep.firstFailure_check, Sweep.firstFailure_check,
      (applied_eq hv wf hlaid hs hj hpass.1.2 hpass.2).1]

theorem past_relocation (t : Option ℕ) (k : ℕ) : (Spot.relocation i j).Past t k := by
  cases t <;> trivial

/-- **Relocation** : the bytes of the image are those of the next stage. -/
theorem Laid.relocate (hv : s.Valid f) (wf : WellFormed f size) (fit : LoadsAt f size base)
    (hlaid : Laid f size base s.spot s.image m) (hs : s.spot = .relocation i j)
    (hj : j < (entries f i).count)
    (hindex : symbolIndex f i j < (entries f (link f i)).count)
    (hl : located f (entry f (link f i) (symbolIndex f i j))) :
    Laid f size base (.relocation i (j + 1)) (fileApplied f s.image i j).2
      (applied (shType f (header f i) = shtRela) (tableOf f base (link f i))
        (base + shOffset f (header f (target f i))) (base + entry f i j) m).2 := by
  have hspot := hv.spot
  rw [hs] at hspot
  obtain ⟨hi, ht, hpass, -⟩ := hspot
  have hsize := fit.image
  have haddress : ∀ t k, Live f t → HasAddress f t → k < (tables f t).count →
      addressAt f base (applied (shType f (header f i) = shtRela) (tableOf f base (link f i))
        (base + shOffset f (header f (target f i))) (base + entry f i j) m).2 t k =
      addressAt f base m t k := by
    intro t k htable ha hk
    obtain ⟨hstride, -⟩ := address_stop_le wf htable ha hk
    apply Bytes.load_congr
    intro l hlt
    have hheld := Records.Table.holds_offset hk
      (by omega : addressPlace t + l < (tables f t).stride)
    have hout := relocated_outside wf (by omega) hi ht (tableOk hpass).target hj htable hheld
    apply loaderApplyRelocation_other
    rw [rOffset_eq (hlaid.intact hv wf) wf hi ht hj]
    have hbyte : base + off ((tables f t).offset k (addressPlace t)) + BitVec.ofNat 64 l -
        (base + shOffset f (header f (target f i)) + rOffset f (entry f i j)) =
        off ((tables f t).offset k (addressPlace t + l)) - place f i j := by
      rw [Records.Table.offset_add, off_add, BitVec.add_assoc, BitVec.add_assoc base]
      exact add_sub_add _ (place f i j)
    rwa [hbyte]
  refine ⟨fun o ho hmark => ?_, fun t k htable ha hk _ => ?_, fun t k _ _ _ hp => ?_⟩
  · exact (applied_eq hv wf hlaid hs hj hindex hl).2 (off o) (hlaid.bytes o ho hmark)
  · rw [haddress t k htable ha hk]
    apply hlaid.past t k htable ha hk
    rw [hs]
    exact past_relocation t k
  · exact absurd (past_relocation t k) hp

/-! ### Iterations -/

theorem Placed.stop {pass : Pass} {e : U8} (h : Placed f size base s c) :
    Placed f size base (s.stop pass e) ⟨.halted pass e, c.memory, c.queries⟩ :=
  ⟨rfl, h.queries, h.laid⟩

theorem Stage.point_of_none (hresult : s.result = none) : s.point f base = s.spot.point f base := by
  unfold Stage.point
  rw [hresult]

theorem Placed.point_of_spot {spot : Spot} (h : Placed f size base s c) (hresult : s.result = none)
    (hs : s.spot = spot) : c.point = spot.point f base := by
  rw [h.point, Stage.point_of_none hresult, hs]

theorem Placed.of_spot {queries : List LoaderSymbol} (hresult : s.result = none)
    (hqueries : queries = s.queries base) (hlaid : Laid f size base s.spot s.image m) :
    Placed f size base s ⟨s.spot.point f base, m, queries⟩ :=
  ⟨(Stage.point_of_none hresult).symm, hqueries, hlaid⟩

theorem Laid.assign_section {image : Memory} {spot spot' : Spot}
    (h : Laid f size base spot image m) (wf : WellFormed f size) (fit : LoadsAt f size base)
    (hi : i < (headers f).count)
    (hpast : ∀ t k, spot'.Past t k ↔ spot.Past t k ∨ t = none ∧ k = i) :
    Laid f size base spot' image
      (setShAddr m (base + header f i) (base + shOffset f (header f i))) := by
  have hplace : base + header f i + 16 =
      base + off ((tables f none).offset i (addressPlace none)) := by
    show base + header f i + off 16 = _
    rw [BitVec.add_assoc, header_add]
    rfl
  unfold setShAddr
  rw [hplace]
  exact h.assign wf fit (t := none) trivial trivial hi fun t k _ _ _ => hpast t k

theorem Laid.assign_symbol {image : Memory} {spot spot' : Spot}
    (h : Laid f size base spot image m) (wf : WellFormed f size) (fit : LoadsAt f size base)
    (hi : i < (headers f).count) (ht : shType f (header f i) = shtSymtab)
    (hj : j < (entries f i).count)
    (hpast : ∀ t k, spot'.Past t k ↔ spot.Past t k ∨ t = some i ∧ k = j) :
    Laid f size base spot' image
      (setSyValue m (base + entry f i j) (assigned f base (some i) j)) := by
  have hplace : base + entry f i j + 8 =
      base + off ((tables f (some i)).offset j (addressPlace (some i))) := by
    show base + entry f i j + off 8 = _
    rw [BitVec.add_assoc, entry_add]
    rfl
  unfold setSyValue
  rw [hplace]
  exact h.assign wf fit (t := some i) (live_symtab hi ht) ht hj fun t k _ _ _ => hpast t k

section past
variable {t : Option ℕ} {k : ℕ}

theorem past_sections_succ : (Spot.sections (i + 1)).Past t k ↔
    (Spot.sections i).Past t k ∨ t = none ∧ k = i := by
  cases t with
  | none => exact Nat.lt_succ_iff_lt_or_eq.trans (by simp [Spot.Past, Spot.PastSection])
  | some i' => simp [Spot.Past, Spot.PastSymbol]

/-- The sections are behind when the symbols are assigned. -/
theorem past_symbols_zero (hi : (headers f).count ≤ i) (hk : k < (tables f t).count) :
    (Spot.symbols 0).Past t k ↔ (Spot.sections i).Past t k := by
  cases t with
  | none => exact ⟨fun _ => Nat.lt_of_lt_of_le hk hi, fun _ => trivial⟩
  | some i' => simp [Spot.Past, Spot.PastSymbol]

theorem past_symbol_zero : (Spot.symbol i 0).Past t k ↔ (Spot.symbols i).Past t k := by
  cases t with
  | none => exact Iff.rfl
  | some i' => simp [Spot.Past, Spot.PastSymbol]

theorem past_symbols_skip (ht : shType f (header f i) ≠ shtSymtab) (ha : HasAddress f t) :
    (Spot.symbols (i + 1)).Past t k ↔ (Spot.symbols i).Past t k := by
  cases t with
  | none => exact Iff.rfl
  | some i' =>
      have hne : i' ≠ i := fun h => ht (h ▸ ha)
      show i' < i + 1 ↔ i' < i
      omega

theorem past_symbol_succ : (Spot.symbol i (j + 1)).Past t k ↔
    (Spot.symbol i j).Past t k ∨ t = some i ∧ k = j := by
  cases t with
  | none => simp [Spot.Past, Spot.PastSection]
  | some i' =>
      rw [Option.some.injEq]
      show i' < i ∨ i' = i ∧ k < j + 1 ↔ (i' < i ∨ i' = i ∧ k < j) ∨ i' = i ∧ k = j
      omega

theorem past_symbols_succ (hj : (entries f i).count ≤ j) (hk : k < (tables f t).count) :
    (Spot.symbols (i + 1)).Past t k ↔ (Spot.symbol i j).Past t k := by
  cases t with
  | none => exact Iff.rfl
  | some i' =>
      show i' < i + 1 ↔ i' < i ∨ i' = i ∧ k < j
      constructor
      · intro h
        rcases Nat.lt_succ_iff_lt_or_eq.mp h with h | rfl
        · exact .inl h
        · exact .inr ⟨rfl, Nat.lt_of_lt_of_le hk hj⟩
      · omega

/-- The symbols are behind when the relocations are applied. -/
theorem past_relocations_zero (hi : (headers f).count ≤ i) (hlive : Live f t) :
    (Spot.relocations 0).Past t k ↔ (Spot.symbols i).Past t k := by
  cases t with
  | none => exact Iff.rfl
  | some i' => exact ⟨fun _ => Nat.lt_of_lt_of_le hlive.1 hi, fun _ => trivial⟩

theorem past_relocations : (Spot.relocations i).Past t k := by
  cases t <;> trivial

end past

section next
variable (hv : s.Valid f) (wf : WellFormed f size) (fit : LoadsAt f size base)
  (h : Placed f size base s c) (hresult : s.result = none)

include hv wf fit h hresult

theorem Placed.next_sections (hs : s.spot = .sections i) :
    Placed f size base (s.advance strCmp f) (c.step strCmp (envAt f base) []) := by
  have hspot := hv.spot
  have hpoint := h.point_of_spot hresult hs
  rw [hs] at hspot
  have hI := h.laid.intact hv wf
  obtain ⟨point, m, queries⟩ := c
  obtain rfl : point = .assignSections (base + header f i) := hpoint
  unfold Stage.advance
  rw [hs]
  simp only [Config.step]
  by_cases hi : i < (headers f).count
  · have hr : ReadsHeader m _ f _ := hI.readsHeader wf hi
    rw [if_pos ((header_lt_iff wf fit hspot).mpr hi), if_pos hi, hr.type, hr.size, hr.offset,
      header_succ]
    split
    · exact h.stop
    · refine Placed.of_spot hresult h.queries ?_
      refine h.laid.assign_section wf fit hi fun t k => ?_
      rw [hs]
      exact past_sections_succ
  · rw [if_neg (fun hlt => hi ((header_lt_iff wf fit hspot).mp hlt)), if_neg hi]
    refine Placed.of_spot hresult h.queries (h.laid.goto fun t k _ _ hk => ?_)
    rw [hs]
    exact past_symbols_zero (Nat.le_of_not_lt hi) hk

variable (hsound : c.Sound (envAt f base))

include hsound

theorem Placed.next_symbols (hs : s.spot = .symbols i) :
    Placed f size base (s.advance strCmp f) (c.step strCmp (envAt f base) []) := by
  have hspot := hv.spot
  have hpoint := h.point_of_spot hresult hs
  rw [hs] at hspot
  have hI := h.laid.intact hv wf
  obtain ⟨point, m, queries⟩ := c
  obtain rfl : point = .assignSymbols (base + header f i) := hpoint
  unfold Stage.advance
  rw [hs]
  simp only [Config.step]
  by_cases hi : i < (headers f).count
  · have hlt := (header_lt_iff wf fit hspot).mpr hi
    have hr : ReadsHeader m _ f _ := hI.readsHeader wf hi
    rw [if_pos hlt, if_pos hi, hr.type, header_succ]
    split
    · rename_i ht
      have hchecks := symtabChecks_eq hI wf fit hi (hsound hlt (hr.type.trans ht))
      rw [hchecks]
      cases hpass : firstFailure (fileSymtabChecks f i) with
      | some e => exact h.stop
      | none =>
        dsimp only
        have hlink : ReadsHeader m _ f _ := hI.readsHeader wf (symtabOk hpass).link
        rw [hr.tableAt, hr.symtabId, headerAt_link, hlink.tableAt, tableOf_tStart]
        refine Placed.of_spot hresult h.queries (h.laid.goto fun t k _ _ _ => ?_)
        rw [hs]
        exact past_symbol_zero
    · rename_i ht
      refine Placed.of_spot hresult h.queries (h.laid.goto fun t k _ ha _ => ?_)
      rw [hs]
      exact past_symbols_skip ht ha
  · rw [if_neg (fun hlt => hi ((header_lt_iff wf fit hspot).mp hlt)), if_neg hi]
    refine Placed.of_spot hresult h.queries (h.laid.goto fun t k hlive _ _ => ?_)
    rw [hs]
    exact past_relocations_zero (Nat.le_of_not_lt hi) hlive

theorem Placed.next_symbol (hstr : ReadsString strCmp) (hs : s.spot = .symbol i j) :
    Placed f size base (s.advance strCmp f) (c.step strCmp (envAt f base) []) := by
  have hspot := hv.spot
  have hpoint := h.point_of_spot hresult hs
  rw [hs] at hspot
  obtain ⟨hi, ht, hsymtab, hle⟩ := hspot
  have hok := symtabOk hsymtab
  have hI := h.laid.intact hv wf
  have hqueries := h.queries
  have hlive := live_symtab hi ht
  obtain ⟨point, m, queries⟩ := c
  obtain rfl : point = .assignTable (base + header f i) (tableOf f base i)
    (tableOf f base (link f i)) (base + entry f i j) := hpoint
  obtain rfl : queries = s.queries base := hqueries
  unfold Stage.advance
  rw [hs]
  simp only [Config.step]
  by_cases hj : j < (entries f i).count
  · have hlt := (entry_lt_iff wf fit hlive hok.entsize hle).mpr hj
    obtain ⟨hexname, hexsect, hend⟩ := hsound hlt
    have hchecks := symbolChecks_eq hI wf hi ht hj fit hok hexname hexsect
    rw [if_pos hlt, if_pos hj]
    rw [hchecks]
    cases hpass : firstFailure (fileSymbolChecks f i j) with
    | some e => exact h.stop
    | none =>
        have hvalue : symbolValue strCmp _ [] m _ _ = _ := symbolValue_eq hv wf h.laid hs hj hpass
        have hname : nameOf m _ (base + entry f i j) = _ := nameOf_eq hI wf hi ht hj
        -- the memory that the next stage expects
        have hlaid : Laid f size base (.symbol i (j + 1)) s.image
            (setSyValue m (base + entry f i j) (assigned f base (some i) j)) := by
          refine h.laid.assign_symbol wf fit hi ht hj fun t k => ?_
          rw [hs]
          exact past_symbol_succ
        have hanswer := answer_eq hstr hI (hlaid.intact hv wf) hv wf fit hs hj hpass
          fun hl hquery => ?_
        · dsimp only
          rw [hvalue, hname, hanswer, entry_succ]
          exact Placed.of_spot (s := ⟨_, _, _, _⟩) hresult rfl hlaid
        · have hterm := hend (hchecks.trans hpass) ((located_iff hI wf hi ht hj).mpr hl) hquery
          rwa [hname] at hterm
  · rw [if_neg (fun hlt => hj ((entry_lt_iff wf fit hlive hok.entsize hle).mp hlt)), if_neg hj,
      header_succ]
    refine Placed.of_spot hresult h.queries (h.laid.goto fun t k _ _ hk => ?_)
    rw [hs]
    exact past_symbols_succ (Nat.le_of_not_lt hj) hk

theorem Placed.next_relocations (hs : s.spot = .relocations i) :
    Placed f size base (s.advance strCmp f) (c.step strCmp (envAt f base) []) := by
  have hspot := hv.spot
  have hpoint := h.point_of_spot hresult hs
  rw [hs] at hspot
  have hI := h.laid.intact hv wf
  have hbehind : ∀ t k, s.spot.Past t k := fun t k => by
    rw [hs]
    exact past_relocations
  obtain ⟨point, m, queries⟩ := c
  obtain rfl : point = .applyRelocations (base + header f i) := hpoint
  unfold Stage.advance
  rw [hs]
  simp only [Config.step]
  by_cases hi : i < (headers f).count
  · have hlt := (header_lt_iff wf fit hspot).mpr hi
    have hr : ReadsHeader m _ f _ := hI.readsHeader wf hi
    rw [if_pos hlt, if_pos hi, hr.type, header_succ]
    split
    · rename_i ht
      have htype : shType m (base + header f i) = shtRel ∨ shType m (base + header f i) = shtRela :=
        by rwa [hr.type]
      have hchecks := tableChecks_eq hI wf fit hi (hsound hlt htype)
      rw [hchecks]
      cases hpass : firstFailure (fileTableChecks f i) with
      | some e => exact h.stop
      | none =>
        dsimp only
        have hok := tableOk hpass
        have hlink : ReadsHeader m _ f _ := hI.readsHeader wf hok.link
        have htarget : ReadsHeader m _ f _ := hI.readsHeader wf hok.target
        have haddr : shAddr m (base + header f (target f i)) = _ :=
          h.laid.shAddr hok.target (hbehind none _)
        rw [hr.tableAt, hr.symtabId, hr.targetId, headerAt_link, headerAt_target, hlink.tableAt,
          tableOf_tStart, haddr, htarget.size]
        exact Placed.of_spot hresult h.queries (h.laid.goto fun t k _ _ _ =>
          ⟨fun _ => hbehind t k, fun _ => past_relocation t k⟩)
    · exact Placed.of_spot hresult h.queries (h.laid.goto fun t k _ _ _ =>
        ⟨fun _ => hbehind t k, fun _ => past_relocations⟩)
  · rw [if_neg (fun hlt => hi ((header_lt_iff wf fit hspot).mp hlt)), if_neg hi]
    exact h.stop

theorem Placed.next_relocation (hs : s.spot = .relocation i j) :
    Placed f size base (s.advance strCmp f) (c.step strCmp (envAt f base) []) := by
  have hspot := hv.spot
  have hpoint := h.point_of_spot hresult hs
  rw [hs] at hspot
  obtain ⟨hi, ht, htable, hle⟩ := hspot
  have hok := tableOk htable
  have hlive := live_rel hi ht
  obtain ⟨point, m, queries⟩ := c
  obtain rfl : point = .applyTable (base + header f i) (shType f (header f i) = shtRela)
    (tableOf f base i) (tableOf f base (link f i)) (base + shOffset f (header f (target f i)))
    (shSize f (header f (target f i))) (base + entry f i j) := hpoint
  unfold Stage.advance
  rw [hs]
  simp only [Config.step]
  by_cases hj : j < (entries f i).count
  · have hlt := (entry_lt_iff wf fit hlive hok.entsize hle).mpr hj
    have hchecks := entryChecks_eq hv wf fit h.laid hs hj (hsound hlt)
    rw [if_pos hlt, if_pos hj]
    rw [hchecks]
    cases hpass : firstFailure (fileEntryChecks f s.image i j) with
    | some e => exact h.stop
    | none =>
      obtain ⟨hindex, hl⟩ := entryOk hpass
      dsimp only
      rw [entry_succ]
      exact Placed.of_spot (s := ⟨_, _, _, _⟩) hresult h.queries
        (Laid.relocate hv wf fit h.laid hs hj hindex hl)
  · rw [if_neg (fun hlt => hj ((entry_lt_iff wf fit hlive hok.entsize hle).mp hlt)), if_neg hj,
      header_succ]
    refine Placed.of_spot hresult h.queries (h.laid.goto fun t k _ _ _ => ?_)
    rw [hs]
    exact ⟨fun _ => past_relocation t k, fun _ => past_relocations⟩

end next

/-- **An iteration of the loader is one of the load of the file.** -/
theorem Placed.next (hv : s.Valid f) (wf : WellFormed f size) (fit : LoadsAt f size base)
    (hstr : ReadsString strCmp) (h : Placed f size base s c) (hsound : c.Sound (envAt f base)) :
    Placed f size base (s.next strCmp f) (c.step strCmp (envAt f base) []) := by
  unfold Stage.next
  split
  · rename_i hresult
    cases hs : s.spot with
    | sections i => exact h.next_sections hv wf fit hresult hs
    | symbols i => exact h.next_symbols hv wf fit hresult hsound hs
    | symbol i j => exact h.next_symbol hv wf fit hresult hsound hstr hs
    | relocations i => exact h.next_relocations hv wf fit hresult hsound hs
    | relocation i j => exact h.next_relocation hv wf fit hresult hsound hs
  · rename_i hresult
    obtain ⟨⟨pass, e⟩, hr⟩ := Option.ne_none_iff_exists'.mp hresult
    have hpoint := h.point
    unfold Stage.point at hpoint
    rw [hr] at hpoint
    have hstep : c.step strCmp (envAt f base) [] = c :=
      Config.Halted.run ⟨pass, e, hpoint⟩ 1
    rw [hstep]
    exact h

/-! ### Runs -/

theorem Copy.env_eq (hcopy : Copy f size base m) (wf : WellFormed f size) :
    loaderInit base m = envAt f base := by
  have helf := wf.elfHeader
  refine loaderInit_eq fun d n hd => ?_
  apply Bytes.load_congr
  intro k hk
  have hbyte := hcopy (d + k) (by omega)
  rw [off_add, ← BitVec.add_assoc] at hbyte
  show m (base + off d + off k) = f (0 + off d + off k)
  rw [hbyte]
  exact congrArg (fun a => f (a + off k)) (BitVec.zero_add _).symm

theorem Copy.placed (hcopy : Copy f size base m) (wf : WellFormed f size)
    (queries : List LoaderSymbol) :
    Placed f size base (.start f queries) (.start (envAt f base) m queries) := by
  refine ⟨rfl, rfl, fun o ho _ => hcopy o ho, fun t j _ _ _ hp => ?_, fun t j ht ha hj _ => ?_⟩
  · cases t with
    | none => exact absurd hp (Nat.not_lt_zero j)
    | some i => exact hp.elim
  · obtain ⟨-, hstop⟩ := address_stop_le wf ht ha hj
    apply Bytes.load_congr
    intro k hk
    have hbyte := hcopy ((tables f t).offset j (addressPlace t) + k) (by omega)
    rw [off_add, ← BitVec.add_assoc] at hbyte
    show m (base + off _ + off k) = f (0 + off _ + off k)
    rw [hbyte]
    exact congrArg (fun a => f (a + off k)) (BitVec.zero_add _).symm

/-- The iterations of the load of what lies at an address. -/
def loading (strCmp : Memory → Addr → List U8 → ℤ) (base : Addr) (m : Memory)
    (queries : List LoaderSymbol) (n : ℕ) : Config :=
  Config.run strCmp (loaderInit base m) [] n (.start (loaderInit base m) m queries)

/-- **A copy is loaded as the file is**, as long as the iterations are sound. -/
theorem Copy.placed_run (hcopy : Copy f size base m) (wf : WellFormed f size)
    (fit : LoadsAt f size base) (hstr : ReadsString strCmp) {queries : List LoaderSymbol}
    (hsound : ∀ n, (loading strCmp base m queries n).Sound (loaderInit base m)) (n : ℕ) :
    Placed f size base ((Stage.start f queries).run strCmp f n)
      (loading strCmp base m queries n) := by
  have hsize := fit.image
  unfold loading at hsound ⊢
  rw [hcopy.env_eq wf] at hsound ⊢
  induction n with
  | zero => exact hcopy.placed wf queries
  | succ n ih =>
      rw [Stage.run_succ, Config.run_succ']
      exact ih.next ((Stage.valid_start queries).run wf (by omega) n) wf fit hstr (hsound n)

end simulation

end KernelTk.Loader
