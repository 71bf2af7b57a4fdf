import KernelTk.Loader.Simulation

/-! # Position independence

Two copies of a file are loaded alike, as a file that can be loaded anywhere should be.

* **Images.** `SameImage` : two images are equal, but for the addresses that have been assigned to
  the sections and to the symbols that are located in them, which differ by the distance of the
  copies (`Spot.Moved`).
* **Loads.** `Alongside` : two loads have come to the same stage.  `PositionIndependent` : after every
  iteration the images are the same, and the loads end at the same entry, return the same codes, and
  fill the same queries with addresses that differ by the distance.
* **Proof.** The two loads are not compared with each other, but each with the load of the file
  (`Copy.placed_run`): two memories in which the same stage is `Laid` are the same image
  (`Laid.sameImage`).
* **Theorem.** The bound check of a look-up compares addresses that wrap, and a name that does not end is
  compared with what follows its table. `load_position_independent` : where neither happens, the load is
  position independent.
* **Examples.** `export_position_independent` loads a file at `0x10000` and in the highest half of the
  address space; `far_name_position_dependent` is a file that is refused at the former place and not at
  the latter, where the address of a name wraps. -/

namespace KernelTk.Loader

open Sweep (check firstFailure)

section position
variable (strCmp : Memory → Addr → List U8 → ℤ) (f : Memory) (size : ℕ) (base₁ base₂ : Addr)

/-- The byte belongs to an address that depends on where the file lies. -/
def Spot.Moved (spot : Spot) (o : ℕ) : Prop :=
  (∃ i < (headers f).count, spot.PastSection i ∧
    (headers f).offset i 16 ≤ o ∧ o < (headers f).offset i 24) ∨
  ∃ i < (headers f).count, shType f (header f i) = shtSymtab ∧
    ∃ j < (entries f i).count, spot.PastSymbol i j ∧ located f (entry f i j) ∧
      (entries f i).offset j 8 ≤ o ∧ o < (entries f i).offset j 16

/-- Two images of the file, when the load has come to a spot. -/
structure SameImage (spot : Spot) (m₁ m₂ : Memory) : Prop where
  bytes : ∀ o < size, ¬spot.Moved f o → m₁ (base₁ + off o) = m₂ (base₂ + off o)
  sections : ∀ i < (headers f).count, spot.PastSection i →
    shAddr m₂ (base₂ + header f i) = shAddr m₁ (base₁ + header f i) + (base₂ - base₁)
  symbols : ∀ i < (headers f).count, shType f (header f i) = shtSymtab →
    ∀ j < (entries f i).count, spot.PastSymbol i j → located f (entry f i j) →
      syValue m₂ (base₂ + entry f i j) = syValue m₁ (base₁ + entry f i j) + (base₂ - base₁)

variable (queries : List LoaderSymbol)

/-- Two loads have come to the same stage. -/
structure Alongside (s : Stage) (c₁ c₂ : Config) : Prop where
  point₁ : c₁.point = s.point f base₁
  point₂ : c₂.point = s.point f base₂
  image : SameImage f size base₁ base₂ s.spot c₁.memory c₂.memory
  filled : Shifted (base₂ - base₁) queries c₁.queries c₂.queries

variable (m₁ m₂ : Memory)

/-- The loads of two copies end after the same iteration, at the stage `s`, and return. -/
structure EndAlike (n : ℕ) (s : Stage) (pass : Pass) (e : U8) : Prop where
  live : s.result = none
  last : Alongside f size base₁ base₂ queries s (loading strCmp base₁ m₁ queries n)
    (loading strCmp base₂ m₂ queries n)
  halted : Alongside f size base₁ base₂ queries (s.stop pass e)
    (loading strCmp base₁ m₁ queries (n + 1)) (loading strCmp base₂ m₂ queries (n + 1))
  returns₁ : ∀ fuel > n + 1, load strCmp fuel base₁ [] queries m₁ =
    (.ret (pass.codes e) (loading strCmp base₁ m₁ queries (n + 1)).memory,
      (loading strCmp base₁ m₁ queries (n + 1)).queries)
  returns₂ : ∀ fuel > n + 1, load strCmp fuel base₂ [] queries m₂ =
    (.ret (pass.codes e) (loading strCmp base₂ m₂ queries (n + 1)).memory,
      (loading strCmp base₂ m₂ queries (n + 1)).queries)

/-- What is expected of the loads of two copies of a file. -/
structure PositionIndependent : Prop where
  alongside : ∀ n, ∃ s, Alongside f size base₁ base₂ queries s (loading strCmp base₁ m₁ queries n)
    (loading strCmp base₂ m₂ queries n)
  ends : ∃ n s pass e, EndAlike strCmp f size base₁ base₂ queries m₁ m₂ n s pass e

end position

section proofs
variable {strCmp : Memory → Addr → List U8 → ℤ} {f m m₁ m₂ : Memory} {size : ℕ}
  {base base₁ base₂ : Addr} {queries : List LoaderSymbol} {s : Stage} {c₁ c₂ : Config}

theorem Laid.same_bytes {spot : Spot} {image : Memory} (h₁ : Laid f size base₁ spot image m₁)
    (h₂ : Laid f size base₂ spot image m₂) {t : Option ℕ} {j k : ℕ} (ht : Live f t) (ha : HasAddress f t) (hj : j < (tables f t).count)
    (hstay : spot.Past t j → assigned f base₁ t j = assigned f base₂ t j) (hk : k < 8) :
    m₁ (base₁ + off ((tables f t).offset j (addressPlace t + k))) =
      m₂ (base₂ + off ((tables f t).offset j (addressPlace t + k))) := by
  have haddress : addressAt f base₁ m₁ t j = addressAt f base₂ m₂ t j := by
    by_cases hp : spot.Past t j
    · rw [h₁.past t j ht ha hj hp, h₂.past t j ht ha hj hp, hstay hp]
    · rw [h₁.ahead t j ht ha hj hp, h₂.ahead t j ht ha hj hp]
  have hbyte := Bytes.byte_of_load haddress hk
  rw [Records.Table.offset_add, off_add, ← BitVec.add_assoc, ← BitVec.add_assoc]
  exact hbyte

theorem add_shift (x : Addr) : base₂ + x = base₁ + x + (base₂ - base₁) := by
  grind

/-- What lies at two addresses is the same image. -/
theorem Laid.sameImage (h₁ : Laid f size base₁ s.spot s.image m₁)
    (h₂ : Laid f size base₂ s.spot s.image m₂) :
    SameImage f size base₁ base₂ s.spot m₁ m₂ := by
  refine ⟨fun o ho hmoved => ?_, fun i hi hp => ?_, fun i hi ht j hj hp hl => ?_⟩
  · by_cases hmark : Marked f o
    · -- the address that the byte belongs to has not been assigned, or is that of no section
      obtain ⟨t, j, k, hlive, hj, -, ⟨ha, hlo, hhi⟩, rfl⟩ := hmark
      obtain ⟨l, rfl⟩ := Nat.exists_eq_add_of_le hlo
      refine h₁.same_bytes h₂ hlive ha hj (fun hp => ?_) (by omega)
      cases t with
      | none =>
          refine absurd (.inl ⟨j, hj, hp, ?_⟩) hmoved
          have hfirst := (headers f).offset_add (j := j) (k := 16) (l := l)
          have hstop := (headers f).offset_add (j := j) (k := 16) (l := 8)
          have hlt : 16 + l < 24 := hhi
          show (headers f).offset j 16 ≤ (headers f).offset j (16 + l) ∧
            (headers f).offset j (16 + l) < (headers f).offset j (16 + 8)
          omega
      | some i =>
          by_cases hl : located f (entry f i j)
          · refine absurd (.inr ⟨i, hlive.1, ha, j, hj, hp, hl, ?_⟩) hmoved
            have hfirst := (entries f i).offset_add (j := j) (k := 8) (l := l)
            have hstop := (entries f i).offset_add (j := j) (k := 8) (l := 8)
            have hlt : 8 + l < 16 := hhi
            show (entries f i).offset j 8 ≤ (entries f i).offset j (8 + l) ∧
              (entries f i).offset j (8 + l) < (entries f i).offset j (8 + 8)
            omega
          · rw [assigned_of_not_located hl, assigned_of_not_located hl]
    · rw [h₁.bytes o ho hmark, h₂.bytes o ho hmark]
  · rw [h₁.shAddr hi hp, h₂.shAddr hi hp]
    exact add_shift _
  · have hlive := live_symtab hi ht
    rw [syValue_eq_addressAt, syValue_eq_addressAt, h₁.past (some i) j hlive ht hj hp,
      h₂.past (some i) j hlive ht hj hp, assigned_of_located hl, assigned_of_located hl]
    exact add_shift _

theorem load_returns {n : ℕ} {pass : Pass} {e : U8}
    (hhalt : (loading strCmp base m queries n).point = .halted pass e) {fuel : ℕ} (hfuel : fuel > n) :
    load strCmp fuel base [] queries m = (.ret (pass.codes e) (loading strCmp base m queries n).memory,
      (loading strCmp base m queries n).queries) :=
  load_of_halted hhalt hfuel

/-- **The load of a file is position independent** where look-ups admit only subscripts of their
tables, and the names that are compared end in their string tables. -/
theorem load_position_independent (strCmp : Memory → Addr → List U8 → ℤ) (f : Memory) (size : ℕ)
    (base₁ base₂ : Addr) (m₁ m₂ : Memory) (queries : List LoaderSymbol)
    (hstr : ReadsString strCmp) (wf : WellFormed f size) (fit₁ : LoadsAt f size base₁)
    (fit₂ : LoadsAt f size base₂) (hcopy₁ : Copy f size base₁ m₁) (hcopy₂ : Copy f size base₂ m₂)
    (hsound₁ : ∀ n, (loading strCmp base₁ m₁ queries n).Sound (loaderInit base₁ m₁))
    (hsound₂ : ∀ n, (loading strCmp base₂ m₂ queries n).Sound (loaderInit base₂ m₂)) :
    PositionIndependent strCmp f size base₁ base₂ queries m₁ m₂ := by
  have hsize := fit₁.image
  have hplaced₁ := hcopy₁.placed_run wf fit₁ hstr hsound₁
  have hplaced₂ := hcopy₂.placed_run wf fit₂ hstr hsound₂
  have halong : ∀ n, Alongside f size base₁ base₂ queries ((Stage.start f queries).run strCmp f n)
      (loading strCmp base₁ m₁ queries n) (loading strCmp base₂ m₂ queries n) := by
    intro n
    refine ⟨(hplaced₁ n).point, (hplaced₂ n).point,
      (hplaced₁ n).laid.sameImage (hplaced₂ n).laid, ?_⟩
    rw [(hplaced₁ n).queries, (hplaced₂ n).queries]
    exact Stage.queries_run n
  refine ⟨fun n => ⟨_, halong n⟩, ?_⟩
  obtain ⟨n, pass, e, hlive, hstop⟩ :=
    (Stage.valid_start queries).stops strCmp wf (by omega) rfl
  have hhalted := halong (n + 1)
  rw [hstop] at hhalted
  exact ⟨n, _, pass, e, hlive, halong n, hhalted, fun fuel hfuel => load_returns hhalted.point₁ hfuel,
    fun fuel hfuel => load_returns hhalted.point₂ hfuel⟩

end proofs

/-! ### A file and its copies -/

/-- The file lies at an address, and nothing else is in memory. -/
def copyAt (f : Memory) (base : Addr) : Memory := fun a => f (a - base)

theorem copyAt_copy (f : Memory) (size : ℕ) (base : Addr) : Copy f size base (copyAt f base) := by
  intro o _
  unfold copyAt
  rw [BitVec.add_comm, BitVec.add_sub_cancel]

/-- A comparison of strings, byte by byte. -/
def compareString (m : Memory) (a : Addr) : List U8 → ℤ
  | [] => (m a).toNat
  | b :: s => if m a = b ∧ b ≠ 0 then compareString m (a + 1) s else (m a).toNat - b.toNat

theorem compareString_readsString : ReadsString compareString := by
  intro m m' a a' s name
  induction name generalizing a a' s with
  | nil =>
      intro h h'
      unfold compareString
      cases s with
      | nil => rw [show m a = 0 from h, show m' a' = 0 from h']
      | cons b s => rw [h.1, h'.1]
  | cons c name ih =>
      intro h h'
      unfold compareString
      cases s with
      | nil =>
          rw [show m a = 0 from h, show m' a' = 0 from h']
          have hstop : ¬((0 : U8) = c ∧ c ≠ 0) := fun hc => hc.2 hc.1.symm
          rw [if_neg hstop, if_neg hstop]
      | cons b s => rw [h.1, h'.1, ih (a + 1) (a' + 1) s h.2.2 h'.2.2]

/-- The iterations of a load are sound if they are until it ends. -/
theorem sound_of_halted {strCmp : Memory → Addr → List U8 → ℤ} {base : Addr} {m : Memory}
    {queries : List LoaderSymbol} {k : ℕ} (hend : (loading strCmp base m queries k).Halted)
    (h : ∀ n < k, (loading strCmp base m queries n).Sound (loaderInit base m)) (n : ℕ) :
    (loading strCmp base m queries n).Sound (loaderInit base m) := by
  by_cases hn : n < k
  · exact h n hn
  · obtain ⟨l, rfl⟩ := Nat.exists_eq_add_of_le (Nat.le_of_not_lt hn)
    have hsame : loading strCmp base m queries (k + l) = loading strCmp base m queries k := by
      unfold loading at hend ⊢
      rw [Config.run_add, hend.run]
    obtain ⟨pass, e, hpoint⟩ := hend
    rw [hsame]
    unfold Config.Sound
    rw [hpoint]
    trivial

/-- The bytes of a file that are not null, by offset: a section of eight bytes, a symbol table whose
symbol 1, `f`, lies in the section, its string table, and a table of one relocation. -/
def exportImage : List (ℕ × U8) :=
  [(40, 64), (58, 64), (60, 5),
    (132, 1), (152, 0x80), (153, 1), (160, 8),
    (196, 2), (216, 0x88), (217, 1), (224, 48), (232, 3), (248, 24),
    (260, 3), (280, 0xb8), (281, 1), (288, 3), (312, 1),
    (324, 4), (344, 0xc0), (345, 1), (352, 24), (360, 2), (364, 1), (376, 24),
    (416, 1), (422, 1), (424, 4),
    (441, 102),
    (456, 2), (460, 1)]

def exportFile : Memory := fun a => (exportImage.lookup a.toNat).getD 0

/-- The kernel asks for `f`. -/
def exportQueries : List LoaderSymbol := [⟨0, 0, [102]⟩]

set_option synthInstance.maxSize 4096 in
theorem exportFile_wellFormed : WellFormed exportFile 472 :=
  ⟨by decide, by decide +kernel, by decide +kernel, by decide +kernel, by decide +kernel,
    by decide +kernel, by decide +kernel, by decide +kernel⟩

/-- The loads at `0x10000` and in the highest half of the address space are alike. -/
theorem export_position_independent : PositionIndependent compareString exportFile 472 0x10000
    0xffffffff80000000 exportQueries (copyAt exportFile 0x10000)
    (copyAt exportFile 0xffffffff80000000) :=
  load_position_independent compareString exportFile 472 0x10000 0xffffffff80000000 _ _
    exportQueries compareString_readsString exportFile_wellFormed
    ⟨by decide, by decide, by decide +kernel⟩ ⟨by decide, by decide, by decide +kernel⟩
    (copyAt_copy _ _ _) (copyAt_copy _ _ _)
    (sound_of_halted (k := 23) ⟨.relocations, 0, by decide +kernel⟩ (by decide +kernel))
    (sound_of_halted (k := 23) ⟨.relocations, 0, by decide +kernel⟩ (by decide +kernel))

/-- The bytes of a file that are not null, by offset: a symbol table whose symbol 0 bears the name
`0xffffffff`, and its string table of one byte. -/
def farNameImage : List (ℕ × U8) :=
  [(40, 64), (58, 64), (60, 3),
    (132, 2), (153, 1), (160, 24), (168, 2), (184, 24),
    (196, 3), (216, 0x18), (217, 1), (224, 1), (248, 1),
    (256, 0xff), (257, 0xff), (258, 0xff), (259, 0xff)]

def farNameFile : Memory := fun a => (farNameImage.lookup a.toNat).getD 0

set_option synthInstance.maxSize 4096 in
theorem farNameFile_wellFormed : WellFormed farNameFile 281 :=
  ⟨by decide, by decide +kernel, by decide +kernel, by decide +kernel, by decide +kernel,
    by decide +kernel, by decide +kernel, by decide +kernel⟩

/-- At `0x10000`, the name is rejected; in the highest half of the address space, it wraps and is
not. -/
theorem far_name_position_dependent : WellFormed farNameFile 281 ∧
    LoadsAt farNameFile 281 0x10000 ∧ LoadsAt farNameFile 281 0xffffffff80000000 ∧
    ¬PositionIndependent compareString farNameFile 281 0x10000 0xffffffff80000000 []
      (copyAt farNameFile 0x10000) (copyAt farNameFile 0xffffffff80000000) := by
  refine ⟨farNameFile_wellFormed, ⟨by decide, by decide, by decide +kernel⟩,
    ⟨by decide, by decide, by decide +kernel⟩, fun h => ?_⟩
  obtain ⟨n, s, pass, e, hend⟩ := h.ends
  have hrejected : (loading compareString 0x10000 (copyAt farNameFile 0x10000) [] 7).point =
      .halted .symbols loaderErrorBadTableIndex := by decide +kernel
  have hloaded : (loading compareString 0xffffffff80000000 (copyAt farNameFile 0xffffffff80000000)
      [] 14).point = .halted .relocations 0 := by decide +kernel
  have hfirst := hend.halted.point₁
  rw [loading, Config.halted_unique ⟨pass, e, hfirst⟩ ⟨_, _, hrejected⟩] at hfirst
  have hsecond := hend.halted.point₂
  rw [loading, Config.halted_unique ⟨pass, e, hsecond⟩ ⟨_, _, hloaded⟩] at hsecond
  cases hrejected.symm.trans hfirst
  cases hloaded.symm.trans hsecond

end KernelTk.Loader
