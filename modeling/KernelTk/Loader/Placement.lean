import KernelTk.Loader.Stages

/-! # The load of a file at an address

The loader, on a copy of a file that lies at an address, makes the iterations of the load of the
file, as long as they are `Sound`.  This module states the relation between the two; the iterations
themselves are compared in `Simulation.lean`.

* **Look-ups.** The check of `__get_table_entry` compares addresses, which may wrap; a look-up is
  `Exact` if it admits subscripts of the table only.
* **Names.** The name of a symbol is compared with those of the queries, wherever it ends; it must
  end in the string table (`Terminated`).  `str_cmp` reads nothing but the strings (`ReadsString`), so
  that queries are filled alike where the strings are alike (`defineQuery_congr`).
* **Stages.** What lies at the address is given by the stage of the load (`Laid`) : the addresses of the
  records that are behind it are those of the file and of its sections, the other bytes do not depend on
  the address.  `Placed` : the loader has come to a stage, at the point of its spot, with its queries.
* **Assignments.** `Laid.assign` is the one proof about the bytes: when one more address is assigned, the
  record is behind, the addresses of the others are kept because no two records overlap, and the
  bytes that are no addresses are not changed. -/

namespace KernelTk.Loader

open Sweep (check firstFailure)

/-! ### Strings -/

/-- The string `s`, without its final zero, lies at the address `a`. -/
def HoldsString (m : Memory) : Addr → List U8 → Prop
  | a, [] => m a = 0
  | a, b :: s => m a = b ∧ b ≠ 0 ∧ HoldsString m (a + 1) s

/-- `str_cmp` reads nothing but the strings. -/
def ReadsString (strCmp : Memory → Addr → List U8 → ℤ) : Prop :=
  ∀ m m' a a' s name, HoldsString m a s → HoldsString m' a' s → strCmp m a name = strCmp m' a' name

/-- The string at the address `a` ends before `stop`. -/
def Terminated (m : Memory) (a stop : Addr) : Prop :=
  ∃ k < stop.toNat - a.toNat, m (a + off k) = 0

instance (m : Memory) (a stop : Addr) : Decidable (Terminated m a stop) :=
  inferInstanceAs (Decidable (∃ k < _, _))

section strings
variable {m m' : Memory}

theorem add_one_add_off (a : Addr) (i : ℕ) : a + 1 + off i = a + off (i + 1) := by
  rw [Nat.add_comm, off_add, ← BitVec.add_assoc]
  rfl

/-- There is a string before every zero. -/
theorem exists_string : ∀ (k : ℕ) (a : Addr), m (a + off k) = 0 →
    ∃ s, s.length ≤ k ∧ HoldsString m a s
  | k, a, h => by
      by_cases h0 : m a = 0
      · exact ⟨[], Nat.zero_le k, h0⟩
      · cases k with
        | zero =>
            rw [add_off_zero] at h
            exact absurd h h0
        | succ k =>
            rw [← add_one_add_off] at h
            obtain ⟨s, hs, hstring⟩ := exists_string k (a + 1) h
            exact ⟨m a :: s, Nat.succ_le_succ hs, rfl, h0, hstring⟩

theorem HoldsString.congr : ∀ {s : List U8} {a a' : Addr},
    (∀ i ≤ s.length, m (a + off i) = m' (a' + off i)) → HoldsString m a s → HoldsString m' a' s
  | [], a, a', h, hs => by
      have h0 := h 0 (Nat.le_refl 0)
      rw [add_off_zero, add_off_zero] at h0
      exact h0.symm.trans hs
  | b :: s, a, a', h, ⟨hb, hne, hs⟩ => by
      have h0 := h 0 (Nat.zero_le _)
      rw [add_off_zero, add_off_zero] at h0
      refine ⟨h0.symm.trans hb, hne, hs.congr fun i hi => ?_⟩
      rw [add_one_add_off, add_one_add_off]
      exact h (i + 1) (Nat.succ_le_succ hi)

/-- The queries that are filled depend on the comparisons with those that are not. -/
theorem defineQuery_congr {strCmp : Memory → Addr → List U8 → ℤ} {name name' : Addr} {v : U64} :
    ∀ {queries : List LoaderSymbol}, (∀ q ∈ queries, q.sDefined = 0 →
      strCmp m name q.sName = strCmp m' name' q.sName) →
      defineQuery strCmp name v m queries = defineQuery strCmp name' v m' queries
  | [], _ => rfl
  | q :: queries, h => by
      have hrest : defineQuery strCmp name v m queries = defineQuery strCmp name' v m' queries :=
        defineQuery_congr fun q' hq' => h q' (List.mem_cons_of_mem _ hq')
      unfold defineQuery
      by_cases hq : q.sDefined = 0
      · rw [h q List.mem_cons_self hq, hrest]
      · rw [if_pos (.inl hq), if_pos (.inl hq), hrest]

end strings

/-! ### Sound iterations -/

/-- The look-ups of the next iteration are exact, and the name that it compares ends in the string
table. -/
def Config.Sound (env : LoadingEnv) (c : Config) : Prop :=
  match c.point with
  | .assignSymbols shdr =>
      shdr < env.rShtable.tEnd → shType c.memory shdr = shtSymtab →
        firstFailure (entsizeChecks c.memory shdr) = none →
          env.rShtable.Exact ((symtabId c.memory shdr).setWidth 64)
  | .assignTable _ symtable strTable sym =>
      sym < symtable.tEnd → strTable.Exact ((syName c.memory sym).setWidth 64) ∧
        (firstFailure (indexChecks strTable (nameOf c.memory strTable sym)) = none →
          located c.memory sym → env.rShtable.Exact ((syShndx c.memory sym).setWidth 64)) ∧
        (firstFailure (symbolChecks env c.memory strTable sym) = none → located c.memory sym →
          (∃ q ∈ c.queries, q.sDefined = 0) →
            Terminated c.memory (nameOf c.memory strTable sym) strTable.tEnd)
  | .applyRelocations shdr =>
      shdr < env.rShtable.tEnd → shType c.memory shdr = shtRel ∨ shType c.memory shdr = shtRela →
        firstFailure (entsizeChecks c.memory shdr) = none →
          env.rShtable.Exact ((symtabId c.memory shdr).setWidth 64) ∧
          (firstFailure (headerChecks env c.memory (symtabId c.memory shdr) shtSymtab ++
              entsizeChecks c.memory (headerAt env (symtabId c.memory shdr))) = none →
            env.rShtable.Exact ((targetId c.memory shdr).setWidth 64))
  | .applyTable _ _ reltable symtbl _ _ rel =>
      rel < reltable.tEnd → elf64RSym (rInfo c.memory rel) ≠ 0 →
        symtbl.Exact ((elf64RSym (rInfo c.memory rel)).setWidth 64)
  | _ => True

instance (env : LoadingEnv) (c : Config) : Decidable (c.Sound env) :=
  match c with
  | ⟨.assignSections _, _, _⟩ => inferInstanceAs (Decidable True)
  | ⟨.assignSymbols _, _, _⟩ => inferInstanceAs (Decidable (_ → _))
  | ⟨.assignTable _ _ _ _, _, _⟩ => inferInstanceAs (Decidable (_ → _))
  | ⟨.applyRelocations _, _, _⟩ => inferInstanceAs (Decidable (_ → _))
  | ⟨.applyTable _ _ _ _ _ _ _, _, _⟩ => inferInstanceAs (Decidable (_ → _))
  | ⟨.halted _ _, _, _⟩ => inferInstanceAs (Decidable True)

/-! ### Placed stages -/

section placed
variable (f : Memory) (size : ℕ) (base : Addr)

/-- The point of the loader at a spot. -/
def Spot.point : Spot → Point
  | .sections i => .assignSections (base + header f i)
  | .symbols i => .assignSymbols (base + header f i)
  | .symbol i j => .assignTable (base + header f i) (tableOf f base i) (tableOf f base (link f i))
      (base + entry f i j)
  | .relocations i => .applyRelocations (base + header f i)
  | .relocation i j => .applyTable (base + header f i) (shType f (header f i) = shtRela)
      (tableOf f base i) (tableOf f base (link f i))
      (base + shOffset f (header f (target f i))) (shSize f (header f (target f i)))
      (base + entry f i j)

def Stage.point (s : Stage) : Point :=
  match s.result with
  | some (pass, e) => .halted pass e
  | none => s.spot.point f base

/-- The address of a record, in a memory. -/
def addressAt (m : Memory) (t : Option ℕ) (j : ℕ) : U64 :=
  Bytes.load m (base + off ((tables f t).offset j (addressPlace t))) 8

/-- The address that is assigned to a record. -/
def assigned : Option ℕ → ℕ → U64
  | none, i => base + shOffset f (header f i)
  | some i, j => if located f (entry f i j) then base + symbolOffset f i j else 0

/-- The memory where a file is loaded. -/
structure Laid (spot : Spot) (image m : Memory) : Prop where
  bytes : ∀ o < size, ¬Marked f o → m (base + off o) = image (off o)
  past : ∀ t j, Live f t → HasAddress f t → j < (tables f t).count → spot.Past t j →
    addressAt f base m t j = assigned f base t j
  ahead : ∀ t j, Live f t → HasAddress f t → j < (tables f t).count → ¬spot.Past t j →
    addressAt f base m t j = addressAt f 0 f t j

/-- The loader has come to a stage of the load. -/
structure Placed (s : Stage) (c : Config) : Prop where
  point : c.point = s.point f base
  queries : c.queries = s.queries base
  laid : Laid f size base s.spot s.image c.memory

end placed

section laid
variable {f m image : Memory} {size i j : ℕ} {base : Addr} {spot spot' : Spot} {t u : Option ℕ}

theorem address_stop_le (wf : WellFormed f size) (ht : Live f t) (ha : HasAddress f t)
    (hj : j < (tables f t).count) :
    addressPlace t + 8 ≤ (tables f t).stride ∧
      (tables f t).offset j (addressPlace t) + 8 ≤ size := by
  have hrecord := wf.recordSize_le ht hj
  have hplace := addressPlace_add_le ha
  have hlast := (Records.Table.holds_offset hj
    (by omega : addressPlace t + 7 < (tables f t).stride)).2
  have hstop := wf.stop_le ht
  rw [Records.Table.offset_add] at hlast
  omega

theorem store_unmarked {o : ℕ} {v : BitVec (8 * 8)} (wf : WellFormed f size)
    (fit : LoadsAt f size base) (ht : Live f t) (ha : HasAddress f t)
    (hj : j < (tables f t).count) (ho : o < size) (hmark : ¬Marked f o) :
    Bytes.store m (base + off ((tables f t).offset j (addressPlace t))) v (base + off o) =
      m (base + off o) := by
  obtain ⟨hstride, hstop⟩ := address_stop_le wf ht ha hj
  refine Bytes.store_outside fun hin => ?_
  obtain ⟨hlo, hhi⟩ := inWord_off fit.image ho hstop hin
  obtain ⟨k, rfl⟩ := Nat.exists_eq_add_of_le hlo
  apply hmark
  rw [← Records.Table.offset_add, Marked, Records.marked_offset_iff wf.disjoint ht hj (by omega)]
  exact ⟨ha, by omega, by omega⟩

theorem addressAt_store_other {v : BitVec (8 * 8)} (wf : WellFormed f size)
    (fit : LoadsAt f size base) (ht : Live f t) (ha : HasAddress f t)
    (hj : j < (tables f t).count) (hu : Live f u) (hau : HasAddress f u)
    (hi : i < (tables f u).count) (hne : ¬(u = t ∧ i = j)) :
    addressAt f base (Bytes.store m (base + off ((tables f t).offset j (addressPlace t))) v) u i =
      addressAt f base m u i := by
  obtain ⟨hstride, hstop⟩ := address_stop_le wf ht ha hj
  obtain ⟨hstride', hstop'⟩ := address_stop_le wf hu hau hi
  apply Bytes.load_store_of_le
  intro k hk
  by_contra hlt
  have hbyte : base + off ((tables f u).offset i (addressPlace u)) + BitVec.ofNat 64 k =
      base + off ((tables f u).offset i (addressPlace u) + k) := by
    rw [off_add, BitVec.add_assoc]
    rfl
  rw [hbyte] at hlt
  obtain ⟨hlo, hhi⟩ := inWord_off fit.image (by omega) hstop (Nat.lt_of_not_le hlt)
  obtain ⟨l, hl⟩ := Nat.exists_eq_add_of_le hlo
  have hl8 : l < 8 := by omega
  rw [← Records.Table.offset_add, ← Records.Table.offset_add] at hl
  have hheld := Records.Table.holds_offset hi (by omega : addressPlace u + k < (tables f u).stride)
  have hheld' := Records.Table.holds_offset hj (by omega : addressPlace t + l < (tables f t).stride)
  rw [hl] at hheld
  obtain rfl := wf.disjoint u t _ hu ht hheld hheld'
  exact hne ⟨rfl, (Records.Table.offset_inj (by omega) (by omega) hl).1⟩

/-- **Assignment** : one more record is behind. -/
theorem Laid.assign (h : Laid f size base spot image m) (wf : WellFormed f size)
    (fit : LoadsAt f size base) (ht : Live f t) (ha : HasAddress f t)
    (hj : j < (tables f t).count)
    (hpast : ∀ u i, Live f u → HasAddress f u → i < (tables f u).count →
      (spot'.Past u i ↔ spot.Past u i ∨ u = t ∧ i = j)) :
    Laid f size base spot' image
      (Bytes.store (n := 8) m (base + off ((tables f t).offset j (addressPlace t)))
        (assigned f base t j)) := by
  refine ⟨fun o ho hmark => ?_, fun u i hu hau hi hp => ?_, fun u i hu hau hi hp => ?_⟩
  · rw [store_unmarked wf fit ht ha hj ho hmark]
    exact h.bytes o ho hmark
  · by_cases hself : u = t ∧ i = j
    · obtain ⟨rfl, rfl⟩ := hself
      exact Bytes.load_store (by decide)
    · rw [addressAt_store_other wf fit ht ha hj hu hau hi hself]
      exact h.past u i hu hau hi (((hpast u i hu hau hi).mp hp).resolve_right hself)
  · have hself : ¬(u = t ∧ i = j) := fun hself => hp ((hpast u i hu hau hi).mpr (.inr hself))
    rw [addressAt_store_other wf fit ht ha hj hu hau hi hself]
    exact h.ahead u i hu hau hi fun hspot => hp ((hpast u i hu hau hi).mpr (.inl hspot))

theorem Laid.goto (h : Laid f size base spot image m)
    (hpast : ∀ u i, Live f u → HasAddress f u → i < (tables f u).count →
      (spot'.Past u i ↔ spot.Past u i)) :
    Laid f size base spot' image m :=
  ⟨h.bytes, fun u i hu hau hi hp => h.past u i hu hau hi ((hpast u i hu hau hi).mp hp),
    fun u i hu hau hi hp => h.ahead u i hu hau hi fun hs => hp ((hpast u i hu hau hi).mpr hs)⟩

theorem Laid.intact {s : Stage} (h : Laid f size base spot s.image m) (hv : s.Valid f)
    (wf : WellFormed f size) : Intact f base m := by
  intro t o ht ho hmark
  have hstop := wf.stop_le ht
  have hlt := ho.2
  rw [h.bytes o (by omega) hmark]
  exact hv.image t o ht ho

theorem Laid.shAddr (h : Laid f size base spot image m) (hi : i < (headers f).count)
    (hpast : spot.PastSection i) :
    shAddr m (base + header f i) = base + shOffset f (header f i) := by
  unfold Loader.shAddr
  show Bytes.load m (base + header f i + off 16) 8 = _
  rw [BitVec.add_assoc, header_add]
  exact h.past none i trivial trivial hi hpast

theorem live_symtab (hi : i < (headers f).count) (ht : shType f (header f i) = shtSymtab) :
    Live f (some i) := by
  refine ⟨hi, ?_⟩
  rw [ht]
  decide

/-- The address of a symbol. -/
theorem syValue_eq_addressAt :
    syValue m (base + entry f i j) = addressAt f base m (some i) j := by
  unfold syValue addressAt
  show Bytes.load m (base + entry f i j + off 8) 8 = _
  rw [BitVec.add_assoc, entry_add]
  rfl

end laid

end KernelTk.Loader
