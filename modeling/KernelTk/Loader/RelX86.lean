import KernelTk.Lib.Word
import KernelTk.Loader.Image

/-! # Relocations on x86-64

The functions of `rel_x86.c`, and what the field they store is worth.

* **Functions.** `rel16`, `rel32` and `rel64` are one function, `relField`, with the number of bytes of
  the field: it compares the absolute value of a relative value with the greatest *unsigned* value of the
  field, and stores the truncated value.  The negation of the most negative value is a signed overflow,
  for which C has no result: there `relField` has none.  `loaderApplyRelocation` selects one of them by
  the type of the relocation, and for that one displacement does what an optimising compiler makes of it.
* **Values.** `Fits w relative v` : a field of `w` bits can hold the value, as a two's complement number or
  as an unsigned one; `decode` is the number that a field stands for.  `BeyondHalf w v` : the absolute
  value has at most `w` bits and yet the value does not fit, which is the range between the two bounds.
* **Exactness.** `Exact` and `PlaceExact` say what is expected of a call: it succeeds iff the value fits,
  the field then decodes to it, and a call that fails changes nothing.  `relField_exact_iff` compares the
  two bounds (`magnitude`), and `relocation_exact_iff` puts the four functions together: they are exact
  where the value has an absolute value and is not `BeyondHalf`.
* **Frame.** `loaderApplyRelocation_cases` is the specification that the rest of the development uses: a
  call fails and changes nothing, or stores the low 32 bits of the displacement. -/

namespace KernelTk.Loader

/-- `rel16`, `rel32` and `rel64`, for a field of `n` bytes: 1 if the value overflows.  The negation
of the most negative value overflows, and what the code does then is undefined. -/
def relField (n : ℕ) (dst : Addr) (val : U64) (relative : U8) (m : Memory) :
    Option (U8 × Memory) :=
  if relative ≠ 0 ∧ val = BitVec.intMin 64 then none
  else
    let (abs, finalValue) : U64 × BitVec (8 * n) :=
      if relative ≠ 0 then
        (if val.slt 0 then -val else val, val.setWidth (8 * n))
      else (val, val.setWidth (8 * n))
    if abs > (-1 : BitVec (8 * n)).setWidth 64 then some (1, m)
    else some (0, Bytes.store m dst finalValue)

def rel16 := relField 2
def rel32 := relField 4
def rel64 := relField 8

/-- `R_AMD64_PC32` and `R_AMD64_PLT32`. -/
def rAmd64Pc32 : U32 := 2
def rAmd64Plt32 : U32 := 4

/-- The function and the sign that the `switch` selects, if the type is supported. -/
def relFunction (relType : U32) :
    Option ((Addr → U64 → U8 → Memory → Option (U8 × Memory)) × U8) :=
  if relType = rAmd64Pc32 then some (rel32, 1)
  else if relType = rAmd64Plt32 then some (rel32, 1)
  else none

def loaderApplyRelocation (relAddr symAddr addend : U64) (relType : U32) (m : Memory) :
    U8 × Memory :=
  match relFunction relType with
  | none => (loaderErrorRelBadType, m)
  | some (relF, relative) =>
      let relValue := symAddr + addend - relAddr
      match relF relAddr relValue relative m with
      -- undefined: the build of the Makefile (`-O3`) takes the absolute value to be a positive
      -- `s64`, finds no overflow and stores the low bits
      | none => (0, Bytes.store m relAddr (relValue.setWidth (8 * 4)))
      | some (error, m') => if error ≠ 0 then (loaderErrorRelValueOverflow, m') else (0, m')

/-! ### The value of a field -/

variable {n : ℕ} {dst : Addr} {val : U64} {relative : U8} {m : Memory}

/-- The number that a word stands for. -/
def decode {w : ℕ} (x : BitVec w) (relative : U8) : ℤ := if relative ≠ 0 then x.toInt else x.toNat

/-- The value fits a field of `w` bits: a two's complement field if it is relative. -/
def Fits (w : ℕ) (val : U64) (relative : U8) : Prop :=
  if relative ≠ 0 then -(2 : ℤ) ^ (w - 1) ≤ val.toInt ∧ val.toInt < 2 ^ (w - 1)
  else val.toNat < 2 ^ w

instance {w : ℕ} : Decidable (Fits w val relative) :=
  inferInstanceAs (Decidable (if relative ≠ 0 then
    -(2 : ℤ) ^ (w - 1) ≤ val.toInt ∧ val.toInt < 2 ^ (w - 1) else val.toNat < 2 ^ w))

/-- What is expected of a relocation function called with a field of `n` bytes at `dst`: its
result and the memory it leaves are `r`. -/
structure Exact (n : ℕ) (dst : Addr) (val : U64) (relative : U8) (m : Memory)
    (r : U8 × Memory) : Prop where
  accepts : r.1 = 0 ↔ Fits (8 * n) val relative
  stores : r.1 = 0 → decode (Bytes.load r.2 dst n) relative = decode val relative
  refuses : r.1 ≠ 0 → r.2 = m

/-- The signed value exceeds the signed half range of `w` bits, but its absolute value has no
more than `w` bits. -/
def BeyondHalf (w : ℕ) (val : U64) : Prop :=
  ((2 : ℤ) ^ (w - 1) ≤ val.toInt ∧ val.toInt < 2 ^ w) ∨
    (-(2 : ℤ) ^ w < val.toInt ∧ val.toInt < -2 ^ (w - 1))

instance {w : ℕ} {val : U64} : Decidable (BeyondHalf w val) := inferInstanceAs (Decidable (_ ∨ _))

/-- The absolute value that is compared with the bound. -/
def magnitude (val : U64) (relative : U8) : ℕ :=
  if relative ≠ 0 then val.toInt.natAbs else val.toNat

/-- The bound, computed on words, is the greatest unsigned value of the field. -/
theorem toNat_bound {w : ℕ} (hw : w ≤ 64) :
    ((-1 : BitVec w).setWidth 64).toNat = 2 ^ w - 1 := by
  have hle : 2 ^ w ≤ 2 ^ 64 := Nat.pow_le_pow_right (by omega) hw
  have hpos : 0 < 2 ^ w := Nat.two_pow_pos w
  have hones : (-1 : BitVec w) = BitVec.allOnes w := BitVec.neg_one_eq_allOnes
  rw [hones, BitVec.toNat_setWidth, BitVec.toNat_allOnes, Nat.mod_eq_of_lt (by omega)]

/-- The functions truncate the value and store it if its magnitude has no more bits than the
field. -/
theorem relField_eq (hn : n ≤ 8) (hdef : relative ≠ 0 → val ≠ BitVec.intMin 64) :
    relField n dst val relative m =
      if magnitude val relative < 2 ^ (8 * n) then
        some (0, Bytes.store m dst (val.setWidth (8 * n)))
      else some (1, m) := by
  have hpos : 0 < 2 ^ (8 * n) := Nat.two_pow_pos _
  have hb := toNat_bound (w := 8 * n) (by omega)
  unfold relField magnitude
  rw [if_neg fun h => hdef h.1 h.2]
  by_cases hr : relative ≠ 0
  · simp only [if_pos hr, GT.gt, BitVec.lt_def, hb, Word.toNat_abs]
    by_cases h : val.toInt.natAbs < 2 ^ (8 * n)
    · rw [if_pos h, if_neg (by omega)]
    · rw [if_neg h, if_pos (by omega)]
  · simp only [if_neg hr, GT.gt, BitVec.lt_def, hb]
    by_cases h : val.toNat < 2 ^ (8 * n)
    · rw [if_pos h, if_neg (by omega)]
    · rw [if_neg h, if_pos (by omega)]

theorem two_pow_half {w : ℕ} (hw : 0 < w) : (2 : ℤ) ^ w = 2 * 2 ^ (w - 1) := by
  obtain ⟨v, rfl⟩ := Nat.exists_eq_succ_of_ne_zero (Nat.ne_of_gt hw)
  rw [Nat.succ_sub_one, Int.mul_comm, ← Int.pow_succ]

/-- A value that fits is accepted. -/
theorem magnitude_of_fits {w : ℕ} (hw : 0 < w) (h : Fits w val relative) :
    magnitude val relative < 2 ^ w := by
  unfold Fits at h
  unfold magnitude
  have hhalf := two_pow_half hw
  have hcast : ((2 ^ w : ℕ) : ℤ) = 2 ^ w := by simp
  by_cases hr : relative ≠ 0
  · rw [if_pos hr] at h ⊢
    omega
  · rwa [if_neg hr] at h ⊢

theorem not_fits_iff {w : ℕ} (hw : 0 < w) (h : magnitude val relative < 2 ^ w) :
    ¬Fits w val relative ↔ relative ≠ 0 ∧ BeyondHalf w val := by
  unfold magnitude at h
  unfold Fits BeyondHalf
  have hhalf := two_pow_half hw
  have hpos : (0 : ℤ) < 2 ^ (w - 1) := Int.pow_pos (by decide)
  have hcast : ((2 ^ w : ℕ) : ℤ) = 2 ^ w := by simp
  by_cases hr : relative ≠ 0
  · simp only [if_pos hr] at h ⊢
    simp only [hr, ne_eq, not_false_eq_true, true_and]
    omega
  · simp only [if_neg hr] at h ⊢
    exact ⟨fun hf => absurd h hf, fun hb => absurd hb.1 hr⟩

theorem BeyondHalf.magnitude {w : ℕ} (hr : relative ≠ 0) (h : BeyondHalf w val) :
    magnitude val relative < 2 ^ w := by
  unfold Loader.magnitude
  have hcast : ((2 ^ w : ℕ) : ℤ) = 2 ^ w := by simp
  have hpos : (0 : ℤ) < 2 ^ (w - 1) := Int.pow_pos (by decide)
  rw [if_pos hr]
  rcases h with h | h <;> omega

/-- A value that fits is worth the same once truncated. -/
theorem decode_setWidth {w : ℕ} (hw : 0 < w) (hle : w ≤ 64) (h : Fits w val relative) :
    decode (val.setWidth w) relative = decode val relative := by
  unfold Fits at h
  unfold decode
  by_cases hr : relative ≠ 0
  · rw [if_pos hr] at h ⊢
    rw [if_pos hr, Word.toInt_setWidth_of_fits hw hle h.1 h.2]
  · rw [if_neg hr] at h ⊢
    rw [if_neg hr, BitVec.toNat_setWidth, Nat.mod_eq_of_lt h]

/-- The one relative value on which the functions are undefined. -/
theorem relField_intMin (hr : relative ≠ 0) :
    relField n dst (BitVec.intMin 64) relative m = none :=
  if_pos ⟨hr, rfl⟩

/-- A relocation function is exact where it is defined and the value does not exceed the signed
half range. -/
theorem relField_exact_iff (hpos : 0 < n) (hn : n ≤ 8) :
    (∃ r ∈ relField n dst val relative m, Exact n dst val relative m r) ↔
      (relative ≠ 0 → ¬BeyondHalf (8 * n) val ∧ val ≠ BitVec.intMin 64) := by
  constructor
  · rintro ⟨r, hret, he⟩ hr
    have hdef : val ≠ BitVec.intMin 64 := by
      rintro rfl
      cases (relField_intMin hr).symm.trans hret
    refine ⟨fun hb => ?_, hdef⟩
    have hmag := hb.magnitude hr
    rw [relField_eq hn fun _ => hdef, if_pos hmag, Option.mem_some_iff] at hret
    subst hret
    exact (not_fits_iff (by omega) hmag).mpr ⟨hr, hb⟩ (he.accepts.mp rfl)
  · intro h
    rw [relField_eq hn fun hr => (h hr).2]
    by_cases hmag : magnitude val relative < 2 ^ (8 * n)
    · have hfits : Fits (8 * n) val relative := by
        by_contra hf
        obtain ⟨hr, hb⟩ := (not_fits_iff (by omega) hmag).mp hf
        exact (h hr).1 hb
      rw [if_pos hmag]
      refine ⟨_, rfl, ⟨fun _ => hfits, fun _ => rfl⟩, fun _ => ?_, fun hne => absurd rfl hne⟩
      rw [Bytes.load_store (by omega)]
      exact decode_setWidth (by omega) (by omega) hfits
    · rw [if_neg hmag]
      have hone : ¬(1 : U8) = 0 := by decide
      refine ⟨_, rfl, ⟨fun he => absurd he hone, fun hf => ?_⟩, fun he => absurd he hone,
        fun _ => rfl⟩
      exact absurd (magnitude_of_fits (by omega) hf) hmag

/-! ### The relocations of the processor -/

variable {relAddr symAddr addend : U64} {relType : U32}

/-- The displacements that a relocation does not report: those whose absolute value has at most 32
bits, and the one that has no absolute value. -/
def Accepted (val : U64) : Prop := magnitude val 1 < 2 ^ 32 ∨ val = BitVec.intMin 64

instance {val : U64} : Decidable (Accepted val) := inferInstanceAs (Decidable (_ ∨ _))

theorem relFunction_pcRelative (h : relType = rAmd64Pc32 ∨ relType = rAmd64Plt32) :
    relFunction relType = some (rel32, 1) := by
  rcases h with rfl | rfl <;> rfl

theorem relFunction_eq_none (h : ¬(relType = rAmd64Pc32 ∨ relType = rAmd64Plt32)) :
    relFunction relType = none := by
  rw [not_or] at h
  unfold relFunction
  rw [if_neg h.1, if_neg h.2]

theorem loaderApplyRelocation_eq (h : relType = rAmd64Pc32 ∨ relType = rAmd64Plt32) :
    loaderApplyRelocation relAddr symAddr addend relType m =
      if Accepted (symAddr + addend - relAddr) then
        (0, Bytes.store m relAddr ((symAddr + addend - relAddr).setWidth (8 * 4)))
      else (loaderErrorRelValueOverflow, m) := by
  have hone : (1 : U8) ≠ 0 := by decide
  have hzero : ¬(0 : U8) ≠ 0 := by decide
  unfold loaderApplyRelocation
  rw [relFunction_pcRelative h]
  generalize symAddr + addend - relAddr = val
  by_cases hdef : val = BitVec.intMin 64
  · have hacc : Accepted val := .inr hdef
    subst hdef
    simp only [rel32, relField_intMin hone, if_pos hacc]
  · simp only [rel32, relField_eq (Nat.le_of_ble_eq_true rfl : 4 ≤ 8) fun _ => hdef]
    by_cases hmag : magnitude val 1 < 2 ^ 32
    · have hacc : Accepted val := .inl hmag
      rw [if_pos (show magnitude val 1 < 2 ^ (8 * 4) from hmag), if_pos hacc]
      exact if_neg hzero
    · have hacc : ¬Accepted val := not_or.mpr ⟨hmag, hdef⟩
      rw [if_neg (show ¬magnitude val 1 < 2 ^ (8 * 4) from hmag), if_neg hacc]
      exact if_pos hone

theorem loaderApplyRelocation_badType (h : ¬(relType = rAmd64Pc32 ∨ relType = rAmd64Plt32)) :
    loaderApplyRelocation relAddr symAddr addend relType m = (loaderErrorRelBadType, m) := by
  unfold loaderApplyRelocation
  rw [relFunction_eq_none h]

/-- What a relocation does: it fails and changes nothing, or stores the low 32 bits of the
displacement. -/
theorem loaderApplyRelocation_cases :
    ((loaderApplyRelocation relAddr symAddr addend relType m).1 ≠ 0 ∧
        (loaderApplyRelocation relAddr symAddr addend relType m).2 = m ∧
        ¬((relType = rAmd64Pc32 ∨ relType = rAmd64Plt32) ∧
          Accepted (symAddr + addend - relAddr))) ∨
      ((loaderApplyRelocation relAddr symAddr addend relType m).1 = 0 ∧
        (loaderApplyRelocation relAddr symAddr addend relType m).2 =
          Bytes.store m relAddr ((symAddr + addend - relAddr).setWidth (8 * 4)) ∧
        (relType = rAmd64Pc32 ∨ relType = rAmd64Plt32) ∧
          Accepted (symAddr + addend - relAddr)) := by
  have hbad : loaderErrorRelBadType ≠ 0 := by decide
  have hoverflow : loaderErrorRelValueOverflow ≠ 0 := by decide
  by_cases htype : relType = rAmd64Pc32 ∨ relType = rAmd64Plt32
  · rw [loaderApplyRelocation_eq htype]
    by_cases hacc : Accepted (symAddr + addend - relAddr)
    · rw [if_pos hacc]
      exact .inr ⟨rfl, rfl, htype, hacc⟩
    · rw [if_neg hacc]
      exact .inl ⟨hoverflow, rfl, fun h => hacc h.2⟩
  · rw [loaderApplyRelocation_badType htype]
    exact .inl ⟨hbad, rfl, fun h => htype h.1⟩

/-- A relocation that fails changes nothing. -/
theorem loaderApplyRelocation_error
    (h : (loaderApplyRelocation relAddr symAddr addend relType m).1 ≠ 0) :
    (loaderApplyRelocation relAddr symAddr addend relType m).2 = m := by
  rcases loaderApplyRelocation_cases (m := m) with ⟨-, hsame, -⟩ | ⟨hzero, -⟩
  · exact hsame
  · exact absurd hzero h

/-- A relocation that succeeds stores the low 32 bits of the displacement. -/
theorem loaderApplyRelocation_stores
    (h : (loaderApplyRelocation relAddr symAddr addend relType m).1 = 0) :
    (loaderApplyRelocation relAddr symAddr addend relType m).2 =
      Bytes.store m relAddr ((symAddr + addend - relAddr).setWidth (8 * 4)) := by
  rcases loaderApplyRelocation_cases (m := m) with ⟨hne, -⟩ | ⟨-, hstore, -⟩
  · exact absurd h hne
  · exact hstore

theorem loaderApplyRelocation_other {b : Addr} (h : 4 ≤ (b - relAddr).toNat) :
    (loaderApplyRelocation relAddr symAddr addend relType m).2 b = m b := by
  rcases loaderApplyRelocation_cases (m := m) with ⟨-, hsame, -⟩ | ⟨-, hstore, -⟩
  · rw [hsame]
  · rw [hstore]
    exact Bytes.store_of_le h

theorem loaderApplyRelocation_eq_zero_iff :
    (loaderApplyRelocation relAddr symAddr addend relType m).1 = 0 ↔
      (relType = rAmd64Pc32 ∨ relType = rAmd64Plt32) ∧
        Accepted (symAddr + addend - relAddr) := by
  rcases loaderApplyRelocation_cases (m := m) with ⟨hne, -, hnot⟩ | ⟨hzero, -, hacc⟩
  · exact iff_of_false hne hnot
  · exact iff_of_true hzero hacc

/-- A relocation depends on the displacement only: not on the place, and not on the memory but for
the bytes it leaves. -/
theorem loaderApplyRelocation_congr {relAddr' symAddr' : U64} {m' : Memory}
    (h : symAddr + addend - relAddr = symAddr' + addend - relAddr') :
    (loaderApplyRelocation relAddr symAddr addend relType m).1 =
        (loaderApplyRelocation relAddr' symAddr' addend relType m').1 ∧
      ∀ b b', b - relAddr = b' - relAddr' → m b = m' b' →
        (loaderApplyRelocation relAddr symAddr addend relType m).2 b =
          (loaderApplyRelocation relAddr' symAddr' addend relType m').2 b' := by
  by_cases htype : relType = rAmd64Pc32 ∨ relType = rAmd64Plt32
  · rw [loaderApplyRelocation_eq htype, loaderApplyRelocation_eq htype, h]
    by_cases hacc : Accepted (symAddr' + addend - relAddr')
    · rw [if_pos hacc, if_pos hacc]
      refine ⟨rfl, fun b b' hplace hb => ?_⟩
      show Bytes.store m relAddr _ b = Bytes.store m' relAddr' _ b'
      unfold Bytes.store
      rw [hplace, hb]
    · rw [if_neg hacc, if_neg hacc]
      exact ⟨rfl, fun b b' _ hb => hb⟩
  · rw [loaderApplyRelocation_badType htype, loaderApplyRelocation_badType htype]
    exact ⟨rfl, fun b b' _ hb => hb⟩

/-- What is expected of a relocation relative to its place: its result and the memory it leaves
are `r`. -/
structure PlaceExact (relAddr symAddr addend : U64) (m : Memory) (r : U8 × Memory) : Prop where
  accepts : r.1 = 0 ↔ -(2 : ℤ) ^ 31 ≤ (symAddr + addend - relAddr).toInt ∧
    (symAddr + addend - relAddr).toInt < 2 ^ 31
  stores : r.1 = 0 →
    relAddr + (Bytes.load r.2 relAddr 4).signExtend 64 = symAddr + addend
  overflows : r.1 ≠ 0 → r.1 = loaderErrorRelValueOverflow ∧ r.2 = m

/-- The field, extended and added to its place, is the target if and only if it decodes to the
displacement. -/
theorem place_add_field {x : BitVec (8 * 4)} :
    relAddr + x.signExtend 64 = symAddr + addend ↔
      decode x 1 = decode (symAddr + addend - relAddr) 1 := by
  have hone : (1 : U8) ≠ 0 := by decide
  have hdecode : decode x 1 = (x.signExtend 64).toInt := by
    rw [decode, if_pos hone, BitVec.toInt_signExtend_of_le (by omega)]
  rw [hdecode, decode, if_pos hone, BitVec.toInt_inj]
  constructor
  · intro h
    rw [← h, BitVec.add_comm, BitVec.add_sub_cancel]
  · intro h
    rw [h, BitVec.add_comm, BitVec.sub_add_cancel]

/-- A displacement that is accepted and exact is one of those that fit. -/
theorem accepted_fits_iff {val : U64} :
    (Accepted val → Fits 32 val 1) ↔ ¬BeyondHalf 32 val ∧ val ≠ BitVec.intMin 64 := by
  have hone : (1 : U8) ≠ 0 := by decide
  constructor
  · intro h
    refine ⟨fun hb => ?_, ?_⟩
    · have hmag := hb.magnitude hone
      exact (not_fits_iff (by omega) hmag).mpr ⟨hone, hb⟩ (h (.inl hmag))
    · rintro rfl
      exact absurd (h (.inr rfl)) (by decide)
  · rintro ⟨hhalf, hdef⟩ (hmag | hmin)
    · by_contra hf
      exact hhalf ((not_fits_iff (by omega) hmag).mp hf).2
    · exact absurd hmin hdef

/-- A place-relative relocation is exact where every displacement that is accepted fits. -/
theorem placeExact_iff (h : relType = rAmd64Pc32 ∨ relType = rAmd64Plt32) :
    PlaceExact relAddr symAddr addend m (loaderApplyRelocation relAddr symAddr addend relType m) ↔
      (Accepted (symAddr + addend - relAddr) → Fits 32 (symAddr + addend - relAddr) 1) := by
  have hcode : ¬loaderErrorRelValueOverflow = 0 := by decide
  have hfits : Fits 32 (symAddr + addend - relAddr) 1 ↔
      -(2 : ℤ) ^ 31 ≤ (symAddr + addend - relAddr).toInt ∧
        (symAddr + addend - relAddr).toInt < 2 ^ 31 := Iff.rfl
  rw [loaderApplyRelocation_eq h]
  by_cases hacc : Accepted (symAddr + addend - relAddr)
  · rw [if_pos hacc]
    refine ⟨fun he _ => hfits.mpr (he.accepts.mp rfl), fun hf => ?_⟩
    refine ⟨⟨fun _ => hfits.mp (hf hacc), fun _ => rfl⟩, fun _ => ?_, fun hne => absurd rfl hne⟩
    rw [place_add_field, Bytes.load_store (by omega)]
    exact decode_setWidth (by omega) (by omega) (hf hacc)
  · rw [if_neg hacc]
    refine ⟨fun _ ha => absurd ha hacc, fun _ => ?_⟩
    refine ⟨⟨fun h0 => absurd h0 hcode, fun hin => ?_⟩, fun h0 => absurd h0 hcode,
      fun _ => ⟨rfl, rfl⟩⟩
    exact absurd (.inl (magnitude_of_fits (by omega) (hfits.mpr hin))) hacc

/-- **Relocations are exact where the value has an absolute value and does not exceed the signed
half range.** -/
theorem relocation_exact_iff (relAddr symAddr addend : U64) (relType : U32) (dst : Addr)
    (val : U64) (relative : U8) (m : Memory) :
    (relType = rAmd64Pc32 ∨ relType = rAmd64Plt32 →
      (PlaceExact relAddr symAddr addend m
          (loaderApplyRelocation relAddr symAddr addend relType m) ↔
        ¬BeyondHalf 32 (symAddr + addend - relAddr) ∧
          symAddr + addend - relAddr ≠ BitVec.intMin 64)) ∧
    ((∃ r ∈ rel16 dst val relative m, Exact 2 dst val relative m r) ↔
      (relative ≠ 0 → ¬BeyondHalf 16 val ∧ val ≠ BitVec.intMin 64)) ∧
    ((∃ r ∈ rel32 dst val relative m, Exact 4 dst val relative m r) ↔
      (relative ≠ 0 → ¬BeyondHalf 32 val ∧ val ≠ BitVec.intMin 64)) ∧
    ((∃ r ∈ rel64 dst val relative m, Exact 8 dst val relative m r) ↔
      (relative ≠ 0 → val ≠ BitVec.intMin 64)) := by
  refine ⟨fun htype => ?_, relField_exact_iff (by omega) (by omega),
    relField_exact_iff (by omega) (by omega), ?_⟩
  · rw [placeExact_iff htype, accepted_fits_iff]
  · unfold rel64
    rw [relField_exact_iff (by omega) (by omega)]
    -- no value of 64 bits exceeds the half range of 64 bits
    have hhalf : ¬BeyondHalf 64 val := by
      have hlo := val.le_toInt
      have hhi := val.toInt_lt
      rintro (hb | hb) <;> omega
    exact ⟨fun h hr => (h hr).2, fun h hr => ⟨hhalf, h hr⟩⟩

/-- A call from `0x1000` to `0x2000` is encoded exactly. -/
theorem relocation_exact_call :
    PlaceExact 0x1000 0x2000 (-4) (fun _ => 0)
      (loaderApplyRelocation 0x1000 0x2000 (-4) rAmd64Plt32 (fun _ => 0)) :=
  ((relocation_exact_iff 0x1000 0x2000 (-4) rAmd64Plt32 0 0 0 _).1 (.inr rfl)).mpr (by decide)

/-- A call from `0x1000` to `0x80001000` is accepted: the field stored jumps 2 GiB backwards. -/
theorem relocation_inexact :
    ¬PlaceExact 0x1000 0x80001000 0 (fun _ => 0)
      (loaderApplyRelocation 0x1000 0x80001000 0 rAmd64Pc32 (fun _ => 0)) := by
  intro h
  exact absurd (h.accepts.mp (by decide)) (by decide)

end KernelTk.Loader
