import Mathlib.Algebra.Group.Int.Defs
import Mathlib.Algebra.Group.Nat.Defs
import Mathlib.Data.Int.Basic

/-! # Counters and signed values in machine words

What `BitVec` lacks for two habits of C programs: counters that are trusted not to wrap, and signed
values that are checked through their absolute value and then cut to a narrower field.

* **Counters.** A counter is a `BitVec w`; it is incremented and decremented modulo `2 ^ w`.  Away from
  the two ends of its range it counts (`toNat_incr`, `toNat_decr`), and a decrement always changes it,
  wherever it is (`decr_ne`).
* **Words of integers.** `BitVec.ofInt w i` is the word of a sum that may be negative or too large for the
  word.  Increments and decrements of the word follow those of the integer (`ofInt_incr`, `ofInt_decr`),
  so that a counter that wraps is described by the integer that it stands for.
* **Signed values.** The absolute value that is computed on words is exact, that of the most negative
  value being its own word read without its sign (`toNat_abs`).  A value that fits `v` bits survives its
  truncation to `v` bits (`toInt_setWidth_of_fits`) : truncated and extended again with its sign, it is
  what it was. -/

namespace Word

variable {w : ℕ} {x : BitVec w}

theorem toNat_one (h : 1 < 2 ^ w) : (1 : BitVec w).toNat = 1 := by
  simp [BitVec.toNat_ofNat, Nat.mod_eq_of_lt h]

theorem toNat_incr (h : x.toNat + 1 < 2 ^ w) : (x + 1).toNat = x.toNat + 1 := by
  rw [BitVec.toNat_add, toNat_one (by omega), Nat.mod_eq_of_lt h]

theorem toNat_pos (h : x ≠ 0) : 0 < x.toNat := by
  rw [Nat.pos_iff_ne_zero]
  intro e
  exact h (BitVec.eq_of_toNat_eq (by simpa using e))

theorem toNat_decr (h : x ≠ 0) : (x - 1).toNat = x.toNat - 1 := by
  have hpos := toNat_pos h
  have hlt := x.isLt
  have hone : (1 : BitVec w).toNat = 1 := toNat_one (by omega)
  rw [BitVec.toNat_sub, hone]
  have e : 2 ^ w - 1 + x.toNat = 2 ^ w + (x.toNat - 1) := by omega
  rw [e, Nat.add_mod_left, Nat.mod_eq_of_lt (by omega)]

theorem decr_ne (h : 1 < 2 ^ w) : x - 1 ≠ x := by
  intro e
  have hself : x + 1 = x := (congrArg (· + 1) e).symm.trans (BitVec.sub_add_cancel x 1)
  have hone : (1 : BitVec w) = 0 := calc
    1 = 1 + x - x := (BitVec.add_sub_cancel 1 x).symm
    _ = x - x := by rw [BitVec.add_comm 1 x, hself]
    _ = 0 := BitVec.sub_self x
  have hnat := congrArg BitVec.toNat hone
  rw [toNat_one h] at hnat
  simp at hnat

theorem incr_zero : (0 : BitVec w) + 1 = 1 := BitVec.zero_add 1

theorem decr_one : (1 : BitVec w) - 1 = 0 := BitVec.sub_self 1

/-! ### Words of integers -/

theorem ofInt_incr (i : ℤ) : BitVec.ofInt w (i + 1) = BitVec.ofInt w i + 1 := by
  rw [BitVec.ofInt_add]
  rfl

theorem ofInt_decr (i : ℤ) : BitVec.ofInt w (i - 1) = BitVec.ofInt w i - 1 := by
  have h := ofInt_incr (w := w) (i - 1)
  rw [Int.sub_add_cancel] at h
  rw [h, BitVec.add_sub_cancel]

theorem ofInt_zero : BitVec.ofInt w 0 = 0 := rfl

/-! ### Signed values -/

/-- The absolute value, computed on words, is exact: that of the most negative value is its own
word, read without its sign. -/
theorem toNat_abs : (if x.slt 0 then -x else x).toNat = x.toInt.natAbs := by
  have habs : (if x.slt 0 then -x else x) = x.abs := by
    rw [show x.slt 0 = x.msb from BitVec.slt_zero_eq_msb]
    rfl
  rw [habs, BitVec.toNat_abs, BitVec.toInt_eq_msb_cond]
  have hlt := x.isLt
  cases hx : x.msb with
  | false => simp
  | true =>
      simp only [if_true]
      have hpow : ((2 ^ w : ℕ) : ℤ) = (2 : ℤ) ^ w := by simp
      omega

/-- A value that fits `v` bits survives its truncation to `v` bits. -/
theorem toInt_setWidth_of_fits {v : ℕ} (hv : 0 < v) (hw : v ≤ w)
    (hlo : -(2 : ℤ) ^ (v - 1) ≤ x.toInt) (hhi : x.toInt < (2 : ℤ) ^ (v - 1)) :
    (x.setWidth v).toInt = x.toInt := by
  rw [← BitVec.signExtend_eq_setWidth_of_le x hw, BitVec.toInt_signExtend_eq_toInt_bmod_of_le x hw]
  have hpow : ((2 ^ v : ℕ) : ℤ) = 2 * 2 ^ (v - 1) := by
    obtain ⟨u, rfl⟩ := Nat.exists_eq_succ_of_ne_zero (Nat.ne_of_gt hv)
    rw [Nat.succ_sub_one, Int.mul_comm, ← Int.pow_succ]
    simp
  apply Int.bmod_eq_of_le <;> omega

end Word
