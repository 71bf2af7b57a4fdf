import Mathlib.Algebra.Group.Nat.Defs
import Mathlib.Data.Nat.Basic

/-! # Little-endian words in a byte memory

`Mem k` is a memory of `2 ^ k` bytes: a function from addresses, which are words of `k` bits, to bytes.
There is no bound on what may be read or written, and addresses wrap, so that a word may lie across the
end of the memory; what a program may touch is for its model to say.

* **Loads.** `load m a n` is the word of `n` bytes at `a`, the byte of lowest weight first: the bit `i`
  of the word is the bit `i % 8` of the byte `i / 8` (`getLsbD_load`).  Two words are equal if and only
  if their bytes are (`load_congr`, `byte_of_load`), which is how a load is carried from one memory to
  another that agrees with it on the bytes of the word.
* **Stores.** `store m a v` writes the bytes of `v` from `a` on.  A byte is in the word when its distance
  to `a`, modulo the size of the memory, is less than the size of the word; `store_of_lt` and
  `store_of_le` read a byte back on either side of this bound, and `load_store` and `load_store_of_le`
  do it for whole words: what has just been stored is loaded, and a word apart from it is unchanged.
  The word must be no longer than the memory, otherwise the last bytes would overwrite the first. -/

namespace Bytes

/-- A memory: the byte at every address. -/
abbrev Mem (k : ℕ) := BitVec k → BitVec 8

variable {k n : ℕ}

/-- The word of `n` bytes at an address. -/
def load (m : Mem k) (a : BitVec k) : (n : ℕ) → BitVec (8 * n)
  | 0 => 0
  | n + 1 => load m (a + 1) n ++ m a

/-- Store a word of `n` bytes: byte `i` of the word goes to the address `a + i`. -/
def store (m : Mem k) (a : BitVec k) (v : BitVec (8 * n)) : Mem k := fun b =>
  if (b - a).toNat < n then v.extractLsb' (8 * (b - a).toNat) 8 else m b

theorem store_of_lt {m : Mem k} {a b : BitVec k} {v : BitVec (8 * n)} (h : (b - a).toNat < n) :
    store m a v b = v.extractLsb' (8 * (b - a).toNat) 8 := if_pos h

theorem store_of_le {m : Mem k} {a b : BitVec k} {v : BitVec (8 * n)} (h : n ≤ (b - a).toNat) :
    store m a v b = m b := if_neg (by omega)

/-- Bit `i` of a word is bit `i % 8` of its byte `i / 8`. -/
theorem getLsbD_load {m : Mem k} : ∀ {n i : ℕ} {a : BitVec k}, i < 8 * n →
    (load m a n).getLsbD i = (m (a + BitVec.ofNat k (i / 8))).getLsbD (i % 8)
  | 0, _, _, h => by omega
  | n + 1, i, a, h => by
      unfold load
      rw [BitVec.getLsbD_append]
      by_cases hi : i < 8
      · have e : i / 8 = 0 := by omega
        simp [hi, e, Nat.mod_eq_of_lt hi]
      · have e : i / 8 = (i - 8) / 8 + 1 := by omega
        have hb : a + BitVec.ofNat k (i / 8) = a + 1 + BitVec.ofNat k ((i - 8) / 8) := by
          rw [e, BitVec.ofNat_add, BitVec.add_assoc, BitVec.add_comm 1]
          rfl
        rw [if_neg (by simpa using hi), getLsbD_load (by omega), hb]
        congr 1
        omega

theorem load_store {m : Mem k} {a : BitVec k} {v : BitVec (8 * n)} (h : n ≤ 2 ^ k) :
    load (store m a v) a n = v := by
  apply BitVec.eq_of_getLsbD_eq
  intro i hi
  have hlt : i / 8 < n := by omega
  have hoff : (a + BitVec.ofNat k (i / 8) - a).toNat = i / 8 := by
    rw [BitVec.add_comm a, BitVec.add_sub_cancel, BitVec.toNat_ofNat, Nat.mod_eq_of_lt (by omega)]
  rw [getLsbD_load hi, store_of_lt (by omega), hoff, BitVec.getLsbD_extractLsb']
  have hmod : i % 8 < 8 := Nat.mod_lt _ (by omega)
  simp only [hmod, decide_true, Bool.true_and]
  congr 1
  omega

theorem load_congr {m m' : Mem k} : ∀ {n : ℕ} {a a' : BitVec k},
    (∀ i < n, m (a + BitVec.ofNat k i) = m' (a' + BitVec.ofNat k i)) → load m a n = load m' a' n
  | 0, _, _, _ => rfl
  | n + 1, a, a', h => by
      have hfirst : m a = m' a' := by
        have := h 0 (Nat.succ_pos n)
        rwa [BitVec.add_zero, BitVec.add_zero] at this
      have hrest : load m (a + 1) n = load m' (a' + 1) n := by
        apply load_congr
        intro i hi
        have := h (i + 1) (Nat.succ_lt_succ hi)
        rw [Nat.add_comm, BitVec.ofNat_add, ← BitVec.add_assoc, ← BitVec.add_assoc] at this
        exact this
      unfold load
      rw [hfirst, hrest]

theorem byte_of_load {m m' : Mem k} {a a' : BitVec k} {i : ℕ} (h : load m a n = load m' a' n)
    (hi : i < n) : m (a + BitVec.ofNat k i) = m' (a' + BitVec.ofNat k i) := by
  apply BitVec.eq_of_getLsbD_eq
  intro b hb
  have hbit : (load m a n).getLsbD (8 * i + b) = (load m' a' n).getLsbD (8 * i + b) := by rw [h]
  rw [getLsbD_load (by omega), getLsbD_load (by omega)] at hbit
  have hdiv : (8 * i + b) / 8 = i := by omega
  have hmod : (8 * i + b) % 8 = b := by omega
  rwa [hdiv, hmod] at hbit

theorem load_store_of_le {m : Mem k} {a b : BitVec k} {v : BitVec (8 * n)} {n' : ℕ}
    (h : ∀ i < n', n ≤ (b + BitVec.ofNat k i - a).toNat) :
    load (store m a v) b n' = load m b n' :=
  load_congr fun i hi => store_of_le (h i hi)

end Bytes
