import Mathlib.Data.Nat.Basic

/-! # Tables of records

A table is a number of records of a constant size, one after another in a space of bytes.  Offsets are
natural numbers: nothing wraps here, and a model whose addresses wrap has to show first that its tables
lie below the end of its address space.

* **Offsets.** `t.offset j k` is the byte `k` of the record `j`, the table being given by its first byte,
  the size of a record (`stride`) and their number.  Records follow each other (`Table.offset_succ`), one
  that precedes another ends before it (`Table.offset_le`), and two records do not overlap
  (`Table.offset_inj`): a byte of a table belongs to one record, at one place.
* **Bounds.** `t.stop` is the first byte after the table, and a pointer to the record `j` is below it if
  and only if `j` is one of the records (`Table.offset_lt_iff`).
* **Marks.** In a family of disjoint tables, of which some are live, some bytes of the records are marked,
  by their places: `Marked`.  Whether a byte of a record is marked depends on its place alone
  (`marked_offset_iff`), which needs both the disjointness of the tables and that of the records; a table
  without marks has no marked byte (`not_marked_of_holds`). -/

namespace Records

/-- `count` records of `stride` bytes. -/
structure Table where
  start : ℕ
  count : ℕ
  stride : ℕ
deriving DecidableEq

namespace Table

/-- The byte `k` of the record `j`. -/
def offset (t : Table) (j k : ℕ) : ℕ := t.start + j * t.stride + k

/-- The successor of the last byte. -/
def stop (t : Table) : ℕ := t.start + t.count * t.stride

/-- The byte lies in the table. -/
def Holds (t : Table) (o : ℕ) : Prop := t.start ≤ o ∧ o < t.stop

instance (t : Table) (o : ℕ) : Decidable (t.Holds o) := inferInstanceAs (Decidable (_ ∧ _))

/-- One table ends before the other one starts, or is empty. -/
def Apart (t u : Table) : Prop :=
  t.stop ≤ u.start ∨ u.stop ≤ t.start ∨ t.stop ≤ t.start ∨ u.stop ≤ u.start

instance (t u : Table) : Decidable (t.Apart u) := inferInstanceAs (Decidable (_ ∨ _))

variable {t u : Table} {i j k l o : ℕ}

theorem offset_add : t.offset j (k + l) = t.offset j k + l := (Nat.add_assoc _ _ _).symm

theorem offset_succ : t.offset (j + 1) k = t.offset j k + t.stride := by
  unfold offset
  rw [Nat.succ_mul]
  omega

theorem offset_le (h : i < j) : t.offset i 0 + t.stride ≤ t.offset j 0 := by
  have hmul : (i + 1) * t.stride ≤ j * t.stride := Nat.mul_le_mul_right _ h
  rw [Nat.succ_mul] at hmul
  unfold offset
  omega

theorem offset_lt_iff (hs : j < t.count → 0 < t.stride) :
    t.offset j 0 < t.stop ↔ j < t.count := by
  unfold offset stop
  constructor
  · intro h
    exact Nat.lt_of_mul_lt_mul_right (by omega : j * t.stride < t.count * t.stride)
  · intro h
    have := Nat.mul_lt_mul_of_pos_right h (hs h)
    omega

theorem holds_offset (hj : j < t.count) (hk : k < t.stride) : t.Holds (t.offset j k) := by
  have hmul : (j + 1) * t.stride ≤ t.count * t.stride := Nat.mul_le_mul_right _ hj
  rw [Nat.succ_mul] at hmul
  unfold Holds stop offset
  omega

theorem offset_inj (hk : k < t.stride) (hl : l < t.stride) (h : t.offset i k = t.offset j l) :
    i = j ∧ k = l := by
  unfold offset at h
  rcases Nat.lt_trichotomy i j with hij | rfl | hij
  · have := offset_le (t := t) hij
    unfold offset at this
    omega
  · exact ⟨rfl, by omega⟩
  · have := offset_le (t := t) hij
    unfold offset at this
    omega

theorem Apart.not_holds (h : t.Apart u) (ht : t.Holds o) : ¬u.Holds o := by
  unfold Holds at *
  unfold Apart at h
  omega

end Table

/-! ### Marks -/

section marks
variable {ι : Type*} (tables : ι → Table) (live : ι → Prop) (marks : ι → ℕ → Prop)

/-- The live tables are disjoint. -/
def Disjoint : Prop :=
  ∀ s t o, live s → live t → (tables s).Holds o → (tables t).Holds o → s = t

/-- A byte of a record of a live table is marked. -/
def Marked (o : ℕ) : Prop :=
  ∃ t j k, live t ∧ j < (tables t).count ∧ k < (tables t).stride ∧ marks t k ∧
    o = (tables t).offset j k

variable {tables live marks} {t : ι} {j k o : ℕ}

theorem marked_offset_iff (hd : Disjoint tables live) (ht : live t) (hj : j < (tables t).count)
    (hk : k < (tables t).stride) :
    Marked tables live marks ((tables t).offset j k) ↔ marks t k := by
  constructor
  · rintro ⟨u, i, l, hu, hi, hl, hmark, he⟩
    have hheld := Table.holds_offset hi hl
    rw [← he] at hheld
    obtain rfl := hd u t _ hu ht hheld (Table.holds_offset hj hk)
    obtain ⟨-, rfl⟩ := Table.offset_inj hk hl he
    exact hmark
  · intro hmark
    exact ⟨t, j, k, ht, hj, hk, hmark, rfl⟩

theorem not_marked_of_holds (hd : Disjoint tables live) (ht : live t) (ho : (tables t).Holds o)
    (hmarks : ∀ k, ¬marks t k) : ¬Marked tables live marks o := by
  rintro ⟨u, i, l, hu, hi, hl, hmark, rfl⟩
  obtain rfl := hd u t _ hu ht (Table.holds_offset hi hl) ho
  exact hmarks l hmark

end marks

end Records
