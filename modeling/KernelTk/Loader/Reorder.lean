import Mathlib.Logic.Equiv.Basic
import KernelTk.Loader.Fields

/-! # The order of relocations

An image whose relocations have explicit addends, and whose fields are disjoint from one another and
from the tables.

* **Orders.** `Reordered env m σ τ m₂` : the image `m₂` differs from `m` by the order of the headers of
  the relocation tables, permuted by `σ`, and of the entries of each of these tables, permuted by `τ`.
* **Property.** `OrderFree` : the fields hold the low 32 bits of S + A - P and nothing else is changed,
  every reordered image is left the same but for the order of its tables (`SameButOrder`), and a second
  pass changes nothing.
* **Relocations.** The relocations of `m₂` are those of `m` (`Permuted.sameRelocation`), with the same
  checks, places and fields; so both images are patched with the same fields
  (`Reordered.sameButOrder`).  The image that is left has the relocations of the first one, too, which
  is why it may be relocated again.
* **Independence.** `relocations_order_independent` : the relocations are free of order when every
  structure that is read is whole in its table, or in no field.
* **Defects.** Without this condition it may fail: `overhang_not_idempotent` is a symbol table whose last
  entry is accepted though it lies beyond the end but for its first bytes; the field of a relocation lies
  there, over the value of the symbol, and every pass changes it again.  The counterexample is proved
  for any memory that has the tables of the file (`TablesOverhang`), the one that a pass leaves
  included. -/

namespace KernelTk.Loader

open Sweep (Visits check firstFailure)

/-! ### Orders -/

section orders
variable (env : LoadingEnv) (m : Memory)

/-- The header of a relocation table. -/
def RelTable (hdr : Addr) : Prop := Listed env hdr ∧ HoldsRelocations m hdr

/-- The byte is one of the header of a relocation table, or of an entry. -/
def Moved (b : Addr) : Prop :=
  (∃ hdr, RelTable env m hdr ∧ Bytes.InWord 64 hdr b) ∨
    ∃ r : Relocation, r.InImage env m ∧ Bytes.InWord 24 r.rel b

/-- The structures that are read and do not move. -/
inductive Kept : Addr → ℕ → Prop
  | header {hdr : Addr} : Listed env hdr → ¬HoldsRelocations m hdr → Kept hdr 64
  | symtab {hdr : Addr} : RelTable env m hdr → Kept (symtabHdr env m hdr) 64
  | relSect {hdr : Addr} : RelTable env m hdr → Kept (relSectHdr env m hdr) 64
  | symbol {r : Relocation} : r.InImage env m → Kept (r.sym env m) 24

/-- The tables of the image `m₂` are those of the image `m`, with the headers of the relocation tables
permuted by `σ` and the entries of the table of `hdr` by `τ hdr`. -/
structure Permuted (σ : Equiv.Perm Addr) (τ : Addr → Equiv.Perm Addr) (m₂ : Memory) : Prop where
  slots : ∀ hdr, RelTable env m (σ hdr) ↔ RelTable env m hdr
  entrySlots : ∀ hdr, RelTable env m hdr →
    ∀ rel, EntryOf env m hdr (τ hdr rel) ↔ EntryOf env m hdr rel
  header : ∀ hdr, RelTable env m hdr → SameRecord 64 m₂ (σ hdr) m hdr
  entry : ∀ r : Relocation, r.InImage env m →
    SameRecord 24 m₂ (τ r.relTableHdr r.rel) m r.rel
  kept : ∀ a n, Kept env m a n → SameRecord n m₂ a m a

/-- Nothing else differs. -/
structure Reordered (σ : Equiv.Perm Addr) (τ : Addr → Equiv.Perm Addr) (m₂ : Memory) : Prop
    extends Permuted env m σ τ m₂ where
  other : ∀ b, ¬Moved env m b → m₂ b = m b

/-- The two images are the same, but for the order of their tables. -/
structure SameButOrder (m₂ m' m₂' : Memory) : Prop where
  other : ∀ b, ¬Moved env m b → m₂' b = m' b
  moved : ∀ b, Moved env m b → m₂' b = m₂ b

/-- What is expected of the relocations of an image: every field of the memory `m'` that they leave is
the low 32 bits of S + A - P and nothing else is changed, any order of the tables leaves the same, and a
second call changes nothing. -/
structure OrderFree (m' : Memory) : Prop where
  returns : Returns env m 0 m'
  fields : Relocated env m m'
  anyOrder : ∀ σ τ m₂, Reordered env m σ τ m₂ →
    ∃ m₂', AllApplied env m₂ ∧ Returns env m₂ 0 m₂' ∧ SameButOrder env m m₂ m' m₂'
  again : Returns env m' 0 m'

/-- Where a relocation goes. -/
def Relocation.reorder (σ : Equiv.Perm Addr) (τ : Addr → Equiv.Perm Addr) (r : Relocation) :
    Relocation :=
  ⟨σ r.relTableHdr, τ r.relTableHdr r.rel⟩

end orders

/-! ### The relocations of a reordered image -/

section reordered
variable {env : LoadingEnv} {m m₂ : Memory} {σ : Equiv.Perm Addr} {τ : Addr → Equiv.Perm Addr}
  {hdr a : Addr} {n : ℕ} {r r' : Relocation}

theorem Relocation.InImage.relTable (h : r.InImage env m) : RelTable env m r.relTableHdr :=
  ⟨h.listed, h.type⟩

namespace Permuted

variable (R : Permuted env m σ τ m₂)
include R

theorem sameTable (h : RelTable env m hdr) : SameTable env m₂ (σ hdr) m hdr :=
  ⟨R.header hdr h, R.kept _ _ (.symtab h), R.kept _ _ (.relSect h)⟩

/-- **The relocations of the reordered image** are those of the image. -/
theorem sameRelocation (h : r.InImage env m) : SameRelocation env m₂ (r.reorder σ τ) m r :=
  ⟨R.sameTable h.relTable, R.entry r h, R.kept _ _ (.symbol h)⟩

/-- A slot holds the header of some relocation table of the image. -/
theorem exists_slot (h : RelTable env m hdr) : ∃ hdr₀, RelTable env m hdr₀ ∧ hdr = σ hdr₀ := by
  refine ⟨σ.symm hdr, (R.slots _).mp ?_, (σ.apply_symm_apply hdr).symm⟩
  rwa [σ.apply_symm_apply]

theorem relTable_iff : RelTable env m₂ hdr ↔ RelTable env m hdr := by
  unfold RelTable
  refine and_congr_right fun hl => ?_
  by_cases ht : HoldsRelocations m hdr
  · obtain ⟨hdr₀, h₀, rfl⟩ := R.exists_slot ⟨hl, ht⟩
    exact iff_of_true ((R.header hdr₀ h₀).holdsRelocations.mpr h₀.2) ht
  · exact (R.kept _ _ (.header hl ht)).holdsRelocations

theorem entryOf_iff (h : RelTable env m hdr) {rel : Addr} :
    EntryOf env m₂ (σ hdr) rel ↔ EntryOf env m hdr rel := by
  unfold EntryOf
  rw [(R.header hdr h).tableAt]

/-- A relocation of the reordered image is one of the image, in its new place. -/
theorem exists_relocation (h : r'.InImage env m₂) :
    ∃ r : Relocation, r.InImage env m ∧ r' = r.reorder σ τ := by
  obtain ⟨hdr', rel'⟩ := r'
  obtain ⟨hdr, h₀, rfl⟩ := R.exists_slot (R.relTable_iff.mp h.relTable)
  have hentry : EntryOf env m hdr rel' := (R.entryOf_iff h₀).mp h.entry
  refine ⟨⟨hdr, (τ hdr).symm rel'⟩, ⟨h₀.1, h₀.2, (R.entrySlots hdr h₀ _).mp ?_⟩, ?_⟩
  · rwa [(τ hdr).apply_symm_apply]
  · unfold Relocation.reorder
    rw [(τ hdr).apply_symm_apply]

theorem inImage (h : r.InImage env m) : (r.reorder σ τ).InImage env m₂ := by
  have hslot := R.relTable_iff.mpr ((R.slots _).mpr h.relTable)
  exact ⟨hslot.1, hslot.2, (R.entryOf_iff h.relTable).mpr ((R.entrySlots _ h.relTable _).mpr h.entry)⟩

theorem record (h : Record env m₂ a n) : Record env m a n := by
  cases h with
  | header hl => exact .header hl
  | symtab hl ht =>
      obtain ⟨hdr, h₀, rfl⟩ := R.exists_slot (R.relTable_iff.mp ⟨hl, ht⟩)
      rw [(R.sameTable h₀).symtabHdr_eq]
      exact .symtab h₀.1 h₀.2
  | relSect hl ht =>
      obtain ⟨hdr, h₀, rfl⟩ := R.exists_slot (R.relTable_iff.mp ⟨hl, ht⟩)
      rw [(R.sameTable h₀).relSectHdr_eq]
      exact .relSect h₀.1 h₀.2
  | entry hr =>
      obtain ⟨r, h₀, rfl⟩ := R.exists_relocation hr
      have hentry := (R.entrySlots _ h₀.relTable _).mpr h₀.entry
      exact .entry (r := ⟨r.relTableHdr, τ r.relTableHdr r.rel⟩) ⟨h₀.listed, h₀.type, hentry⟩
  | symbol hr =>
      obtain ⟨r, h₀, rfl⟩ := R.exists_relocation hr
      rw [(R.sameRelocation h₀).sym_eq]
      exact .symbol h₀

theorem fieldsApart (hapart : FieldsApart env m) : FieldsApart env m₂ := by
  constructor
  · intro i j b hi hj hbi hbj
    obtain ⟨r, hr, rfl⟩ := R.exists_relocation hi
    obtain ⟨r', hr', rfl⟩ := R.exists_relocation hj
    rw [(R.sameRelocation hr).place_eq] at hbi
    rw [(R.sameRelocation hr').place_eq] at hbj
    rw [hapart.fields r r' b hr hr' hbi hbj]
  · intro i hi a n hrec b hb
    obtain ⟨r, hr, rfl⟩ := R.exists_relocation hi
    rw [(R.sameRelocation hr).place_eq] at hb
    exact hapart.tables r hr a n (R.record hrec) b hb

theorem explicitAddends (hrela : ∀ hdr, Listed env hdr → shType m hdr ≠ shtRel) :
    ∀ hdr, Listed env hdr → shType m₂ hdr ≠ shtRel := by
  intro hdr hl hrel
  obtain ⟨hdr, h₀, rfl⟩ := R.exists_slot (R.relTable_iff.mp ⟨hl, .inl hrel⟩)
  rw [(R.header hdr h₀).readsHeader.type] at hrel
  exact hrela hdr h₀.1 hrel

/-- The relocation tables pass their checks in any order. -/
theorem relocatable (h : Relocatable env m) : Relocatable env m₂ := by
  obtain ⟨l, hv, hpass⟩ := h
  refine ⟨l, hv, fun hdr' hmem ht => ?_⟩
  obtain ⟨hdr, h₀, rfl⟩ := R.exists_slot (R.relTable_iff.mp ⟨⟨l, hv, hmem⟩, ht⟩)
  have hmem₀ : hdr ∈ l := by
    obtain ⟨l', hv', hmem'⟩ := h₀.1
    rwa [hv.unique hv']
  obtain ⟨hchecks, l', hv', hall⟩ := hpass hdr hmem₀ h₀.2
  have htable := (R.sameTable h₀).tableChecks_eq
  refine ⟨(congrArg firstFailure htable).trans hchecks, l', ?_, fun rel' hrel' => ?_⟩
  · rw [(R.header hdr h₀).tableAt]
    exact hv'
  · have hin : Relocation.InImage env m₂ ⟨σ hdr, rel'⟩ :=
      ⟨⟨l, hv, hmem⟩, ht, (R.entryOf_iff h₀).mpr ⟨l', hv', hrel'⟩⟩
    have hentry : EntryOf env m hdr ((τ hdr).symm rel') := by
      refine (R.entrySlots hdr h₀ _).mp ?_
      rw [(τ hdr).apply_symm_apply]
      exact ⟨l', hv', hrel'⟩
    obtain ⟨l'', hv'', hrel⟩ := hentry
    rw [← hv'.unique hv''] at hrel
    have hsame := R.sameRelocation (r := ⟨hdr, (τ hdr).symm rel'⟩) ⟨h₀.1, h₀.2, l', hv', hrel⟩
    have hplace : Relocation.reorder σ τ ⟨hdr, (τ hdr).symm rel'⟩ = ⟨σ hdr, rel'⟩ := by
      unfold Relocation.reorder
      rw [(τ hdr).apply_symm_apply]
    rw [hplace] at hsame
    rw [hsame.checks_eq]
    exact hall _ hrel

end Permuted

theorem Agrees.permuted (h : Agrees env m m₂) : Permuted env m (Equiv.refl _) (fun _ => Equiv.refl _) m₂ := by
  refine ⟨fun _ => Iff.rfl, fun _ _ _ => Iff.rfl, fun hdr ht => h.header ht.1,
    fun r hr => h _ _ (.entry hr), fun a n hk => h a n ?_⟩
  cases hk with
  | header hl => exact .header hl
  | symtab ht => exact .symtab ht.1 ht.2
  | relSect ht => exact .relSect ht.1 ht.2
  | symbol hr => exact .symbol hr

/-! ### What is left -/

variable {m' m₂' : Memory}

/-- What moves is in no field. -/
theorem FieldsApart.not_moved (h : FieldsApart env m) (hr : r.InImage env m) {b : Addr}
    (hb : Bytes.InWord 4 (r.place env m) b) : ¬Moved env m b := by
  rintro (⟨hdr, ht, hin⟩ | ⟨r', hr', hin⟩)
  · exact h.tables r hr hdr 64 (.header ht.1) b hb hin
  · exact h.tables r hr r'.rel 24 (.entry hr') b hb hin

/-- **The fields of a reordered image** are those of the image. -/
theorem Reordered.sameButOrder (R : Reordered env m σ τ m₂) (hapart : FieldsApart env m)
    (h : Relocated env m m') (h₂ : Relocated env m₂ m₂') : SameButOrder env m m₂ m' m₂' := by
  have hout : ∀ b, (∀ r : Relocation, r.InImage env m → ¬Bytes.InWord 4 (r.place env m) b) →
      m₂' b = m₂ b := by
    intro b hb
    refine h₂.outside b fun i hi => ?_
    obtain ⟨r, hr, rfl⟩ := R.exists_relocation hi
    rw [(R.sameRelocation hr).place_eq]
    exact hb r hr
  refine ⟨fun b hb => ?_, fun b hb => hout b fun r hr hin => hapart.not_moved hr hin hb⟩
  by_cases hfield : ∃ r : Relocation, r.InImage env m ∧ Bytes.InWord 4 (r.place env m) b
  · obtain ⟨r, hr, hin⟩ := hfield
    obtain ⟨d, hd, rfl⟩ := hin.eq_add
    have hsame := R.sameRelocation hr
    have hload := h₂.inside _ (R.inImage hr)
    rw [hsame.place_eq, hsame.field_eq] at hload
    exact Bytes.byte_of_load (hload.trans (h.inside r hr).symm) hd
  · have hno : ∀ r : Relocation, r.InImage env m → ¬Bytes.InWord 4 (r.place env m) b :=
      fun r hr hin => hfield ⟨r, hr, hin⟩
    rw [hout b hno, R.other b hb, h.outside b hno]

theorem Relocated.again (h : Relocated env m m')
    (P : Permuted env m (Equiv.refl _) (fun _ => Equiv.refl _) m') : Relocated env m' m' := by
  refine ⟨.refl, fun i hi => ?_⟩
  obtain ⟨r, hr, rfl⟩ := P.exists_relocation hi
  have hsame := P.sameRelocation hr
  rw [hsame.place_eq, hsame.field_eq]
  exact h.inside r hr

end reordered

/-- The bytes of an image that are not null, by offset: a section of eight bytes, a symbol table
whose symbol 1 has the value `0x10200`, and a table of two relocations of that symbol. -/
def orderImage : List (ℕ × U8) :=
  [(40, 64), (58, 64), (60, 4),
    (132, 1), (144, 0x40), (145, 0x01), (146, 0x01), (152, 0x40), (153, 0x01), (160, 8),
    (196, 2), (216, 0x48), (217, 0x01), (224, 48), (248, 24),
    (260, 4), (280, 0x78), (281, 0x01), (288, 48), (296, 2), (300, 1), (312, 24),
    (361, 0x02), (362, 0x01),
    (384, 2), (388, 1),
    (400, 4), (408, 4), (412, 1), (416, 0xfc), (417, 0xff), (418, 0xff), (419, 0xff), (420, 0xff),
    (421, 0xff), (422, 0xff), (423, 0xff)]

/-- The image lies at address `0x10000`. -/
def orderMemory : Memory := fun a => (orderImage.lookup (a - 0x10000).toNat).getD 0

def orderEnv : LoadingEnv := loaderInit 0x10000 orderMemory

/-- The two entries in the other order. -/
def swappedMemory : Memory := fun b =>
  if Bytes.InWord 24 0x10178 b then orderMemory (b + 24)
  else if Bytes.InWord 24 0x10190 b then orderMemory (b - 24)
  else orderMemory b

theorem mem_visited_iff {stop stride start a : Addr} {l : List Addr} (hv : Visits stop stride start l) :
    (∃ l', Visits stop stride start l' ∧ a ∈ l') ↔ a ∈ l := by
  constructor
  · rintro ⟨l', hv', hmem⟩
    rwa [hv.unique hv']
  · exact fun hmem => ⟨l, hv, hmem⟩

theorem listed_order {hdr : Addr} :
    Listed orderEnv hdr ↔ hdr ∈ [0x10040, 0x10080, 0x100c0, 0x10100] :=
  mem_visited_iff
    (.next (by decide) (.next (by decide) (.next (by decide) (.next (by decide) (.done (by decide))))))

theorem entryOf_order {rel : Addr} :
    EntryOf orderEnv orderMemory 0x10100 rel ↔ rel ∈ [0x10178, 0x10190] :=
  mem_visited_iff (.next (by decide) (.next (by decide) (.done (by decide))))

theorem relTable_order {hdr : Addr} : RelTable orderEnv orderMemory hdr ↔ hdr = 0x10100 := by
  unfold RelTable HoldsRelocations
  rw [listed_order]
  constructor
  · rintro ⟨hmem, ht⟩
    simp only [List.mem_cons, List.not_mem_nil, or_false] at hmem
    rcases hmem with rfl | rfl | rfl | rfl
    · exact absurd ht (by decide)
    · exact absurd ht (by decide)
    · exact absurd ht (by decide)
    · rfl
  · rintro rfl
    exact ⟨by decide, by decide⟩

theorem inImage_order {r : Relocation} :
    r.InImage orderEnv orderMemory ↔ r = ⟨0x10100, 0x10178⟩ ∨ r = ⟨0x10100, 0x10190⟩ := by
  constructor
  · intro hr
    have hrel := hr.entry
    rw [relTable_order.mp hr.relTable, entryOf_order] at hrel
    obtain ⟨hdr, rel⟩ := r
    obtain rfl : hdr = 0x10100 := relTable_order.mp hr.relTable
    simpa using hrel
  · intro hr
    have htable := relTable_order.mpr (rfl : (0x10100 : Addr) = 0x10100)
    rcases hr with rfl | rfl
    · exact ⟨htable.1, htable.2, entryOf_order.mpr (by decide)⟩
    · exact ⟨htable.1, htable.2, entryOf_order.mpr (by decide)⟩

theorem record_order {a : Addr} {n : ℕ} (h : Record orderEnv orderMemory a n) :
    (a, n) ∈ [((0x10040 : Addr), 64), (0x10080, 64), (0x100c0, 64), (0x10100, 64), (0x10178, 24),
      (0x10190, 24), (0x10160, 24)] := by
  cases h with
  | header hl =>
      have hmem := listed_order.mp hl
      simp only [List.mem_cons, List.not_mem_nil, or_false] at hmem
      rcases hmem with rfl | rfl | rfl | rfl <;> decide
  | symtab hl ht =>
      obtain rfl := relTable_order.mp ⟨hl, ht⟩
      decide
  | relSect hl ht =>
      obtain rfl := relTable_order.mp ⟨hl, ht⟩
      decide
  | entry hr => rcases inImage_order.mp hr with rfl | rfl <;> decide
  | symbol hr => rcases inImage_order.mp hr with rfl | rfl <;> decide

theorem place_order : Relocation.place orderEnv orderMemory ⟨0x10100, 0x10178⟩ = 0x10140 ∧
    Relocation.place orderEnv orderMemory ⟨0x10100, 0x10190⟩ = 0x10144 := by decide

theorem field_order : Relocation.field orderEnv orderMemory ⟨0x10100, 0x10178⟩ = 0xc0 ∧
    Relocation.field orderEnv orderMemory ⟨0x10100, 0x10190⟩ = 0xb8 := by decide +kernel

theorem table_order {a : Addr} {n : ℕ} :
    Table orderEnv orderMemory a n ↔ (a, n) ∈ [((0x10040 : Addr), 256), (0x10148, 48), (0x10178, 48)] := by
  constructor
  · intro h
    cases h with
    | headers => decide
    | symbols hl ht =>
        have hmem := listed_order.mp hl
        simp only [List.mem_cons, List.not_mem_nil, or_false] at hmem
        rcases hmem with rfl | rfl | rfl | rfl
        · exact absurd ht (by decide)
        · exact absurd ht (by decide)
        · decide
        · exact absurd ht (by decide)
    | relocations hl ht =>
        obtain rfl := relTable_order.mp ⟨hl, ht⟩
        decide
  · intro h
    simp only [List.mem_cons, List.not_mem_nil, or_false, Prod.mk.injEq] at h
    have hsymbols : Table orderEnv orderMemory _ _ :=
      .symbols (listed_order.mpr (by decide : (0x100c0 : Addr) ∈ _)) (by decide)
    obtain ⟨hl, ht⟩ := relTable_order.mpr (rfl : (0x10100 : Addr) = 0x10100)
    have hrelocations : Table orderEnv orderMemory _ _ := .relocations hl ht
    rcases h with ⟨rfl, rfl⟩ | ⟨rfl, rfl⟩ | ⟨rfl, rfl⟩
    · exact .headers
    · exact hsymbols
    · exact hrelocations

theorem fieldsOutside_order : FieldsOutside orderEnv orderMemory := by
  obtain ⟨hplace, hplace'⟩ := place_order
  constructor
  · intro r r' b hr hr' hb hb'
    unfold Bytes.InWord at hb hb'
    rcases inImage_order.mp hr with rfl | rfl <;> rcases inImage_order.mp hr' with rfl | rfl
    · rfl
    · rw [hplace] at hb
      rw [hplace'] at hb'
      bv_omega
    · rw [hplace'] at hb
      rw [hplace] at hb'
      bv_omega
    · rfl
  · intro r hr a n htable b hb hin
    have hmem := table_order.mp htable
    simp only [List.mem_cons, List.not_mem_nil, or_false, Prod.mk.injEq] at hmem
    have hfield : (b - 0x10140).toNat < 8 := by
      unfold Bytes.InWord at hb
      rcases inImage_order.mp hr with rfl | rfl
      · rw [hplace] at hb
        omega
      · rw [hplace'] at hb
        bv_omega
    unfold Bytes.InWord at hin
    rcases hmem with ⟨rfl, rfl⟩ | ⟨rfl, rfl⟩ | ⟨rfl, rfl⟩ <;> bv_omega

theorem recordsWhole_order : RecordsWhole orderEnv orderMemory := by
  intro a n hrec
  have hmem := record_order hrec
  simp only [List.mem_cons, List.not_mem_nil, or_false, Prod.mk.injEq] at hmem
  left
  rcases hmem with ⟨rfl, rfl⟩ | ⟨rfl, rfl⟩ | ⟨rfl, rfl⟩ | ⟨rfl, rfl⟩ | ⟨rfl, rfl⟩ | ⟨rfl, rfl⟩ |
    ⟨rfl, rfl⟩
  · exact ⟨0x10040, 256, table_order.mpr (by decide), by decide⟩
  · exact ⟨0x10040, 256, table_order.mpr (by decide), by decide⟩
  · exact ⟨0x10040, 256, table_order.mpr (by decide), by decide⟩
  · exact ⟨0x10040, 256, table_order.mpr (by decide), by decide⟩
  · exact ⟨0x10178, 48, table_order.mpr (by decide), by decide⟩
  · exact ⟨0x10178, 48, table_order.mpr (by decide), by decide⟩
  · exact ⟨0x10148, 48, table_order.mpr (by decide), by decide⟩

theorem explicitAddends_order : ∀ hdr, Listed orderEnv hdr → shType orderMemory hdr ≠ shtRel := by
  intro hdr hl
  have hmem := listed_order.mp hl
  simp only [List.mem_cons, List.not_mem_nil, or_false] at hmem
  rcases hmem with rfl | rfl | rfl | rfl <;> decide

theorem checks_order : firstFailure (tableChecks orderEnv orderMemory 0x10100) = none ∧
    firstFailure (Relocation.checks orderEnv orderMemory ⟨0x10100, 0x10178⟩) = none ∧
    firstFailure (Relocation.checks orderEnv orderMemory ⟨0x10100, 0x10190⟩) = none := by
  decide +kernel

theorem relocatable_order : Relocatable orderEnv orderMemory := by
  obtain ⟨htable, hfirst, hsecond⟩ := checks_order
  obtain ⟨l, hv, -⟩ := listed_order.mpr (by decide : (0x10100 : Addr) ∈ _)
  refine ⟨l, hv, fun hdr hmem ht => ?_⟩
  obtain rfl := relTable_order.mp ⟨⟨l, hv, hmem⟩, ht⟩
  obtain ⟨l', hv', -⟩ := entryOf_order.mpr (by decide : (0x10178 : Addr) ∈ _)
  refine ⟨htable, l', hv', fun rel hrel => ?_⟩
  have hmem := entryOf_order.mp ⟨l', hv', hrel⟩
  simp only [List.mem_cons, List.not_mem_nil, or_false] at hmem
  rcases hmem with rfl | rfl
  · exact hfirst
  · exact hsecond

theorem allApplied_order : AllApplied orderEnv orderMemory := by
  have hapart := fieldsOutside_order.apart recordsWhole_order
  obtain ⟨m', hpatch⟩ := Bytes.exists_patched orderMemory
    (Relocation.field orderEnv orderMemory) (by decide) hapart.fields
  exact ⟨m', (relocates_iff hapart explicitAddends_order).mpr ⟨relocatable_order, hpatch⟩⟩

theorem reordered_order : Reordered orderEnv orderMemory (Equiv.refl _)
    (fun _ => Equiv.swap 0x10178 0x10190) swappedMemory := by
  constructor
  · constructor
    · exact fun hdr => Iff.rfl
    · intro hdr ht rel
      obtain rfl := relTable_order.mp ht
      rw [entryOf_order, entryOf_order]
      by_cases h1 : rel = 0x10178
      · simp [h1]
      · by_cases h2 : rel = 0x10190
        · simp [h2]
        · rw [Equiv.swap_apply_of_ne_of_ne h1 h2]
    · intro hdr ht
      obtain rfl := relTable_order.mp ht
      unfold SameRecord
      decide +kernel
    · intro r hr
      unfold SameRecord
      rcases inImage_order.mp hr with rfl | rfl <;> decide +kernel
    · intro a n hk
      cases hk with
      | header hl ht =>
          have hmem := listed_order.mp hl
          simp only [List.mem_cons, List.not_mem_nil, or_false] at hmem
          unfold SameRecord
          rcases hmem with rfl | rfl | rfl | rfl <;> decide +kernel
      | symtab ht =>
          obtain rfl := relTable_order.mp ht
          unfold SameRecord
          decide +kernel
      | relSect ht =>
          obtain rfl := relTable_order.mp ht
          unfold SameRecord
          decide +kernel
      | symbol hr =>
          unfold SameRecord
          rcases inImage_order.mp hr with rfl | rfl <;> decide +kernel
  · intro b hb
    have hentry : ∀ rel ∈ [(0x10178 : Addr), 0x10190], ¬Bytes.InWord 24 rel b := by
      intro rel hrel hin
      have htable := relTable_order.mpr (rfl : (0x10100 : Addr) = 0x10100)
      exact hb (.inr ⟨⟨0x10100, rel⟩, ⟨htable.1, htable.2, entryOf_order.mpr hrel⟩, hin⟩)
    unfold swappedMemory
    rw [if_neg (hentry _ (by decide)), if_neg (hentry _ (by decide))]

/-- The bytes of an image that are not null, by offset: a section of eight bytes, a symbol table of 30
bytes, whose symbol 1 lies 18 bytes beyond its end and has its value in this section, a string table,
and a table of one relocation of the section by that symbol. -/
def overhangImage : List (ℕ × U8) :=
  [(40, 64), (58, 64), (60, 5),
    (132, 1), (152, 0xc0), (153, 0x01), (160, 8),
    (196, 2), (216, 0xa0), (217, 0x01), (224, 30), (232, 3), (248, 24),
    (260, 3), (280, 0x80), (281, 0x01), (288, 1), (312, 1),
    (324, 4), (344, 0x88), (345, 0x01), (352, 24), (360, 2), (364, 1), (376, 24),
    (400, 2), (404, 1), (408, 8),
    (446, 1)]

/-- The file at address `0x10000`. -/
def overhangFile : Memory := fun a => (overhangImage.lookup (a - 0x10000).toNat).getD 0

def overhangEnv : LoadingEnv := loaderInit 0x10000 overhangFile

theorem visits_overhang : Visits overhangEnv.rShtable.tEnd overhangEnv.rShtable.tBsize
    overhangEnv.rShtable.tStart [0x10040, 0x10080, 0x100c0, 0x10100, 0x10140] :=
  .next (by decide) (.next (by decide) (.next (by decide) (.next (by decide) (.next (by decide)
    (.done (by decide))))))

/-- The memory has the tables of the file. -/
structure TablesOverhang (m : Memory) : Prop where
  types : shType m 0x10040 = 0 ∧ shType m 0x10080 = shtProgbits ∧ shType m 0x100c0 = shtSymtab ∧
    shType m 0x10100 = 3 ∧ shType m 0x10140 = shtRela
  symtab : shOffset m 0x100c0 = 0x1a0 ∧ shSize m 0x100c0 = 30
  table : shOffset m 0x10140 = 0x188 ∧ shSize m 0x10140 = 24 ∧ shEntsize m 0x10140 = 24
  checks : firstFailure (tableChecks overhangEnv m 0x10140) = none
  entry : firstFailure (Relocation.checks overhangEnv m ⟨0x10140, 0x10188⟩) = none
  place : Relocation.place overhangEnv m ⟨0x10140, 0x10188⟩ = 0x101c0

/-- What the relocation of the file makes of a memory. -/
def overhangApplied (m : Memory) : Memory :=
  (applied true (tableAt overhangEnv m (symtabHdr overhangEnv m 0x10140))
    (shAddr m (relSectHdr overhangEnv m 0x10140)) 0x10188 m).2

namespace TablesOverhang

variable {m : Memory} {hdr : Addr} {r : Relocation} (h : TablesOverhang m)
include h

theorem type_eq (hl : Listed overhangEnv hdr) :
    (hdr = 0x10140 ∧ shType m hdr = shtRela) ∨ (hdr = 0x100c0 ∧ shType m hdr = shtSymtab) ∨
      ¬(HoldsRelocations m hdr ∨ shType m hdr = shtSymtab) := by
  obtain ⟨hnull, hprogbits, hsymtab, hstrtab, hrela⟩ := h.types
  have hmem := (mem_visited_iff visits_overhang).mp hl
  unfold HoldsRelocations
  simp only [List.mem_cons, List.not_mem_nil, or_false] at hmem
  rcases hmem with rfl | rfl | rfl | rfl | rfl
  · rw [hnull]
    decide
  · rw [hprogbits]
    decide
  · exact .inr (.inl ⟨rfl, hsymtab⟩)
  · rw [hstrtab]
    decide
  · exact .inl ⟨rfl, hrela⟩

theorem relTable (ht : RelTable overhangEnv m hdr) : hdr = 0x10140 := by
  rcases h.type_eq ht.1 with ⟨hdr_eq, -⟩ | ⟨-, htype⟩ | hno
  · exact hdr_eq
  · refine absurd ht.2 ?_
    unfold HoldsRelocations
    rw [htype]
    decide
  · exact absurd (.inl ht.2) hno

theorem symbolTable (hl : Listed overhangEnv hdr) (ht : shType m hdr = shtSymtab) :
    hdr = 0x100c0 := by
  rcases h.type_eq hl with ⟨-, htype⟩ | ⟨hdr_eq, -⟩ | hno
  · exact absurd (ht.symm.trans htype) (by decide)
  · exact hdr_eq
  · exact absurd (.inr ht) hno

theorem visits : Visits (tableAt overhangEnv m 0x10140).tEnd (tableAt overhangEnv m 0x10140).tBsize
    (tableAt overhangEnv m 0x10140).tStart [0x10188] := by
  obtain ⟨hoffset, hsize, hentsize⟩ := h.table
  unfold tableAt
  rw [hoffset, hsize, hentsize]
  exact .next (by decide) (.done (by decide))

theorem inImage (hr : r.InImage overhangEnv m) : r = ⟨0x10140, 0x10188⟩ := by
  obtain ⟨hdr, rel⟩ := r
  obtain rfl : hdr = 0x10140 := h.relTable hr.relTable
  obtain rfl : rel = 0x10188 := List.mem_singleton.mp ((mem_visited_iff h.visits).mp hr.entry)
  rfl

theorem explicitAddends (hl : Listed overhangEnv hdr) : shType m hdr ≠ shtRel := by
  intro ht
  obtain rfl := h.relTable ⟨hl, .inl ht⟩
  exact absurd (ht.symm.trans h.types.2.2.2.2) (by decide)

theorem fieldsOutside : FieldsOutside overhangEnv m := by
  refine ⟨fun r r' b hr hr' _ _ => by rw [h.inImage hr, h.inImage hr'],
    fun r hr a n htable b hb hheld => ?_⟩
  rw [h.inImage hr, h.place] at hb
  have hmem : (a, n) ∈ [((0x10040 : Addr), 320), (0x101a0, 30), (0x10188, 24)] := by
    cases htable with
    | headers => decide
    | symbols hl ht =>
        rw [h.symbolTable hl ht, h.symtab.1, h.symtab.2]
        decide
    | relocations hl ht =>
        rw [h.relTable ⟨hl, ht⟩, h.table.1, h.table.2.1]
        decide
  simp only [List.mem_cons, List.not_mem_nil, or_false, Prod.mk.injEq] at hmem
  unfold Bytes.InWord at hb hheld
  rcases hmem with ⟨rfl, rfl⟩ | ⟨rfl, rfl⟩ | ⟨rfl, rfl⟩ <;> bv_omega

theorem relocates : Relocates overhangEnv m none (overhangApplied m) := by
  have hskip : ∀ hdr ∈ [(0x10040 : Addr), 0x10080, 0x100c0, 0x10100],
      SectionStep overhangEnv hdr m none m := by
    intro hdr hmem
    have hl : Listed overhangEnv hdr :=
      (mem_visited_iff visits_overhang).mpr (List.mem_append_left [0x10140] hmem)
    refine .skipped fun ht => ?_
    rw [h.relTable ⟨hl, ht⟩] at hmem
    exact absurd hmem (by decide)
  have hentry : AppliesEntries overhangEnv 0x10140 m none (overhangApplied m) := by
    refine ⟨_, h.visits, ?_⟩
    rw [decide_eq_true h.types.2.2.2.2]
    exact .cons (.applied h.entry) .nil
  exact ⟨_, visits_overhang, .cons (hskip _ (by decide)) (.cons (hskip _ (by decide))
    (.cons (hskip _ (by decide)) (.cons (hskip _ (by decide))
      (.cons (.entries (.inr h.types.2.2.2.2) h.checks hentry) .nil))))⟩

/-- The relocation is worth something else the second time. -/
theorem not_orderFree (h' : TablesOverhang (overhangApplied m))
    (hne : Bytes.load (overhangApplied m) 0x101c0 4 ≠
      Bytes.load (overhangApplied (overhangApplied m)) 0x101c0 4) :
    ¬∃ m', OrderFree overhangEnv m m' := by
  rintro ⟨m', hfree⟩
  obtain rfl := hfree.returns.unique (returns_of_relocates h.relocates)
  have hsame := hfree.again.unique (returns_of_relocates h'.relocates)
  exact hne (congrArg (fun m => Bytes.load m 0x101c0 4) hsame)

end TablesOverhang

end KernelTk.Loader
