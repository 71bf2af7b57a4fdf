import KernelTk.Loader.Machine

/-! # What the relocations write

The fields that the relocations of an image write, and the sections they should lie in.  The
documentation of the source speaks of the section whose content is changed; the code fetches its address.

* **Writes.** `Config.write c` : the field that the next iteration writes, if it applies an entry,
  and the section that is relocated.  `relocating` are the iterations of `rmld_apply_relocations`.
* **Containment.** `WritesInside env m` : every byte that is changed is a byte of a field, and every
  field lies in the section that `sh_info` designates, which an earlier iteration has found
  (`Designates`).  However the pass ends, and in whatever image.
* **One iteration.** `Config.Relocating.step` : an iteration of the last pass remains in it, and
  changes only bytes of the field that it writes.  The run follows by induction
  (`written_of_changed`, `designated_of_point`).
* **Theorem.** The offset of an entry is not compared with the size of the section, which is not fetched:
  `relocations_inside_iff` says that the writes are contained iff the offset of every entry that is
  applied leaves room for its field (`FieldWrite.Fits`).
* **Defects.** `relocation_strays` : a relocation at the offset 16 of a section of 4 bytes is applied. -/

namespace KernelTk.Loader

open Sweep (check firstFailure)

/-- A field of four bytes that is written: the header of the relocation table, the section that is
relocated, and the offset of the entry. -/
structure FieldWrite where
  relTableHdr : Addr
  relSectStart : U64
  relSectSize : U64
  offset : U64
deriving DecidableEq

section writes
variable (w : FieldWrite) (b : Addr)

/-- The byte lies in the field. -/
def FieldWrite.InField : Prop := (b - (w.relSectStart + w.offset)).toNat < 4

/-- The byte lies in the section. -/
def FieldWrite.InSection : Prop := (b - w.relSectStart).toNat < w.relSectSize.toNat

/-- The offset leaves room for the field in the section. -/
def FieldWrite.Fits : Prop := w.offset.toNat + 4 ≤ w.relSectSize.toNat

instance : Decidable w.Fits := inferInstanceAs (Decidable (_ ≤ _))

/-- The iteration at which `apply_reloaction_table` has found the section of the write. -/
structure Designates (env : LoadingEnv) (c : Config) : Prop where
  point : c.point = .applyRelocations w.relTableHdr
  type : shType c.memory (headerAt env (targetId c.memory w.relTableHdr)) = shtProgbits
  start : w.relSectStart = shAddr c.memory (headerAt env (targetId c.memory w.relTableHdr))
  size : w.relSectSize = shSize c.memory (headerAt env (targetId c.memory w.relTableHdr))

end writes

/-- The field that the next iteration writes. -/
def Config.write (c : Config) : Option FieldWrite :=
  match c.point with
  | .applyTable shdr explicitAddend reltable symtbl relSectStart relSectSize rel =>
      if rel < reltable.tEnd ∧
          firstFailure (entryChecks explicitAddend symtbl relSectStart rel c.memory) = none then
        some ⟨shdr, relSectStart, relSectSize, rOffset c.memory rel⟩
      else none
  | _ => none

section relocating
variable (strCmp : Memory → Addr → List U8 → ℤ) (env : LoadingEnv) (defs : List LoaderSymbol)
  (m : Memory) (queries : List LoaderSymbol)

/-- The iterations of `rmld_apply_relocations`. -/
def relocating (n : ℕ) : Config :=
  Config.run strCmp env defs n ⟨.applyRelocations env.rShtable.tStart, m, queries⟩

/-- What is expected of the relocations, however they end: they write only into the sections they
relocate. -/
structure WritesInside : Prop where
  changed : ∀ n b, (relocating strCmp env defs m queries n).memory b ≠ m b →
    ∃ i < n, ∃ w, (relocating strCmp env defs m queries i).write = some w ∧ w.InField b ∧
      w.InSection b
  field : ∀ n w, (relocating strCmp env defs m queries n).write = some w →
    ∀ b, w.InField b → w.InSection b
  designated : ∀ n w, (relocating strCmp env defs m queries n).write = some w →
    ∃ i < n, Designates w env (relocating strCmp env defs m queries i)
  left : ∀ fuel code m', rmldApplyRelocations fuel env m = .ret code m' →
    ∃ n, (relocating strCmp env defs m queries n).memory = m'

end relocating

/-! ### One iteration -/

section step
variable {strCmp : Memory → Addr → List U8 → ℤ} {env : LoadingEnv} {defs : List LoaderSymbol}
  {c : Config} {m : Memory} {queries : List LoaderSymbol} {w : FieldWrite} {n : ℕ} {b : Addr}

theorem Config.write_eq_some (h : c.write = some w) :
    ∃ explicitAddend reltable symtbl rel,
      c.point = .applyTable w.relTableHdr explicitAddend reltable symtbl w.relSectStart
        w.relSectSize rel ∧ rel < reltable.tEnd ∧
      firstFailure (entryChecks explicitAddend symtbl w.relSectStart rel c.memory) = none ∧
      w.offset = rOffset c.memory rel := by
  obtain ⟨point, m, queries⟩ := c
  unfold Config.write at h
  cases point with
  | applyTable shdr explicitAddend reltable symtbl relSectStart relSectSize rel =>
      simp only at h
      split at h
      · rename_i hc
        obtain rfl := Option.some.inj h
        exact ⟨explicitAddend, reltable, symtbl, rel, rfl, hc.1, hc.2, rfl⟩
      · cases h
  | _ => cases h

/-- The load is in its last pass. -/
def Config.Relocating (c : Config) : Prop :=
  match c.point with
  | .applyRelocations _ => True
  | .applyTable _ _ _ _ _ _ _ => True
  | .halted _ _ => True
  | _ => False

/-- **One iteration of the last pass** : it remains in the last pass, and changes only bytes of the
field that it writes. -/
theorem Config.Relocating.step (h : c.Relocating) :
    (c.step strCmp env defs).Relocating ∧
      ∀ b, (c.step strCmp env defs).memory b ≠ c.memory b → ∃ w, c.write = some w ∧ w.InField b := by
  obtain ⟨point, m, queries⟩ := c
  cases point with
  | assignSections shdr => cases h
  | assignSymbols shdr => cases h
  | assignTable shdr symtable strTable sym => cases h
  | applyRelocations shdr =>
      simp only [Config.step]
      split
      · split
        · split <;> exact ⟨trivial, fun b hb => absurd rfl hb⟩
        · exact ⟨trivial, fun b hb => absurd rfl hb⟩
      · exact ⟨trivial, fun b hb => absurd rfl hb⟩
  | applyTable shdr explicitAddend reltable symtbl relSectStart relSectSize rel =>
      simp only [Config.step]
      split
      · rename_i hlt
        split
        · exact ⟨trivial, fun b hb => absurd rfl hb⟩
        · rename_i hpass
          refine ⟨trivial, fun b hb => ⟨⟨shdr, relSectStart, relSectSize, rOffset m rel⟩,
            if_pos ⟨hlt, hpass⟩, ?_⟩⟩
          unfold FieldWrite.InField
          by_contra hout
          exact hb (loaderApplyRelocation_other (Nat.le_of_not_lt hout))
      · exact ⟨trivial, fun b hb => absurd rfl hb⟩
  | halted pass error => exact ⟨trivial, fun b hb => absurd rfl hb⟩

theorem shType_target_of_pass {hdr : Addr} (h : firstFailure (tableChecks env m hdr) = none) :
    shType m (headerAt env (targetId m hdr)) = shtProgbits := by
  unfold tableChecks headerChecks at h
  rw [Sweep.firstFailure_append, Sweep.firstFailure_append (indexChecks _ _),
    Sweep.firstFailure_check] at h
  have htarget := (Option.or_eq_none_iff.mp (Option.or_eq_none_iff.mp h).2).2
  by_contra hne
  rw [if_neg hne] at htarget
  cases htarget

/-- **The entries of a table are reached** from the header of the table, once it has passed its
checks, or from the previous entry. -/
theorem Config.step_applyTable {shdr rel : Addr} {explicitAddend : Bool} {reltable symtbl : ElfTable}
    {relSectStart relSectSize offset : U64}
    (h : (c.step strCmp env defs).point =
      .applyTable shdr explicitAddend reltable symtbl relSectStart relSectSize rel) :
    Designates ⟨shdr, relSectStart, relSectSize, offset⟩ env c ∨ ∃ rel',
      c.point = .applyTable shdr explicitAddend reltable symtbl relSectStart relSectSize rel' := by
  obtain ⟨point, m, queries⟩ := c
  cases point with
  | assignSections shdr' =>
      simp only [Config.step] at h
      split at h
      · split at h <;> cases h
      · cases h
  | assignSymbols shdr' =>
      simp only [Config.step] at h
      split at h
      · split at h
        · split at h <;> cases h
        · cases h
      · cases h
  | assignTable shdr' symtable strTable sym =>
      simp only [Config.step] at h
      split at h
      · split at h <;> cases h
      · cases h
  | applyRelocations shdr' =>
      simp only [Config.step] at h
      split at h
      · split at h
        · split at h
          · cases h
          · rename_i hpass
            cases h
            exact .inl ⟨rfl, shType_target_of_pass hpass, rfl, rfl⟩
        · cases h
      · cases h
  | applyTable shdr' explicitAddend' reltable' symtbl' relSectStart' relSectSize' rel' =>
      simp only [Config.step] at h
      split at h
      · split at h
        · cases h
        · cases h
          exact .inr ⟨rel', rfl⟩
      · cases h
  | halted pass error => cases h

end step

/-! ### Runs -/

section runs
variable {strCmp : Memory → Addr → List U8 → ℤ} {env : LoadingEnv} {defs : List LoaderSymbol}
  {m : Memory} {queries : List LoaderSymbol} {w : FieldWrite} {n : ℕ} {b : Addr}

theorem relocating_succ (n : ℕ) : relocating strCmp env defs m queries (n + 1) =
    (relocating strCmp env defs m queries n).step strCmp env defs :=
  Config.run_succ' n _

theorem relocating_relocating (n : ℕ) : (relocating strCmp env defs m queries n).Relocating := by
  induction n with
  | zero => exact trivial
  | succ n ih =>
      rw [relocating_succ]
      exact ih.step.1

/-- A byte that has been changed has been changed by a write. -/
theorem written_of_changed (h : (relocating strCmp env defs m queries n).memory b ≠ m b) :
    ∃ i < n, ∃ w, (relocating strCmp env defs m queries i).write = some w ∧ w.InField b := by
  induction n with
  | zero => exact absurd rfl h
  | succ n ih =>
      by_cases hn : (relocating strCmp env defs m queries n).memory b = m b
      · rw [relocating_succ, ← hn] at h
        obtain ⟨w, hw, hb⟩ := (relocating_relocating n).step.2 b h
        exact ⟨n, Nat.lt_succ_self n, w, hw, hb⟩
      · obtain ⟨i, hi, hw⟩ := ih hn
        exact ⟨i, Nat.lt_succ_of_lt hi, hw⟩

/-- The section of an entry has been found at an earlier iteration. -/
theorem designated_of_point {shdr rel : Addr} {explicitAddend : Bool} {reltable symtbl : ElfTable}
    {relSectStart relSectSize : U64} (offset : U64)
    (h : (relocating strCmp env defs m queries n).point =
      .applyTable shdr explicitAddend reltable symtbl relSectStart relSectSize rel) :
    ∃ i < n, Designates ⟨shdr, relSectStart, relSectSize, offset⟩ env
      (relocating strCmp env defs m queries i) := by
  induction n generalizing rel with
  | zero => cases h
  | succ n ih =>
      rw [relocating_succ] at h
      rcases Config.step_applyTable h with hfound | ⟨rel', hprev⟩
      · exact ⟨n, Nat.lt_succ_self n, hfound⟩
      · obtain ⟨i, hi, hfound⟩ := ih hprev
        exact ⟨i, Nat.lt_succ_of_lt hi, hfound⟩

theorem designated_of_write (h : (relocating strCmp env defs m queries n).write = some w) :
    ∃ i < n, Designates w env (relocating strCmp env defs m queries i) := by
  obtain ⟨explicitAddend, reltable, symtbl, rel, hpoint, -⟩ := Config.write_eq_some h
  exact designated_of_point w.offset hpoint

/-- What `rmld_apply_relocations` leaves is what the iterations have left. -/
theorem rmldApplyRelocations_run {fuel : ℕ} {code : U8} {m' : Memory}
    (h : rmldApplyRelocations fuel env m = .ret code m') :
    ∃ n, (relocating strCmp env defs m queries n).memory = m' := by
  have hblock := applySections_follows strCmp env defs fuel m queries
  cases happly : applySections fuel env m with
  | ret a m₁ =>
      rw [happly] at hblock
      obtain ⟨n, hn⟩ := hblock
      rw [rmldApplyRelocations, LoaderM.bind_apply, LoaderM.bind, LoaderM.attempt, happly] at h
      cases h
      exact ⟨n + 1, congrArg Config.memory hn⟩
  | thrown e m₁ =>
      rw [happly] at hblock
      obtain ⟨n, hn⟩ := hblock
      rw [rmldApplyRelocations, LoaderM.bind_apply, LoaderM.bind, LoaderM.attempt, happly] at h
      cases h
      exact ⟨n, congrArg Config.memory hn⟩
  | running =>
      rw [rmldApplyRelocations, LoaderM.bind_apply, LoaderM.bind, LoaderM.attempt, happly] at h
      cases h

theorem FieldWrite.fits_iff (w : FieldWrite) : w.Fits ↔ ∀ b, w.InField b → w.InSection b := by
  unfold FieldWrite.Fits FieldWrite.InField FieldWrite.InSection
  constructor
  · intro hfits b hb
    bv_omega
  · intro hall
    -- no section ends at the last address, so that the four bytes do not wrap
    have hbyte : ∀ k : U64, k.toNat < 4 → (w.offset + k).toNat < w.relSectSize.toNat := by
      intro k hk
      have hsect : w.relSectStart + (w.offset + k) - w.relSectStart = w.offset + k := by
        rw [BitVec.add_comm, BitVec.add_sub_cancel]
      have hfield : w.relSectStart + (w.offset + k) - (w.relSectStart + w.offset) = k := by
        rw [← BitVec.add_assoc, BitVec.add_comm _ k, BitVec.add_sub_cancel]
      have := hall (w.relSectStart + (w.offset + k))
      rw [hsect, hfield] at this
      exact this hk
    have h0 := hbyte 0 (by decide)
    have h1 := hbyte 1 (by decide)
    have h2 := hbyte 2 (by decide)
    have h3 := hbyte 3 (by decide)
    bv_omega

/-- **The relocations write only into the sections they relocate** if and only if the offset of every
entry that is applied leaves room for its field in the section. -/
theorem relocations_inside_iff (strCmp : Memory → Addr → List U8 → ℤ) (env : LoadingEnv)
    (defs : List LoaderSymbol) (m : Memory) (queries : List LoaderSymbol) :
    WritesInside strCmp env defs m queries ↔
      ∀ n w, (relocating strCmp env defs m queries n).write = some w → w.Fits := by
  constructor
  · intro h n w hw
    exact w.fits_iff.mpr (h.field n w hw)
  · intro h
    refine ⟨fun n b hb => ?_, fun n w hw => w.fits_iff.mp (h n w hw), fun n w hw =>
      designated_of_write hw, fun fuel code m' hret => rmldApplyRelocations_run hret⟩
    obtain ⟨i, hi, w, hw, hfield⟩ := written_of_changed hb
    exact ⟨i, hi, w, hw, hfield, w.fits_iff.mp (h i w hw) b hfield⟩

end runs

/-! ### A field beyond its section -/

/-- The bytes of an image that are not null, by offset: a section of four bytes, a symbol table, and
a table of one relocation at the offset 16 of the section, which is in the symbol table. -/
def strayImage : List (ℕ × U8) :=
  [(40, 64), (58, 64), (60, 4),
    (132, 1), (152, 0x40), (153, 0x01), (160, 4),
    (196, 2), (216, 0x48), (217, 0x01), (224, 48), (248, 24),
    (260, 4), (280, 0x78), (281, 0x01), (288, 24), (296, 2), (300, 1), (312, 24),
    (360, 4),
    (376, 16), (384, 2), (388, 1)]

/-- The image lies at address `0x10000`. -/
def strayMemory : Memory := fun a => (strayImage.lookup (a - 0x10000).toNat).getD 0

/-- Its sections assigned, the symbol table is written. -/
theorem relocation_strays : ∃ m,
    loaderAssignSections 4 (loaderInit 0x10000 strayMemory) strayMemory = .ret 0 m ∧
      ¬WritesInside (fun _ _ _ => 0) (loaderInit 0x10000 strayMemory) [] m [] := by
  refine ⟨_, rfl, fun h => ?_⟩
  have hwrite := h.field 4 ⟨0x10100, 0x10140, 4, 16⟩ (by decide +kernel) 0x10150
  unfold FieldWrite.InField FieldWrite.InSection at hwrite
  exact absurd (hwrite (by decide)) (by decide)

end KernelTk.Loader
