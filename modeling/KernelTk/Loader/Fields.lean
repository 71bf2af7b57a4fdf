import KernelTk.Lib.Patch
import KernelTk.Loader.Layout

/-! # The fields of an image

The relocations of an image as a set: what `rmld_apply_relocations` leaves does not depend on the
order in which it goes through them.

* **Relocations.** A `Relocation` is an entry of a relocation table; `Relocation.place` is the
  address P of its field, and `Relocation.field` the low 32 bits of S + A - P.
* **Structures.** `Record env m a n` : the loader reads a structure of `n` bytes at `a`. In an image
  whose fields are apart from these and from one another (`FieldsApart`), what is written is not
  read.
* **Tables.** A structure that is read need not lie in its table, as the look-ups test its first byte only.
  `FieldsOutside` : the fields are apart from one another and from the bytes of the tables;
  `RecordsWhole` : a structure that is read lies whole in a table, or in no field.  Together they give
  `FieldsApart` (`FieldsOutside.apart`).
* **Agreement.** `Agrees` : the structures of a memory are those of the image.  Patching fields keeps it
  (`Agrees.patched`), and under it a relocation has the same checks, place and field
  (`SameRelocation`), so that a step may be read in the image instead of in the memory that it changes.
* **Patches.** Such an image is relocated without failure iff it is `Relocatable`, and what is left
  is the image patched with its fields (`relocates_iff`), from one entry to a table and to the image. -/

namespace KernelTk.Loader

open Sweep (Visits Runs check firstFailure)

/-! ### Records -/

/-- The structures of `n` bytes at the two addresses are the same. -/
def SameRecord (n : ℕ) (x : Memory) (a' : Addr) (m : Memory) (a : Addr) : Prop :=
  ∀ d < n, x (a' + off d) = m (a + off d)

section records
variable {x m : Memory} {a a' : Addr} {n : ℕ}

theorem SameRecord.load (h : SameRecord n x a' m a) (d l : ℕ) (hd : d + l ≤ n) :
    Bytes.load x (a' + off d) l = Bytes.load m (a + off d) l := by
  apply Bytes.load_congr
  intro i hi
  have hbyte : ∀ b : Addr, b + off d + BitVec.ofNat 64 i = b + off (d + i) := by
    intro b
    rw [off_add, ← BitVec.add_assoc]
    rfl
  rw [hbyte, hbyte]
  exact h (d + i) (by omega)

theorem SameRecord.readsHeader (h : SameRecord 64 x a' m a) : ReadsHeader x a' m a :=
  readsHeader_of_load fun d n hd _ => h.load d n hd

theorem SameRecord.shAddr (h : SameRecord 64 x a' m a) : shAddr x a' = shAddr m a :=
  h.load 16 8 (by omega)

theorem SameRecord.syValue (h : SameRecord 24 x a' m a) : syValue x a' = syValue m a :=
  h.load 8 8 (by omega)

theorem SameRecord.rOffset (h : SameRecord 24 x a' m a) : rOffset x a' = rOffset m a := by
  have h0 := h.load 0 8 (by omega)
  rwa [add_off_zero, add_off_zero] at h0

theorem SameRecord.rInfo (h : SameRecord 24 x a' m a) : rInfo x a' = rInfo m a :=
  h.load 8 8 (by omega)

theorem SameRecord.rAddend (h : SameRecord 24 x a' m a) : rAddend x a' = rAddend m a :=
  h.load 16 8 (by omega)

end records

/-! ### Relocations -/

/-- An entry of a relocation table, and the header of the table. -/
structure Relocation where
  relTableHdr : Addr
  rel : Addr
deriving DecidableEq

section image
variable (env : LoadingEnv) (m : Memory)

/-- The header is in the section table. -/
def Listed (hdr : Addr) : Prop :=
  ∃ l, Visits env.rShtable.tEnd env.rShtable.tBsize env.rShtable.tStart l ∧ hdr ∈ l

/-- The section holds relocations. -/
def HoldsRelocations (hdr : Addr) : Prop := shType m hdr = shtRel ∨ shType m hdr = shtRela

/-- The entries of the table of a section. -/
def EntryOf (hdr rel : Addr) : Prop :=
  ∃ l, Visits (tableAt env m hdr).tEnd (tableAt env m hdr).tBsize (tableAt env m hdr).tStart l ∧
    rel ∈ l

/-- The headers that a relocation table designates. -/
def symtabHdr (hdr : Addr) : Addr := headerAt env (symtabId m hdr)
def relSectHdr (hdr : Addr) : Addr := headerAt env (targetId m hdr)

namespace Relocation

variable (r : Relocation)

/-- The relocation is one of the image. -/
structure InImage : Prop where
  listed : Listed env r.relTableHdr
  type : HoldsRelocations m r.relTableHdr
  entry : EntryOf env m r.relTableHdr r.rel

/-- The symbol, whose value is S. -/
def sym : Addr := symbolOf (tableAt env m (symtabHdr env m r.relTableHdr)) r.rel m

/-- The address P of the field. -/
def place : Addr := shAddr m (relSectHdr env m r.relTableHdr) + rOffset m r.rel

/-- The low 32 bits of S + A - P. -/
def field : BitVec (8 * 4) :=
  (syValue m (r.sym env m) + rAddend m r.rel - r.place env m).setWidth (8 * 4)

/-- The checks of an entry with an explicit addend. -/
def checks : List (Bool × U8) :=
  entryChecks true (tableAt env m (symtabHdr env m r.relTableHdr))
    (shAddr m (relSectHdr env m r.relTableHdr)) r.rel m

end Relocation

/-- The loader reads a structure of `n` bytes at the address `a`, in the section table, in a symbol
table or in a relocation table. -/
inductive Record : Addr → ℕ → Prop
  | header {hdr : Addr} : Listed env hdr → Record hdr 64
  | symtab {hdr : Addr} : Listed env hdr → HoldsRelocations m hdr → Record (symtabHdr env m hdr) 64
  | relSect {hdr : Addr} : Listed env hdr → HoldsRelocations m hdr → Record (relSectHdr env m hdr) 64
  | entry {r : Relocation} : r.InImage env m → Record r.rel 24
  | symbol {r : Relocation} : r.InImage env m → Record (r.sym env m) 24

/-- The fields are disjoint from one another and from the tables. -/
structure FieldsApart : Prop where
  fields : Bytes.Apart (Relocation.place env m) 4 (Relocation.InImage env m)
  tables : ∀ r : Relocation, r.InImage env m → ∀ a n, Record env m a n → ∀ b,
    Bytes.InWord 4 (r.place env m) b → ¬Bytes.InWord n a b

/-- A table of the image: its first byte, and how many it has. -/
inductive Table : Addr → ℕ → Prop
  | headers : Table env.rShtable.tStart (env.rShtable.tEnd - env.rShtable.tStart).toNat
  | symbols {hdr : Addr} : Listed env hdr → shType m hdr = shtSymtab →
      Table (env.rHdr + shOffset m hdr) (shSize m hdr).toNat
  | relocations {hdr : Addr} : Listed env hdr → HoldsRelocations m hdr →
      Table (env.rHdr + shOffset m hdr) (shSize m hdr).toNat

/-- The fields are disjoint from one another and from the bytes of the tables. -/
structure FieldsOutside : Prop where
  fields : Bytes.Apart (Relocation.place env m) 4 (Relocation.InImage env m)
  tables : ∀ r : Relocation, r.InImage env m → ∀ a n, Table env m a n → ∀ b,
    Bytes.InWord 4 (r.place env m) b → ¬Bytes.InWord n a b

/-- The structure of `n` bytes at `a` lies in a table. -/
def Whole (a : Addr) (n : ℕ) : Prop :=
  ∃ start size, Table env m start size ∧ ∀ d < n, Bytes.InWord size start (a + off d)

/-- A structure that is read lies in a table, or no field lies in it. -/
def RecordsWhole : Prop :=
  ∀ a n, Record env m a n → Whole env m a n ∨
    ∀ r : Relocation, r.InImage env m → ∀ b, Bytes.InWord 4 (r.place env m) b → ¬Bytes.InWord n a b

/-- The entries of the section pass their checks. -/
def PassesTable (hdr : Addr) : Prop :=
  firstFailure (tableChecks env m hdr) = none ∧
    ∃ l, Visits (tableAt env m hdr).tEnd (tableAt env m hdr).tBsize (tableAt env m hdr).tStart l ∧
      ∀ rel ∈ l, firstFailure (Relocation.checks env m ⟨hdr, rel⟩) = none

/-- The relocation tables of the image pass their checks. -/
def Relocatable : Prop :=
  ∃ l, Visits env.rShtable.tEnd env.rShtable.tBsize env.rShtable.tStart l ∧
    ∀ hdr ∈ l, HoldsRelocations m hdr → PassesTable env m hdr

/-- The image with its fields. -/
def Relocated (m' : Memory) : Prop :=
  Bytes.Patched (Relocation.place env m) (Relocation.field env m) (Relocation.InImage env m) m m'

end image

/-- Fields that are in no table are in nothing that is read, where no structure sticks out of its table
into a field. -/
theorem FieldsOutside.apart {env : LoadingEnv} {m : Memory} (h : FieldsOutside env m)
    (hwhole : RecordsWhole env m) : FieldsApart env m := by
  refine ⟨h.fields, fun r hr a n hrec b hb hin => ?_⟩
  rcases hwhole a n hrec with ⟨start, size, htable, hheld⟩ | hapart
  · obtain ⟨d, hd, rfl⟩ := hin.eq_add
    exact h.tables r hr start size htable _ hb (hheld d hd)
  · exact hapart r hr b hb hin

/-! ### What is read -/

/-- A relocation table of the memory `x` is one of the memory `m`. -/
structure SameTable (env : LoadingEnv) (x : Memory) (a' : Addr) (m : Memory) (a : Addr) : Prop where
  header : SameRecord 64 x a' m a
  symtab : SameRecord 64 x (symtabHdr env m a) m (symtabHdr env m a)
  relSect : SameRecord 64 x (relSectHdr env m a) m (relSectHdr env m a)

/-- A relocation of the memory `x` is one of the memory `m`. -/
structure SameRelocation (env : LoadingEnv) (x : Memory) (r' : Relocation) (m : Memory)
    (r : Relocation) : Prop where
  table : SameTable env x r'.relTableHdr m r.relTableHdr
  entry : SameRecord 24 x r'.rel m r.rel
  symbol : SameRecord 24 x (r.sym env m) m (r.sym env m)

section same
variable {env : LoadingEnv} {x m : Memory} {a a' : Addr} {r r' : Relocation}

theorem SameRecord.holdsRelocations (h : SameRecord 64 x a' m a) :
    HoldsRelocations x a' ↔ HoldsRelocations m a := by
  unfold HoldsRelocations
  rw [h.readsHeader.type]

theorem SameRecord.tableAt (h : SameRecord 64 x a' m a) : tableAt env x a' = tableAt env m a := by
  unfold Loader.tableAt
  rw [h.readsHeader.offset, h.readsHeader.size, h.readsHeader.entsize]

namespace SameTable

variable (h : SameTable env x a' m a)
include h

theorem symtabHdr_eq : symtabHdr env x a' = symtabHdr env m a := by
  unfold symtabHdr symtabId
  rw [h.header.readsHeader.link]

theorem relSectHdr_eq : relSectHdr env x a' = relSectHdr env m a := by
  unfold relSectHdr targetId
  rw [h.header.readsHeader.info]

theorem symtbl_eq : tableAt env x (symtabHdr env x a') = tableAt env m (symtabHdr env m a) := by
  rw [h.symtabHdr_eq]
  exact h.symtab.tableAt

theorem relSectStart_eq : shAddr x (relSectHdr env x a') = shAddr m (relSectHdr env m a) := by
  rw [h.relSectHdr_eq]
  exact h.relSect.shAddr

theorem tableChecks_eq : tableChecks env x a' = tableChecks env m a := by
  have hsymtab : headerAt env (symtabId x a') = headerAt env (symtabId m a) := h.symtabHdr_eq
  have htarget : headerAt env (targetId x a') = headerAt env (targetId m a) := h.relSectHdr_eq
  have hsize := h.header.readsHeader.entsize
  have htype : shType x (headerAt env (symtabId m a)) = shType m (headerAt env (symtabId m a)) :=
    h.symtab.readsHeader.type
  have hsize' : shEntsize x (headerAt env (symtabId m a)) =
      shEntsize m (headerAt env (symtabId m a)) := h.symtab.readsHeader.entsize
  have htype' : shType x (headerAt env (targetId m a)) = shType m (headerAt env (targetId m a)) :=
    h.relSect.readsHeader.type
  unfold tableChecks headerChecks entsizeChecks
  rw [hsymtab, htarget, hsize, htype, hsize', htype']

end SameTable

namespace SameRelocation

variable (h : SameRelocation env x r' m r)
include h

theorem sym_eq : r'.sym env x = r.sym env m := by
  unfold Relocation.sym symbolOf
  rw [h.table.symtbl_eq, h.entry.rInfo]

theorem place_eq : r'.place env x = r.place env m := by
  unfold Relocation.place
  rw [h.table.relSectStart_eq, h.entry.rOffset]

theorem field_eq : r'.field env x = r.field env m := by
  unfold Relocation.field
  rw [h.sym_eq, h.place_eq, h.symbol.syValue, h.entry.rAddend]

/-- A check depends on what is read only. -/
theorem checks_eq : r'.checks env x = r.checks env m := by
  have hsym : symbolOf (tableAt env m (symtabHdr env m r.relTableHdr)) r'.rel x =
      symbolOf (tableAt env m (symtabHdr env m r.relTableHdr)) r.rel m := by
    unfold symbolOf
    rw [h.entry.rInfo]
  have hvalue : Loader.syValue x (symbolOf (tableAt env m (symtabHdr env m r.relTableHdr)) r.rel m) =
      Loader.syValue m (symbolOf (tableAt env m (symtabHdr env m r.relTableHdr)) r.rel m) :=
    h.symbol.syValue
  unfold Relocation.checks entryChecks applied
  rw [h.table.symtbl_eq, h.table.relSectStart_eq, hsym, hvalue, h.entry.rInfo, h.entry.rOffset,
    h.entry.rAddend, (loaderApplyRelocation_congr rfl).1]

end SameRelocation

end same

/-! ### What is written -/

/-- The tables of the memory `x` are those of the image. -/
def Agrees (env : LoadingEnv) (m x : Memory) : Prop := ∀ a n, Record env m a n → SameRecord n x a m a

section steps
variable {env : LoadingEnv} {m x x' : Memory} {a hdr rel : Addr} {n : ℕ} {r : Relocation}
  {own : Relocation → Prop}

theorem Agrees.refl : Agrees env m m := fun _ _ _ _ _ => rfl

theorem Record.le (h : Record env m a n) : n ≤ 64 := by
  cases h <;> omega

namespace Agrees

theorem header (h : Agrees env m x) (hl : Listed env hdr) : SameRecord 64 x hdr m hdr :=
  h _ _ (.header hl)

theorem table (h : Agrees env m x) (hl : Listed env hdr) (ht : HoldsRelocations m hdr) :
    SameTable env x hdr m hdr :=
  ⟨h.header hl, h _ _ (.symtab hl ht), h _ _ (.relSect hl ht)⟩

theorem relocation (h : Agrees env m x) (hr : r.InImage env m) : SameRelocation env x r m r :=
  ⟨h.table hr.listed hr.type, h _ _ (.entry hr), h _ _ (.symbol hr)⟩

theorem patched (h : Agrees env m x) (hapart : FieldsApart env m)
    (hown : ∀ r, own r → r.InImage env m)
    (hp : Bytes.Patched (Relocation.place env m) (Relocation.field env m) own x x') :
    Agrees env m x' := by
  intro a n hrec d hd
  have hle := hrec.le
  have hin : Bytes.InWord n a (a + off d) := Bytes.inWord_add (by omega) hd
  rw [← h a n hrec d hd]
  exact hp.outside _ fun r hr hin' => hapart.tables r (hown r hr) a n hrec _ hin' hin

end Agrees

/-- An entry that passes its checks stores the low 32 bits of S + A - P. -/
theorem entryStep_none_iff {explicitAddend : Bool} {symtbl : ElfTable} {relSectStart : U64} :
    EntryStep explicitAddend symtbl relSectStart rel x none x' ↔
      firstFailure (entryChecks explicitAddend symtbl relSectStart rel x) = none ∧
      x' = Bytes.store x (relSectStart + rOffset x rel)
        ((syValue x (symbolOf symtbl rel x) + (if explicitAddend then rAddend x rel else 0) -
          (relSectStart + rOffset x rel)).setWidth (8 * 4)) := by
  have hstores : firstFailure (entryChecks explicitAddend symtbl relSectStart rel x) = none →
      (applied explicitAddend symtbl relSectStart rel x).2 =
        Bytes.store x (relSectStart + rOffset x rel)
        ((syValue x (symbolOf symtbl rel x) + (if explicitAddend then rAddend x rel else 0) -
          (relSectStart + rOffset x rel)).setWidth (8 * 4)) := by
    intro h
    unfold entryChecks at h
    rw [Sweep.firstFailure_append_eq_none, Sweep.firstFailure_check_eq_none] at h
    exact loaderApplyRelocation_stores h.2
  constructor
  · intro h
    cases h with
    | applied hc => exact ⟨hc, hstores hc⟩
  · rintro ⟨hc, rfl⟩
    rw [← hstores hc]
    exact .applied hc

/-- **An entry** of the image is applied iff it passes its checks, and its field is then patched. -/
theorem Agrees.entryStep_iff {x₀ : Memory} (h₀ : Agrees env m x₀) (h : Agrees env m x)
    (hr : r.InImage env m) (hrela : shType m r.relTableHdr = shtRela) :
    EntryStep (shType x₀ r.relTableHdr = shtRela)
        (tableAt env x₀ (headerAt env (symtabId x₀ r.relTableHdr)))
        (shAddr x₀ (headerAt env (targetId x₀ r.relTableHdr))) r.rel x none x' ↔
      firstFailure (r.checks env m) = none ∧
      Bytes.Patched (Relocation.place env m) (Relocation.field env m) (· = r) x x' := by
  have ht₀ := h₀.table hr.listed hr.type
  have hs := h.relocation hr
  have hexplicit : decide (shType x₀ r.relTableHdr = shtRela) = true :=
    decide_eq_true (ht₀.header.readsHeader.type.trans hrela)
  have hsymtbl : tableAt env x₀ (headerAt env (symtabId x₀ r.relTableHdr)) =
      tableAt env x (symtabHdr env x r.relTableHdr) := ht₀.symtbl_eq.trans hs.table.symtbl_eq.symm
  have hstart : shAddr x₀ (headerAt env (targetId x₀ r.relTableHdr)) =
      shAddr x (relSectHdr env x r.relTableHdr) :=
    ht₀.relSectStart_eq.trans hs.table.relSectStart_eq.symm
  rw [hexplicit, hsymtbl, hstart, entryStep_none_iff, Bytes.patched_single_iff (by decide),
    ← hs.checks_eq, ← hs.place_eq, ← hs.field_eq]
  exact Iff.rfl

/-- **The entries** of a relocation table of the image. -/
theorem Agrees.appliesEntries_iff (h : Agrees env m x) (hapart : FieldsApart env m)
    (hl : Listed env hdr) (hrela : shType m hdr = shtRela) :
    AppliesEntries env hdr x none x' ↔
      (∃ l, Visits (tableAt env m hdr).tEnd (tableAt env m hdr).tBsize (tableAt env m hdr).tStart l ∧
        ∀ rel ∈ l, firstFailure (Relocation.checks env m ⟨hdr, rel⟩) = none) ∧
      Bytes.Patched (Relocation.place env m) (Relocation.field env m)
        (fun r => r.InImage env m ∧ r.relTableHdr = hdr) x x' := by
  have hruns : ∀ l, Visits (tableAt env m hdr).tEnd (tableAt env m hdr).tBsize
      (tableAt env m hdr).tStart l → (Runs (fun rel m₀ => EntryStep (shType x hdr = shtRela)
          (tableAt env x (headerAt env (symtabId x hdr)))
          (shAddr x (headerAt env (targetId x hdr))) rel m₀) l x none x' ↔
        (∀ rel ∈ l, firstFailure (Relocation.checks env m ⟨hdr, rel⟩) = none) ∧
        Bytes.Patched (Relocation.place env m) (Relocation.field env m)
          (fun r => r.InImage env m ∧ r.relTableHdr = hdr) x x') := by
    intro l hv
    have hin : ∀ rel ∈ l, Relocation.InImage env m ⟨hdr, rel⟩ :=
      fun rel hrel => ⟨hl, .inr hrela, l, hv, hrel⟩
    have hown : ∀ r : Relocation, (∃ rel ∈ l, r = ⟨hdr, rel⟩) ↔
        r.InImage env m ∧ r.relTableHdr = hdr := by
      intro r
      constructor
      · rintro ⟨rel, hrel, rfl⟩
        exact ⟨hin rel hrel, rfl⟩
      · rintro ⟨⟨-, -, l', hv', hrel⟩, rfl⟩
        obtain rfl := hv.unique hv'
        exact ⟨r.rel, hrel, rfl⟩
    rw [Bytes.patched_of_runs_iff (fun rel r => r = ⟨hdr, rel⟩) (by decide) hapart.fields
      (fun rel hrel r hr => hr ▸ hin rel hrel)
      (fun rel hrel y y' hy => h.entryStep_iff hy (hin rel hrel) hrela)
      (fun rel hrel y y' hy hp => hy.patched hapart
        (fun r (hr : r = ⟨hdr, rel⟩) => hr ▸ hin rel hrel) hp) h]
    exact and_congr_right fun _ => ⟨fun hp => hp.congr hown, fun hp => hp.congr fun r => (hown r).symm⟩
  unfold AppliesEntries
  rw [(h.header hl).tableAt]
  constructor
  · rintro ⟨l, hv, hrun⟩
    obtain ⟨hpass, hp⟩ := (hruns l hv).mp hrun
    exact ⟨⟨l, hv, hpass⟩, hp⟩
  · rintro ⟨⟨l, hv, hpass⟩, hp⟩
    exact ⟨l, hv, (hruns l hv).mpr ⟨hpass, hp⟩⟩

/-- **A section** of the image. -/
theorem Agrees.sectionStep_iff (h : Agrees env m x) (hapart : FieldsApart env m)
    (hrela : ∀ hdr, Listed env hdr → shType m hdr ≠ shtRel) (hl : Listed env hdr) :
    SectionStep env hdr x none x' ↔ (HoldsRelocations m hdr → PassesTable env m hdr) ∧
      Bytes.Patched (Relocation.place env m) (Relocation.field env m)
        (fun r => r.InImage env m ∧ r.relTableHdr = hdr) x x' := by
  have htype := (h.header hl).holdsRelocations
  by_cases ht : HoldsRelocations m hdr
  · have hx : shType x hdr = shtRel ∨ shType x hdr = shtRela := htype.mpr ht
    have hchecks := (h.table hl ht).tableChecks_eq
    have hentries : AppliesEntries env hdr x none x' ↔ _ :=
      h.appliesEntries_iff hapart hl (ht.resolve_left (hrela hdr hl))
    constructor
    · intro hstep
      cases hstep with
      | skipped hno => exact absurd hx hno
      | entries _ hc ha =>
          obtain ⟨hpass, hp⟩ := hentries.mp ha
          exact ⟨fun _ => ⟨hchecks ▸ hc, hpass⟩, hp⟩
    · rintro ⟨hpass, hp⟩
      obtain ⟨hc, hl'⟩ := hpass ht
      exact .entries hx (hchecks.symm ▸ hc) (hentries.mpr ⟨hl', hp⟩)
  · have hempty : ∀ r : Relocation, ¬(r.InImage env m ∧ r.relTableHdr = hdr) := by
      rintro r ⟨hr, rfl⟩
      exact ht hr.type
    rw [Bytes.patched_empty_iff hempty]
    constructor
    · intro hstep
      cases hstep with
      | skipped => exact ⟨fun h' => absurd h' ht, rfl⟩
      | entries hx => exact absurd (htype.mp hx) ht
    · rintro ⟨-, rfl⟩
      exact .skipped fun hx => ht (htype.mp hx)

/-- **An image whose fields are apart** is relocated without failure iff its relocation tables pass
their checks, and what is left is the image with its fields. -/
theorem relocates_iff {m' : Memory} (hapart : FieldsApart env m)
    (hrela : ∀ hdr, Listed env hdr → shType m hdr ≠ shtRel) :
    Relocates env m none m' ↔ Relocatable env m ∧ Relocated env m m' := by
  have hruns : ∀ l, Visits env.rShtable.tEnd env.rShtable.tBsize env.rShtable.tStart l →
      (Runs (SectionStep env) l m none m' ↔
        (∀ hdr ∈ l, HoldsRelocations m hdr → PassesTable env m hdr) ∧ Relocated env m m') := by
    intro l hv
    have hown : ∀ r : Relocation, (∃ hdr ∈ l, r.InImage env m ∧ r.relTableHdr = hdr) ↔
        r.InImage env m := by
      intro r
      constructor
      · rintro ⟨hdr, -, hr, -⟩
        exact hr
      · intro hr
        obtain ⟨l', hv', hmem⟩ := hr.listed
        obtain rfl := hv.unique hv'
        exact ⟨r.relTableHdr, hmem, hr, rfl⟩
    rw [Bytes.patched_of_runs_iff (fun hdr r => r.InImage env m ∧ r.relTableHdr = hdr)
      (by decide) hapart.fields (fun hdr _ r hr => hr.1)
      (fun hdr hmem y y' hy => hy.sectionStep_iff hapart hrela ⟨l, hv, hmem⟩)
      (fun hdr _ y y' hy hp => hy.patched hapart (fun r hr => hr.1) hp) Agrees.refl]
    exact and_congr_right fun _ => ⟨fun hp => hp.congr hown, fun hp => hp.congr fun r => (hown r).symm⟩
  constructor
  · rintro ⟨l, hv, hrun⟩
    obtain ⟨hpass, hp⟩ := (hruns l hv).mp hrun
    exact ⟨⟨l, hv, hpass⟩, hp⟩
  · rintro ⟨⟨l, hv, hpass⟩, hp⟩
    exact ⟨l, hv, (hruns l hv).mpr ⟨hpass, hp⟩⟩

end steps

end KernelTk.Loader
