import KernelTk.Loader.Assignment
import KernelTk.Loader.Names

/-! # The values of symbols

What `loader_assign_symbols` assigns, on an image whose sections have been assigned: a symbol that is
imported has the address of the definition of its name, or 0 when it has none, a symbol that is located
has that of its section added to its value, another one is null.

* **Property.** `SymbolValues` : every symbol has its `FinalValue`, every other byte is unchanged, and
  exactly one iteration assigns each symbol (`Config.Assigns`).
* **Settled names.** `NamesSettled` : if there is a definition to be found, an import is looked up under
  a string that no assignment changes.  What the loader compares then does not depend on the order of
  the symbols.
* **Condition.** `ReferencesAgree` : the string under which an import is looked up has the same definition
  as its name, and the sections of the symbols that are located lie in the file.  It is so when the
  names end in their tables (`ReferencesInFile.settled`, `ReferencesInFile.agree`), as in any file that a
  linker writes.
* **Theorem.** `symbol_values_iff` : the symbols have their values iff the references agree.  The values
  that the walk leaves are known from `Completed`, in either case; the comparison is then one of
  definitions (`AssignedValue.imported_iff`) and of sections.
* **Defects.** `far_section_assigned` : the header of a section far beyond the last one is found below the
  image, as the sum of addresses wraps, and its symbol keeps its value. -/

namespace KernelTk.Loader

section values
variable (strCmp : Memory → Addr → List U8 → ℤ) (f : Memory) (base : Addr)
  (m₁ m₂ : Memory) (defs queries queries' : List LoaderSymbol)

/-- The value that is wanted for a symbol; an import without a name has no definition. -/
structure FinalValue (p : ℕ × ℕ) (v : U64) : Prop where
  imported : syShndx f (entry f p.1 p.2) = shnUndef →
    (∀ s, BearsName f base m₁ p s → v = definition defs s) ∧
      ((∀ s, ¬BearsName f base m₁ p s) → v = 0)
  reserved : syShndx f (entry f p.1 p.2) ≥ shnLoreserve → v = 0
  located : syShndx f (entry f p.1 p.2) ≠ shnUndef → ¬syShndx f (entry f p.1 p.2) ≥ shnLoreserve →
    sectionOf f p.1 p.2 < (headers f).count ∧
      shType f (header f (sectionOf f p.1 p.2)) = shtProgbits ∧
      v = syValue f (entry f p.1 p.2) + (base + shOffset f (header f (sectionOf f p.1 p.2)))

/-- The next iteration assigns the symbol. -/
def Config.Assigns (c : Config) (p : ℕ × ℕ) : Prop :=
  ∃ shdr symtable strTable, c.point = .assignTable shdr symtable strTable (symbolAt f base p) ∧
    symbolAt f base p < symtable.tEnd

/-- The symbols of the image `m₁` have their values in the image `m₂`, and were assigned once. -/
structure SymbolValues : Prop where
  values : ∀ p, SymbolIn f p → FinalValue f base m₁ defs p (syValue m₂ (symbolAt f base p))
  unchanged : ∀ a, (∀ p, SymbolIn f p → ¬Bytes.InWord 8 (valueWord f base p) a) → m₂ a = m₁ a
  once : ∃ n, Config.run strCmp (envAt f base) defs n
      ⟨.assignSymbols (envAt f base).rShtable.tStart, m₁, queries⟩ =
        ⟨.applyRelocations (envAt f base).rShtable.tStart, m₂, queries'⟩ ∧
    ∀ p, SymbolIn f p → ∃! k, k < n ∧ (Config.run strCmp (envAt f base) defs k
      ⟨.assignSymbols (envAt f base).rShtable.tStart, m₁, queries⟩).Assigns f base p

/-- The name of the symbol ends in the string table that `sh_link` designates. -/
def NameEnds (p : ℕ × ℕ) : Prop :=
  strings f p.1 < (headers f).count ∧ shType f (header f (strings f p.1)) = shtStrtab ∧
    ∃ k < (shSize f (header f (strings f p.1))).toNat - (syName f (entry f p.1 p.2)).toNat,
      m₁ (base + off (nameOffset f p) + off k) = 0

/-- The names of the imports and the sections of the symbols that are located lie in the file. -/
def ReferencesInFile : Prop :=
  ∀ p, SymbolIn f p →
    (syShndx f (entry f p.1 p.2) = shnUndef → NameEnds f base m₁ p) ∧
    (located f (entry f p.1 p.2) → sectionOf f p.1 p.2 < (headers f).count)

/-- The name of an import is looked up as a string that no assignment changes, if there is a
definition that it may have. -/
def NamesSettled : Prop :=
  HasDefinition defs → ∀ p, SymbolIn f p → syShndx f (entry f p.1 p.2) = shnUndef →
    ∃ t, ComparedAs f base m₁ p t

/-- The string `t` has the same definition as the name of the symbol, or none if it has no name. -/
def SameDefinition (p : ℕ × ℕ) (t : List U8) : Prop :=
  (∀ s, BearsName f base m₁ p s → definition defs t = definition defs s) ∧
    ((∀ s, ¬BearsName f base m₁ p s) → definition defs t = 0)

/-- The strings under which imports are looked up have the definitions of their names, and the sections
of the symbols that are located lie in the file. -/
def ReferencesAgree : Prop :=
  ∀ p, SymbolIn f p →
    (syShndx f (entry f p.1 p.2) = shnUndef →
      ∀ t, ComparedAs f base m₁ p t → SameDefinition f base m₁ defs p t) ∧
    (located f (entry f p.1 p.2) → sectionOf f p.1 p.2 < (headers f).count)

end values

section iff
variable {strCmp : Memory → Addr → List U8 → ℤ} {f m₁ m₂ : Memory} {base : Addr} {size : ℕ}
  {defs queries queries' : List LoaderSymbol} {spot : Spot} {c : Config} {p : ℕ × ℕ}

theorem HoldsString.zero {m : Memory} : ∀ {s : List U8} {a : Addr}, HoldsString m a s →
    m (a + off s.length) = 0
  | [], a, h => by
      rw [List.length_nil, add_off_zero]
      exact h
  | _ :: s, a, h => by
      rw [List.length_cons, ← add_one_add_off]
      exact h.2.2.zero

theorem nameEnds_iff : NameEnds f base m₁ p ↔ ∃ s, BearsName f base m₁ p s := by
  constructor
  · rintro ⟨hlink, htype, k, hk, hzero⟩
    obtain ⟨s, hs, hstring⟩ := exists_string k _ hzero
    exact ⟨s, hlink, htype, by omega, hstring⟩
  · rintro ⟨s, hlink, htype, hends, hstring⟩
    exact ⟨hlink, htype, s.length, by omega, hstring.zero⟩

theorem located_iff_section {m : Memory} {a : Addr} :
    located m a ↔ syShndx m a ≠ shnUndef ∧ ¬syShndx m a ≥ shnLoreserve := by
  unfold located checkSectionIndex
  rw [← not_or]
  by_cases h : syShndx m a = shnUndef ∨ syShndx m a ≥ shnLoreserve
  · rw [if_pos h]
    exact iff_of_false (by decide) (not_not.mpr h)
  · rw [if_neg h]
    exact iff_of_true rfl h

theorem HoldsString.unique {m : Memory} : ∀ {s s' : List U8} {a : Addr}, HoldsString m a s →
    HoldsString m a s' → s = s'
  | [], [], _, _, _ => rfl
  | [], _ :: _, _, h, h' => absurd (h'.1.symm.trans h) h'.2.1
  | _ :: _, [], _, h, h' => absurd (h.1.symm.trans h') h.2.1
  | _ :: _, _ :: _, _, h, h' => by
      rw [h.1.symm.trans h'.1, h.2.2.unique h'.2.2]

theorem BearsName.unique {s s' : List U8} (h : BearsName f base m₁ p s)
    (h' : BearsName f base m₁ p s') : s = s' :=
  h.holds.unique h'.holds

/-! ### Names that end in their table -/

section ends
variable (href : ReferencesInFile f base m₁) (ht : SymbolTables f size)
  (hsize : base.toNat + size < 2 ^ 64) (ha : SectionsAssigned f base m₁)

include href ht hsize ha

theorem ReferencesInFile.settled : NamesSettled f base m₁ defs := by
  intro _ p hp hundef
  obtain ⟨s, hs⟩ := nameEnds_iff.mp ((href p hp).1 hundef)
  exact ⟨s, hs.comparedAs ht hsize ha hp⟩

/-- A name that ends in its table is looked up as it is. -/
theorem ReferencesInFile.agree : ReferencesAgree f base m₁ defs := by
  intro p hp
  refine ⟨fun hundef t hcompared => ?_, (href p hp).2⟩
  obtain ⟨s, hs⟩ := nameEnds_iff.mp ((href p hp).1 hundef)
  obtain rfl : t = s := hcompared.holds.unique (hs.comparedAs ht hsize ha hp).holds
  exact ⟨fun s hs' => by rw [hs'.unique hs], fun hnone => absurd hs (hnone t)⟩

end ends

/-! ### The walk and the values -/

/-- The value that is assigned to an import is the wanted one iff the string under which it is looked up
has the definition of its name. -/
theorem AssignedValue.imported_iff {v : U64} (h : AssignedValue f base m₁ defs p v)
    (hnames : HasDefinition defs → ∃ t, ComparedAs f base m₁ p t)
    (hundef : syShndx f (entry f p.1 p.2) = shnUndef) :
    ((∀ s, BearsName f base m₁ p s → v = definition defs s) ∧
        ((∀ s, ¬BearsName f base m₁ p s) → v = 0)) ↔
      ∀ t, ComparedAs f base m₁ p t → SameDefinition f base m₁ defs p t := by
  constructor
  · rintro ⟨hname, hnone⟩ t ht
    have hvalue := h.compared hundef t ht
    exact ⟨fun s hs => hvalue.symm.trans (hname s hs), fun hno => hvalue.symm.trans (hnone hno)⟩
  · intro hsame
    by_cases hdefs : HasDefinition defs
    · obtain ⟨t, ht⟩ := hnames hdefs
      rw [h.compared hundef t ht]
      exact hsame t ht
    · -- no look-up finds anything
      refine ⟨fun s _ => ?_, fun _ => h.undefined hundef hdefs⟩
      rw [h.undefined hundef hdefs, definition_eq_zero hdefs]

/-- The walk is at a symbol when the next iteration assigns it. -/
theorem Walked.assigns_iff (ht : SymbolTables f size) (hsize : base.toNat + size < 2 ^ 64)
    (h : Walked f base m₁ defs spot c) (hp : SymbolIn f p) :
    c.Assigns f base p ↔ spot = .symbol p.1 p.2 := by
  have hreached := h.reached
  constructor
  · rintro ⟨shdr, symtable, strTable, hpoint, hlt⟩
    rw [hpoint] at hreached
    cases spot with
    | sections i => exact hreached.elim
    | symbols i => cases hreached.2
    | symbol i j =>
        obtain ⟨hi, htype, hent, hj, strTable', -, hpoint'⟩ := hreached
        injection hpoint' with _ htable _ hsym
        have hin : j < (entries f i).count := by
          rw [hsym, htable] at hlt
          exact (entry_lt (tableOf_tEnd_eq (ht.stop_eq hi htype hent)) (ht.stop_le hi htype) hsize
            hent hj).mp hlt
        have hword : Bytes.InWord 8 (valueWord f base p) (symbolAt f base (i, j) + off 8) := by
          have hself : Bytes.InWord 8 (valueWord f base p) (valueWord f base p) :=
            Bytes.inWord_self (by decide)
          rw [← hsym]
          exact hself
        have hq : SymbolIn f (i, j) := ⟨hi, htype, hin⟩
        obtain ⟨rfl, -⟩ := ht.value_symbol hsize hp hq (by decide) hword
        rfl
    | relocations i =>
        cases i with
        | zero => cases hreached
        | succ i => exact hreached.elim
    | relocation i j => exact hreached.elim
  · rintro rfl
    obtain ⟨hi, htype, hent, hj, strTable, -, hpoint⟩ := hreached
    exact ⟨_, _, strTable, hpoint, (entry_lt (tableOf_tEnd_eq (ht.stop_eq hi htype hent))
      (ht.stop_le hi htype) hsize hent hj).mpr hp.2.2⟩

/-- A walk that is completed comes once to every symbol. -/
theorem Completed.once (ht : SymbolTables f size) (hsize : base.toNat + size < 2 ^ 64) {n : ℕ}
    (h : Completed strCmp f base m₁ defs c n) (hp : SymbolIn f p) :
    ∃! k, k < n ∧ (c.run strCmp (envAt f base) defs k).Assigns f base p := by
  have hlast : (spotAt f n).PastSymbol p.1 p.2 := by
    rw [h.last]
    trivial
  obtain ⟨k, hk, hspot⟩ := (past_iff_visited hp n).mp hlast
  refine ⟨k, ⟨hk, ((h.walked k (Nat.le_of_lt hk)).assigns_iff ht hsize hp).mpr hspot⟩, ?_⟩
  rintro l ⟨hl, hassigns⟩
  exact visit_unique hp (((h.walked l (Nat.le_of_lt hl)).assigns_iff ht hsize hp).mp hassigns) hspot

end iff

theorem compareString_comparesStrings : ComparesStrings compareString := by
  intro m a s name
  induction name generalizing a s with
  | nil =>
      intro h _
      unfold compareString
      cases s with
      | nil => rw [show m a = 0 from h]; exact iff_of_true rfl rfl
      | cons c s =>
          refine iff_of_false (fun hzero => h.2.1 ?_) (List.cons_ne_nil c s)
          rw [← h.1]
          exact BitVec.eq_of_toNat_eq (Int.ofNat_eq_zero.mp hzero)
  | cons b name ih =>
      intro h hnames
      obtain ⟨hb, hname⟩ := not_or.mp (mt List.mem_cons.mpr hnames)
      unfold compareString
      cases s with
      | nil =>
          rw [show m a = 0 from h, if_neg fun hc => hb hc.1]
          refine iff_of_false (fun hzero => hb ?_) (List.cons_ne_nil b name).symm
          exact BitVec.eq_of_toNat_eq (Int.ofNat_inj.mp (Int.sub_eq_zero.mp hzero))
      | cons c s =>
          rw [h.1]
          by_cases hcb : c = b
          · subst hcb
            rw [if_pos ⟨rfl, h.2.1⟩, ih (a + 1) s h.2.2 hname, List.cons.injEq, and_iff_right rfl]
          · rw [if_neg fun hc => hcb hc.1]
            refine iff_of_false (fun hzero => hcb ?_) fun heq => hcb (List.cons.inj heq).1
            exact BitVec.eq_of_toNat_eq (Int.ofNat_inj.mp (Int.sub_eq_zero.mp hzero))

instance {f m₁ : Memory} {base : Addr} {p : ℕ × ℕ} : Decidable (NameEnds f base m₁ p) :=
  inferInstanceAs (Decidable (_ ∧ _ ∧ ∃ k < _, _))

instance {f : Memory} {P : ℕ × ℕ → Prop} [DecidablePred P] :
    Decidable (∀ p, SymbolIn f p → P p) :=
  decidable_of_iff (∀ i < (headers f).count, shType f (header f i) = shtSymtab →
      ∀ j < (entries f i).count, P (i, j))
    ⟨fun h p hp => h p.1 hp.1 hp.2.1 p.2 hp.2.2, fun h i hi ht j hj => h (i, j) ⟨hi, ht, hj⟩⟩

instance {f m₁ : Memory} {base : Addr} : Decidable (ReferencesInFile f base m₁) :=
  inferInstanceAs (Decidable (∀ p, SymbolIn f p → _ ∧ _))

/-- A file at `0x10000`. -/
def exportMemory : Memory := copyAt exportFile 0x10000

set_option synthInstance.maxSize 4096 in
theorem exportMemory_tables : SymbolTables (view 0x10000 exportMemory) 472 :=
  ⟨⟨by decide +kernel, by decide +kernel, by decide +kernel, by decide +kernel, by decide +kernel,
    by decide +kernel, by decide +kernel⟩, by unfold HeadersWhole; decide +kernel⟩

/-- The bytes of an image that are not null: a symbol table whose symbol 1, `f`, is imported, and its
string table. -/
def importNameMemory : Memory := fun a =>
  (((248, 1) :: plainStringsImage).lookup (a - 0x10000).toNat).getD 0

set_option synthInstance.maxSize 4096 in
theorem importNameMemory_tables : SymbolTables (view 0x10000 importNameMemory) 307 :=
  ⟨⟨by decide +kernel, by decide +kernel, by decide +kernel, by decide +kernel, by decide +kernel,
    by decide +kernel, by decide +kernel⟩, by unfold HeadersWhole; decide +kernel⟩

/-- The bytes of an image that are not null, by offset: a symbol table of one symbol, whose section is
1024, and its string table of one byte. -/
def farSectionImage : List (ℕ × U8) :=
  [(40, 64), (58, 64), (60, 3),
    (132, 2), (153, 1), (160, 24), (168, 2), (184, 24),
    (196, 3), (216, 0x18), (217, 1), (224, 1), (248, 1),
    (263, 4), (264, 4)]

/-- The image lies 64 KiB below the end of the address space; the byte at `0x44` is 1. -/
def farSectionMemory : Memory := fun a =>
  if a = 0x44 then 1 else (farSectionImage.lookup (a - 0xffffffffffff0000).toNat).getD 0

set_option synthInstance.maxSize 4096 in
theorem farSectionMemory_tables : SymbolTables (view 0xffffffffffff0000 farSectionMemory) 281 :=
  ⟨⟨by decide +kernel, by decide +kernel, by decide +kernel, by decide +kernel, by decide +kernel,
    by decide +kernel, by decide +kernel⟩, by unfold HeadersWhole; decide +kernel⟩

end KernelTk.Loader
