import KernelTk.Loader.Layout

/-! # The load of a file, wherever it lies

An abstract load makes the iterations of the loader over subscripts of the tables of a file, and
reads nothing but the file: what the checks say, and where the load stops, does not depend on an
address.

* **Checks.** `fileSymtabChecks`, `fileSymbolChecks`, `fileTableChecks` and `fileEntryChecks` are the
  checks of the source with subscripts in the place of addresses.
* **Spots.** A `Spot` is the header and the entry that the load has come to; the addresses of the records
  that are behind it have been assigned (`Spot.Past`).
* **Stages.** A `Stage` is a spot, how the load has stopped, the bytes of the image that are no addresses,
  and the queries, which depend on where the file lies.  `Stage.next` is one iteration.
* **Invariant.** `Stage.Valid` : the tables are those of the file, the spot is in the file with the checks
  before it passed, and the symbols that have been assigned are located in sections of the file.  Every
  iteration preserves it (`Stage.Valid.next`).
* **End.** Every load stops (`Stage.Valid.stops`): the passes, the headers and the entries that are left
  decrease in lexicographic order (`Before`, `Spot.rest`).
* **Queries.** The queries of two loads of the file differ by the distance of the copies
  (`Stage.queries_run`). -/

namespace KernelTk.Loader

open Sweep (check firstFailure)

/-! ### Checks -/

section checks
variable (f : Memory)

/-- The section that a header designates by `sh_link`, and by `sh_info`. -/
def link (i : ℕ) : ℕ := (symtabId f (header f i)).toNat
def target (i : ℕ) : ℕ := (targetId f (header f i)).toNat

/-- The subscripts of the section of a symbol, and of its name. -/
def sectionOf (i j : ℕ) : ℕ := (syShndx f (entry f i j)).toNat
def nameIndex (i j : ℕ) : ℕ := (syName f (entry f i j)).toNat

/-- The subscript of the symbol of a relocation. -/
def symbolIndex (i j : ℕ) : ℕ := (elf64RSym (rInfo f (entry f i j))).toNat

/-- Where a symbol that is located in a section lies. -/
def symbolOffset (i j : ℕ) : U64 :=
  syValue f (entry f i j) + shOffset f (header f (sectionOf f i j))

/-- The header at a subscript has the expected type. -/
def fileHeaderChecks (i : ℕ) (type : U32) : List (Bool × U8) :=
  check (i < (headers f).count) loaderErrorBadTableIndex ++
    check (shType f (header f i) = type) loaderErrBadSectionType

def fileSymtabChecks (i : ℕ) : List (Bool × U8) :=
  entsizeChecks f (header f i) ++ fileHeaderChecks f (link f i) shtStrtab ++
    entsizeChecks f (header f (link f i))

def fileSymbolChecks (i j : ℕ) : List (Bool × U8) :=
  check (nameIndex f i j < (entries f (link f i)).count) loaderErrorBadTableIndex ++
    if located f (entry f i j) then fileHeaderChecks f (sectionOf f i j) shtProgbits else []

def fileTableChecks (i : ℕ) : List (Bool × U8) :=
  entsizeChecks f (header f i) ++ fileHeaderChecks f (link f i) shtSymtab ++
    entsizeChecks f (header f (link f i)) ++ fileHeaderChecks f (target f i) shtProgbits

/-- The call that an entry asks of the processor, if the file lies at 0. -/
def fileApplied (image : Memory) (i j : ℕ) : U8 × Memory :=
  loaderApplyRelocation (place f i j) (symbolOffset f (link f i) (symbolIndex f i j))
    (if shType f (header f i) = shtRela then rAddend f (entry f i j) else 0)
    (elf64RType (rInfo f (entry f i j))) image

def fileEntryChecks (image : Memory) (i j : ℕ) : List (Bool × U8) :=
  check (elf64RSym (rInfo f (entry f i j)) ≠ 0) loaderErrorRelSymbolNullIndex ++
    check (symbolIndex f i j < (entries f (link f i)).count) loaderErrorBadTableIndex ++
    check (located f (entry f (link f i) (symbolIndex f i j))) loaderErrorRelSymbolNullAddress ++
    check ((fileApplied f image i j).1 = 0) (fileApplied f image i j).1

end checks

/-! ### Stages -/

/-- Where a load has come to. -/
inductive Spot where
  | sections (i : ℕ)
  | symbols (i : ℕ)
  | symbol (i j : ℕ)
  | relocations (i : ℕ)
  | relocation (i j : ℕ)
deriving DecidableEq

/-- The address of the section has been assigned. -/
def Spot.PastSection : Spot → ℕ → Prop
  | .sections i', i => i < i'
  | _, _ => True

/-- The address of the symbol has been assigned. -/
def Spot.PastSymbol : Spot → ℕ → ℕ → Prop
  | .sections _, _, _ => False
  | .symbols i', i, _ => i < i'
  | .symbol i' j', i, j => i < i' ∨ i = i' ∧ j < j'
  | _, _, _ => True

/-- The address of the record has been assigned. -/
def Spot.Past (spot : Spot) : Option ℕ → ℕ → Prop
  | none, j => spot.PastSection j
  | some i, j => spot.PastSymbol i j

structure Stage where
  spot : Spot
  result : Option (Pass × U8)
  image : Memory
  queries : Addr → List LoaderSymbol

def Stage.stop (pass : Pass) (error : U8) (s : Stage) : Stage := { s with result := some (pass, error) }
def Stage.goto (spot : Spot) (s : Stage) : Stage := { s with spot := spot }

section stages
variable (strCmp : Memory → Addr → List U8 → ℤ) (f : Memory)

/-- The queries after a symbol. -/
def Stage.answered (i j : ℕ) (s : Stage) : Addr → List LoaderSymbol :=
  if located f (entry f i j) then fun base =>
    defineQuery strCmp (entry f (link f i) (nameIndex f i j)) (base + symbolOffset f i j) f
      (s.queries base)
  else s.queries

/-- One iteration of a load that has not stopped. -/
def Stage.advance (s : Stage) : Stage :=
  match s.spot with
  | .sections i =>
      if i < (headers f).count then
        if shType f (header f i) = shtNobits ∧ shSize f (header f i) ≠ 0 then
          s.stop .sections loaderErrorNonEmptyNobitsSection
        else s.goto (.sections (i + 1))
      else s.goto (.symbols 0)
  | .symbols i =>
      if i < (headers f).count then
        if shType f (header f i) = shtSymtab then
          match firstFailure (fileSymtabChecks f i) with
          | some e => s.stop .symbols e
          | none => s.goto (.symbol i 0)
        else s.goto (.symbols (i + 1))
      else s.goto (.relocations 0)
  | .symbol i j =>
      if j < (entries f i).count then
        match firstFailure (fileSymbolChecks f i j) with
        | some e => s.stop .symbols e
        | none => { s with spot := .symbol i (j + 1), queries := s.answered strCmp f i j }
      else s.goto (.symbols (i + 1))
  | .relocations i =>
      if i < (headers f).count then
        if shType f (header f i) = shtRel ∨ shType f (header f i) = shtRela then
          match firstFailure (fileTableChecks f i) with
          | some e => s.stop .relocations e
          | none => s.goto (.relocation i 0)
        else s.goto (.relocations (i + 1))
      else s.stop .relocations 0
  | .relocation i j =>
      if j < (entries f i).count then
        match firstFailure (fileEntryChecks f s.image i j) with
        | some e => s.stop .relocations e
        | none => { s with spot := .relocation i (j + 1), image := (fileApplied f s.image i j).2 }
      else s.goto (.relocations (i + 1))

/-- One iteration. -/
def Stage.next (s : Stage) : Stage := if s.result = none then s.advance strCmp f else s

/-- The load of a file. -/
def Stage.start (queries : List LoaderSymbol) : Stage :=
  ⟨.sections 0, none, f, fun _ => queries⟩

def Stage.run (n : ℕ) (s : Stage) : Stage := (Stage.next strCmp f)^[n] s

end stages

/-! ### Stages that are reached -/

section valid
variable {strCmp : Memory → Addr → List U8 → ℤ} {f : Memory} {size i j : ℕ} {s : Stage}

/-- The spot is in the file, and the checks before it are passed. -/
def Spot.InFile (f : Memory) : Spot → Prop
  | .sections i => i ≤ (headers f).count
  | .symbols i => i ≤ (headers f).count
  | .symbol i j => i < (headers f).count ∧ shType f (header f i) = shtSymtab ∧
      firstFailure (fileSymtabChecks f i) = none ∧ j ≤ (entries f i).count
  | .relocations i => i ≤ (headers f).count
  | .relocation i j => i < (headers f).count ∧
      (shType f (header f i) = shtRel ∨ shType f (header f i) = shtRela) ∧
      firstFailure (fileTableChecks f i) = none ∧ j ≤ (entries f i).count

/-- The invariant of a load: the tables are those of the file, and the symbols that have been
assigned are located in sections of the file. -/
structure Stage.Valid (f : Memory) (s : Stage) : Prop where
  spot : s.spot.InFile f
  image : ∀ t o, Live f t → (tables f t).Holds o → s.image (off o) = f (off o)
  located : ∀ i < (headers f).count, shType f (header f i) = shtSymtab →
    ∀ j < (entries f i).count, s.spot.PastSymbol i j → located f (entry f i j) →
      sectionOf f i j < (headers f).count

theorem Stage.valid_start (queries : List LoaderSymbol) : (Stage.start f queries).Valid f :=
  ⟨Nat.zero_le _, fun _ _ _ _ => rfl, fun _ _ _ _ _ h => by cases h⟩

/-- What the checks of a symbol table ensure. -/
structure SymtabOk (f : Memory) (i : ℕ) : Prop where
  entsize : shEntsize f (header f i) ≠ 0
  link : link f i < (headers f).count
  linkType : shType f (header f (Loader.link f i)) = shtStrtab
  linkEntsize : shEntsize f (header f (Loader.link f i)) ≠ 0

theorem symtabOk (h : firstFailure (fileSymtabChecks f i) = none) : SymtabOk f i := by
  simp only [fileSymtabChecks, fileHeaderChecks, entsizeChecks, Sweep.firstFailure_append_eq_none,
    Sweep.firstFailure_check_eq_none] at h
  exact ⟨h.1.1, h.1.2.1, h.1.2.2, h.2⟩

/-- The names of a symbol table are in a table of the file. -/
theorem SymtabOk.live_link (hok : SymtabOk f i) : Live f (some (Loader.link f i)) := by
  refine ⟨hok.link, ?_⟩
  rw [hok.linkType]
  decide

/-- What the checks of a relocation table ensure. -/
structure TableOk (f : Memory) (i : ℕ) : Prop where
  entsize : shEntsize f (header f i) ≠ 0
  link : link f i < (headers f).count
  linkType : shType f (header f (Loader.link f i)) = shtSymtab
  linkEntsize : shEntsize f (header f (Loader.link f i)) ≠ 0
  target : target f i < (headers f).count

theorem tableOk (h : firstFailure (fileTableChecks f i) = none) : TableOk f i := by
  simp only [fileTableChecks, fileHeaderChecks, entsizeChecks, Sweep.firstFailure_append_eq_none,
    Sweep.firstFailure_check_eq_none] at h
  exact ⟨h.1.1.1, h.1.1.2.1, h.1.1.2.2, h.1.2, h.2.1⟩

theorem symbolOk (h : firstFailure (fileSymbolChecks f i j) = none) :
    nameIndex f i j < (entries f (link f i)).count ∧
      (located f (entry f i j) → sectionOf f i j < (headers f).count) := by
  simp only [fileSymbolChecks, Sweep.firstFailure_append_eq_none,
    Sweep.firstFailure_check_eq_none] at h
  refine ⟨h.1, fun hl => ?_⟩
  have hheader := h.2
  rw [if_pos hl, fileHeaderChecks, Sweep.firstFailure_append_eq_none,
    Sweep.firstFailure_check_eq_none] at hheader
  exact hheader.1

theorem entryOk {image : Memory} (h : firstFailure (fileEntryChecks f image i j) = none) :
    symbolIndex f i j < (entries f (link f i)).count ∧
      located f (entry f (link f i) (symbolIndex f i j)) := by
  simp only [fileEntryChecks, Sweep.firstFailure_append_eq_none,
    Sweep.firstFailure_check_eq_none] at h
  exact ⟨h.1.1.2, h.1.2⟩

theorem Stage.Valid.goto {spot : Spot} (h : s.Valid f) (hspot : spot.InFile f)
    (hpast : ∀ i < (headers f).count, shType f (header f i) = shtSymtab →
      ∀ j < (entries f i).count, spot.PastSymbol i j → s.spot.PastSymbol i j) :
    (s.goto spot).Valid f :=
  ⟨hspot, h.image, fun i hi ht j hj hp => h.located i hi ht j hj (hpast i hi ht j hj hp)⟩

theorem Stage.Valid.stop {pass : Pass} {e : U8} (h : s.Valid f) : (s.stop pass e).Valid f :=
  ⟨h.spot, h.image, h.located⟩

/-- A relocation does not change the tables. -/
theorem relocated_outside (wf : WellFormed f size) (hsize : size < 2 ^ 64)
    (hi : i < (headers f).count)
    (ht : shType f (header f i) = shtRel ∨ shType f (header f i) = shtRela)
    (htarget : target f i < (headers f).count) (hj : j < (entries f i).count) {t : Option ℕ} {o : ℕ}
    (hlive : Live f t) (ho : (tables f t).Holds o) : 4 ≤ (off o - place f i j).toNat := by
  by_contra hlt
  have hstop := wf.stop_le hlive
  have hbyte : (place f i j + off (off o - place f i j).toNat).toNat = o := by
    rw [off_toNat_self, BitVec.add_comm, BitVec.sub_add_cancel, toNat_off]
    have := ho.2
    omega
  obtain ⟨hheaders, hsections⟩ :=
    wf.relocated i hi ht htarget j hj (off o - place f i j).toNat (by omega)
  rw [hbyte] at hheaders hsections
  cases t with
  | none => exact hheaders ho
  | some t => exact hsections t hlive.1 hlive.2 ho

/-- **The invariant is preserved by every iteration.** -/
theorem Stage.Valid.next (wf : WellFormed f size) (hsize : size < 2 ^ 64) (h : s.Valid f) :
    (s.next strCmp f).Valid f := by
  unfold Stage.next
  split
  · unfold Stage.advance
    have hspot := h.spot
    cases hs : s.spot with
    | sections i =>
        rw [hs] at hspot
        simp only
        split
        · rename_i hi
          split
          · exact h.stop
          · exact h.goto hi fun _ _ _ _ _ hp => hp.elim
        · refine h.goto (Nat.zero_le _) fun i _ _ j _ hp => ?_
          exact absurd hp (Nat.not_lt_zero i)
    | symbols i =>
        rw [hs] at hspot
        simp only
        split
        · rename_i hi
          split
          · rename_i ht
            split
            · exact h.stop
            · rename_i hpass
              refine h.goto ⟨hi, ht, hpass, Nat.zero_le _⟩ fun i' _ _ j _ hp => ?_
              rw [hs]
              exact hp.elim id fun hnew => absurd hnew.2 (Nat.not_lt_zero j)
          · rename_i ht
            refine h.goto hi fun i' _ ht' j _ hp => ?_
            rw [hs]
            rcases Nat.lt_succ_iff_lt_or_eq.mp hp with hlt | rfl
            · exact hlt
            · exact absurd ht' ht
        · rename_i hi
          refine h.goto (Nat.zero_le _) fun i' hi' _ j _ _ => ?_
          rw [hs]
          show i' < i
          omega
    | symbol i j =>
        rw [hs] at hspot
        obtain ⟨hi, ht, hpass, hj⟩ := hspot
        simp only
        split
        · rename_i hlt
          split
          · exact h.stop
          · rename_i hsymbol
            refine ⟨⟨hi, ht, hpass, hlt⟩, h.image, fun i' hi' ht' j' hj' hp => ?_⟩
            have hpast : s.spot.PastSymbol i' j' ∨ i' = i ∧ j' = j := by
              rw [hs]
              rcases hp with hp | ⟨rfl, hp⟩
              · exact .inl (.inl hp)
              · rcases Nat.lt_succ_iff_lt_or_eq.mp hp with hp | rfl
                · exact .inl (.inr ⟨rfl, hp⟩)
                · exact .inr ⟨rfl, rfl⟩
            rcases hpast with hp | ⟨rfl, rfl⟩
            · exact h.located i' hi' ht' j' hj' hp
            · exact (symbolOk hsymbol).2
        · rename_i hlast
          refine h.goto hi fun i' _ ht' j' hj' hp => ?_
          rw [hs]
          rcases Nat.lt_succ_iff_lt_or_eq.mp hp with hlt | rfl
          · exact .inl hlt
          · exact .inr ⟨rfl, by omega⟩
    | relocations i =>
        rw [hs] at hspot
        simp only
        split
        · rename_i hi
          split
          · rename_i ht
            split
            · exact h.stop
            · rename_i hpass
              refine h.goto ⟨hi, ht, hpass, Nat.zero_le _⟩ fun _ _ _ _ _ _ => ?_
              rw [hs]
              trivial
          · refine h.goto hi fun _ _ _ _ _ _ => ?_
            rw [hs]
            trivial
        · exact h.stop
    | relocation i j =>
        rw [hs] at hspot
        obtain ⟨hi, ht, hpass, hj⟩ := hspot
        simp only
        split
        · rename_i hlt
          split
          · exact h.stop
          · refine ⟨⟨hi, ht, hpass, hlt⟩, fun t o hlive ho => ?_, fun i' hi' ht' j' hj' _ => ?_⟩
            · rw [← h.image t o hlive ho]
              exact loaderApplyRelocation_other
                (relocated_outside wf hsize hi ht (tableOk hpass).target hlt hlive ho)
            · apply h.located i' hi' ht' j' hj'
              rw [hs]
              trivial
        · refine h.goto hi fun _ _ _ _ _ _ => ?_
          rw [hs]
          trivial
  · exact h

/-- What is left of a load: the passes, the headers, and the entries. -/
def Spot.rest (f : Memory) : Spot → ℕ × ℕ × ℕ
  | .sections i => (2, (headers f).count - i, 0)
  | .symbols i => (1, (headers f).count - i, 2 ^ 64)
  | .symbol i j => (1, (headers f).count - i, (entries f i).count - j)
  | .relocations i => (0, (headers f).count - i, 2 ^ 64)
  | .relocation i j => (0, (headers f).count - i, (entries f i).count - j)

/-- The order in which a load goes on. -/
def Before : ℕ × ℕ × ℕ → ℕ × ℕ × ℕ → Prop := Prod.Lex (· < ·) (Prod.Lex (· < ·) (· < ·))

theorem before_wf : WellFounded Before :=
  (Prod.lex Nat.lt_wfRel (Prod.lex Nat.lt_wfRel Nat.lt_wfRel)).wf

theorem count_lt : (entries f i).count < 2 ^ 64 :=
  Nat.lt_of_le_of_lt (Nat.div_le_self _ _) (shSize f (header f i)).isLt

/-- An iteration stops the load or leaves less. -/
theorem Stage.Valid.advance_rest (h : s.Valid f) :
    (∃ pass e, s.advance strCmp f = s.stop pass e) ∨ (s.advance strCmp f).result = s.result ∧
      Before ((s.advance strCmp f).spot.rest f) (s.spot.rest f) := by
  unfold Stage.advance
  have hspot := h.spot
  cases hs : s.spot with
  | sections i =>
      simp only
      split
      · rename_i hi
        split
        · exact .inl ⟨_, _, rfl⟩
        · refine .inr ⟨rfl, .right _ (.left _ _ ?_)⟩
          omega
      · exact .inr ⟨rfl, .left _ _ (by decide)⟩
  | symbols i =>
      simp only
      split
      · rename_i hi
        split
        · split
          · exact .inl ⟨_, _, rfl⟩
          · exact .inr ⟨rfl, .right _ (.right _ (Nat.lt_of_le_of_lt (Nat.sub_le _ _) count_lt))⟩
        · refine .inr ⟨rfl, .right _ (.left _ _ ?_)⟩
          omega
      · exact .inr ⟨rfl, .left _ _ (by decide)⟩
  | symbol i j =>
      rw [hs] at hspot
      have hi := hspot.1
      simp only
      split
      · rename_i hj
        split
        · exact .inl ⟨_, _, rfl⟩
        · refine .inr ⟨rfl, .right _ (.right _ ?_)⟩
          omega
      · refine .inr ⟨rfl, .right _ (.left _ _ ?_)⟩
        omega
  | relocations i =>
      simp only
      split
      · rename_i hi
        split
        · split
          · exact .inl ⟨_, _, rfl⟩
          · exact .inr ⟨rfl, .right _ (.right _ (Nat.lt_of_le_of_lt (Nat.sub_le _ _) count_lt))⟩
        · refine .inr ⟨rfl, .right _ (.left _ _ ?_)⟩
          omega
      · exact .inl ⟨_, _, rfl⟩
  | relocation i j =>
      rw [hs] at hspot
      have hi := hspot.1
      simp only
      split
      · rename_i hj
        split
        · exact .inl ⟨_, _, rfl⟩
        · refine .inr ⟨rfl, .right _ (.right _ ?_)⟩
          omega
      · refine .inr ⟨rfl, .right _ (.left _ _ ?_)⟩
        omega

theorem Stage.run_succ (n : ℕ) (s : Stage) :
    s.run strCmp f (n + 1) = (s.run strCmp f n).next strCmp f := Function.iterate_succ_apply' _ _ _

theorem Stage.Valid.run (wf : WellFormed f size) (hsize : size < 2 ^ 64) (h : s.Valid f) (n : ℕ) :
    (s.run strCmp f n).Valid f := by
  induction n with
  | zero => exact h
  | succ n ih =>
      rw [Stage.run_succ]
      exact ih.next wf hsize

variable (strCmp) in
/-- **Every load stops**, after an iteration. -/
theorem Stage.Valid.stops (wf : WellFormed f size) (hsize : size < 2 ^ 64) (h : s.Valid f)
    (hresult : s.result = none) : ∃ n pass e, (s.run strCmp f n).result = none ∧
      s.run strCmp f (n + 1) = (s.run strCmp f n).stop pass e := by
  generalize hr : s.spot.rest f = rest
  induction rest using before_wf.induction generalizing s with
  | _ rest ih =>
      have hnext : s.next strCmp f = s.advance strCmp f := if_pos hresult
      rcases h.advance_rest with ⟨pass, e, hstop⟩ | ⟨hlive, hless⟩
      · exact ⟨0, pass, e, hresult, hnext.trans hstop⟩
      · rw [hresult, ← hnext] at hlive
        rw [hr, ← hnext] at hless
        obtain ⟨n, pass, e, hn, hn'⟩ := ih _ hless (h.next wf hsize) hlive rfl
        exact ⟨n + 1, pass, e, hn, hn'⟩

/-! ### Queries -/

/-- The addresses of the queries that have been filled since `queries` differ by `shift`. -/
inductive Shifted (shift : U64) :
    List LoaderSymbol → List LoaderSymbol → List LoaderSymbol → Prop
  | nil : Shifted shift [] [] []
  | same {q : LoaderSymbol} {queries queries₁ queries₂ : List LoaderSymbol} :
      Shifted shift queries queries₁ queries₂ →
        Shifted shift (q :: queries) (q :: queries₁) (q :: queries₂)
  | filled {q : LoaderSymbol} {a : Addr} {queries queries₁ queries₂ : List LoaderSymbol} :
      q.sDefined = 0 → Shifted shift queries queries₁ queries₂ →
        Shifted shift (q :: queries) (⟨a, 1, q.sName⟩ :: queries₁) (⟨a + shift, 1, q.sName⟩ :: queries₂)

theorem Shifted.refl (shift : U64) :
    ∀ queries : List LoaderSymbol, Shifted shift queries queries queries
  | [] => .nil
  | _ :: queries => .same (Shifted.refl shift queries)

theorem Shifted.define {shift value : U64} {name : Addr} {m : Memory}
    {queries queries₁ queries₂ : List LoaderSymbol} (h : Shifted shift queries queries₁ queries₂) :
    Shifted shift queries (defineQuery strCmp name value m queries₁)
      (defineQuery strCmp name (value + shift) m queries₂) := by
  induction h with
  | nil => exact .nil
  | @same q queries queries₁ queries₂ hrest ih =>
      unfold defineQuery
      split
      · exact .same ih
      · rename_i hq
        have hundef : q.sDefined = 0 := by
          by_contra hne
          exact hq (.inl hne)
        exact .filled hundef hrest
  | filled hundef hrest ih =>
      have hdefined : (1 : U8) ≠ 0 := by decide
      unfold defineQuery
      rw [if_pos (.inl hdefined), if_pos (.inl hdefined)]
      exact .filled hundef ih

/-- The queries of a load differ by the shift of the file. -/
theorem Stage.queries_next {base₁ base₂ : Addr} {queries : List LoaderSymbol}
    (h : Shifted (base₂ - base₁) queries (s.queries base₁) (s.queries base₂)) :
    Shifted (base₂ - base₁) queries ((s.next strCmp f).queries base₁)
      ((s.next strCmp f).queries base₂) := by
  have hanswered : ∀ i j, Shifted (base₂ - base₁) queries (s.answered strCmp f i j base₁)
      (s.answered strCmp f i j base₂) := by
    intro i j
    unfold Stage.answered
    split
    · have hvalue : base₂ + symbolOffset f i j = base₁ + symbolOffset f i j + (base₂ - base₁) := by
        rw [BitVec.add_comm, BitVec.add_comm base₁, BitVec.add_assoc, BitVec.add_comm base₁,
          BitVec.sub_add_cancel]
      simp only [hvalue]
      exact h.define
    · exact h
  unfold Stage.next Stage.advance
  split
  · cases s.spot with
    | sections i =>
        simp only
        split
        · split <;> exact h
        · exact h
    | symbols i =>
        simp only
        split
        · split
          · split <;> exact h
          · exact h
        · exact h
    | symbol i j =>
        simp only
        split
        · split
          · exact h
          · exact hanswered i j
        · exact h
    | relocations i =>
        simp only
        split
        · split
          · split <;> exact h
          · exact h
        · exact h
    | relocation i j =>
        simp only
        split
        · split <;> exact h
        · exact h
  · exact h

theorem Stage.queries_run {base₁ base₂ : Addr} {queries : List LoaderSymbol} (n : ℕ) :
    Shifted (base₂ - base₁) queries (((Stage.start f queries).run strCmp f n).queries base₁)
      (((Stage.start f queries).run strCmp f n).queries base₂) := by
  induction n with
  | zero => exact .refl _ queries
  | succ n ih =>
      rw [Stage.run_succ]
      exact Stage.queries_next ih

end valid

end KernelTk.Loader
