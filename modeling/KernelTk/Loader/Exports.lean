import Mathlib.Data.List.Forall2
import Mathlib.Order.WellFounded
import KernelTk.Loader.Values

/-! # The queries

The kernel asks for symbols of the file by their names. `loader_assign_symbols` fills a query with the
value of the first symbol that bears its name and is not null, be it located in the file or imported.

* **Property.** `QueriesReport` : a query reports the first symbol that the file itself defines
  (`Exported`, `Reported`), and the iteration at an import changes no query.
* **Names.** `NamesLookedUp` : as long as some query is not defined, the names of the symbols that may
  have a value (`MayFill`) end in their tables, and the sections of the located ones lie in the file.
* **Invariant.** `Filled` : what a query is, when the walk has come to a spot.  An iteration fills the
  query that bears the name of the symbol (`filled_next`), the names of the queries being distinct, and
  leaves a query that is defined (`answer_of_defined`).
* **Condition.** `ImportsCovered` : an import that has a definition and is asked for comes after a symbol of
  its name that is located in the file and is not null, so that the query is filled before.  It is a
  condition on the image, the definitions and the queries that the call is given;
  `Assigned.importsApart_iff` says that it is what the iterations at imports need to find no query to
  fill.
* **Theorem.** `queries_report_iff`, assembled in `Assigned.report_iff`.  `import_reported` is a file that
  imports `f` and a kernel that asks for `f`: it is given its own definition. -/

namespace KernelTk.Loader

section reports
variable (strCmp : Memory → Addr → List U8 → ℤ) (f : Memory) (base : Addr) (m₁ m₂ : Memory)
  (defs queries queries' : List LoaderSymbol)

/-- The order of the section table, then of the symbol tables. -/
def Precedes (p q : ℕ × ℕ) : Prop := p.1 < q.1 ∨ p.1 = q.1 ∧ p.2 < q.2

/-- The symbol is located in the file, bears the name, and its final value is not null. -/
structure Exported (p : ℕ × ℕ) (s : List U8) : Prop where
  symbol : SymbolIn f p
  located : located f (entry f p.1 p.2)
  name : BearsName f base m₁ p s
  value : syValue m₂ (symbolAt f base p) ≠ 0

/-- The query `q` has become `q'`. -/
structure Reported (q q' : LoaderSymbol) : Prop where
  name : q'.sName = q.sName
  kept : q.sDefined ≠ 0 → q' = q
  defined : q.sDefined = 0 → (q'.sDefined ≠ 0 ↔ ∃ p, Exported f base m₁ m₂ p q.sName)
  first : q.sDefined = 0 → ∀ p, Exported f base m₁ m₂ p q.sName →
    (∀ p', Exported f base m₁ m₂ p' q.sName → ¬Precedes p' p) →
      q'.sAddr = syValue m₂ (symbolAt f base p)

/-- The iterations of the symbols, from the image `m₁`. -/
def assigning (n : ℕ) : Config :=
  Config.run strCmp (envAt f base) defs n
    ⟨.assignSymbols (envAt f base).rShtable.tStart, m₁, queries⟩

/-- The queries report the symbols that the file defines; an import fills no query. -/
structure QueriesReport : Prop where
  reported : List.Forall₂ (Reported f base m₁ m₂) queries queries'
  imports : ∀ n p, SymbolIn f p → (assigning strCmp f base m₁ defs queries n).Assigns f base p →
    syShndx f (entry f p.1 p.2) = shnUndef →
      (assigning strCmp f base m₁ defs queries (n + 1)).queries =
        (assigning strCmp f base m₁ defs queries n).queries

/-- The symbol may be given a value that is not null. -/
def MayFill (p : ℕ × ℕ) : Prop :=
  located f (entry f p.1 p.2) ∨ syShndx f (entry f p.1 p.2) = shnUndef ∧ HasDefinition defs

/-- If there is something to report, the names that are looked up end in their tables, and the symbols
that are located are so in sections of the file. -/
def NamesLookedUp : Prop :=
  ∀ q ∈ queries, q.sDefined = 0 → ∀ p, SymbolIn f p →
    (MayFill f defs p → NameEnds f base m₁ p) ∧
      (located f (entry f p.1 p.2) → sectionOf f p.1 p.2 < (headers f).count)

/-- The address of a symbol that is located. -/
def locatedValue (p : ℕ × ℕ) : Addr :=
  syValue f (entry f p.1 p.2) + (base + shOffset f (header f (sectionOf f p.1 p.2)))

/-- An import that has a definition and is asked for comes after a symbol of its name that is located
in the file and is not null. -/
def ImportsCovered : Prop :=
  ∀ p s, SymbolIn f p → syShndx f (entry f p.1 p.2) = shnUndef → BearsName f base m₁ p s →
    definition defs s ≠ 0 → ∀ q ∈ queries, q.sDefined = 0 → q.sName = s →
      ∃ p', SymbolIn f p' ∧ located f (entry f p'.1 p'.2) ∧ BearsName f base m₁ p' s ∧
        locatedValue f base p' ≠ 0 ∧ Precedes p' p

/-- When an import that has a definition is assigned, no query that is not defined bears its name. -/
def ImportsApart : Prop :=
  ∀ n p s, SymbolIn f p → (assigning strCmp f base m₁ defs queries n).Assigns f base p →
    syShndx f (entry f p.1 p.2) = shnUndef → BearsName f base m₁ p s → definition defs s ≠ 0 →
      ∀ q ∈ (assigning strCmp f base m₁ defs queries n).queries, q.sDefined = 0 → q.sName ≠ s

end reports

/-! ### Filled queries -/

/-- What becomes of a query when a symbol is assigned. -/
def fill (s : List U8) (v : U64) (q : LoaderSymbol) : LoaderSymbol :=
  if v ≠ 0 ∧ q.sDefined = 0 ∧ q.sName = s then ⟨v, 1, q.sName⟩ else q

section fill
variable {strCmp : Memory → Addr → List U8 → ℤ} {m : Memory} {name : Addr} {s : List U8} {v : U64}
  {q : LoaderSymbol}

theorem fill_sName : (fill s v q).sName = q.sName := by
  unfold fill
  split <;> rfl

theorem fill_of_ne (h : q.sName ≠ s) : fill s v q = q := if_neg fun hq => h hq.2.2

theorem fill_of_defined (h : q.sDefined ≠ 0) : fill s v q = q := if_neg fun hq => h hq.2.1

theorem fill_zero : fill s 0 q = q := if_neg fun hq => hq.1 rfl

theorem map_fill_of_ne {queries : List LoaderSymbol} (h : ∀ q ∈ queries, q.sName ≠ s) :
    queries.map (fill s v) = queries :=
  (List.map_congr_left fun q hq => fill_of_ne (h q hq)).trans (List.map_id _)

/-- When names are distinct, the query that bears the name of the symbol is filled. -/
theorem answer_eq_map (hcmp : ComparesStrings strCmp) (h : HoldsString m name s)
    {queries : List LoaderSymbol} (hnames : ∀ q ∈ queries, 0 ∉ q.sName)
    (hnodup : (queries.map LoaderSymbol.sName).Nodup) :
    answer strCmp m name v queries = queries.map (fill s v) := by
  unfold answer
  by_cases hv : v = 0
  · subst hv
    rw [if_pos rfl]
    exact ((List.map_congr_left fun q _ => fill_zero).trans (List.map_id _)).symm
  · rw [if_neg hv]
    induction queries with
    | nil => rfl
    | cons q queries ih =>
        have hq := hcmp m name s q.sName h (hnames q List.mem_cons_self)
        obtain ⟨hnew, hrest⟩ := List.nodup_cons.mp hnodup
        unfold defineQuery
        rw [List.map_cons]
        by_cases hskip : q.sDefined ≠ 0 ∨ strCmp m name q.sName ≠ 0
        · have hother : fill s v q = q := by
            rcases hskip with hdefined | hne
            · exact fill_of_defined hdefined
            · exact fill_of_ne fun hs => hne (hq.mpr hs.symm)
          rw [if_pos hskip, hother,
            ih (fun q' hq' => hnames q' (List.mem_cons_of_mem _ hq')) hrest]
        · obtain ⟨hundefined, hsame⟩ := not_or.mp hskip
          have hs : q.sName = s := (hq.mp (not_not.mp hsame)).symm
          have hfill : fill s v q = ⟨v, 1, q.sName⟩ := if_pos ⟨hv, not_not.mp hundefined, hs⟩
          rw [if_neg hskip, hfill, map_fill_of_ne]
          intro q' hq' hs'
          exact hnew (List.mem_map.mpr ⟨q', hq', hs'.trans hs.symm⟩)

end fill

theorem answer_of_defined {strCmp : Memory → Addr → List U8 → ℤ} {m : Memory} {name : Addr} {v : U64}
    {queries : List LoaderSymbol} (h : ∀ q ∈ queries, q.sDefined ≠ 0) :
    answer strCmp m name v queries = queries := by
  unfold answer
  split
  · rfl
  · induction queries with
    | nil => rfl
    | cons q queries ih =>
        unfold defineQuery
        rw [if_pos (.inl (h q List.mem_cons_self)),
          ih fun q' hq' => h q' (List.mem_cons_of_mem _ hq')]

section filled
variable (f : Memory) (base : Addr) (m₁ : Memory)

/-- A symbol that is behind, bears the name and is not null. -/
structure Fills (spot : Spot) (m : Memory) (s : List U8) (p : ℕ × ℕ) : Prop where
  behind : spot.Behind f p
  name : BearsName f base m₁ p s
  value : Bytes.load m (valueWord f base p) 8 ≠ 0

/-- The query `q` has become `q'` when the walk has come to a spot. -/
structure Filled (spot : Spot) (m : Memory) (q q' : LoaderSymbol) : Prop where
  name : q'.sName = q.sName
  kept : q.sDefined ≠ 0 → q' = q
  empty : q.sDefined = 0 → (∀ p, ¬Fills f base m₁ spot m q.sName p) → q' = q
  filled : q.sDefined = 0 → ∀ p, Fills f base m₁ spot m q.sName p →
    (∀ p', Fills f base m₁ spot m q.sName p' → ¬Precedes p' p) →
      q'.sDefined ≠ 0 ∧ q'.sAddr = Bytes.load m (valueWord f base p) 8

variable {f base m₁} {strCmp : Memory → Addr → List U8 → ℤ} {m m' : Memory} {size : ℕ}
  {defs queries : List LoaderSymbol} {spot spot' : Spot} {c c' : Config} {p : ℕ × ℕ} {s s' : List U8}
  {q q' : LoaderSymbol} {v : U64}

theorem Filled.congr (h : Filled f base m₁ spot m q q')
    (hfills : ∀ p, Fills f base m₁ spot' m' q.sName p ↔ Fills f base m₁ spot m q.sName p)
    (hload : ∀ p, spot.Behind f p →
      Bytes.load m' (valueWord f base p) 8 = Bytes.load m (valueWord f base p) 8) :
    Filled f base m₁ spot' m' q q' := by
  refine ⟨h.name, h.kept, fun hq hnone => ?_, fun hq p hp hfirst => ?_⟩
  · exact h.empty hq fun p hp => hnone p ((hfills p).mpr hp)
  · have hold := (hfills p).mp hp
    rw [hload p hold.behind]
    exact h.filled hq p hold fun p' hp' => hfirst p' ((hfills p').mpr hp')

/-- The symbol `p` has been assigned. -/
theorem Filled.fill (h : Filled f base m₁ (.symbol p.1 p.2) m q q')
    (hfills : ∀ p', Fills f base m₁ spot' m' q.sName p' ↔
      Fills f base m₁ (.symbol p.1 p.2) m q.sName p' ∨
        p' = p ∧ q.sName = s ∧ Bytes.load m' (valueWord f base p) 8 ≠ 0)
    (hload : ∀ p', (Spot.symbol p.1 p.2).Behind f p' →
      Bytes.load m' (valueWord f base p') 8 = Bytes.load m (valueWord f base p') 8) :
    Filled f base m₁ spot' m' q (Loader.fill s (Bytes.load m' (valueWord f base p) 8) q') := by
  refine ⟨fill_sName.trans h.name, fun hq => ?_, fun hq hnone => ?_, fun hq p' hp' hfirst => ?_⟩
  · rw [h.kept hq]
    exact fill_of_defined hq
  · rw [h.empty hq fun p' hp' => hnone p' ((hfills p').mpr (.inl hp'))]
    apply if_neg
    rintro ⟨hvalue, -, hs⟩
    exact hnone p ((hfills p).mpr (.inr ⟨rfl, hs, hvalue⟩))
  · rcases (hfills p').mp hp' with hold | ⟨rfl, hs, hvalue⟩
    · obtain ⟨hdefined, haddress⟩ := h.filled hq p' hold fun p'' hp'' =>
        hfirst p'' ((hfills p'').mpr (.inl hp''))
      rw [fill_of_defined hdefined, hload p' hold.behind]
      exact ⟨hdefined, haddress⟩
    · have hnone : ∀ p'', ¬Fills f base m₁ (.symbol p'.1 p'.2) m q.sName p'' := fun p'' hp'' =>
        hfirst p'' ((hfills p'').mpr (.inl hp'')) hp''.behind.2
      rw [h.empty hq hnone, Loader.fill, if_pos ⟨hvalue, hq, hs⟩]
      exact ⟨fun h0 => absurd h0 (by decide : (1 : U8) ≠ 0), rfl⟩

theorem fills_after (hadv : Advances strCmp f base m₁ defs spot c c') :
    Fills f base m₁ (spot.after f) c'.memory s p ↔ Fills f base m₁ spot c.memory s p ∨
      SymbolIn f p ∧ spot = .symbol p.1 p.2 ∧ BearsName f base m₁ p s ∧
        Bytes.load c'.memory (valueWord f base p) 8 ≠ 0 := by
  constructor
  · intro h
    rcases behind_after.mp h.behind with hold | ⟨hp, hspot⟩
    · exact .inl ⟨hold, h.name, by rw [← hadv.kept p hold]; exact h.value⟩
    · exact .inr ⟨hp, hspot, h.name, h.value⟩
  · rintro (h | ⟨hp, hspot, hname, hvalue⟩)
    · exact ⟨behind_after.mpr (.inl h.behind), h.name, by rw [hadv.kept p h.behind]; exact h.value⟩
    · exact ⟨behind_after.mpr (.inr ⟨hp, hspot⟩), hname, hvalue⟩

theorem filled_names (h : List.Forall₂ (Filled f base m₁ spot m) queries c.queries) :
    c.queries.map LoaderSymbol.sName = queries.map LoaderSymbol.sName := by
  generalize c.queries = queries' at h
  induction h with
  | nil => rfl
  | cons hq _ ih => rw [List.map_cons, List.map_cons, hq.name, ih]

theorem names_of_map {queries' : List LoaderSymbol}
    (hmap : queries'.map LoaderSymbol.sName = queries.map LoaderSymbol.sName)
    (hnames : ∀ q ∈ queries, 0 ∉ q.sName) : ∀ q ∈ queries', 0 ∉ q.sName := by
  intro q hq
  have hmem : q.sName ∈ queries.map LoaderSymbol.sName := by
    rw [← hmap]
    exact List.mem_map_of_mem hq
  obtain ⟨q', hq', heq⟩ := List.mem_map.mp hmem
  rw [← heq]
  exact hnames q' hq'

/-- A symbol that is not null has been located, or has a definition. -/
theorem AssignedValue.mayFill (h : AssignedValue f base m₁ defs p v) (hv : v ≠ 0) :
    MayFill f defs p := by
  by_contra hno
  obtain ⟨hlocated, himport⟩ := not_or.mp hno
  by_cases hundef : syShndx f (entry f p.1 p.2) = shnUndef
  · exact hv (h.undefined hundef fun hdefs => himport ⟨hundef, hdefs⟩)
  · exact hv (h.reserved hundef hlocated)

/-- **An iteration fills the query that bears the name of the symbol.** -/
theorem filled_next (hadv : Advances strCmp f base m₁ defs spot c c')
    (hnamed : ∀ p, SymbolIn f p → MayFill f defs p → ∃ s, BearsName f base m₁ p s)
    (hcmp : ComparesStrings strCmp) (hnames : ∀ q ∈ queries, 0 ∉ q.sName)
    (hnodup : (queries.map LoaderSymbol.sName).Nodup)
    (h : List.Forall₂ (Filled f base m₁ spot c.memory) queries c.queries) :
    List.Forall₂ (Filled f base m₁ (spot.after f) c'.memory) queries c'.queries := by
  by_cases hsymbol : ∃ p, SymbolIn f p ∧ spot = .symbol p.1 p.2 ∧
      Bytes.load c'.memory (valueWord f base p) 8 ≠ 0
  · obtain ⟨p, hp, rfl, hvalue⟩ := hsymbol
    have hbehind : ((Spot.symbol p.1 p.2).after f).Behind f p := behind_after.mpr (.inr ⟨hp, rfl⟩)
    obtain ⟨s, hs⟩ := hnamed p hp ((hadv.walked.values p hbehind).mayFill hvalue)
    obtain ⟨name, hanswer, hstring⟩ := hadv.answers p hp rfl
    have hmap := filled_names h
    rw [hanswer, answer_eq_map hcmp (hstring s hs) (names_of_map hmap hnames)
      (by rw [hmap]; exact hnodup), List.forall₂_map_right_iff]
    refine h.imp fun q q' hq => hq.fill (fun p' => ?_) hadv.kept
    rw [fills_after hadv]
    refine or_congr_right ⟨?_, ?_⟩
    · rintro ⟨-, hspot, hname, hvalue'⟩
      obtain rfl : p' = p := by
        injection hspot with hi hj
        exact Prod.ext hi.symm hj.symm
      exact ⟨rfl, hname.unique hs, hvalue'⟩
    · rintro ⟨rfl, hq, hvalue'⟩
      exact ⟨hp, rfl, hq ▸ hs, hvalue'⟩
  · have hnone : ∀ p, SymbolIn f p → spot = .symbol p.1 p.2 →
        Bytes.load c'.memory (valueWord f base p) 8 = 0 := fun p hp hspot =>
      not_not.mp fun hvalue => hsymbol ⟨p, hp, hspot, hvalue⟩
    have hqueries : c'.queries = c.queries := by
      by_cases hat : ∃ p, SymbolIn f p ∧ spot = .symbol p.1 p.2
      · obtain ⟨p, hp, hspot⟩ := hat
        obtain ⟨name, hanswer, -⟩ := hadv.answers p hp hspot
        rw [hanswer, hnone p hp hspot]
        exact if_pos rfl
      · exact hadv.silent fun p hp hspot => hat ⟨p, hp, hspot⟩
    rw [hqueries]
    refine h.imp fun q q' hq => hq.congr (fun p => ?_) hadv.kept
    rw [fills_after hadv]
    exact or_iff_left fun hnew => hnew.2.2.2 (hnone p hnew.1 hnew.2.1)

end filled

/-! ### The end of the walk -/

section iff
variable {strCmp : Memory → Addr → List U8 → ℤ} {f m₁ m₂ : Memory} {base : Addr} {size n k l : ℕ}
  {defs queries queries' : List LoaderSymbol} {c : Config} {p : ℕ × ℕ} {s : List U8}

theorem forall₂_exists {α β : Type} {R : α → β → Prop} {as : List α} {bs : List β}
    (h : List.Forall₂ R as bs) {a : α} (ha : a ∈ as) : ∃ b ∈ bs, R a b := by
  induction h with
  | nil => cases ha
  | cons hr _ ih =>
      rcases List.mem_cons.mp ha with rfl | ha
      · exact ⟨_, List.mem_cons_self, hr⟩
      · obtain ⟨b, hb, hrest⟩ := ih ha
        exact ⟨b, List.mem_cons_of_mem _ hb, hrest⟩

theorem exists_first {P : ℕ × ℕ → Prop} (h : ∃ p, P p) : ∃ p, P p ∧ ∀ p', P p' → ¬Precedes p' p := by
  obtain ⟨p, hp, hfirst⟩ := (Prod.lex Nat.lt_wfRel Nat.lt_wfRel).wf.has_min {p | P p} h
  exact ⟨p, hp, fun p' hp' hlt => hfirst p' hp' (Prod.lex_def.mpr hlt)⟩

theorem Completed.behind_mono (hp : SymbolIn f p) (hk : (spotAt f k).Behind f p) (hl : k ≤ l) :
    (spotAt f l).Behind f p := by
  obtain ⟨i, hi, hspot⟩ := (past_iff_visited hp k).mp hk.2
  exact ⟨hp, (past_iff_visited hp l).mpr ⟨i, Nat.lt_of_lt_of_le hi hl, hspot⟩⟩

/-- The value of a symbol that is behind is not changed. -/
theorem Completed.load_kept (h : Completed strCmp f base m₁ defs c n) (hn : l ≤ n) (hl : k ≤ l)
    (hk : (spotAt f k).Behind f p) :
    Bytes.load (c.run strCmp (envAt f base) defs l).memory (valueWord f base p) 8 =
      Bytes.load (c.run strCmp (envAt f base) defs k).memory (valueWord f base p) 8 := by
  induction l, hl using Nat.le_induction with
  | base => rfl
  | succ l hkl ih =>
      rw [(h.advances l hn).kept p (behind_mono hk.1 hk hkl)]
      exact ih (Nat.le_of_succ_le hn)

theorem Completed.filled (h : Completed strCmp f base m₁ defs c n)
    (hnamed : ∀ p, SymbolIn f p → MayFill f defs p → ∃ s, BearsName f base m₁ p s)
    (hcmp : ComparesStrings strCmp) (hnames : ∀ q ∈ c.queries, 0 ∉ q.sName)
    (hnodup : (c.queries.map LoaderSymbol.sName).Nodup) :
    ∀ k ≤ n, List.Forall₂ (Filled f base m₁ (spotAt f k) (c.run strCmp (envAt f base) defs k).memory)
      c.queries (c.run strCmp (envAt f base) defs k).queries := by
  intro k
  induction k with
  | zero =>
      intro _
      refine List.forall₂_same.mpr fun q _ => ⟨rfl, fun _ => rfl, fun _ _ => rfl, fun _ p hp => ?_⟩
      exact absurd hp.behind.2 (Nat.not_lt_zero _)
  | succ k ih =>
      intro hk
      have hnext := filled_next (h.advances k hk) hnamed hcmp hnames hnodup (ih (Nat.le_of_succ_le hk))
      rwa [← spotAt_succ] at hnext

/-- When every query is defined, no iteration changes the queries. -/
theorem Completed.queries_kept (h : Completed strCmp f base m₁ defs c n)
    (hdefined : ∀ q ∈ c.queries, q.sDefined ≠ 0) :
    ∀ k ≤ n, (c.run strCmp (envAt f base) defs k).queries = c.queries := by
  intro k
  induction k with
  | zero => exact fun _ => rfl
  | succ k ih =>
      intro hk
      have hold := ih (Nat.le_of_succ_le hk)
      by_cases hat : ∃ p, SymbolIn f p ∧ spotAt f k = .symbol p.1 p.2
      · obtain ⟨p, hp, hspot⟩ := hat
        obtain ⟨name, hanswer, -⟩ := (h.advances k hk).answers p hp hspot
        rw [hanswer, hold, answer_of_defined hdefined]
      · rw [(h.advances k hk).silent fun p hp hspot => hat ⟨p, hp, hspot⟩, hold]

theorem Completed.assigns_lt (ht : SymbolTables f size) (hsize : base.toNat + size < 2 ^ 64)
    (h : Completed strCmp f base m₁ defs c n)
    (hk : (c.run strCmp (envAt f base) defs k).Assigns f base p) : k < n := by
  by_contra hle
  obtain ⟨l, rfl⟩ := Nat.exists_eq_add_of_le (Nat.le_of_not_lt hle)
  have hend := (h.walked n (Nat.le_refl n)).reached
  rw [h.last] at hend
  rw [Config.run_add] at hk
  generalize c.run strCmp (envAt f base) defs n = c' at hend hk
  obtain ⟨point, m, queries⟩ := c'
  obtain rfl : point = .applyRelocations (sectionAt f base 0) := hend
  obtain ⟨shdr, symtable, strTable, hpoint, -⟩ := hk
  cases l with
  | zero => cases hpoint
  | succ l =>
      have hstep : (Config.step strCmp (envAt f base) defs
          ⟨.applyRelocations (sectionAt f base 0), m, queries⟩).PastFirst f base :=
        Config.pastFirst_step ht hsize (Nat.zero_le _)
      have hpast : (Config.run strCmp (envAt f base) defs (l + 1)
          ⟨.applyRelocations (sectionAt f base 0), m, queries⟩).PastFirst f base :=
        hstep.run ht hsize l
      rw [Config.PastFirst, hpoint] at hpast
      exact hpast

/-- What is asked of a pass over the symbols that does not fail. -/
structure Assigned (strCmp : Memory → Addr → List U8 → ℤ) (f : Memory) (base : Addr) (size : ℕ)
    (m₁ : Memory) (defs queries : List LoaderSymbol) (n : ℕ) : Prop where
  tables : SymbolTables f size
  fits : base.toNat + size < 2 ^ 64
  compares : ComparesStrings strCmp
  names : ∀ q ∈ queries, 0 ∉ q.sName
  nodup : (queries.map LoaderSymbol.sName).Nodup
  named : ∀ p, SymbolIn f p → MayFill f defs p → ∃ s, BearsName f base m₁ p s
  inFile : ∀ p, SymbolIn f p → located f (entry f p.1 p.2) →
    sectionOf f p.1 p.2 < (headers f).count
  completed : Completed strCmp f base m₁ defs ⟨.assignSymbols (sectionAt f base 0), m₁, queries⟩ n

section assigned
variable (h : Assigned strCmp f base size m₁ defs queries n)

include h

theorem Assigned.walked (hk : k ≤ n) : Walked f base m₁ defs (spotAt f k)
    (assigning strCmp f base m₁ defs queries k) :=
  h.completed.walked k hk

theorem Assigned.advances (hk : k < n) : Advances strCmp f base m₁ defs (spotAt f k)
    (assigning strCmp f base m₁ defs queries k) (assigning strCmp f base m₁ defs queries (k + 1)) :=
  h.completed.advances k hk

theorem Assigned.filled (hk : k ≤ n) : List.Forall₂ (Filled f base m₁ (spotAt f k)
    (assigning strCmp f base m₁ defs queries k).memory) queries
      (assigning strCmp f base m₁ defs queries k).queries :=
  h.completed.filled h.named h.compares h.names h.nodup k hk

theorem Assigned.import_fills (hp : SymbolIn f p)
    (hassigns : (assigning strCmp f base m₁ defs queries k).Assigns f base p)
    (hundef : syShndx f (entry f p.1 p.2) = shnUndef) (hs : BearsName f base m₁ p s) :
    (assigning strCmp f base m₁ defs queries (k + 1)).queries =
      (assigning strCmp f base m₁ defs queries k).queries.map (fill s (definition defs s)) := by
  have hk := h.completed.assigns_lt h.tables h.fits hassigns
  have hspot := ((h.walked (Nat.le_of_lt hk)).assigns_iff h.tables h.fits hp).mp hassigns
  have hbehind : (spotAt f (k + 1)).Behind f p := by
    rw [spotAt_succ, behind_after]
    exact .inr ⟨hp, hspot⟩
  obtain ⟨name, hanswer, hstring⟩ := (h.advances hk).answers p hp hspot
  have hmap := filled_names (h.filled (Nat.le_of_lt hk))
  rw [((h.walked hk).values p hbehind).imported hundef s hs] at hanswer
  rw [hanswer, answer_eq_map h.compares (hstring s hs) (names_of_map hmap h.names)
    (by rw [hmap]; exact h.nodup)]

/-- An import that can have no definition fills no query. -/
theorem Assigned.import_silent (hp : SymbolIn f p)
    (hassigns : (assigning strCmp f base m₁ defs queries k).Assigns f base p)
    (hundef : syShndx f (entry f p.1 p.2) = shnUndef) (hnone : ¬HasDefinition defs) :
    (assigning strCmp f base m₁ defs queries (k + 1)).queries =
      (assigning strCmp f base m₁ defs queries k).queries := by
  have hk := h.completed.assigns_lt h.tables h.fits hassigns
  have hspot := ((h.walked (Nat.le_of_lt hk)).assigns_iff h.tables h.fits hp).mp hassigns
  have hbehind : (spotAt f (k + 1)).Behind f p := by
    rw [spotAt_succ, behind_after]
    exact .inr ⟨hp, hspot⟩
  obtain ⟨name, hanswer, -⟩ := (h.advances hk).answers p hp hspot
  rw [hanswer, ((h.walked hk).values p hbehind).undefined hundef hnone]
  exact if_pos rfl

theorem Assigned.first_located (hapart : ImportsApart strCmp f base m₁ defs queries) (hl : l ≤ n)
    {q : LoaderSymbol} (hq : q ∈ queries) (hundefined : q.sDefined = 0)
    (hp : Fills f base m₁ (spotAt f l) (assigning strCmp f base m₁ defs queries l).memory q.sName p)
    (hfirst : ∀ p', Fills f base m₁ (spotAt f l) (assigning strCmp f base m₁ defs queries l).memory
      q.sName p' → ¬Precedes p' p) : located f (entry f p.1 p.2) := by
  have hvalue := (h.walked hl).values p hp.behind
  by_contra hlocated
  by_cases hundef : syShndx f (entry f p.1 p.2) = shnUndef
  · obtain ⟨k, hkl, hspot⟩ := (past_iff_visited hp.behind.1 l).mp hp.behind.2
    have hk : k < n := Nat.lt_of_lt_of_le hkl hl
    have hassigns := ((h.walked (Nat.le_of_lt hk)).assigns_iff h.tables h.fits hp.behind.1).mpr hspot
    have hdef : definition defs q.sName ≠ 0 := by
      rw [← hvalue.imported hundef q.sName hp.name]
      exact hp.value
    -- No symbol has filled the query when the import is assigned.
    have hnone : ∀ p', ¬Fills f base m₁ (spotAt f k)
        (assigning strCmp f base m₁ defs queries k).memory q.sName p' := by
      intro p' hp'
      refine hfirst p' ⟨Completed.behind_mono hp'.behind.1 hp'.behind (Nat.le_of_lt hkl), hp'.name,
        ?_⟩ ?_
      · have hkept := h.completed.load_kept hl (Nat.le_of_lt hkl) hp'.behind
        exact hkept ▸ hp'.value
      · have hbehind := hp'.behind.2
        rw [hspot] at hbehind
        exact hbehind
    obtain ⟨q', hq', hfilled⟩ := forall₂_exists (h.filled (Nat.le_of_lt hk)) hq
    rw [hfilled.empty hundefined hnone] at hq'
    exact hapart k p q.sName hp.behind.1 hassigns hundef hp.name hdef q hq' hundefined rfl
  · exact hp.value (hvalue.reserved hundef hlocated)

/-- When imports do not fill queries, a query reports the first symbol that the file defines. -/
theorem Assigned.reported (hapart : ImportsApart strCmp f base m₁ defs queries)
    {q q' : LoaderSymbol} (hq : q ∈ queries)
    (hfilled : Filled f base m₁ (spotAt f n) (assigning strCmp f base m₁ defs queries n).memory q q') :
    Reported f base m₁ (assigning strCmp f base m₁ defs queries n).memory q q' := by
  have hfills : ∀ p, Exported f base m₁ (assigning strCmp f base m₁ defs queries n).memory p q.sName →
      Fills f base m₁ (spotAt f n) (assigning strCmp f base m₁ defs queries n).memory q.sName p := by
    intro p hp
    refine ⟨⟨hp.symbol, ?_⟩, hp.name, hp.value⟩
    rw [h.completed.last]
    trivial
  refine ⟨hfilled.name, hfilled.kept, fun hundefined => ⟨fun hdefined => ?_, ?_⟩,
    fun hundefined p hp hfirst => ?_⟩
  · by_cases hnone : ∃ p, Fills f base m₁ (spotAt f n)
        (assigning strCmp f base m₁ defs queries n).memory q.sName p
    · obtain ⟨p, hp, hfirst⟩ := exists_first hnone
      exact ⟨p, hp.behind.1, h.first_located hapart (Nat.le_refl n) hq hundefined hp hfirst, hp.name,
        hp.value⟩
    · rw [hfilled.empty hundefined fun p hp => hnone ⟨p, hp⟩] at hdefined
      exact absurd hundefined hdefined
  · rintro ⟨p, hp⟩
    obtain ⟨p', hp', hfirst⟩ := exists_first ⟨p, hfills p hp⟩
    exact (hfilled.filled hundefined p' hp' hfirst).1
  · obtain ⟨p', hp', hfirst'⟩ := exists_first ⟨p, hfills p hp⟩
    have hexported : Exported f base m₁ (assigning strCmp f base m₁ defs queries n).memory p' q.sName :=
      ⟨hp'.behind.1, h.first_located hapart (Nat.le_refl n) hq hundefined hp' hfirst', hp'.name, hp'.value⟩
    have hsame : p' = p := by
      have hnot := hfirst p' hexported
      have hnot' := hfirst' p (hfills p hp)
      unfold Precedes at hnot hnot'
      exact Prod.ext (by omega) (by omega)
    rw [← hsame]
    exact (hfilled.filled hundefined p' hp' hfirst').2

/-- When an import finds no query to fill, the query that asks for it has been filled by a symbol of the
file. -/
theorem Assigned.importsCovered (hapart : ImportsApart strCmp f base m₁ defs queries) :
    ImportsCovered f base m₁ defs queries := by
  rintro p s hp hundef hs hdef q hq hundefined rfl
  have hlast : (spotAt f n).PastSymbol p.1 p.2 := by
    rw [h.completed.last]
    trivial
  obtain ⟨k, hk, hspot⟩ := (past_iff_visited hp n).mp hlast
  have hwalked := h.walked (Nat.le_of_lt hk)
  obtain ⟨q', hq', hfilled⟩ := forall₂_exists (h.filled (Nat.le_of_lt hk)) hq
  have hfills : ∃ p', Fills f base m₁ (spotAt f k)
      (assigning strCmp f base m₁ defs queries k).memory q.sName p' := by
    by_contra hnone
    rw [hfilled.empty hundefined fun p' hp' => hnone ⟨p', hp'⟩] at hq'
    exact hapart k p q.sName hp ((hwalked.assigns_iff h.tables h.fits hp).mpr hspot) hundef hs hdef q
      hq' hundefined rfl
  obtain ⟨p', hp', hfirst⟩ := exists_first hfills
  have hlocated := h.first_located hapart (Nat.le_of_lt hk) hq hundefined hp' hfirst
  have hvalue := (hwalked.values p' hp'.behind).located hlocated
    (h.inFile p' hp'.behind.1 hlocated)
  refine ⟨p', hp'.behind.1, hlocated, hp'.name, fun hzero => hp'.value (hvalue.2.trans hzero), ?_⟩
  have hpast := hp'.behind.2
  rw [hspot] at hpast
  exact hpast

theorem Assigned.importsApart (hcovered : ImportsCovered f base m₁ defs queries) :
    ImportsApart strCmp f base m₁ defs queries := by
  intro k p s hp hassigns hundef hs hdef q' hq' hundefined' hname
  have hk := h.completed.assigns_lt h.tables h.fits hassigns
  have hwalked := h.walked (Nat.le_of_lt hk)
  have hspot := (hwalked.assigns_iff h.tables h.fits hp).mp hassigns
  obtain ⟨q, hq, hfilled⟩ := forall₂_exists (h.filled (Nat.le_of_lt hk)).flip hq'
  have hfilled : Filled f base m₁ (spotAt f k)
    (assigning strCmp f base m₁ defs queries k).memory q q' := hfilled
  have hundefined : q.sDefined = 0 := by
    by_contra hdefined
    rw [hfilled.kept hdefined] at hundefined'
    exact hdefined hundefined'
  obtain ⟨p', hp', hlocated, hs', hvalue, hpast⟩ :=
    hcovered p s hp hundef hs hdef q hq hundefined (hfilled.name.symm.trans hname)
  have hbehind : (spotAt f k).Behind f p' := by
    rw [hspot]
    exact ⟨hp', hpast⟩
  have hfills : Fills f base m₁ (spotAt f k)
      (assigning strCmp f base m₁ defs queries k).memory q.sName p' := by
    refine ⟨hbehind, hfilled.name.symm.trans hname ▸ hs', fun hzero => hvalue ?_⟩
    exact (((hwalked.values p' hbehind).located hlocated (h.inFile p' hp' hlocated)).2).symm.trans
      hzero
  obtain ⟨p'', hp'', hfirst⟩ := exists_first ⟨p', hfills⟩
  exact (hfilled.filled hundefined p'' hp'' hfirst).1 hundefined'

/-- The imports answer no query iff those that are asked for come after a symbol of the file. -/
theorem Assigned.importsApart_iff :
    ImportsApart strCmp f base m₁ defs queries ↔ ImportsCovered f base m₁ defs queries :=
  ⟨h.importsCovered, h.importsApart⟩

/-- **The queries report what the file defines** iff imports answer none. -/
theorem Assigned.report_iff :
    QueriesReport strCmp f base m₁ (assigning strCmp f base m₁ defs queries n).memory defs queries
        (assigning strCmp f base m₁ defs queries n).queries ↔
      ImportsApart strCmp f base m₁ defs queries := by
  constructor
  · intro hreport k p s hp hassigns hundef hs hdef q hq hundefined hname
    have hsame := h.import_fills hp hassigns hundef hs
    rw [hreport.imports k p hp hassigns hundef] at hsame
    have hfixed := List.map_inj_left.mp (hsame.symm.trans (List.map_id _).symm) q hq
    rw [fill, if_pos ⟨hdef, hundefined, hname⟩] at hfixed
    have hdefined := congrArg LoaderSymbol.sDefined hfixed
    exact absurd (hdefined.trans hundefined) (by decide : (1 : U8) ≠ 0)
  · intro hapart
    refine ⟨?_, fun k p hp hassigns hundef => ?_⟩
    · refine ((List.forall₂_and_left _ _).mpr ⟨fun q hq => hq, h.filled (Nat.le_refl n)⟩).imp ?_
      exact fun q q' hq => h.reported hapart hq.1 hq.2
    · by_cases hdefs : HasDefinition defs
      · obtain ⟨s, hs⟩ := h.named p hp (.inr ⟨hundef, hdefs⟩)
        rw [h.import_fills hp hassigns hundef hs]
        refine (List.map_congr_left fun q hq => ?_).trans (List.map_id _)
        by_cases hdef : definition defs s = 0
        · rw [hdef]
          exact fill_zero
        · by_cases hundefined : q.sDefined = 0
          · exact fill_of_ne (hapart k p s hp hassigns hundef hs hdef q hq hundefined)
          · exact fill_of_defined hundefined
      · exact h.import_silent hp hassigns hundef hdefs

end assigned

end iff

instance {f m₁ : Memory} {base : Addr} {defs queries : List LoaderSymbol} :
    Decidable (NamesLookedUp f base m₁ defs queries) :=
  inferInstanceAs (Decidable (∀ q ∈ queries, q.sDefined = 0 → ∀ p, SymbolIn f p →
    ((located f (entry f p.1 p.2) ∨ syShndx f (entry f p.1 p.2) = shnUndef ∧
      ∃ d ∈ defs, d.sDefined ≠ 0 ∧ d.sAddr ≠ 0) → NameEnds f base m₁ p) ∧
    (located f (entry f p.1 p.2) → sectionOf f p.1 p.2 < (headers f).count)))

end KernelTk.Loader
