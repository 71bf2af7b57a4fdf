import KernelTk.Loader.Tables

/-! # The walk over the symbols

`loader_assign_symbols` goes through the symbol tables of an image in order, and through the symbols
of each; it comes once to every symbol.  This module has what the walk is compared with: where it is,
and what it should leave.

* **Spots.** `spotAt f n` : where the walk is after `n` iterations that pass their checks.  The symbols
  behind it are those that it has come to (`past_iff_visited`), and it comes to a symbol once
  (`visit_unique`).
* **Names.** A name is a string that ends in the string table that `sh_link` designates (`BearsName`).
  The loader looks names up elsewhere when `sh_link` has more than 16 bits, and beyond their table when
  they do not end there: `ComparedAs p t` says that the symbol `p` is looked up under the string `t`,
  whatever values the symbols have, because no value of a symbol is among the bytes that are read
  (`Settled`).
* **Values.** `ValueOf` : what the value of a symbol must be.  `AssignedValue` : what the loader makes of
  it, the string that is looked up being the name or not.
* **Definitions.** `definition defs s` is the address of the first symbol of the list that is defined and
  bears the name, or 0; `symDefFind` finds it where `str_cmp` compares strings (`symDefFind_eq`), and finds
  nothing where no definition has an address (`symDefFind_eq_zero`). -/

namespace KernelTk.Loader

open Sweep (check firstFailure)

/-! ### Spots -/

section spots
variable (f : Memory)

/-- The next spot. -/
def Spot.after : Spot → Spot
  | .symbols i =>
      if i < (headers f).count then
        if shType f (header f i) = shtSymtab then .symbol i 0 else .symbols (i + 1)
      else .relocations 0
  | .symbol i j => if j < (entries f i).count then .symbol i (j + 1) else .symbols (i + 1)
  | spot => spot

def spotAt (n : ℕ) : Spot := (Spot.after f)^[n] (.symbols 0)

/-- The symbol is behind. -/
def Spot.Behind (spot : Spot) (p : ℕ × ℕ) : Prop := SymbolIn f p ∧ spot.PastSymbol p.1 p.2

variable {f} {n k : ℕ} {p : ℕ × ℕ} {spot : Spot}

theorem spotAt_succ : spotAt f (n + 1) = (spotAt f n).after f := Function.iterate_succ_apply' _ _ _

theorem not_past_self : ¬(Spot.symbol p.1 p.2).PastSymbol p.1 p.2 := by
  rintro (h | ⟨-, h⟩) <;> exact Nat.lt_irrefl _ h

theorem past_after (hp : SymbolIn f p) :
    (spot.after f).PastSymbol p.1 p.2 ↔ spot.PastSymbol p.1 p.2 ∨ spot = .symbol p.1 p.2 := by
  obtain ⟨hi, ht, hj⟩ := hp
  cases spot with
  | sections i => exact ⟨fun h => h.elim, fun h => h.elim id fun h => by cases h⟩
  | symbols i =>
      have hno : Spot.symbols i ≠ .symbol p.1 p.2 := by rintro ⟨⟩
      rw [or_iff_left hno]
      rw [Spot.after]
      split
      · split
        · exact ⟨fun h => h.elim id fun h => absurd h.2 (Nat.not_lt_zero _), .inl⟩
        · rename_i hother
          constructor
          · intro h
            rcases Nat.lt_succ_iff_lt_or_eq.mp h with h | h
            · exact h
            · rw [h] at ht
              exact absurd ht hother
          · exact fun h => Nat.lt_succ_of_lt h
      · rename_i hlast
        refine ⟨fun _ => ?_, fun _ => trivial⟩
        show p.1 < i
        omega
  | symbol i j =>
      have heq : Spot.symbol i j = .symbol p.1 p.2 ↔ p.1 = i ∧ p.2 = j := by
        rw [Spot.symbol.injEq]
        exact and_congr eq_comm eq_comm
      rw [heq]
      rw [Spot.after]
      split
      · show p.1 < i ∨ p.1 = i ∧ p.2 < j + 1 ↔ (p.1 < i ∨ p.1 = i ∧ p.2 < j) ∨ p.1 = i ∧ p.2 = j
        omega
      · rename_i hlast
        have hrow : p.1 = i → p.2 < j := by
          rintro rfl
          omega
        show p.1 < i + 1 ↔ (p.1 < i ∨ p.1 = i ∧ p.2 < j) ∨ p.1 = i ∧ p.2 = j
        omega
  | relocations i => exact ⟨.inl, fun _ => trivial⟩
  | relocation i j => exact ⟨.inl, fun _ => trivial⟩

theorem behind_after : (spot.after f).Behind f p ↔
    spot.Behind f p ∨ SymbolIn f p ∧ spot = .symbol p.1 p.2 := by
  unfold Spot.Behind
  rw [← and_or_left]
  exact and_congr_right fun hp => past_after hp

/-- The symbols that are behind are those that the walk has come to. -/
theorem past_iff_visited (hp : SymbolIn f p) : ∀ n : ℕ, (spotAt f n).PastSymbol p.1 p.2 ↔
    ∃ k < n, spotAt f k = .symbol p.1 p.2 := by
  intro n
  induction n with
  | zero => exact ⟨fun h => absurd h (Nat.not_lt_zero _), fun ⟨k, hk, _⟩ => absurd hk (Nat.not_lt_zero _)⟩
  | succ n ih =>
      rw [spotAt_succ, past_after hp, ih]
      constructor
      · rintro (⟨k, hk, h⟩ | h)
        · exact ⟨k, Nat.lt_succ_of_lt hk, h⟩
        · exact ⟨n, Nat.lt_succ_self n, h⟩
      · rintro ⟨k, hk, h⟩
        rcases Nat.lt_succ_iff_lt_or_eq.mp hk with hk | rfl
        · exact .inl ⟨k, hk, h⟩
        · exact .inr h

/-- **The walk comes once to a symbol.** -/
theorem visit_unique (hp : SymbolIn f p) (hn : spotAt f n = .symbol p.1 p.2)
    (hk : spotAt f k = .symbol p.1 p.2) : n = k := by
  have hlt : ∀ {l l' : ℕ}, spotAt f l = .symbol p.1 p.2 → spotAt f l' = .symbol p.1 p.2 → ¬l < l' := by
    intro l l' hl hl' hlt
    have hpast := (past_iff_visited hp l').mpr ⟨l, hlt, hl⟩
    rw [hl'] at hpast
    exact not_past_self hpast
  rcases Nat.lt_trichotomy n k with h | h | h
  · exact absurd h (hlt hn hk)
  · exact h
  · exact absurd h (hlt hk hn)

end spots

/-! ### Names and values -/

/-- `str_cmp` is 0 if and only if the strings are equal. -/
def ComparesStrings (strCmp : Memory → Addr → List U8 → ℤ) : Prop :=
  ∀ m a s name, HoldsString m a s → 0 ∉ name → (strCmp m a name = 0 ↔ s = name)

/-- The address of the first symbol of a list that is defined and bears the name, or 0. -/
def definition (defs : List LoaderSymbol) (s : List U8) : Addr :=
  ((defs.find? fun d => d.sDefined ≠ 0 ∧ d.sName = s).map LoaderSymbol.sAddr).getD 0

section values
variable (f : Memory) (base : Addr) (m₁ : Memory) (defs : List LoaderSymbol)

/-- The section that `sh_link` designates. -/
def strings (i : ℕ) : ℕ := (shLink f (header f i)).toNat

/-- The offset of the name of a symbol. -/
def nameOffset (p : ℕ × ℕ) : ℕ :=
  (shOffset f (header f (strings f p.1))).toNat + (syName f (entry f p.1 p.2)).toNat

/-- The name of the symbol is `s` : a string that ends in the string table. -/
structure BearsName (p : ℕ × ℕ) (s : List U8) : Prop where
  link : strings f p.1 < (headers f).count
  type : shType f (header f (strings f p.1)) = shtStrtab
  ends : (syName f (entry f p.1 p.2)).toNat + s.length <
    (shSize f (header f (strings f p.1))).toNat
  holds : HoldsString m₁ (base + off (nameOffset f p)) s

/-- What the value of a symbol must be. -/
structure ValueOf (p : ℕ × ℕ) (v : U64) : Prop where
  imported : syShndx f (entry f p.1 p.2) = shnUndef → ∀ s, BearsName f base m₁ p s →
    v = definition defs s
  located : Loader.located f (entry f p.1 p.2) → sectionOf f p.1 p.2 < (headers f).count →
    shType f (header f (sectionOf f p.1 p.2)) = shtProgbits ∧
      v = syValue f (entry f p.1 p.2) + (base + shOffset f (header f (sectionOf f p.1 p.2)))
  reserved : syShndx f (entry f p.1 p.2) ≠ shnUndef → ¬Loader.located f (entry f p.1 p.2) → v = 0

/-- The header of the string table in which the names of a symbol table are looked up: `sh_link` is
cut to 16 bits, and the address of the header may wrap. -/
def stringHeader (i : ℕ) : Addr := base + header f (link f i)

/-- Where the name of a symbol is looked up. -/
def lookedUp (p : ℕ × ℕ) : Addr :=
  nameOf m₁ (tableAt (envAt f base) m₁ (stringHeader f base p.1)) (symbolAt f base p)

/-- The `n` bytes from `a` are in no value of a symbol. -/
def Settled (a : Addr) (n : ℕ) : Prop :=
  ∀ k < n, ∀ q, SymbolIn f q → ¬Bytes.InWord 8 (valueWord f base q) (a + off k)

/-- The symbol is looked up under the string `t`, whatever values the symbols have. -/
structure ComparedAs (p : ℕ × ℕ) (t : List U8) : Prop where
  header : Settled f base (stringHeader f base p.1) 64
  settled : Settled f base (lookedUp f base m₁ p) (t.length + 1)
  holds : HoldsString m₁ (lookedUp f base m₁ p) t

/-- A definition has an address. -/
def HasDefinition : Prop := ∃ d ∈ defs, d.sDefined ≠ 0 ∧ d.sAddr ≠ 0

/-- What the loader makes of the value of a symbol. -/
structure AssignedValue (p : ℕ × ℕ) (v : U64) : Prop extends ValueOf f base m₁ defs p v where
  compared : syShndx f (entry f p.1 p.2) = shnUndef → ∀ t, ComparedAs f base m₁ p t →
    v = definition defs t
  undefined : syShndx f (entry f p.1 p.2) = shnUndef → ¬HasDefinition defs → v = 0

/-- The addresses of the sections have been assigned; the headers and the symbols are those of the
file. -/
structure SectionsAssigned : Prop where
  headers : ∀ i < (headers f).count, ReadsHeader m₁ (sectionAt f base i) f (header f i)
  addresses : ∀ i < (Loader.headers f).count,
    shAddr m₁ (sectionAt f base i) = base + shOffset f (header f i)
  symbols : ∀ p, SymbolIn f p → ∀ d n, d + n ≤ 24 →
    Bytes.load m₁ (symbolAt f base p + off d) n = Bytes.load f (entry f p.1 p.2 + off d) n

end values

section names
variable {strCmp : Memory → Addr → List U8 → ℤ} {m : Memory} {a : Addr} {s : List U8}

/-- The definition that is found is the first one that bears the name. -/
theorem symDefFind_eq (hcmp : ComparesStrings strCmp) (h : HoldsString m a s) :
    ∀ {defs : List LoaderSymbol}, (∀ d ∈ defs, 0 ∉ d.sName) →
      symDefFind strCmp m a defs = definition defs s
  | [], _ => rfl
  | d :: defs, hnames => by
      have hd := hcmp m a s d.sName h (hnames d List.mem_cons_self)
      have ih := symDefFind_eq hcmp h fun d' hd' => hnames d' (List.mem_cons_of_mem _ hd')
      unfold symDefFind definition
      rw [List.find?_cons]
      by_cases hskip : d.sDefined = 0 ∨ strCmp m a d.sName ≠ 0
      · have hother : ¬(d.sDefined ≠ 0 ∧ d.sName = s) := fun hfound =>
          hskip.elim hfound.1 fun hne => hne (hd.mpr hfound.2.symm)
        rw [if_pos hskip, decide_eq_false hother, ih]
        rfl
      · obtain ⟨hdefined, hsame⟩ := not_or.mp hskip
        have hfound : d.sDefined ≠ 0 ∧ d.sName = s := ⟨hdefined, (hd.mp (not_not.mp hsame)).symm⟩
        rw [if_neg hskip, decide_eq_true hfound]
        rfl

theorem symDefFind_eq_zero : ∀ {defs : List LoaderSymbol}, ¬HasDefinition defs →
    symDefFind strCmp m a defs = 0
  | [], _ => rfl
  | d :: defs, hnone => by
      unfold symDefFind
      split
      · exact symDefFind_eq_zero fun ⟨d', hd', hlive⟩ => hnone ⟨d', List.mem_cons_of_mem _ hd', hlive⟩
      · rename_i hfound
        by_contra haddress
        exact hnone ⟨d, List.mem_cons_self, (not_or.mp hfound).1, haddress⟩

theorem definition_eq_zero {defs : List LoaderSymbol} (h : ¬HasDefinition defs) :
    definition defs s = 0 := by
  unfold definition
  cases hfind : defs.find? fun d => d.sDefined ≠ 0 ∧ d.sName = s with
  | none => rfl
  | some d =>
      by_contra haddress
      have hd := List.find?_some hfind
      exact h ⟨d, List.mem_of_find?_eq_some hfind, (of_decide_eq_true hd).1, haddress⟩

end names

end KernelTk.Loader
