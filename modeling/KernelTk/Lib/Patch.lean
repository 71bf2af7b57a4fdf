import KernelTk.Lib.Bytes
import KernelTk.Lib.Sweep

/-! # Patched memories

Disjoint words of `n` bytes of a memory are stored, one after another.  What is left depends on the
set of the words and on the values, not on the order: this is the frame argument of any pass that
rewrites fields of an image in place.

* **Words.** A family of words is given by their addresses.  `Bytes.InWord n a b` : the byte `b` belongs to
  the word of `n` bytes at `a`; `Apart` : no byte belongs to two words of a set.
* **Patches.** `Patched` : the words of a set have been stored, every other byte is that of the first
  memory. A patched memory is determined by the set and by the values (`Patched.eq`), two sets patched
  one after the other are their union (`Patched.trans`, `Patched.between`), and words that are apart can
  always be stored (`exists_patched`).
* **Runs.** When every step of a run patches the words of its item, the run patches those of all of
  them, whatever the order (`patched_of_runs_iff`).  The steps may read the memory that they patch: what
  they read has to be the same in every memory that the patches reach (`agree`), and the proof is an
  induction on the items in which the union grows by one. -/

namespace Bytes

section words
variable {k n : ℕ} {m : Mem k} {a b : BitVec k}

/-- The byte belongs to the word of `n` bytes at an address. -/
def InWord (n : ℕ) (a b : BitVec k) : Prop := (b - a).toNat < n

instance : Decidable (InWord n a b) := inferInstanceAs (Decidable (_ < _))

theorem inWord_add {i : ℕ} (hn : n ≤ 2 ^ k) (hi : i < n) : InWord n a (a + BitVec.ofNat k i) := by
  unfold InWord
  rw [BitVec.add_comm, BitVec.add_sub_cancel, BitVec.toNat_ofNat, Nat.mod_eq_of_lt (by omega)]
  exact hi

theorem inWord_self (hn : 0 < n) : InWord n a a := by
  unfold InWord
  rw [BitVec.sub_self]
  exact hn

theorem InWord.eq_add (h : InWord n a b) : ∃ i < n, b = a + BitVec.ofNat k i := by
  refine ⟨(b - a).toNat, h, ?_⟩
  rw [BitVec.ofNat_toNat, BitVec.setWidth_eq, BitVec.add_comm, BitVec.sub_add_cancel]

theorem InWord.within {o l : ℕ} (h : InWord n (a + BitVec.ofNat k o) b) (ho : o + n ≤ l)
    (hl : l ≤ 2 ^ k) : InWord l a b := by
  obtain ⟨i, hi, rfl⟩ := h.eq_add
  rw [BitVec.add_assoc, ← BitVec.ofNat_add]
  exact inWord_add hl (by omega)

theorem store_outside {v : BitVec (8 * n)} (h : ¬InWord n a b) : store m a v b = m b :=
  store_of_le (Nat.le_of_not_lt h)

end words

section patched
variable {k n : ℕ} {ι : Type*} (address : ι → BitVec k) (value : ι → BitVec (8 * n))

/-- No byte belongs to two words of a set. -/
def Apart (n : ℕ) (live : ι → Prop) : Prop :=
  ∀ i j b, live i → live j → InWord n (address i) b → InWord n (address j) b → i = j

/-- The memories agree outside of the words of a set. -/
def Outside (n : ℕ) (past : ι → Prop) (m₀ m : Mem k) : Prop :=
  ∀ b, (∀ i, past i → ¬InWord n (address i) b) → m b = m₀ b

/-- The words of the set `past` have been stored in the memory `m₀`. -/
structure Patched (past : ι → Prop) (m₀ m : Mem k) : Prop where
  outside : Outside address n past m₀ m
  inside : ∀ i, past i → load m (address i) n = value i

variable {address value} {past past' live : ι → Prop} {m₀ m m' : Mem k} {i j : ι}
  {v : BitVec (8 * n)}

theorem Outside.refl : Outside address n past m m := fun _ _ => rfl

theorem Outside.congr (h : Outside address n past m₀ m) (hpast : ∀ i, past i → past' i) :
    Outside address n past' m₀ m :=
  fun b hb => h b fun i hi => hb i (hpast i hi)

theorem Outside.store (h : Outside address n past m₀ m) (hpast : ∀ j, past j → past' j)
    (hi : past' i) : Outside address n past' m₀ (Bytes.store m (address i) v) := by
  intro b hb
  rw [store_outside (hb i hi)]
  exact h b fun j hj => hb j (hpast j hj)

theorem Outside.load_eq (h : Outside address n past m₀ m) {b : BitVec k} {l : ℕ}
    (hb : ∀ d < l, ∀ i, past i → ¬InWord n (address i) (b + BitVec.ofNat k d)) :
    load m b l = load m₀ b l :=
  load_congr fun d hd => h _ (hb d hd)

theorem Apart.load_store (hapart : Apart address n live) (hn : n ≤ 2 ^ k) (hi : live i)
    (hj : live j) (hne : j ≠ i) :
    load (Bytes.store m (address i) v) (address j) n = load m (address j) n := by
  apply load_congr
  intro l hl
  exact store_outside fun hin => hne (hapart j i _ hj hi (inWord_add hn hl) hin)

theorem patched_nil (h : ∀ i, ¬past i) : Patched address value past m m :=
  ⟨.refl, fun i hi => absurd hi (h i)⟩

theorem Patched.store (h : Patched address value past m₀ m) (hn : n ≤ 2 ^ k)
    (hapart : Apart address n live) (hlive : ∀ j, past j → live j) (hi : live i)
    (hpast : ∀ j, past' j ↔ past j ∨ j = i) :
    Patched address value past' m₀ (Bytes.store m (address i) (value i)) := by
  refine ⟨h.outside.store (fun j hj => (hpast j).mpr (.inl hj)) ((hpast i).mpr (.inr rfl)), ?_⟩
  intro j hj
  by_cases hji : j = i
  · subst hji
    exact Bytes.load_store hn
  · have hold : past j := ((hpast j).mp hj).resolve_right hji
    rw [hapart.load_store hn hi (hlive j hold) hji]
    exact h.inside j hold

/-- **A patched memory is determined by what has been stored.** -/
theorem Patched.eq (h : Patched address value past m₀ m) (h' : Patched address value past m₀ m') :
    m = m' := by
  funext b
  by_cases hb : ∃ i, past i ∧ InWord n (address i) b
  · obtain ⟨i, hi, hin⟩ := hb
    obtain ⟨d, hd, rfl⟩ := hin.eq_add
    exact byte_of_load ((h.inside i hi).trans (h'.inside i hi).symm) hd
  · have hout : ∀ i, past i → ¬InWord n (address i) b := fun i hi hin => hb ⟨i, hi, hin⟩
    rw [h.outside b hout, h'.outside b hout]

theorem Patched.trans (h : Patched address value past m₀ m) (h' : Patched address value past' m m')
    (hn : n ≤ 2 ^ k) (hapart : Apart address n live) (hlive : ∀ i, past i → live i)
    (hlive' : ∀ i, past' i → live i) :
    Patched address value (fun i => past i ∨ past' i) m₀ m' := by
  refine ⟨fun b hb => ?_, fun i hi => ?_⟩
  · rw [h'.outside b fun i hi => hb i (.inr hi), h.outside b fun i hi => hb i (.inl hi)]
  · by_cases hi' : past' i
    · exact h'.inside i hi'
    · have hpast : past i := hi.resolve_right hi'
      have hkeep : load m' (address i) n = load m (address i) n := by
        refine h'.outside.load_eq fun d hd j hj hin => hi' ?_
        have heq := hapart i j _ (hlive i hpast) (hlive' j hj) (inWord_add hn hd) hin
        exact heq ▸ hj
      exact hkeep.trans (h.inside i hpast)

theorem Patched.between (h : Patched address value (fun i => past i ∨ past' i) m₀ m')
    (hn : n ≤ 2 ^ k) : ∃ m, Patched address value past m₀ m ∧ Patched address value past' m m' := by
  classical
  refine ⟨fun b => if ∃ i, past i ∧ InWord n (address i) b then m' b else m₀ b,
    ⟨fun b hb => ?_, fun i hi => ?_⟩, ⟨fun b hb => ?_, fun i hi => h.inside i (.inr hi)⟩⟩
  · exact if_neg fun ⟨i, hi, hin⟩ => hb i hi hin
  · refine .trans (load_congr fun d hd => ?_) (h.inside i (.inl hi))
    exact if_pos ⟨i, hi, inWord_add hn hd⟩
  · show m' b = if ∃ i, past i ∧ InWord n (address i) b then m' b else m₀ b
    split
    · rfl
    · rename_i hno
      refine h.outside b fun i hi hin => ?_
      exact hi.elim (fun hp => hno ⟨i, hp, hin⟩) fun hp => hb i hp hin

/-- The words of a set can be stored. -/
theorem exists_patched (m : Mem k) (value : ι → BitVec (8 * n)) (hn : n ≤ 2 ^ k)
    (hapart : Apart address n live) :
    ∃ m', Patched address value live m m' := by
  classical
  refine ⟨fun b => if h : ∃ i, live i ∧ InWord n (address i) b then
    Bytes.store m (address h.choose) (value h.choose) b else m b, fun b hb => ?_, fun i hi => ?_⟩
  · exact dif_neg fun ⟨i, hi, hin⟩ => hb i hi hin
  · rw [← load_store (m := m) (a := address i) (v := value i) hn]
    refine load_congr fun d hd => ?_
    have hword : ∃ j, live j ∧ InWord n (address j) (address i + BitVec.ofNat k d) :=
      ⟨i, hi, inWord_add hn hd⟩
    -- the word of the byte is the one that is wanted
    have hsame : hword.choose = i :=
      hapart _ _ _ hword.choose_spec.1 hi hword.choose_spec.2 (inWord_add hn hd)
    exact (dif_pos hword).trans (by rw [hsame])

theorem patched_empty_iff (h : ∀ i, ¬past i) : Patched address value past m m' ↔ m' = m := by
  constructor
  · exact fun hp => hp.eq (patched_nil h)
  · rintro rfl
    exact patched_nil h

theorem patched_single_iff (hn : n ≤ 2 ^ k) :
    Patched address value (· = i) m m' ↔ m' = Bytes.store m (address i) (value i) := by
  have hstore : Patched address value (· = i) m (Bytes.store m (address i) (value i)) := by
    refine ⟨fun b hb => store_outside (hb i rfl), fun j hj => ?_⟩
    rw [hj]
    exact Bytes.load_store hn
  constructor
  · exact fun hp => hp.eq hstore
  · rintro rfl
    exact hstore

theorem Patched.congr (h : Patched address value past m₀ m) (hpast : ∀ i, past i ↔ past' i) :
    Patched address value past' m₀ m :=
  ⟨h.outside.congr fun i => (hpast i).mp, fun i hi => h.inside i ((hpast i).mpr hi)⟩

/-! ### Runs -/

variable {α ε : Type*} {step : α → Mem k → Option ε → Mem k → Prop} {pass : α → Prop}
  {agree : Mem k → Prop} {l : List α}

/-- **A run whose steps patch the words of their items** patches the words of all of them. The steps
depend on what the patches leave as it is (`agree`). -/
theorem patched_of_runs_iff (own : α → ι → Prop) (hn : n ≤ 2 ^ k)
    (hapart : Apart address n live) (hlive : ∀ a ∈ l, ∀ i, own a i → live i)
    (hstep : ∀ a ∈ l, ∀ m m', agree m →
      (step a m none m' ↔ pass a ∧ Patched address value (own a) m m'))
    (hkeep : ∀ a ∈ l, ∀ m m', agree m → Patched address value (own a) m m' → agree m')
    (hm : agree m) :
    Sweep.Runs step l m none m' ↔
      (∀ a ∈ l, pass a) ∧ Patched address value (fun i => ∃ a ∈ l, own a i) m m' := by
  induction l generalizing m with
  | nil =>
      rw [patched_empty_iff (by simp)]
      constructor
      · intro h
        cases h
        exact ⟨nofun, rfl⟩
      · rintro ⟨-, rfl⟩
        exact .nil
  | cons a l ih =>
      have hhead := hstep a List.mem_cons_self
      have htail : ∀ {m₁}, agree m₁ → (Sweep.Runs step l m₁ none m' ↔
          (∀ a ∈ l, pass a) ∧ Patched address value (fun i => ∃ a ∈ l, own a i) m₁ m') :=
        fun h₁ => ih (fun b hb => hlive b (List.mem_cons_of_mem _ hb))
          (fun b hb => hstep b (List.mem_cons_of_mem _ hb))
          (fun b hb => hkeep b (List.mem_cons_of_mem _ hb)) h₁
      have hsplit : ∀ i, (own a i ∨ ∃ b ∈ l, own b i) ↔ ∃ b ∈ a :: l, own b i := by simp
      constructor
      · intro h
        cases h with
        | cons ha hrest =>
            obtain ⟨hpass, hp⟩ := (hhead _ _ hm).mp ha
            obtain ⟨hall, hp'⟩ := (htail (hkeep a List.mem_cons_self _ _ hm hp)).mp hrest
            refine ⟨List.forall_mem_cons.mpr ⟨hpass, hall⟩, .congr (hp.trans hp' hn hapart ?_ ?_) hsplit⟩
            · exact hlive a List.mem_cons_self
            · exact fun i ⟨b, hb, hi⟩ => hlive b (List.mem_cons_of_mem _ hb) i hi
      · rintro ⟨hall, hp⟩
        obtain ⟨hpass, hrest⟩ := List.forall_mem_cons.mp hall
        obtain ⟨m₁, h₁, h₂⟩ := (hp.congr fun i => (hsplit i).symm).between hn
        exact .cons ((hhead _ _ hm).mpr ⟨hpass, h₁⟩)
          ((htail (hkeep a List.mem_cons_self _ _ hm h₁)).mpr ⟨hrest, h₂⟩)

end patched

end Bytes
