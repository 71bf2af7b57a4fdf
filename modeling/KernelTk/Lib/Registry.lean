import Mathlib.Data.Fintype.Card
import KernelTk.Lib.Word

/-! # Lists with back pointers and length counters

A container keeps a list of its elements and the length of the list in a machine word; an
element keeps a pointer to its container.  The three say the same thing three times, and a program that
updates them one after another has to keep them in agreement.

* **Agreement.** `Registry M R f n` : for the containers of the table `M`, the elements that
  are registered (`R`), the pointers `f` and the counters `n`, a registered element is in the
  list of a container iff it points to it, once, and the counter is the length of the list.  An element
  that points nowhere is in no list (`Registry.notMem_of_none`), and a counter that counts a list with
  elements is not null (`Registry.counter_ne_zero`): there are fewer elements than words, so that no
  counter wraps.
* **Elements.** `join` and `leave` move one registered element in and out of a container; `register` and
  `forget` change what is registered, for an element that points nowhere.
* **Containers.** `create` and `close` add and remove a container whose list is empty.
* **Frames.** Each operation takes the pointers and the counters after it as they are, and the
  elements outside of the operation only have to be unchanged (`Registry.congr`): nothing is asked of
  the pointers of what is not registered. -/

variable {α β : Type} {w : ℕ}

/-- The lists of `M`, the back pointers and the counters agree. -/
structure Registry (M : α → Option (List β)) (R : β → Prop) (f : β → Option α)
    (n : α → BitVec w) : Prop where
  nodup : ∀ {a l}, M a = some l → l.Nodup
  mem : ∀ {a l b}, M a = some l → (b ∈ l ↔ R b ∧ f b = some a)
  container : ∀ {a b}, R b → f b = some a → (M a).isSome
  count : ∀ {a l}, M a = some l → (n a).toNat = l.length

namespace Registry

variable {M : α → Option (List β)} {R R' : β → Prop} {f f' : β → Option α} {n n' : α → BitVec w}
  {a : α} {b : β} {l l' : List β}

theorem empty (hM : ∀ a, M a = none) (hR : ∀ b, ¬R b) : Registry M R f n where
  nodup := fun hl => by simp [hM] at hl
  mem := fun hl => by simp [hM] at hl
  container := fun hb => absurd hb (hR _)
  count := fun hl => by simp [hM] at hl

theorem exists_list (G : Registry M R f n) (hR : R b) (hf : f b = some a) :
    ∃ l, M a = some l ∧ b ∈ l := by
  obtain ⟨l, hl⟩ := Option.isSome_iff_exists.mp (G.container hR hf)
  exact ⟨l, hl, (G.mem hl).mpr ⟨hR, hf⟩⟩

/-- An element that points nowhere is in no list. -/
theorem notMem_of_none (G : Registry M R f n) (hf : f b = none) (hl : M a = some l) : b ∉ l :=
  fun hb => by simpa [hf] using ((G.mem hl).mp hb).2

theorem notMem_of_not (G : Registry M R f n) (hR : ¬R b) (hl : M a = some l) : b ∉ l :=
  fun hb => hR ((G.mem hl).mp hb).1

theorem congr (G : Registry M R f n) (hR : ∀ b, R' b ↔ R b) (hf : ∀ b, R b → f' b = f b)
    (hn : ∀ a, (M a).isSome → n' a = n a) : Registry M R' f' n' where
  nodup := G.nodup
  mem := by
    intro a l b hl
    rw [G.mem hl, hR]
    exact and_congr_right fun hb => by rw [hf b hb]
  container := fun hb he => G.container ((hR _).mp hb) (hf _ ((hR _).mp hb) ▸ he)
  count := fun hl => by rw [hn _ (by simp [hl]), G.count hl]

theorem counter_ne_zero (G : Registry M R f n) (hl : M a = some l) (hb : b ∈ l) : n a ≠ 0 := by
  intro h0
  have hlen := G.count hl
  rw [h0] at hlen
  have hpos := List.length_pos_of_mem hb
  simp at hlen
  omega

section moves

variable [DecidableEq α] [DecidableEq β]

theorem join [Fintype β] (hw : Fintype.card β < 2 ^ w) (G : Registry M R f n) (hl : M a = some l)
    (hR : R b) (hf : f b = none) (hl' : l'.Perm (b :: l)) :
    Registry (Function.update M a (some l')) R (Function.update f b (some a))
      (Function.update n a (n a + 1)) := by
  have hb : b ∉ l := G.notMem_of_none hf hl
  have hnodup : (b :: l).Nodup := List.nodup_cons.mpr ⟨hb, G.nodup hl⟩
  have hlen : l.length + 1 < 2 ^ w := lt_of_le_of_lt hnodup.length_le_card hw
  constructor
  · intro c m hc
    by_cases hca : c = a
    · subst hca
      rw [Function.update_self, Option.some.injEq] at hc
      exact hc ▸ hl'.nodup_iff.mpr hnodup
    · rw [Function.update_of_ne hca] at hc
      exact G.nodup hc
  · intro c m x hc
    by_cases hca : c = a
    · subst hca
      rw [Function.update_self, Option.some.injEq] at hc
      rw [← hc, hl'.mem_iff, List.mem_cons, G.mem hl]
      by_cases hx : x = b
      · subst hx
        simp [hR]
      · simp [hx]
    · rw [Function.update_of_ne hca] at hc
      rw [G.mem hc]
      by_cases hx : x = b
      · subst hx
        simp [hf, Ne.symm hca]
      · simp [hx]
  · intro c x hx hfx
    by_cases hca : c = a
    · simp [hca]
    · rw [Function.update_of_ne hca]
      by_cases hxb : x = b
      · subst hxb
        simp [Ne.symm hca] at hfx
      · rw [Function.update_of_ne hxb] at hfx
        exact G.container hx hfx
  · intro c m hc
    by_cases hca : c = a
    · subst hca
      rw [Function.update_self, Option.some.injEq] at hc
      rw [Function.update_self, ← hc, hl'.length_eq, List.length_cons, ← G.count hl,
        Word.toNat_incr (by rw [G.count hl]; exact hlen)]
    · rw [Function.update_of_ne hca] at hc ⊢
      exact G.count hc

theorem leave (G : Registry M R f n) (hl : M a = some l) (hb : b ∈ l) :
    Registry (Function.update M a (some (l.erase b))) R (Function.update f b none)
      (Function.update n a (n a - 1)) := by
  have hfb := ((G.mem hl).mp hb).2
  constructor
  · intro c m hc
    by_cases hca : c = a
    · subst hca
      rw [Function.update_self, Option.some.injEq] at hc
      exact hc ▸ (G.nodup hl).erase b
    · rw [Function.update_of_ne hca] at hc
      exact G.nodup hc
  · intro c m x hc
    by_cases hca : c = a
    · subst hca
      rw [Function.update_self, Option.some.injEq] at hc
      rw [← hc, (G.nodup hl).mem_erase_iff, G.mem hl]
      by_cases hx : x = b
      · subst hx
        simp
      · simp [hx]
    · rw [Function.update_of_ne hca] at hc
      rw [G.mem hc]
      by_cases hx : x = b
      · subst hx
        simp [hfb, Ne.symm hca]
      · simp [hx]
  · intro c x hx hfx
    by_cases hca : c = a
    · simp [hca]
    · rw [Function.update_of_ne hca]
      by_cases hxb : x = b
      · subst hxb
        simp at hfx
      · rw [Function.update_of_ne hxb] at hfx
        exact G.container hx hfx
  · intro c m hc
    by_cases hca : c = a
    · subst hca
      rw [Function.update_self, Option.some.injEq] at hc
      rw [Function.update_self, ← hc, List.length_erase_of_mem hb, ← G.count hl,
        Word.toNat_decr (G.counter_ne_zero hl hb)]
    · rw [Function.update_of_ne hca] at hc ⊢
      exact G.count hc

omit [DecidableEq α] in
theorem register (G : Registry M R f n) (hb : ¬R b) :
    Registry M (fun x => x = b ∨ R x) (Function.update f b none) n where
  nodup := G.nodup
  mem := by
    intro a l x hl
    rw [G.mem hl]
    by_cases hx : x = b
    · subst hx
      simp [hb]
    · simp [hx]
  container := by
    intro a x hx hfx
    by_cases hxb : x = b
    · subst hxb
      simp at hfx
    · rw [Function.update_of_ne hxb] at hfx
      exact G.container (hx.resolve_left hxb) hfx
  count := G.count

omit [DecidableEq α] in
theorem forget (G : Registry M R f n) (hf : f b = none) : Registry M (fun x => x ≠ b ∧ R x) f n where
  nodup := G.nodup
  mem := by
    intro a l x hl
    rw [G.mem hl]
    by_cases hx : x = b
    · subst hx
      simp [hf]
    · simp [hx]
  container := fun hx => G.container hx.2
  count := G.count

omit [DecidableEq β] in
theorem create (G : Registry M R f n) (ha : M a = none) :
    Registry (Function.update M a (some [])) R f (Function.update n a 0) := by
  have hfa : ∀ b, ¬(R b ∧ f b = some a) := by
    rintro b ⟨hb, hf⟩
    simpa [ha] using G.container hb hf
  constructor
  · intro c m hc
    by_cases hca : c = a
    · subst hca
      rw [Function.update_self, Option.some.injEq] at hc
      exact hc ▸ List.nodup_nil
    · rw [Function.update_of_ne hca] at hc
      exact G.nodup hc
  · intro c m x hc
    by_cases hca : c = a
    · subst hca
      rw [Function.update_self, Option.some.injEq] at hc
      simpa [← hc] using hfa x
    · rw [Function.update_of_ne hca] at hc
      exact G.mem hc
  · intro c x hx hfx
    by_cases hca : c = a
    · simp [hca]
    · rw [Function.update_of_ne hca]
      exact G.container hx hfx
  · intro c m hc
    by_cases hca : c = a
    · subst hca
      rw [Function.update_self, Option.some.injEq] at hc
      simp [← hc]
    · rw [Function.update_of_ne hca] at hc ⊢
      exact G.count hc

omit [DecidableEq β] in
theorem close (G : Registry M R f n) (ha : M a = some []) :
    Registry (Function.update M a none) R f n := by
  constructor
  · intro c m hc
    by_cases hca : c = a
    · simp [hca] at hc
    · rw [Function.update_of_ne hca] at hc
      exact G.nodup hc
  · intro c m x hc
    by_cases hca : c = a
    · simp [hca] at hc
    · rw [Function.update_of_ne hca] at hc
      exact G.mem hc
  · intro c x hx hfx
    by_cases hca : c = a
    · subst hca
      simpa using (G.mem ha).mpr ⟨hx, hfx⟩
    · rw [Function.update_of_ne hca]
      exact G.container hx hfx
  · intro c m hc
    by_cases hca : c = a
    · simp [hca] at hc
    · rw [Function.update_of_ne hca] at hc
      exact G.count hc

end moves

end Registry
