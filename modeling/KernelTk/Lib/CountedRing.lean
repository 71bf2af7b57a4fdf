import Mathlib.Data.Fintype.Card
import KernelTk.Lib.Word
import KernelTk.Lib.Zones

/-! # Lists with a counter

A ring whose nodes are fields of objects, and a machine word that counts them.  `Counted L head node l n`
says both at once: the ring of `head` holds the nodes of the objects `l`, in their order, and `n` is the
word of their number.  The number itself may exceed the word, in which case the counter has wrapped.

* **Edits.** An object that is not in the list enters it in front (`Counted.insertAfter`), one that is in
  it leaves it (`Counted.removeUnsafe`), and the counter follows.  `Counted.congr` carries the property
  over any change of the memory that leaves the words of the zone of the list, and `Counted.enter` is
  the entrance in the presence of other edits that keep to other zones.
* **Passages.** `Passage β` is what one call does to the list: an object enters, an object leaves, or nothing
  happens.  `Passage.list` and `Passage.registered` are the effects on the list and on the set of the
  registered objects, and `Passage.mem_list` says that they stay the same set, if no object is in the
  list twice.  Two lists of the same kind, with calls of their own, are then two instances of one lemma.
* **Misuse.** An object that enters twice is in no counted list (`Counted.nodup`): its node cannot be
  met twice in a ring.  And the counter cannot be decreased while the list stays (`Counted.not_decr`),
  since a decrement changes a word even where it wraps. -/

namespace CircularList

variable {α β : Type} {w : ℕ} {L L' : Links α} {h : α} {node : β → α} {n : BitVec w} {l : List β}
  {b : β}

/-- The objects of the ring are those of `l`, and `n` is how many they are. -/
structure Counted (L : Links α) (h : α) (node : β → α) (n : BitVec w) (l : List β) : Prop where
  ring : IsRing L h (l.map node)
  count : n.toNat = l.length

namespace Counted

theorem empty (hr : IsRing L h []) : Counted L h node (0 : BitVec w) [] := ⟨hr, by simp⟩

theorem nodup (C : Counted L h node n l) : l.Nodup := C.ring.nodup_nodes.of_map

theorem congr {ζ : Type} {zone : α → ζ} {z : ζ} (C : Counted L h node n l)
    (e : SameZone zone z L L') (hh : zone h = z) (hnode : ∀ b, zone (node b) = z) :
    Counted L' h node n l :=
  ⟨e.isRing hh hnode C.ring, C.count⟩

/-- The counter of a list that stays cannot be decreased. -/
theorem not_decr (hw : 1 < 2 ^ w) (C : Counted L h node n l) : ¬Counted L' h node (n - 1) l := by
  intro C'
  exact Word.decr_ne hw (BitVec.eq_of_toNat_eq (C'.count.trans C.count.symm))

variable [DecidableEq α]

/-- **An object enters the list.** -/
theorem insertAfter [Fintype β] (hcard : Fintype.card β < 2 ^ w) (hnode : Function.Injective node)
    (hne : node b ≠ h) (C : Counted L h node n l) (hb : b ∉ l) :
    Counted (L.insertAfter h (node b)) h node (n + 1) (b :: l) := by
  refine ⟨C.ring.insertAfter ?_, ?_⟩
  · rw [List.mem_cons, List.mem_map_of_injective hnode, not_or]
    exact ⟨hne, hb⟩
  · have hlen : (b :: l).length ≤ Fintype.card β :=
      (List.nodup_cons.mpr ⟨hb, C.nodup⟩).length_le_card
    rw [List.length_cons] at hlen ⊢
    rw [Word.toNat_incr (by rw [C.count]; omega), C.count]

/-- **An object leaves the list.** -/
theorem removeUnsafe [DecidableEq β] (C : Counted L h node n l) (hb : b ∈ l) :
    Counted (L.removeUnsafe (node b)) h node (n - 1) (l.erase b) := by
  obtain ⟨pre, post, -, hl, herase⟩ := List.exists_erase_eq hb
  constructor
  · rw [herase, List.map_append]
    refine IsRing.removeUnsafe ?_
    rw [← List.map_cons, ← List.map_append, ← hl]
    exact C.ring
  · have hpos := List.length_pos_of_mem hb
    have hn : n ≠ 0 := by
      rintro rfl
      have := C.count
      simp only [BitVec.ofNat_eq_ofNat, BitVec.toNat_ofNat, Nat.zero_mod] at this
      omega
    rw [Word.toNat_decr hn, C.count, List.length_erase_of_mem hb]

/-- **An object enters the list**, and the other words that change are in other zones. -/
theorem enter [Fintype β] {ζ : Type} {zone : α → ζ} {z : ζ} (hcard : Fintype.card β < 2 ^ w)
    (hnode : Function.Injective node) (hh : zone h = z) (hz : ∀ b, zone (node b) = z)
    (hne : node b ≠ h) (C : Counted L h node n l) (hb : b ∉ l)
    (e : SameZone zone z (L.insertAfter h (node b)) L') : Counted L' h node (n + 1) (b :: l) :=
  (C.insertAfter hcard hnode hne hb).congr e hh hz

end Counted

/-! ### The objects of the list -/

/-- What a call does to a list: an object enters, an object leaves, or nothing happens. -/
inductive Passage (β : Type) where
  | enter (b : β)
  | leave (b : β)
  | stay

namespace Passage

variable [DecidableEq β]

/-- The list after the call. -/
def list (l : List β) : Passage β → List β
  | .enter b => b :: l
  | .leave b => l.erase b
  | .stay => l

/-- The objects that are registered after the call. -/
def registered (R : β → Bool) (g : β) : Passage β → Bool
  | .enter b => g == b || R g
  | .leave b => g != b && R g
  | .stay => R g

theorem mem_list {R : β → Bool} (hnodup : l.Nodup) (hmem : ∀ g, g ∈ l ↔ R g = true) (t : Passage β)
    (g : β) : g ∈ t.list l ↔ t.registered R g = true := by
  cases t with
  | enter b => simp [list, registered, hmem]
  | leave b => simp [list, registered, hnodup.mem_erase_iff, hmem]
  | stay => exact hmem g

end Passage

end CircularList
