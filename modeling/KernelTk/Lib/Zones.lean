import KernelTk.Lib.CircularList

/-! # Zones of linked nodes

A memory with several kinds of lists never links a node of one kind to a node of another, if
every list operation is given nodes of one kind.  That much holds of lists that are broken, too: it is
what is left to say of a memory in which a program walks a list through the wrong field, or links a
node that is still in a list.

* **Zones.** `zone n` is the kind of the node `n`, and `Zoned zone K L` says that the link words of
  the known nodes (`K`) point to known nodes of the same zone.  A node becomes known when it is
  initialised, and stays so; the zones themselves may be renamed (`Zoned.rezone`).
* **Operations.** `Zoned.init`, `Zoned.insertAfter`, `Zoned.insertBefore`, `Zoned.remove` and
  `Zoned.removeUnsafe` keep it, whatever the lists look like: an edit writes known nodes of one zone into
  the words of known nodes of that zone (`Zoned.write`), because the neighbours that it looks up are
  in the zone of the node.
* **Frames.** An operation on a node of one zone changes no word of the other zones
  (`SameZone`, with one lemma for each operation).  A ring lies in one zone, so that it is kept by all
  operations of the others (`SameZone.isRing`). -/

namespace CircularList

variable {α ζ : Type}

/-- The words of the known nodes point to known nodes of the same zone. -/
structure Zoned (zone : α → ζ) (K : α → Prop) (L : Links α) : Prop where
  next : ∀ {n}, K n → K (L.next n) ∧ zone (L.next n) = zone n
  prev : ∀ {n}, K n → K (L.prev n) ∧ zone (L.prev n) = zone n

/-- The words of the nodes of the zone `z` are the same. -/
def SameZone (zone : α → ζ) (z : ζ) (L L' : Links α) : Prop :=
  ∀ n, zone n = z → L'.next n = L.next n ∧ L'.prev n = L.prev n

section

variable {zone : α → ζ} {z : ζ} {L L' L'' : Links α}

theorem SameZone.refl (zone : α → ζ) (z : ζ) (L : Links α) : SameZone zone z L L :=
  fun _ _ => ⟨rfl, rfl⟩

theorem SameZone.trans (e : SameZone zone z L L') (e' : SameZone zone z L' L'') :
    SameZone zone z L L'' :=
  fun n hn => ⟨(e' n hn).1.trans (e n hn).1, (e' n hn).2.trans (e n hn).2⟩

theorem SameZone.isRing {β : Type} {node : β → α} {h : α} {l : List β} (e : SameZone zone z L L')
    (hh : zone h = z) (hnode : ∀ b, zone (node b) = z) (hring : IsRing L h (l.map node)) :
    IsRing L' h (l.map node) := by
  refine hring.congr fun x hx => e x ?_
  rcases List.mem_cons.mp hx with rfl | hx
  · exact hh
  · obtain ⟨b, -, rfl⟩ := List.mem_map.mp hx
    exact hnode b

end

variable [DecidableEq α] {zone : α → ζ} {K K' : α → Prop} {L L' : Links α} {h n : α} {z : ζ}

namespace Zoned

omit [DecidableEq α] in
theorem congr (Z : Zoned zone K L) (hK : ∀ x, K' x ↔ K x)
    (hL : ∀ x, K x → L'.next x = L.next x ∧ L'.prev x = L.prev x) : Zoned zone K' L' where
  next := fun {x} hx => by
    have hx := (hK x).mp hx
    rw [(hL x hx).1, hK]
    exact Z.next hx
  prev := fun {x} hx => by
    have hx := (hK x).mp hx
    rw [(hL x hx).2, hK]
    exact Z.prev hx

omit [DecidableEq α] in
theorem rezone {zone' : α → ζ} (Z : Zoned zone K L) (h : ∀ x, K x → zone' x = zone x) :
    Zoned zone' K L where
  next := fun {x} hx => by
    obtain ⟨hk, hz⟩ := Z.next hx
    rw [h _ hk, h x hx]
    exact ⟨hk, hz⟩
  prev := fun {x} hx => by
    obtain ⟨hk, hz⟩ := Z.prev hx
    rw [h _ hk, h x hx]
    exact ⟨hk, hz⟩

/-! ### Operations -/

omit [DecidableEq α] in
theorem write (Z : Zoned zone K L) (hK : ∀ x, K x → K' x)
    (hnext : ∀ x, K' x → (K x ∧ L'.next x = L.next x) ∨ (K' (L'.next x) ∧ zone (L'.next x) = zone x))
    (hprev : ∀ x, K' x → (K x ∧ L'.prev x = L.prev x) ∨ (K' (L'.prev x) ∧ zone (L'.prev x) = zone x)) :
    Zoned zone K' L' where
  next := fun {x} hx => by
    rcases hnext x hx with ⟨hx, e⟩ | h
    · rw [e]
      exact (Z.next hx).imp_left (hK _)
    · exact h
  prev := fun {x} hx => by
    rcases hprev x hx with ⟨hx, e⟩ | h
    · rw [e]
      exact (Z.prev hx).imp_left (hK _)
    · exact h

omit [DecidableEq α] in
/-- A node that was known is no new one. -/
theorem absorb (Z : Zoned zone (fun x => x = n ∨ K x) L) (hn : K n) : Zoned zone K L := by
  refine Z.congr (fun x => ?_) fun _ _ => ⟨rfl, rfl⟩
  constructor
  · exact .inr
  · rintro (rfl | hx)
    · exact hn
    · exact hx

theorem init (Z : Zoned zone K L) (n : α) : Zoned zone (fun x => x = n ∨ K x) (L.init n) := by
  refine Z.write (fun x => .inr) ?_ ?_
  all_goals
    intro x hx
    by_cases hxn : x = n
    · subst hxn
      exact .inr (by simp [Links.init])
    · exact .inl ⟨hx.resolve_left hxn, by simp [Links.init, hxn]⟩

theorem insertAfter (Z : Zoned zone K L) (hh : K h) (hz : zone n = zone h) :
    Zoned zone (fun x => x = n ∨ K x) (L.insertAfter h n) := by
  obtain ⟨hs, hzs⟩ := Z.next hh
  refine Z.write (fun x => .inr) ?_ ?_
  · intro x hx
    by_cases hxh : x = h
    · subst hxh
      exact .inr (by simp [Links.insertAfter, hz])
    · by_cases hxn : x = n
      · subst hxn
        exact .inr (by simp [Links.insertAfter, hxh, hs, hzs, hz])
      · exact .inl ⟨hx.resolve_left hxn, by simp [Links.insertAfter, hxh, hxn]⟩
  · intro x hx
    by_cases hxs : x = L.next h
    · subst hxs
      exact .inr (by simp [Links.insertAfter, hz, hzs])
    · by_cases hxn : x = n
      · subst hxn
        exact .inr (by simp [Links.insertAfter, hxs, hh, hz])
      · exact .inl ⟨hx.resolve_left hxn, by simp [Links.insertAfter, hxs, hxn]⟩

theorem insertBefore (Z : Zoned zone K L) (hh : K h) (hz : zone n = zone h) :
    Zoned zone (fun x => x = n ∨ K x) (L.insertBefore h n) := by
  obtain ⟨hp, hzp⟩ := Z.prev hh
  refine Z.write (fun x => .inr) ?_ ?_
  · intro x hx
    by_cases hxp : x = L.prev h
    · subst hxp
      exact .inr (by simp [Links.insertBefore, hz, hzp])
    · by_cases hxn : x = n
      · subst hxn
        exact .inr (by simp [Links.insertBefore, hxp, hh, hz])
      · exact .inl ⟨hx.resolve_left hxn, by simp [Links.insertBefore, hxp, hxn]⟩
  · intro x hx
    by_cases hxh : x = h
    · subst hxh
      exact .inr (by simp [Links.insertBefore, hz])
    · by_cases hxn : x = n
      · subst hxn
        exact .inr (by simp [Links.insertBefore, hxh, hp, hzp, hz])
      · exact .inl ⟨hx.resolve_left hxn, by simp [Links.insertBefore, hxh, hxn]⟩

theorem removeUnsafe (Z : Zoned zone K L) (hn : K n) : Zoned zone K (L.removeUnsafe n) := by
  obtain ⟨hs, hzs⟩ := Z.next hn
  obtain ⟨hp, hzp⟩ := Z.prev hn
  refine Z.write (fun x => id) ?_ ?_
  · intro x hx
    by_cases hxp : x = L.prev n
    · subst hxp
      exact .inr (by simp [Links.removeUnsafe, hs, hzs, hzp])
    · exact .inl ⟨hx, by simp [Links.removeUnsafe, hxp]⟩
  · intro x hx
    by_cases hxs : x = L.next n
    · subst hxs
      exact .inr (by simp [Links.removeUnsafe, hp, hzs, hzp])
    · exact .inl ⟨hx, by simp [Links.removeUnsafe, hxs]⟩

theorem remove (Z : Zoned zone K L) (hn : K n) : Zoned zone K (L.remove n) :=
  ((Z.removeUnsafe hn).init n).absorb hn

/-! ### Frames -/

theorem init_same (hz : zone n ≠ z) (L : Links α) : SameZone zone z L (L.init n) := by
  intro x hx
  have hxn : x ≠ n := fun e => hz (e ▸ hx)
  simp [Links.init, hxn]

/-- The same node is linked to itself in two memories. -/
theorem init_congr {L L' : Links α} (hL : SameZone zone z L L') (n : α) :
    SameZone zone z (L.init n) (L'.init n) := by
  intro x hx
  by_cases hxn : x = n
  · simp [Links.init, hxn]
  · simpa [Links.init, hxn] using hL x hx

theorem insertAfter_same (Z : Zoned zone K L) (hh : K h) (hz : zone n = zone h) (hne : zone n ≠ z) :
    SameZone zone z L (L.insertAfter h n) := by
  intro x hx
  have hxn : x ≠ n := fun e => hne (e ▸ hx)
  have hxh : x ≠ h := fun e => hne (hz.trans (e ▸ hx))
  have hxs : x ≠ L.next h := fun e => hne (hz.trans ((Z.next hh).2.symm.trans (e ▸ hx)))
  simp [Links.insertAfter, hxn, hxh, hxs]

theorem insertBefore_same (Z : Zoned zone K L) (hh : K h) (hz : zone n = zone h)
    (hne : zone n ≠ z) : SameZone zone z L (L.insertBefore h n) := by
  intro x hx
  have hxn : x ≠ n := fun e => hne (e ▸ hx)
  have hxh : x ≠ h := fun e => hne (hz.trans (e ▸ hx))
  have hxp : x ≠ L.prev h := fun e => hne (hz.trans ((Z.prev hh).2.symm.trans (e ▸ hx)))
  simp [Links.insertBefore, hxn, hxh, hxp]

theorem removeUnsafe_same (Z : Zoned zone K L) (hn : K n) (hne : zone n ≠ z) :
    SameZone zone z L (L.removeUnsafe n) := by
  intro x hx
  have hxs : x ≠ L.next n := fun e => hne ((Z.next hn).2.symm.trans (e ▸ hx))
  have hxp : x ≠ L.prev n := fun e => hne ((Z.prev hn).2.symm.trans (e ▸ hx))
  simp [Links.removeUnsafe, hxs, hxp]

theorem remove_same (Z : Zoned zone K L) (hn : K n) (hne : zone n ≠ z) :
    SameZone zone z L (L.remove n) :=
  (Z.removeUnsafe_same hn hne).trans (init_same hne _)

end Zoned

end CircularList
