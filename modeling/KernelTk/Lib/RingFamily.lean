import KernelTk.Lib.CircularList

/-! # Families of disjoint rings, and walks

* **Families.** `Family L R` says that `R` is a table of pairwise disjoint rings of one memory
  (`R h = some l` : the ring of head `h` holds `l`; `none` : nothing is known of `h`).  Every
  list operation is an update of the table (`Family.insertAfter`, `Family.insertBefore`,
  `Family.remove`, `Family.init`), so that no frame condition is left to the user.  A node is
  `Loose` when it lies in no ring but possibly its own empty one: such a node can be linked in.
  All updates are cases of `Family.replace`, which rewrites the rings of a set of nodes.
* **Walks.** `walk` visits the nodes after a head and reads the successor of a node before it
  runs the body on it, so that the body may unlink the node it is given.  `walk_rule` is the
  invariant rule: the invariant speaks of the nodes still to be visited, and the body has to
  keep the ring of those; it is proved by induction on their list.  `walk_partial` is the rule of
  partial correctness, which says nothing of how the walk ends.
* **Broken lists.** When the body breaks the list it walks, there may be no such invariant: `walk_keeps`
  and `walk_closed` follow the nodes met instead, and `visited` with `visited_prefix` say on which nodes
  of the ring the body has run.  A walk has a fuel, and its outcome is `stuck` when it runs out of it:
  with as much fuel as there are nodes, it has then come back to one. -/

namespace CircularList

variable {α : Type} [DecidableEq α]

/-- `R` is a table of pairwise disjoint rings of `L`. -/
structure Family (L : Links α) (R : α → Option (List α)) : Prop where
  ring : ∀ {h l}, R h = some l → IsRing L h l
  disjoint : ∀ {h h' l l' n}, R h = some l → R h' = some l' → n ∈ h :: l → n ∈ h' :: l' → h = h'

/-- `n` lies in no ring of the table, except as the head of its own empty ring. -/
def Loose (R : α → Option (List α)) (n : α) : Prop :=
  ∀ h l, R h = some l → n ∈ h :: l → h = n ∧ l = []

section loose

variable {R : α → Option (List α)} {h n : α} {l : List α}

theorem Loose.add (hn : Loose R n) (hl : n ∉ h :: l) : Loose (Function.update R h (some l)) n := by
  intro m l' hm hmem
  by_cases hmh : m = h
  · subst hmh
    rw [Function.update_self, Option.some.injEq] at hm
    exact absurd (hm ▸ hmem) hl
  · rw [Function.update_of_ne hmh] at hm
    exact hn _ _ hm hmem

theorem Loose.drop (hn : Loose R n) : Loose (Function.update R h none) n := by
  intro m l' hm hmem
  by_cases hmh : m = h
  · simp [hmh] at hm
  · rw [Function.update_of_ne hmh] at hm
    exact hn _ _ hm hmem

end loose

namespace Family

variable {L : Links α} {R R' : α → Option (List α)} {h n : α} {l : List α}

omit [DecidableEq α] in
theorem mono (F : Family L R) (hR : ∀ h l, R' h = some l → R h = some l) : Family L R' :=
  ⟨fun hr => F.ring (hR _ _ hr), fun hr hr' => F.disjoint (hR _ _ hr) (hR _ _ hr')⟩

omit [DecidableEq α] in
theorem loose_notMem (hn : Loose R n) (hnh : n ≠ h) (hr : R h = some l) : n ∉ h :: l :=
  fun hmem => hnh (hn _ _ hr hmem).1.symm

omit [DecidableEq α] in
/-- Replace the rings that lie in the set of nodes `S` by others that lie in `S` (`New`), in
a memory that differs on the words of `S` only. -/
theorem replace {L' : Links α} (S : List α) (New : α → List α → Prop) (F : Family L R)
    (hR : ∀ {k m}, R' k = some m → New k m ∨ R k = some m ∧ ∀ x ∈ k :: m, x ∉ S)
    (hring : ∀ {k m}, New k m → IsRing L' k m ∧ ∀ x ∈ k :: m, x ∈ S)
    (hdis : ∀ {k k' m m' x}, New k m → New k' m' → x ∈ k :: m → x ∈ k' :: m' → k = k')
    (hkeep : ∀ x, x ∉ S → L'.next x = L.next x ∧ L'.prev x = L.prev x) : Family L' R' := by
  constructor
  · intro k m hk
    rcases hR hk with hnew | ⟨hold, hout⟩
    · exact (hring hnew).1
    · exact (F.ring hold).congr fun x hx => hkeep x (hout x hx)
  · intro k k' m m' x hk hk' hx hx'
    rcases hR hk with hnew | ⟨hold, hout⟩ <;> rcases hR hk' with hnew' | ⟨hold', hout'⟩
    · exact hdis hnew hnew' hx hx'
    · exact absurd ((hring hnew).2 x hx) (hout' x hx')
    · exact absurd ((hring hnew').2 x hx') (hout x hx)
    · exact F.disjoint hold hold' hx hx'

theorem insert {L' : Links α} {l' : List α} (F : Family L R) (hr : R h = some l)
    (hn : Loose R n) (hring : IsRing L' h l') (hmem : ∀ x, x ∈ l' ↔ x = n ∨ x ∈ l)
    (hkeep : ∀ x, x ∉ n :: h :: l → L'.next x = L.next x ∧ L'.prev x = L.prev x) :
    Family L' (Function.update (Function.update R n none) h (some l')) := by
  refine F.replace (n :: h :: l) (fun k m => k = h ∧ m = l') ?_ ?_ ?_ hkeep
  · intro k m hk
    by_cases hkh : k = h
    · subst hkh
      rw [Function.update_self] at hk
      exact .inl ⟨rfl, (Option.some.inj hk).symm⟩
    · rw [Function.update_of_ne hkh] at hk
      by_cases hkn : k = n
      · subst hkn
        simp at hk
      · rw [Function.update_of_ne hkn] at hk
        refine .inr ⟨hk, fun x hx hxS => ?_⟩
        rcases List.mem_cons.mp hxS with rfl | hxl
        · exact hkn (hn _ _ hk hx).1
        · exact hkh (F.disjoint hk hr hx hxl)
  · rintro k m ⟨rfl, rfl⟩
    refine ⟨hring, fun x hx => ?_⟩
    simp only [List.mem_cons, hmem] at hx ⊢
    tauto
  · rintro k k' m m' x ⟨rfl, rfl⟩ ⟨rfl, rfl⟩ _ _
    rfl

theorem insertAfter (F : Family L R) (hr : R h = some l) (hn : Loose R n) (hnh : n ≠ h) :
    Family (L.insertAfter h n)
      (Function.update (Function.update R n none) h (some (n :: l))) := by
  have hring := F.ring hr
  refine F.insert hr hn (hring.insertAfter (loose_notMem hn hnh hr)) (by simp) ?_
  intro x hx
  simp only [List.mem_cons, not_or] at hx
  have hxs : x ≠ L.next h := by
    rw [hring.next_head]
    cases l with
    | nil => exact hx.2.1
    | cons a l => exact fun e => hx.2.2 (by simp [e])
  simp [Links.insertAfter, hx.1, hx.2.1, hxs]

theorem insertBefore (F : Family L R) (hr : R h = some l) (hn : Loose R n) (hnh : n ≠ h) :
    Family (L.insertBefore h n)
      (Function.update (Function.update R n none) h (some (l ++ [n]))) := by
  have hring := F.ring hr
  refine F.insert hr hn (hring.insertBefore (loose_notMem hn hnh hr)) (by simp [or_comm]) ?_
  intro x hx
  have hxp : x ≠ L.prev h := fun e => hx (List.mem_cons_of_mem _ (e ▸ hring.prev_head_mem))
  simp only [List.mem_cons, not_or] at hx
  simp [Links.insertBefore, hx.1, hx.2.1, hxp]

theorem remove (F : Family L R) (hr : R h = some l) (hn : n ∈ l) :
    Family (L.remove n)
      (Function.update (Function.update R h (some (l.erase n))) n (some [])) := by
  have hring := F.ring hr
  have hnh : n ≠ h := fun e => hring.head_notMem (e ▸ hn)
  have herase : ∀ {x}, x ∈ h :: l.erase n → x ≠ n ∧ x ∈ h :: l := by
    intro x hx
    rcases List.mem_cons.mp hx with rfl | hx
    · exact ⟨Ne.symm hnh, List.mem_cons_self⟩
    · have hx := (List.Nodup.mem_erase_iff hring.nodup_nodes).mp hx
      exact ⟨hx.1, List.mem_cons_of_mem _ hx.2⟩
  refine F.replace (h :: l)
    (fun k m => k = n ∧ m = [] ∨ k = h ∧ m = l.erase n) ?_ ?_ ?_ ?_
  · intro k m hk
    by_cases hkn : k = n
    · subst hkn
      rw [Function.update_self] at hk
      exact .inl (.inl ⟨rfl, (Option.some.inj hk).symm⟩)
    · rw [Function.update_of_ne hkn] at hk
      by_cases hkh : k = h
      · subst hkh
        rw [Function.update_self] at hk
        exact .inl (.inr ⟨rfl, (Option.some.inj hk).symm⟩)
      · rw [Function.update_of_ne hkh] at hk
        exact .inr ⟨hk, fun x hx hxS => hkh (F.disjoint hk hr hx hxS)⟩
  · rintro k m (⟨rfl, rfl⟩ | ⟨rfl, rfl⟩)
    · refine ⟨IsRing.init _ _, fun x hx => ?_⟩
      rw [List.mem_singleton.mp hx]
      exact List.mem_cons_of_mem _ hn
    · refine ⟨?_, fun x hx => (herase hx).2⟩
      obtain ⟨pre, post, -, hl, he⟩ := List.exists_erase_eq hn
      rw [he]
      exact (hl ▸ hring).remove
  · rintro k k' m m' x (⟨rfl, rfl⟩ | ⟨rfl, rfl⟩) (⟨rfl, rfl⟩ | ⟨rfl, rfl⟩) hx hx'
    · rfl
    · exact absurd (List.mem_singleton.mp hx) (herase hx').1
    · exact absurd (List.mem_singleton.mp hx') (herase hx).1
    · rfl
  · intro x hx
    have hxn : x ≠ n := fun e => hx (e ▸ List.mem_cons_of_mem _ hn)
    have hxs : x ≠ L.next n := fun e => hx (e ▸ (hring.neighbours hn).1)
    have hxp : x ≠ L.prev n := fun e => hx (e ▸ (hring.neighbours hn).2)
    simp [Links.remove, Links.removeUnsafe, Links.init, hxn, hxs, hxp]

theorem init (F : Family L R) (hn : Loose R n) :
    Family (L.init n) (Function.update R n (some [])) := by
  refine F.replace [n] (fun k m => k = n ∧ m = []) ?_ ?_ ?_ ?_
  · intro k m hk
    by_cases hkn : k = n
    · subst hkn
      rw [Function.update_self] at hk
      exact .inl ⟨rfl, (Option.some.inj hk).symm⟩
    · rw [Function.update_of_ne hkn] at hk
      refine .inr ⟨hk, fun x hx hxn => hkn ?_⟩
      exact (hn _ _ hk (List.mem_singleton.mp hxn ▸ hx)).1
  · rintro k m ⟨rfl, rfl⟩
    exact ⟨IsRing.init _ _, fun x hx => hx⟩
  · rintro k k' m m' x ⟨rfl, rfl⟩ ⟨rfl, rfl⟩ _ _
    rfl
  · intro x hx
    simp only [List.mem_singleton] at hx
    simp [Links.init, hx]

/-- Unlinking the node of an empty ring changes no word. -/
theorem removeUnsafe_nil (F : Family L R) (hr : R n = some []) : L.removeUnsafe n = L := by
  obtain ⟨hnext, hprev⟩ := IsRing.nil_iff.mp (F.ring hr)
  cases L with
  | mk next prev =>
      simp only at hnext hprev
      simp only [Links.removeUnsafe, Links.setNext, Links.setPrev, hnext, hprev, Links.mk.injEq]
      constructor <;> funext x <;> by_cases hx : x = n <;> simp [hx, hnext, hprev]

end Family

/-! ### Safe walks -/

variable {σ ε : Type}

/-- Visit the nodes from `n` on until the head is met: the successor of a node is read before
the body runs on it.  `stuck` is the outcome when the head is not met within the fuel. -/
def walk (next : σ → α → α) (head : α) (stuck : ε) (body : α → σ → Except ε σ) :
    ℕ → α → σ → Except ε σ
  | 0, _, _ => .error stuck
  | fuel + 1, n, s =>
      if n = head then .ok s
      else do
        let save := next s n
        let s ← body n s
        walk next head stuck body fuel save s

section rule

variable {next : σ → α → α} {head : α} {stuck : ε} {body : α → σ → Except ε σ}

variable (next head stuck body) in
/-- **The invariant rule of walks.**  `I l s`: `s` is reached and the nodes `l` are still to be
visited.  If the body keeps the invariant on the first of them, and its saved successor is the
next one (the head after the last one), the walk ends in a state with nothing left to visit. -/
theorem walk_rule (I : List α → σ → Prop)
    (hhead : ∀ {n l s}, I (n :: l) s → n ≠ head ∧ next s n = l.headD head)
    (hbody : ∀ {n l s}, I (n :: l) s → ∃ s', body n s = .ok s' ∧ I l s') :
    ∀ (l : List α) (s : σ) (fuel : ℕ), l.length < fuel → I l s →
      ∃ s', walk next head stuck body fuel (l.headD head) s = .ok s' ∧ I [] s' := by
  intro l
  induction l with
  | nil =>
      intro s fuel hf hI
      cases fuel with
      | zero => exact absurd hf (by simp)
      | succ fuel => exact ⟨s, by simp [walk], hI⟩
  | cons n l ih =>
      intro s fuel hf hI
      cases fuel with
      | zero => exact absurd hf (by simp)
      | succ fuel =>
          obtain ⟨hne, hnext⟩ := hhead hI
          obtain ⟨s₁, hb, hI₁⟩ := hbody hI
          obtain ⟨s', hw, hI'⟩ := ih s₁ fuel (by simpa using hf) hI₁
          refine ⟨s', ?_, hI'⟩
          simp only [List.headD_cons, walk, hne, if_false, hb, hnext]
          exact hw

variable (next head stuck body) in
/-- **The rule of partial correctness**: whatever state a walk ends in, the invariant holds
there, if the body keeps it whenever it returns. -/
theorem walk_partial (I : List α → σ → Prop)
    (hhead : ∀ {n l s}, I (n :: l) s → n ≠ head ∧ next s n = l.headD head)
    (hbody : ∀ {n l s s'}, I (n :: l) s → body n s = .ok s' → I l s') :
    ∀ {l : List α} {s s' : σ} {fuel : ℕ}, I l s →
      walk next head stuck body fuel (l.headD head) s = .ok s' → I [] s' := by
  intro l
  induction l with
  | nil =>
      intro s s' fuel hI hw
      cases fuel with
      | zero => simp [walk] at hw
      | succ fuel =>
          simp only [List.headD_nil, walk, if_true, Except.ok.injEq] at hw
          exact hw ▸ hI
  | cons n l ih =>
      intro s s' fuel hI hw
      cases fuel with
      | zero => simp [walk] at hw
      | succ fuel =>
          obtain ⟨hne, hnext⟩ := hhead hI
          simp only [List.headD_cons, walk, hne, if_false, hnext] at hw
          cases hb : body n s with
          | error e => rw [hb] at hw; cases hw
          | ok s₁ =>
              rw [hb] at hw
              exact ih (hbody hI hb) hw

/-- What the body keeps on every node, a walk keeps. -/
theorem walk_keeps {I : σ → Prop} (hbody : ∀ {n s s'}, I s → body n s = .ok s' → I s') :
    ∀ {fuel : ℕ} {n : α} {s s' : σ}, I s → walk next head stuck body fuel n s = .ok s' → I s' := by
  intro fuel
  induction fuel with
  | zero => exact fun _ hw => by simp [walk] at hw
  | succ fuel ih =>
      intro n s s' hI hw
      rw [walk] at hw
      split at hw
      · exact Except.ok.inj hw ▸ hI
      · cases hb : body n s with
        | error e => rw [hb] at hw; cases hw
        | ok s₁ =>
            rw [hb] at hw
            exact ih (hbody hI hb) hw

/-- What the head's successor has, and the successor of a node that has it, the nodes met have. -/
theorem walk_closed {I : σ → Prop} {K : σ → α → Prop}
    (hnext : ∀ {n s}, I s → K s n → K s (next s n))
    (hbody : ∀ {n s s'}, I s → K s n → body n s = .ok s' → I s' ∧ ∀ m, K s m → K s' m) :
    ∀ {fuel : ℕ} {n : α} {s s' : σ}, I s → K s n → walk next head stuck body fuel n s = .ok s' →
      I s' := by
  intro fuel
  induction fuel with
  | zero => exact fun _ _ hw => by simp [walk] at hw
  | succ fuel ih =>
      intro n s s' hI hK hw
      rw [walk] at hw
      split at hw
      · exact Except.ok.inj hw ▸ hI
      · cases hb : body n s with
        | error e => rw [hb] at hw; cases hw
        | ok s₁ =>
            rw [hb] at hw
            obtain ⟨hI', hmono⟩ := hbody hI hK hb
            exact ih hI' (hmono _ (hnext hI hK)) hw

/-- The nodes on which a walk runs its body. -/
def visited (next : σ → α → α) (head : α) (body : α → σ → Except ε σ) : ℕ → α → σ → List α
  | 0, _, _ => []
  | fuel + 1, n, s =>
      if n = head then []
      else n :: match body n s with
        | .error _ => []
        | .ok s' => visited next head body fuel (next s n) s'

/-- A walk runs its body on the nodes of its list, in their order, as long as the body returns. -/
theorem visited_prefix (I : List α → σ → Prop)
    (hhead : ∀ {n l s}, I (n :: l) s → n ≠ head ∧ next s n = l.headD head)
    (hbody : ∀ {n l s s'}, I (n :: l) s → body n s = .ok s' → I l s') :
    ∀ {l : List α} {s : σ} (fuel : ℕ), I l s →
      visited next head body fuel (l.headD head) s <+: l := by
  intro l
  induction l with
  | nil =>
      intro s fuel _
      cases fuel <;> simp [visited]
  | cons n l ih =>
      intro s fuel hI
      cases fuel with
      | zero => exact List.nil_prefix
      | succ fuel =>
          obtain ⟨hne, hnext⟩ := hhead hI
          simp only [List.headD_cons, visited, hne, if_false, hnext]
          cases hb : body n s with
          | error e => exact (List.prefix_cons_inj n).mpr List.nil_prefix
          | ok s' => exact (List.prefix_cons_inj n).mpr (ih fuel (hbody hI hb))

theorem walk_error {n : α} {s : σ} {e : ε} {fuel : ℕ} (hne : n ≠ head) (hb : body n s = .error e) :
    walk next head stuck body (fuel + 1) n s = .error e := by
  simp only [walk, hne, if_false, hb]
  rfl

end rule

end CircularList
