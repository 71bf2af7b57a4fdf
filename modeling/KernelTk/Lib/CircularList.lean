import Mathlib.Data.List.Chain
import Mathlib.Data.List.Nodup
import Mathlib.Logic.Equiv.Defs
import Mathlib.Logic.Function.Basic
import Mathlib.Tactic.Cases
import Mathlib.Tactic.Tauto

/-! # Intrusive circular doubly linked lists

A list node holds two link words, `next` and `prev`; a list is a ring of nodes closed at a
distinguished node, its *head*, which carries no element.

* **Memory.** `Links α` gives the two link words of every node.  `init`, `insertAfter`,
  `insertBefore`, `concat`, `remove` and `removeUnsafe` are the usual pointer assignments: they never
  look at more than the two neighbours of a node, and they are total, whatever the links look like.
* **Rings.** `IsRing L h l` says that the ring of head `h` holds exactly the nodes `l`, in the
  order of the `next` words, without repetition.  It is a chain of `Linked` pairs from the head back to
  the head; the lemmas on edits cut this chain where the edit takes place (`chain_link`,
  `chain_unlink`) and carry the rest over, since a chain reads the words of its own nodes only
  (`chain_congr`).
* **Edits.** `IsRing.insertAfter`, `IsRing.insertBefore`, `IsRing.concat`, `IsRing.remove` and
  `IsRing.removeUnsafe` say what each edit makes of the list `l`, and `IsRing.congr` that a ring none of
  whose words changes is kept.  `IsRing.unique` : the list is determined by the memory and the head, so
  that two descriptions of one ring can be identified.
* **Names.** `Links.rename` : the same words, under other names of the nodes.  Every edit commutes with
  it, and so do the rings.

`RingFamily.lean` lifts the edits to tables of disjoint rings and gives the safe walk. -/

namespace CircularList

/-- The two link words of every node. -/
structure Links (α : Type) where
  next : α → α
  prev : α → α

variable {α : Type} [DecidableEq α]

namespace Links

variable (L : Links α)

/-- Write the `next` word of `a`. -/
def setNext (a b : α) : Links α := { L with next := Function.update L.next a b }

/-- Write the `prev` word of `a`. -/
def setPrev (a b : α) : Links α := { L with prev := Function.update L.prev a b }

/-- Make `n` a ring of its own. -/
def init (n : α) : Links α := (L.setPrev n n).setNext n n

/-- Link `n` between `ref` and its successor. -/
def insertAfter (ref n : α) : Links α :=
  let succ := L.next ref
  (((L.setPrev n ref).setNext n succ).setNext ref n).setPrev succ n

/-- Link `n` between `ref` and its predecessor. -/
def insertBefore (ref n : α) : Links α :=
  let pred := L.prev ref
  (((L.setPrev n pred).setNext n ref).setNext pred n).setPrev ref n

/-- Link the neighbours of `n` to each other; the words of `n` are left as they are. -/
def removeUnsafe (n : α) : Links α := (L.setNext (L.prev n) (L.next n)).setPrev (L.next n) (L.prev n)

/-- Link the neighbours of `n` to each other and make `n` a ring of its own. -/
def remove (n : α) : Links α := (L.removeUnsafe n).init n

/-- Join the ring of `a` and the ring of `b`: the nodes from `b` on follow the last node before
`a`. -/
def concat (a b : α) : Links α :=
  let last := L.prev a
  let last' := L.prev b
  (((L.setNext last b).setPrev b last).setNext last' a).setPrev a last'

/-- Is the ring of head `h` empty? -/
def isEmpty (h : α) : Bool := L.next h == h

/-- `b` follows `a`, in both directions. -/
def Linked (a b : α) : Prop := L.next a = b ∧ L.prev b = a

/-- The neighbours of `n` point back to it. -/
def Joined (n : α) : Prop := L.next (L.prev n) = n ∧ L.prev (L.next n) = n

instance (n : α) : Decidable (L.Joined n) := inferInstanceAs (Decidable (_ ∧ _))

@[simp] theorem setNext_next (a b x : α) :
    (L.setNext a b).next x = if x = a then b else L.next x := by
  simp [setNext, Function.update_apply]

@[simp] theorem setNext_prev (a b : α) : (L.setNext a b).prev = L.prev := rfl

@[simp] theorem setPrev_prev (a b x : α) :
    (L.setPrev a b).prev x = if x = a then b else L.prev x := by
  simp [setPrev, Function.update_apply]

@[simp] theorem setPrev_next (a b : α) : (L.setPrev a b).next = L.next := rfl

end Links

/-- The ring of head `h` holds exactly the nodes `l`, in this order. -/
structure IsRing (L : Links α) (h : α) (l : List α) : Prop where
  nodup : (h :: l).Nodup
  chain : List.IsChain L.Linked (h :: (l ++ [h]))

variable {L L' : Links α} {h n : α} {l : List α}

/-! ### Edits of a chain -/

omit [DecidableEq α] in
theorem chain_congr {l : List α} (hc : List.IsChain L.Linked l)
    (hl : ∀ x ∈ l, L'.next x = L.next x ∧ L'.prev x = L.prev x) : List.IsChain L'.Linked l := by
  refine List.IsChain.imp_of_mem_imp ?_ hc
  intro a b ha hb hab
  exact ⟨(hl a ha).1.trans hab.1, (hl b hb).2.trans hab.2⟩

theorem chain_unlink {pre post : List α} {x y z : α}
    (hc : List.IsChain L.Linked (pre ++ x :: y :: z :: post)) (hpre : y ∉ pre ++ [x])
    (hpost : y ∉ z :: post) :
    List.IsChain (L.removeUnsafe y).Linked (pre ++ x :: z :: post) := by
  rw [List.isChain_split] at hc ⊢
  obtain ⟨hleft, hright⟩ := hc
  obtain ⟨hxy, hyz, hright⟩ := List.isChain_cons_cons.mp hright |>.imp_right List.isChain_cons_cons.mp
  -- no other pair of neighbours uses the two words written
  have keep : ∀ {a b : α}, b ≠ y → a ≠ y → L.Linked a b → (L.removeUnsafe y).Linked a b := by
    intro a b hb ha hab
    have hax : a ≠ x := by
      rintro rfl
      exact hb (hab.1.symm.trans hxy.1)
    have hbz : b ≠ z := by
      rintro rfl
      exact ha (hab.2.symm.trans hyz.2)
    constructor
    · simpa [Links.removeUnsafe, hxy.2, hax] using hab.1
    · simpa [Links.removeUnsafe, hyz.1, hbz] using hab.2
  refine ⟨?_, List.isChain_cons_cons.mpr ⟨?_, ?_⟩⟩
  · refine List.IsChain.imp_of_mem_imp ?_ hleft
    intro a b ha hb hab
    exact keep (fun e => hpre (e ▸ hb)) (fun e => hpre (e ▸ ha)) hab
  · constructor <;> simp [Links.removeUnsafe, hxy.2, hyz.1]
  · refine List.IsChain.imp_of_mem_imp ?_ hright
    intro a b ha hb hab
    exact keep (fun e => hpost (e ▸ hb)) (fun e => hpost (e ▸ ha)) hab

omit [DecidableEq α] in
/-- Link `y` in between `x` and `z`; `L'` is any memory that makes the four assignments and
no other. -/
theorem chain_link (L L' : Links α) (pre post : List α) {x y z : α}
    (hc : List.IsChain L.Linked (pre ++ x :: z :: post))
    (hpre : y ∉ pre ++ [x]) (hpost : y ∉ z :: post)
    (hz : z ∉ (pre ++ [x]).tail) (hz' : z ∉ post)
    (hxy : L'.Linked x y) (hyz : L'.Linked y z)
    (hnext : ∀ a, a ≠ x → a ≠ y → L'.next a = L.next a)
    (hprev : ∀ b, b ≠ z → b ≠ y → L'.prev b = L.prev b) :
    List.IsChain L'.Linked (pre ++ x :: y :: z :: post) := by
  rw [List.isChain_split] at hc ⊢
  obtain ⟨hleft, hright⟩ := hc
  obtain ⟨hxz, hright⟩ := List.isChain_cons_cons.mp hright
  have keep : ∀ {a b : α}, a ≠ y → b ≠ y → b ≠ z → L.Linked a b → L'.Linked a b := by
    intro a b ha hb hbz hab
    have hax : a ≠ x := by
      rintro rfl
      exact hbz (hab.1.symm.trans hxz.1)
    exact ⟨(hnext a hax ha).trans hab.1, (hprev b hbz hb).trans hab.2⟩
  refine ⟨?_, List.isChain_cons_cons.mpr ⟨hxy, List.isChain_cons_cons.mpr ⟨hyz, ?_⟩⟩⟩
  · refine List.IsChain.imp_of_mem_tail_imp ?_ hleft
    intro a b ha hb hab
    exact keep (fun e => hpre (e ▸ ha)) (fun e => hpre (e ▸ List.mem_of_mem_tail hb))
      (fun e => hz (e ▸ hb)) hab
  · refine List.IsChain.imp_of_mem_tail_imp ?_ hright
    intro a b ha hb hab
    exact keep (fun e => hpost (e ▸ ha)) (fun e => hpost (e ▸ List.mem_of_mem_tail hb))
      (fun e => hz' (e ▸ hb)) hab

/-! ### Edits of a ring -/

namespace IsRing

omit [DecidableEq α] in
theorem head_notMem (hr : IsRing L h l) : h ∉ l := (List.nodup_cons.mp hr.nodup).1

omit [DecidableEq α] in
theorem nodup_nodes (hr : IsRing L h l) : l.Nodup := (List.nodup_cons.mp hr.nodup).2

omit [DecidableEq α] in
theorem congr (hr : IsRing L h l)
    (hl : ∀ x ∈ h :: l, L'.next x = L.next x ∧ L'.prev x = L.prev x) : IsRing L' h l := by
  refine ⟨hr.nodup, chain_congr hr.chain ?_⟩
  intro x hx
  refine hl x ?_
  simp only [List.mem_cons, List.mem_append, List.not_mem_nil, or_false] at hx ⊢
  tauto

omit [DecidableEq α] in
theorem nil_iff : IsRing L h [] ↔ L.next h = h ∧ L.prev h = h := by
  constructor
  · rintro ⟨-, hc⟩
    have hself : L.Linked h h := List.isChain_pair.mp hc
    exact hself
  · intro hn
    have hself : L.Linked h h := hn
    exact ⟨by simp, List.isChain_pair.mpr hself⟩

omit [DecidableEq α] in
theorem singleton (hne : n ≠ h) (hn : L.Linked h n) (hh : L.Linked n h) : IsRing L h [n] :=
  ⟨by simpa using hne.symm, List.isChain_cons_cons.mpr ⟨hn, List.isChain_pair.mpr hh⟩⟩

omit [DecidableEq α] in
theorem next_head (hr : IsRing L h l) : L.next h = l.headD h := by
  cases l with
  | nil => exact (nil_iff.mp hr).1
  | cons n l => exact (List.isChain_cons_cons.mp hr.chain).1.1

omit [DecidableEq α] in
theorem linked_node {pre post : List α} (hr : IsRing L h (pre ++ n :: post)) :
    L.Linked ((h :: pre).getLast (by simp)) n ∧ L.Linked n (post.headD h) := by
  have hc : List.IsChain L.Linked ((h :: pre) ++ n :: (post ++ [h])) := by simpa using hr.chain
  obtain ⟨hleft, hright⟩ := List.isChain_split.mp hc
  constructor
  · rw [← List.dropLast_append_getLast (l := h :: pre) (by simp), List.append_assoc] at hleft
    exact List.isChain_pair.mp (List.isChain_split.mp (by simpa using hleft)).2
  · cases post with
    | nil => exact List.isChain_pair.mp hright
    | cons m post => exact (List.isChain_cons_cons.mp hright).1

omit [DecidableEq α] in
theorem next_node {pre post : List α} (hr : IsRing L h (pre ++ n :: post)) :
    L.next n = post.headD h :=
  hr.linked_node.2.1

omit [DecidableEq α] in
theorem next_ne (hr : IsRing L h l) (hn : n ∈ l) : L.next n ≠ n := by
  obtain ⟨pre, post, rfl⟩ := List.append_of_mem hn
  rw [hr.next_node]
  cases post with
  | nil => exact fun e => hr.head_notMem (e ▸ hn)
  | cons m post =>
      have hnd := (List.nodup_append.mp hr.nodup_nodes).2.1
      exact fun e => (List.nodup_cons.mp hnd).1 (e ▸ List.mem_cons_self)

omit [DecidableEq α] in
theorem last_linked (hr : IsRing L h l) : L.Linked ((h :: l).getLast (by simp)) h := by
  have hc := hr.chain
  rw [← List.cons_append, ← List.dropLast_append_getLast (l := h :: l) (by simp)] at hc
  exact List.isChain_pair.mp (List.isChain_split.mp (by simpa using hc)).2

omit [DecidableEq α] in
theorem prev_head_mem (hr : IsRing L h l) : L.prev h ∈ h :: l := by
  rw [hr.last_linked.2]
  exact List.getLast_mem _

omit [DecidableEq α] in
theorem neighbours (hr : IsRing L h l) (hn : n ∈ l) : L.next n ∈ h :: l ∧ L.prev n ∈ h :: l := by
  obtain ⟨pre, post, rfl⟩ := List.append_of_mem hn
  obtain ⟨hleft, hright⟩ := hr.linked_node
  refine ⟨?_, ?_⟩
  · rw [hright.1]
    cases post <;> simp
  · rw [hleft.2]
    have hmem := List.getLast_mem (l := h :: pre) (by simp)
    simp only [List.mem_cons, List.mem_append] at hmem ⊢
    tauto

omit [DecidableEq α] in
theorem joined (hr : IsRing L h l) (hn : n ∈ h :: l) : L.Joined n := by
  rcases List.mem_cons.mp hn with rfl | hn
  · have hlast := hr.last_linked
    refine ⟨by rw [hlast.2, hlast.1], ?_⟩
    cases l with
    | nil => simp [nil_iff.mp hr]
    | cons m l =>
        obtain ⟨hm, -⟩ := List.isChain_cons_cons.mp hr.chain
        rw [hm.1, hm.2]
  · obtain ⟨pre, post, rfl⟩ := List.append_of_mem hn
    obtain ⟨hleft, hright⟩ := hr.linked_node
    exact ⟨by rw [hleft.2, hleft.1], by rw [hright.1, hright.2]⟩

theorem isEmpty_iff (hr : IsRing L h l) : L.isEmpty h = true ↔ l = [] := by
  rw [Links.isEmpty, beq_iff_eq, hr.next_head]
  cases l with
  | nil => simp
  | cons n l =>
      have hn : n ≠ h := fun e => hr.head_notMem (e ▸ List.mem_cons_self)
      simp [hn]

omit [DecidableEq α] in
theorem unique {l' : List α} (hr : IsRing L h l) (hr' : IsRing L h l') : l = l' := by
  -- two chains from the same node to the same excluded node visit the same nodes
  have key : ∀ (l l' : List α) (a : α), h ∉ l → h ∉ l' →
      List.IsChain L.Linked (a :: (l ++ [h])) → List.IsChain L.Linked (a :: (l' ++ [h])) →
      l = l' := by
    intro l
    induction l with
    | nil =>
        intro l' a _ hl' hc hc'
        cases l' with
        | nil => rfl
        | cons b l' =>
            have hb : b = h := (List.isChain_cons_cons.mp hc').1.1.symm.trans
              (List.isChain_pair.mp hc).1
            exact absurd (hb ▸ List.mem_cons_self) hl'
    | cons b l ih =>
        intro l' a hl hl' hc hc'
        obtain ⟨hab, hc⟩ := List.isChain_cons_cons.mp hc
        cases l' with
        | nil =>
            have hb : b = h := hab.1.symm.trans (List.isChain_pair.mp hc').1
            exact absurd (hb ▸ List.mem_cons_self) hl
        | cons b' l' =>
            obtain ⟨hab', hc'⟩ := List.isChain_cons_cons.mp hc'
            obtain rfl : b = b' := hab.1.symm.trans hab'.1
            rw [ih l' b (fun e => hl (List.mem_cons_of_mem _ e))
              (fun e => hl' (List.mem_cons_of_mem _ e)) hc hc']
  exact key l l' h hr.head_notMem hr'.head_notMem hr.chain hr'.chain

omit [DecidableEq α] in
/-- A node whose own words are rewritten, and no others of its ring, cannot leave the ring. -/
theorem mem_of_rewritten {l' : List α} (hr : IsRing L h l) (hn : n ∈ l) (hr' : IsRing L' h l')
    (hkeep : ∀ x ∈ h :: l, x ≠ n → L'.next x = L.next x) : n ∈ l' := by
  have hclosed : ∀ x ∈ h :: l', L'.next x ∈ h :: l' := by
    intro x hx
    rcases List.mem_cons.mp hx with rfl | hx
    · rw [hr'.next_head]
      cases l' <;> simp
    · exact (hr'.neighbours hx).1
  obtain ⟨pre, post, rfl⟩ := List.append_of_mem hn
  have key : ∀ (pre' : List α) (x : α), x ∈ h :: l' → n ∉ x :: pre' →
      (∀ y ∈ x :: pre', y ∈ h :: (pre ++ n :: post)) →
      List.IsChain L.Linked (x :: (pre' ++ [n])) → n ∈ h :: l' := by
    intro pre'
    induction pre' with
    | nil =>
        intro x hx hxn hin hc
        have hnext : L.next x = n := (List.isChain_pair.mp hc).1
        have hne : x ≠ n := fun e => hxn (e ▸ List.mem_cons_self)
        rw [← hnext, ← hkeep x (hin x List.mem_cons_self) hne]
        exact hclosed x hx
    | cons y pre' ih =>
        intro x hx hxn hin hc
        obtain ⟨hxy, hc⟩ := List.isChain_cons_cons.mp hc
        have hne : x ≠ n := fun e => hxn (e ▸ List.mem_cons_self)
        have hy : y ∈ h :: l' := by
          rw [← hxy.1, ← hkeep x (hin x List.mem_cons_self) hne]
          exact hclosed x hx
        exact ih y hy (fun h => hxn (List.mem_cons_of_mem _ h))
          (fun z hz => hin z (List.mem_cons_of_mem _ hz)) hc
  have hnodup := hr.nodup
  rw [← List.cons_append, List.nodup_append] at hnodup
  have hout : n ∉ h :: pre := fun hmem => hnodup.2.2 n hmem n List.mem_cons_self rfl
  have hc : List.IsChain L.Linked (h :: (pre ++ [n])) := by
    have e : h :: (pre ++ n :: post ++ [h]) = (h :: (pre ++ [n])) ++ (post ++ [h]) := by simp
    exact (List.isChain_append.mp (e ▸ hr.chain)).1
  have hmem := key pre h List.mem_cons_self hout
    (fun y hy => by simp only [List.mem_cons, List.mem_append] at hy ⊢; tauto) hc
  refine (List.mem_cons.mp hmem).resolve_left fun e => hr.head_notMem ?_
  exact e ▸ hn

theorem init (L : Links α) (n : α) : IsRing (L.init n) n [] :=
  nil_iff.mpr ⟨by simp [Links.init], by simp [Links.init]⟩

theorem insertAfter (hr : IsRing L h l) (hn : n ∉ h :: l) :
    IsRing (L.insertAfter h n) h (n :: l) := by
  have hnh : n ≠ h := List.ne_of_not_mem_cons hn
  obtain ⟨s, post, hs⟩ : ∃ s post, l ++ [h] = s :: post :=
    List.exists_cons_of_ne_nil (by simp)
  have hsucc : L.next h = s := by
    have hc := hr.chain
    rw [hs] at hc
    exact (List.isChain_cons_cons.mp hc).1.1
  have hns : n ∉ s :: post := by
    rw [← hs]
    simpa [hnh, and_comm] using hn
  have hsn : s ≠ n := fun e => hns (e ▸ List.mem_cons_self)
  have hnd : (s :: post).Nodup := by
    rw [← hs, List.nodup_append_comm]
    simpa using hr.nodup
  refine ⟨?_, ?_⟩
  · simp only [List.nodup_cons, List.mem_cons, not_or] at hn ⊢
    exact ⟨⟨fun e => hn.1 e.symm, hr.head_notMem⟩, hn.2, hr.nodup_nodes⟩
  · have hc := hr.chain
    rw [hs] at hc
    rw [List.cons_append, hs]
    refine chain_link L _ [] _ hc (by simpa using hnh) hns (by simp)
      (List.nodup_cons.mp hnd).1 ?_ ?_ ?_ ?_
    · constructor <;> simp [Links.insertAfter, hsucc, Ne.symm hsn]
    · constructor <;> simp [Links.insertAfter, hsucc, hnh]
    · intro a ha ha'
      simp [Links.insertAfter, ha, ha']
    · intro b hb hb'
      simp [Links.insertAfter, hsucc, hb, hb']

theorem insertBefore (hr : IsRing L h l) (hn : n ∉ h :: l) :
    IsRing (L.insertBefore h n) h (l ++ [n]) := by
  have hnh : n ≠ h := List.ne_of_not_mem_cons hn
  obtain ⟨pre, p, hp⟩ : ∃ pre p, h :: l = pre ++ [p] :=
    ⟨(h :: l).dropLast, (h :: l).getLast (by simp), (List.dropLast_append_getLast _).symm⟩
  have hc : List.IsChain L.Linked (pre ++ p :: [h]) := by
    have hc := hr.chain
    rw [← List.cons_append, hp] at hc
    simpa using hc
  have hpred : L.prev h = p := (List.isChain_pair.mp (List.isChain_split.mp hc).2).2
  have hnp : n ∉ pre ++ [p] := hp ▸ hn
  have hpn : p ≠ n := fun e => hnp (e ▸ by simp)
  refine ⟨?_, ?_⟩
  · rw [← List.cons_append, List.nodup_append]
    refine ⟨hr.nodup, by simp, ?_⟩
    intro a ha b hb hab
    exact hn (List.mem_singleton.mp hb ▸ hab ▸ ha)
  · have hlink := chain_link L (L.insertBefore h n) pre [] (y := n) (z := h) hc hnp
      (by simpa using hnh) (by rw [← hp]; exact hr.head_notMem) (by simp)
      (by constructor <;> simp [Links.insertBefore, hpred, hnh])
      (by constructor <;> simp [Links.insertBefore, hpred, Ne.symm hpn])
      (by intro a ha ha'; simp [Links.insertBefore, hpred, ha, ha'])
      (by intro b hb hb'; simp [Links.insertBefore, hb, hb'])
    have e : h :: (l ++ [n] ++ [h]) = pre ++ p :: n :: [h] := by
      calc h :: (l ++ [n] ++ [h]) = (h :: l) ++ [n, h] := by simp
        _ = pre ++ p :: n :: [h] := by rw [hp]; simp
    rw [e]
    exact hlink

theorem concat (hr : IsRing L h l) (hn : n ∉ h :: l) (ho : IsRing L n []) :
    IsRing (L.concat h n) h (l ++ [n]) := by
  have hprev : L.prev h ≠ n := fun e => hn (e ▸ hr.prev_head_mem)
  have hself := (nil_iff.mp ho).2
  refine (hr.insertBefore hn).congr fun x _ => ⟨?_, ?_⟩
  · simp only [Links.concat, Links.insertBefore, Links.setNext_next, Links.setPrev_next, hself]
    by_cases hx : x = n
    · subst hx
      simp [Ne.symm hprev]
    · simp [hx]
  · simp only [Links.concat, Links.insertBefore, Links.setPrev_prev, Links.setNext_prev, hself]

theorem removeUnsafe {pre post : List α} (hr : IsRing L h (pre ++ n :: post)) :
    IsRing (L.removeUnsafe n) h (pre ++ post) := by
  have hnd := hr.nodup
  obtain ⟨pre', p, hp⟩ : ∃ pre' p, h :: pre = pre' ++ [p] :=
    ⟨(h :: pre).dropLast, (h :: pre).getLast (by simp), (List.dropLast_append_getLast _).symm⟩
  obtain ⟨s, post', hs⟩ : ∃ s post', post ++ [h] = s :: post' :=
    List.exists_cons_of_ne_nil (by simp)
  have e : ∀ m : List α, h :: (pre ++ m ++ post ++ [h]) = pre' ++ p :: (m ++ s :: post') := by
    intro m
    calc h :: (pre ++ m ++ post ++ [h]) = (h :: pre) ++ (m ++ (post ++ [h])) := by simp
      _ = pre' ++ p :: (m ++ s :: post') := by rw [hp, hs]; simp
  have hc := hr.chain
  rw [show pre ++ n :: post = pre ++ [n] ++ post by simp, e] at hc
  have hn : n ∉ h :: pre ∧ n ∉ post ++ [h] := by
    simp only [List.nodup_cons, List.nodup_append, List.mem_append, List.mem_cons] at hnd ⊢
    grind
  refine ⟨?_, ?_⟩
  · refine hnd.sublist ?_
    exact List.Sublist.cons_cons h ((List.Sublist.refl pre).append (List.sublist_cons_self n post))
  · rw [show pre ++ post = pre ++ [] ++ post by simp, e]
    exact chain_unlink hc (hp ▸ hn.1) (hs ▸ hn.2)

theorem remove {pre post : List α} (hr : IsRing L h (pre ++ n :: post)) :
    IsRing (L.remove n) h (pre ++ post) := by
  have hnd := hr.nodup
  refine hr.removeUnsafe.congr ?_
  intro x hx
  have hxn : x ≠ n := by
    rintro rfl
    simp only [List.nodup_cons, List.nodup_append, List.mem_append, List.mem_cons] at hnd hx
    grind
  simp [Links.remove, Links.init, hxn]

end IsRing

/-! ### Other names of the nodes -/

namespace Links

variable {β : Type} (L : Links α) (e : α ≃ β)

/-- The words of `L`, where a node `a` has the name `e a`. -/
def rename : Links β := ⟨fun b => e (L.next (e.symm b)), fun b => e (L.prev (e.symm b))⟩

omit [DecidableEq α] in
@[simp] theorem rename_next (a : α) : (L.rename e).next (e a) = e (L.next a) := by
  simp [rename]

omit [DecidableEq α] in
@[simp] theorem rename_prev (a : α) : (L.rename e).prev (e a) = e (L.prev a) := by
  simp [rename]

omit [DecidableEq α] in
@[simp] theorem rename_rename_symm : (L.rename e).rename e.symm = L := by
  simp [rename]

omit [DecidableEq α] in
theorem joined_rename (n : α) : (L.rename e).Joined (e n) ↔ L.Joined n := by
  simp [Joined]

variable [DecidableEq β]

theorem rename_setNext (a b : α) : (L.rename e).setNext (e a) (e b) = (L.setNext a b).rename e := by
  simp only [setNext, rename, mk.injEq, and_true]
  funext x
  simp only [Function.update_apply, Equiv.symm_apply_eq]
  split <;> rfl

theorem rename_setPrev (a b : α) : (L.rename e).setPrev (e a) (e b) = (L.setPrev a b).rename e := by
  simp only [setPrev, rename, mk.injEq, true_and]
  funext x
  simp only [Function.update_apply, Equiv.symm_apply_eq]
  split <;> rfl

theorem rename_concat (a b : α) : (L.rename e).concat (e a) (e b) = (L.concat a b).rename e := by
  simp only [concat, rename_prev, rename_setNext, rename_setPrev]

theorem rename_remove (n : α) : (L.rename e).remove (e n) = (L.remove n).rename e := by
  simp only [remove, removeUnsafe, init, rename_next, rename_prev, rename_setNext, rename_setPrev]

end Links

end CircularList
