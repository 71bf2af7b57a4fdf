import Mathlib.Data.List.Perm.Basic
import KernelTk.Lib.CircularList

/-! # Tables of rings of one kind

The rings of the containers of one kind: every container `a` has a head `head a`, every element
`b` a node `node b`.  Where a family of all the rings of a memory is too much to keep, because some of
its lists are broken, one such table at a time can be followed.

* **Tables.** `RingTable L head node M S` : the ring of a container of the table `M` holds its
  list, no element is in two of them, and the elements of `S`, which are in none, are linked to
  themselves.  `Shape` : heads and nodes are pairwise distinct.
* **Operations.** Linking a node in (`insertAfter`, `insertBefore`, `concat`), unlinking it (`remove`,
  `removeUnsafe`), a new container (`initHead`) and a new element (`initNode`).  Each is an instance of
  `RingTable.edit`, which gives one container a new list in a memory that differs on the words of its
  elements and of one more.  An element outside of the table may have any links, unless it is in `S`.
* **Self-linked nodes.** Unlinking an element that is linked to itself changes no word
  (`RingTable.removeUnsafe_single`, `RingTable.remove_single`): a program may unlink such an element
  once too often without harm, which is why `S` is part of the table.
* **Frames.** `RingTable.congr` : fewer containers, fewer single elements, and the same words for the
  rest; `RingTable.next_node` says where the successor of a node can lie. -/

namespace CircularList

variable {α β ν : Type}

/-- Heads and nodes are pairwise distinct. -/
structure Shape (head : α → ν) (node : β → ν) : Prop where
  head_inj : ∀ {a a'}, head a = head a' → a = a'
  node_inj : ∀ {b b'}, node b = node b' → b = b'
  ne : ∀ a b, head a ≠ node b

/-- The rings of the containers of `M`, and the elements of `S` linked to themselves. -/
structure RingTable (L : Links ν) (head : α → ν) (node : β → ν) (M : α → Option (List β))
    (S : β → Prop) : Prop where
  ring : ∀ {a l}, M a = some l → IsRing L (head a) (l.map node)
  disjoint : ∀ {a a' l l' b}, M a = some l → M a' = some l' → b ∈ l → b ∈ l' → a = a'
  single : ∀ {b}, S b → IsRing L (node b) []
  loose : ∀ {a l b}, S b → M a = some l → b ∉ l

namespace RingTable

variable {L L' : Links ν} {head : α → ν} {node : β → ν} {M M' : α → Option (List β)}
  {S S' : β → Prop} {a : α} {b : β} {l l' : List β}

/-- Fewer containers, fewer single elements, and the same words for the rest. -/
theorem congr (T : RingTable L head node M S) (hM : ∀ a l, M' a = some l → M a = some l)
    (hS : ∀ b, S' b → S b)
    (hhead : ∀ a, (M' a).isSome → L'.next (head a) = L.next (head a) ∧
      L'.prev (head a) = L.prev (head a))
    (hnode : ∀ b, L'.next (node b) = L.next (node b) ∧ L'.prev (node b) = L.prev (node b)) :
    RingTable L' head node M' S' where
  ring := by
    intro a l hl
    refine (T.ring (hM a l hl)).congr ?_
    intro x hx
    rcases List.mem_cons.mp hx with rfl | hx
    · exact hhead a (by simp [hl])
    · obtain ⟨b, -, rfl⟩ := List.mem_map.mp hx
      exact hnode b
  disjoint := fun hl hl' => T.disjoint (hM _ _ hl) (hM _ _ hl')
  single := by
    intro b hb
    refine (T.single (hS b hb)).congr ?_
    intro x hx
    rw [List.mem_singleton.mp hx]
    exact hnode b
  loose := fun hb hl => T.loose (hS _ hb) (hM _ _ hl)

theorem weaken (T : RingTable L head node M S) (hS : ∀ b, S' b → S b) :
    RingTable L head node M S' :=
  T.congr (fun _ _ => id) hS (fun _ _ => ⟨rfl, rfl⟩) fun _ => ⟨rfl, rfl⟩

/-- A node that is first in a ring, or last, or alone, has its successor in the ring. -/
theorem next_node (T : RingTable L head node M S) {pre post : List β}
    (hl : M a = some (pre ++ b :: post)) :
    L.next (node b) = (post.map node).headD (head a) := by
  have hr : IsRing L (head a) (pre.map node ++ node b :: post.map node) := by
    simpa using T.ring hl
  exact hr.next_node

theorem next_first (T : RingTable L head node M S) {post : List β} (hl : M a = some (b :: post)) :
    L.next (node b) = (post.map node).headD (head a) := by
  have hl' : M a = some ([] ++ b :: post) := hl
  exact T.next_node hl'

theorem next_head (T : RingTable L head node M S) (hl : M a = some l) :
    L.next (head a) = (l.map node).headD (head a) :=
  (T.ring hl).next_head

theorem addSingle (T : RingTable L head node M S) (hb : IsRing L (node b) []) :
    RingTable L head node M (fun x => x = b ∨ S x) := by
  refine ⟨T.ring, T.disjoint, fun hx => ?_, fun {a l x} hx hl hmem => ?_⟩
  · rcases hx with rfl | hx
    · exact hb
    · exact T.single hx
  · rcases hx with rfl | hx
    · exact (T.ring hl).next_ne (List.mem_map_of_mem hmem) (IsRing.nil_iff.mp hb).1
    · exact T.loose hx hl hmem

section edits

variable [DecidableEq α] [DecidableEq ν]

omit [DecidableEq ν] in
/-- A new list for one container, made of its own elements and of `b`, in a memory that differs on
their words only. -/
theorem edit (T : RingTable L head node M S) (hs : Shape head node) (hl : M a = some l)
    (hring : IsRing L' (head a) (l'.map node)) (hmem : ∀ x ∈ l', x = b ∨ x ∈ l)
    (hb : ∀ a' l', a' ≠ a → M a' = some l' → b ∉ l')
    (hS : ∀ x, S' x → x ∉ l' ∧ (x = b ∧ IsRing L' (node x) [] ∨ x ≠ b ∧ S x))
    (hkeep : ∀ x, x ∉ node b :: head a :: l.map node →
      L'.next x = L.next x ∧ L'.prev x = L.prev x) :
    RingTable L' head node (Function.update M a (some l')) S' := by
  have hsb : ∀ x a' m, S' x → a' ≠ a → M a' = some m → x ∉ m := by
    intro x a' m hx ha hm
    rcases (hS x hx).2 with ⟨rfl, -⟩ | ⟨-, hx⟩
    · exact hb a' m ha hm
    · exact T.loose hx hm
  constructor
  · intro a' m hm
    by_cases ha : a' = a
    · subst ha
      rw [Function.update_self, Option.some.injEq] at hm
      exact hm ▸ hring
    · rw [Function.update_of_ne ha] at hm
      refine (T.ring hm).congr fun x hx => hkeep x ?_
      simp only [List.mem_cons, List.mem_map, not_or, not_exists, not_and] at hx ⊢
      rcases hx with rfl | ⟨y, hy, rfl⟩
      · exact ⟨hs.ne _ _, fun e => ha (hs.head_inj e), fun y _ e => hs.ne a' y e.symm⟩
      · refine ⟨fun e => hb a' m ha hm (hs.node_inj e ▸ hy), fun e => hs.ne a y e.symm, ?_⟩
        exact fun z hz e => ha (T.disjoint hm hl (hs.node_inj e ▸ hy) hz)
  · intro a₁ a₂ l₁ l₂ x h₁ h₂ hx₁ hx₂
    by_cases ha₁ : a₁ = a <;> by_cases ha₂ : a₂ = a
    · exact ha₁.trans ha₂.symm
    · subst ha₁
      rw [Function.update_self, Option.some.injEq] at h₁
      rw [Function.update_of_ne ha₂] at h₂
      rcases hmem x (h₁ ▸ hx₁) with rfl | hx
      · exact absurd hx₂ (hb a₂ l₂ ha₂ h₂)
      · exact T.disjoint hl h₂ hx hx₂
    · subst ha₂
      rw [Function.update_self, Option.some.injEq] at h₂
      rw [Function.update_of_ne ha₁] at h₁
      rcases hmem x (h₂ ▸ hx₂) with rfl | hx
      · exact absurd hx₁ (hb a₁ l₁ ha₁ h₁)
      · exact T.disjoint h₁ hl hx₁ hx
    · rw [Function.update_of_ne ha₁] at h₁
      rw [Function.update_of_ne ha₂] at h₂
      exact T.disjoint h₁ h₂ hx₁ hx₂
  · intro x hx
    rcases (hS x hx).2 with ⟨-, hr⟩ | ⟨hxb, hx'⟩
    · exact hr
    · refine (T.single hx').congr fun y hy => hkeep y ?_
      rw [List.mem_singleton.mp hy]
      simp only [List.mem_cons, List.mem_map, not_or, not_exists, not_and]
      refine ⟨fun e => hxb (hs.node_inj e), fun e => hs.ne a x e.symm, ?_⟩
      exact fun z hz e => T.loose hx' hl (hs.node_inj e ▸ hz)
  · intro a' m x hx hm
    by_cases ha : a' = a
    · subst ha
      rw [Function.update_self, Option.some.injEq] at hm
      exact hm ▸ (hS x hx).1
    · rw [Function.update_of_ne ha] at hm
      exact hsb x a' m hx ha hm

theorem insertAfter (T : RingTable L head node M S) (hs : Shape head node) (hl : M a = some l)
    (hb : ∀ a' l', M a' = some l' → b ∉ l') :
    RingTable (L.insertAfter (head a) (node b)) head node (Function.update M a (some (b :: l)))
      (fun x => x ≠ b ∧ S x) := by
  have hr := T.ring hl
  have hnb : node b ∉ head a :: l.map node := by
    simp only [List.mem_cons, List.mem_map, not_or, not_exists, not_and]
    exact ⟨fun e => hs.ne a b e.symm, fun y hy e => hb a l hl (hs.node_inj e ▸ hy)⟩
  refine T.edit hs hl (b := b) (by simpa using hr.insertAfter hnb) ?_ (fun a' m _ hm => hb a' m hm) ?_ ?_
  · exact fun x hx => List.mem_cons.mp hx
  · rintro x ⟨hxb, hx⟩
    exact ⟨fun h => (List.mem_cons.mp h).elim hxb (T.loose hx hl), .inr ⟨hxb, hx⟩⟩
  · intro x hx
    have hxs : x ≠ L.next (head a) := by
      rw [hr.next_head]
      intro e
      refine hx (List.mem_cons_of_mem _ ?_)
      rw [e]
      cases l <;> simp
    simp only [List.mem_cons, not_or] at hx
    simp [Links.insertAfter, hx.1, hx.2.1, hxs]

theorem insertBefore (T : RingTable L head node M S) (hs : Shape head node) (hl : M a = some l)
    (hb : ∀ a' l', M a' = some l' → b ∉ l') :
    RingTable (L.insertBefore (head a) (node b)) head node
      (Function.update M a (some (l ++ [b]))) (fun x => x ≠ b ∧ S x) := by
  have hr := T.ring hl
  have hnb : node b ∉ head a :: l.map node := by
    simp only [List.mem_cons, List.mem_map, not_or, not_exists, not_and]
    exact ⟨fun e => hs.ne a b e.symm, fun y hy e => hb a l hl (hs.node_inj e ▸ hy)⟩
  have hmem : ∀ x, x ∈ l ++ [b] → x = b ∨ x ∈ l := by
    intro x hx
    rcases List.mem_append.mp hx with hx | hx
    · exact .inr hx
    · exact .inl (List.mem_singleton.mp hx)
  refine T.edit hs hl (b := b) (by simpa using hr.insertBefore hnb) hmem
    (fun a' m _ hm => hb a' m hm) ?_ ?_
  · rintro x ⟨hxb, hx⟩
    exact ⟨fun h => (hmem x h).elim hxb (T.loose hx hl), .inr ⟨hxb, hx⟩⟩
  · intro x hx
    have hxp : x ≠ L.prev (head a) := fun e => hx (List.mem_cons_of_mem _ (e ▸ hr.prev_head_mem))
    simp only [List.mem_cons, not_or] at hx
    simp [Links.insertBefore, hx.1, hx.2.1, hxp]

/-- A single element becomes the last one of `a`. -/
theorem concat (T : RingTable L head node M S) (hs : Shape head node) (hl : M a = some l) (hb : S b) :
    RingTable (L.concat (head a) (node b)) head node (Function.update M a (some (l ++ [b])))
      (fun x => x ≠ b ∧ S x) := by
  have hr := T.ring hl
  have hnb : node b ∉ head a :: l.map node := by
    simp only [List.mem_cons, List.mem_map, not_or, not_exists, not_and]
    exact ⟨fun e => hs.ne a b e.symm, fun y hy e => T.loose hb hl (hs.node_inj e ▸ hy)⟩
  have hmem : ∀ x, x ∈ l ++ [b] → x = b ∨ x ∈ l := by
    intro x hx
    rcases List.mem_append.mp hx with hx | hx
    · exact .inr hx
    · exact .inl (List.mem_singleton.mp hx)
  refine T.edit hs hl (b := b) (by simpa using hr.concat hnb (T.single hb)) hmem
    (fun a' m _ hm => T.loose hb hm) ?_ ?_
  · rintro x ⟨hxb, hx⟩
    exact ⟨fun h => (hmem x h).elim hxb (T.loose hx hl), .inr ⟨hxb, hx⟩⟩
  · intro x hx
    have hself := (IsRing.nil_iff.mp (T.single hb)).2
    have hxp : x ≠ L.prev (head a) := fun e => hx (List.mem_cons_of_mem _ (e ▸ hr.prev_head_mem))
    simp only [List.mem_cons, not_or] at hx
    simp [Links.concat, hself, hx.1, hx.2.1, hxp]

variable [DecidableEq β]

/-- An element is unlinked; its links are left as they are. -/
theorem removeUnsafe (T : RingTable L head node M S) (hs : Shape head node) (hl : M a = some l)
    (hb : b ∈ l) :
    RingTable (L.removeUnsafe (node b)) head node (Function.update M a (some (l.erase b))) S := by
  have hr := T.ring hl
  have hnd : l.Nodup := hr.nodup_nodes.of_map _
  have hnb : node b ∈ l.map node := List.mem_map_of_mem hb
  refine T.edit hs hl (b := b) ?_ ?_ ?_ ?_ ?_
  · obtain ⟨pre, post, -, hpre, he⟩ := List.exists_erase_eq hb
    rw [he, List.map_append]
    refine IsRing.removeUnsafe (n := node b) ?_
    rw [hpre] at hr
    simpa using hr
  · exact fun x hx => .inr (List.mem_of_mem_erase hx)
  · exact fun a' m ha hm hbm => ha (T.disjoint hm hl hbm hb)
  · intro x hx
    refine ⟨fun h => T.loose hx hl (List.mem_of_mem_erase h), .inr ⟨?_, hx⟩⟩
    rintro rfl
    exact T.loose hx hl hb
  · intro x hx
    have hin : ∀ y, y ∈ head a :: l.map node → y ∈ node b :: head a :: l.map node :=
      fun y => List.mem_cons_of_mem _
    have hxs : x ≠ L.next (node b) := fun e => hx (e ▸ hin _ (hr.neighbours hnb).1)
    have hxp : x ≠ L.prev (node b) := fun e => hx (e ▸ hin _ (hr.neighbours hnb).2)
    simp [Links.removeUnsafe, hxs, hxp]

theorem remove (T : RingTable L head node M S) (hs : Shape head node) (hl : M a = some l)
    (hb : b ∈ l) :
    RingTable (L.remove (node b)) head node (Function.update M a (some (l.erase b)))
      (fun x => x = b ∨ S x) := by
  have hr := T.ring hl
  have hnd : l.Nodup := hr.nodup_nodes.of_map _
  have hnb : node b ∈ l.map node := List.mem_map_of_mem hb
  refine T.edit hs hl (b := b) ?_ ?_ ?_ ?_ ?_
  · obtain ⟨pre, post, -, hpre, he⟩ := List.exists_erase_eq hb
    rw [he, List.map_append]
    refine IsRing.remove (n := node b) ?_
    rw [hpre] at hr
    simpa using hr
  · exact fun x hx => .inr (List.mem_of_mem_erase hx)
  · exact fun a' m ha hm hbm => ha (T.disjoint hm hl hbm hb)
  · intro x hx
    by_cases hxb : x = b
    · subst hxb
      exact ⟨fun h => absurd rfl ((hnd.mem_erase_iff).mp h).1, .inl ⟨rfl, IsRing.init _ _⟩⟩
    · have hx := hx.resolve_left hxb
      exact ⟨fun h => T.loose hx hl (List.mem_of_mem_erase h), .inr ⟨hxb, hx⟩⟩
  · intro x hx
    have hin : ∀ y, y ∈ head a :: l.map node → y ∈ node b :: head a :: l.map node :=
      fun y => List.mem_cons_of_mem _
    have hxb : x ≠ node b := fun e => hx (e ▸ List.mem_cons_self)
    have hxs : x ≠ L.next (node b) := fun e => hx (e ▸ hin _ (hr.neighbours hnb).1)
    have hxp : x ≠ L.prev (node b) := fun e => hx (e ▸ hin _ (hr.neighbours hnb).2)
    simp [Links.remove, Links.removeUnsafe, Links.init, hxb, hxs, hxp]

omit [DecidableEq α] [DecidableEq β] in
/-- Unlinking an element that is linked to itself changes no word. -/
theorem removeUnsafe_single (T : RingTable L head node M S) (hb : S b) :
    L.removeUnsafe (node b) = L := by
  obtain ⟨hnext, hprev⟩ := IsRing.nil_iff.mp (T.single hb)
  cases L with
  | mk next prev =>
      simp only at hnext hprev
      simp only [Links.removeUnsafe, Links.setNext, Links.setPrev, hnext, hprev, Links.mk.injEq]
      constructor <;> funext x <;> by_cases hx : x = node b <;> simp [hx, hnext, hprev]

omit [DecidableEq α] [DecidableEq β] in
theorem remove_single (T : RingTable L head node M S) (hb : S b) : L.remove (node b) = L := by
  rw [Links.remove, T.removeUnsafe_single hb]
  obtain ⟨hnext, hprev⟩ := IsRing.nil_iff.mp (T.single hb)
  cases L with
  | mk next prev =>
      simp only at hnext hprev
      simp only [Links.init, Links.setNext, Links.setPrev, Links.mk.injEq]
      constructor <;> funext x <;> by_cases hx : x = node b <;> simp [hx, hnext, hprev]

omit [DecidableEq β] in
theorem initHead (T : RingTable L head node M S) (hs : Shape head node) (a : α)
    (ha : ∀ l, M a = some l → l = []) :
    RingTable (L.init (head a)) head node (Function.update M a (some [])) S := by
  have hkeep : ∀ x, x ≠ head a → (L.init (head a)).next x = L.next x ∧
      (L.init (head a)).prev x = L.prev x := fun x hx => by simp [Links.init, hx]
  constructor
  · intro a' m hm
    by_cases haa : a' = a
    · subst haa
      rw [Function.update_self, Option.some.injEq] at hm
      subst hm
      exact IsRing.init _ _
    · rw [Function.update_of_ne haa] at hm
      refine (T.ring hm).congr fun x hx => hkeep x ?_
      rcases List.mem_cons.mp hx with rfl | hx
      · exact fun e => haa (hs.head_inj e)
      · obtain ⟨y, -, rfl⟩ := List.mem_map.mp hx
        exact fun e => hs.ne a y e.symm
  · intro a₁ a₂ l₁ l₂ x h₁ h₂ hx₁ hx₂
    have hne : ∀ {a' m}, Function.update M a (some []) a' = some m → x ∈ m → M a' = some m := by
      intro a' m hm hx
      by_cases haa : a' = a
      · subst haa
        rw [Function.update_self, Option.some.injEq] at hm
        simp [← hm] at hx
      · rwa [Function.update_of_ne haa] at hm
    exact T.disjoint (hne h₁ hx₁) (hne h₂ hx₂) hx₁ hx₂
  · intro b hb
    refine (T.single hb).congr fun x hx => hkeep x ?_
    rw [List.mem_singleton.mp hx]
    exact fun e => hs.ne a b e.symm
  · intro a' m b hb hm
    by_cases haa : a' = a
    · subst haa
      rw [Function.update_self, Option.some.injEq] at hm
      simp [← hm]
    · rw [Function.update_of_ne haa] at hm
      exact T.loose hb hm

omit [DecidableEq α] [DecidableEq β] in
theorem initNode (T : RingTable L head node M S) (hs : Shape head node)
    (hb : ∀ a' l', M a' = some l' → b ∉ l') :
    RingTable (L.init (node b)) head node M (fun x => x = b ∨ S x) := by
  have hkeep : ∀ x, x ≠ node b → (L.init (node b)).next x = L.next x ∧
      (L.init (node b)).prev x = L.prev x := fun x hx => by simp [Links.init, hx]
  refine ⟨fun {a' m} hm => ?_, T.disjoint, fun {x} hx => ?_, fun {a' m x} hx hm => ?_⟩
  · refine (T.ring hm).congr fun x hx => hkeep x ?_
    rcases List.mem_cons.mp hx with rfl | hx
    · exact hs.ne a' b
    · obtain ⟨y, hy, rfl⟩ := List.mem_map.mp hx
      exact fun e => hb a' m hm (hs.node_inj e ▸ hy)
  · rcases hx with rfl | hx
    · exact IsRing.init _ _
    · by_cases hxb : x = b
      · subst hxb
        exact IsRing.init _ _
      · refine (T.single hx).congr fun y hy => hkeep y ?_
        rw [List.mem_singleton.mp hy]
        exact fun e => hxb (hs.node_inj e)
  · rcases hx with rfl | hx
    · exact hb a' m hm
    · exact T.loose hx hm

end edits

end RingTable

end CircularList
