import Mathlib.Data.Set.Insert
import Mathlib.Order.BooleanAlgebra.Set

/-! # A set kept from a log of its changes

An observer is told the changes of a set, and keeps the set from them. A log has its latest entry
first; the entries that are no change are passed over, so that the log may be the record of all that the
observer is told.

* **Entries.** `change` tells which entries are changes: an element is added (`true`) or removed (`false`).
* **The set kept.** `kept X log` : the set of an observer that starts from `X`.  Logs compose
  (`kept_append`), and the entries that are no change do not matter (`kept_filter`).
* **Soundness.** `Sound X log` : nothing is added twice, and nothing is removed that is not there.  It
  composes in the same way (`sound_append`), the later log being sound from the set that the earlier
  one leaves; so the soundness of a run is that of its calls, each from the set kept before it.
* **Runs of one kind.** A loop that adds, or removes, the elements of a list makes a log of one kind.
  `kept_adds` and `kept_removes` are the sets that it leaves, `sound_adds` and `sound_removes` when it
  is sound: when the list has no repetition and its elements are absent, or present, before it. -/

namespace SetLog

variable {α β : Type*} {change : β → Option (Bool × α)} {X : Set α} {a : α} {b : β}
  {log log' : List β}

/-- The set after a change : the element is added or removed. -/
def keep (X : Set α) : Option (Bool × α) → Set α
  | some (true, a) => insert a X
  | some (false, a) => X \ {a}
  | none => X

/-- The change is one of the set. -/
def Changes (X : Set α) : Option (Bool × α) → Prop
  | some (true, a) => a ∉ X
  | some (false, a) => a ∈ X
  | none => True

/-- The set kept by an observer of the log. -/
def kept (change : β → Option (Bool × α)) (X : Set α) : List β → Set α
  | [] => X
  | b :: log => keep (kept change X log) (change b)

/-- Every entry of the log is a change of the set kept so far. -/
def Sound (change : β → Option (Bool × α)) (X : Set α) : List β → Prop
  | [] => True
  | b :: log => Sound change X log ∧ Changes (kept change X log) (change b)

/-- **Logs compose.** -/
theorem kept_append : kept change X (log ++ log') = kept change (kept change X log') log := by
  induction log with
  | nil => rfl
  | cons b log ih =>
      show keep (kept change X (log ++ log')) (change b) = _
      rw [ih]
      rfl

theorem sound_append : Sound change X (log ++ log') ↔
    Sound change X log' ∧ Sound change (kept change X log') log := by
  induction log with
  | nil =>
      show Sound change X log' ↔ Sound change X log' ∧ True
      rw [and_true]
  | cons b log ih =>
      show Sound change X (log ++ log') ∧ Changes (kept change X (log ++ log')) (change b) ↔
        Sound change X log' ∧ Sound change (kept change X log') log ∧
          Changes (kept change (kept change X log') log) (change b)
      rw [ih, kept_append, and_assoc]

/-- **The other entries do not matter.** -/
theorem kept_filter (change : β → Option (Bool × α)) (X : Set α) (log : List β) :
    kept change X (log.filter fun b => (change b).isSome) = kept change X log := by
  induction log with
  | nil => rfl
  | cons b log ih =>
      cases hb : change b with
      | none =>
          rw [List.filter_cons_of_neg (by simp [hb]), ih]
          show _ = keep (kept change X log) (change b)
          rw [hb]
          rfl
      | some e =>
          rw [List.filter_cons_of_pos (by simp [hb])]
          show keep (kept change X _) (change b) = keep (kept change X log) (change b)
          rw [ih]

theorem sound_filter (change : β → Option (Bool × α)) (X : Set α) (log : List β) :
    Sound change X (log.filter fun b => (change b).isSome) ↔ Sound change X log := by
  induction log with
  | nil => exact Iff.rfl
  | cons b log ih =>
      cases hb : change b with
      | none =>
          rw [List.filter_cons_of_neg (by simp [hb]), ih]
          show _ ↔ Sound change X log ∧ Changes (kept change X log) (change b)
          rw [hb]
          exact (and_iff_left trivial).symm
      | some e =>
          rw [List.filter_cons_of_pos (by simp [hb])]
          show Sound change X _ ∧ Changes (kept change X _) (change b) ↔
            Sound change X log ∧ Changes (kept change X log) (change b)
          rw [ih, kept_filter]

/-! ### Runs of one kind -/

section runs

variable {entry : α → β} {l : List α}

theorem kept_adds (hentry : ∀ a, change (entry a) = some (true, a)) :
    kept change X (l.map entry) = X ∪ {a | a ∈ l} := by
  induction l with
  | nil => simp [kept]
  | cons a l ih =>
      show keep (kept change X (l.map entry)) (change (entry a)) = _
      rw [ih, hentry]
      ext x
      simp only [keep, Set.mem_insert_iff, Set.mem_union, Set.mem_ofPred_eq, List.mem_cons]
      exact or_left_comm

theorem sound_adds (hentry : ∀ a, change (entry a) = some (true, a)) (hnd : l.Nodup) :
    Sound change X (l.map entry) ↔ ∀ a ∈ l, a ∉ X := by
  induction l with
  | nil => simp [Sound]
  | cons a l ih =>
      obtain ⟨ha, hnd⟩ := List.nodup_cons.mp hnd
      show Sound change X (l.map entry) ∧ Changes (kept change X (l.map entry)) (change (entry a)) ↔ _
      rw [ih hnd, kept_adds hentry, hentry]
      simp only [Changes, Set.mem_union, Set.mem_ofPred_eq, ha, or_false, List.forall_mem_cons]
      exact and_comm

theorem kept_removes (hentry : ∀ a, change (entry a) = some (false, a)) :
    kept change X (l.map entry) = X \ {a | a ∈ l} := by
  induction l with
  | nil => simp [kept]
  | cons a l ih =>
      show keep (kept change X (l.map entry)) (change (entry a)) = _
      rw [ih, hentry]
      ext x
      simp only [keep, Set.mem_sdiff, Set.mem_singleton_iff, Set.mem_ofPred_eq, List.mem_cons, not_or,
        and_assoc]
      exact and_congr_right fun _ => and_comm

theorem sound_removes (hentry : ∀ a, change (entry a) = some (false, a)) (hnd : l.Nodup) :
    Sound change X (l.map entry) ↔ ∀ a ∈ l, a ∈ X := by
  induction l with
  | nil => simp [Sound]
  | cons a l ih =>
      obtain ⟨ha, hnd⟩ := List.nodup_cons.mp hnd
      show Sound change X (l.map entry) ∧ Changes (kept change X (l.map entry)) (change (entry a)) ↔ _
      rw [ih hnd, kept_removes hentry, hentry]
      simp only [Changes, Set.mem_sdiff, Set.mem_ofPred_eq, ha, not_false_iff, and_true,
        List.forall_mem_cons]
      exact and_comm

end runs

end SetLog
