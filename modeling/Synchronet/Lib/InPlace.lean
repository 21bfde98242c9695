import Mathlib.Data.List.Basic

/-!
# Decoding in place

A loop that decodes a buffer over itself has three parts of it before it: what it has written,
what it has read and may write over, and what it has not read.  The written part and the stale
one together are as long as what was read.
-/

namespace Synchronet.InPlace

variable {α : Type*}

/-- The next item to be read. -/
@[simp] theorem getElem?_unread (A G : List α) (c : α) (R : List α) :
    (A ++ G ++ c :: R)[A.length + G.length]? = some c := by
  rw [← List.length_append, List.getElem?_append_right (Nat.le_refl _), Nat.sub_self]
  rfl

/-- The item is read. -/
theorem read_one (A G : List α) (c : α) (R : List α) :
    A ++ G ++ c :: R = A ++ (G ++ [c]) ++ R := by
  simp

/-- An item is written over the first stale one. -/
theorem set_stale (A : List α) (g : α) (G R : List α) (c : α) :
    (A ++ g :: G ++ R).set A.length c = (A ++ [c]) ++ G ++ R := by
  rw [List.append_assoc, List.set_append_right _ _ (Nat.le_refl _), Nat.sub_self, List.cons_append,
    List.set_cons_zero]
  simp

/-- An item is read and another is written. -/
theorem set_read (A G : List α) (c : α) (R : List α) (x : α) :
    ∃ G', G'.length = G.length ∧ (A ++ G ++ c :: R).set A.length x = (A ++ [x]) ++ G' ++ R := by
  cases G with
  | nil => exact ⟨[], rfl, by rw [read_one, List.nil_append, set_stale]⟩
  | cons g G => exact ⟨G ++ [c], by simp, by rw [set_stale]; simp⟩

/-! ## By what is left

What matters to the reader is the rest of the buffer, as long as the writer is not ahead. -/

variable {buf : List α} {p dest : ℕ} {c : α} {rest : List α}

theorem getElem?_of_drop (h : buf.drop p = c :: rest) : buf[p]? = some c := by
  rw [← Nat.add_zero p, ← List.getElem?_drop, h]
  rfl

theorem lt_length_of_drop (h : buf.drop p = c :: rest) : p < buf.length :=
  (List.getElem?_eq_some_iff.mp (getElem?_of_drop h)).1

theorem getElem_of_drop (h : buf.drop p = c :: rest) (hp : p < buf.length) : buf[p] = c :=
  Option.some.inj ((List.getElem?_eq_getElem hp).symm.trans (getElem?_of_drop h))

theorem drop_succ_of_drop (h : buf.drop p = c :: rest) : buf.drop (p + 1) = rest := by
  rw [← List.drop_drop, h]
  rfl

/-- Writing behind the reader leaves the rest. -/
theorem drop_succ_set (h : buf.drop p = c :: rest) (hdest : dest ≤ p) (x : α) :
    (buf.set dest x).drop (p + 1) = rest := by
  rw [List.drop_set_of_lt (by omega), drop_succ_of_drop h]

end Synchronet.InPlace
