import Synchronet.Lib.RecordFile

/-!
# Records with columns

A record is filled by writes one after the other.  A column that no later write touches
keeps what was written to it.
-/

namespace Synchronet.Columns

open RecordFile

variable {α : Type*}

/-- Two pieces of a record, each with its place and its length, have nothing in common. -/
def Apart (p n q m : ℕ) : Prop := p + n ≤ q ∨ q + m ≤ p

theorem Apart.symm {p n q m : ℕ} (h : Apart p n q m) : Apart q m p n := Or.symm h

/-- The start of a piece. -/
theorem Apart.shorten {p n n' q m : ℕ} (h : Apart p n q m) (hn : n' ≤ n) : Apart p n' q m := by
  rcases h with h | h
  · exact .inl (le_trans (Nat.add_le_add_left hn p) h)
  · exact .inr h

/-- The record after writes, each with its place and what is written. -/
def writeAll (fill : α) (b : List α) (ws : List (ℕ × List α)) : List α :=
  ws.foldl (fun b w ↦ writeAt fill b w.1 w.2) b

variable {fill : α} {b : List α} {ws : List (ℕ × List α)} {size : ℕ}

theorem length_writeAt_inside (hb : b.length = size) {pos : ℕ} {xs : List α}
    (h : pos + xs.length ≤ size) : (writeAt fill b pos xs).length = size := by
  by_cases hnil : xs = []
  · rw [hnil, writeAt_nil, hb]
  · rw [length_writeAt fill b pos hnil, hb]
    exact max_eq_left h

theorem length_writeAll (hb : b.length = size) (hin : ∀ w ∈ ws, w.1 + w.2.length ≤ size) :
    (writeAll fill b ws).length = size := by
  induction ws generalizing b with
  | nil => exact hb
  | cons w ws ih =>
      exact ih (length_writeAt_inside hb (hin w List.mem_cons_self))
        fun w' hw' ↦ hin w' (List.mem_cons_of_mem _ hw')

/-- Writes elsewhere leave a piece alone. -/
theorem readAt_writeAll_of_apart (hb : b.length = size)
    (hin : ∀ w ∈ ws, w.1 + w.2.length ≤ size) {q n : ℕ} (hq : q + n ≤ size)
    (hapart : ∀ w ∈ ws, Apart q n w.1 w.2.length) :
    readAt (writeAll fill b ws) q n = readAt b q n := by
  induction ws generalizing b with
  | nil => rfl
  | cons w ws ih =>
      have hw := hin w List.mem_cons_self
      have hread := readAt_writeAt_of_disjoint fill b w.1 w.2 (hapart w List.mem_cons_self)
        (hb ▸ hq)
      rw [← hread]
      exact ih (length_writeAt_inside hb hw) (fun w' hw' ↦ hin w' (List.mem_cons_of_mem _ hw'))
        fun w' hw' ↦ hapart w' (List.mem_cons_of_mem _ hw')

/-- The start of what was written stays where no later write goes. -/
theorem readAt_writeAll (hb : b.length = size) (hin : ∀ w ∈ ws, w.1 + w.2.length ≤ size)
    {i n : ℕ} {w : ℕ × List α} (hw : ws[i]? = some w) (hn : n ≤ w.2.length)
    (hapart : ∀ w' ∈ ws.drop (i + 1), Apart w.1 n w'.1 w'.2.length) :
    readAt (writeAll fill b ws) w.1 n = w.2.take n := by
  obtain ⟨hi, rfl⟩ := List.getElem?_eq_some_iff.mp hw
  have hsplit : ws = ws.take i ++ ws[i] :: ws.drop (i + 1) := by
    rw [← List.drop_eq_getElem_cons hi, List.take_append_drop]
  have hwin := hin _ (List.getElem_mem hi)
  have hfront : (writeAll fill b (ws.take i)).length = size :=
    length_writeAll hb fun w' hw' ↦ hin w' (List.mem_of_mem_take hw')
  have hsame : writeAll fill b ws = writeAll fill
      (writeAt fill (writeAll fill b (ws.take i)) ws[i].1 ws[i].2) (ws.drop (i + 1)) := by
    conv_lhs => rw [hsplit]
    rw [writeAll, List.foldl_append]
    rfl
  have hread := readAt_writeAt_self fill (writeAll fill b (ws.take i)) ws[i].1 ws[i].2
  rw [hsame, readAt_writeAll_of_apart (length_writeAt_inside hfront hwin)
    (fun w' hw' ↦ hin w' (List.mem_of_mem_drop hw'))
    (le_trans (Nat.add_le_add_left hn _) hwin) hapart]
  conv_rhs => rw [← hread, readAt, List.take_take, min_eq_left hn]
  rfl

end Synchronet.Columns
