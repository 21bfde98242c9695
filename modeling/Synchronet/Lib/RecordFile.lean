import Mathlib.Data.List.Basic
import Mathlib.Data.List.TakeDrop
import Mathlib.Tactic.Ring
import Mathlib.Order.Basic

/-!
# Files as lists of records

A file of fixed-size records is the list of its records.  Reading may come up
short at the end of the file; writing past the end first fills the gap.  The
last section treats a read-modify-write run over consecutive records, the
access pattern of an allocation table.
-/

namespace Synchronet.RecordFile

variable {α : Type*}

/-- The records read by a request for `n` of them from record `pos`. -/
def readAt (f : List α) (pos n : ℕ) : List α := (f.drop pos).take n

/-- The file after the records `xs` are written from record `pos`.  A write of
nothing does not extend the file. -/
def writeAt (fill : α) (f : List α) (pos : ℕ) (xs : List α) : List α :=
  if xs = [] then f
  else f.take pos ++ List.replicate (pos - f.length) fill ++ xs ++ f.drop (pos + xs.length)

@[simp] theorem writeAt_nil (fill : α) (f : List α) (pos : ℕ) :
    writeAt fill f pos [] = f := by simp [writeAt]

theorem length_readAt (f : List α) (pos n : ℕ) :
    (readAt f pos n).length = min n (f.length - pos) := by simp [readAt]

theorem length_writeAt (fill : α) (f : List α) (pos : ℕ) {xs : List α} (hxs : xs ≠ []) :
    (writeAt fill f pos xs).length = max f.length (pos + xs.length) := by
  simp only [writeAt, if_neg hxs, List.length_append, List.length_take, List.length_replicate,
    List.length_drop]
  omega

theorem length_le_writeAt (fill : α) (f : List α) (pos : ℕ) (xs : List α) :
    f.length ≤ (writeAt fill f pos xs).length := by
  by_cases hxs : xs = []
  · simp [hxs]
  · rw [length_writeAt fill f pos hxs]
    exact le_max_left _ _

/-- Appending is writing at the end. -/
theorem writeAt_length (fill : α) (f xs : List α) : writeAt fill f f.length xs = f ++ xs := by
  by_cases hxs : xs = []
  · simp [hxs]
  · simp [writeAt, hxs]

/-- Writing one record inside the file replaces it. -/
theorem writeAt_singleton (fill : α) {f : List α} {pos : ℕ} (a : α) (h : pos < f.length) :
    writeAt fill f pos [a] = f.set pos a := by
  rw [List.set_eq_take_append_cons_drop, if_pos h, writeAt, if_neg (List.cons_ne_nil _ _),
    Nat.sub_eq_zero_of_le h.le]
  simp

theorem getElem?_readAt (f : List α) (pos n i : ℕ) :
    (readAt f pos n)[i]? = if i < n then f[pos + i]? else none := by
  simp [readAt, List.getElem?_take]

theorem getElem?_writeAt_inside (fill : α) (f : List α) (pos : ℕ) (xs : List α) {i : ℕ}
    (hi : i < xs.length) : (writeAt fill f pos xs)[pos + i]? = xs[i]? := by
  have hxs : xs ≠ [] := by
    rintro rfl
    simp at hi
  have hlen : (f.take pos ++ List.replicate (pos - f.length) fill).length = pos := by
    simp only [List.length_append, List.length_take, List.length_replicate]
    omega
  rw [writeAt, if_neg hxs, List.append_assoc, List.getElem?_append_right (by omega), hlen,
    Nat.add_sub_cancel_left, List.getElem?_append_left hi]

theorem getElem?_writeAt_before (fill : α) (f : List α) (pos : ℕ) (xs : List α) {i : ℕ}
    (hi : i < pos) (hf : i < f.length) : (writeAt fill f pos xs)[i]? = f[i]? := by
  by_cases hxs : xs = []
  · simp [hxs]
  · have htake : i < (f.take pos).length := by
      simp only [List.length_take]
      omega
    rw [writeAt, if_neg hxs, List.append_assoc, List.append_assoc,
      List.getElem?_append_left htake, List.getElem?_take, if_pos hi]

theorem getElem?_writeAt_after (fill : α) (f : List α) (pos : ℕ) (xs : List α) {i : ℕ}
    (hi : pos + xs.length ≤ i) : (writeAt fill f pos xs)[i]? = f[i]? := by
  by_cases hxs : xs = []
  · simp [hxs]
  · have hlen : (f.take pos ++ List.replicate (pos - f.length) fill ++ xs).length =
        pos + xs.length := by
      simp only [List.length_append, List.length_take, List.length_replicate]
      omega
    rw [writeAt, if_neg hxs, List.getElem?_append_right (by omega), hlen, List.getElem?_drop]
    congr 1
    omega

/-- A record outside the written run keeps its value. -/
theorem getElem?_writeAt_outside (fill : α) (f : List α) (pos : ℕ) (xs : List α) {i : ℕ}
    (hi : i < pos ∨ pos + xs.length ≤ i) (hf : i < f.length) :
    (writeAt fill f pos xs)[i]? = f[i]? := by
  rcases hi with hi | hi
  · exact getElem?_writeAt_before fill f pos xs hi hf
  · exact getElem?_writeAt_after fill f pos xs hi

theorem readAt_writeAt_self (fill : α) (f : List α) (pos : ℕ) (xs : List α) :
    readAt (writeAt fill f pos xs) pos xs.length = xs := by
  apply List.ext_getElem?
  intro i
  rw [getElem?_readAt]
  split
  · rename_i hi
    exact getElem?_writeAt_inside fill f pos xs hi
  · rename_i hi
    exact (List.getElem?_eq_none (by omega)).symm

/-- A read that stays clear of the written run, and inside the old file, is not
affected by the write. -/
theorem readAt_writeAt_of_disjoint (fill : α) (f : List α) (pos : ℕ) (xs : List α) {q n : ℕ}
    (hclear : q + n ≤ pos ∨ pos + xs.length ≤ q) (hin : q + n ≤ f.length) :
    readAt (writeAt fill f pos xs) q n = readAt f q n := by
  apply List.ext_getElem?
  intro i
  rw [getElem?_readAt, getElem?_readAt]
  split
  · exact getElem?_writeAt_outside fill f pos xs (by omega) (by omega)
  · rfl

/-- What follows the position of a write. -/
theorem drop_writeAt (fill : α) (f : List α) (pos : ℕ) {xs : List α} (hxs : xs ≠ []) :
    (writeAt fill f pos xs).drop pos = xs ++ f.drop (pos + xs.length) := by
  have hlen : (f.take pos ++ List.replicate (pos - f.length) fill).length = pos := by
    simp only [List.length_append, List.length_take, List.length_replicate]
    omega
  rw [writeAt, if_neg hxs, List.append_assoc, List.drop_left' hlen]

theorem readAt_of_drop_eq {f xs rest : List α} {pos n : ℕ} (h : f.drop pos = xs ++ rest)
    (hn : xs.length = n) : readAt f pos n = xs := by
  rw [readAt, h, List.take_left' hn]

theorem drop_add_of_drop_eq {f xs rest : List α} {pos n : ℕ} (h : f.drop pos = xs ++ rest)
    (hn : xs.length = n) : f.drop (pos + n) = rest := by
  rw [← List.drop_drop, h, List.drop_left' hn]

/-- Reading part of a run that was read before. -/
theorem readAt_readAt (f : List α) (pos n q m : ℕ) (h : q + m ≤ n) :
    readAt (readAt f pos n) q m = readAt f (pos + q) m := by
  apply List.ext_getElem?
  intro i
  rw [getElem?_readAt, getElem?_readAt, getElem?_readAt]
  split
  · rw [if_pos (by omega), Nat.add_assoc]
  · rfl

theorem readAt_append_readAt (f : List α) (pos n m : ℕ) :
    readAt f pos n ++ readAt f (pos + n) m = readAt f pos (n + m) := by
  simp only [readAt]
  rw [List.take_add, List.drop_drop]

/-! ## Runs of read-modify-write -/

/-- Replace the `n` records from `pos` by their images under `g`, one after the
other.  The flag is `false` when a read comes up short; the records before it
have then been replaced. -/
def updateRun (g : α → α) : ℕ → ℕ → List α → Bool × List α
  | 0, _, f => (true, f)
  | n + 1, pos, f =>
      match f[pos]? with
      | none => (false, f)
      | some a => updateRun g n (pos + 1) (f.set pos (g a))

@[simp] theorem updateRun_zero (g : α → α) (pos : ℕ) (f : List α) :
    updateRun g 0 pos f = (true, f) := rfl

@[simp] theorem length_updateRun (g : α → α) (n pos : ℕ) (f : List α) :
    (updateRun g n pos f).2.length = f.length := by
  induction n generalizing pos f with
  | zero => rfl
  | succ n ih =>
      rw [updateRun]
      split
      · rfl
      · rw [ih, List.length_set]

/-- Each record of the run that exists is replaced exactly once; no other record
changes. -/
theorem getElem?_updateRun (g : α → α) (n pos : ℕ) (f : List α) (i : ℕ) :
    (updateRun g n pos f).2[i]? = if pos ≤ i ∧ i < pos + n then f[i]?.map g else f[i]? := by
  induction n generalizing pos f with
  | zero => rw [updateRun_zero, if_neg (by omega)]
  | succ n ih =>
      rw [updateRun]
      split
      · rename_i hnone
        have hlen : f.length ≤ pos := List.getElem?_eq_none_iff.mp hnone
        split
        · rename_i hi
          simp [List.getElem?_eq_none (show f.length ≤ i by omega)]
        · rfl
      · rename_i a ha
        obtain ⟨hpos, hget⟩ := List.getElem?_eq_some_iff.mp ha
        rw [ih, List.getElem?_set]
        by_cases hi : pos = i
        · subst hi
          simp [hpos, hget]
        · have hiff : (pos + 1 ≤ i ∧ i < pos + 1 + n) ↔ (pos ≤ i ∧ i < pos + (n + 1)) := by omega
          simp only [if_neg hi, hiff]

/-- The run reads short exactly when it is not empty and leaves the file. -/
theorem updateRun_fst_eq_true_iff (g : α → α) (n pos : ℕ) (f : List α) :
    (updateRun g n pos f).1 = true ↔ n = 0 ∨ pos + n ≤ f.length := by
  induction n generalizing pos f with
  | zero => simp
  | succ n ih =>
      rw [updateRun]
      split
      · rename_i hnone
        have hlen : f.length ≤ pos := List.getElem?_eq_none_iff.mp hnone
        simp
        omega
      · rename_i a ha
        obtain ⟨hpos, -⟩ := List.getElem?_eq_some_iff.mp ha
        rw [ih, List.length_set]
        omega

end Synchronet.RecordFile
