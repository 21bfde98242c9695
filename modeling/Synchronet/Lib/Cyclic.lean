import Synchronet.Lib.RecordFile

/-!
# Lists read and written round their end

The cells of a ring are the elements of a list, and the position behind the last
cell is the first one again.  A run of cells that passes the end is a window into
the list put behind itself.
-/

namespace Synchronet.Cyclic

open RecordFile

variable {α : Type*}

/-- The `n` cells from position `pos` on. -/
def window (f : List α) (pos n : ℕ) : List α := readAt (f ++ f) pos n

/-- The ring after `xs` is written from position `pos` on, in two pieces where it
passes the end. -/
def put (fill : α) (f : List α) (pos : ℕ) (xs : List α) : List α :=
  writeAt fill (writeAt fill f pos (xs.take (f.length - pos))) 0 (xs.drop (f.length - pos))

@[simp] theorem window_zero (f : List α) (pos : ℕ) : window f pos 0 = [] := by
  simp [window, readAt]

theorem length_window {f : List α} {pos n : ℕ} (hpos : pos ≤ f.length) (hn : n ≤ f.length) :
    (window f pos n).length = n := by
  rw [window, length_readAt, List.length_append]
  omega

/-- A window is read in at most two pieces. -/
theorem window_eq_append {f : List α} {pos : ℕ} (n : ℕ) (hpos : pos ≤ f.length) :
    window f pos n = readAt f pos (min n (f.length - pos)) ++ readAt f 0 (n - (f.length - pos)) := by
  rw [window, readAt, List.drop_append, Nat.sub_eq_zero_of_le hpos, List.drop_zero,
    List.take_append, List.length_drop]
  congr 1
  rcases le_total n (f.length - pos) with h | h
  · rw [min_eq_left h, readAt]
  · rw [min_eq_right h, readAt, List.take_of_length_le (by simpa using h),
      List.take_of_length_le (by simp)]

theorem window_append (f : List α) (pos m n : ℕ) :
    window f pos (m + n) = window f pos m ++ window f (pos + m) n :=
  (readAt_append_readAt (f ++ f) pos m n).symm

theorem take_window (f : List α) (pos m n : ℕ) :
    (window f pos n).take m = window f pos (min m n) := by
  rw [window, readAt, List.take_take, window, readAt]

theorem drop_window (f : List α) (pos m n : ℕ) :
    (window f pos n).drop m = window f (pos + m) (n - m) := by
  rw [window, readAt, window, readAt, List.drop_take, List.drop_drop]

/-- The end of the list is the start of the ring. -/
theorem window_wrap {f : List α} {pos n : ℕ} (hpos : pos + n ≤ 2 * f.length)
    (hlen : f.length ≤ pos) : window f pos n = window f (pos - f.length) n := by
  have hin : pos - f.length ≤ f.length := by omega
  have hone : min n (f.length - (pos - f.length)) = n := min_eq_left (by omega)
  have hnone : n - (f.length - (pos - f.length)) = 0 := by omega
  rw [window_eq_append n hin, hone, hnone, show readAt f 0 0 = [] by simp [readAt],
    List.append_nil, window, readAt, List.drop_append, List.drop_eq_nil_of_le hlen,
    List.nil_append, readAt]

@[simp] theorem length_put (fill : α) {f : List α} {pos : ℕ} {xs : List α} (hpos : pos ≤ f.length)
    (hxs : xs.length ≤ f.length) : (put fill f pos xs).length = f.length := by
  have hfit (g : List α) (p : ℕ) (ys : List α) (h : p + ys.length ≤ g.length) :
      (writeAt fill g p ys).length = g.length := by
    by_cases hys : ys = []
    · rw [hys, writeAt_nil]
    · rw [length_writeAt fill g p hys]
      exact max_eq_left h
  rw [put, hfit, hfit]
  · rw [List.length_take]
    omega
  · rw [hfit _ _ _ (by rw [List.length_take]; omega), List.length_drop]
    omega

theorem getElem?_put (fill : α) {f : List α} {pos : ℕ} {xs : List α} (hpos : pos ≤ f.length)
    (hxs : xs.length ≤ f.length) {i : ℕ} (hi : i < f.length) :
    (put fill f pos xs)[i]? =
      if pos ≤ i ∧ i < pos + xs.length then xs[i - pos]?
      else if i + f.length < pos + xs.length then xs[i + f.length - pos]?
      else f[i]? := by
  have hlen : f.length ≤ (writeAt fill f pos (xs.take (f.length - pos))).length :=
    length_le_writeAt _ _ _ _
  have hdrop : (xs.drop (f.length - pos)).length = xs.length - (f.length - pos) := List.length_drop
  have htake : (xs.take (f.length - pos)).length = min (f.length - pos) xs.length :=
    List.length_take
  rw [put]
  by_cases hwrap : i + f.length < pos + xs.length
  · rw [if_neg (by omega), if_pos hwrap]
    have := getElem?_writeAt_inside fill (writeAt fill f pos (xs.take (f.length - pos))) 0
      (xs.drop (f.length - pos)) (i := i) (by omega)
    rw [Nat.zero_add] at this
    rw [this, List.getElem?_drop]
    congr 1
    omega
  · rw [getElem?_writeAt_after _ _ _ _ (by omega), if_neg hwrap]
    split
    · rename_i hin
      have := getElem?_writeAt_inside fill f pos (xs.take (f.length - pos)) (i := i - pos)
        (by omega)
      rw [Nat.add_sub_cancel' hin.1] at this
      rw [this, List.getElem?_take, if_pos (by omega)]
    · rw [getElem?_writeAt_outside _ _ _ _ (by omega) hi]

/-- The cells behind a window are written: the window has become longer. -/
theorem window_put (fill : α) {f xs : List α} {pos n next : ℕ} (hpos : pos < f.length)
    (hfit : n + xs.length ≤ f.length)
    (hnext : next = if pos + n < f.length then pos + n else pos + n - f.length) :
    window (put fill f next xs) pos (n + xs.length) = window f pos n ++ xs := by
  have hle : next ≤ f.length := by
    rw [hnext]
    split <;> omega
  have hlen := length_put fill hle (by omega : xs.length ≤ f.length)
  have hcell (g : List α) (i : ℕ) : (g ++ g)[i]? = if i < g.length then g[i]? else g[i - g.length]? := by
    rw [List.getElem?_append]
  apply List.ext_getElem?
  intro i
  rw [window, getElem?_readAt, hcell, hlen, List.getElem?_append, length_window hpos.le (by omega),
    window, getElem?_readAt, hcell]
  by_cases hi : i < n + xs.length
  · rw [if_pos hi]
    by_cases hold : i < n
    · rw [if_pos hold, if_pos hold]
      split
      · rw [getElem?_put fill hle (by omega) (by omega), if_neg (by split at hnext <;> omega),
          if_neg (by split at hnext <;> omega)]
      · rw [getElem?_put fill hle (by omega) (by omega), if_neg (by split at hnext <;> omega),
          if_neg (by split at hnext <;> omega)]
    · rw [if_neg hold]
      split
      · rw [getElem?_put fill hle (by omega) (by omega)]
        split
        · congr 1
          split at hnext <;> omega
        · exact absurd trivial (by split at hnext <;> omega)
      · rw [getElem?_put fill hle (by omega) (by omega)]
        split
        · congr 1
          split at hnext <;> omega
        · rw [if_pos (by split at hnext <;> omega)]
          congr 1
          split at hnext <;> omega
  · rw [if_neg hi, if_neg (by omega), List.getElem?_eq_none (by omega)]

end Synchronet.Cyclic
