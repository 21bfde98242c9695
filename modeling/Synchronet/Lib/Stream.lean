import Synchronet.Lib.RecordFile

/-!
# Streams

A file that is open, with the place of the next write.  Writes that follow each other are one
write, and what is written again from where it began can be written there at once.
-/

namespace Synchronet

structure Stream (α : Type*) where
  items : List α
  pos : ℕ

namespace Stream

variable {α : Type*} {fill : α} {s : Stream α} {xs ys new old : List α}

def write (fill : α) (s : Stream α) (xs : List α) : Stream α where
  items := RecordFile.writeAt fill s.items s.pos xs
  pos := s.pos + xs.length

def seek (s : Stream α) (pos : ℕ) : Stream α := { s with pos }

@[simp] theorem pos_write : (s.write fill xs).pos = s.pos + xs.length := rfl

@[simp] theorem write_nil : s.write fill [] = s := by simp [write]

end Stream

namespace RecordFile

variable {α : Type*} {fill : α} {f xs ys new old : List α} {pos : ℕ}

/-- What stands before a write, with the gap filled. -/
theorem length_front (fill : α) (f : List α) (pos : ℕ) :
    (f.take pos ++ List.replicate (pos - f.length) fill).length = pos := by
  simp only [List.length_append, List.length_take, List.length_replicate]
  omega

/-- A write into what has just been written. -/
theorem writeAt_inside {front back : List α} (hfront : front.length = pos) (hnew : new ≠ []) :
    writeAt fill (front ++ back) pos new = front ++ new ++ back.drop new.length := by
  have hgap : pos - (front ++ back).length = 0 := by
    rw [List.length_append]
    omega
  rw [writeAt, if_neg hnew, hgap, List.take_left' hfront, List.replicate_zero, List.append_nil,
    ← hfront, ← List.drop_drop, List.drop_left]

theorem writeAt_append (hxs : xs ≠ []) (hys : ys ≠ []) :
    writeAt fill f pos (xs ++ ys) = writeAt fill (writeAt fill f pos xs) (pos + xs.length) ys := by
  have hne : xs ++ ys ≠ [] := List.append_ne_nil_of_left_ne_nil hxs ys
  set front := f.take pos ++ List.replicate (pos - f.length) fill with hfront
  have hlen : (front ++ xs).length = pos + xs.length := by
    rw [List.length_append, hfront, length_front]
  have hgap : pos + xs.length - (front ++ xs ++ f.drop (pos + xs.length)).length = 0 := by
    rw [List.length_append]
    omega
  have hdrop : (front ++ xs ++ f.drop (pos + xs.length)).drop (pos + xs.length + ys.length) =
      f.drop (pos + (xs ++ ys).length) := by
    rw [← List.drop_drop, List.drop_left' hlen, List.drop_drop, List.length_append,
      Nat.add_assoc]
  rw [writeAt, if_neg hne, ← hfront, writeAt, if_neg hys, writeAt, if_neg hxs, ← hfront, hgap,
    hdrop, List.take_left' hlen, List.replicate_zero, List.append_nil, List.append_assoc front xs]

theorem writeAt_again (hnew : new ≠ []) (h : new.length = old.length) :
    writeAt fill (writeAt fill f pos (old ++ xs)) pos new = writeAt fill f pos (new ++ xs) := by
  have hold : old ++ xs ≠ [] := by
    apply List.append_ne_nil_of_left_ne_nil
    rintro rfl
    exact hnew (List.length_eq_zero_iff.mp h)
  have hwritten : writeAt fill f pos (old ++ xs) =
      f.take pos ++ List.replicate (pos - f.length) fill ++
        (old ++ xs ++ f.drop (pos + (old ++ xs).length)) := by
    rw [writeAt, if_neg hold, List.append_assoc _ (old ++ xs)]
  have hne : new ++ xs ≠ [] := List.append_ne_nil_of_left_ne_nil hnew xs
  have hlength : (new ++ xs).length = (old ++ xs).length := by
    rw [List.length_append, List.length_append, h]
  rw [hwritten, writeAt_inside (length_front fill f pos) hnew, h, List.append_assoc old,
    List.drop_left, writeAt, if_neg hne, hlength]
  simp only [List.append_assoc]

end RecordFile

namespace Stream

variable {α : Type*} {fill : α} {s : Stream α} {xs ys new old : List α}

theorem write_append : s.write fill (xs ++ ys) = (s.write fill xs).write fill ys := by
  by_cases hxs : xs = []
  · rw [hxs, write_nil, List.nil_append]
  · by_cases hys : ys = []
    · rw [hys, write_nil, List.append_nil]
    · rw [write, write, write, RecordFile.writeAt_append hxs hys, List.length_append,
        Nat.add_assoc]

/-- The beginning of a write is written again, and the stream left at its end. -/
theorem write_again (hnew : new ≠ []) (h : new.length = old.length) :
    (((s.write fill (old ++ xs)).seek s.pos).write fill new).seek (s.pos + new.length + xs.length) =
      s.write fill (new ++ xs) := by
  simp only [write, seek, RecordFile.writeAt_again hnew h, List.length_append, Nat.add_assoc]

end Stream

end Synchronet
