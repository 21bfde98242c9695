import Mathlib.Data.List.DropRight
import Mathlib.Data.List.TakeDrop

/-!
# Buffers with a fixed capacity

A buffer has room for `size` items and holds the ones that were written to it, from
its start on without a gap.  Writing behind them fails once the room is used up, so
that a program which never fails has kept inside its buffers.
-/

namespace Synchronet

/-- The items in a piece of memory with room for `size` of them. -/
structure Buffer (α : Type*) where
  items : List α
  size : ℕ
  fits : items.length ≤ size

namespace Buffer

variable {α : Type*}

def room (b : Buffer α) : ℕ := b.size - b.items.length

/-- Another size, with as many of the items as it has room for. -/
def resize (b : Buffer α) (n : ℕ) : Buffer α where
  items := b.items.take n
  size := n
  fits := List.length_take_le n b.items

/-- Items behind those of the buffer; `none` when there is no room for them. -/
def put (b : Buffer α) (xs : List α) : Option (Buffer α) :=
  if h : b.items.length + xs.length ≤ b.size then
    some ⟨b.items ++ xs, b.size, by rwa [List.length_append]⟩
  else none

/-- Only the first `n` items. -/
def truncate (b : Buffer α) (n : ℕ) : Buffer α where
  items := b.items.take n
  size := b.size
  fits := (List.length_take_le' n b.items).trans b.fits

@[simp] theorem size_resize (b : Buffer α) (n : ℕ) : (b.resize n).size = n := rfl

@[simp] theorem size_truncate (b : Buffer α) (n : ℕ) : (b.truncate n).size = b.size := rfl

@[simp] theorem items_truncate (b : Buffer α) (n : ℕ) : (b.truncate n).items = b.items.take n := rfl

/-- A buffer that grows keeps its items. -/
theorem items_resize {b : Buffer α} {n : ℕ} (h : b.items.length ≤ n) :
    (b.resize n).items = b.items := List.take_of_length_le h

theorem put_isSome_iff {b : Buffer α} {xs : List α} :
    (b.put xs).isSome ↔ b.items.length + xs.length ≤ b.size := by
  rw [put]
  split <;> simp_all

theorem put_eq_some_iff {b b' : Buffer α} {xs : List α} :
    b.put xs = some b' ↔
      b.items.length + xs.length ≤ b.size ∧ b'.items = b.items ++ xs ∧ b'.size = b.size := by
  obtain ⟨items', size', fits'⟩ := b'
  rw [put]
  constructor
  · intro h
    split at h
    · rename_i hroom
      simp only [Option.some.injEq, mk.injEq] at h
      exact ⟨hroom, h.1.symm, h.2.symm⟩
    · cases h
  · rintro ⟨hroom, hitems, hsize⟩
    dsimp only at hitems hsize
    subst hitems hsize
    rw [dif_pos hroom]

/-- Items that fit are written. -/
theorem exists_put {b : Buffer α} {xs : List α} (h : b.items.length + xs.length ≤ b.size) :
    ∃ b', b.put xs = some b' ∧ b'.items = b.items ++ xs ∧ b'.size = b.size := by
  obtain ⟨b', hb'⟩ := Option.isSome_iff_exists.mp (put_isSome_iff.mpr h)
  exact ⟨b', hb', (put_eq_some_iff.mp hb').2⟩

end Buffer

end Synchronet
