import Mathlib.Data.Nat.Notation
import Mathlib.Logic.Function.Basic

/-!
# Tables with checked access, and counted loops

A table is an array of a fixed size.  Access behind its end fails, so that a program
that succeeds has kept inside its tables.
-/

namespace Synchronet

/-- An array of `size` elements. -/
structure Table (α : Type*) (size : ℕ) where
  get : ℕ → α

namespace Table

variable {α : Type*} {size : ℕ}

def read (t : Table α size) (i : ℕ) : Option α := if i < size then some (t.get i) else none

def write (t : Table α size) (i : ℕ) (a : α) : Option (Table α size) :=
  if i < size then some ⟨Function.update t.get i a⟩ else none

/-- `memmove` of the elements from `k` up to `last`, without it, to the next place. -/
def moveUp (t : Table α size) (k last : ℕ) : Option (Table α size) :=
  if last < size then some ⟨fun x ↦ if k < x ∧ x ≤ last then t.get (x - 1) else t.get x⟩ else none

theorem read_eq {t : Table α size} {i : ℕ} (h : i < size) : t.read i = some (t.get i) := if_pos h

theorem write_eq {t : Table α size} {i : ℕ} (h : i < size) (a : α) :
    t.write i a = some ⟨Function.update t.get i a⟩ := if_pos h

theorem moveUp_eq {t : Table α size} {last : ℕ} (h : last < size) (k : ℕ) :
    t.moveUp k last = some ⟨fun x ↦ if k < x ∧ x ≤ last then t.get (x - 1) else t.get x⟩ :=
  if_pos h

end Table

/-- A loop over `0, …, n - 1`. -/
def forUpto {σ : Type*} (n : ℕ) (f : ℕ → σ → Option σ) (s : σ) : Option σ :=
  match n with
  | 0 => some s
  | n + 1 => (forUpto n f s).bind (f n)

/-- What every round keeps, the loop establishes. -/
theorem forUpto_rule {σ : Type*} {f : ℕ → σ → Option σ} {n : ℕ} {s : σ} (P : ℕ → σ → Prop)
    (hstart : P 0 s) (hstep : ∀ i s, i < n → P i s → ∃ s', f i s = some s' ∧ P (i + 1) s') :
    ∃ s', forUpto n f s = some s' ∧ P n s' := by
  induction n with
  | zero => exact ⟨s, rfl, hstart⟩
  | succ n ih =>
      obtain ⟨s', hs', hP⟩ := ih fun i s hi ↦ hstep i s (by omega)
      obtain ⟨s'', hs'', hP'⟩ := hstep n s' (Nat.lt_succ_self n) hP
      exact ⟨s'', by rw [forUpto, hs', Option.bind_some, hs''], hP'⟩

end Synchronet
