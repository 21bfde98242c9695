import Mathlib.Data.List.TakeDrop
import Mathlib.Data.Finset.Card
import Mathlib.Data.Finset.Dedup

/-!
# Bounded histories

The abstract state of a duplicate check is the log of everything it has accepted.
A bounded history of capacity `n` remembers the `n` latest entries of the log, and
an entry that it remembers is refused.
-/

namespace Synchronet.BoundedHistory

variable {α : Type*}

/-- The `n` latest entries of a log, oldest first. -/
def recent (n : ℕ) (log : List α) : List α := log.drop (log.length - n)

theorem length_recent (n : ℕ) (log : List α) : (recent n log).length = min n log.length := by
  rw [recent, List.length_drop]
  omega

theorem recent_of_length_le {n : ℕ} {log : List α} (h : log.length ≤ n) : recent n log = log := by
  rw [recent, Nat.sub_eq_zero_of_le h, List.drop_zero]

/-- Accepting an entry drops the oldest one when the history is full. -/
theorem recent_append_singleton (n : ℕ) (log : List α) (a : α) :
    recent (n + 1) (log ++ [a]) = recent n log ++ [a] := by
  have hlen : (log ++ [a]).length - (n + 1) = log.length - n := by
    rw [List.length_append, List.length_singleton]
    omega
  rw [recent, hlen, List.drop_append_of_le_length (by omega)]
  rfl

variable [DecidableEq α]

/-- How many entries a sequence of offers can add to a log that is remembered
entirely: each new entry counts once. -/
def fresh (log offers : List α) : ℕ := (offers.toFinset \ log.toFinset).card

@[simp] theorem fresh_nil (log : List α) : fresh log [] = 0 := by simp [fresh]

theorem fresh_cons_of_mem {log : List α} {a : α} (offers : List α) (h : a ∈ log) :
    fresh log (a :: offers) = fresh log offers := by
  rw [fresh, List.toFinset_cons, Finset.insert_sdiff_of_mem _ (List.mem_toFinset.mpr h), fresh]

theorem fresh_cons_of_notMem {log : List α} {a : α} (offers : List α) (h : a ∉ log) :
    fresh log (a :: offers) = fresh (log ++ [a]) offers + 1 := by
  have hset : (a :: offers).toFinset \ log.toFinset =
      insert a (offers.toFinset \ (log ++ [a]).toFinset) := by
    ext b
    by_cases hb : b = a
    · subst hb
      simp [h]
    · simp [hb]
  have hnew : a ∉ offers.toFinset \ (log ++ [a]).toFinset := by simp
  rw [fresh, hset, Finset.card_insert_of_notMem hnew, fresh]

end Synchronet.BoundedHistory
