import Synchronet.Lib.Search

/-!
# Texts with an end mark each

Texts that are not empty are stored one after another, each with a mark behind it, and an empty
one behind the last.  The memory that starts with them determines them.
-/

namespace Synchronet.Terminated

variable {α : Type*}

/-- The texts with the mark behind each. -/
def pack (z : α) (texts : List (List α)) : List α := texts.flatMap (· ++ [z])

/-- What can be stored: a text that is not empty and does not have the mark in it. -/
def Storable (z : α) (text : List α) : Prop := text ≠ [] ∧ z ∉ text

/-- Memory that starts with the texts and an empty one behind them. -/
def Holds (z : α) (mem : List α) (texts : List (List α)) : Prop :=
  (∀ text ∈ texts, Storable z text) ∧ ∃ extra, mem = pack z texts ++ z :: extra

variable {z : α} {mem extra text : List α} {texts texts' : List (List α)}

@[simp] theorem pack_nil : pack z [] = [] := rfl

@[simp] theorem pack_cons : pack z (text :: texts) = text ++ z :: pack z texts := by
  simp [pack]

@[simp] theorem pack_append : pack z (texts ++ texts') = pack z texts ++ pack z texts' :=
  List.flatMap_append

theorem pack_eq_nil_iff : pack z texts = [] ↔ texts = [] := by
  cases texts <;> simp

/-- The last of the packed texts has its mark at the end. -/
theorem exists_pack_eq (h : texts ≠ []) : ∃ front, pack z texts = front ++ [z] := by
  obtain ⟨first, last, rfl⟩ := (List.eq_nil_or_concat' texts).resolve_left h
  exact ⟨pack z first ++ last, by simp⟩

theorem holds_nil (z : α) (extra : List α) : Holds z (z :: extra) [] :=
  ⟨by simp, extra, rfl⟩

theorem Holds.cons (htext : Storable z text) (h : Holds z mem texts) :
    Holds z (text ++ z :: mem) (text :: texts) := by
  obtain ⟨htexts, extra, rfl⟩ := h
  exact ⟨by simpa using ⟨htext, htexts⟩, extra, by simp⟩

/-- The first text and the memory behind its mark. -/
theorem Holds.of_cons (h : Holds z mem (text :: texts)) :
    Storable z text ∧ ∃ mem', mem = text ++ z :: mem' ∧ Holds z mem' texts := by
  obtain ⟨htexts, extra, rfl⟩ := h
  obtain ⟨htext, htexts⟩ := List.forall_mem_cons.mp htexts
  exact ⟨htext, pack z texts ++ z :: extra, by simp, htexts, extra, rfl⟩

/-- Memory that starts with the mark holds no text. -/
theorem Holds.eq_nil (h : Holds z (z :: extra) texts) : texts = [] := by
  cases texts with
  | nil => rfl
  | cons text texts =>
      obtain ⟨⟨hne, hz⟩, mem', hmem, -⟩ := h.of_cons
      cases text with
      | nil => exact absurd rfl hne
      | cons c text =>
          rw [List.cons_append, List.cons.injEq] at hmem
          exact absurd (by simp [hmem.1]) hz

/-! ## Writing -/

/-- Memory with some items written over those from `p` on; `none` where it has no room. -/
def overwrite (mem : List α) (p : ℕ) (items : List α) : Option (List α) :=
  if p + items.length ≤ mem.length then
    some (mem.take p ++ items ++ mem.drop (p + items.length))
  else none

theorem overwrite_append (front : List α) {old items : List α} (h : old.length = items.length)
    (back : List α) :
    overwrite (front ++ old ++ back) front.length items = some (front ++ items ++ back) := by
  have htake : (front ++ old ++ back).take front.length = front := by simp
  have hdrop : (front ++ old ++ back).drop (front.length + items.length) = back := by
    rw [← h, ← List.length_append, List.drop_left]
  rw [overwrite, if_pos (by simp [h]), htake, hdrop]

end Synchronet.Terminated
