import Mathlib.Data.List.Basic

/-!
# Patterns with wildcards

A pattern is a list of items: a character that stands for itself, one for any character, and
one for any sequence of characters.  What a sequence may be is a parameter, which sees the
sequence and what is left behind it.
-/

namespace Synchronet.Wildcards

variable {α : Type*}

inductive Item (α : Type*) where
  | char (a : α)
  | one
  | many
  deriving DecidableEq

/-- The pattern matches the whole name; `ok w rest` allows an item to stand for the sequence
`w` in front of `rest`. -/
def Matches (ok : List α → List α → Prop) : List (Item α) → List α → Prop
  | [], name => name = []
  | .char a :: p, name => ∃ rest, name = a :: rest ∧ Matches ok p rest
  | .one :: p, name => ∃ a rest, name = a :: rest ∧ Matches ok p rest
  | .many :: p, name => ∃ w rest, name = w ++ rest ∧ ok w rest ∧ Matches ok p rest

variable {ok ok' : List α → List α → Prop} {p : List (Item α)} {name : List α}

@[simp] theorem matches_nil : Matches ok [] name ↔ name = [] := Iff.rfl

@[simp] theorem matches_char {a : α} :
    Matches ok (.char a :: p) name ↔ ∃ rest, name = a :: rest ∧ Matches ok p rest := Iff.rfl

@[simp] theorem matches_one :
    Matches ok (.one :: p) name ↔ ∃ a rest, name = a :: rest ∧ Matches ok p rest := Iff.rfl

@[simp] theorem matches_many :
    Matches ok (.many :: p) name ↔
      ∃ w rest, name = w ++ rest ∧ ok w rest ∧ Matches ok p rest := Iff.rfl

theorem Matches.mono (h : Matches ok p name) (hok : ∀ w rest, ok w rest → ok' w rest) :
    Matches ok' p name := by
  induction p generalizing name with
  | nil => exact h
  | cons item p ih =>
      cases item with
      | char a =>
          obtain ⟨rest, hname, hrest⟩ := h
          exact ⟨rest, hname, ih hrest⟩
      | one =>
          obtain ⟨a, rest, hname, hrest⟩ := h
          exact ⟨a, rest, hname, ih hrest⟩
      | many =>
          obtain ⟨w, rest, hname, hw, hrest⟩ := h
          exact ⟨w, rest, hname, hok w rest hw, ih hrest⟩

/-- Two items for sequences in a row are as good as one, where sequences can be joined and an
empty one can be split off. -/
theorem matches_many_many
    (hjoin : ∀ w w' rest, ok w (w' ++ rest) → ok w' rest → ok (w ++ w') rest)
    (hsplit : ∀ w rest, ok w rest → ok [] (w ++ rest)) :
    Matches ok (.many :: .many :: p) name ↔ Matches ok (.many :: p) name := by
  constructor
  · rintro ⟨w, _, rfl, hw, w', rest, rfl, hw', hrest⟩
    exact ⟨w ++ w', rest, (List.append_assoc w w' rest).symm, hjoin w w' rest hw hw', hrest⟩
  · rintro ⟨w, rest, rfl, hw, hrest⟩
    exact ⟨[], w ++ rest, rfl, hsplit w rest hw, w, rest, rfl, hw, hrest⟩

end Synchronet.Wildcards
