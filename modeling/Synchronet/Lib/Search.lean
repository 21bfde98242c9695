import Mathlib.Data.List.Infix

/-!
# Search for a word

The rest of a list from the first occurrence of a word on.  Lists that a separator divides into
lines are searched line by line, for a word within a line or for one that starts with the
separator.
-/

namespace Synchronet.Search

variable {α : Type*} [DecidableEq α]

/-- The rest from the first occurrence of `word` on. -/
def find (word : List α) : List α → Option (List α)
  | [] => if word = [] then some [] else none
  | c :: rest => if word <+: c :: rest then some (c :: rest) else find word rest

variable {word s rest : List α} {sep : α}

theorem find_of_prefix (h : word <+: s) : find word s = some s := by
  cases s with
  | nil =>
      obtain rfl := List.prefix_nil.mp h
      rfl
  | cons c s => rw [find, if_pos h]

theorem find_cons_of_not_prefix {c : α} (h : ¬word <+: c :: s) :
    find word (c :: s) = find word s := by
  rw [find, if_neg h]

theorem find_eq_none_iff : find word s = none ↔ ¬word <:+: s := by
  induction s with
  | nil =>
      rw [find, List.infix_nil]
      split
      · case isTrue h => simp [h]
      · case isFalse h => simp [h]
  | cons c s ih =>
      rw [find, List.infix_cons_iff]
      split
      · case isTrue h => simp [h]
      · case isFalse h => simp [h, ih]

theorem find_suffix (h : find word s = some rest) : rest <:+ s ∧ word <+: rest := by
  induction s with
  | nil =>
      rw [find] at h
      split at h
      · case isTrue hword =>
          cases h
          exact ⟨List.suffix_refl _, hword ▸ List.prefix_refl _⟩
      · cases h
  | cons c s ih =>
      rw [find] at h
      split at h
      · case isTrue hword =>
          cases h
          exact ⟨List.suffix_refl _, hword⟩
      · exact ⟨(ih h).1.trans (List.suffix_cons c s), (ih h).2⟩

/-- What is found is found with any text behind it. -/
theorem find_append {t : List α} (h : find word s = some rest) :
    find word (s ++ t) = some (rest ++ t) := by
  induction s with
  | nil =>
      obtain ⟨hsuffix, hpre⟩ := find_suffix h
      obtain rfl := List.suffix_nil.mp hsuffix
      exact find_of_prefix (hpre.trans (List.prefix_append _ _))
  | cons c s ih =>
      rw [find] at h
      split at h
      · case isTrue hword =>
          cases h
          exact find_of_prefix (hword.trans (List.prefix_append _ _))
      · case isFalse hword =>
          have hlen : word.length ≤ s.length :=
            (find_suffix h).2.length_le.trans (find_suffix h).1.length_le
          rw [List.cons_append, find_cons_of_not_prefix, ih h]
          intro hpre
          refine hword (List.prefix_of_prefix_length_le hpre (List.prefix_append (c :: s) t) ?_)
          exact hlen.trans (Nat.le_succ _)

/-- A word that starts with a separator is not found within a line. -/
theorem find_append_of_notMem (h : sep ∉ s) :
    find (sep :: word) (s ++ rest) = find (sep :: word) rest := by
  induction s with
  | nil => rfl
  | cons c s ih =>
      rw [List.mem_cons, not_or] at h
      rw [List.cons_append, find_cons_of_not_prefix, ih h.2]
      rw [List.cons_prefix_cons]
      exact fun hcons ↦ h.1 hcons.1

omit [DecidableEq α] in
/-- A word without separators that starts in a line ends in it. -/
theorem prefix_of_prefix_append_sep (hword : sep ∉ word) (h : word <+: s ++ sep :: rest) :
    word <+: s := by
  rcases List.prefix_or_prefix_of_prefix h (List.prefix_append s (sep :: rest)) with hw | hs
  · exact hw
  · obtain ⟨t, rfl⟩ := hs
    rw [List.prefix_append_right_inj] at h
    cases t with
    | nil => simp
    | cons c t =>
        rw [List.cons_prefix_cons] at h
        exact absurd (by simp [h.1]) hword

/-- A word with a separator at its start at most that is not in a text is found behind it. -/
theorem find_append_sep_cons (htail : sep ∉ word.tail) (hne : word ≠ []) (h : ¬word <:+: s) :
    find word (s ++ sep :: rest) = find word (sep :: rest) := by
  induction s with
  | nil => rfl
  | cons c s ih =>
      rw [List.infix_cons_iff, not_or] at h
      rw [List.cons_append, find_cons_of_not_prefix, ih h.2]
      cases word with
      | nil => exact absurd rfl hne
      | cons a w =>
          rw [List.cons_prefix_cons]
          rintro ⟨rfl, hpre⟩
          exact h.1 ((List.prefix_cons_inj _).mpr (prefix_of_prefix_append_sep htail hpre))

/-- A word without separators that is not in the first line is found behind it. -/
theorem find_append_sep (hword : sep ∉ word) (hne : word ≠ []) (h : ¬word <:+: s) :
    find word (s ++ sep :: rest) = find word rest := by
  rw [find_append_sep_cons (fun htail ↦ hword (List.mem_of_mem_tail htail)) hne h,
    find_cons_of_not_prefix]
  intro hpre
  have hnil := prefix_of_prefix_append_sep (s := []) hword hpre
  exact hne (List.prefix_nil.mp hnil)

/-- Behind the separator of a line that starts differently. -/
theorem find_sep_cons (hword : sep ∉ word) (hs : sep ∉ s) (h : ¬word <+: s)
    (hrest : rest = [] ∨ ∃ r, rest = sep :: r) :
    find (sep :: word) (sep :: s ++ rest) = find (sep :: word) rest := by
  rw [List.cons_append, find_cons_of_not_prefix, find_append_of_notMem hs]
  rw [List.cons_prefix_cons]
  rintro ⟨-, hpre⟩
  rcases hrest with rfl | ⟨r, rfl⟩
  · exact h (by simpa using hpre)
  · exact h (prefix_of_prefix_append_sep hword hpre)

/-! ## A single element -/

theorem idxOf_append_cons {c : α} (h : c ∉ s) : (s ++ c :: rest).idxOf? c = some s.length := by
  induction s with
  | nil => simp [List.idxOf?_cons]
  | cons b s ih =>
      rw [List.mem_cons, not_or] at h
      rw [List.cons_append, List.idxOf?_cons, if_neg (by simpa using Ne.symm h.1), ih h.2]
      rfl

omit [DecidableEq α] in
theorem drop_append_cons (s rest : List α) (c : α) :
    (s ++ c :: rest).drop (s.length + 1) = rest := by
  rw [← List.drop_drop, List.drop_left]
  rfl

end Synchronet.Search
