import Mathlib.Data.List.DropRight
import Mathlib.Data.List.TakeWhile

/-!
# Trimming lists

Elements that satisfy a predicate are dropped at one end of a list.  What is appended at the
other end, or is dropped anyway, makes no difference.
-/

namespace Synchronet.Trim

variable {α : Type*} {p q : α → Bool} {xs ys : List α}

theorem rdropWhile_append (h : ∀ y ∈ ys, p y) : (xs ++ ys).rdropWhile p = xs.rdropWhile p := by
  have hrev : ∀ y ∈ ys.reverse, p y := fun y hy ↦ h y (List.mem_reverse.mp hy)
  rw [List.rdropWhile, List.reverse_append, List.dropWhile_append_of_pos hrev]
  rfl

/-- A list is what is kept, and behind it elements that are dropped. -/
theorem exists_rdropWhile_append (p : α → Bool) (xs : List α) :
    ∃ ys, xs = xs.rdropWhile p ++ ys ∧ ∀ y ∈ ys, p y := by
  refine ⟨xs.rtakeWhile p, by simp, fun y hy ↦ ?_⟩
  exact List.mem_takeWhile_imp (List.mem_reverse.mp hy)

theorem rdropWhile_rdropWhile (h : ∀ x, q x → p x) :
    (xs.rdropWhile q).rdropWhile p = xs.rdropWhile p := by
  obtain ⟨ys, hys, hq⟩ := exists_rdropWhile_append q xs
  conv_rhs => rw [hys, rdropWhile_append fun y hy ↦ h y (hq y hy)]

theorem dropWhile_append_of_neg (h : xs.dropWhile p ≠ []) :
    (xs ++ ys).dropWhile p = xs.dropWhile p ++ ys := by
  rw [List.dropWhile_append, if_neg]
  simpa using h

/-- An element that is kept keeps everything before it. -/
theorem rdropWhile_append_of_exists (h : ∃ y ∈ ys, p y = false) :
    (xs ++ ys).rdropWhile p = xs ++ ys.rdropWhile p := by
  have hne : ys.reverse.dropWhile p ≠ [] := by
    rw [Ne, List.dropWhile_eq_nil_iff]
    intro hall
    obtain ⟨y, hy, hp⟩ := h
    simp [hall y (List.mem_reverse.mpr hy)] at hp
  rw [List.rdropWhile, List.reverse_append, dropWhile_append_of_neg hne, List.reverse_append,
    List.reverse_reverse]
  rfl

theorem rdropWhile_cons_of_neg {x : α} (h : p x = false) :
    (x :: xs).rdropWhile p = x :: xs.rdropWhile p := by
  by_cases hall : ∃ y ∈ xs, p y = false
  · simpa using @rdropWhile_append_of_exists _ p [x] xs hall
  · push Not at hall
    have hpos : ∀ y ∈ xs, p y := fun y hy ↦ by simpa using hall y hy
    have hnil : xs.rdropWhile p = [] := by
      rw [List.rdropWhile_eq_nil_iff]
      exact hpos
    rw [hnil, show x :: xs = [x] ++ xs from rfl, rdropWhile_append hpos,
      List.rdropWhile_singleton, if_neg (by simp [h])]

theorem dropWhile_append_eq_nil (hx : xs.dropWhile p = []) (hy : ∀ y ∈ ys, p y) :
    (xs ++ ys).dropWhile p = [] := by
  rw [List.dropWhile_append, if_pos (by simp [hx])]
  exact List.dropWhile_eq_nil_iff.mpr hy

theorem dropWhile_eq_self_of_head (h : ∀ x ∈ xs.head?, p x = false) : xs.dropWhile p = xs := by
  cases xs with
  | nil => rfl
  | cons x xs => simp [h x (by simp)]

theorem rdropWhile_eq_self_of_getLast (h : ∀ x ∈ xs.getLast?, p x = false) :
    xs.rdropWhile p = xs := by
  rw [List.rdropWhile_eq_self_iff]
  intro hne
  simp [h _ (List.getLast_mem_getLast? hne)]

theorem head_dropWhile (p : α → Bool) (xs : List α) : ∀ x ∈ (xs.dropWhile p).head?, p x = false := by
  intro x hx
  have := List.head?_dropWhile_not p xs
  rw [Option.mem_def.mp hx] at this
  exact this

theorem getLast_rdropWhile (p : α → Bool) (xs : List α) :
    ∀ x ∈ (xs.rdropWhile p).getLast?, p x = false := by
  intro x hx
  rw [List.rdropWhile, List.getLast?_reverse] at hx
  exact head_dropWhile p xs.reverse x hx

/-- The two ends are trimmed in either order. -/
theorem dropWhile_rdropWhile (p : α → Bool) (xs : List α) :
    (xs.rdropWhile p).dropWhile p = (xs.dropWhile p).rdropWhile p := by
  obtain ⟨ys, hxs, hys⟩ := exists_rdropWhile_append p xs
  have hlast := getLast_rdropWhile p xs
  conv_rhs => rw [hxs]
  generalize xs.rdropWhile p = zs at hlast
  by_cases hz : zs.dropWhile p = []
  · rw [hz, dropWhile_append_eq_nil hz hys]
    rfl
  · rw [dropWhile_append_of_neg hz, rdropWhile_append hys]
    refine (rdropWhile_eq_self_of_getLast fun x hx ↦ hlast x ?_).symm
    rw [List.getLast?_eq_some_getLast hz, (List.dropWhile_suffix p).getLast] at hx
    rwa [List.getLast?_eq_some_getLast]

/-- The first element that satisfies `p`, with what stands before and behind it. -/
theorem exists_first (p : α → Bool) (xs : List α) :
    ∃ pre rest, xs = pre ++ rest ∧ (∀ x ∈ pre, p x = false) ∧
      (rest = [] ∨ ∃ x post, rest = x :: post ∧ p x = true) := by
  induction xs with
  | nil => exact ⟨[], [], rfl, by simp, .inl rfl⟩
  | cons x xs ih =>
      cases hx : p x with
      | true => exact ⟨[], x :: xs, rfl, by simp, .inr ⟨x, xs, rfl, hx⟩⟩
      | false =>
          obtain ⟨pre, rest, rfl, hpre, hrest⟩ := ih
          refine ⟨x :: pre, rest, rfl, ?_, hrest⟩
          simpa [hx] using hpre

/-- An element of two lists that are put together stands in one of them. -/
theorem append_eq_append_cons {ps qs p q : List α} {x : α} (h : ps ++ qs = p ++ x :: q) :
    (∃ c, ps = p ++ x :: c ∧ q = c ++ qs) ∨ ∃ c, qs = c ++ x :: q ∧ p = ps ++ c := by
  rcases List.append_eq_append_iff.mp h with ⟨c, hp, hq⟩ | ⟨c, hp, hq⟩
  · exact .inr ⟨c, hq, hp⟩
  · cases c with
    | nil => exact .inr ⟨[], by simpa using hq.symm, by simpa using hp.symm⟩
    | cons y c =>
        simp only [List.cons_append, List.cons.injEq] at hq
        obtain ⟨rfl, hq⟩ := hq
        exact .inl ⟨c, hp, hq⟩

/-! ## Splitting at a separator -/

variable [BEq α] [LawfulBEq α] {a c : α}

theorem splitOn_cons_ne (h : c ≠ a) {hd : List α} {tl : List (List α)}
    (hxs : xs.splitOn a = hd :: tl) : (c :: xs).splitOn a = (c :: hd) :: tl := by
  rw [List.splitOn_cons_eq_if_modifyHead, if_neg (by simpa using h), hxs]
  rfl

/-- An element behind a list is put behind its last piece. -/
theorem splitOn_concat (h : c ≠ a) (xs : List α) :
    ∃ init last, xs.splitOn a = init ++ [last] ∧
      (xs ++ [c]).splitOn a = init ++ [last ++ [c]] := by
  induction xs with
  | nil => exact ⟨[], [], rfl, splitOn_cons_ne h (List.splitOn_nil a)⟩
  | cons x xs ih =>
      obtain ⟨init, last, h1, h2⟩ := ih
      rw [List.cons_append, List.splitOn_cons_eq_if_modifyHead, List.splitOn_cons_eq_if_modifyHead,
        h1, h2]
      split
      · exact ⟨[] :: init, last, rfl, rfl⟩
      · cases init with
        | nil => exact ⟨[], x :: last, rfl, rfl⟩
        | cons i init => exact ⟨(x :: i) :: init, last, rfl, rfl⟩

end Synchronet.Trim
