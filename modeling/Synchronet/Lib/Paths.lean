import Mathlib.Data.List.Infix
import Mathlib.Data.Nat.Notation

/-!
# Paths and their components

A path is a list that a separator divides into components, one of which, `up`, leads back to
the parent.  A path below a root is the root followed by a path that never goes up.
-/

namespace Synchronet.Paths

variable {α : Type*} [DecidableEq α] (sep : α) (up : List α)

/-- How many components of the path lead to the parent. -/
def ups (p : List α) : ℕ := (p.splitOn sep).count up

def Below (root p : List α) : Prop := ∃ q, p = root ++ q ∧ ups sep up q = 0

variable {sep up} {p q w root : List α}

theorem ups_append_sep (p q : List α) :
    ups sep up (p ++ sep :: q) = ups sep up p + ups sep up q := by
  simp [ups, List.splitOn_append_cons_self]

theorem ups_of_notMem (h : sep ∉ w) : ups sep up w = if w = up then 1 else 0 := by
  rw [ups, List.splitOn_eq_singleton h, List.count_singleton]
  simp

theorem ups_nil (h : up ≠ []) : ups sep up [] = 0 := by
  rw [ups_of_notMem (by simp), if_neg (Ne.symm h)]

/-- A separator at the end adds an empty component. -/
theorem ups_concat_sep (h : up ≠ []) (p : List α) : ups sep up (p ++ [sep]) = ups sep up p := by
  rw [ups_append_sep, ups_nil h, Nat.add_zero]

/-- What precedes a separator goes up no more than the whole. -/
theorem ups_le_of_append_sep (p q : List α) : ups sep up p ≤ ups sep up (p ++ sep :: q) := by
  rw [ups_append_sep]
  exact Nat.le_add_right _ _

/-- Behind a root that ends in a separator the two paths share no component. -/
theorem ups_append_of_closed (h : up ≠ []) (hroot : root.getLast? = some sep) :
    ups sep up (root ++ q) = ups sep up root + ups sep up q := by
  obtain ⟨r, rfl⟩ : ∃ r, root = r ++ [sep] := List.getLast?_eq_some_iff.mp hroot
  rw [List.append_assoc, List.singleton_append, ups_append_sep, ups_concat_sep h]

theorem below_iff (h : up ≠ []) (hroot : root.getLast? = some sep) (hp : ups sep up p = 0) :
    Below sep up root p ↔ root <+: p := by
  constructor
  · rintro ⟨q, rfl, -⟩
    exact List.prefix_append root q
  · rintro ⟨q, rfl⟩
    rw [ups_append_of_closed h hroot] at hp
    exact ⟨q, rfl, by omega⟩

/-! ## Paths from the root -/

/-- The path from the root whose components these are. -/
def render {α : Type*} (sep : α) (cs : List (List α)) : List α := cs.flatMap (sep :: ·)

/-- Going from the directory with these components into one more. -/
def enter (here up : List α) (dir : List (List α)) (c : List α) : List (List α) :=
  if c = [] ∨ c = here then dir else if c = up then dir.dropLast else dir ++ [c]

/-- The directories on the way from the root to the place that the path names. -/
def location (sep : α) (here up p : List α) : List (List α) :=
  (p.splitOn sep).foldl (enter here up) []

/-- A component that names an entry of a directory. -/
structure Entry {α : Type*} (sep : α) (here up c : List α) : Prop where
  ne_nil : c ≠ []
  ne_here : c ≠ here
  ne_up : c ≠ up
  sep_notMem : sep ∉ c

variable {here c v : List α} {dir cs : List (List α)}

omit [DecidableEq α] in
@[simp] theorem render_nil : render sep [] = [] := rfl

omit [DecidableEq α] in
@[simp] theorem render_cons : render sep (c :: cs) = sep :: c ++ render sep cs := rfl

omit [DecidableEq α] in
theorem render_append (cs ds : List (List α)) :
    render sep (cs ++ ds) = render sep cs ++ render sep ds := List.flatMap_append

theorem splitOn_append_render (hw : sep ∉ w) (hcs : ∀ c ∈ cs, sep ∉ c) :
    (w ++ render sep cs).splitOn sep = w :: cs := by
  induction cs generalizing w with
  | nil => rw [render_nil, List.append_nil, List.splitOn_eq_singleton hw]
  | cons c cs ih =>
      have hrest := ih (hcs c (List.mem_cons_self ..)) fun d hd ↦ hcs d (List.mem_cons_of_mem c hd)
      rw [render_cons, List.cons_append, List.splitOn_append_cons_self_of_not_mem hw, hrest]

/-- Every path is its first component followed by the others from the root. -/
theorem exists_splitOn_eq (sep : α) (p : List α) :
    ∃ w cs, p.splitOn sep = w :: cs ∧ p = w ++ render sep cs ∧ ∀ c ∈ w :: cs, sep ∉ c := by
  induction p with
  | nil => exact ⟨[], [], List.splitOn_nil sep, rfl, by simp⟩
  | cons a p ih =>
      obtain ⟨w, cs, hsplit, happ, hfree⟩ := ih
      by_cases ha : a = sep
      · refine ⟨[], w :: cs, ?_, ?_, ?_⟩
        · simp [List.splitOn_cons_eq_if_modifyHead, ha, hsplit]
        · rw [happ, ha]
          rfl
        · simpa using hfree
      · refine ⟨a :: w, cs, ?_, by rw [happ, List.cons_append], ?_⟩
        · simp [List.splitOn_cons_eq_if_modifyHead, ha, hsplit]
        · simpa [Ne.symm ha] using hfree

/-- What stands between two separators is a component, neither the first nor the last. -/
theorem mem_inner_of_infix (hw : sep ∉ w) (h : sep :: w ++ [sep] <:+: p) :
    w ∈ (p.splitOn sep).tail.dropLast := by
  obtain ⟨u, v, rfl⟩ := h
  have hsplit : (u ++ (sep :: w ++ [sep]) ++ v).splitOn sep =
      u.splitOn sep ++ w :: v.splitOn sep := by
    simp only [List.append_assoc, List.cons_append, List.nil_append]
    rw [List.splitOn_append_cons_self, List.splitOn_append_cons_self_of_not_mem hw]
  rw [hsplit, List.tail_append_of_ne_nil (List.splitOn_ne_nil sep u), List.dropLast_append_cons,
    List.dropLast_cons_of_ne_nil (List.splitOn_ne_nil sep v)]
  exact List.mem_append_right _ (List.mem_cons_self ..)

/-- What follows the last separator is a component and not the first. -/
theorem mem_tail_of_suffix (hw : sep ∉ w) (h : sep :: w <:+ p) :
    w ∈ (p.splitOn sep).tail := by
  obtain ⟨u, rfl⟩ := h
  rw [List.splitOn_append_cons_self, List.splitOn_eq_singleton hw,
    List.tail_append_of_ne_nil (List.splitOn_ne_nil sep u)]
  exact List.mem_append_right _ (List.mem_singleton_self w)

theorem enter_entry (h : Entry sep here up c) : enter here up dir c = dir ++ [c] := by
  rw [enter, if_neg (by simp [h.ne_nil, h.ne_here]), if_neg h.ne_up]

theorem enter_nil : enter here up dir [] = dir := if_pos (.inl rfl)

theorem enter_here : enter here up dir here = dir := if_pos (.inr rfl)

theorem enter_up (hnil : up ≠ []) (hhere : up ≠ here) : enter here up dir up = dir.dropLast := by
  rw [enter, if_neg (by simp [hnil, hhere]), if_pos rfl]

theorem foldl_enter_entries (h : ∀ c ∈ cs, Entry sep here up c) :
    cs.foldl (enter here up) dir = dir ++ cs := by
  induction cs generalizing dir with
  | nil => exact (List.append_nil dir).symm
  | cons c cs ih =>
      rw [List.foldl_cons, enter_entry (h c (List.mem_cons_self ..)),
        ih fun d hd ↦ h d (List.mem_cons_of_mem c hd), List.append_assoc, List.singleton_append]

theorem entries_enter (hdir : ∀ d ∈ dir, Entry sep here up d) (hc : sep ∉ c) :
    ∀ d ∈ enter here up dir c, Entry sep here up d := by
  intro d hd
  rw [enter] at hd
  split at hd
  case isTrue => exact hdir d hd
  case isFalse hnot =>
    split at hd
    case isTrue => exact hdir d (List.mem_of_mem_dropLast hd)
    case isFalse hup =>
      rcases List.mem_append.mp hd with h | h
      · exact hdir d h
      · obtain rfl := List.mem_singleton.mp h
        exact ⟨fun e ↦ hnot (.inl e), fun e ↦ hnot (.inr e), hup, hc⟩

theorem entries_foldl_enter (hdir : ∀ d ∈ dir, Entry sep here up d)
    (hcs : ∀ c ∈ cs, sep ∉ c) : ∀ d ∈ cs.foldl (enter here up) dir, Entry sep here up d := by
  induction cs generalizing dir with
  | nil => exact hdir
  | cons c cs ih =>
      apply ih (entries_enter hdir (hcs c (List.mem_cons_self ..)))
      exact fun d hd ↦ hcs d (List.mem_cons_of_mem c hd)

end Synchronet.Paths
