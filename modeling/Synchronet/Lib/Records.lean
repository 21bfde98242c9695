import Mathlib.Data.List.Basic
import Mathlib.Data.List.TakeDrop
import Mathlib.Tactic.Ring

/-!
# Files cut into records

A file of bytes is read as the records of one size that follow each other in it.  A sorted
file stays sorted when a record goes in between the ones that belong in front of it and the
ones that belong behind it.
-/

namespace Synchronet.Records

variable {α : Type*}

/-- The first `n` records of a file. -/
def cut (size : ℕ) : ℕ → List α → List (List α)
  | 0, _ => []
  | n + 1, f => f.take size :: cut size n (f.drop size)

/-- The whole records of a file. -/
def records (size : ℕ) (f : List α) : List (List α) := cut size (f.length / size) f

variable {size : ℕ}

@[simp] theorem records_nil : records size ([] : List α) = [] := by simp [records, cut]

@[simp] theorem length_cut (size n : ℕ) (f : List α) : (cut size n f).length = n := by
  induction n generalizing f with
  | zero => rfl
  | succ n ih => simp [cut, ih]

@[simp] theorem length_records (size : ℕ) (f : List α) :
    (records size f).length = f.length / size := length_cut _ _ _

theorem length_flatten {rs : List (List α)} (h : ∀ r ∈ rs, r.length = size) :
    rs.flatten.length = rs.length * size := by
  induction rs with
  | nil => simp
  | cons r rs ih =>
      rw [List.flatten_cons, List.length_append, h r (by simp),
        ih fun r' hr' ↦ h r' (by simp [hr']), List.length_cons]
      ring

theorem cut_flatten {rs : List (List α)} (h : ∀ r ∈ rs, r.length = size) :
    cut size rs.length rs.flatten = rs := by
  induction rs with
  | nil => rfl
  | cons r rs ih =>
      have hr : r.length = size := h r (by simp)
      rw [List.length_cons, cut, List.flatten_cons, List.take_left' hr, List.drop_left' hr,
        ih fun r' hr' ↦ h r' (by simp [hr'])]

/-- What was written record by record is read record by record. -/
theorem records_flatten (hsize : 0 < size) {rs : List (List α)} (h : ∀ r ∈ rs, r.length = size) :
    records size rs.flatten = rs := by
  rw [records, length_flatten h, Nat.mul_div_cancel _ hsize, cut_flatten h]

theorem flatten_cut {n : ℕ} {f : List α} (h : f.length = n * size) :
    (cut size n f).flatten = f := by
  induction n generalizing f with
  | zero => simp_all [cut]
  | succ n ih =>
      have hdrop : (f.drop size).length = n * size := by
        rw [List.length_drop, h]
        exact Nat.sub_eq_of_eq_add (by ring)
      rw [cut, List.flatten_cons, ih hdrop, List.take_append_drop]

theorem flatten_records {f : List α} (h : f.length % size = 0) : (records size f).flatten = f :=
  flatten_cut (Nat.div_mul_cancel (Nat.dvd_of_mod_eq_zero h)).symm

theorem length_of_mem_cut {n : ℕ} {f : List α} (h : f.length = n * size) :
    ∀ r ∈ cut size n f, r.length = size := by
  induction n generalizing f with
  | zero => simp [cut]
  | succ n ih =>
      have hlen : f.length = n * size + size := by rw [h]; ring
      intro r hr
      rcases List.mem_cons.mp hr with rfl | hr
      · rw [List.length_take, hlen]
        exact min_eq_left (Nat.le_add_left _ _)
      · refine ih ?_ r hr
        rw [List.length_drop, hlen, Nat.add_sub_cancel]

theorem length_of_mem_records {f : List α} (h : f.length % size = 0) :
    ∀ r ∈ records size f, r.length = size :=
  length_of_mem_cut (Nat.div_mul_cancel (Nat.dvd_of_mod_eq_zero h)).symm

theorem getElem?_cut (n : ℕ) (f : List α) {i : ℕ} (h : i < n) :
    (cut size n f)[i]? = some ((f.drop (i * size)).take size) := by
  induction n generalizing f i with
  | zero => exact absurd h (Nat.not_lt_zero i)
  | succ n ih =>
      cases i with
      | zero => simp [cut]
      | succ i =>
          rw [cut, List.getElem?_cons_succ, ih _ (Nat.lt_of_succ_lt_succ h), List.drop_drop,
            Nat.succ_mul, Nat.add_comm size]

/-- The first element of a record, in the file. -/
theorem head?_getElem_records (hsize : 0 < size) (f : List α) {i : ℕ}
    (h : i < (records size f).length) : ((records size f)[i]).head? = f[i * size]? := by
  have hget := @getElem?_cut _ size (f.length / size) f i (by simpa using h)
  have hrec : (records size f)[i] = (f.drop (i * size)).take size :=
    Option.some_injective _ ((List.getElem?_eq_getElem h).symm.trans hget)
  rw [hrec, List.head?_take, if_neg hsize.ne', List.head?_drop]

/-- The place in front of the record `k`. -/
theorem take_eq_flatten {f : List α} (h : f.length % size = 0) (k : ℕ) :
    f.take (k * size) = ((records size f).take k).flatten := by
  have hlen := length_of_mem_records h
  conv_lhs => rw [← flatten_records h]
  generalize records size f = rs at hlen ⊢
  induction rs generalizing k with
  | nil => simp
  | cons r rs ih =>
      cases k with
      | zero => simp
      | succ k =>
          have hr : r.length = size := hlen r (by simp)
          rw [List.take_succ_cons, List.flatten_cons, List.flatten_cons, List.take_append, hr,
            List.take_of_length_le (by rw [hr, Nat.succ_mul]; exact Nat.le_add_left _ _),
            Nat.succ_mul, Nat.add_sub_cancel, ih k fun r' hr' ↦ hlen r' (by simp [hr'])]

theorem drop_eq_flatten {f : List α} (h : f.length % size = 0) (k : ℕ) :
    f.drop (k * size) = ((records size f).drop k).flatten := by
  refine (List.append_right_inj (f.take (k * size))).mp ?_
  rw [List.take_append_drop, take_eq_flatten h, ← List.flatten_append, List.take_append_drop,
    flatten_records h]

/-- A record goes in front of the record `k`. -/
theorem records_insert (hsize : 0 < size) {f r : List α} (h : f.length % size = 0)
    (hr : r.length = size) (k : ℕ) :
    records size (f.take (k * size) ++ (r ++ f.drop (k * size))) =
      (records size f).take k ++ r :: (records size f).drop k := by
  have hlen := length_of_mem_records h
  rw [take_eq_flatten h, drop_eq_flatten h, ← List.flatten_cons, ← List.flatten_append]
  refine records_flatten hsize fun r' hr' ↦ ?_
  rcases List.mem_append.mp hr' with hr' | hr'
  · exact hlen r' (List.mem_of_mem_take hr')
  · rcases List.mem_cons.mp hr' with rfl | hr'
    · exact hr
    · exact hlen r' (List.mem_of_mem_drop hr')

/-! ## Sorted files -/

variable {R : α → α → Prop} {xs : List α} {a : α} {k : ℕ}

theorem mem_insert {b : α} : b ∈ xs.take k ++ a :: xs.drop k ↔ b = a ∨ b ∈ xs := by
  conv_rhs => rw [← List.take_append_drop k xs]
  simp only [List.mem_append, List.mem_cons]
  exact or_left_comm

theorem pairwise_insert (h : xs.Pairwise R) (hfront : ∀ x ∈ xs.take k, R x a)
    (hback : ∀ x ∈ xs.drop k, R a x) : (xs.take k ++ a :: xs.drop k).Pairwise R := by
  rw [← List.take_append_drop k xs, List.pairwise_append] at h
  obtain ⟨htake, hdrop, hacross⟩ := h
  refine List.pairwise_append.mpr ⟨htake, List.pairwise_cons.mpr ⟨hback, hdrop⟩, ?_⟩
  intro x hx y hy
  rcases List.mem_cons.mp hy with rfl | hy
  · exact hfront x hx
  · exact hacross x hx y hy

/-- In a sorted list the elements behind a place belong behind what belongs in front of the
first of them. -/
theorem pairwise_insert_of_head (hR : ∀ {a b c}, R a b → R b c → R a c) (h : xs.Pairwise R)
    (hfront : ∀ x ∈ xs.take k, R x a) (hhead : ∀ x ∈ xs[k]?, R a x) :
    (xs.take k ++ a :: xs.drop k).Pairwise R := by
  refine pairwise_insert h hfront fun x hx ↦ ?_
  have hdrop : (xs.drop k).Pairwise R := h.sublist (List.drop_sublist k xs)
  cases hcons : xs.drop k with
  | nil => simp [hcons] at hx
  | cons y ys =>
      have hy : R a y := hhead y (by rw [← List.head?_drop, hcons]; rfl)
      rw [hcons] at hx hdrop
      rcases List.mem_cons.mp hx with rfl | hx
      · exact hy
      · exact hR hy ((List.pairwise_cons.mp hdrop).1 x hx)

end Synchronet.Records
