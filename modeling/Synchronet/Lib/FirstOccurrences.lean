import Mathlib.Data.List.Chain

/-!
# First occurrences

The entries of a list that have no earlier one with the same key, and a pass that removes the
entries which pass a test but steps over the one behind each entry that it removes.
-/

namespace Synchronet.FirstOccurrences

variable {α κ : Type*} [DecidableEq κ] (key : α → κ)

/-- The entries whose keys have not occurred before. -/
def firsts : List α → List α
  | [] => []
  | x :: xs => x :: (firsts xs).filter fun y ↦ key y ≠ key x

variable {key} {xs : List α}

@[simp] theorem firsts_nil : firsts key [] = [] := rfl

theorem firsts_cons (x : α) (xs : List α) :
    firsts key (x :: xs) = x :: (firsts key xs).filter fun y ↦ key y ≠ key x := rfl

theorem firsts_sublist (xs : List α) : (firsts key xs).Sublist xs := by
  induction xs with
  | nil => exact List.Sublist.refl _
  | cons x xs ih => exact (List.filter_sublist.trans ih).cons_cons x

theorem pairwise_firsts (xs : List α) : (firsts key xs).Pairwise fun a b ↦ key a ≠ key b := by
  induction xs with
  | nil => exact List.Pairwise.nil
  | cons x xs ih =>
      refine List.pairwise_cons.mpr ⟨fun y hy ↦ ?_, ih.filter _⟩
      have hne : key y ≠ key x := by simpa using (List.mem_filter.mp hy).2
      exact hne.symm

/-- Leaving out a key and leaving out later occurrences can be done in either order. -/
theorem firsts_filter (k : κ) (xs : List α) :
    firsts key (xs.filter fun y ↦ key y ≠ k) = (firsts key xs).filter fun y ↦ key y ≠ k := by
  induction xs with
  | nil => rfl
  | cons x xs ih =>
      by_cases hx : key x = k
      · have hleave : (x :: xs).filter (fun y ↦ key y ≠ k) = xs.filter fun y ↦ key y ≠ k := by
          simp [hx]
        rw [hleave, ih, firsts_cons, List.filter_cons_of_neg (by simp [hx]), hx,
          List.filter_filter]
        simp
      · have hkeep : (x :: xs).filter (fun y ↦ key y ≠ k) = x :: xs.filter fun y ↦ key y ≠ k := by
          simp [hx]
        rw [hkeep, firsts_cons, ih, firsts_cons, List.filter_cons_of_pos (by simp [hx]),
          List.filter_filter, List.filter_filter]
        simp only [Bool.and_comm]

/-! ## Removing and stepping over -/

/-- What is kept and what is removed when the entry behind each removed one is stepped over;
`none` when the step leads behind the end of the list. -/
def skim (p : α → Bool) : List α → Option (List α × List α)
  | [] => some ([], [])
  | [x] => if p x then none else some ([x], [])
  | x :: y :: xs =>
      if p x then (skim p xs).map fun r ↦ (y :: r.1, x :: r.2)
      else (skim p (y :: xs)).map fun r ↦ (x :: r.1, r.2)

theorem skim_cons_of_neg {p : α → Bool} {x : α} (hx : p x ≠ true) (xs : List α) :
    skim p (x :: xs) = (skim p xs).map fun r ↦ (x :: r.1, r.2) := by
  cases xs with
  | nil => simp [skim, hx]
  | cons y xs => rw [skim, if_neg hx]

/-- No entry that passes the test is stepped over, and none is the last one. -/
structure Unskipped (p : α → Bool) (xs : List α) : Prop where
  chain : xs.IsChain fun x y ↦ ¬ (p x = true ∧ p y = true)
  last : ∀ x ∈ xs.getLast?, p x ≠ true

variable {p : α → Bool} {kept removed : List α}

theorem skim_eq_filter (h : Unskipped p xs) :
    skim p xs = some (xs.filter fun x ↦ !p x, xs.filter p) := by
  fun_induction skim p xs with
  | case1 => rfl
  | case2 x hx => exact absurd hx (h.last x rfl)
  | case3 x hx => simp [hx]
  | case4 x y xs hx ih =>
      obtain ⟨hxy, hchain⟩ := List.isChain_cons_cons.mp h.chain
      have hy : p y = false := by
        cases hy : p y with
        | true => exact absurd ⟨hx, hy⟩ hxy
        | false => rfl
      have hrest : Unskipped p xs := by
        refine ⟨hchain.tail, fun z hz ↦ h.last z ?_⟩
        cases xs with
        | nil => simp at hz
        | cons w xs => simpa using hz
      simp [ih hrest, hx, hy]
  | case5 x y xs hx ih =>
      have hrest : Unskipped p (y :: xs) :=
        ⟨(List.isChain_cons_cons.mp h.chain).2, fun z hz ↦ h.last z (by simpa using hz)⟩
      simp [ih hrest, List.filter_cons, hx]

/-- A pass that keeps no entry which passes the test has stepped over none. -/
theorem unskipped_of_skim (h : skim p xs = some (kept, removed)) (hkept : ∀ x ∈ kept, p x ≠ true) :
    Unskipped p xs := by
  fun_induction skim p xs generalizing kept removed with
  | case1 => exact ⟨List.isChain_nil, by simp⟩
  | case2 => cases h
  | case3 x hx => exact ⟨List.isChain_singleton _, by simpa using hx⟩
  | case4 x y xs hx ih =>
      obtain ⟨⟨kept', removed'⟩, hrest, heq⟩ := Option.map_eq_some_iff.mp h
      obtain ⟨rfl, rfl⟩ := Prod.mk.inj heq
      have hy : p y ≠ true := hkept y (List.mem_cons_self ..)
      obtain ⟨hchain, hlast⟩ := ih hrest fun z hz ↦ hkept z (List.mem_cons_of_mem y hz)
      refine ⟨List.isChain_cons_cons.mpr ⟨fun hxy ↦ hy hxy.2, ?_⟩, ?_⟩
      · cases xs with
        | nil => exact List.isChain_singleton _
        | cons z xs => exact List.isChain_cons_cons.mpr ⟨fun hyz ↦ hy hyz.1, hchain⟩
      · cases xs with
        | nil => simpa using hy
        | cons z xs => simpa using hlast
  | case5 x y xs hx ih =>
      obtain ⟨⟨kept', removed'⟩, hrest, heq⟩ := Option.map_eq_some_iff.mp h
      obtain ⟨rfl, rfl⟩ := Prod.mk.inj heq
      obtain ⟨hchain, hlast⟩ := ih hrest fun z hz ↦ hkept z (List.mem_cons_of_mem x hz)
      exact ⟨List.isChain_cons_cons.mpr ⟨fun hxy ↦ hx hxy.1, hchain⟩, by simpa using hlast⟩

/-- An entry that fails the test is kept. -/
theorem mem_kept_of_skim (h : skim p xs = some (kept, removed)) {x : α} (hx : x ∈ xs)
    (hp : p x ≠ true) : x ∈ kept := by
  fun_induction skim p xs generalizing kept removed with
  | case1 => simp at hx
  | case2 => cases h
  | case3 y hy =>
      obtain ⟨rfl, -⟩ := Prod.mk.inj (Option.some.inj h)
      exact hx
  | case4 y z xs hy ih =>
      obtain ⟨⟨kept', removed'⟩, hrest, heq⟩ := Option.map_eq_some_iff.mp h
      obtain ⟨rfl, rfl⟩ := Prod.mk.inj heq
      rcases List.mem_cons.mp hx with rfl | hx
      · exact absurd hy hp
      · rcases List.mem_cons.mp hx with rfl | hx
        · exact List.mem_cons_self ..
        · exact List.mem_cons_of_mem z (ih hrest hx)
  | case5 y z xs hy ih =>
      obtain ⟨⟨kept', removed'⟩, hrest, heq⟩ := Option.map_eq_some_iff.mp h
      obtain ⟨rfl, rfl⟩ := Prod.mk.inj heq
      rcases List.mem_cons.mp hx with rfl | hx
      · exact List.mem_cons_self ..
      · exact List.mem_cons_of_mem y (ih hrest hx)

theorem length_kept_le (h : skim p xs = some (kept, removed)) : kept.length ≤ xs.length := by
  fun_induction skim p xs generalizing kept removed with
  | case1 =>
      obtain ⟨rfl, -⟩ := Prod.mk.inj (Option.some.inj h)
      exact le_rfl
  | case2 => cases h
  | case3 x hx =>
      obtain ⟨rfl, -⟩ := Prod.mk.inj (Option.some.inj h)
      exact le_rfl
  | case4 x y xs hx ih =>
      obtain ⟨⟨kept', removed'⟩, hrest, heq⟩ := Option.map_eq_some_iff.mp h
      obtain ⟨rfl, rfl⟩ := Prod.mk.inj heq
      have := ih hrest
      simp only [List.length_cons]
      omega
  | case5 x y xs hx ih =>
      obtain ⟨⟨kept', removed'⟩, hrest, heq⟩ := Option.map_eq_some_iff.mp h
      obtain ⟨rfl, rfl⟩ := Prod.mk.inj heq
      exact Nat.succ_le_succ (ih hrest)

/-- In no pass for a first occurrence is one of its later occurrences stepped over or last. -/
inductive NoneSkipped (key : α → κ) : List α → Prop
  | nil : NoneSkipped key []
  | cons {x : α} {xs : List α} : Unskipped (fun y ↦ decide (key y = key x)) xs →
      NoneSkipped key (xs.filter fun y ↦ key y ≠ key x) → NoneSkipped key (x :: xs)

end Synchronet.FirstOccurrences
