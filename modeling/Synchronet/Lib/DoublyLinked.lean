import Mathlib.Data.List.Induction
import Mathlib.Data.List.Nodup
import Mathlib.Logic.Function.Basic

/-!
# Doubly linked cells

A heap of cells that point to their neighbours.  The cells of a sequence are linked when
each points to those before and behind it, and a sequence is cut and joined by changing
the two pointers at the cut.
-/

namespace Synchronet.DoublyLinked

structure Cell (π : Type*) where
  payload : π
  prev : Option ℕ
  next : Option ℕ

/-- The cells at the addresses that are in use. -/
abbrev Heap (π : Type*) := ℕ → Option (Cell π)

variable {π : Type*}

/-- The address of the first cell. -/
def first (xs : List (ℕ × π)) : Option ℕ := xs.head?.map Prod.fst

/-- The address of the last cell. -/
def last (xs : List (ℕ × π)) : Option ℕ := xs.getLast?.map Prod.fst

/-- The addresses of the cells. -/
def places (xs : List (ℕ × π)) : List ℕ := xs.map Prod.fst

@[simp] theorem first_nil : first ([] : List (ℕ × π)) = none := rfl

@[simp] theorem first_cons (x : ℕ × π) (xs : List (ℕ × π)) : first (x :: xs) = some x.1 := rfl

@[simp] theorem last_nil : last ([] : List (ℕ × π)) = none := rfl

@[simp] theorem last_append_singleton (xs : List (ℕ × π)) (x : ℕ × π) :
    last (xs ++ [x]) = some x.1 := by simp [last]

theorem last_cons (x : ℕ × π) (xs : List (ℕ × π)) : last (x :: xs) = (last xs).or (some x.1) := by
  cases xs using List.reverseRecOn with
  | nil => rfl
  | append_singleton xs y _ =>
      rw [← List.cons_append, last_append_singleton, last_append_singleton, Option.some_or]

theorem first_append (xs ys : List (ℕ × π)) : first (xs ++ ys) = (first xs).or (first ys) := by
  cases xs <;> simp

theorem last_append (xs ys : List (ℕ × π)) : last (xs ++ ys) = (last ys).or (last xs) := by
  cases ys using List.reverseRecOn with
  | nil => simp
  | append_singleton ys y _ =>
      rw [← List.append_assoc, last_append_singleton, last_append_singleton, Option.some_or]

@[simp] theorem places_nil : places ([] : List (ℕ × π)) = [] := rfl

@[simp] theorem places_cons (x : ℕ × π) (xs : List (ℕ × π)) :
    places (x :: xs) = x.1 :: places xs := rfl

@[simp] theorem places_append (xs ys : List (ℕ × π)) :
    places (xs ++ ys) = places xs ++ places ys := List.map_append

theorem mem_places_of_first {xs : List (ℕ × π)} {a : ℕ} (h : first xs = some a) :
    a ∈ places xs := by
  cases xs with
  | nil => cases h
  | cons x xs =>
      obtain rfl := Option.some.inj h
      exact List.mem_cons_self

theorem mem_places_of_last {xs : List (ℕ × π)} {a : ℕ} (h : last xs = some a) :
    a ∈ places xs := by
  cases xs using List.reverseRecOn with
  | nil => cases h
  | append_singleton xs x _ =>
      rw [last_append_singleton] at h
      obtain rfl := Option.some.inj h
      simp

/-- The cells of a sequence between the neighbours `p` and `q`. -/
def Linked (heap : Heap π) : Option ℕ → List (ℕ × π) → Option ℕ → Prop
  | _, [], _ => True
  | p, (a, x) :: xs, q => heap a = some ⟨x, p, (first xs).or q⟩ ∧ Linked heap (some a) xs q

variable {heap heap' : Heap π} {p q : Option ℕ}

theorem linked_append {xs ys : List (ℕ × π)} :
    Linked heap p (xs ++ ys) q ↔
      Linked heap p xs ((first ys).or q) ∧ Linked heap ((last xs).or p) ys q := by
  induction xs generalizing p with
  | nil => simp [Linked]
  | cons x xs ih =>
      obtain ⟨a, x⟩ := x
      rw [List.cons_append, Linked, Linked, ih, first_append, last_cons, and_assoc]
      simp [Option.or_assoc]

/-- Only the cells of the sequence count. -/
theorem Linked.congr {xs : List (ℕ × π)} (h : Linked heap p xs q)
    (heq : ∀ a ∈ places xs, heap' a = heap a) : Linked heap' p xs q := by
  induction xs generalizing p with
  | nil => trivial
  | cons x xs ih =>
      obtain ⟨a, x⟩ := x
      refine ⟨(heq a List.mem_cons_self).trans h.1, ?_⟩
      exact ih h.2 fun b hb ↦ heq b (List.mem_cons_of_mem a hb)

theorem Linked.get {xs ys : List (ℕ × π)} {a : ℕ} {x : π}
    (h : Linked heap p (xs ++ (a, x) :: ys) q) :
    heap a = some ⟨x, (last xs).or p, (first ys).or q⟩ := (linked_append.mp h).2.1

/-- The payloads are changed and the pointers stay. -/
theorem Linked.map {xs : List (ℕ × π)} (h : Linked heap p xs q) (f : ℕ → π → π)
    (hmap : ∀ a, heap' a = (heap a).map fun c ↦ { c with payload := f a c.payload }) :
    Linked heap' p (xs.map fun x ↦ (x.1, f x.1 x.2)) q := by
  induction xs generalizing p with
  | nil => trivial
  | cons x xs ih =>
      obtain ⟨a, x⟩ := x
      refine ⟨?_, ih h.2⟩
      rw [hmap, h.1]
      cases xs <;> rfl

/-! ## Pointers that are changed -/

/-- A cell is changed; `none` when there is none. -/
def modifyCell (heap : Heap π) (a : ℕ) (f : Cell π → Cell π) : Option (Heap π) :=
  (heap a).map fun c ↦ Function.update heap a (some (f c))

/-- The pointer to the cell before, where there is a cell. -/
def setPrev (heap : Heap π) (a p : Option ℕ) : Option (Heap π) :=
  match a with
  | none => some heap
  | some a => modifyCell heap a fun c ↦ { c with prev := p }

/-- The pointer to the cell behind, where there is a cell. -/
def setNext (heap : Heap π) (a q : Option ℕ) : Option (Heap π) :=
  match a with
  | none => some heap
  | some a => modifyCell heap a fun c ↦ { c with next := q }

theorem modifyCell_eq {a : ℕ} {c : Cell π} (h : heap a = some c) (f : Cell π → Cell π) :
    modifyCell heap a f = some (Function.update heap a (some (f c))) := by
  rw [modifyCell, h, Option.map_some]

/-- The sequence gets another neighbour before it. -/
theorem Linked.setPrev {xs : List (ℕ × π)} (h : Linked heap p xs q) (hnodup : (places xs).Nodup)
    (p' : Option ℕ) :
    ∃ heap', DoublyLinked.setPrev heap (first xs) p' = some heap' ∧ Linked heap' p' xs q ∧
      ∀ a, a ∉ places xs → heap' a = heap a := by
  cases xs with
  | nil => exact ⟨heap, rfl, trivial, fun _ _ ↦ rfl⟩
  | cons x xs =>
      obtain ⟨a, x⟩ := x
      refine ⟨_, modifyCell_eq h.1 _, ⟨Function.update_self _ _ _, ?_⟩, ?_⟩
      · apply h.2.congr
        intro b hb
        exact Function.update_of_ne (ne_of_mem_of_not_mem hb (List.nodup_cons.mp hnodup).1) _ _
      · intro b hb
        exact Function.update_of_ne (List.ne_of_not_mem_cons hb) _ _

/-- The sequence gets another neighbour behind it. -/
theorem Linked.setNext {xs : List (ℕ × π)} (h : Linked heap p xs q) (hnodup : (places xs).Nodup)
    (q' : Option ℕ) :
    ∃ heap', DoublyLinked.setNext heap (last xs) q' = some heap' ∧ Linked heap' p xs q' ∧
      ∀ a, a ∉ places xs → heap' a = heap a := by
  cases xs using List.reverseRecOn with
  | nil => exact ⟨heap, rfl, trivial, fun _ _ ↦ rfl⟩
  | append_singleton xs x _ =>
      obtain ⟨a, x⟩ := x
      rw [last_append_singleton]
      obtain ⟨hxs, hx, -⟩ := linked_append.mp h
      rw [places_append, places_cons, places_nil, List.nodup_append] at hnodup
      refine ⟨_, modifyCell_eq hx _, linked_append.mpr ⟨?_, Function.update_self _ _ _, trivial⟩, ?_⟩
      · apply Linked.congr hxs
        intro b hb
        exact Function.update_of_ne (hnodup.2.2 b hb a List.mem_cons_self) _ _
      · intro b hb
        refine Function.update_of_ne (fun hba ↦ hb ?_) _ _
        rw [hba, places_append]
        simp

/-- A cell that is not linked yet goes between two sequences. -/
theorem Linked.insert {xs ys : List (ℕ × π)} (h : Linked heap p (xs ++ ys) q)
    (hnodup : (places (xs ++ ys)).Nodup) {a : ℕ} (ha : a ∉ places (xs ++ ys)) (x : π) :
    ∃ heap₁ heap₂,
      DoublyLinked.setPrev
        (Function.update heap a (some ⟨x, (last xs).or p, (first ys).or q⟩)) (first ys) (some a) =
        some heap₁ ∧
      DoublyLinked.setNext heap₁ (last xs) (some a) = some heap₂ ∧
      Linked heap₂ p (xs ++ (a, x) :: ys) q ∧
      ∀ b, b ∉ places (xs ++ (a, x) :: ys) → heap₂ b = heap b := by
  rw [places_append] at hnodup ha
  obtain ⟨hx, hy, hdisjoint⟩ := List.nodup_append.mp hnodup
  obtain ⟨hax, hay⟩ := not_or.mp (mt List.mem_append.mpr ha)
  obtain ⟨hxs, hys⟩ := linked_append.mp h
  generalize hheap : Function.update heap a _ = heap₀
  have hrest : ∀ b, b ≠ a → heap₀ b = heap b := by
    intro b hb
    rw [← hheap, Function.update_of_ne hb]
  have hget : heap₀ a = some ⟨x, (last xs).or p, (first ys).or q⟩ := by
    rw [← hheap, Function.update_self]
  have hxs₀ := hxs.congr fun b hb ↦ hrest b (ne_of_mem_of_not_mem hb hax)
  have hys₀ := hys.congr fun b hb ↦ hrest b (ne_of_mem_of_not_mem hb hay)
  obtain ⟨heap₁, hset₁, hys₁, hrest₁⟩ := hys₀.setPrev hy (some a)
  have hxs₁ := hxs₀.congr fun b hb ↦ hrest₁ b fun hb' ↦ hdisjoint b hb b hb' rfl
  obtain ⟨heap₂, hset₂, hxs₂, hrest₂⟩ := hxs₁.setNext hx (some a)
  refine ⟨heap₁, heap₂, hset₁, hset₂, linked_append.mpr ⟨hxs₂, ?_, ?_⟩, ?_⟩
  · rw [hrest₂ a hax, hrest₁ a hay, hget]
  · exact hys₁.congr fun b hb ↦ hrest₂ b fun hb' ↦ hdisjoint b hb' b hb rfl
  · intro b hb
    rw [places_append, places_cons, List.mem_append, List.mem_cons, not_or, not_or] at hb
    rw [hrest₂ b hb.1, hrest₁ b hb.2.2, hrest b hb.2.1]

/-- The neighbours of a cell are linked past it. -/
theorem Linked.remove {xs ys : List (ℕ × π)} {a : ℕ} {x : π}
    (h : Linked heap p (xs ++ (a, x) :: ys) q)
    (hnodup : (places (xs ++ (a, x) :: ys)).Nodup) :
    ∃ heap₁ heap₂,
      DoublyLinked.setNext heap (last xs) ((first ys).or q) = some heap₁ ∧
      DoublyLinked.setPrev heap₁ (first ys) ((last xs).or p) = some heap₂ ∧
      Linked heap₂ p (xs ++ ys) q ∧ ∀ b, b ∉ places (xs ++ ys) → heap₂ b = heap b := by
  rw [places_append, places_cons] at hnodup
  obtain ⟨hx, hy, hdisjoint⟩ := List.nodup_append.mp hnodup
  obtain ⟨hxs, -, hys⟩ := linked_append.mp h
  obtain ⟨heap₁, hset₁, hxs₁, hrest₁⟩ := hxs.setNext hx ((first ys).or q)
  have hys₁ := hys.congr fun b hb ↦
    hrest₁ b fun hb' ↦ hdisjoint b hb' b (List.mem_cons_of_mem a hb) rfl
  obtain ⟨heap₂, hset₂, hys₂, hrest₂⟩ := hys₁.setPrev (List.nodup_cons.mp hy).2 ((last xs).or p)
  refine ⟨heap₁, heap₂, hset₁, hset₂, linked_append.mpr ⟨?_, hys₂⟩, ?_⟩
  · exact hxs₁.congr fun b hb ↦
      hrest₂ b fun hb' ↦ hdisjoint b hb b (List.mem_cons_of_mem a hb') rfl
  · intro b hb
    rw [places_append, List.mem_append, not_or] at hb
    exact (hrest₂ b hb.2).trans (hrest₁ b hb.1)

/-! ## Where the cells point to -/

/-- The pointer of a cell to the one behind it. -/
def nexts (heap : Heap π) (a : ℕ) : Option (Option ℕ) := (heap a).map Cell.next

theorem nexts_eq_some {a : ℕ} {r : Option ℕ} (h : nexts heap a = some r) :
    ∃ x p, heap a = some ⟨x, p, r⟩ := by
  obtain ⟨⟨x, p, _⟩, hget, rfl⟩ := Option.map_eq_some_iff.mp h
  exact ⟨x, p, hget⟩

theorem nexts_update (heap : Heap π) (a b : ℕ) (c : Cell π) :
    nexts (Function.update heap a (some c)) b = if b = a then some c.next else nexts heap b := by
  by_cases hba : b = a
  · rw [hba, nexts, Function.update_self, if_pos rfl, Option.map_some]
  · rw [nexts, Function.update_of_ne hba, if_neg hba, nexts]

/-- A pointer to the cell before does not change where the cells point to. -/
theorem nexts_setPrev {a : ℕ} {r : Option ℕ} (ha : nexts heap a = some r) (p' : Option ℕ) :
    ∃ heap', setPrev heap (some a) p' = some heap' ∧ ∀ b, nexts heap' b = nexts heap b := by
  obtain ⟨x, p, hget⟩ := nexts_eq_some ha
  refine ⟨_, modifyCell_eq hget _, fun b ↦ ?_⟩
  rw [nexts_update]
  split
  case isTrue hba => rw [hba, ha]
  case isFalse => rfl

theorem nexts_setNext {a : ℕ} {r : Option ℕ} (ha : nexts heap a = some r) (q' : Option ℕ) :
    ∃ heap', setNext heap (some a) q' = some heap' ∧
      ∀ b, nexts heap' b = if b = a then some q' else nexts heap b := by
  obtain ⟨x, p, hget⟩ := nexts_eq_some ha
  exact ⟨_, modifyCell_eq hget _, fun b ↦ nexts_update heap a b _⟩

end Synchronet.DoublyLinked
