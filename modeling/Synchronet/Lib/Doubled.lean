import Mathlib.Data.List.Basic

/-!
# Doubled marks

In some texts a mark that stands for itself is written twice, and whoever reads the text takes
two marks in a row for one.  When other texts are put in between without being written that
way, the reader still gives back every item, unless two marks from the texts put in come
together with nothing but marks between them.
-/

namespace Synchronet.Doubled

variable {α : Type*} (e : α)

/-- Nothing but marks stands in front of the first mark that was put in. -/
def Leads (l : List (α × Bool)) : Prop :=
  ∃ mid post, l = mid ++ (e, true) :: post ∧ ∀ x ∈ mid, x.1 = e

/-- Two marks that were put in have something else than marks between them. -/
def Apart (l : List (α × Bool)) : Prop :=
  ∀ pre post, l = pre ++ (e, true) :: post → ¬Leads e post

theorem leads_cons {x : α × Bool} {l : List (α × Bool)} :
    Leads e (x :: l) ↔ x.1 = e ∧ (x.2 = true ∨ Leads e l) := by
  constructor
  · rintro ⟨mid, post, heq, hmid⟩
    cases mid with
    | nil =>
        obtain ⟨rfl, -⟩ := List.cons.inj heq
        exact ⟨rfl, Or.inl rfl⟩
    | cons y mid =>
        obtain ⟨rfl, rfl⟩ := List.cons.inj heq
        rw [List.forall_mem_cons] at hmid
        exact ⟨hmid.1, Or.inr ⟨mid, post, rfl, hmid.2⟩⟩
  · obtain ⟨a, put⟩ := x
    rintro ⟨ha, hput | ⟨mid, post, rfl, hmid⟩⟩
    · subst ha hput
      exact ⟨[], l, rfl, by simp⟩
    · exact ⟨(a, put) :: mid, post, rfl, List.forall_mem_cons.mpr ⟨ha, hmid⟩⟩

theorem apart_cons {x : α × Bool} {l : List (α × Bool)} :
    Apart e (x :: l) ↔ (x = (e, true) → ¬Leads e l) ∧ Apart e l := by
  constructor
  · intro h
    refine ⟨fun hx ↦ h [] l (by rw [hx, List.nil_append]), fun pre post hl ↦ ?_⟩
    exact h (x :: pre) post (by rw [hl, List.cons_append])
  · rintro ⟨hhead, htail⟩ pre post heq
    cases pre with
    | nil =>
        obtain ⟨hx, rfl⟩ := List.cons.inj heq
        exact hhead hx
    | cons y pre => exact htail pre post (List.cons.inj heq).2

@[simp] theorem not_leads_nil : ¬Leads e [] := by
  rintro ⟨mid, post, heq, -⟩
  simp at heq

@[simp] theorem apart_nil : Apart e [] := by
  intro pre post heq
  simp at heq

/-! ## Reading -/

variable [DecidableEq α]

/-- Two marks in a row are taken for one, from the left. -/
def undouble : List α → List α
  | a :: b :: l => if a = e ∧ b = e then e :: undouble l else a :: undouble (b :: l)
  | [a] => [a]
  | [] => []

/-- A text whose items say whether they were put in, in the form in which it is read. -/
def spliced (l : List (α × Bool)) : List α :=
  l.flatMap fun x ↦ if x.1 = e ∧ x.2 = false then [e, e] else [x.1]

/-- The reader, with `true` after a mark that may be the first of two. -/
def collapse : Bool → List α → List α
  | _, [] => []
  | true, a :: l => if a = e then collapse false l else a :: collapse false l
  | false, a :: l => a :: collapse (decide (a = e)) l

theorem undouble_eq_collapse (l : List α) : undouble e l = collapse e false l := by
  fun_induction undouble e l with
  | case1 a b l h ih => simp [collapse, h.1, h.2, ih]
  | case2 a b l h ih =>
      rw [ih]
      by_cases ha : a = e
      · have hb : b ≠ e := fun hb ↦ h ⟨ha, hb⟩
        simp [collapse, ha, hb]
      · simp [collapse, ha]
  | case3 a => simp [collapse]
  | case4 => rfl

/-- No mark that was put in is taken for the second of two. -/
def keeps : Bool → List (α × Bool) → Bool
  | _, [] => true
  | pending, x :: l =>
      if x.1 = e then if x.2 then !pending && keeps true l else keeps pending l
      else keeps false l

theorem keeps_iff (l : List (α × Bool)) (pending : Bool) :
    keeps e pending l ↔ (pending = true → ¬Leads e l) ∧ Apart e l := by
  induction l generalizing pending with
  | nil => simp [keeps]
  | cons x l ih =>
      obtain ⟨a, put⟩ := x
      rw [keeps, leads_cons, apart_cons]
      by_cases ha : a = e
      · cases put <;> cases pending <;> simp [ha, ih]
      · simp [ha, ih]

instance (l : List (α × Bool)) : Decidable (Apart e l) :=
  decidable_of_iff (keeps e false l = true) (by simp [keeps_iff])

/-- One item of the text and what the reader makes of it. -/
theorem collapse_spliced_cons (x : α × Bool) (l : List (α × Bool)) (pending : Bool) :
    collapse e pending (spliced e (x :: l)) =
      if x.1 = e then
        if x.2 then
          if pending then collapse e false (spliced e l) else e :: collapse e true (spliced e l)
        else e :: collapse e pending (spliced e l)
      else x.1 :: collapse e false (spliced e l) := by
  obtain ⟨a, put⟩ := x
  by_cases ha : a = e
  · cases put <;> cases pending <;> simp [spliced, collapse, ha]
  · cases pending <;> simp [spliced, collapse, ha]

theorem length_collapse_spliced_le (l : List (α × Bool)) (pending : Bool) :
    (collapse e pending (spliced e l)).length ≤ l.length := by
  induction l generalizing pending with
  | nil => simp [spliced, collapse]
  | cons x l ih =>
      rw [collapse_spliced_cons]
      split_ifs
      · exact Nat.le_trans (ih false) (Nat.le_succ _)
      · exact Nat.succ_le_succ (ih true)
      · exact Nat.succ_le_succ (ih pending)
      · exact Nat.succ_le_succ (ih false)

theorem collapse_spliced_eq_iff (l : List (α × Bool)) (pending : Bool) :
    collapse e pending (spliced e l) = l.map Prod.fst ↔ keeps e pending l = true := by
  induction l generalizing pending with
  | nil => simp [spliced, collapse, keeps]
  | cons x l ih =>
      rw [collapse_spliced_cons, keeps, List.map_cons]
      by_cases ha : x.1 = e
      · rw [if_pos ha, if_pos ha]
        cases hput : x.2
        · simp [ha, ih]
        · cases pending
          · simp [ha, ih]
          · have hlen := length_collapse_spliced_le e l false
            refine iff_of_false (fun heq ↦ ?_) (by simp)
            have hlen' := congrArg List.length heq
            simp only [if_true, List.length_cons, List.length_map] at hlen'
            omega
      · simp [ha, ih]

/-- The reader gives back every item just when the marks that were put in are apart. -/
theorem undouble_spliced_eq_iff (l : List (α × Bool)) :
    undouble e (spliced e l) = l.map Prod.fst ↔ Apart e l := by
  rw [undouble_eq_collapse, collapse_spliced_eq_iff, keeps_iff]
  simp

theorem spliced_append (l l' : List (α × Bool)) :
    spliced e (l ++ l') = spliced e l ++ spliced e l' := List.flatMap_append

/-- What was put in stands in the text as it is. -/
theorem spliced_put (s : List α) : spliced e (s.map fun a ↦ (a, true)) = s := by
  induction s with
  | nil => rfl
  | cons a s ih => simpa [spliced] using ih

end Synchronet.Doubled
