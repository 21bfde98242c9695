import Mathlib.Data.List.Basic
import Mathlib.Tactic.Ring
import Mathlib.Order.Basic

/-!
# First-fit search

`firstFit p n l` is the position of the first `n` consecutive elements of `l`
that satisfy `p`, or the end of the list when there are none.  It is computed by
one pass that counts the current run.
-/

namespace Synchronet.FirstFit

variable {α : Type*}

/-- The pass over the list.  `run` counts the elements satisfying `p` directly
before position `pos`. -/
def scan (p : α → Bool) (n : ℕ) : List α → ℕ → ℕ → ℕ
  | [], _, pos => pos
  | a :: l, run, pos =>
      let run' := if p a then run + 1 else 0
      if run' = n then pos + 1 - n else scan p n l run' (pos + 1)

def firstFit (p : α → Bool) (n : ℕ) (l : List α) : ℕ := scan p n l 0 0

/-- The `n` elements from position `s` exist and satisfy `p`. -/
def Fits (p : α → Bool) (n : ℕ) (l : List α) (s : ℕ) : Prop :=
  ∀ i < n, ∃ a, l[s + i]? = some a ∧ p a = true

theorem Fits.add_le_length {p : α → Bool} {n : ℕ} {l : List α} {s : ℕ} (hn : 0 < n)
    (h : Fits p n l s) : s + n ≤ l.length := by
  obtain ⟨a, ha, -⟩ := h (n - 1) (by omega)
  obtain ⟨hlt, -⟩ := List.getElem?_eq_some_iff.mp ha
  omega

/-- What is known of the part already passed: the run directly behind the
position satisfies `p`, and no fit starts earlier than that run. -/
structure Passed (p : α → Bool) (n : ℕ) (l : List α) (run pos : ℕ) : Prop where
  run_le : run ≤ pos
  run_lt : run < n
  pos_le : pos ≤ l.length
  run_ok : ∀ i < run, ∃ a, l[pos - run + i]? = some a ∧ p a = true
  no_earlier : ∀ s < pos - run, ¬ Fits p n l s

theorem Passed.step {p : α → Bool} {n : ℕ} {l : List α} {run pos : ℕ} {a : α}
    (h : Passed p n l run pos) (ha : l[pos]? = some a)
    (hn : (if p a then run + 1 else 0) ≠ n) :
    Passed p n l (if p a then run + 1 else 0) (pos + 1) := by
  obtain ⟨hlt, -⟩ := List.getElem?_eq_some_iff.mp ha
  have hrle := h.run_le
  have hrlt := h.run_lt
  by_cases hp : p a = true
  · simp only [hp, if_true] at hn ⊢
    refine ⟨by omega, by omega, hlt, ?_, ?_⟩
    · intro i hi
      have hpos : pos + 1 - (run + 1) + i = pos - run + i := by omega
      rw [hpos]
      by_cases hlast : i = run
      · have hat : pos - run + i = pos := by omega
        exact ⟨a, by rw [hat]; exact ha, hp⟩
      · exact h.run_ok i (by omega)
    · intro s hs
      exact h.no_earlier s (by omega)
  · simp only [hp] at hn ⊢
    refine ⟨by simp, ?_, hlt, by simp, ?_⟩
    · simp only [Bool.false_eq_true, if_false] at hn ⊢
      omega
    · intro s hs hfit
      by_cases hearly : s < pos - run
      · exact h.no_earlier s hearly hfit
      · -- a fit starting in the run or at `pos` would contain position `pos`
        obtain ⟨b, hb, hpb⟩ := hfit (pos - s) (by simp at hs; omega)
        have hat : s + (pos - s) = pos := by simp at hs; omega
        rw [hat, ha] at hb
        cases hb
        exact hp hpb

theorem scan_spec (p : α → Bool) (n : ℕ) (l : List α) (rest : List α) (run pos : ℕ)
    (hrest : l.drop pos = rest) (h : Passed p n l run pos) :
    (Fits p n l (scan p n rest run pos) ∨ scan p n rest run pos = l.length) ∧
      ∀ s < scan p n rest run pos, ¬ Fits p n l s := by
  induction rest generalizing run pos with
  | nil =>
      have hend : pos = l.length := le_antisymm h.pos_le (List.drop_eq_nil_iff.mp hrest)
      rw [scan]
      refine ⟨Or.inr hend, ?_⟩
      intro s hs hfit
      have hlen := hfit.add_le_length (by have := h.run_lt; omega)
      have hrlt := h.run_lt
      exact h.no_earlier s (by omega) hfit
  | cons a rest ih =>
      have ha : l[pos]? = some a := by
        rw [← List.head?_drop, hrest]
        rfl
      have htail : l.drop (pos + 1) = rest := by
        rw [← List.drop_drop, hrest]
        rfl
      rw [scan]
      by_cases hrun : (if p a then run + 1 else 0) = n
      · have hpa : p a = true := by
          by_contra hpa
          have := h.run_lt
          simp only [hpa] at hrun
          simp at hrun
          omega
        simp only [hpa, if_true] at hrun ⊢
        rw [if_pos hrun]
        have hrle := h.run_le
        refine ⟨Or.inl ?_, ?_⟩
        · intro i hi
          have hpos : pos + 1 - n + i = pos - run + i := by omega
          rw [hpos]
          by_cases hlast : i = run
          · have hat : pos - run + i = pos := by omega
            exact ⟨a, by rw [hat]; exact ha, hpa⟩
          · exact h.run_ok i (by omega)
        · intro s hs
          exact h.no_earlier s (by omega)
      · simp only [if_neg hrun]
        exact ih _ _ htail (h.step ha hrun)

/-- The search finds the first fit, and otherwise returns the end of the list. -/
theorem firstFit_spec (p : α → Bool) {n : ℕ} (hn : 0 < n) (l : List α) :
    (Fits p n l (firstFit p n l) ∨ firstFit p n l = l.length) ∧
      ∀ s < firstFit p n l, ¬ Fits p n l s := by
  refine scan_spec p n l l 0 0 rfl ⟨le_refl _, hn, Nat.zero_le _, ?_, ?_⟩
  · intro i hi
    omega
  · intro s hs
    omega

theorem firstFit_le_length (p : α → Bool) {n : ℕ} (hn : 0 < n) (l : List α) :
    firstFit p n l ≤ l.length := by
  rcases (firstFit_spec p hn l).1 with hfit | hend
  · have := hfit.add_le_length hn
    omega
  · omega

/-- Whatever the list holds at a position covered by the search result satisfies
`p`. -/
theorem firstFit_covered (p : α → Bool) {n : ℕ} (hn : 0 < n) (l : List α) {i : ℕ} {a : α}
    (hlo : firstFit p n l ≤ i) (hhi : i < firstFit p n l + n) (ha : l[i]? = some a) :
    p a = true := by
  rcases (firstFit_spec p hn l).1 with hfit | hend
  · obtain ⟨b, hb, hpb⟩ := hfit (i - firstFit p n l) (by omega)
    have hat : firstFit p n l + (i - firstFit p n l) = i := by omega
    rw [hat, ha] at hb
    cases hb
    exact hpb
  · obtain ⟨hlt, -⟩ := List.getElem?_eq_some_iff.mp ha
    omega

/-- With no element satisfying `p` the search runs to the end. -/
theorem firstFit_eq_length (p : α → Bool) {n : ℕ} (hn : 0 < n) {l : List α}
    (h : ∀ a ∈ l, p a = false) : firstFit p n l = l.length := by
  rcases (firstFit_spec p hn l).1 with hfit | hend
  · obtain ⟨a, ha, hpa⟩ := hfit 0 hn
    rw [h a (List.mem_of_getElem? ha)] at hpa
    cases hpa
  · exact hend

end Synchronet.FirstFit
