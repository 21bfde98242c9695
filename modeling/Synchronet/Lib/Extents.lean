import Mathlib.Data.List.Basic

/-!
# Accounts of disjoint extents

An allocator hands out extents of consecutive blocks.  Its accounts are in order
when the live extents are disjoint and the used blocks are exactly theirs.
-/

namespace Synchronet.Extents

/-- `size` consecutive blocks from block `start`. -/
structure Extent where
  start : ℕ
  size : ℕ
  deriving DecidableEq, Repr

instance : Membership ℕ Extent := ⟨fun e k ↦ e.start ≤ k ∧ k < e.start + e.size⟩

theorem mem_iff {e : Extent} {k : ℕ} : k ∈ e ↔ e.start ≤ k ∧ k < e.start + e.size := Iff.rfl

instance (k : ℕ) (e : Extent) : Decidable (k ∈ e) := decidable_of_iff _ mem_iff.symm

def Extent.Disjoint (a b : Extent) : Prop := ∀ k ∈ a, k ∉ b

theorem Extent.Disjoint.symm {a b : Extent} (h : a.Disjoint b) : b.Disjoint a :=
  fun k hb ha ↦ h k ha hb

structure Accounts (used : ℕ → Prop) (live : List Extent) : Prop where
  disjoint : live.Pairwise Extent.Disjoint
  used_iff : ∀ k, used k ↔ ∃ e ∈ live, k ∈ e

variable {used used' : ℕ → Prop} {live l₁ l₂ : List Extent} {e : Extent}

theorem Accounts.of_nil (h : ∀ k, ¬ used k) : Accounts used [] :=
  ⟨List.Pairwise.nil, fun k ↦ by simp [h k]⟩

/-- With nothing live, nothing is used. -/
theorem Accounts.not_used (h : Accounts used []) (k : ℕ) : ¬ used k := by
  simp [h.used_iff k]

/-- Handing out unused blocks. -/
theorem Accounts.alloc (h : Accounts used live) (hfree : ∀ k ∈ e, ¬ used k)
    (hused : ∀ k, used' k ↔ k ∈ e ∨ used k) : Accounts used' (live ++ [e]) := by
  refine ⟨?_, ?_⟩
  · rw [List.pairwise_append]
    refine ⟨h.disjoint, List.pairwise_singleton _ _, ?_⟩
    intro a ha b hb k hka hkb
    rw [List.mem_singleton.mp hb] at hkb
    exact hfree k hkb ((h.used_iff k).mpr ⟨a, ha, hka⟩)
  · intro k
    rw [hused k, h.used_iff k]
    constructor
    · rintro (hk | ⟨a, ha, hk⟩)
      · exact ⟨e, by simp, hk⟩
      · exact ⟨a, by simp [ha], hk⟩
    · rintro ⟨a, ha, hk⟩
      rcases List.mem_append.mp ha with ha | ha
      · exact Or.inr ⟨a, ha, hk⟩
      · rw [List.mem_singleton.mp ha] at hk
        exact Or.inl hk

/-- Taking back the blocks of a live extent. -/
theorem Accounts.free (h : Accounts used (l₁ ++ e :: l₂))
    (hused : ∀ k, used' k ↔ k ∉ e ∧ used k) : Accounts used' (l₁ ++ l₂) := by
  obtain ⟨hleft, hright, hcross⟩ := List.pairwise_append.mp h.disjoint
  obtain ⟨hhead, htail⟩ := List.pairwise_cons.mp hright
  refine ⟨?_, ?_⟩
  · rw [List.pairwise_append]
    exact ⟨hleft, htail, fun a ha b hb ↦ hcross a ha b (List.mem_cons_of_mem _ hb)⟩
  · intro k
    rw [hused k, h.used_iff k]
    constructor
    · rintro ⟨hk, a, ha, hka⟩
      refine ⟨a, ?_, hka⟩
      rcases List.mem_append.mp ha with ha | ha
      · exact List.mem_append_left _ ha
      · rcases List.mem_cons.mp ha with rfl | ha
        · exact absurd hka hk
        · exact List.mem_append_right _ ha
    · rintro ⟨a, ha, hka⟩
      rcases List.mem_append.mp ha with ha | ha
      · exact ⟨hcross a ha e (by simp) k hka, a, by simp [ha], hka⟩
      · exact ⟨fun hk ↦ hhead a ha k hk hka, a, by simp [ha], hka⟩

end Synchronet.Extents
