import Mathlib.Data.List.Pairwise
import Mathlib.Data.Set.Basic

/-!
# Reference counts kept per block

Blocks of type `β` have counts.  A holder has a span of blocks, some references,
and a weight for each block: a further reference adds the weight to the counts of
the span, and a reference that is given up takes it away, without going below zero.
A fresh span starts at one whatever its weights are.  The counts back the holders
when each block of a span has at least one plus its weight for every reference but
the first.
-/

namespace Synchronet.RefCount

variable {β : Type*}

structure Holder (β : Type*) where
  span : Set β
  weight : β → ℕ
  refs : ℕ

/-- Holders whose spans share no block. -/
def Holder.Apart (a b : Holder β) : Prop := ∀ i ∈ a.span, i ∉ b.span

theorem Holder.Apart.symm {a b : Holder β} (h : a.Apart b) : b.Apart a :=
  fun i hb ha ↦ h i ha hb

/-- What a holder needs of the counts. -/
structure Holder.Held (count : β → ℕ) (h : Holder β) : Prop where
  refs_pos : 0 < h.refs
  weight_span : ∀ i ∉ h.span, h.weight i = 0
  le_count : ∀ i ∈ h.span, 1 + h.weight i * (h.refs - 1) ≤ count i

structure Backed (count : β → ℕ) (live : List (Holder β)) : Prop where
  apart : live.Pairwise Holder.Apart
  held : ∀ h ∈ live, h.Held count

variable {count count' : β → ℕ} {live l₁ l₂ : List (Holder β)} {h : Holder β} {k : ℕ}

theorem Backed.nil (count : β → ℕ) : Backed count [] :=
  ⟨List.Pairwise.nil, fun _ hmem ↦ absurd hmem List.not_mem_nil⟩

/-- A held block is in use. -/
theorem Backed.count_pos (hb : Backed count live) (hmem : h ∈ live) {i : β} (hi : i ∈ h.span) :
    0 < count i := by
  have := (hb.held h hmem).le_count i hi
  omega

theorem Holder.Held.mono (hh : h.Held count) (hle : ∀ i ∈ h.span, count i ≤ count' i) :
    h.Held count' :=
  ⟨hh.refs_pos, hh.weight_span, fun i hi ↦ (hh.le_count i hi).trans (hle i hi)⟩

/-- The holders beside `h` in a list of holders that are apart. -/
theorem apart_of_mem (hpair : (l₁ ++ h :: l₂).Pairwise Holder.Apart) {a : Holder β}
    (ha : a ∈ l₁ ++ l₂) : a.Apart h := by
  rw [List.pairwise_append, List.pairwise_cons] at hpair
  obtain ⟨-, ⟨hright, -⟩, hleft⟩ := hpair
  rcases List.mem_append.mp ha with ha | ha
  · exact hleft a ha h (by simp)
  · exact (hright a ha).symm

/-- A change of the counts outside the spans of the other holders leaves them held. -/
theorem Backed.held_others (hb : Backed count (l₁ ++ h :: l₂))
    (hcount : ∀ i ∉ h.span, count' i = count i) {a : Holder β} (ha : a ∈ l₁ ++ l₂) :
    a.Held count' := by
  have hmem : a ∈ l₁ ++ h :: l₂ := by
    rcases List.mem_append.mp ha with ha | ha
    · exact List.mem_append_left _ ha
    · exact List.mem_append_right _ (List.mem_cons_of_mem _ ha)
  refine (hb.held a hmem).mono fun i hi ↦ ?_
  rw [hcount i (apart_of_mem hb.apart ha i hi)]

/-- A holder that gets other references keeps its place. -/
theorem Backed.replace (hb : Backed count (l₁ ++ h :: l₂)) {refs : ℕ}
    (hcount : ∀ i ∉ h.span, count' i = count i)
    (hheld : ({ h with refs := refs } : Holder β).Held count') :
    Backed count' (l₁ ++ { h with refs := refs } :: l₂) := by
  refine ⟨?_, ?_⟩
  · have hpair := hb.apart
    rw [List.pairwise_append, List.pairwise_cons] at hpair ⊢
    obtain ⟨hl₁, ⟨hright, hl₂⟩, hleft⟩ := hpair
    refine ⟨hl₁, ⟨fun a ha ↦ hright a ha, hl₂⟩, fun a ha b hb' ↦ ?_⟩
    rcases List.mem_cons.mp hb' with rfl | hb'
    · exact hleft a ha h (by simp)
    · exact hleft a ha b (List.mem_cons_of_mem _ hb')
  · intro a ha
    rcases List.mem_append.mp ha with ha | ha
    · exact hb.held_others hcount (List.mem_append_left _ ha)
    · rcases List.mem_cons.mp ha with rfl | ha
      · exact hheld
      · exact hb.held_others hcount (List.mem_append_right _ ha)

/-- A fresh span of unused blocks. -/
theorem Backed.alloc (hb : Backed count live) (hone : h.refs = 1)
    (hweight : ∀ i ∉ h.span, h.weight i = 0) (hfree : ∀ i ∈ h.span, count i = 0)
    (hin : ∀ i ∈ h.span, count' i = 1) (hout : ∀ i ∉ h.span, count' i = count i) :
    Backed count' (live ++ [h]) := by
  have hapart : ∀ a ∈ live, a.Apart h := by
    intro a ha i hia hih
    have := hb.count_pos ha hia
    rw [hfree i hih] at this
    exact absurd this (lt_irrefl 0)
  refine ⟨?_, ?_⟩
  · rw [List.pairwise_append]
    refine ⟨hb.apart, List.pairwise_singleton _ _, fun a ha b hb' ↦ ?_⟩
    rw [List.mem_singleton.mp hb']
    exact hapart a ha
  · intro a ha
    rcases List.mem_append.mp ha with ha | ha
    · refine (hb.held a ha).mono fun i hi ↦ ?_
      rw [hout i (hapart a ha i hi)]
    · rw [List.mem_singleton.mp ha]
      exact ⟨by omega, hweight, fun i hi ↦ by simp [hin i hi, hone]⟩

/-- Further references. -/
theorem Backed.retain (hb : Backed count (l₁ ++ h :: l₂))
    (hcount : ∀ i, count' i = count i + h.weight i * k) :
    Backed count' (l₁ ++ { h with refs := h.refs + k } :: l₂) := by
  have hheld := hb.held h (by simp)
  refine hb.replace (fun i hi ↦ ?_) ⟨?_, hheld.weight_span, fun i hi ↦ ?_⟩
  · rw [hcount i, hheld.weight_span i hi, Nat.zero_mul, Nat.add_zero]
  · exact Nat.add_pos_left hheld.refs_pos k
  · have hpos := hheld.refs_pos
    calc 1 + h.weight i * (h.refs + k - 1)
        = 1 + h.weight i * (h.refs - 1) + h.weight i * k := by
          rw [show h.refs + k - 1 = h.refs - 1 + k by omega, Nat.mul_add, Nat.add_assoc]
      _ ≤ count i + h.weight i * k := Nat.add_le_add_right (hheld.le_count i hi) _
      _ = count' i := (hcount i).symm

/-- A reference that is not the last is given up. -/
theorem Backed.release (hb : Backed count (l₁ ++ h :: l₂)) (hrefs : 1 < h.refs)
    (hcount : ∀ i, count' i = count i - h.weight i) :
    Backed count' (l₁ ++ { h with refs := h.refs - 1 } :: l₂) := by
  have hheld := hb.held h (by simp)
  refine hb.replace (fun i hi ↦ ?_) ⟨?_, hheld.weight_span, fun i hi ↦ ?_⟩
  · rw [hcount i, hheld.weight_span i hi, Nat.sub_zero]
  · exact Nat.sub_pos_of_lt hrefs
  · have hle := hheld.le_count i hi
    have hmul : h.weight i * (h.refs - 1) = h.weight i * (h.refs - 1 - 1) + h.weight i := by
      obtain ⟨n, hn⟩ : ∃ n, h.refs = n + 2 := ⟨h.refs - 2, by omega⟩
      rw [hn, show n + 2 - 1 = n + 1 by omega, Nat.add_sub_cancel, Nat.mul_add, Nat.mul_one]
    rw [hcount i]
    dsimp only
    omega

/-- The last reference is given up; the blocks of the span are then nobody's. -/
theorem Backed.drop (hb : Backed count (l₁ ++ h :: l₂))
    (hcount : ∀ i, count' i = count i - h.weight i) : Backed count' (l₁ ++ l₂) := by
  have hheld := hb.held h (by simp)
  refine ⟨?_, fun a ha ↦ hb.held_others (fun i hi ↦ ?_) ha⟩
  · have hsub : (l₁ ++ l₂).Sublist (l₁ ++ h :: l₂) :=
      (List.sublist_cons_self h l₂).append_left l₁
    exact hb.apart.sublist hsub
  · rw [hcount i, hheld.weight_span i hi, Nat.sub_zero]

end Synchronet.RefCount
