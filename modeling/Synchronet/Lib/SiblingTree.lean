import Mathlib.Algebra.BigOperators.Intervals
import Mathlib.Algebra.Order.BigOperators.Group.Finset
import Mathlib.Logic.Equiv.Basic
import Mathlib.Logic.Function.Basic
import Mathlib.Tactic.Ring

/-!
# Binary trees in the order of their frequencies

The nodes of a binary tree with `n + 1` leaves are the places `0, …, 2n` of a table, in
the order of their frequencies and with the root last.  Siblings are neighbours: the
place of an inner node says where the first of its two children is, and a leaf says
which symbol it stands for, as `2n + 1` plus the symbol.  `prnt` leads back from a place
or a symbol.

A frequency is incremented on the way from a leaf to the root.  Each node on that way
first changes places with the last node of the same frequency.
-/

namespace Synchronet

structure Tree where
  freq : ℕ → ℕ
  son : ℕ → ℕ
  prnt : ℕ → ℕ

/-- One more at a place that is still to be incremented. -/
def debtAt (c i : ℕ) : ℕ := if i = c then 1 else 0

/-- The order and the links of the tree.  `debt` is what the children of a node have
more than the node. -/
structure SiblingTree (n : ℕ) (debt : ℕ → ℕ) (t : Tree) : Prop where
  sorted : ∀ i j, i ≤ j → j < 2 * n + 1 → t.freq i ≤ t.freq j
  pos : ∀ i, i < 2 * n + 1 → 0 < t.freq i
  node : ∀ i, i < 2 * n + 1 → t.son i < 2 * n + 1 →
    t.freq i + debt i = t.freq (t.son i) + t.freq (t.son i + 1)
  inner : ∀ i, i < 2 * n + 1 → t.son i < 2 * n + 1 →
    t.son i % 2 = 0 ∧ t.son i < 2 * n ∧ t.prnt (t.son i) = i ∧ t.prnt (t.son i + 1) = i
  leaf : ∀ i, i < 2 * n + 1 → 2 * n + 1 ≤ t.son i →
    t.son i < 2 * n + 1 + (n + 1) ∧ t.prnt (t.son i) = i
  parent : ∀ k, k < 2 * n → t.prnt k < 2 * n + 1 ∧ t.son (t.prnt k) = 2 * (k / 2)
  symbol : ∀ k, 2 * n + 1 ≤ k → k < 2 * n + 1 + (n + 1) →
    t.prnt k < 2 * n + 1 ∧ t.son (t.prnt k) = k
  up : ∀ k, k < 2 * n → k < t.prnt k
  root : t.prnt (2 * n) = 0

namespace Tree

/-- The children below `s` get the parent `x`; a symbol is one child, a place two. -/
def redirect (n : ℕ) (prnt : ℕ → ℕ) (s x : ℕ) : ℕ → ℕ :=
  fun k ↦ if k = s ∨ s < 2 * n + 1 ∧ k = s + 1 then x else prnt k

/-- The nodes at `c` and `l` change places, and the one that comes to `l` gets one
more. -/
def promote (n : ℕ) (t : Tree) (c l : ℕ) : Tree where
  freq := Function.update (Function.update t.freq c (t.freq l)) l (t.freq c + 1)
  son := Function.update (Function.update t.son l (t.son c)) c (t.son l)
  prnt := redirect n (redirect n t.prnt (t.son c) l) (t.son l) c

end Tree

namespace SiblingTree

variable {n : ℕ} {debt : ℕ → ℕ} {t : Tree} {c l : ℕ}

/-- The children of a node come before it. -/
theorem son_lt (h : SiblingTree n debt t) {i : ℕ} (hi : i < 2 * n + 1)
    (hson : t.son i < 2 * n + 1) : t.son i + 1 < i := by
  obtain ⟨heven, hlt, -, hprnt⟩ := h.inner i hi hson
  have hup := h.up (t.son i + 1) (by omega)
  rwa [hprnt] at hup

/-- Where `prnt` leads to a place, that place has the child. -/
theorem prnt_eq_iff (h : SiblingTree n debt t) {k i : ℕ} (hi : i < 2 * n + 1) (hk : k ≠ 2 * n)
    (hlt : k < 2 * n + 1 + (n + 1)) :
    t.prnt k = i ↔ k = t.son i ∨ t.son i < 2 * n + 1 ∧ k = t.son i + 1 := by
  constructor
  · rintro rfl
    by_cases hplace : k < 2 * n
    · have hson := (h.parent k hplace).2
      omega
    · have hson := (h.symbol k (by omega) hlt).2
      exact Or.inl hson.symm
  · by_cases hson : t.son i < 2 * n + 1
    · obtain ⟨-, -, h₀, h₁⟩ := h.inner i hi hson
      rintro (rfl | ⟨-, rfl⟩)
      · exact h₀
      · exact h₁
    · rintro (rfl | ⟨hno, -⟩)
      · exact (h.leaf i hi (by omega)).2
      · exact absurd hno hson

/-- The parent of a node comes after all nodes that have no greater frequency. -/
theorem lt_prnt (h : SiblingTree n (debtAt c) t) (hc : c < 2 * n) (hl : l < 2 * n + 1)
    (hfreq : t.freq l ≤ t.freq c) : l < t.prnt c := by
  obtain ⟨hp, hson⟩ := h.parent c hc
  have hup := h.up c hc
  have hnode := h.node _ hp (by omega)
  have hdebt : debtAt c (t.prnt c) = 0 := if_neg (by omega)
  have hleft := h.pos (2 * (c / 2)) (by omega)
  have hright := h.pos (2 * (c / 2) + 1) (by omega)
  rw [hson, hdebt] at hnode
  by_contra hle
  have hsorted := h.sorted (t.prnt c) l (by omega) hl
  have hcases : c = 2 * (c / 2) ∨ c = 2 * (c / 2) + 1 := by omega
  have hone := hcases.imp (congrArg t.freq) (congrArg t.freq)
  omega

/-- A leaf that is to be incremented owes nothing to its children. -/
theorem start (h : SiblingTree n (fun _ ↦ 0) t) (hson : 2 * n + 1 ≤ t.son c) :
    SiblingTree n (debtAt c) t where
  sorted := h.sorted
  pos := h.pos
  node i hi hinner := by
    have hne : i ≠ c := by
      rintro rfl
      omega
    rw [debtAt, if_neg hne]
    exact h.node i hi hinner
  inner := h.inner
  leaf := h.leaf
  parent := h.parent
  symbol := h.symbol
  up := h.up
  root := h.root

/-- The root is incremented last. -/
theorem finish (h : SiblingTree n (debtAt (2 * n)) t) :
    SiblingTree n (fun _ ↦ 0) { t with freq := Function.update t.freq (2 * n) (t.freq (2 * n) + 1) } where
  sorted i j hij hj := by
    have hsorted := h.sorted i j hij hj
    dsimp only
    rcases Nat.lt_or_ge i (2 * n) with hi | hi
    · rw [Function.update_of_ne (a := i) (by omega), Function.update_apply]
      split
      · rename_i hjroot
        rw [← hjroot]
        omega
      · exact hsorted
    · obtain rfl : i = j := by omega
      exact le_refl _
  pos i hi := by
    have hpos := h.pos i hi
    dsimp only
    rw [Function.update_apply]
    split <;> omega
  node i hi hson := by
    have hnode := h.node i hi hson
    have hlt := (h.inner i hi hson).2.1
    have heven := (h.inner i hi hson).1
    dsimp only
    rw [Function.update_of_ne (a := t.son i) (by omega),
      Function.update_of_ne (a := t.son i + 1) (by omega), ← hnode, debtAt]
    by_cases hroot : i = 2 * n
    · rw [if_pos hroot, hroot, Function.update_self]
    · rw [if_neg hroot, Function.update_of_ne hroot]
  inner := h.inner
  leaf := h.leaf
  parent := h.parent
  symbol := h.symbol
  up := h.up
  root := h.root

section Promote

variable (h : SiblingTree n (debtAt c) t) (hcl : c ≤ l) (hl : l < 2 * n)
  (hfreq : t.freq l = t.freq c) (hafter : ∀ j, l < j → j < 2 * n + 1 → t.freq c < t.freq j)

include h hcl hl hfreq

/-- The children of the last node of the same frequency come before the first. -/
theorem son_last_lt (hson : t.son l < 2 * n + 1) : t.son l + 1 < c := by
  rcases Nat.lt_or_ge c l with hlt | hge
  · have hnode := h.node l (by omega) hson
    obtain ⟨-, hlt', -⟩ := h.inner l (by omega) hson
    have hpos := h.pos (t.son l) (by omega)
    have hdebt : debtAt c l = 0 := if_neg (by omega)
    by_contra hle
    have hsorted := h.sorted c (t.son l + 1) (by omega) (by omega)
    rw [hdebt] at hnode
    omega
  · obtain rfl : c = l := le_antisymm hcl hge
    exact h.son_lt (by omega) hson

include hafter in
/-- The links and the order after a promotion; what the node at `l` now has more than
before, its parent owes. -/
theorem promote : SiblingTree n (debtAt (t.prnt l)) (t.promote n c l) := by
  have hswap : ∀ i, i < 2 * n + 1 → Equiv.swap c l i < 2 * n + 1 := by
    intro i hi
    rw [Equiv.swap_apply_def]
    split
    · omega
    · split <;> omega
  have hson : ∀ i, (t.promote n c l).son i = t.son (Equiv.swap c l i) := by
    intro i
    simp only [Tree.promote, Function.update_apply, Equiv.swap_apply_def]
    split
    · rfl
    · split <;> rfl
  have hprnt : ∀ k, k ≠ 2 * n → k < 2 * n + 1 + (n + 1) →
      (t.promote n c l).prnt k = Equiv.swap c l (t.prnt k) := by
    intro k hk hlt
    have hl' := @prnt_eq_iff _ _ _ h k l (by omega) hk hlt
    have hc' := @prnt_eq_iff _ _ _ h k c (by omega) hk hlt
    simp only [Tree.promote, Tree.redirect, ← hl', ← hc', Equiv.swap_apply_def]
    split
    · rename_i hkl
      split
      · rename_i hkc
        omega
      · rfl
    · rfl
  have hfreq' : ∀ i, (t.promote n c l).freq i = t.freq i + debtAt l i := by
    intro i
    simp only [Tree.promote, Function.update_apply, debtAt]
    split
    · rename_i hil
      rw [hil, hfreq]
    · split
      · rename_i hic
        rw [hic, hfreq]
        rfl
      · rfl
  have hsonl := h.son_last_lt hcl hl hfreq
  have hup := h.up l hl
  constructor
  case sorted =>
    intro i j hij hj
    have hsorted := h.sorted i j hij hj
    rw [hfreq', hfreq']
    simp only [debtAt]
    by_cases hil : i = l
    · rw [if_pos hil]
      by_cases hjl : j = l
      · rw [if_pos hjl, hil, hjl]
      · have hgt := hafter j (by omega) hj
        rw [if_neg hjl, hil, hfreq]
        exact hgt
    · rw [if_neg hil]
      exact hsorted.trans (Nat.le_add_right _ _)
  case pos =>
    intro i hi
    rw [hfreq']
    exact Nat.lt_add_right _ (h.pos i hi)
  case node =>
    intro i hi hinner
    rw [hson] at hinner
    have hnode := h.node _ (hswap i hi) hinner
    have hlt := h.son_lt (hswap i hi) hinner
    obtain ⟨heven, hltR, hp₀, hp₁⟩ := h.inner _ (hswap i hi) hinner
    have hchild := @prnt_eq_iff _ _ _ h l _ (hswap i hi) (by omega) (by omega)
    have hsum : debtAt l (t.son (Equiv.swap c l i)) + debtAt l (t.son (Equiv.swap c l i) + 1) =
        debtAt (t.prnt l) (Equiv.swap c l i) := by
      simp only [debtAt]
      by_cases hp : t.prnt l = Equiv.swap c l i
      · rw [if_pos hp.symm]
        rcases hchild.mp hp with hs | ⟨-, hs⟩
        · rw [if_pos hs.symm, if_neg (by omega)]
        · rw [if_neg (by omega), if_pos hs.symm]
      · rw [if_neg (Ne.symm hp), if_neg, if_neg]
        · exact fun hs ↦ hp (hchild.mpr (Or.inr ⟨hinner, hs.symm⟩))
        · exact fun hs ↦ hp (hchild.mpr (Or.inl hs.symm))
    have hmoved : t.freq i + debtAt l i + debtAt (t.prnt l) i =
        t.freq (Equiv.swap c l i) + debtAt c (Equiv.swap c l i) +
          debtAt (t.prnt l) (Equiv.swap c l i) := by
      rw [Equiv.swap_apply_def]
      by_cases hic : i = c
      · rw [if_pos hic, hic, hfreq]
        simp only [debtAt]
        rw [if_neg (show ¬ c = t.prnt l by omega), if_neg (show ¬ l = t.prnt l by omega)]
        by_cases heq : c = l
        · rw [if_pos heq, if_pos heq.symm]
        · rw [if_neg heq, if_neg (Ne.symm heq)]
      · by_cases hil : i = l
        · rw [if_neg hic, if_pos hil, hil, hfreq]
          simp only [debtAt]
          rw [if_neg (show ¬ l = t.prnt l by omega), if_neg (show ¬ c = t.prnt l by omega)]
        · rw [if_neg hic, if_neg hil]
          simp only [debtAt]
          rw [if_neg hic, if_neg hil]
    rw [hson, hfreq', hfreq', hfreq', hmoved, hnode, ← hsum]
    omega
  case inner =>
    intro i hi hinner
    rw [hson] at hinner ⊢
    obtain ⟨heven, hlt, h₀, h₁⟩ := h.inner _ (hswap i hi) hinner
    refine ⟨heven, hlt, ?_, ?_⟩
    · rw [hprnt _ (by omega) (by omega), h₀, Equiv.swap_apply_self]
    · rw [hprnt _ (by omega) (by omega), h₁, Equiv.swap_apply_self]
  case leaf =>
    intro i hi hsymbol
    rw [hson] at hsymbol ⊢
    obtain ⟨hlt, h₀⟩ := h.leaf _ (hswap i hi) hsymbol
    exact ⟨hlt, by rw [hprnt _ (by omega) hlt, h₀, Equiv.swap_apply_self]⟩
  case parent =>
    intro k hk
    obtain ⟨hlt, hsonk⟩ := h.parent k hk
    rw [hprnt k (by omega) (by omega), hson, Equiv.swap_apply_self]
    exact ⟨hswap _ hlt, hsonk⟩
  case symbol =>
    intro k hk hk'
    obtain ⟨hlt, hsonk⟩ := h.symbol k hk hk'
    rw [hprnt k (by omega) hk', hson, Equiv.swap_apply_self]
    exact ⟨hswap _ hlt, hsonk⟩
  case up =>
    intro k hk
    have hupk := h.up k hk
    have hsonk := (h.parent k hk).2
    rw [hprnt k (by omega) (by omega), Equiv.swap_apply_def]
    split
    · omega
    · split
      · rename_i hkl
        rw [hkl] at hsonk
        have := hsonl (by omega)
        omega
      · exact hupk
  case root =>
    have hl' : ∀ i, i < 2 * n + 1 → ¬ (2 * n = t.son i ∨ t.son i < 2 * n + 1 ∧ 2 * n = t.son i + 1) := by
      intro i hi hcase
      have hinner := h.inner i hi (by omega)
      omega
    simp only [Tree.promote, Tree.redirect, if_neg (hl' l (by omega)), if_neg (hl' c (by omega))]
    exact h.root

omit hfreq in
/-- The place that has been incremented keeps its parent. -/
theorem prnt_promote_last : (t.promote n c l).prnt l = t.prnt l := by
  have hup := h.up l hl
  have hl' := @prnt_eq_iff _ _ _ h l l (by omega) (by omega) (by omega)
  have hc' := @prnt_eq_iff _ _ _ h l c (by omega) (by omega) (by omega)
  simp only [Tree.promote, Tree.redirect, ← hl', ← hc']
  rw [if_neg (by omega), if_neg (by omega)]

end Promote

/-- The links back do not change where they are right. -/
theorem redirect_self (h : SiblingTree n debt t) {i : ℕ} (hi : i < 2 * n + 1) :
    Tree.redirect n t.prnt (t.son i) i = t.prnt := by
  funext k
  rw [Tree.redirect]
  split
  · rename_i hk
    by_cases hson : t.son i < 2 * n + 1
    · obtain ⟨-, -, h₀, h₁⟩ := h.inner i hi hson
      rcases hk with rfl | ⟨-, rfl⟩
      · exact h₀.symm
      · exact h₁.symm
    · rcases hk with rfl | ⟨hlt, -⟩
      · exact (h.leaf i hi (by omega)).2.symm
      · exact absurd hlt hson
  · rfl

/-- A node that is already the last of its frequency stays in its place. -/
theorem promote_self (h : SiblingTree n debt t) {i : ℕ} (hi : i < 2 * n + 1) :
    t.promote n i i = { t with freq := Function.update t.freq i (t.freq i + 1) } := by
  rw [Tree.promote, h.redirect_self hi, h.redirect_self hi, Function.update_idem,
    Function.update_idem, Function.update_eq_self]

/-- Only the frequencies of places count. -/
theorem withFreq (h : SiblingTree n debt t) {freq : ℕ → ℕ}
    (hfreq : ∀ i, i < 2 * n + 1 → freq i = t.freq i) :
    SiblingTree n debt { t with freq := freq } where
  sorted i j hij hj := by
    dsimp only
    rw [hfreq i (by omega), hfreq j hj]
    exact h.sorted i j hij hj
  pos i hi := by
    dsimp only
    rw [hfreq i hi]
    exact h.pos i hi
  node i hi hson := by
    have hlt := h.son_lt hi hson
    dsimp only
    rw [hfreq i hi, hfreq _ hson, hfreq (t.son i + 1) (by omega)]
    exact h.node i hi hson
  inner := h.inner
  leaf := h.leaf
  parent := h.parent
  symbol := h.symbol
  up := h.up
  root := h.root

/-- The places of the leaves. -/
def leaves (n : ℕ) (t : Tree) : Finset ℕ :=
  {i ∈ Finset.range (2 * n + 1) | 2 * n + 1 ≤ t.son i}

/-- The leaves together have the frequency of the root. -/
theorem sum_leaves (h : SiblingTree n (fun _ ↦ 0) t) :
    ∑ i ∈ leaves n t, t.freq i = t.freq (2 * n) := by
  have hmaps : ∀ k ∈ Finset.range (2 * n),
      t.prnt k ∈ ({i ∈ Finset.range (2 * n + 1) | ¬ 2 * n + 1 ≤ t.son i} : Finset ℕ) := by
    intro k hk
    rw [Finset.mem_range] at hk
    obtain ⟨hlt, hson⟩ := h.parent k hk
    rw [Finset.mem_filter, Finset.mem_range, hson]
    exact ⟨hlt, by omega⟩
  have hfiber : ∀ i ∈ ({i ∈ Finset.range (2 * n + 1) | ¬ 2 * n + 1 ≤ t.son i} : Finset ℕ),
      ∑ k ∈ Finset.range (2 * n) with t.prnt k = i, t.freq k = t.freq i := by
    intro i hi
    rw [Finset.mem_filter, Finset.mem_range] at hi
    obtain ⟨heven, hlt, -⟩ := h.inner i hi.1 (by omega)
    have hpair : ({k ∈ Finset.range (2 * n) | t.prnt k = i} : Finset ℕ) = {t.son i, t.son i + 1} := by
      ext k
      rw [Finset.mem_filter, Finset.mem_range, Finset.mem_insert, Finset.mem_singleton]
      constructor
      · rintro ⟨hk, hp⟩
        exact ((h.prnt_eq_iff hi.1 (by omega) (by omega)).mp hp).imp id And.right
      · intro hk
        refine ⟨by omega, (h.prnt_eq_iff hi.1 (by omega) (by omega)).mpr ?_⟩
        exact hk.imp id fun hk ↦ ⟨by omega, hk⟩
    rw [hpair, Finset.sum_pair (by omega), ← h.node i hi.1 (by omega)]
    rfl
  have hinner := Finset.sum_fiberwise_of_maps_to hmaps t.freq
  rw [Finset.sum_congr rfl hfiber] at hinner
  have hsplit := Finset.sum_filter_add_sum_filter_not (Finset.range (2 * n + 1))
    (fun i ↦ 2 * n + 1 ≤ t.son i) t.freq
  rw [hinner, Finset.sum_range_succ] at hsplit
  rw [leaves]
  omega

/-- There are as many leaves as symbols. -/
theorem card_leaves {debt : ℕ → ℕ} (h : SiblingTree n debt t) : (leaves n t).card = n + 1 := by
  have hcard : (Finset.Ico (2 * n + 1) (2 * n + 1 + (n + 1))).card = n + 1 := by
    rw [Nat.card_Ico, Nat.add_sub_cancel_left]
  rw [← hcard]
  refine Finset.card_bij (fun i _ ↦ t.son i) ?_ ?_ ?_
  · intro i hi
    rw [leaves, Finset.mem_filter, Finset.mem_range] at hi
    exact Finset.mem_Ico.mpr ⟨hi.2, (h.leaf i hi.1 hi.2).1⟩
  · intro i hi j hj heq
    rw [leaves, Finset.mem_filter, Finset.mem_range] at hi hj
    rw [← (h.leaf i hi.1 hi.2).2, ← (h.leaf j hj.1 hj.2).2, heq]
  · intro k hk
    rw [Finset.mem_Ico] at hk
    obtain ⟨hlt, hson⟩ := h.symbol k hk.1 hk.2
    refine ⟨t.prnt k, ?_, hson⟩
    rw [leaves, Finset.mem_filter, Finset.mem_range, hson]
    exact ⟨hlt, hk.1⟩

end SiblingTree

/-! ## Building the tree from its leaves -/

/-- The table with `v` at place `k`, and the places from there up to `last` moved on by
one. -/
def insertAt (g : ℕ → ℕ) (last k v : ℕ) (x : ℕ) : ℕ :=
  if x < k ∨ last < x then g x else if x = k then v else g (x - 1)

/-- The leaves and `m` inner nodes in the order of their frequencies, whose children are
the first `2m` places.  The trees that are not joined yet have the frequency `total`
together. -/
structure Forest (n total m : ℕ) (freq son : ℕ → ℕ) : Prop where
  sorted : ∀ x y, x ≤ y → y < n + 1 + m → freq x ≤ freq y
  pos : ∀ x, x < n + 1 + m → 0 < freq x
  inner : ∀ x, x < n + 1 + m → son x < 2 * n + 1 →
    son x % 2 = 0 ∧ son x < 2 * m ∧ son x + 1 < x ∧ freq x = freq (son x) + freq (son x + 1)
  leaf : ∀ x, x < n + 1 + m → son x < 2 * n + 1 + (n + 1)
  inj : ∀ x y, x < n + 1 + m → y < n + 1 + m → son x = son y → x = y
  joined : ∀ s, s % 2 = 0 → s < 2 * m → ∃ x, x < n + 1 + m ∧ son x = s
  symbols : ∀ s, 2 * n + 1 ≤ s → s < 2 * n + 1 + (n + 1) → ∃ x, x < n + 1 + m ∧ son x = s
  total : ∑ x ∈ Finset.Ico (2 * m) (n + 1 + m), freq x = total

namespace Forest

variable {n total m k : ℕ} {freq son : ℕ → ℕ}

/-- The first two trees have at most the frequency of all. -/
theorem sum_two_le (h : Forest n total m freq son) (hm : m < n) :
    freq (2 * m) + freq (2 * m + 1) ≤ total := by
  have hsum := h.total
  rw [Finset.sum_eq_sum_Ico_succ_bot (by omega), Finset.sum_eq_sum_Ico_succ_bot (by omega)] at hsum
  omega

section Join

theorem insertAt_of_lt (g : ℕ → ℕ) (last v : ℕ) {x : ℕ} (hx : x < k) :
    insertAt g last k v x = g x := if_pos (Or.inl hx)

theorem insertAt_self (g : ℕ → ℕ) {last : ℕ} (hk : k ≤ last) (v : ℕ) :
    insertAt g last k v k = v := by
  rw [insertAt, if_neg (by omega), if_pos rfl]

theorem insertAt_succ (g : ℕ → ℕ) {last : ℕ} (v : ℕ) {x : ℕ} (hx : k ≤ x) (hlast : x < last) :
    insertAt g last k v (x + 1) = g x := by
  rw [insertAt, if_neg (by omega), if_neg (by omega), Nat.add_sub_cancel]

/-- A place of the new table is the new one or has moved on or not. -/
theorem insertAt_cases (k : ℕ) {x : ℕ} (hx : x < n + 1 + (m + 1)) :
    x = k ∨ (∃ y, y < k ∧ x = y) ∨ ∃ y, k ≤ y ∧ y < n + 1 + m ∧ x = y + 1 := by
  rcases Nat.lt_trichotomy x k with hlt | heq | hgt
  · exact Or.inr (Or.inl ⟨x, hlt, rfl⟩)
  · exact Or.inl heq
  · exact Or.inr (Or.inr ⟨x - 1, by omega, by omega, by omega⟩)

/-- What the old table holds is still there. -/
theorem exists_insertAt (g : ℕ → ℕ) (v : ℕ) {y : ℕ} (hy : y < n + 1 + m) :
    ∃ x, x < n + 1 + (m + 1) ∧ insertAt g (n + 1 + m) k v x = g y := by
  rcases Nat.lt_or_ge y k with hlt | hge
  · exact ⟨y, by omega, insertAt_of_lt g _ v hlt⟩
  · exact ⟨y + 1, by omega, insertAt_succ g v hge hy⟩

variable (hm : m < n) (hlow : 2 * m + 1 < k) (hhigh : k ≤ n + 1 + m)

include hm hlow hhigh

theorem sum_insertAt :
    ∑ x ∈ Finset.Ico (2 * (m + 1)) (n + 1 + (m + 1)),
        insertAt freq (n + 1 + m) k (freq (2 * m) + freq (2 * m + 1)) x =
      ∑ x ∈ Finset.Ico (2 * m) (n + 1 + m), freq x := by
  rw [Finset.sum_eq_sum_Ico_succ_bot (a := 2 * m) (by omega),
    Finset.sum_eq_sum_Ico_succ_bot (a := 2 * m + 1) (by omega),
    ← Finset.sum_Ico_consecutive _ (show 2 * (m + 1) ≤ k by omega)
      (show k ≤ n + 1 + (m + 1) by omega),
    Finset.sum_eq_sum_Ico_succ_bot (a := k) (by omega),
    ← Finset.sum_Ico_consecutive _ (show 2 * m + 1 + 1 ≤ k by omega) hhigh, insertAt_self _ hhigh]
  have hbefore : ∑ x ∈ Finset.Ico (2 * (m + 1)) k,
      insertAt freq (n + 1 + m) k (freq (2 * m) + freq (2 * m + 1)) x =
        ∑ x ∈ Finset.Ico (2 * m + 1 + 1) k, freq x :=
    Finset.sum_congr rfl fun x hx ↦ insertAt_of_lt _ _ _ (Finset.mem_Ico.mp hx).2
  have hbehind : ∑ x ∈ Finset.Ico (k + 1) (n + 1 + (m + 1)),
      insertAt freq (n + 1 + m) k (freq (2 * m) + freq (2 * m + 1)) x =
        ∑ x ∈ Finset.Ico k (n + 1 + m), freq x := by
    rw [← Nat.add_assoc, ← Finset.sum_Ico_add' _ k (n + 1 + m) 1]
    refine Finset.sum_congr rfl fun x hx ↦ ?_
    rw [Finset.mem_Ico] at hx
    exact insertAt_succ _ _ hx.1 hx.2
  rw [hbefore, hbehind]
  omega

variable (h : Forest n total m freq son) (hle : freq (k - 1) ≤ freq (2 * m) + freq (2 * m + 1))
  (hgt : ∀ x, k ≤ x → x < n + 1 + m → freq (2 * m) + freq (2 * m + 1) < freq x)

include h hle hgt

/-- The first two trees are joined to one, which goes behind the trees of no greater
frequency. -/
theorem join : Forest n total (m + 1)
    (insertAt freq (n + 1 + m) k (freq (2 * m) + freq (2 * m + 1)))
    (insertAt son (n + 1 + m) k (2 * m)) := by
  set f := freq (2 * m) + freq (2 * m + 1) with hf
  have hlast : ∀ x, x < k → freq x ≤ f := fun x hx ↦
    (h.sorted x (k - 1) (by omega) (by omega)).trans hle
  constructor
  case sorted =>
    intro x y hxy hy
    rcases insertAt_cases k (show x < n + 1 + (m + 1) by omega) with
      rfl | ⟨x, hx, rfl⟩ | ⟨x, hx, hx', rfl⟩
    · rcases insertAt_cases x hy with rfl | ⟨y, hy', rfl⟩ | ⟨y, hy', hy'', rfl⟩
      · exact le_refl _
      · omega
      · rw [insertAt_self _ hhigh, insertAt_succ _ _ hy' hy'']
        exact (hgt y hy' hy'').le
    · rw [insertAt_of_lt _ _ _ hx]
      rcases insertAt_cases k hy with rfl | ⟨y, hy', rfl⟩ | ⟨y, hy', hy'', rfl⟩
      · rw [insertAt_self _ hhigh]
        exact hlast x hx
      · rw [insertAt_of_lt _ _ _ hy']
        exact h.sorted x y hxy (by omega)
      · rw [insertAt_succ _ _ hy' hy'']
        exact h.sorted x y (by omega) hy''
    · rw [insertAt_succ _ _ hx hx']
      rcases insertAt_cases k hy with rfl | ⟨y, hy', rfl⟩ | ⟨y, hy', hy'', rfl⟩
      · omega
      · omega
      · rw [insertAt_succ _ _ hy' hy'']
        exact h.sorted x y (by omega) hy''
  case pos =>
    intro x hx
    rcases insertAt_cases k hx with rfl | ⟨y, hy, rfl⟩ | ⟨y, hy, hy', rfl⟩
    · rw [insertAt_self _ hhigh]
      have := h.pos (2 * m) (by omega)
      omega
    · rw [insertAt_of_lt _ _ _ hy]
      exact h.pos x (by omega)
    · rw [insertAt_succ _ _ hy hy']
      exact h.pos y hy'
  case inner =>
    intro x hx hson
    rcases insertAt_cases k hx with rfl | ⟨y, hy, rfl⟩ | ⟨y, hy, hy', rfl⟩
    · rw [insertAt_self _ hhigh, insertAt_self _ hhigh, insertAt_of_lt _ _ _ (by omega),
        insertAt_of_lt _ _ _ hlow]
      exact ⟨by omega, by omega, hlow, rfl⟩
    · rw [insertAt_of_lt _ _ _ hy] at hson ⊢
      obtain ⟨heven, hlt, hup, hsum⟩ := h.inner x (by omega) hson
      rw [insertAt_of_lt _ _ _ hy, insertAt_of_lt _ _ _ (by omega),
        insertAt_of_lt _ _ _ (by omega)]
      exact ⟨heven, by omega, hup, hsum⟩
    · rw [insertAt_succ _ _ hy hy'] at hson ⊢
      obtain ⟨heven, hlt, hup, hsum⟩ := h.inner y hy' hson
      rw [insertAt_succ _ _ hy hy', insertAt_of_lt _ _ _ (by omega),
        insertAt_of_lt _ _ _ (by omega)]
      exact ⟨heven, by omega, by omega, hsum⟩
  case leaf =>
    intro x hx
    rcases insertAt_cases k hx with rfl | ⟨y, hy, rfl⟩ | ⟨y, hy, hy', rfl⟩
    · rw [insertAt_self _ hhigh]
      omega
    · rw [insertAt_of_lt _ _ _ hy]
      exact h.leaf x (by omega)
    · rw [insertAt_succ _ _ hy hy']
      exact h.leaf y hy'
  case inj =>
    have hnew : ∀ y, y < n + 1 + m → son y ≠ 2 * m := by
      intro y hy heq
      have := (h.inner y hy (by omega)).2.1
      omega
    intro x y hx hy heq
    rcases insertAt_cases k hx with rfl | ⟨x, hx', rfl⟩ | ⟨x, hx', hx'', rfl⟩
    · rw [insertAt_self _ hhigh] at heq
      rcases insertAt_cases x hy with rfl | ⟨y, hy', rfl⟩ | ⟨y, hy', hy'', rfl⟩
      · rfl
      · rw [insertAt_of_lt _ _ _ hy'] at heq
        exact absurd heq.symm (hnew y (by omega))
      · rw [insertAt_succ _ _ hy' hy''] at heq
        exact absurd heq.symm (hnew y hy'')
    · rw [insertAt_of_lt _ _ _ hx'] at heq
      rcases insertAt_cases k hy with rfl | ⟨y, hy', rfl⟩ | ⟨y, hy', hy'', rfl⟩
      · rw [insertAt_self _ hhigh] at heq
        exact absurd heq (hnew x (by omega))
      · rw [insertAt_of_lt _ _ _ hy'] at heq
        exact h.inj x y (by omega) (by omega) heq
      · rw [insertAt_succ _ _ hy' hy''] at heq
        have := h.inj x y (by omega) hy'' heq
        omega
    · rw [insertAt_succ _ _ hx' hx''] at heq
      rcases insertAt_cases k hy with rfl | ⟨y, hy', rfl⟩ | ⟨y, hy', hy'', rfl⟩
      · rw [insertAt_self _ hhigh] at heq
        exact absurd heq (hnew x hx'')
      · rw [insertAt_of_lt _ _ _ hy'] at heq
        have := h.inj x y hx'' (by omega) heq
        omega
      · rw [insertAt_succ _ _ hy' hy''] at heq
        rw [h.inj x y hx'' hy'' heq]
  case joined =>
    intro s heven hlt
    by_cases hs : s < 2 * m
    · obtain ⟨y, hy, rfl⟩ := h.joined s heven hs
      exact exists_insertAt son _ hy
    · refine ⟨k, by omega, ?_⟩
      rw [insertAt_self _ hhigh]
      omega
  case symbols =>
    intro s hs hs'
    obtain ⟨y, hy, rfl⟩ := h.symbols s hs hs'
    exact exists_insertAt son _ hy
  case total => exact (sum_insertAt hm hlow hhigh).trans h.total

end Join

/-- A forest of one tree, with the links back. -/
theorem siblingTree {prnt : ℕ → ℕ} (h : Forest n total n freq son)
    (hlinks : ∀ x, x < 2 * n + 1 → prnt (son x) = x ∧ (son x < 2 * n + 1 → prnt (son x + 1) = x))
    (hroot : prnt (2 * n) = 0) :
    SiblingTree n (fun _ ↦ 0) ⟨freq, son, prnt⟩ ∧ freq (2 * n) = total := by
  have hplaces : n + 1 + n = 2 * n + 1 := by omega
  obtain ⟨hsorted, hpos, hinner, hleaf, -, hjoined, hsymbols, htotal⟩ := h
  rw [hplaces] at hsorted hpos hinner hleaf hjoined hsymbols htotal
  have hparent : ∀ k, k < 2 * n → prnt k < 2 * n + 1 ∧ son (prnt k) = 2 * (k / 2) := by
    intro k hk
    obtain ⟨x, hx, hson⟩ := hjoined (2 * (k / 2)) (by omega) (by omega)
    obtain ⟨h₀, h₁⟩ := hlinks x hx
    have hcases : k = son x ∨ k = son x + 1 := by omega
    have hprnt : prnt k = x := by
      rcases hcases with rfl | rfl
      · exact h₀
      · exact h₁ (by omega)
    rw [hprnt]
    exact ⟨hx, hson⟩
  refine ⟨?_, ?_⟩
  · constructor
    case sorted => exact hsorted
    case pos => exact hpos
    case node => exact fun i hi hson ↦ (hinner i hi hson).2.2.2
    case inner =>
      intro i hi hson
      obtain ⟨heven, hlt, -⟩ := hinner i hi hson
      exact ⟨heven, hlt, (hlinks i hi).1, (hlinks i hi).2 hson⟩
    case leaf => exact fun i hi _ ↦ ⟨hleaf i hi, (hlinks i hi).1⟩
    case parent => exact hparent
    case symbol =>
      intro k hk hk'
      obtain ⟨x, hx, rfl⟩ := hsymbols k hk hk'
      dsimp only
      rw [(hlinks x hx).1]
      exact ⟨hx, rfl⟩
    case up =>
      intro k hk
      obtain ⟨hlt, hson⟩ := hparent k hk
      obtain ⟨-, -, hup, -⟩ := hinner (prnt k) hlt (by omega)
      dsimp only
      omega
    case root => exact hroot
  · rw [Nat.Ico_succ_singleton, Finset.sum_singleton] at htotal
    exact htotal

end Forest

end Synchronet
