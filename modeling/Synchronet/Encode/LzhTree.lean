import Synchronet.Encode.Lzh
import Synchronet.Lib.SiblingTree
import Mathlib.Algebra.BigOperators.Ring.Finset
import Mathlib.Data.Nat.Count

/-!
# The tree of the LZH coder

The tables of the coder are a binary tree in the order of its frequencies.
`lzh_start_huff` builds one, and `lzh_update` and `lzh_reconst` keep it without
leaving the tables: a node is incremented and exchanged on the way to the root, and
before the sum of the frequencies leaves 16 bits the tree is rebuilt with half of them.
-/

namespace Synchronet.Encode

/-- The tables as the nodes of a tree. -/
def Huff.tree (h : Huff) : Tree := ⟨h.freq.get, h.son.get, h.prnt.get⟩

/-- The tables hold a tree with 314 leaves, and the entry behind the root stops every
search. -/
structure Huff.Ok (h : Huff) : Prop where
  tree : SiblingTree 313 (fun _ ↦ 0) h.tree
  guard : h.freq.get 627 = 0xffff
  max : h.freq.get 626 ≤ 0x8000

theorem setPrnt_eq (prnt : Table ℕ (lzhT + lzhNChar)) {k : ℕ} (hk : k < 941) (i : ℕ) :
    setPrnt prnt k i = some ⟨Tree.redirect 313 prnt.get k i⟩ := by
  have hfun : ∀ x, Tree.redirect 313 prnt.get k i x =
      if k < 627 then Function.update (Function.update prnt.get k i) (k + 1) i x
      else Function.update prnt.get k i x := by
    intro x
    simp only [Tree.redirect, Function.update_apply]
    split
    · rename_i hx
      split
      · rcases hx with rfl | ⟨-, rfl⟩
        · simp
        · simp
      · rcases hx with rfl | ⟨hlt, -⟩
        · rw [if_pos rfl]
        · omega
    · rename_i hx
      split
      · rw [if_neg (by omega), if_neg (by omega)]
      · rw [if_neg (by omega)]
  rw [setPrnt, Table.write_eq hk]
  simp only [Option.bind_eq_bind, Option.bind_some]
  split
  · rename_i hlt
    have hlt : k < 627 := hlt
    rw [Table.write_eq (show k + 1 < 941 by omega)]
    congr
    funext x
    rw [hfun, if_pos hlt]
  · rename_i hlt
    have hlt : ¬ k < 627 := hlt
    congr
    funext x
    rw [hfun, if_neg hlt]

/-! ## Updates -/

/-- Two nodes of one frequency change places. -/
theorem exchange_eq {h : Huff} {c l f : ℕ} (hc : c < 627) (hl : l < 627)
    (hi : h.son.get c < 941) (hj : h.son.get l < 941) :
    exchange h c l f = some
      ⟨⟨Function.update (Function.update h.freq.get c (h.freq.get l)) l f⟩,
        ⟨Tree.redirect 313 (Tree.redirect 313 h.prnt.get (h.son.get c) l) (h.son.get l) c⟩,
        ⟨Function.update (Function.update h.son.get l (h.son.get c)) c (h.son.get l)⟩⟩ := by
  have hc' : c < lzhT + 1 := Nat.lt_succ_of_lt hc
  have hl' : l < lzhT + 1 := Nat.lt_succ_of_lt hl
  simp only [exchange, Table.read_eq hc', Table.read_eq hl', Table.write_eq hc',
    Table.write_eq hl', setPrnt_eq _ hi, setPrnt_eq _ hj, Option.bind_eq_bind, Option.bind_some]

/-- The search ends at the first frequency from `l + 1` on that is at least `k`. -/
theorem searchUp_eq {freq : Table ℕ (lzhT + 1)} {k : ℕ} (hguard : k ≤ freq.get 627) {n l : ℕ}
    (hn : l + n = 627) :
    ∃ l', searchUp freq k n l = some l' ∧ l' ≤ 627 ∧ (n ≠ 0 → l < l') ∧ k ≤ freq.get l' ∧
      ∀ x, l < x → x < l' → freq.get x < k := by
  induction n generalizing l with
  | zero =>
      obtain rfl : l = 627 := hn
      exact ⟨627, rfl, le_refl _, fun h ↦ absurd rfl h, hguard, fun x hx hx' ↦ by omega⟩
  | succ n ih =>
      rw [searchUp, Table.read_eq (show l + 1 < 628 by omega)]
      simp only [Option.bind_eq_bind, Option.bind_some, Int.ofNat_lt]
      split
      · rename_i hlt
        obtain ⟨l', hl', hle, hgt, hk, hbetween⟩ := @ih (l + 1) (by omega)
        refine ⟨l', hl', hle, fun _ ↦ ?_, hk, fun x hx hx' ↦ ?_⟩
        · by_cases hn0 : n = 0
          · have hl627 : l + 1 = 627 := by omega
            rw [hl627] at hlt
            omega
          · exact (Nat.lt_succ_self l).trans (hgt hn0)
        · by_cases hxl : x = l + 1
          · rw [hxl]
            exact hlt
          · exact hbetween x (by omega) hx'
      · rename_i hge
        exact ⟨l + 1, rfl, by omega, fun _ ↦ Nat.lt_succ_self l, by omega, fun x hx hx' ↦ by omega⟩

theorem toShort_of_lt {f : ℕ} (hf : f < 0x8000) : toShort f = f := if_pos hf

theorem toUnsigned_natCast {f : ℕ} (hf : f < 2 ^ 32) : toUnsigned (f : ℤ) = f := by
  rw [toUnsigned]
  omega

section Update

variable {h : Huff} {c : ℕ} (htree : SiblingTree 313 (debtAt c) h.tree)
  (hguard : h.freq.get 627 = 0xffff) (hmax : h.freq.get 626 < 0x8000)

include htree hguard hmax

/-- Below the root a node is incremented in the place of the last node of its
frequency. -/
theorem updateNode_inner (hc : c < 626) :
    ∃ h' l, updateNode h c = some (h', l) ∧ c ≤ l ∧ l < 626 ∧ h.freq.get l = h.freq.get c ∧
      (∀ j, l < j → j < 627 → h.freq.get c < h.freq.get j) ∧
      h'.tree = h.tree.promote 313 c l ∧ h'.freq.get 627 = 0xffff ∧
      h'.freq.get 626 = h.freq.get 626 := by
  have hsmall : h.freq.get c < h.freq.get 626 := by
    by_contra hle
    have := htree.lt_prnt hc (show 626 < 2 * 313 + 1 by omega) (by exact Nat.le_of_not_lt hle)
    have := (htree.parent c hc).1
    omega
  have hc628 : c < lzhT + 1 := show c < 628 by omega
  have hc1 : c + 1 < lzhT + 1 := show c + 1 < 628 by omega
  have hf : (h.freq.get c + 1) % 2 ^ 16 = h.freq.get c + 1 := Nat.mod_eq_of_lt (by omega)
  have hsorted := htree.sorted c (c + 1) (Nat.le_succ c) (by omega)
  have hnext : Function.update h.freq.get c (h.freq.get c + 1) (c + 1) = h.freq.get (c + 1) :=
    Function.update_of_ne (by omega) _ _
  simp only [updateNode, Table.read_eq hc628, Table.write_eq hc628, Table.read_eq hc1, hf, hnext,
    Option.bind_eq_bind, Option.bind_some, toShort_of_lt (show h.freq.get c + 1 < 0x8000 by omega),
    toUnsigned_natCast (show h.freq.get c + 1 < 2 ^ 32 by omega)]
  split
  · rename_i hlt
    obtain ⟨l', hl', hle, hgt, hk, hbetween⟩ := @searchUp_eq
      ⟨Function.update h.freq.get c (h.freq.get c + 1)⟩ (h.freq.get c + 1)
      (by
        dsimp only
        rw [Function.update_of_ne (by omega), hguard]
        omega) (lzhT - (c + 1)) (c + 1) (show c + 1 + (627 - (c + 1)) = 627 by omega)
    have hn0 : lzhT - (c + 1) ≠ 0 := show 627 - (c + 1) ≠ 0 by omega
    have hgt := hgt hn0
    dsimp only at hk hbetween
    rw [Function.update_of_ne (by omega)] at hk
    -- everything between has the old frequency of `c`
    have hsame : ∀ x, c < x → x < l' → h.freq.get x = h.freq.get c := by
      intro x hx hx'
      have hge : h.freq.get c ≤ h.freq.get x := htree.sorted c x (by omega) (by omega)
      by_cases hx1 : x = c + 1
      · rw [hx1] at hge ⊢
        omega
      · have := hbetween x (by omega) hx'
        rw [Function.update_of_ne (by omega)] at this
        omega
    have hl626 : l' - 1 < 626 := by
      by_contra hge
      have := hsame 626 hc (by omega)
      omega
    have hlfreq : h.freq.get (l' - 1) = h.freq.get c := hsame _ (by omega) (by omega)
    have hson : ∀ i, i < 627 → h.son.get i < 941 := by
      intro i hi
      by_cases hinner : h.son.get i < 627
      · omega
      · exact (htree.leaf i hi (show 627 ≤ h.son.get i by omega)).1
    rw [hl', Option.bind_some,
      @exchange_eq ⟨⟨Function.update h.freq.get c (h.freq.get c + 1)⟩, h.prnt, h.son⟩ c (l' - 1) _
        (by omega) (by omega) (hson c (by omega)) (hson _ (by omega))]
    simp only [Option.bind_some]
    refine ⟨_, l' - 1, rfl, by omega, hl626, hlfreq, ?_, ?_, ?_, ?_⟩
    · intro j hj hj'
      have := htree.sorted l' j (by omega) (by omega)
      have hk : h.freq.get c + 1 ≤ h.freq.get l' := hk
      exact lt_of_lt_of_le hk this
    · simp only [Huff.tree, Tree.promote]
      rw [Function.update_of_ne (show l' - 1 ≠ c by omega), Function.update_idem]
    · dsimp only
      rw [Function.update_of_ne (by omega), Function.update_of_ne (by omega),
        Function.update_of_ne (by omega), hguard]
    · dsimp only
      rw [Function.update_of_ne (by omega), Function.update_of_ne (by omega),
        Function.update_of_ne (by omega)]
  · rename_i hge
    refine ⟨_, c, rfl, le_refl c, hc, rfl, fun j hj hj' ↦ ?_, ?_, ?_, ?_⟩
    · have := htree.sorted (c + 1) j (by omega) hj'
      have hge : h.freq.get c + 1 ≤ h.freq.get (c + 1) := by omega
      exact lt_of_lt_of_le hge this
    · rw [htree.promote_self (show c < 2 * 313 + 1 by omega)]
      rfl
    · exact (Function.update_of_ne (by omega) _ _).trans hguard
    · exact Function.update_of_ne (by omega) _ _

/-- The root is incremented where it is, also when it has come to 0x8000 and is taken
for too great. -/
theorem updateNode_root (hc : c = 626) :
    updateNode h c =
      some ({ h with freq := ⟨Function.update h.freq.get 626 (h.freq.get 626 + 1)⟩ }, 626) := by
  subst hc
  have h628 : 626 < lzhT + 1 := show 626 < 628 by omega
  have h627 : 626 + 1 < lzhT + 1 := show 627 < 628 by omega
  have hf : (h.freq.get 626 + 1) % 2 ^ 16 = h.freq.get 626 + 1 := Nat.mod_eq_of_lt (by omega)
  have hnext : Function.update h.freq.get 626 (h.freq.get 626 + 1) (626 + 1) = 0xffff :=
    (Function.update_of_ne (by omega) _ _).trans hguard
  simp only [updateNode, Table.read_eq h628, Table.write_eq h628, Table.read_eq h627, hf, hnext,
    Option.bind_eq_bind, Option.bind_some]
  split
  · have hson : h.son.get 626 < 941 := by
      by_cases hinner : h.son.get 626 < 627
      · omega
      · exact (htree.leaf 626 (by omega) (show 627 ≤ h.son.get 626 by omega)).1
    have hsearch : ∀ freq : Table ℕ (lzhT + 1), ∀ k, searchUp freq k (lzhT - (626 + 1)) (626 + 1) =
        some 627 := fun _ _ ↦ rfl
    have hself := htree.redirect_self (show 626 < 2 * 313 + 1 by omega)
    simp only [Huff.tree] at hself
    simp only [hsearch, Option.bind_some, Nat.reduceSub]
    rw [@exchange_eq ⟨⟨Function.update h.freq.get 626 (h.freq.get 626 + 1)⟩, h.prnt, h.son⟩ 626
        626 _ (by omega) (by omega) hson hson]
    simp only [Option.bind_some, hself, Function.update_idem, Function.update_eq_self]
  · rfl

end Update

/-- The way to the root, on which every node is incremented once. -/
theorem updatePath_eq {n c : ℕ} {h : Huff} (htree : SiblingTree 313 (debtAt c) h.tree)
    (hguard : h.freq.get 627 = 0xffff) (hmax : h.freq.get 626 < 0x8000) (hc : c < 627)
    (hn : 627 ≤ n + c) :
    ∃ h', updatePath n h c = some h' ∧ h'.Ok := by
  induction n generalizing h c with
  | zero => omega
  | succ n ih =>
      rw [updatePath]
      rcases Nat.lt_or_ge c 626 with hlt | hge
      · obtain ⟨h', l, hstep, hcl, hl, hfreq, hafter, htree', hguard', hroot'⟩ :=
          updateNode_inner htree hguard hmax hlt
        have hpromote := htree.promote hcl hl hfreq hafter
        have hlast := htree.prnt_promote_last hcl hl
        rw [← htree'] at hpromote hlast
        have hprnt : h'.prnt.get l = h.prnt.get l := hlast
        obtain ⟨hp, -⟩ := htree.parent l hl
        have hup := htree.up l hl
        have hp : h.prnt.get l < 627 := hp
        have hup : l < h.prnt.get l := hup
        have hread : h'.prnt.read l = some (h.prnt.get l) := by
          rw [Table.read_eq (show l < 941 by omega), hprnt]
        simp only [hstep, hread, Option.bind_eq_bind, Option.bind_some]
        rw [if_pos ⟨by omega, hp⟩]
        exact ih hpromote hguard' (hroot' ▸ hmax) hp (by omega)
      · obtain rfl : c = 626 := by omega
        have hroot : h.prnt.get 626 = 0 := htree.root
        simp only [updateNode_root htree hguard hmax rfl, Option.bind_eq_bind, Option.bind_some,
          Table.read_eq (show 626 < lzhT + lzhNChar from show 626 < 941 by omega), hroot, ne_eq,
          not_true_eq_false, false_and, if_false]
        refine ⟨_, rfl, htree.finish, ?_, ?_⟩
        · dsimp only
          rw [Function.update_of_ne (by omega)]
          exact hguard
        · dsimp only
          rw [Function.update_self]
          omega

/-! ## The tables from their leaves -/

/-- The entry for `x` among the leaves in front of `i` that have moved down. -/
theorem exists_count {P : ℕ → Prop} [DecidablePred P] {i x : ℕ} (hx : x < Nat.count P i) :
    ∃ k, k < i ∧ P k ∧ Nat.count P k = x := by
  induction i with
  | zero => exact absurd hx (Nat.not_lt_zero x)
  | succ i ih =>
      rw [Nat.count_succ] at hx
      by_cases hlt : x < Nat.count P i
      · obtain ⟨k, hk, hP, hcount⟩ := ih hlt
        exact ⟨k, by omega, hP, hcount⟩
      · split at hx
        · rename_i hP
          exact ⟨i, Nat.lt_succ_self i, hP, by omega⟩
        · omega

section Halve

variable {h : Huff} (htree : SiblingTree 313 (fun _ ↦ 0) h.tree)

/-- The leaves in front of `i` have moved down, with half their frequencies. -/
structure Halved (h : Huff) (i : ℕ) (s : Huff × ℕ) : Prop where
  count : s.2 = Nat.count (fun k ↦ 627 ≤ h.son.get k) i
  moved : ∀ k, k < i → 627 ≤ h.son.get k →
    s.1.freq.get (Nat.count (fun k ↦ 627 ≤ h.son.get k) k) = (h.freq.get k + 1) / 2 ∧
      s.1.son.get (Nat.count (fun k ↦ 627 ≤ h.son.get k) k) = h.son.get k
  rest : ∀ k, i ≤ k → s.1.freq.get k = h.freq.get k ∧ s.1.son.get k = h.son.get k
  prnt : s.1.prnt = h.prnt

theorem halveLeaf_step {i : ℕ} {s : Huff × ℕ} (hi : i < 627) (hs : Halved h i s) :
    ∃ s', halveLeaf i s = some s' ∧ Halved h (i + 1) s' := by
  obtain ⟨h', j⟩ := s
  obtain ⟨hcount, hmoved, hrest, hprnt⟩ := hs
  dsimp only at hcount hmoved hrest hprnt
  have hi628 : i < lzhT + 1 := show i < 628 by omega
  have hle : Nat.count (fun k ↦ 627 ≤ h.son.get k) i ≤ i := Nat.count_le _
  obtain ⟨hfreq, hson⟩ := hrest i (le_refl i)
  simp only [halveLeaf, Table.read_eq hi628, Option.bind_eq_bind, Option.bind_some, hfreq, hson]
  by_cases hleaf : 627 ≤ h.son.get i
  · have hj628 : j < lzhT + 1 := show j < 628 by omega
    rw [if_pos (show lzhT ≤ h.son.get i from hleaf), Table.write_eq hj628, Option.bind_some,
      Table.write_eq hj628, Option.bind_some]
    refine ⟨_, rfl, ?_, ?_, ?_, hprnt⟩
    · rw [Nat.count_succ, if_pos hleaf, ← hcount]
    · intro k hk hleafk
      dsimp only
      by_cases hki : k = i
      · rw [hki, ← hcount, Function.update_self, Function.update_self]
        exact ⟨rfl, rfl⟩
      · have hlt := Nat.count_strict_mono (p := fun k ↦ 627 ≤ h.son.get k) hleafk
          (show k < i by omega)
        rw [Function.update_of_ne (by omega), Function.update_of_ne (by omega)]
        exact hmoved k (by omega) hleafk
    · intro k hk
      dsimp only
      rw [Function.update_of_ne (by omega), Function.update_of_ne (by omega)]
      exact hrest k (by omega)
  · rw [if_neg (show ¬ lzhT ≤ h.son.get i from hleaf)]
    refine ⟨_, rfl, ?_, ?_, fun k hk ↦ hrest k (by omega), hprnt⟩
    · rw [Nat.count_succ, if_neg hleaf]
      exact hcount
    · intro k hk hleafk
      have hki : k ≠ i := by
        rintro rfl
        exact hleaf hleafk
      exact hmoved k (by omega) hleafk

include htree

/-- All leaves are in front, and their frequencies add up to half the old ones. -/
theorem Halved.forest {s : Huff × ℕ} (hs : Halved h 627 s) :
    ∃ total, Forest 313 total 0 s.1.freq.get s.1.son.get ∧
      2 * total ≤ h.freq.get 626 + 314 := by
  obtain ⟨hcount, hmoved, -, -⟩ := hs
  set P : ℕ → Prop := fun k ↦ 627 ≤ h.son.get k with hP
  have hall : Nat.count P 627 = 314 := by
    rw [Nat.count_eq_card_filter_range]
    exact htree.card_leaves
  have hplace : ∀ x, x < 313 + 1 + 0 → ∃ k, k < 627 ∧ 627 ≤ h.son.get k ∧ Nat.count P k = x ∧
      s.1.freq.get x = (h.freq.get k + 1) / 2 ∧ s.1.son.get x = h.son.get k := by
    intro x hx
    obtain ⟨k, hk, hleaf, hkx⟩ := @exists_count P _ 627 x (by omega)
    obtain ⟨hf, hs⟩ := hmoved k hk hleaf
    rw [hkx] at hf hs
    exact ⟨k, hk, hleaf, hkx, hf, hs⟩
  have hmono : ∀ k k', 627 ≤ h.son.get k' → Nat.count P k ≤ Nat.count P k' → k ≤ k' := by
    intro k k' hleaf hle
    by_contra hlt
    have := Nat.count_strict_mono (p := P) hleaf (show k' < k by omega)
    omega
  refine ⟨_, ⟨?_, ?_, ?_, ?_, ?_, ?_, ?_, rfl⟩, ?_⟩
  · intro x y hxy hy
    obtain ⟨k, hk, hleaf, hkx, hf, -⟩ := hplace x (by omega)
    obtain ⟨k', hk', hleaf', hky, hf', -⟩ := hplace y hy
    have hsorted := htree.sorted k k' (hmono k k' hleaf' (by omega)) (by omega)
    have hsorted : h.freq.get k ≤ h.freq.get k' := hsorted
    rw [hf, hf']
    omega
  · intro x hx
    obtain ⟨k, hk, -, -, hf, -⟩ := hplace x hx
    have hpos : 0 < h.freq.get k := htree.pos k (by omega)
    rw [hf]
    omega
  · intro x hx hinner
    obtain ⟨k, -, hleaf, -, -, hson⟩ := hplace x hx
    omega
  · intro x hx
    obtain ⟨k, hk, hleaf, -, -, hson⟩ := hplace x hx
    rw [hson]
    exact (htree.leaf k (by omega) hleaf).1
  · intro x y hx hy heq
    obtain ⟨k, hk, hleaf, hkx, -, hson⟩ := hplace x hx
    obtain ⟨k', hk', hleaf', hky, -, hson'⟩ := hplace y hy
    rw [hson, hson'] at heq
    have hprnt : h.prnt.get (h.son.get k) = k := (htree.leaf k (by omega) hleaf).2
    have hprnt' : h.prnt.get (h.son.get k') = k' := (htree.leaf k' (by omega) hleaf').2
    rw [heq, hprnt'] at hprnt
    rw [← hkx, ← hky, hprnt]
  · intro k _ hk
    omega
  · intro k hk hk'
    obtain ⟨hlt, hson⟩ := htree.symbol k hk hk'
    have hlt : h.prnt.get k < 627 := hlt
    have hson : h.son.get (h.prnt.get k) = k := hson
    have hleaf : 627 ≤ h.son.get (h.prnt.get k) := by
      rw [hson]
      exact hk
    refine ⟨Nat.count P (h.prnt.get k), ?_, ?_⟩
    · have := Nat.count_strict_mono (p := P) hleaf hlt
      omega
    · rw [(hmoved _ hlt hleaf).2, hson]
  · have hsum : ∑ x ∈ Finset.Ico (2 * 0) (313 + 1 + 0), s.1.freq.get x =
        ∑ k ∈ SiblingTree.leaves 313 h.tree, (h.freq.get k + 1) / 2 := by
      symm
      refine Finset.sum_bij (fun k _ ↦ Nat.count P k) ?_ ?_ ?_ ?_
      · intro k hk
        rw [SiblingTree.leaves, Finset.mem_filter, Finset.mem_range] at hk
        have := Nat.count_strict_mono (p := P) hk.2 (show k < 627 from hk.1)
        exact Finset.mem_Ico.mpr ⟨Nat.zero_le _, by omega⟩
      · intro k hk k' hk' heq
        rw [SiblingTree.leaves, Finset.mem_filter, Finset.mem_range] at hk hk'
        exact le_antisymm (hmono k k' hk'.2 heq.le) (hmono k' k hk.2 heq.ge)
      · intro x hx
        obtain ⟨k, hk, hleaf, hkx, -⟩ := hplace x (Finset.mem_Ico.mp hx).2
        refine ⟨k, ?_, hkx⟩
        rw [SiblingTree.leaves, Finset.mem_filter, Finset.mem_range]
        exact ⟨hk, hleaf⟩
      · intro k hk
        rw [SiblingTree.leaves, Finset.mem_filter, Finset.mem_range] at hk
        exact ((hmoved k hk.1 hk.2).1).symm
    have hhalf : ∑ k ∈ SiblingTree.leaves 313 h.tree, 2 * ((h.freq.get k + 1) / 2) ≤
        ∑ k ∈ SiblingTree.leaves 313 h.tree, (h.freq.get k + 1) :=
      Finset.sum_le_sum fun k _ ↦ Nat.mul_div_le _ 2
    have hroot : ∑ k ∈ SiblingTree.leaves 313 h.tree, h.freq.get k = h.freq.get 626 :=
      htree.sum_leaves
    have hcard : (SiblingTree.leaves 313 h.tree).card = 314 := htree.card_leaves
    rw [Finset.sum_add_distrib, hroot, ← Finset.card_eq_sum_ones, hcard, ← Finset.mul_sum] at hhalf
    rw [hsum]
    exact hhalf

end Halve

/-- The search finds a place behind the last frequency that is not greater, if there is
one at `low`. -/
theorem searchDown_eq {freq : Table ℕ (lzhT + 1)} {f low n : ℕ} (hn : n ≤ 627) (hlow : low < n)
    (hf : freq.get low ≤ f) :
    ∃ k, searchDown freq f n = some k ∧ low < k ∧ k ≤ n ∧ freq.get (k - 1) ≤ f ∧
      ∀ x, k ≤ x → x < n → f < freq.get x := by
  induction n with
  | zero => omega
  | succ n ih =>
      rw [searchDown, Table.read_eq (show n < 628 by omega)]
      simp only [Option.bind_eq_bind, Option.bind_some]
      split
      · rename_i hlt
        have hne : low ≠ n := by
          rintro rfl
          omega
        obtain ⟨k, hk, hgt, hle, hbefore, hbehind⟩ := ih (by omega) (by omega)
        refine ⟨k, hk, hgt, by omega, hbefore, fun x hx hx' ↦ ?_⟩
        by_cases hxn : x = n
        · rw [hxn]
          exact hlt
        · exact hbehind x hx (by omega)
      · rename_i hge
        exact ⟨n + 1, rfl, by omega, le_refl _, by simpa using hge, fun x hx hx' ↦ by omega⟩

/-- Making room at `k` and filling it. -/
theorem update_moveUp {g g' : ℕ → ℕ} {k last : ℕ} (hk : k ≤ last) (hg : ∀ x, x ≠ last → g' x = g x)
    (v : ℕ) : Function.update (fun x ↦ if k < x ∧ x ≤ last then g' (x - 1) else g' x) k v =
      insertAt g last k v := by
  funext x
  rw [Function.update_apply, insertAt]
  by_cases hxk : x = k
  · rw [if_pos hxk, if_neg (by omega), if_pos hxk]
  · rw [if_neg hxk, if_neg hxk]
    by_cases hin : k < x ∧ x ≤ last
    · rw [if_pos hin, if_neg (by omega), hg _ (by omega)]
    · rw [if_neg hin, if_pos (by omega), hg _ (by omega)]

/-- The tables after `m` joins. -/
structure Joined (total : ℕ) (prnt : Table ℕ (lzhT + lzhNChar)) (m : ℕ) (h : Huff) : Prop where
  forest : Forest 313 total m h.freq.get h.son.get
  guard : h.freq.get 627 = 0xffff
  prnt : h.prnt = prnt

theorem joinNode_step {total m : ℕ} {prnt : Table ℕ (lzhT + lzhNChar)} {h : Huff}
    (htotal : total < 2 ^ 16) (hm : m < 313) (hj : Joined total prnt m h) :
    ∃ h', joinNode m h = some h' ∧ Joined total prnt (m + 1) h' := by
  obtain ⟨hforest, hguard, hprnt⟩ := hj
  have hsum := hforest.sum_two_le hm
  have h₀ : 2 * m < lzhT + 1 := show 2 * m < 628 by omega
  have h₁ : 2 * m + 1 < lzhT + 1 := show 2 * m + 1 < 628 by omega
  have hj : lzhNChar + m < lzhT + 1 := show 314 + m < 628 by omega
  set f := h.freq.get (2 * m) + h.freq.get (2 * m + 1) with hf
  have hmod : f % 2 ^ 16 = f := Nat.mod_eq_of_lt (by omega)
  have hold : ∀ x, x < 314 + m → Function.update h.freq.get (lzhNChar + m) f x = h.freq.get x :=
    fun x hx ↦ Function.update_of_ne (show x ≠ 314 + m by omega) _ _
  obtain ⟨k, hk, hlow, hhigh, hbefore, hbehind⟩ := @searchDown_eq
    ⟨Function.update h.freq.get (lzhNChar + m) f⟩ f (2 * m + 1) (lzhNChar + m)
    (show 314 + m ≤ 627 by omega) (show 2 * m + 1 < 314 + m by omega)
    (by
      dsimp only
      rw [hold _ (by omega)]
      omega)
  dsimp only at hbefore hbehind
  have hhigh : k ≤ 314 + m := hhigh
  rw [hold _ (by omega)] at hbefore
  replace hbehind : ∀ x, k ≤ x → x < 314 + m → f < h.freq.get x := by
    intro x hx hx'
    have := hbehind x hx hx'
    rwa [hold x hx'] at this
  have hk628 : k < lzhT + 1 := show k < 628 by omega
  have hjoin : Forest 313 total (m + 1) (insertAt h.freq.get (314 + m) k f)
      (insertAt h.son.get (314 + m) k (2 * m)) :=
    hforest.join hm hlow (show k ≤ 313 + 1 + m by omega) hbefore
      (fun x hx hx' ↦ hbehind x hx (by omega))
  rw [← update_moveUp hhigh (fun x hx ↦ Function.update_of_ne hx f h.freq.get) f,
    ← update_moveUp hhigh (fun x _ ↦ rfl) (2 * m)] at hjoin
  simp only [joinNode, Table.read_eq h₀, Table.read_eq h₁, ← hf, hmod, Table.write_eq hj, hk,
    Table.moveUp_eq hj, Table.write_eq hk628, Option.bind_eq_bind, Option.bind_some]
  refine ⟨_, rfl, hjoin, ?_, hprnt⟩
  have hlast : ∀ g : ℕ → ℕ, Function.update (fun x ↦ if k < x ∧ x ≤ 314 + m then g (x - 1)
      else g x) k f 627 = g 627 := by
    intro g
    rw [Function.update_of_ne (by omega), if_neg (by omega)]
  exact (hlast _).trans
    ((Function.update_of_ne (show 627 ≠ 314 + m by omega) _ _).trans hguard)

/-- The links back to the nodes in front of `i`. -/
structure Connected (h : Huff) (i : ℕ) (s : Huff) : Prop where
  freq : s.freq = h.freq
  son : s.son = h.son
  links : ∀ x, x < i → s.prnt.get (h.son.get x) = x ∧
    (h.son.get x < 627 → s.prnt.get (h.son.get x + 1) = x)
  root : s.prnt.get 626 = 0

section Connect

variable {total : ℕ} {h : Huff} (hforest : Forest 313 total 313 h.freq.get h.son.get)

include hforest

theorem connectNode_step {i : ℕ} {s : Huff} (hi : i < 627) (hs : Connected h i s) :
    ∃ s', connectNode i s = some s' ∧ Connected h (i + 1) s' := by
  obtain ⟨hfreq, hson, hlinks, hroot⟩ := hs
  have hleaf := hforest.leaf i (by omega)
  have hread : s.son.read i = some (h.son.get i) := by
    rw [hson, Table.read_eq (show i < 628 by omega)]
  simp only [connectNode, hread, setPrnt_eq s.prnt (show h.son.get i < 941 by omega),
    Option.bind_eq_bind, Option.bind_some]
  have hinner : ∀ x, x < 627 → h.son.get x < 627 →
      h.son.get x % 2 = 0 ∧ h.son.get x < 626 := by
    intro x hx hlt
    obtain ⟨heven, hlt', -⟩ := hforest.inner x (by omega) hlt
    exact ⟨heven, by omega⟩
  refine ⟨_, rfl, hfreq, hson, ?_, ?_⟩
  · intro x hx
    dsimp only [Tree.redirect]
    by_cases hxi : x = i
    · rw [hxi, if_pos (Or.inl rfl)]
      exact ⟨rfl, fun hlt ↦ if_pos (Or.inr ⟨hlt, rfl⟩)⟩
    · obtain ⟨h₀, h₁⟩ := hlinks x (by omega)
      have hne : h.son.get x ≠ h.son.get i := fun heq ↦
        hxi (hforest.inj x i (by omega) (by omega) heq)
      have hi' := hinner i hi
      have hx' := hinner x (by omega)
      refine ⟨?_, fun hlt ↦ ?_⟩
      · rw [if_neg (by omega)]
        exact h₀
      · rw [if_neg (by omega)]
        exact h₁ hlt
  · have hi' := hinner i hi
    dsimp only [Tree.redirect]
    rw [if_neg (by omega)]
    exact hroot

end Connect

/-- The rebuilt tree has about half the frequencies. -/
theorem lzhReconst_eq {h : Huff} (hok : h.Ok) :
    ∃ h', lzhReconst h = some h' ∧ h'.Ok ∧ h'.freq.get 626 < 0x8000 := by
  obtain ⟨htree, hguard, hmax⟩ := hok
  obtain ⟨s₁, hs₁, hhalved⟩ := @forUpto_rule _ halveLeaf lzhT (h, 0) (Halved h)
    ⟨rfl, fun k hk ↦ absurd hk (Nat.not_lt_zero k), fun _ _ ↦ ⟨rfl, rfl⟩, rfl⟩
    (fun i s hi hs ↦ halveLeaf_step hi hs)
  obtain ⟨total, hforest, htotal⟩ := hhalved.forest htree
  have hguard₁ : s₁.1.freq.get 627 = 0xffff := (hhalved.rest 627 (le_refl 627)).1.trans hguard
  obtain ⟨h₂, hs₂, hjoined⟩ := @forUpto_rule _ joinNode (lzhT - lzhNChar) s₁.1
    (Joined total s₁.1.prnt) ⟨hforest, hguard₁, rfl⟩
    (fun m s hm hs ↦ joinNode_step (by omega) hm hs)
  have hroot : h₂.prnt.get 626 = 0 := by
    rw [hjoined.prnt, hhalved.prnt]
    exact htree.root
  obtain ⟨h₃, hs₃, hconnected⟩ := @forUpto_rule _ connectNode lzhT h₂ (Connected h₂)
    ⟨rfl, rfl, fun x hx ↦ absurd hx (Nat.not_lt_zero x), hroot⟩
    (fun i s hi hs ↦ connectNode_step hjoined.forest hi hs)
  obtain ⟨hnew, hsum⟩ := hjoined.forest.siblingTree hconnected.links hconnected.root
  refine ⟨h₃, ?_, ⟨?_, ?_, ?_⟩, ?_⟩
  · obtain ⟨h₁, j⟩ := s₁
    simp only [lzhReconst, hs₁, hs₂, hs₃, Option.bind_eq_bind, Option.bind_some]
  · rw [Huff.tree, hconnected.freq, hconnected.son]
    exact hnew
  · rw [hconnected.freq]
    exact hjoined.guard
  · rw [hconnected.freq]
    have hsum : h₂.freq.get 626 = total := hsum
    omega
  · rw [hconnected.freq]
    have hsum : h₂.freq.get 626 = total := hsum
    omega

/-! ## The first tree -/

/-- The first `i` leaves. -/
structure Leaves (i : ℕ) (h : Huff) : Prop where
  freq : ∀ x, x < i → h.freq.get x = 1
  son : ∀ x, x < i → h.son.get x = x + 627
  prnt : ∀ x, x < i → h.prnt.get (x + 627) = x

theorem startLeaf_step {i : ℕ} {h : Huff} (hi : i < 314) (hs : Leaves i h) :
    ∃ h', startLeaf i h = some h' ∧ Leaves (i + 1) h' := by
  have hi628 : i < lzhT + 1 := show i < 628 by omega
  have hT : lzhT = 627 := rfl
  unfold startLeaf
  generalize hplace : i + lzhT = place
  have hp : place < lzhT + lzhNChar := show place < 941 by omega
  simp only [Table.write_eq hi628, Table.write_eq hp, Option.bind_eq_bind, Option.bind_some]
  refine ⟨_, rfl, ?_, ?_, ?_⟩
  · intro x hx
    change Function.update h.freq.get i 1 x = 1
    rw [Function.update_apply]
    split
    · rfl
    · exact hs.freq x (by omega)
  · intro x hx
    change Function.update h.son.get i place x = x + 627
    rw [Function.update_apply]
    split
    · omega
    · exact hs.son x (by omega)
  · intro x hx
    change Function.update h.prnt.get place i (x + 627) = x
    rw [Function.update_apply]
    split
    · omega
    · exact hs.prnt x (by omega)

/-- The first `m` inner nodes over the leaves. -/
structure Started (m : ℕ) (h : Huff) : Prop where
  forest : Forest 313 314 m h.freq.get h.son.get
  son : ∀ x, x < m → h.son.get (314 + x) = 2 * x
  one : h.freq.get 313 = 1
  links : ∀ x, x < 314 + m → h.prnt.get (h.son.get x) = x ∧
    (h.son.get x < 627 → h.prnt.get (h.son.get x + 1) = x)

theorem Leaves.started {h : Huff} (hs : Leaves 314 h) : Started 0 h := by
  obtain ⟨hfreq, hson, hprnt⟩ := hs
  refine ⟨⟨?_, ?_, ?_, ?_, ?_, ?_, ?_, ?_⟩, ?_, hfreq 313 (by omega), ?_⟩
  · intro x y hxy hy
    rw [hfreq x (by omega), hfreq y (by omega)]
  · intro x hx
    rw [hfreq x (by omega)]
    exact Nat.one_pos
  · intro x hx hlt
    rw [hson x (by omega)] at hlt
    omega
  · intro x hx
    rw [hson x (by omega)]
    omega
  · intro x y hx hy heq
    rw [hson x (by omega), hson y (by omega)] at heq
    omega
  · intro k _ hk
    omega
  · intro k hk hk'
    exact ⟨k - 627, by omega, by rw [hson _ (by omega)]; omega⟩
  · have hones : ∑ x ∈ Finset.Ico (2 * 0) (313 + 1 + 0), h.freq.get x =
        ∑ x ∈ Finset.Ico 0 314, 1 :=
      Finset.sum_congr rfl fun x hx ↦ hfreq x (Finset.mem_Ico.mp hx).2
    rw [hones, ← Finset.card_eq_sum_ones, Nat.card_Ico]
  · intro x hx
    omega
  · intro x hx
    rw [hson x (by omega)]
    exact ⟨hprnt x (by omega), fun hlt ↦ by omega⟩

theorem startNode_step {m : ℕ} {h : Huff} (hm : m < 313) (hs : Started m h) :
    ∃ h', startNode m h = some h' ∧ Started (m + 1) h' := by
  obtain ⟨hforest, hson, hone, hlinks⟩ := hs
  have hsum := hforest.sum_two_le hm
  have hi : 2 * m < lzhT + 1 := show 2 * m < 628 by omega
  have hi' : 2 * m + 1 < lzhT + 1 := show 2 * m + 1 < 628 by omega
  have hj : lzhNChar + m < lzhT + 1 := show 314 + m < 628 by omega
  have hp : 2 * m < lzhT + lzhNChar := show 2 * m < 941 by omega
  have hp' : 2 * m + 1 < lzhT + lzhNChar := show 2 * m + 1 < 941 by omega
  set f := h.freq.get (2 * m) + h.freq.get (2 * m + 1) with hf
  have hmod : f % 2 ^ 16 = f := Nat.mod_eq_of_lt (by omega)
  -- the sums come in their order
  have hlast : h.freq.get (314 + m - 1) ≤ f := by
    have hpos := hforest.pos (2 * m) (by omega)
    rcases Nat.eq_zero_or_pos m with rfl | hpos'
    · rw [hone]
      omega
    · have hsonlast := hson (m - 1) (by omega)
      have hplace : 314 + (m - 1) = 314 + m - 1 := by omega
      rw [hplace] at hsonlast
      obtain ⟨-, -, -, hnode⟩ := hforest.inner (314 + m - 1) (by omega) (by omega)
      rw [hnode, hsonlast]
      have h₀ := hforest.sorted (2 * (m - 1)) (2 * m) (by omega) (by omega)
      have h₁ := hforest.sorted (2 * (m - 1) + 1) (2 * m + 1) (by omega) (by omega)
      omega
  have hjoin : Forest 313 314 (m + 1) (insertAt h.freq.get (314 + m) (314 + m) f)
      (insertAt h.son.get (314 + m) (314 + m) (2 * m)) :=
    hforest.join hm (show 2 * m + 1 < 314 + m by omega) (show 314 + m ≤ 313 + 1 + m by omega)
      hlast (fun x hx hx' ↦ by omega)
  have hfun : ∀ (g : ℕ → ℕ) (v : ℕ), insertAt g (314 + m) (314 + m) v =
      Function.update g (314 + m) v := by
    intro g v
    funext x
    rw [insertAt, Function.update_apply]
    by_cases hx : x = 314 + m
    · rw [if_neg (by omega), if_pos hx, if_pos hx]
    · rw [if_pos (by omega), if_neg hx]
  rw [hfun, hfun] at hjoin
  simp only [startNode, Table.read_eq hi, Table.read_eq hi', ← hf, hmod, Table.write_eq hj,
    Table.write_eq hp, Table.write_eq hp', Option.bind_eq_bind, Option.bind_some]
  refine ⟨_, rfl, hjoin, ?_, ?_, ?_⟩
  · intro x hx
    change Function.update h.son.get (314 + m) (2 * m) (314 + x) = 2 * x
    rw [Function.update_apply]
    split
    · omega
    · exact hson x (by omega)
  · change Function.update h.freq.get (314 + m) f 313 = 1
    rw [Function.update_of_ne (by omega)]
    exact hone
  · intro x hx
    change Function.update (Function.update h.prnt.get (2 * m + 1) (314 + m)) (2 * m) (314 + m)
        (Function.update h.son.get (314 + m) (2 * m) x) = x ∧
      (Function.update h.son.get (314 + m) (2 * m) x < 627 →
        Function.update (Function.update h.prnt.get (2 * m + 1) (314 + m)) (2 * m) (314 + m)
          (Function.update h.son.get (314 + m) (2 * m) x + 1) = x)
    by_cases hxm : x = 314 + m
    · rw [hxm, Function.update_self, Function.update_self, Function.update_of_ne (by omega),
        Function.update_self]
      exact ⟨rfl, fun _ ↦ rfl⟩
    · obtain ⟨h₀, h₁⟩ := hlinks x (by omega)
      have hleaf := hforest.leaf x (by omega)
      have hinner := hforest.inner x (by omega)
      rw [Function.update_of_ne hxm, Function.update_of_ne (by omega),
        Function.update_of_ne (by omega)]
      refine ⟨h₀, fun hlt ↦ ?_⟩
      rw [Function.update_of_ne (by omega), Function.update_of_ne (by omega)]
      exact h₁ hlt

theorem lzhStartHuff_eq : ∃ h, lzhStartHuff = some h ∧ h.Ok := by
  obtain ⟨h₁, hs₁, hleaves⟩ := @forUpto_rule _ startLeaf lzhNChar
    ⟨⟨fun _ ↦ 0⟩, ⟨fun _ ↦ 0⟩, ⟨fun _ ↦ 0⟩⟩ Leaves
    ⟨fun x hx ↦ absurd hx (Nat.not_lt_zero x), fun x hx ↦ absurd hx (Nat.not_lt_zero x),
      fun x hx ↦ absurd hx (Nat.not_lt_zero x)⟩ (fun i s hi hs ↦ startLeaf_step hi hs)
  obtain ⟨h₂, hs₂, hforest, -, -, hlinks⟩ := @forUpto_rule _ startNode (lzhNChar - 1) h₁ Started
    hleaves.started (fun m s hm hs ↦ startNode_step hm hs)
  have hforest : Forest 313 314 313 h₂.freq.get h₂.son.get := hforest
  have hlinks : ∀ x, x < 2 * 313 + 1 →
      Function.update h₂.prnt.get 626 0 (h₂.son.get x) = x ∧
        (h₂.son.get x < 2 * 313 + 1 →
          Function.update h₂.prnt.get 626 0 (h₂.son.get x + 1) = x) := by
    intro x hx
    obtain ⟨h₀, h₁⟩ := hlinks x hx
    have hinner := hforest.inner x (by omega)
    rw [Function.update_of_ne (by omega)]
    refine ⟨h₀, fun hlt ↦ ?_⟩
    rw [Function.update_of_ne (by omega)]
    exact h₁ hlt
  obtain ⟨htree, hroot⟩ := hforest.siblingTree hlinks (Function.update_self _ _ _)
  have hroot : h₂.freq.get 626 = 314 := hroot
  simp only [lzhStartHuff, hs₁, hs₂, Option.bind_eq_bind, Option.bind_some,
    Table.write_eq (show lzhT < lzhT + 1 from show 627 < 628 by omega),
    Table.write_eq (show lzhR < lzhT + lzhNChar from show 626 < 941 by omega)]
  refine ⟨_, rfl, ?_, ?_, ?_⟩
  · exact htree.withFreq fun i hi ↦ Function.update_of_ne (show i ≠ 627 by omega) _ _
  · change Function.update h₂.freq.get 627 0xffff 627 = 0xffff
    exact Function.update_self _ _ _
  · change Function.update h₂.freq.get 627 0xffff 626 ≤ 0x8000
    rw [Function.update_of_ne (by omega), hroot]
    omega

/-- An update keeps the tree. -/
theorem lzhUpdate_eq {h : Huff} {c : ℕ} (hok : h.Ok) (hc : c < 314) :
    ∃ h', lzhUpdate h c = some h' ∧ h'.Ok := by
  obtain ⟨h₁, hrebuilt, hok₁, hmax₁⟩ : ∃ h₁,
      (if h.freq.get lzhR = maxFreq then lzhReconst h else some h) = some h₁ ∧ h₁.Ok ∧
        h₁.freq.get 626 < 0x8000 := by
    split
    · exact lzhReconst_eq hok
    · rename_i hne
      have hne : h.freq.get 626 ≠ 0x8000 := hne
      have := hok.max
      exact ⟨h, rfl, hok, by omega⟩
  obtain ⟨hlt, hson⟩ := hok₁.tree.symbol (c + 627) (by omega) (by omega)
  have hlt : h₁.prnt.get (c + 627) < 627 := hlt
  obtain ⟨h', hpath, hok'⟩ := @updatePath_eq (lzhT + 1) (h₁.prnt.get (c + 627)) h₁
    (hok₁.tree.start (hson.symm ▸ Nat.le_add_left 627 c)) hok₁.guard hmax₁ hlt
    (Nat.le_add_right 627 _ |>.trans (Nat.add_le_add_right (Nat.le_succ 627) _))
  refine ⟨h', ?_, hok'⟩
  simp only [lzhUpdate, Table.read_eq (show lzhR < lzhT + 1 from show 626 < 628 by omega),
    Option.bind_eq_bind, Option.bind_some,
    Table.read_eq (show c + lzhT < lzhT + lzhNChar from show c + 627 < 941 by omega)]
  split at hrebuilt
  · rename_i hfull
    rw [if_pos hfull, hrebuilt]
    exact hpath
  · rename_i hnot
    obtain rfl : h = h₁ := by simpa using hrebuilt
    rw [if_neg hnot]
    exact hpath

end Synchronet.Encode
