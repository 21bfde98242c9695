import Synchronet.Lib.Terminated
import Synchronet.Xpdev.Genwrap

/-!
# String-list blocks (str_list.c)

A block is a piece of memory with strings one after another and an empty one behind them.  An
access outside the piece has no result.  Requests for memory are always met; what memory that
has not been written holds is given by `fresh`, for the size of the piece and the place in it.
-/

namespace Synchronet.Xpdev

open Terminated

/-- `strlen` at `block + p`. -/
def strlenAt (block : List UInt8) (p : ℕ) : Option ℕ := (block.drop p).idxOf? 0

/-- The loop of `strListBlockLength`, for a number of rounds. -/
def blockLengthLoop (block : List UInt8) : ℕ → ℕ → ℕ → Option ℕ
  | 0, _, _ => none
  | n + 1, p, blockLen => do
      let strLen ← strlenAt block p
      if strLen ≠ 0 then blockLengthLoop block n (p + (strLen + 1)) (blockLen + (strLen + 1))
      else some blockLen

/-- `strListBlockLength` of a block or the null pointer. -/
def strListBlockLength : Option (List UInt8) → Option ℕ
  | none => some 0
  | some block => do
      let blockLen ← blockLengthLoop block (block.length + 1) 0 0
      let blockLen := if blockLen = 0 then 1 else blockLen
      some (blockLen + 1)

section Memory

variable (fresh : ℕ → ℕ → UInt8)

def malloc (n : ℕ) : List UInt8 := (List.range n).map (fresh n)

def realloc (block : Option (List UInt8)) (n : ℕ) : List UInt8 :=
  (block.getD []).take n ++ (malloc fresh n).drop (block.getD []).length

/-- `strListCopyBlock` -/
def strListCopyBlock (block : Option (List UInt8)) : Option (Option (List UInt8)) := do
  let blockLen ← strListBlockLength block
  if blockLen = 0 then some none
  else if blockLen ≤ (block.getD []).length then
    (overwrite (malloc fresh blockLen) 0 ((block.getD []).take blockLen)).map some
  else none

/-- The loop of `strListAppendBlock` over the strings that are left in the list. -/
def appendLoop : List Str → Option (List UInt8) → ℕ → Option (Option (List UInt8) × ℕ)
  | [], block, blockLen => some (block, blockLen)
  | s :: list, block, blockLen =>
      -- can't include empty strings in block
      if s.length = 0 then appendLoop list block blockLen
      else do
        let p ← overwrite (realloc fresh block (blockLen + s.length + 1)) blockLen (s ++ [0])
        appendLoop list (some p) (blockLen + (s.length + 1))

/-- `strListAppendBlock`, where either argument may be the null pointer. -/
def strListAppendBlock (block : Option (List UInt8)) (list : Option (List Str)) :
    Option (List UInt8) := do
  let blockLen ← strListBlockLength block
  -- over-write existing terminator
  let blockLen := if blockLen ≠ 0 then blockLen - 1 else blockLen
  let (block, blockLen) ← appendLoop fresh (list.getD []) block blockLen
  let blockLen := (if blockLen = 0 then 1 else blockLen) + 1
  overwrite (realloc fresh block blockLen) (blockLen - 2) [0, 0]

/-- `strListCreateBlock` -/
def strListCreateBlock (list : Option (List Str)) : Option (List UInt8) :=
  strListAppendBlock fresh none list

end Memory

/-- The strings of a list that can be in a block. -/
def nonEmpty (list : Option (List Str)) : List Str := (list.getD []).filter (· ≠ [])

/-- The block holds its strings and then those of the list that are not empty, its length is
what `strListBlockLength` says, and no access was outside of a block. -/
def Appends (fresh : ℕ → ℕ → UInt8) (block : List UInt8) (strs : List Str)
    (list : Option (List Str)) : Prop :=
  ∃ result, strListAppendBlock fresh (some block) list = some result ∧
    Holds 0 result (strs ++ nonEmpty list) ∧
    strListBlockLength (some result) = some result.length

variable {fresh : ℕ → ℕ → UInt8} {block front : List UInt8} {strs list : List Str} {s : Str}
  {n p blockLen : ℕ}

/-! ## The length of a block -/

theorem strlenAt_of_drop {rest : List UInt8} (h : block.drop p = s ++ 0 :: rest) (hs : 0 ∉ s) :
    strlenAt block p = some s.length := by
  rw [strlenAt, h, Search.idxOf_append_cons hs]

theorem blockLengthLoop_eq (blockLen : ℕ) (h : Holds 0 (block.drop p) strs)
    (hn : strs.length < n) :
    blockLengthLoop block n p blockLen = some (blockLen + (pack 0 strs).length) := by
  induction strs generalizing n p blockLen with
  | nil =>
      obtain ⟨n, rfl⟩ : ∃ m, n = m + 1 := ⟨n - 1, by omega⟩
      obtain ⟨-, extra, hdrop⟩ := h
      have hlen : strlenAt block p = some 0 :=
        strlenAt_of_drop (s := []) hdrop (by simp)
      simp [blockLengthLoop, hlen]
  | cons s strs ih =>
      obtain ⟨n, rfl⟩ : ∃ m, n = m + 1 := ⟨n - 1, by omega⟩
      obtain ⟨⟨hne, hs⟩, rest, hdrop, hrest⟩ := h.of_cons
      have hlen := strlenAt_of_drop hdrop hs
      have hnext : block.drop (p + (s.length + 1)) = rest := by
        rw [← List.drop_drop, hdrop, Search.drop_append_cons]
      have hloop := ih (p := p + (s.length + 1)) (n := n) (blockLen + (s.length + 1))
        (by rwa [hnext]) (by simpa using hn)
      simp [blockLengthLoop, hlen, hne, hloop]
      omega

theorem length_le_pack (h : ∀ s ∈ strs, Storable 0 s) : strs.length ≤ (pack 0 strs).length := by
  induction strs with
  | nil => simp
  | cons s strs ih =>
      have := ih fun t ht ↦ h t (List.mem_cons_of_mem s ht)
      simp
      omega

/-- The length counts two bytes where there is no string. -/
theorem strListBlockLength_of_holds (h : Holds 0 block strs) :
    strListBlockLength (some block) =
      some (if strs = [] then 2 else (pack 0 strs).length + 1) := by
  have hlen : strs.length < block.length + 1 := by
    obtain ⟨hstrs, extra, rfl⟩ := h
    have := length_le_pack hstrs
    simp
    omega
  have hloop := blockLengthLoop_eq (p := 0) 0 (by simpa using h) hlen
  cases strs <;> simp [strListBlockLength, hloop]

/-! ## Appending -/

/-- A block that grows keeps what it had. -/
theorem realloc_eq (fresh : ℕ → ℕ → UInt8) {old : Option (List UInt8)} (hold : ∃ extra, old.getD [] = front ++ extra)
    (hn : front.length ≤ n) :
    ∃ extra, realloc fresh old n = front ++ extra ∧ extra.length = n - front.length := by
  obtain ⟨extra, hextra⟩ := hold
  refine ⟨extra.take (n - front.length) ++
    (malloc fresh n).drop (front.length + extra.length), ?_, ?_⟩
  · rw [realloc, hextra, List.take_append, List.take_of_length_le hn]
    simp
  · simp [malloc]
    omega

/-- Bytes are written behind what a block has, with room for just them. -/
theorem overwrite_realloc (fresh : ℕ → ℕ → UInt8) {old : Option (List UInt8)}
    (items : List UInt8) (hold : ∃ extra, old.getD [] = front ++ extra) (hn : n = front.length + items.length) :
    overwrite (realloc fresh old n) front.length items = some (front ++ items) := by
  obtain ⟨extra, hrealloc, hlen⟩ := realloc_eq fresh hold (n := n) (by omega)
  have hroom : extra.length = items.length := by omega
  have hwrite := overwrite_append front hroom []
  simpa [hrealloc] using hwrite

theorem appendLoop_eq (fresh : ℕ → ℕ → UInt8) (front : List UInt8) (list : List Str)
    (old : Option (List UInt8))
    (hold : ∃ extra, old.getD [] = front ++ extra) :
    ∃ block, appendLoop fresh list old front.length =
        some (block, (front ++ pack 0 (list.filter (· ≠ []))).length) ∧
      ∃ extra, block.getD [] = front ++ pack 0 (list.filter (· ≠ [])) ++ extra := by
  induction list generalizing old front with
  | nil => exact ⟨old, by simp [appendLoop], by simpa using hold⟩
  | cons s list ih =>
      by_cases hs : s = []
      · subst hs
        simpa [appendLoop] using ih front old hold
      · have hwrite : overwrite (realloc fresh old (front.length + s.length + 1)) front.length
            (s ++ [0]) = some (front ++ (s ++ [0])) :=
          overwrite_realloc fresh _ hold (by simp [Nat.add_assoc])
        obtain ⟨block, hloop, hblock⟩ 
          := ih (front ++ (s ++ [0])) (some (front ++ (s ++ [0]))) ⟨[], by simp⟩
        refine ⟨block, ?_, by simpa [hs] using hblock⟩
        simpa [appendLoop, hs, hwrite] using hloop

/-- The terminator of a block that ends in a zero. -/
theorem terminate_eq (fresh : ℕ → ℕ → UInt8) (front : List UInt8) {old : Option (List UInt8)}
    (hold : ∃ extra, old.getD [] = (front ++ [0]) ++ extra) :
    overwrite (realloc fresh old ((front ++ [0]).length + 1)) ((front ++ [0]).length + 1 - 2)
      [0, 0] = some (front ++ [0] ++ [0]) := by
  have hold' : ∃ extra, old.getD [] = front ++ extra := by
    obtain ⟨extra, hextra⟩ := hold
    exact ⟨0 :: extra, by simpa using hextra⟩
  simpa using overwrite_realloc fresh [0, 0] hold' rfl

/-- What a block with strings becomes, and what becomes of an empty one. -/
theorem strListAppendBlock_of_holds (fresh : ℕ → ℕ → UInt8) (h : Holds 0 block strs)
    (list : Option (List Str)) :
    strListAppendBlock fresh (some block) list =
      some ((if strs = [] then [0] else pack 0 strs) ++ pack 0 (nonEmpty list) ++ [0]) := by
  obtain ⟨front, hfront⟩ : ∃ front, (if strs = [] then [0] else pack 0 strs) = front ++ [0] := by
    split
    · exact ⟨[], rfl⟩
    · case isFalse hstrs => exact exists_pack_eq hstrs
  have hblock : ∃ extra, (some block).getD [] = (front ++ [0]) ++ extra := by
    obtain ⟨-, extra, rfl⟩ := h
    rw [← hfront]
    split
    · case isTrue hstrs => exact ⟨extra, by simp [hstrs]⟩
    · exact ⟨0 :: extra, rfl⟩
  have hlen : strListBlockLength (some block) = some ((front ++ [0]).length + 1) := by
    rw [strListBlockLength_of_holds h, ← hfront]
    split <;> rfl
  obtain ⟨block', hloop, hblock'⟩ := appendLoop_eq fresh _ (list.getD []) _ hblock
  obtain ⟨front', hfront'⟩ : ∃ front', front ++ [0] ++ pack 0 (nonEmpty list) = front' ++ [0] := by
    by_cases hlist : nonEmpty list = []
    · exact ⟨front, by simp [hlist]⟩
    · obtain ⟨last, hlast⟩ := exists_pack_eq (z := (0 : UInt8)) hlist
      exact ⟨front ++ [0] ++ last, by simp [hlast]⟩
  have hend := terminate_eq fresh front' (hfront' ▸ hblock')
  rw [hfront, strListAppendBlock, hlen]
  change appendLoop fresh _ _ _ = some (block', (front ++ [0] ++ pack 0 (nonEmpty list)).length)
    at hloop
  rw [hfront'] at hloop ⊢
  simp only [Option.bind_eq_bind, Option.bind_some]
  rw [if_pos (Nat.succ_ne_zero _), Nat.add_sub_cancel, hloop]
  simpa using hend

/-- A block made of packed strings has the length that is computed for it. -/
theorem strListBlockLength_pack (h : ∀ s ∈ strs, Storable 0 s) :
    Holds 0 ((if strs = [] then [0] else pack 0 strs) ++ [0]) strs ∧
      strListBlockLength (some ((if strs = [] then [0] else pack 0 strs) ++ [0])) =
        some ((if strs = [] then [0] else pack 0 strs) ++ [0]).length := by
  have hholds : Holds 0 ((if strs = [] then [0] else pack 0 strs) ++ [0]) strs := by
    split
    · case isTrue hstrs => exact hstrs ▸ holds_nil 0 [0]
    · exact ⟨h, [], rfl⟩
  refine ⟨hholds, ?_⟩
  rw [strListBlockLength_of_holds hholds]
  split <;> simp

theorem storable_nonEmpty {list : Option (List Str)} (h : ∀ s ∈ list.getD [], 0 ∉ s) :
    ∀ s ∈ nonEmpty list, Storable 0 s := by
  intro s hs
  obtain ⟨hmem, hne⟩ := List.mem_filter.mp hs
  exact ⟨by simpa using hne, h s hmem⟩

theorem nonEmpty_eq_nil_iff {list : Option (List Str)} :
    nonEmpty list = [] ↔ ∀ s ∈ list.getD [], s = [] := by
  simp [nonEmpty]

/-- Without a block the strings of the list are put into a new one. -/
theorem strListCreateBlock_eq (fresh : ℕ → ℕ → UInt8) (list : Option (List Str)) :
    strListCreateBlock fresh list =
      some ((if nonEmpty list = [] then [0] else pack 0 (nonEmpty list)) ++ [0]) := by
  obtain ⟨block', hloop, hblock'⟩ :=
    appendLoop_eq fresh [] (list.getD []) none ⟨[], rfl⟩
  change appendLoop fresh (list.getD []) none 0 =
    some (block', (pack 0 (nonEmpty list)).length) at hloop
  simp only [strListCreateBlock, strListAppendBlock, strListBlockLength, Option.bind_eq_bind,
    Option.bind_some, ne_eq, not_true_eq_false, if_false, hloop]
  by_cases hlist : nonEmpty list = []
  · have hnothing : ∃ extra, block'.getD [] = [] ++ extra := ⟨_, rfl⟩
    have hend := overwrite_realloc fresh [0, 0] hnothing rfl
    simpa [hlist] using hend
  · obtain ⟨front, hfront⟩ := exists_pack_eq (z := (0 : UInt8)) hlist
    change ∃ extra, block'.getD [] = pack 0 (nonEmpty list) ++ extra at hblock'
    rw [hfront] at hblock'
    have hend := terminate_eq fresh front hblock'
    simpa [hlist, hfront] using hend

theorem strListCreateBlock_holds {list : Option (List Str)} (h : ∀ s ∈ list.getD [], 0 ∉ s) :
    ∃ result, strListCreateBlock fresh list = some result ∧ Holds 0 result (nonEmpty list) ∧
      strListBlockLength (some result) = some result.length :=
  ⟨_, strListCreateBlock_eq fresh list, strListBlockLength_pack (storable_nonEmpty h)⟩

/-- An empty string in front of the strings of the list hides them. -/
theorem strListAppendBlock_appends_iff (fresh : ℕ → ℕ → UInt8) (h : Holds 0 block strs)
    {list : Option (List Str)} (hlist : ∀ s ∈ list.getD [], 0 ∉ s) :
    Appends fresh block strs list ↔ strs ≠ [] ∨ ∀ s ∈ list.getD [], s = [] := by
  have hresult := strListAppendBlock_of_holds fresh h list
  rw [← nonEmpty_eq_nil_iff]
  constructor
  · rintro ⟨result, happend, hholds, -⟩
    rw [hresult] at happend
    obtain rfl := Option.some.inj happend
    by_contra hboth
    obtain ⟨hstrs, hne⟩ := not_or.mp hboth
    obtain rfl := not_not.mp hstrs
    exact hne (by simpa using hholds.eq_nil)
  · intro hor
    have hstorable : ∀ s ∈ strs ++ nonEmpty list, Storable 0 s := by
      intro s hs
      rcases List.mem_append.mp hs with hs | hs
      · exact h.1 s hs
      · exact storable_nonEmpty hlist s hs
    have hpacked : (if strs = [] then [0] else pack 0 strs) ++ pack 0 (nonEmpty list) =
        if strs ++ nonEmpty list = [] then [0] else pack 0 (strs ++ nonEmpty list) := by
      rcases hor with hstrs | hnone
      · simp [hstrs]
      · rw [hnone]
        simp
    rw [hpacked] at hresult
    exact ⟨_, hresult, strListBlockLength_pack hstorable⟩

theorem strListAppendBlock_appends_two :
    Holds (0 : UInt8) [97, 0, 0, 7] [[97]] ∧ (∀ s ∈ (some [[], [98, 99]]).getD [], (0 : UInt8) ∉ s) ∧
      Appends (fun _ _ ↦ 5) [97, 0, 0, 7] [[97]] (some [[], [98, 99]]) := by
  have htext : Storable (0 : UInt8) [97] := ⟨by decide, by decide⟩
  have hblock : Holds (0 : UInt8) [97, 0, 0, 7] [[97]] := (holds_nil 0 [7]).cons htext
  have hlist : ∀ s ∈ (some [[], [98, 99]]).getD [], (0 : UInt8) ∉ s := by decide
  exact ⟨hblock, hlist,
    (strListAppendBlock_appends_iff _ hblock hlist).mpr (Or.inl (by decide))⟩

/-- The block without a string: the one string of the list is behind an empty one. -/
theorem strListAppendBlock_hides :
    Holds (0 : UInt8) [0] [] ∧ (∀ s ∈ (some [[97]]).getD [], (0 : UInt8) ∉ s) ∧
      ¬Appends (fun _ _ ↦ 0) [0] [] (some [[97]]) := by
  refine ⟨holds_nil 0 [], by decide, ?_⟩
  rintro ⟨result, happend, hholds, -⟩
  rw [strListAppendBlock_of_holds _ (holds_nil 0 [])] at happend
  obtain rfl := Option.some.inj happend
  exact absurd hholds.eq_nil (by decide)

/-! ## Copying -/

/-- A block without a string is copied with a byte behind its terminator, which may not be there. -/
theorem strListCopyBlock_isSome_iff (fresh : ℕ → ℕ → UInt8) (h : Holds 0 block strs) :
    (strListCopyBlock fresh (some block)).isSome ↔ strs ≠ [] ∨ 2 ≤ block.length := by
  have hle : strs ≠ [] → (pack 0 strs).length + 1 ≤ block.length := by
    obtain ⟨-, extra, rfl⟩ := h
    simp
  have hcopy : ∀ k ≤ block.length, (overwrite (malloc fresh k) 0 (block.take k)).isSome := by
    intro k hk
    rw [overwrite, if_pos (by simp [malloc, hk])]
    rfl
  rw [strListCopyBlock, strListBlockLength_of_holds h]
  by_cases hstrs : strs = []
  · by_cases hlen : 2 ≤ block.length
    · simpa [hstrs, hlen] using hcopy 2 hlen
    · simp [hstrs, hlen]
  · simpa [hstrs, hle hstrs] using hcopy _ (hle hstrs)

end Synchronet.Xpdev
