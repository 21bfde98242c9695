import Synchronet.Sbbs3.WordWrap
import Mathlib.Tactic.Linarith

/-!
# Word wrap loses no text (wordwrap.c)

Without quotes and Ctrl-A codes only white space is dropped, and what is not white space stands
on the columns that a line has.  The line that is built keeps one column free.
-/

namespace Synchronet.Sbbs3.WordWrap

open Xpdev (Str)
open Smblib (isspace)

/-! ## Lines -/

/-- The characters that are not white space. -/
def ink (text : Str) : Str := text.filter fun c ↦ !isspace c

/-- A line with its ink on the first `n` columns. -/
structure Line (n : ℕ) (row : Str) : Prop where
  plain : ∀ c ∈ row, c ≠ 1 ∧ c ≠ 10 ∧ c ≠ 13
  ink : ∀ i c, row[i]? = some c → isspace c = false → i < n

variable {n : ℕ} {line front back seen : Str} {c : UInt8} {p : UInt8 → Bool} {w : Width}
  {s : State}

@[simp] theorem ink_append (a b : Str) : ink (a ++ b) = ink a ++ ink b := List.filter_append ..

theorem ink_of_isspace (h : isspace c = true) : ink [c] = [] := by simp [ink, h]

theorem ink_eq_nil (h : ∀ c ∈ line, isspace c = true) : ink line = [] := by
  rw [ink, List.filter_eq_nil_iff]
  intro c hc
  simp [h c hc]

theorem Line.mono {m : ℕ} (h : Line n line) (hle : n ≤ m) : Line m line :=
  ⟨h.plain, fun i c hi hc ↦ (h.ink i c hi hc).trans_le hle⟩

theorem Line.take (h : Line n line) (k : ℕ) : Line n (line.take k) where
  plain c hc := h.plain c (List.mem_of_mem_take hc)
  ink i c hi hc := by
    rw [List.getElem?_take] at hi
    split at hi
    · exact h.ink i c hi hc
    · cases hi

theorem Line.concat (h : Line n line) (hplain : c ≠ 1 ∧ c ≠ 10 ∧ c ≠ 13)
    (hink : isspace c = false → line.length < n) : Line n (line ++ [c]) where
  plain d hd := by
    rcases List.mem_append.mp hd with hd | hd
    · exact h.plain d hd
    · rw [List.mem_singleton.mp hd]
      exact hplain
  ink i d hi hd := by
    rcases Nat.lt_or_ge i line.length with hlt | hge
    · rw [List.getElem?_append_left hlt] at hi
      exact h.ink i d hi hd
    · rw [List.getElem?_append_right hge] at hi
      obtain ⟨hzero, rfl⟩ : i - line.length = 0 ∧ c = d := by
        rw [List.getElem?_singleton] at hi
        split at hi
        · next hzero => exact ⟨hzero, Option.some.inj hi⟩
        · cases hi
      have := hink hd
      omega

/-! ## Going back in a line -/

theorem backTo_le (p : UInt8 → Bool) (line : Str) (l : ℕ) : backTo p line l ≤ l := by
  induction l with
  | zero => exact le_rfl
  | succ l ih =>
      rw [backTo]
      split
      · exact le_rfl
      · exact ih.trans (Nat.le_succ l)

theorem backTo_pos {l : ℕ} (h : 0 < backTo p line l) :
    p (line.getD (backTo p line l) 0) = true := by
  induction l with
  | zero => exact absurd h (lt_irrefl 0)
  | succ l ih =>
      rw [backTo] at h ⊢
      split
      · next hp => exact hp
      · next hp =>
        rw [if_neg hp] at h
        exact ih h

theorem of_backTo_lt {l j : ℕ} (hlow : backTo p line l < j) (hhigh : j ≤ l) :
    p (line.getD j 0) = false := by
  induction l with
  | zero => omega
  | succ l ih =>
      rw [backTo] at hlow
      split at hlow
      · omega
      · next hp =>
        rcases Nat.lt_or_ge l j with hlt | hle
        · obtain rfl : j = l + 1 := by omega
          exact eq_false_of_ne_true hp
        · exact ih hlow hle

theorem getD_ne_one {row : Str} (h : ∀ c ∈ row, c ≠ 1) (i : ℕ) : row.getD i 0 ≠ 1 := by
  rw [List.getD_eq_getElem?_getD]
  cases hi : row[i]? with
  | none => decide
  | some c => exact h c (List.mem_of_getElem? hi)

theorem chopCodes_eq (h : ∀ c ∈ line, c ≠ 1) (k : ℕ) : chopCodes line k = k := by
  unfold chopCodes
  split
  · rw [if_neg fun hcode ↦ getD_ne_one h _ hcode.1]
  · rfl

theorem chop_eq (h : ∀ c ∈ line, c ≠ 1) (k : ℕ) : chop line k = k - 1 := by
  simp only [chop, chopCodes_eq h]
  rw [if_neg fun hcode ↦ getD_ne_one h _ hcode.2]

theorem columns_eq (h : ∀ c ∈ line, c ≠ 1) (stale : Str) : columns stale line = line.length := by
  induction line with
  | nil => rfl
  | cons c line ih =>
      obtain ⟨hc, hline⟩ := List.forall_mem_cons.mp h
      rw [columns, ih hline, List.length_cons, Nat.cast_succ]
      all_goals simp [hc]

/-! ## Wrapping -/

/-- The last character of a line is not white space. -/
def EndsDark (line : Str) : Prop := ∃ c ∈ line.getLast?, isspace c = false

theorem endsDark_of_getD {old : Str} (hne : old ≠ [])
    (h : isspace ((old ++ [c]).getD (old.length - 1) 0) = false) : EndsDark old := by
  have hpos := List.length_pos_iff.mpr hne
  have hget : (old ++ [c]).getD (old.length - 1) 0 = old.getLast hne := by
    rw [List.getD_eq_getElem?_getD, List.getElem?_append_left (by omega),
      ← List.getLast?_eq_getElem?, List.getLast?_eq_some_getLast hne]
    rfl
  exact ⟨_, List.getLast_mem_getLast? hne, hget ▸ h⟩

/-- The line is parted into what is written, white space, and the word that begins the next
line, unless it has no white space behind its first character and is written as a whole. -/
theorem wrap_parts {old : Str} (hline : s.line = old ++ [c]) (hc : isspace c = false)
    (hplain : ∀ d ∈ s.line, d ≠ 1) (hpre : s.prefixBytes = 0 ∧ s.prefixLen = 0) :
    ∃ kept gap word, s.line = kept ++ (gap ++ word) ∧ (∀ d ∈ gap, isspace d = true) ∧
      (wrap s).out = s.out ++ kept ++ [13, 10] ∧ (wrap s).line = word ∧
      (wrap s).ocol = word.length + 1 ∧
      (word = [] ∧ (old.length ≤ 1 ∨ EndsDark old) ∨
        kept.length ≤ old.length ∧ word.length ≤ old.length ∧
          (1 < word.length → EndsDark old)) := by
  have hlength : s.line.length = old.length + 1 := by
    rw [hline, List.length_append]
    rfl
  have hdark (j : ℕ) (hlow : backTo isspace s.line (s.line.length - 1) < j)
      (hhigh : j = old.length - 1) : EndsDark old := by
    have hne : old ≠ [] := by
      rintro rfl
      simp only [List.length_nil] at hhigh
      omega
    apply endsDark_of_getD (c := c) hne
    rw [← hline, ← hhigh]
    exact of_backTo_lt hlow (by omega)
  set m := backTo isspace s.line (s.line.length - 1) with hm
  set m' := if m = 0 then chop s.line s.line.length else m with hm'
  set r := backTo (fun c ↦ !isspace c) s.line m' with hr
  have hrle : r ≤ m' := backTo_le _ _ _
  have hword : ∀ d ∈ s.line.drop (m' + 1), d ≠ 1 := fun d hd ↦ hplain d (List.mem_of_mem_drop hd)
  refine ⟨s.line.take (r + 1), (s.line.take (m' + 1)).drop (r + 1), s.line.drop (m' + 1), ?_, ?_,
    rfl, ?_, ?_, ?_⟩
  · have hkept := List.take_append_drop (r + 1) (s.line.take (m' + 1))
    rw [List.take_take, Nat.min_eq_left (Nat.succ_le_succ hrle)] at hkept
    rw [← List.append_assoc, hkept, List.take_append_drop]
  · intro d hd
    obtain ⟨i, hi⟩ := List.mem_iff_getElem?.mp hd
    rw [List.getElem?_drop, List.getElem?_take] at hi
    split at hi
    · next hlt =>
      have hgap : (!isspace (s.line.getD (r + 1 + i) 0)) = false :=
        of_backTo_lt (p := fun c ↦ !isspace c) (by omega) (Nat.le_of_lt_succ hlt)
      rw [List.getD_eq_getElem?_getD, hi] at hgap
      simpa using hgap
    · cases hi
  · have hmoved : (wrap s).line = ((s.line ++ s.stale).take s.prefixBytes ++
        s.line.drop (m' + 1) ++ (s.line ++ s.stale).drop
          (s.prefixBytes + (s.line.drop (m' + 1)).length)).take
            (s.prefixBytes + (s.line.drop (m' + 1)).length) := rfl
    rw [hmoved, hpre.1, List.take_zero, List.nil_append, Nat.zero_add, List.take_left]
  · have hcol : (wrap s).ocol = s.prefixLen + 1 +
        columns (wrap s).stale (s.line.drop (m' + 1)) := rfl
    rw [hcol, columns_eq hword, hpre.2, Nat.cast_zero, zero_add, add_comm]
  · by_cases hzero : m = 0
    · have hchop : m' = old.length := by
        rw [hm', if_pos hzero, chop_eq hplain, hlength, Nat.add_sub_cancel]
      refine .inl ⟨?_, ?_⟩
      · rw [hchop, ← hlength, List.drop_length]
      · rcases Nat.lt_or_ge 1 old.length with hlt | hle
        · exact .inr (hdark (old.length - 1) (by omega) rfl)
        · exact .inl hle
    · have hspace : isspace (s.line.getD m 0) = true := backTo_pos (Nat.pos_of_ne_zero hzero)
      have hmle : m ≤ old.length := by
        have hle := backTo_le isspace s.line (s.line.length - 1)
        omega
      have hmne : m ≠ old.length := by
        intro heq
        rw [heq, hline, List.getD_eq_getElem?_getD, List.getElem?_concat_length] at hspace
        simp [hc] at hspace
      have hsame : m' = m := if_neg hzero
      refine .inr ⟨?_, ?_, ?_⟩
      · rw [List.length_take]
        omega
      · rw [List.length_drop]
        omega
      · intro hlong
        rw [List.length_drop] at hlong
        exact hdark (old.length - 1) (by omega) rfl

/-! ## What the loop keeps -/

/-- The output and the line that is built hold the ink that has been read. -/
structure Wrapped (n : ℕ) (seen : Str) (s : State) : Prop where
  noPrefix : s.prefixBytes = 0 ∧ s.prefixLen = 0 ∧ s.oldPrefixBytes = 0
  out : ∃ lines : List Str, s.out = lines.flatMap (· ++ [13, 10]) ∧ ∀ line ∈ lines, Line n line
  line : Line (n - 1) s.line
  ink : ink (s.out ++ s.line) = ink seen
  cols : (s.line.length : ℤ) + 1 ≤ s.ocol
  fits : EndsDark s.line → s.ocol ≤ n

variable {s' : State} {seen' : Str}

theorem endsDark_concat : EndsDark (line ++ [c]) ↔ isspace c = false := by
  simp [EndsDark]

/-- A character is added that still fits, or is white space. -/
theorem Wrapped.of_push (h : Wrapped n seen s) (hplain : c ≠ 1 ∧ c ≠ 10 ∧ c ≠ 13)
    (hseen : WordWrap.ink seen' = WordWrap.ink seen ++ WordWrap.ink [c])
    (hpre : s'.prefixBytes = 0 ∧ s'.prefixLen = 0 ∧ s'.oldPrefixBytes = 0)
    (hout : s'.out = s.out) (hline : s'.line = s.line ++ [c]) (hcol : s.ocol + 1 ≤ s'.ocol)
    (hfit : isspace c = false → s'.ocol ≤ n) : Wrapped n seen' s' where
  noPrefix := hpre
  out := by
    rw [hout]
    exact h.out
  line := by
    rw [hline]
    refine h.line.concat hplain fun hc ↦ ?_
    have hcols := h.cols
    have := hfit hc
    omega
  ink := by rw [hout, hline, ← List.append_assoc, ink_append, h.ink, hseen]
  cols := by
    have hcols := h.cols
    rw [hline, List.length_append, List.length_singleton]
    omega
  fits hdark := by
    rw [hline, endsDark_concat] at hdark
    exact hfit hdark

/-- The line is written, and another one begins. -/
theorem Wrapped.of_line {kept word : Str} (h : Wrapped n seen s) (hkept : Line n kept)
    (hword : Line (n - 1) word)
    (hseen : WordWrap.ink seen' = WordWrap.ink s.out ++ WordWrap.ink kept ++ WordWrap.ink word)
    (hpre : s'.prefixBytes = 0 ∧ s'.prefixLen = 0 ∧ s'.oldPrefixBytes = 0)
    (hout : s'.out = s.out ++ kept ++ [13, 10]) (hline : s'.line = word)
    (hcol : s'.ocol = word.length + 1) (hfit : EndsDark word → s'.ocol ≤ n) :
    Wrapped n seen' s' where
  noPrefix := hpre
  out := by
    obtain ⟨lines, hlines, hall⟩ := h.out
    refine ⟨lines ++ [kept], ?_, ?_⟩
    · rw [hout, hlines, List.flatMap_append, List.flatMap_singleton, List.append_assoc]
    · intro line hmem
      rcases List.mem_append.mp hmem with hmem | hmem
      · exact hall line hmem
      · rw [List.mem_singleton.mp hmem]
        exact hkept
  line := by
    rw [hline]
    exact hword
  ink := by
    have hends : WordWrap.ink [13, 10] = [] := by decide
    rw [hout, hline, ink_append, ink_append, ink_append, hends, List.append_nil, hseen]
  cols := by rw [hline, hcol]
  fits hdark := by
    rw [hline] at hdark
    exact hfit hdark

theorem Wrapped.putChar (hn : w.len.toInt = n) (hn2 : 2 ≤ n) (h : Wrapped n seen s)
    (hplain : c ≠ 1 ∧ c ≠ 10 ∧ c ≠ 13) : Wrapped n (seen ++ [c]) (putChar w s c) := by
  set s₁ : State := { s.push c with
    ocol := s.ocol + 1
    icol := s.icol + 1 } with hs₁
  have hput : WordWrap.putChar w s c =
      if w.len.toInt < s₁.ocol ∧ !isspace c then wrap s₁ else s₁ := rfl
  by_cases hwrap : w.len.toInt < s₁.ocol ∧ isspace c = false
  · obtain ⟨hlong, hc⟩ := hwrap
    have hall : ∀ d ∈ s₁.line, d ≠ 1 ∧ d ≠ 10 ∧ d ≠ 13 := by
      intro d hd
      rcases List.mem_append.mp hd with hd | hd
      · exact h.line.plain d hd
      · rw [List.mem_singleton.mp hd]
        exact hplain
    obtain ⟨kept, gap, word, hparts, hgap, hout, hline, hcol, hcases⟩ :=
      @wrap_parts _ s₁ s.line rfl hc (fun d hd ↦ (hall d hd).1)
        ⟨h.noPrefix.1, h.noPrefix.2.1⟩
    have hcols := h.cols
    have hroom (hdark : EndsDark s.line) : s.line.length + 1 ≤ n := by
      have hfits := h.fits hdark
      omega
    have hprefix : kept <+: s.line ++ [c] := ⟨gap ++ word, hparts.symm⟩
    have hkept : Line n kept := by
      rcases hcases with ⟨-, hwhole⟩ | ⟨hshort, -, -⟩
      · rw [List.prefix_iff_eq_take.mp hprefix]
        refine ((h.line.mono (Nat.sub_le n 1)).concat hplain fun _ ↦ ?_).take _
        rcases hwhole with hone | hdark
        · omega
        · exact hroom hdark
      · rw [List.prefix_iff_eq_take.mp hprefix, List.take_append_of_le_length hshort]
        exact (h.line.mono (Nat.sub_le n 1)).take _
    have hlength : word.length ≤ 1 ∨ word.length + 1 ≤ n := by
      rcases hcases with ⟨rfl, -⟩ | ⟨-, hle, hdark⟩
      · exact .inl (Nat.zero_le 1)
      · rcases Nat.lt_or_ge 1 word.length with hlt | hle'
        · have := hroom (hdark hlt)
          exact .inr (by omega)
        · exact .inl hle'
    have hword : Line (n - 1) word := by
      refine ⟨fun d hd ↦ hall d ?_, fun i d hi _ ↦ ?_⟩
      · rw [hparts]
        exact List.mem_append_right _ (List.mem_append_right _ hd)
      · obtain ⟨hlt, -⟩ := List.getElem?_eq_some_iff.mp hi
        omega
    have hseen : WordWrap.ink (seen ++ [c]) =
        WordWrap.ink s.out ++ WordWrap.ink kept ++ WordWrap.ink word := by
      have hinks := congrArg WordWrap.ink hparts
      have hline₁ : s₁.line = s.line ++ [c] := rfl
      rw [hline₁, ink_append, ink_append, ink_append, ink_eq_nil hgap, List.nil_append] at hinks
      rw [ink_append, ← h.ink, ink_append, List.append_assoc, hinks, List.append_assoc]
    rw [hput, if_pos ⟨hlong, by rw [hc]; rfl⟩]
    refine h.of_line hkept hword hseen h.noPrefix hout hline hcol fun _ ↦ ?_
    rw [hcol]
    omega
  · rw [hput, if_neg (by simpa using hwrap)]
    refine h.of_push hplain (ink_append _ _) h.noPrefix rfl rfl le_rfl fun hc ↦ ?_
    have hle := not_lt.mp fun hlt ↦ hwrap ⟨hlt, hc⟩
    rwa [hn] at hle

theorem Wrapped.of_flush (h : Wrapped n seen s) (hn2 : 2 ≤ n)
    (hseen : WordWrap.ink seen' = WordWrap.ink seen)
    (hpre : s'.prefixBytes = 0 ∧ s'.prefixLen = 0 ∧ s'.oldPrefixBytes = 0)
    (hout : s'.out = s.flush.out) (hline : s'.line = []) (hcol : s'.ocol = 1) :
    Wrapped n seen' s' := by
  refine h.of_line (h.line.mono (Nat.sub_le n 1)) ⟨by simp, by simp⟩ ?_ hpre ?_ hline
    (by rw [hcol]; rfl) fun _ ↦ by rw [hcol]; omega
  · rw [hseen, ← h.ink, ink_append]
    exact (List.append_nil _).symm
  · rw [hout]
    simp [State.flush, State.push]

/-- Four characters at the end of a line that is too long are white space. -/
theorem Wrapped.begin (hlimit : w.limit = 2 * n + 2) (hn2 : 2 ≤ n) (h : Wrapped n seen s) :
    ∃ s', begin w s = some s' ∧ Wrapped n seen s' := by
  have hicol : Wrapped n seen (if w.oldlen = 0 then { s with icol := -256 } else s) := by
    split
    · exact ⟨h.noPrefix, h.out, h.line, h.ink, h.cols, h.fits⟩
    · exact h
  simp only [WordWrap.begin]
  generalize (if w.oldlen = 0 then { s with icol := -256 } else s : State) = s₀ at hicol ⊢
  by_cases hlong : w.limit ≤ s₀.line.length
  · rw [if_pos hlong, if_neg (by omega)]
    refine ⟨_, rfl, ?_⟩
    set l := s₀.line.length - 4 with hl
    have hgone : ∀ c ∈ s₀.line.drop l, isspace c = true := by
      intro c hc
      obtain ⟨i, hi⟩ := List.mem_iff_getElem?.mp hc
      rw [List.getElem?_drop] at hi
      by_contra hdark
      have := hicol.line.ink _ c hi (eq_false_of_ne_true hdark)
      omega
    have htake : ∀ back, (s₀.line.take l ++ back).take l = s₀.line.take l := by
      intro back
      rw [List.take_left' (by rw [List.length_take]; omega)]
    refine ⟨hicol.noPrefix, hicol.out, ?_, ?_, ?_, ?_⟩
    · change Line (n - 1) ((s₀.line.take l ++ _).take l)
      rw [htake]
      exact hicol.line.take l
    · change WordWrap.ink (s₀.out ++ (s₀.line.take l ++ _).take l) = _
      have hwhole := congrArg WordWrap.ink (List.take_append_drop l s₀.line)
      rw [ink_append, ink_eq_nil hgone, List.append_nil] at hwhole
      rw [htake, ink_append, hwhole, ← ink_append, hicol.ink]
    · change (((s₀.line.take l ++ _).take l).length : ℤ) + 1 ≤ s₀.ocol
      have hcols := hicol.cols
      rw [htake, List.length_take]
      omega
    · change EndsDark ((s₀.line.take l ++ _).take l) → _
      rw [htake]
      rintro ⟨c, hc, hdark⟩
      rw [List.getLast?_take, if_neg (by omega), List.getElem?_eq_getElem (by omega),
        Option.some_or] at hc
      have hget : s₀.line[l - 1]? = some c := by
        rw [← hc]
        exact List.getElem?_eq_getElem _
      have := hicol.line.ink _ c hget hdark
      omega
  · rw [if_neg hlong]
    exact ⟨s₀, rfl, hicol⟩

theorem Wrapped.tab (h : Wrapped n seen s) : Wrapped n (seen ++ [9]) (tab s) := by
  have hspace : isspace 9 = true := by decide
  refine h.of_push (c := 9) (by decide) (ink_append _ _) h.noPrefix rfl rfl ?_ ?_
  · change s.ocol + 1 ≤ nextTab (s.ocol + 1)
    rw [nextTab]
    omega
  · intro hdark
    rw [hspace] at hdark
    cases hdark

theorem Wrapped.addSpace (h : Wrapped n seen s) : Wrapped n (seen ++ [10]) s.addSpace := by
  have hnl : WordWrap.ink (seen ++ [10]) = WordWrap.ink seen := by
    rw [ink_append, ink_of_isspace (by decide), List.append_nil]
  rw [State.addSpace]
  split
  · exact ⟨h.noPrefix, h.out, h.line, hnl ▸ h.ink, h.cols, h.fits⟩
  · have hspace : isspace 32 = true := by decide
    refine h.of_push (c := 32) (by decide) ?_ h.noPrefix rfl rfl le_rfl ?_
    · rw [hnl, ink_of_isspace hspace, List.append_nil]
    · intro hdark
      rw [hspace] at hdark
      cases hdark

theorem Wrapped.newline (hquotes : w.handleQuotes = false) (hn2 : 2 ≤ n) (h : Wrapped n seen s)
    (rest : Str) : Wrapped n (seen ++ [10]) (newline w s ⟨0, 0, 0⟩ [] rest) := by
  have hnl : WordWrap.ink (seen ++ [10]) = WordWrap.ink seen := by
    rw [ink_append, ink_of_isspace (by decide), List.append_nil]
  have hset (mem : Str) (k : ℕ) (hk : k = 0) : (s.flush.setLine mem k).line = [] := by
    rw [hk]
    rfl
  have hlen : (s.prefixLen : ℤ) + 1 = 1 := by rw [h.noPrefix.2.1]; rfl
  have hsame : samePrefix (s.pre.take s.oldPrefixBytes) [] = true := by
    rw [h.noPrefix.2.2, List.take_zero]
    rfl
  have hicol {s' : State} {i : ℤ} (h : Wrapped n (seen ++ [10]) s') :
      Wrapped n (seen ++ [10]) { s' with icol := i } :=
    ⟨h.noPrefix, h.out, h.line, h.ink, h.cols, h.fits⟩
  rw [WordWrap.newline]
  apply hicol
  have hhard : Wrapped n (seen ++ [10])
      { s.flush.setLine (s.flush.line ++ s.flush.stale) s.prefixBytes with
        ocol := s.prefixLen + 1 } :=
    h.of_flush hn2 hnl h.noPrefix rfl (hset (s.flush.line ++ s.flush.stale) _ h.noPrefix.1) hlen
  split
  · exact h.of_flush hn2 hnl h.noPrefix rfl (hset (s.flush.line ++ s.flush.stale) 0 rfl) rfl
  · rw [hsame, hquotes]
    simp only [Bool.not_true, Bool.false_eq_true, if_false]
    split
    · exact hhard
    · split
      · split
        · exact hhard
        · exact h.addSpace
      · exact h.addSpace

/-- A text without Ctrl-A, backspace and unit separator. -/
def PlainText (text : Str) : Prop := ∀ c ∈ text, c ≠ 1 ∧ c ≠ 8 ∧ c ≠ 31

theorem quoteOf_eq (hquotes : w.handleQuotes = false) (text : Str) :
    quoteOf w text = some ⟨0, 0, 0⟩ := by
  rw [quoteOf, hquotes]
  rfl

theorem firstPrefix_eq (hquotes : w.handleQuotes = false) (s : State) (q : Quote) (text : Str) :
    firstPrefix w s q text = s := by
  rw [firstPrefix, hquotes]
  rfl

theorem Wrapped.wrapLoop (hquotes : w.handleQuotes = false) (hn : w.len.toInt = n)
    (hlimit : w.limit = 2 * n + 2) (hn2 : 2 ≤ n) {text : Str} (h : Wrapped n seen s)
    (htext : PlainText text) :
    ∃ s', wrapLoop w s text = some s' ∧ Wrapped n (seen ++ text) s' := by
  induction text generalizing seen s with
  | nil => exact ⟨s, by rw [WordWrap.wrapLoop], by rwa [List.append_nil]⟩
  | cons c rest ih =>
      obtain ⟨⟨h1, h8, h31⟩, hrest⟩ := List.forall_mem_cons.mp htext
      obtain ⟨s₁, hbegin, hs₁⟩ := h.begin hlimit hn2
      have hnext {s₂ : State} (hs₂ : Wrapped n (seen ++ [c]) s₂) :
          ∃ s', WordWrap.wrapLoop w s₂ rest = some s' ∧ Wrapped n (seen ++ c :: rest) s' := by
        rw [List.append_cons]
        exact ih hs₂ hrest
      rw [WordWrap.wrapLoop, hbegin, Option.bind_eq_bind, Option.bind_some]
      by_cases hnl : c = 10
      · subst hnl
        rw [if_pos rfl, quoteOf_eq hquotes, Option.bind_eq_bind, Option.bind_some, hquotes]
        exact hnext (hs₁.newline hquotes hn2 rest)
      · rw [if_neg hnl]
        by_cases hcr : c = 13
        · rw [if_pos hcr]
          apply hnext
          have hink : WordWrap.ink (seen ++ [c]) = WordWrap.ink seen := by
            rw [hcr, ink_append, ink_of_isspace (by decide), List.append_nil]
          exact ⟨hs₁.noPrefix, hs₁.out, hs₁.line, hink ▸ hs₁.ink, hs₁.cols, hs₁.fits⟩
        · rw [if_neg hcr, if_neg h31, if_neg h8]
          by_cases htab : c = 9
          · subst htab
            rw [if_pos rfl]
            exact hnext hs₁.tab
          · rw [if_neg htab, if_neg h1]
            exact hnext (hs₁.putChar hn hn2 ⟨h1, hnl, hcr⟩)

/-! ## The text that is returned -/

/-- The ink of the text, on the first `n` columns of each line. -/
structure Wraps (n : ℕ) (text out : Str) : Prop where
  ink : ink out = ink text
  lines : ∀ row ∈ out.splitOn 10, ∀ i c, row[i]? = some c → isspace c = false → i < n

/-- The line end without its LF. -/
def CrEnd (cr : Str) : Prop := cr = [13] ∨ cr = []

theorem CrEnd.isspace {cr : Str} (h : CrEnd cr) : (∀ c ∈ cr, isspace c = true) ∧ 10 ∉ cr := by
  rcases h with rfl | rfl
  · exact ⟨by decide, by decide⟩
  · exact ⟨by simp, by simp⟩

theorem wraps_lines {cr text : Str} {lines : List Str} (hcr : CrEnd cr)
    (hlines : ∀ line ∈ lines, Line n line)
    (hink : ink (lines.flatMap (· ++ [13, 10])) = ink text) :
    Wraps n text (lines.flatMap (· ++ (cr ++ [10]))) where
  ink := by
    rw [← hink]
    clear hink
    induction lines with
    | nil => rfl
    | cons line lines ih =>
        have hend : WordWrap.ink (cr ++ [10]) = [] := by
          rw [ink_append, ink_eq_nil hcr.isspace.1]
          decide
        have hend' : WordWrap.ink [13, 10] = [] := by decide
        obtain ⟨-, hrest⟩ := List.forall_mem_cons.mp hlines
        rw [List.flatMap_cons, List.flatMap_cons, ink_append (line ++ _), ih hrest,
          ink_append line, hend, ink_append (line ++ _), ink_append line, hend']
  lines := by
    clear hink
    induction lines with
    | nil => simp
    | cons line lines ih =>
        obtain ⟨hline, hrest⟩ := List.forall_mem_cons.mp hlines
        have hnl : 10 ∉ line ++ cr := by
          intro hmem
          rcases List.mem_append.mp hmem with hmem | hmem
          · exact (hline.plain 10 hmem).2.1 rfl
          · exact hcr.isspace.2 hmem
        have hsplit : (line :: lines).flatMap (· ++ (cr ++ [10])) =
            line ++ cr ++ 10 :: lines.flatMap (· ++ (cr ++ [10])) := by
          rw [List.flatMap_cons]
          simp
        rw [hsplit, List.splitOn_append_cons_self, List.splitOn_eq_singleton hnl]
        intro l hl i c hi hdark
        rcases List.mem_append.mp hl with hl | hl
        · rw [List.mem_singleton.mp hl] at hi
          rcases Nat.lt_or_ge i line.length with hlt | hge
          · rw [List.getElem?_append_left hlt] at hi
            exact hline.ink i c hi hdark
          · rw [List.getElem?_append_right hge] at hi
            have hspace := hcr.isspace.1 c (List.mem_of_getElem? hi)
            rw [hdark] at hspace
            cases hspace
        · exact ih hrest l hl i c hi hdark

theorem stripCrs_append {line : Str} (h : 13 ∉ line) (rest : Str) :
    stripCrs (line ++ rest) = line ++ stripCrs rest := by
  induction line with
  | nil => rfl
  | cons c line ih =>
      obtain ⟨hc, hline⟩ := not_or.mp (mt List.mem_cons.mpr h)
      have hne : c ≠ 13 := fun heq ↦ hc heq.symm
      rw [List.cons_append, stripCrs, ih hline]
      · rfl
      all_goals simp [hne]

theorem stripCrs_lines {lines : List Str} (h : ∀ line ∈ lines, Line n line) :
    stripCrs (lines.flatMap (· ++ [13, 10])) = lines.flatMap (· ++ ([] ++ [10])) := by
  induction lines with
  | nil => rfl
  | cons line lines ih =>
      obtain ⟨hline, hrest⟩ := List.forall_mem_cons.mp h
      have hcr : 13 ∉ line := fun hmem ↦ (hline.plain 13 hmem).2.2 rfl
      rw [List.flatMap_cons, List.append_assoc, stripCrs_append hcr, List.flatMap_cons]
      have hend : stripCrs ([13, 10] ++ lines.flatMap (· ++ [13, 10])) =
          10 :: stripCrs (lines.flatMap (· ++ [13, 10])) := rfl
      rw [hend, ih hrest]
      simp

/-! ## The limit of the line buffer -/

theorem limit_eq (hn2 : 2 ≤ w.len.toInt) :
    w.limit = if w.len.toInt < 2 ^ 30 - 1 then 2 * w.len.toInt + 2
      else 2 * w.len.toInt + 2 - 2 ^ 32 := by
  have hlt : w.len.toInt < 2 ^ 31 := Int32.toInt_lt w.len
  have htwo : (2 : Int32).toInt = 2 := by decide
  rw [Width.limit, Int32.toInt_add, Int32.toInt_mul, htwo, Int.bmod_add_bmod]
  rw [Int.bmod_def]
  split <;> omega

/-- Where the limit is too low the first character writes before the line. -/
theorem wordwrap_overflow (hquotes : w.handleQuotes = false) (hlimit : w.limit ≤ 0)
    (linebuf pre rest : Str) : wordwrap w linebuf pre (c :: rest) = none := by
  have hnone (s : State) (hline : s.line = []) : begin w s = none := by
    simp only [begin]
    have hsame : (if w.oldlen = 0 then { s with icol := -256 } else s : State).line = [] := by
      split <;> exact hline
    rw [hsame, if_pos (by simpa using hlimit), if_pos (by decide)]
  have hloop : wrapLoop w ⟨[], [], linebuf, 1, 1, 0, 0 :: pre.drop 1, 0, 0, 0⟩ (c :: rest) =
      none := by
    rw [wrapLoop, hnone _ rfl]
    rfl
  have hskip : Quote.skip ⟨0, 0, 0⟩ = 0 := rfl
  simp only [wordwrap, quoteOf_eq hquotes, Option.bind_eq_bind, Option.bind_some,
    firstPrefix_eq hquotes, hskip, List.drop_zero, hloop, Option.bind_none]

theorem wordwrap_wraps (hquotes : w.handleQuotes = false) (hn : w.len.toInt = n) (hn2 : 2 ≤ n)
    (hlimit : w.limit = 2 * n + 2) (linebuf pre : Str) {text : Str} (htext : PlainText text) :
    ∃ out, wordwrap w linebuf pre text = some out ∧ Wraps n text out := by
  set s₀ : State := ⟨[], [], linebuf, 1, 1, 0, 0 :: pre.drop 1, 0, 0, 0⟩ with hs₀
  have hempty : Line (n - 1) s₀.line :=
    ⟨fun c hc ↦ absurd hc List.not_mem_nil, fun i c hi _ ↦ by cases hi⟩
  have hstart : Wrapped n [] s₀ :=
    ⟨⟨rfl, rfl, rfl⟩, ⟨[], rfl, by simp⟩, hempty, rfl, le_rfl, by rintro ⟨c, hc, -⟩; cases hc⟩
  obtain ⟨s, hloop, hs⟩ := hstart.wrapLoop hquotes hn hlimit hn2 htext
  obtain ⟨lines, hout, hlines, hink⟩ : ∃ lines : List Str,
      (if s.line = [] then s else s.flush).out = lines.flatMap (· ++ [13, 10]) ∧
        (∀ line ∈ lines, Line n line) ∧ ink (lines.flatMap (· ++ [13, 10])) = ink text := by
    obtain ⟨lines, hout, hlines⟩ := hs.out
    have hinks := hs.ink
    rw [List.nil_append] at hinks
    by_cases hnil : s.line = []
    · rw [if_pos hnil]
      rw [hnil, List.append_nil] at hinks
      exact ⟨lines, hout, hlines, hout ▸ hinks⟩
    · have hends : ink [13, 10] = [] := by decide
      refine ⟨lines ++ [s.line], ?_, ?_, ?_⟩
      · rw [if_neg hnil, List.flatMap_append, List.flatMap_singleton, ← hout]
        simp [State.flush, State.push]
      · intro line hmem
        rcases List.mem_append.mp hmem with hmem | hmem
        · exact hlines line hmem
        · rw [List.mem_singleton.mp hmem]
          exact hs.line.mono (Nat.sub_le n 1)
      · rw [List.flatMap_append, List.flatMap_singleton, ← hout, ← List.append_assoc, ink_append,
          hends, List.append_nil, hinks]
  have hresult : wordwrap w linebuf pre text =
      some (if s.crcount = 0 then stripCrs (lines.flatMap (· ++ [13, 10]))
        else lines.flatMap (· ++ [13, 10])) := by
    have hskip : Quote.skip ⟨0, 0, 0⟩ = 0 := rfl
    have hcount : (if s.line = [] then s else s.flush).crcount = s.crcount := by
      split <;> rfl
    simp only [wordwrap, quoteOf_eq hquotes, Option.bind_eq_bind, Option.bind_some, ← hs₀,
      firstPrefix_eq hquotes, hskip, List.drop_zero, hloop, hout, hcount]
    rfl
  refine ⟨_, hresult, ?_⟩
  split
  · rw [stripCrs_lines hlines]
    exact wraps_lines (.inr rfl) hlines hink
  · exact wraps_lines (.inl rfl) hlines hink

/-- `wordwrap` loses no text exactly when `len*2+2` is an `int`, or there is nothing to wrap. -/
theorem wordwrap_wraps_iff (w : Width) (hquotes : w.handleQuotes = false)
    (hn2 : 2 ≤ w.len.toInt) (linebuf pre text : Str) (htext : PlainText text) :
    (∃ out, wordwrap w linebuf pre text = some out ∧ Wraps w.len.toInt.toNat text out) ↔
      text = [] ∨ w.len.toInt < 2 ^ 30 - 1 := by
  have hlimit := limit_eq hn2
  by_cases hsmall : w.len.toInt < 2 ^ 30 - 1
  · rw [if_pos hsmall] at hlimit
    refine iff_of_true (wordwrap_wraps hquotes ?_ ?_ ?_ linebuf pre htext) (.inr hsmall) <;> omega
  · have hlt : w.len.toInt < 2 ^ 31 := Int32.toInt_lt w.len
    rw [if_neg hsmall] at hlimit
    cases text with
    | nil =>
        have hresult : wordwrap w linebuf pre [] = some [] := by
          simp [wordwrap, quoteOf_eq hquotes, firstPrefix_eq hquotes, wrapLoop, stripCrs]
        exact iff_of_true ⟨[], hresult, rfl, by simp⟩ (.inl rfl)
    | cons c rest =>
        rw [wordwrap_overflow hquotes (by omega)]
        refine iff_of_false ?_ ?_
        · rintro ⟨out, hout, -⟩
          cases hout
        · rintro (hnil | hlow)
          · cases hnil
          · exact hsmall hlow

theorem wordwrap_wraps_short : ∃ out, wordwrap ⟨79, 79, false⟩ [] [] [65, 32, 66] = some out ∧
    Wraps (79 : Int32).toInt.toNat [65, 32, 66] out :=
  (wordwrap_wraps_iff ⟨79, 79, false⟩ rfl (by decide) [] [] [65, 32, 66]
    (by simp [PlainText])).mpr (.inr (by decide))

/-- With `len*2+2` beyond an `int` the line is cut before its start. -/
theorem not_wordwrap_wraps : ¬ ∃ out,
    wordwrap ⟨1073741823, 79, false⟩ [] [] [65] = some out ∧
      Wraps (1073741823 : Int32).toInt.toNat [65] out := by
  rintro ⟨out, hout, -⟩
  rw [wordwrap_overflow rfl (by decide)] at hout
  cases hout

end Synchronet.Sbbs3.WordWrap
