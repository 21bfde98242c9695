import Synchronet.Smblib.Index
import Synchronet.Smblib.TimeSearch

/-!
# The new-scan pointer for a time (getmsg.cpp)

`sbbs_t::getmsgnum` bisects the index of a sub-board for the message behind which the messages
newer than a time begin.  A window of one record is not looked at any further, so that it
matters which end of the window the search stands at.
-/

namespace Synchronet.Sbbs3

open Smblib (IdxRec numbers times getElem?_times lt_below_times lt_upTo_times length_times)
open Bisect (Window below upTo)

/-- The loop of `getmsgnum`, for a number of rounds, with the record that was read last; `none`
when it has not ended. -/
def getmsgnumLoop (sid : List IdxRec) (t : ℤ) : ℕ → ℕ → ℕ → ℕ → IdxRec → Option UInt32
  | 0, _, _, _, _ => none
  | n + 1, bot, top, l, last =>
      match sid[l]? with
      | none => some last.number
      | some idx =>
          if bot + 1 = top then some idx.number
          else if t < idx.importTime then getmsgnumLoop sid t n bot l (bot + (l - bot) / 2) idx
          else if idx.importTime < t then getmsgnumLoop sid t n l top (top - (top - l) / 2) idx
          else some idx.number

/-- `sbbs_t::getmsgnum` for the index of the sub-board, with at most `n` rounds of its loop. -/
def getmsgnum (sid : List IdxRec) (t : ℤ) (n : ℕ) : Option UInt32 :=
  if t = 0 then some 0
  else
    match sid.getLast? with
    | none => some 0
    | some last =>
        if last.importTime ≤ t then some last.number
        else getmsgnumLoop sid t n 0 sid.length (sid.length / 2) last

/-- The offset at which the bisection stops when `k` records are older and the others newer. -/
def lastProbe (k : ℕ) : ℕ → ℕ → ℕ → ℕ → ℕ
  | 0, _, _, l => l
  | n + 1, bot, top, l =>
      if bot + 1 = top then l
      else if k ≤ l then lastProbe k n bot l (bot + (l - bot) / 2)
      else lastProbe k n l top (top - (top - l) / 2)

/-- A scan for messages above the number hides no newer message and repeats no older one. -/
def ScanPointer (sid : List IdxRec) (t : ℤ) (r : Option UInt32) : Prop :=
  ∃ p, r = some p ∧ ∀ idx ∈ sid,
    (t < idx.importTime → p < idx.number) ∧ (idx.importTime < t → idx.number ≤ p)

section Increasing

variable {sid : List IdxRec} {t : ℤ} {n bot top l i j : ℕ} {idx x y : IdxRec}
  (htimes : (times sid).Pairwise (· < ·)) (hnumbers : (numbers sid).Pairwise (· < ·))

include hnumbers in
theorem number_lt_iff (hx : sid[i]? = some x) (hy : sid[j]? = some y) :
    x.number < y.number ↔ i < j := by
  have hstrict : ∀ {a b : ℕ} {v w : IdxRec}, sid[a]? = some v → sid[b]? = some w → a < b →
      v.number < w.number := fun {a b v w} ha hb hab ↦ by
    obtain ⟨hla, rfl⟩ := List.getElem?_eq_some_iff.mp ha
    obtain ⟨hlb, rfl⟩ := List.getElem?_eq_some_iff.mp hb
    have := List.pairwise_iff_getElem.mp hnumbers a b (by simpa) (by simpa) hab
    simpa [numbers, UInt32.lt_iff_toNat_lt] using this
  rcases Nat.lt_trichotomy i j with hlt | rfl | hgt
  · exact iff_of_true (hstrict hx hy hlt) hlt
  · obtain rfl : x = y := Option.some.inj (hx.symm.trans hy)
    simp
  · have hnot := UInt32.lt_asymm (hstrict hy hx hgt)
    exact iff_of_false hnot (by omega)

include htimes hnumbers

/-- The number of the record at an offset is a pointer just if the older records end and the
newer ones begin around it. -/
theorem scanPointer_iff (hi : sid[i]? = some idx) :
    ScanPointer sid t (some idx.number) ↔
      (i < upTo (times sid) t ∨ upTo (times sid) t = sid.length) ∧
        below (times sid) t ≤ i + 1 := by
  have hs : (times sid).Pairwise (· ≤ ·) := htimes.imp le_of_lt
  have hlen := Bisect.upTo_le_length (times sid) t
  have hlow := Bisect.below_le_upTo (times sid) t
  rw [length_times] at hlen
  constructor
  · rintro ⟨p, hp, hall⟩
    obtain rfl := Option.some.inj hp
    constructor
    · by_contra hnot
      rw [not_or] at hnot
      have hlt : upTo (times sid) t < sid.length := by omega
      have hget := List.getElem?_eq_getElem hlt
      have hnew : t < (sid[upTo (times sid) t]).importTime :=
        not_le.mp (mt (lt_upTo_times hs hget).mpr (lt_irrefl _))
      have := (number_lt_iff hnumbers hi hget).mp ((hall _ (List.mem_of_getElem? hget)).1 hnew)
      omega
    · by_contra hnot
      have hlt : i + 1 < sid.length := by omega
      have hget := List.getElem?_eq_getElem hlt
      have hold := (lt_below_times hs hget).mp (not_le.mp hnot)
      have hle := (hall _ (List.mem_of_getElem? hget)).2 hold
      exact absurd ((number_lt_iff hnumbers hi hget).mpr (Nat.lt_succ_self i))
        (UInt32.not_lt.mpr hle)
  · rintro ⟨hup, hbelow⟩
    refine ⟨idx.number, rfl, fun x hx ↦ ?_⟩
    obtain ⟨j, hj⟩ := List.mem_iff_getElem?.mp hx
    have hjlt := (List.getElem?_eq_some_iff.mp hj).1
    constructor
    · intro hnew
      have := mt (lt_upTo_times hs hj).mp (not_le.mpr hnew)
      exact (number_lt_iff hnumbers hi hj).mpr (by omega)
    · intro hold
      have := (lt_below_times hs hj).mpr hold
      exact UInt32.not_lt.mp (mt (number_lt_iff hnumbers hi hj).mp (by omega))

omit hnumbers

/-- Without a record of the time itself the loop ends at the last probe of the halving. -/
theorem getmsgnumLoop_none (heq : below (times sid) t = upTo (times sid) t)
    (hnew : upTo (times sid) t < sid.length) (h : Window bot top l)
    (hbot : bot ≤ below (times sid) t) (htop : below (times sid) t ≤ top)
    (hlen : top ≤ sid.length)
    (hnarrow : bot + 1 = top → l = bot ∨ l = top ∧ bot < below (times sid) t)
    (hn : top - bot < n) :
    ∃ r idx, lastProbe (below (times sid) t) n bot top l = r ∧ sid[r]? = some idx ∧
      below (times sid) t ≤ r + 1 ∧ getmsgnumLoop sid t n bot top l x = some idx.number := by
  have hs : (times sid).Pairwise (· ≤ ·) := htimes.imp le_of_lt
  induction n generalizing bot top l x with
  | zero => omega
  | succ n ih =>
      have hlt := h.lt
      have hl : l < sid.length := by
        by_cases hwide : bot + 2 ≤ top
        · have := h.inside hwide
          omega
        · have := hnarrow (by omega)
          omega
      have hget := List.getElem?_eq_getElem hl
      have hlow := lt_below_times hs hget (t := t)
      have hup := lt_upTo_times hs hget (t := t)
      simp only [getmsgnumLoop, lastProbe, hget]
      by_cases hone : bot + 1 = top
      · rw [if_pos hone, if_pos hone]
        have := hnarrow hone
        exact ⟨l, _, rfl, hget, by omega, rfl⟩
      · have hin := h.inside (by omega)
        rw [if_neg hone, if_neg hone]
        by_cases hold : (sid[l]).importTime < t
        · have hlk := hlow.mpr hold
          rw [if_neg hold.asymm, if_pos hold, if_neg (by omega)]
          exact ih (h.upper hone) (by omega) htop hlen (by omega) (by omega)
        · have hkl := mt hlow.mp hold
          have hafter : t < (sid[l]).importTime := by
            by_contra hnot
            have := hup.mpr (not_lt.mp hnot)
            omega
          rw [if_pos hafter, if_pos (by omega)]
          exact ih (h.lower hone) hbot (by omega) (by omega) (by omega) (by omega)

/-- A record of the time itself is where the loop ends. -/
theorem getmsgnumLoop_hit (hlt : below (times sid) t < upTo (times sid) t)
    (h : Window bot top l) (hbot : bot ≤ below (times sid) t) (htop : below (times sid) t < top)
    (hlen : top ≤ sid.length)
    (hnarrow : bot + 1 = top → l = bot ∨ l = top ∧ bot < below (times sid) t)
    (hn : top - bot < n) :
    ∃ idx, sid[below (times sid) t]? = some idx ∧
      getmsgnumLoop sid t n bot top l x = some idx.number := by
  have hs : (times sid).Pairwise (· ≤ ·) := htimes.imp le_of_lt
  have hk : below (times sid) t < sid.length := by omega
  have hgetk := List.getElem?_eq_getElem hk
  have htime : (sid[below (times sid) t]).importTime = t :=
    le_antisymm ((lt_upTo_times hs hgetk).mp hlt)
      (not_lt.mp (mt (lt_below_times hs hgetk).mpr (lt_irrefl _)))
  induction n generalizing bot top l x with
  | zero => omega
  | succ n ih =>
      have hwin := h.lt
      have hl : l < sid.length := by
        by_cases hwide : bot + 2 ≤ top
        · have := h.inside hwide
          omega
        · have := hnarrow (by omega)
          omega
      have hget := List.getElem?_eq_getElem hl
      have hlow := lt_below_times hs hget (t := t)
      simp only [getmsgnumLoop, hget]
      by_cases hone : bot + 1 = top
      · obtain rfl : l = below (times sid) t := by
          have := hnarrow hone
          omega
        rw [if_pos hone]
        exact ⟨_, hgetk, rfl⟩
      · have hin := h.inside (by omega)
        rw [if_neg hone]
        by_cases hold : (sid[l]).importTime < t
        · have hlk := hlow.mpr hold
          rw [if_neg hold.asymm, if_pos hold]
          exact ih (h.upper hone) (by omega) htop hlen (by omega) (by omega)
        · have hkl := mt hlow.mp hold
          rw [if_neg hold]
          by_cases hafter : t < (sid[l]).importTime
          · have hne : l ≠ below (times sid) t := by
              rintro rfl
              exact absurd htime hafter.ne'
            rw [if_pos hafter]
            exact ih (h.lower hone) hbot (by omega) (by omega) (by omega) (by omega)
          · obtain rfl : l = below (times sid) t := by
              have hsame : (times sid)[l]? = (times sid)[below (times sid) t]? := by
                rw [getElem?_times hget, getElem?_times hgetk, htime,
                  le_antisymm (not_lt.mp hafter) (not_lt.mp hold)]
              have hnodup : (times sid).Nodup := htimes.imp ne_of_lt
              exact (List.getElem?_inj (by simpa) hnodup).mp hsame
            rw [if_neg hafter]
            exact ⟨_, hgetk, rfl⟩

include hnumbers

end Increasing

/-- Two records of the times 10 and 20 with the numbers 1 and 2. -/
def twoTimes : List IdxRec := [{ time := 10, number := 1 }, { time := 20, number := 2 }]

end Synchronet.Sbbs3
