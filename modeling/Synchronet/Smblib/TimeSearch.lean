import Synchronet.Lib.Bisect
import Synchronet.Smblib.Defs

/-!
# Looking up a message by its time (smblib.c)

`smb_getmsgidx_by_time` halves the index to find where the messages begin that were imported at
a time or after it, and stops as soon as it comes across a message of that very time.
-/

namespace Synchronet.Smblib

open Bisect (below upTo)

/-- `(time_t)idx.time`. -/
def IdxRec.importTime (idx : IdxRec) : ℤ := idx.time.toNat

/-- What `smb_getmsgidx_by_time` returns, with the record that it stores through `match`. -/
inductive ByTime
  | badParameter
  | error (code : Code)
  | success (matchOffset : ℕ) (idx : IdxRec)
  deriving DecidableEq

/-- The loop of `smb_getmsgidx_by_time`, for a number of rounds; `none` when it has not ended. -/
def byTimeLoop (sid : List IdxRec) (t : ℤ) : ℕ → ℕ → ℕ → ℕ → IdxRec → Option ByTime
  | 0, _, _, _, _ => none
  | n + 1, bot, top, matchOffset, found =>
      if bot ≤ top then
        let idxOffset := (bot + top) / 2
        match sid[idxOffset]? with
        | none => some (.error .errRead)
        | some idx =>
            if idx.importTime < t then byTimeLoop sid t n (idxOffset + 1) top matchOffset found
            else if t < idx.importTime ∧ 0 < idxOffset then
              byTimeLoop sid t n bot (idxOffset - 1) idxOffset idx
            else some (.success idxOffset idx)
      else some (.success matchOffset found)

/-- `smb_getmsgidx_by_time`, with at most `n` rounds of its loop. -/
def smbGetmsgidxByTime (sid : List IdxRec) (t : ℤ) (n : ℕ) : Option ByTime :=
  if t ≤ 0 then some .badParameter
  else
    match sid.getLast? with
    | none => some (.error .errNotFound)
    | some idx =>
        if idx.importTime < t then some (.error .errNotFound)
        else byTimeLoop sid t n 0 (sid.length - 1) (sid.length - 1) idx

/-- The first record that the halving comes across between the offsets `a` and `b`. -/
def firstHit (a b : ℕ) : ℕ → ℕ → ℕ → Option ℕ
  | 0, _, _ => none
  | n + 1, bot, top =>
      let idxOffset := (bot + top) / 2
      if idxOffset < a then firstHit a b n (idxOffset + 1) top
      else if b ≤ idxOffset then firstHit a b n bot (idxOffset - 1)
      else some idxOffset

/-- The times of the records. -/
def times (sid : List IdxRec) : List ℤ := sid.map IdxRec.importTime

/-- The first record of the time or a later one, or none if all are older. -/
def FoundByTime (sid : List IdxRec) (t : ℤ) (r : Option ByTime) : Prop :=
  (∃ i idx, r = some (.success i idx) ∧ sid[i]? = some idx ∧ t ≤ idx.importTime ∧
      ∀ j < i, ∀ x, sid[j]? = some x → x.importTime < t) ∨
    r = some (.error .errNotFound) ∧ ∀ idx ∈ sid, idx.importTime < t

section Sorted

variable {sid : List IdxRec} {t : ℤ} {n bot top i : ℕ} {idx : IdxRec}
  (hs : (times sid).Pairwise (· ≤ ·))

theorem getElem?_times (h : sid[i]? = some idx) : (times sid)[i]? = some idx.importTime := by
  rw [times, List.getElem?_map, h, Option.map_some]

@[simp] theorem length_times (sid : List IdxRec) : (times sid).length = sid.length :=
  List.length_map _

include hs

theorem lt_below_times (h : sid[i]? = some idx) : i < below (times sid) t ↔ idx.importTime < t :=
  Bisect.lt_below_iff hs (getElem?_times h)

theorem lt_upTo_times (h : sid[i]? = some idx) : i < upTo (times sid) t ↔ idx.importTime ≤ t :=
  Bisect.lt_upTo_iff hs (getElem?_times h)

/-- The record behind the older ones is found by a loop that comes across no record of the time
itself. -/
theorem byTimeLoop_none (heq : below (times sid) t = upTo (times sid) t) {matchOffset : ℕ}
    (hbot : bot ≤ below (times sid) t) (htop : top < sid.length)
    (hfound : sid[matchOffset]? = some idx) (hmatch : below (times sid) t ≤ matchOffset)
    (hnext : matchOffset = top ∨ matchOffset = top + 1) (hn : top + 1 - bot < n) :
    ∃ idx', sid[below (times sid) t]? = some idx' ∧
      byTimeLoop sid t n bot top matchOffset idx =
        some (.success (below (times sid) t) idx') := by
  induction n generalizing bot top matchOffset idx with
  | zero => omega
  | succ n ih =>
      rw [byTimeLoop]
      by_cases hle : bot ≤ top
      · have hmid : (bot + top) / 2 < sid.length := by omega
        have hget := List.getElem?_eq_getElem hmid
        have hlow := lt_below_times hs hget (t := t)
        have hup := lt_upTo_times hs hget (t := t)
        rw [if_pos hle]
        simp only [hget]
        by_cases hold : (sid[(bot + top) / 2]).importTime < t
        · rw [if_pos hold]
          exact ih (by omega) htop hfound hmatch hnext (by omega)
        · have hafter : t < (sid[(bot + top) / 2]).importTime := by
            by_contra hnot
            have := hup.mpr (not_lt.mp hnot)
            have := mt hlow.mp hold
            omega
          rw [if_neg hold]
          by_cases hzero : 0 < (bot + top) / 2
          · rw [if_pos ⟨hafter, hzero⟩]
            have := mt hlow.mp hold
            exact ih hbot (by omega) hget (by omega) (by omega) (by omega)
          · rw [if_neg fun h ↦ hzero h.2]
            have hmidzero : below (times sid) t = (bot + top) / 2 := by
              have := mt hlow.mp hold
              omega
            rw [hmidzero]
            exact ⟨_, hget, rfl⟩
      · rw [if_neg hle]
        obtain rfl : matchOffset = below (times sid) t := by omega
        exact ⟨idx, hfound, rfl⟩

/-- Where there are records of the time itself the loop ends at the first of them that it comes
across. -/
theorem byTimeLoop_hit (hlt : below (times sid) t < upTo (times sid) t) {matchOffset : ℕ}
    (hbot : bot ≤ below (times sid) t) (htop : top < sid.length)
    (hlast : upTo (times sid) t ≤ top + 1) (hn : top + 1 - bot < n) :
    ∃ r idx', firstHit (below (times sid) t) (upTo (times sid) t) n bot top = some r ∧
      sid[r]? = some idx' ∧ below (times sid) t ≤ r ∧
      byTimeLoop sid t n bot top matchOffset idx = some (.success r idx') := by
  induction n generalizing bot top matchOffset idx with
  | zero => omega
  | succ n ih =>
      have hmid : (bot + top) / 2 < sid.length := by omega
      have hget := List.getElem?_eq_getElem hmid
      have hlow := lt_below_times hs hget (t := t)
      have hup := lt_upTo_times hs hget (t := t)
      have hle : bot ≤ top := by omega
      simp only [byTimeLoop, firstHit, if_pos hle, hget, hlow]
      by_cases hold : (sid[(bot + top) / 2]).importTime < t
      · rw [if_pos hold, if_pos hold]
        exact ih (by have := hlow.mpr hold; omega) htop hlast (by omega)
      · have hge := mt hlow.mp hold
        rw [if_neg hold, if_neg hold]
        by_cases hafter : t < (sid[(bot + top) / 2]).importTime
        · have hb : upTo (times sid) t ≤ (bot + top) / 2 := by
            have := mt hup.mp (not_le.mpr hafter)
            omega
          rw [if_pos hb, if_pos ⟨hafter, by omega⟩]
          exact ih hbot (by omega) (by omega) (by omega)
        · have hb := hup.mpr (not_lt.mp hafter)
          rw [if_neg (by omega), if_neg fun h ↦ hafter h.1]
          exact ⟨_, _, rfl, hget, by omega, rfl⟩

theorem foundByTime_below (h : sid[below (times sid) t]? = some idx) :
    FoundByTime sid t (some (.success (below (times sid) t) idx)) := by
  refine .inl ⟨_, idx, rfl, h, not_lt.mp fun hlt ↦ ?_, fun j hj x hx ↦ ?_⟩
  · exact lt_irrefl _ ((lt_below_times hs h).mpr hlt)
  · exact (lt_below_times hs hx).mp hj

omit hs in
theorem below_eq_upTo_of_old (h : ∀ idx ∈ sid, idx.importTime < t) :
    below (times sid) t = upTo (times sid) t := by
  refine List.countP_congr fun x hx ↦ ?_
  obtain ⟨idx, hidx, rfl⟩ := List.mem_map.mp hx
  simp [h idx hidx, (h idx hidx).le]

end Sorted

end Synchronet.Smblib
