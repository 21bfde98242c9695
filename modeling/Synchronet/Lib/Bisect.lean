import Mathlib.Data.List.Nodup
import Mathlib.Order.Basic
import Mathlib.Order.Lattice

/-!
# A bisection with asymmetric halves

The search keeps a window `[bot, top)` and a probe `l`.  After a probe that is too
large the new probe is half a window above `bot`, after one that is too small half
a window below `top`; it gives up when the window has one entry left.  When the
window shrinks to one entry from below, the probe is `top` itself, outside the
window.
-/

namespace Synchronet.Bisect

variable {κ : Type*} [LinearOrder κ]

/-- The search for `k`, for a number of probes: `none` when it has not ended, and
otherwise the position found, if any. -/
def bisect (keys : List κ) (k : κ) : ℕ → ℕ → ℕ → ℕ → Option (Option ℕ)
  | 0, _, _, _ => none
  | n + 1, bot, top, l =>
      match keys[l]? with
      | none => some none
      | some x =>
          if bot + 1 = top ∧ x ≠ k then some none
          else if k < x then bisect keys k n bot l (bot + (l - bot) / 2)
          else if x < k then bisect keys k n l top (top - (top - l) / 2)
          else some (some l)

attribute [local simp] bisect

/-- The probe lies inside a window of two or more entries, and at one end of a
window of one. -/
structure Window (bot top l : ℕ) : Prop where
  lt : bot < top
  inside : bot + 2 ≤ top → bot < l ∧ l < top
  narrow : bot + 1 = top → l = bot ∨ l = top

theorem Window.start {n : ℕ} (hn : 0 < n) : Window 0 n (n / 2) :=
  ⟨hn, by omega, by omega⟩

theorem Window.lower {bot top l : ℕ} (h : Window bot top l) (hwide : bot + 1 ≠ top) :
    Window bot l (bot + (l - bot) / 2) := by
  have hlt := h.lt
  have hin := h.inside (by omega)
  exact ⟨hin.1, by omega, by omega⟩

theorem Window.upper {bot top l : ℕ} (h : Window bot top l) (hwide : bot + 1 ≠ top) :
    Window l top (top - (top - l) / 2) := by
  have hlt := h.lt
  have hin := h.inside (by omega)
  exact ⟨hin.2, by omega, by omega⟩

/-- The search ends whatever the keys are. -/
theorem bisect_ends (keys : List κ) (k : κ) {n bot top l : ℕ} (h : Window bot top l)
    (hn : top - bot < n) : ∃ r, bisect keys k n bot top l = some r := by
  induction n generalizing bot top l with
  | zero => omega
  | succ n ih =>
      rw [bisect]
      split
      · exact ⟨none, rfl⟩
      · rename_i x hx
        split
        · exact ⟨none, rfl⟩
        · rename_i hstop
          by_cases hxk : x = k
          · subst hxk
            exact ⟨some l, by simp⟩
          · have hwide : bot + 1 ≠ top := fun heq ↦ hstop ⟨heq, hxk⟩
            have hlt := h.lt
            have hin := h.inside (by omega)
            rcases lt_or_gt_of_ne hxk with hlow | hhigh
            · rw [if_neg hlow.asymm, if_pos hlow]
              exact ih (h.upper hwide) (by omega)
            · rw [if_pos hhigh]
              exact ih (h.lower hwide) (by omega)

/-- A position that is found holds the key. -/
theorem getElem?_of_bisect (keys : List κ) (k : κ) {n bot top l i : ℕ}
    (h : bisect keys k n bot top l = some (some i)) : keys[i]? = some k := by
  induction n generalizing bot top l with
  | zero => simp [bisect] at h
  | succ n ih =>
      rw [bisect] at h
      split at h
      · simp at h
      · rename_i x hx
        split at h
        · simp at h
        · split at h
          · exact ih h
          · rename_i hle
            split at h
            · exact ih h
            · rename_i hge
              cases h
              rw [hx, le_antisymm (not_lt.mp hle) (not_lt.mp hge)]

theorem lt_of_getElem?_lt {keys : List κ} (hs : keys.Pairwise (· < ·)) {i j : ℕ} {a b : κ}
    (hi : keys[i]? = some a) (hj : keys[j]? = some b) (hab : a < b) : i < j := by
  obtain ⟨hi', rfl⟩ := List.getElem?_eq_some_iff.mp hi
  obtain ⟨hj', rfl⟩ := List.getElem?_eq_some_iff.mp hj
  rcases Nat.lt_trichotomy i j with hlt | heq | hgt
  · exact hlt
  · subst heq
    exact absurd hab (lt_irrefl _)
  · exact absurd (List.pairwise_iff_getElem.mp hs j i hj' hi' hgt) hab.asymm

/-- Among strictly increasing keys the search finds a key that its window holds. -/
theorem bisect_of_getElem? {keys : List κ} (hs : keys.Pairwise (· < ·)) {k : κ}
    {n bot top l i : ℕ} (hi : keys[i]? = some k) (h : Window bot top l)
    (hlo : bot ≤ i) (hhi : i < top) (hnarrow : bot + 1 = top → l = bot)
    (htop : top ≤ keys.length) (hn : top - bot < n) :
    bisect keys k n bot top l = some (some i) := by
  induction n generalizing bot top l with
  | zero => omega
  | succ n ih =>
      have hlt := h.lt
      have hl : l < keys.length := by
        by_cases hwide : bot + 2 ≤ top
        · have := h.inside hwide
          omega
        · have := hnarrow (by omega)
          omega
      rw [bisect, List.getElem?_eq_getElem hl]
      dsimp only
      have hget := List.getElem?_eq_getElem hl
      by_cases hlk : keys[l] = k
      · have hil : i = l := by
          obtain ⟨hi', hik⟩ := List.getElem?_eq_some_iff.mp hi
          have hnodup : keys.Nodup := hs.imp ne_of_lt
          exact (List.Nodup.getElem_inj_iff hnodup).mp (hik.trans hlk.symm)
        subst hil
        simp [hlk]
      · have hwide : bot + 1 ≠ top := by
          intro heq
          have hil : i = l := by have := hnarrow heq; omega
          subst hil
          rw [hget] at hi
          exact hlk (Option.some.inj hi)
        have hin := h.inside (by omega)
        rw [if_neg (fun hstop ↦ hwide hstop.1)]
        rcases lt_or_gt_of_ne hlk with hlow | hhigh
        · rw [if_neg hlow.asymm, if_pos hlow]
          have hli := lt_of_getElem?_lt hs hget hi hlow
          exact ih (h.upper hwide) (by omega) hhi (by omega) htop (by omega)
        · rw [if_pos hhigh]
          have hil := lt_of_getElem?_lt hs hi hget hhigh
          exact ih (h.lower hwide) hlo hil (by omega) (by omega) (by omega)

/-! ## Counting keys -/

/-- How many keys are less than `k`. -/
def below (keys : List κ) (k : κ) : ℕ := keys.countP (· < k)

/-- How many keys are at most `k`. -/
def upTo (keys : List κ) (k : κ) : ℕ := keys.countP (· ≤ k)

theorem below_le_upTo (keys : List κ) (k : κ) : below keys k ≤ upTo keys k :=
  List.countP_mono_left fun x _ hx ↦ by simpa using (by simpa using hx : x < k).le

theorem upTo_le_length (keys : List κ) (k : κ) : upTo keys k ≤ keys.length :=
  List.countP_le_length

/-- In a sorted list the members that pass a test which is downward closed come first. -/
theorem lt_countP_iff {keys : List κ} (hs : keys.Pairwise (· ≤ ·)) {p : κ → Bool}
    (hp : ∀ x y, x ≤ y → p y = true → p x = true) {i : ℕ} {x : κ} (hi : keys[i]? = some x) :
    i < keys.countP p ↔ p x = true := by
  induction keys generalizing i with
  | nil => simp at hi
  | cons y keys ih =>
      obtain ⟨hy, hs⟩ := List.pairwise_cons.mp hs
      cases i with
      | zero =>
          obtain rfl : y = x := by simpa using hi
          constructor
          · intro hpos
            obtain ⟨z, hz, hpz⟩ := List.countP_pos_iff.mp hpos
            rcases List.mem_cons.mp hz with rfl | hz
            · exact hpz
            · exact hp y z (hy z hz) hpz
          · intro hpy
            exact List.countP_pos_iff.mpr ⟨y, List.mem_cons_self .., hpy⟩
      | succ i =>
          have hx : keys[i]? = some x := by simpa using hi
          by_cases hpy : p y = true
          · rw [List.countP_cons_of_pos hpy, Nat.succ_lt_succ_iff]
            exact ih hs hx
          · have hpx : p x ≠ true := fun h ↦ hpy (hp y x (hy x (List.mem_of_getElem? hx)) h)
            have hzero : keys.countP p = 0 := by
              rw [List.countP_eq_zero]
              intro z hz hpz
              exact hpy (hp y z (hy z hz) hpz)
            rw [List.countP_cons_of_neg hpy, hzero]
            simp [hpx]

theorem lt_below_iff {keys : List κ} (hs : keys.Pairwise (· ≤ ·)) {k x : κ} {i : ℕ}
    (hi : keys[i]? = some x) : i < below keys k ↔ x < k := by
  rw [below, lt_countP_iff hs _ hi]
  · simp
  · intro y z hyz hz
    simpa using lt_of_le_of_lt hyz (by simpa using hz)

theorem lt_upTo_iff {keys : List κ} (hs : keys.Pairwise (· ≤ ·)) {k x : κ} {i : ℕ}
    (hi : keys[i]? = some x) : i < upTo keys k ↔ x ≤ k := by
  rw [upTo, lt_countP_iff hs _ hi]
  · simp
  · intro y z hyz hz
    simpa using le_trans hyz (by simpa using hz)

end Synchronet.Bisect
