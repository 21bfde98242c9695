import Mathlib.Data.Nat.Bitwise
import Mathlib.Data.List.Flatten

/-!
# Groups of bits

Numbers with the same count of bits each, one after another, are read as numbers with another
count of bits.  A register keeps the bits that are left over until enough of them have come.
-/

namespace Synchronet.BitGroups

/-- The `k` low bits of a number, the highest one first. -/
def bits : ℕ → ℕ → List Bool
  | 0, _ => []
  | k + 1, n => n.testBit k :: bits k n

/-- The bits of several numbers with `k` bits each. -/
def spread (k : ℕ) (items : List ℕ) : List Bool := items.flatMap (bits k)

variable {a b k m n n' : ℕ} {xs ys items : List ℕ} {u v : List Bool}

@[simp] theorem length_bits (k n : ℕ) : (bits k n).length = k := by
  induction k with
  | zero => rfl
  | succ k ih => simp [bits, ih]

/-- The high bits and then the low ones. -/
theorem bits_add (m k n : ℕ) : bits (m + k) n = bits m (n / 2 ^ k) ++ bits k n := by
  induction m with
  | zero => simp [bits]
  | succ m ih =>
      rw [Nat.succ_add, bits, bits, ih, Nat.testBit_div_two_pow]
      rfl

theorem bits_eq_iff : bits k n = bits k n' ↔ ∀ i < k, n.testBit i = n'.testBit i := by
  induction k with
  | zero => simp [bits]
  | succ k ih =>
      rw [bits, bits, List.cons.injEq, ih]
      constructor
      · rintro ⟨hhigh, hlow⟩ i hi
        obtain hi | rfl := Nat.lt_succ_iff_lt_or_eq.mp hi
        · exact hlow i hi
        · exact hhigh
      · intro h
        exact ⟨h k (Nat.lt_succ_self k), fun i hi ↦ h i (hi.trans (Nat.lt_succ_self k))⟩

/-- Higher bits do not count. -/
theorem bits_mod (h : k ≤ m) (n : ℕ) : bits k (n % 2 ^ m) = bits k n := by
  apply bits_eq_iff.mpr
  intro i hi
  simp [Nat.testBit_mod_two_pow, hi.trans_le h]

theorem mod_eq_of_bits (h : bits k n = bits k n') : n % 2 ^ k = n' % 2 ^ k := by
  apply Nat.eq_of_testBit_eq
  intro i
  rw [Nat.testBit_mod_two_pow, Nat.testBit_mod_two_pow]
  by_cases hi : i < k
  · simp [hi, bits_eq_iff.mp h i hi]
  · simp [hi]

theorem bits_zero (k : ℕ) : bits k 0 = List.replicate k false := by
  induction k with
  | zero => rfl
  | succ k ih => simp [bits, ih, List.replicate_succ]

/-- A digit behind what a register holds. -/
theorem bits_push (h : n < 2 ^ k) (m w : ℕ) :
    bits (m + k) (w * 2 ^ k + n) = bits m w ++ bits k n := by
  have hpos : 0 < 2 ^ k := Nat.two_pow_pos k
  have hdiv : (w * 2 ^ k + n) / 2 ^ k = w := by
    rw [Nat.mul_comm, Nat.mul_add_div hpos, Nat.div_eq_of_lt h, Nat.add_zero]
  have hmod : bits k (w * 2 ^ k + n) = bits k n := by
    rw [← bits_mod (le_refl k), Nat.mul_comm, Nat.mul_add_mod, bits_mod (le_refl k)]
  rw [bits_add, hdiv, hmod]

@[simp] theorem spread_nil (k : ℕ) : spread k [] = [] := rfl

@[simp] theorem spread_cons (k n : ℕ) (items : List ℕ) :
    spread k (n :: items) = bits k n ++ spread k items := rfl

/-- The numbers and what is left behind them are determined by the bits. -/
theorem spread_inj (hxs : ∀ x ∈ xs, x < 2 ^ k) (hys : ∀ y ∈ ys, y < 2 ^ k)
    (hu : u.length < k) (hv : v.length < k) (h : spread k xs ++ u = spread k ys ++ v) :
    xs = ys ∧ u = v := by
  induction xs generalizing ys with
  | nil =>
      cases ys with
      | nil => exact ⟨rfl, h⟩
      | cons y ys =>
          have hlen := congrArg List.length h
          simp at hlen
          omega
  | cons x xs ih =>
      obtain ⟨hx, hxs⟩ := List.forall_mem_cons.mp hxs
      cases ys with
      | nil =>
          have hlen := congrArg List.length h
          simp at hlen
          omega
      | cons y ys =>
          obtain ⟨hy, hys⟩ := List.forall_mem_cons.mp hys
          rw [spread_cons, spread_cons, List.append_assoc, List.append_assoc] at h
          obtain ⟨hfirst, hrest⟩ := List.append_inj h (by simp)
          have hxy := mod_eq_of_bits hfirst
          rw [Nat.mod_eq_of_lt hx, Nat.mod_eq_of_lt hy] at hxy
          obtain ⟨rfl, huv⟩ := ih hxs hys hrest
          exact ⟨by rw [hxy], huv⟩

/-! ## A register -/

/-- Digits with `a` bits go into a register with `m` bits, of which `count` have not been used,
and as soon as there are `b` of them a number comes out.  The numbers, the register and the count
at the end. -/
def regroup (a b m : ℕ) : ℕ → ℕ → List ℕ → List ℕ × ℕ × ℕ
  | w, count, [] => ([], w, count)
  | w, count, n :: items =>
      let w := (w * 2 ^ a + n) % 2 ^ m
      if b ≤ count + a then
        let r := regroup a b m w (count + a - b) items
        (w / 2 ^ (count + a - b) % 2 ^ b :: r.1, r.2)
      else regroup a b m w (count + a) items

/-- No bit is lost: what came out and what is left are what was there and what came in. -/
theorem spread_regroup (hab : a ≤ b) (hm : a + b ≤ m) (w count : ℕ) (hcount : count < b)
    (hitems : ∀ n ∈ items, n < 2 ^ a) :
    (regroup a b m w count items).2.2 < b ∧
      spread b (regroup a b m w count items).1 ++
          bits (regroup a b m w count items).2.2 (regroup a b m w count items).2.1 =
        bits count w ++ spread a items := by
  induction items generalizing w count with
  | nil => exact ⟨hcount, by simp [regroup]⟩
  | cons n items ih =>
      obtain ⟨hn, hitems⟩ := List.forall_mem_cons.mp hitems
      have hpush : bits (count + a) ((w * 2 ^ a + n) % 2 ^ m) = bits count w ++ bits a n := by
        rw [bits_mod (by omega), bits_push hn]
      rw [regroup]
      dsimp only
      split
      · case isTrue hfull =>
          obtain ⟨hleft, hbits⟩ := ih ((w * 2 ^ a + n) % 2 ^ m) (count + a - b)
            (by omega) hitems
          refine ⟨hleft, ?_⟩
          have hsplit : count + a = b + (count + a - b) := by omega
          rw [hsplit, bits_add] at hpush
          rw [spread_cons, bits_mod (le_refl b), List.append_assoc, hbits, ← List.append_assoc,
            hpush, spread_cons, List.append_assoc]
      · case isFalse hfull =>
          obtain ⟨hleft, hbits⟩ := ih ((w * 2 ^ a + n) % 2 ^ m) (count + a) (by omega) hitems
          exact ⟨hleft, by rw [hbits, hpush, spread_cons, List.append_assoc]⟩

end Synchronet.BitGroups
