import Mathlib.Data.Nat.Basic
import Mathlib.Logic.Function.Iterate

/-!
# Checksums by shift registers

A register of `w` bits takes the bits of a message one by one.  Two messages that differ in at most
`w` bits next to each other leave different registers, whichever end the register takes them at.
-/

namespace Synchronet.ShiftRegister

/-- A bit enters at `place 0`; the ones behind it would stand at `place 1`, `place 2` and so on, and
move up by one with each turn. -/
structure Register (w : ℕ) where
  next : BitVec w → BitVec w
  place : ℕ → BitVec w
  bit : BitVec w → ℕ → Bool
  next_xor : ∀ x y, next (x ^^^ y) = next x ^^^ next y
  next_injective : Function.Injective next
  next_place : ∀ i, i + 1 < w → next (place (i + 1)) = place i
  bit_zero : ∀ i, bit 0#w i = false
  bit_xor : ∀ x y i, bit (x ^^^ y) i = (bit x i ^^ bit y i)
  bit_place : ∀ i j, i < w → bit (place i) j = decide (i = j)
  bit_ext : ∀ x y, (∀ i < w, bit x i = bit y i) → x = y

namespace Register

variable {w : ℕ} (R : Register w)

def enter (b : Bool) (i : ℕ) : BitVec w := if b then R.place i else 0#w

def feed : List Bool → BitVec w → BitVec w
  | [], r => r
  | b :: bs, r => feed bs (R.next (r ^^^ R.enter b 0))

/-- Some bits in their places, from `i` on. -/
def pack : List Bool → ℕ → BitVec w
  | [], _ => 0#w
  | b :: bs, i => R.enter b i ^^^ pack bs (i + 1)

theorem feed_append (a b : List Bool) (r : BitVec w) :
    R.feed (a ++ b) r = R.feed b (R.feed a r) := by
  induction a generalizing r with
  | nil => rfl
  | cons x a ih => exact ih _

theorem feed_injective (bs : List Bool) : Function.Injective (R.feed bs) := by
  induction bs with
  | nil => exact fun _ _ h ↦ h
  | cons b bs ih =>
      intro r s h
      have hnext := R.next_injective (ih h)
      simpa using congrArg (· ^^^ R.enter b 0) hnext

theorem iterate_xor (n : ℕ) (x y : BitVec w) :
    R.next^[n] (x ^^^ y) = R.next^[n] x ^^^ R.next^[n] y := by
  induction n generalizing x y with
  | zero => rfl
  | succ n ih => rw [Function.iterate_succ_apply, R.next_xor, ih, Function.iterate_succ_apply,
      Function.iterate_succ_apply]

theorem next_zero : R.next 0#w = 0#w := by
  have h := R.next_xor 0#w 0#w
  simpa using h

theorem next_enter (b : Bool) {i : ℕ} (hi : i + 1 < w) :
    R.next (R.enter b (i + 1)) = R.enter b i := by
  cases b with
  | false => simpa [enter] using R.next_zero
  | true => simpa [enter] using R.next_place i hi

theorem next_pack (bs : List Bool) {i : ℕ} (hi : i + 1 + bs.length ≤ w) :
    R.next (R.pack bs (i + 1)) = R.pack bs i := by
  induction bs generalizing i with
  | nil => exact R.next_zero
  | cons b bs ih =>
      rw [List.length_cons] at hi
      rw [pack, R.next_xor, R.next_enter b (by omega), ih (by omega), pack]

/-- Some bits are taken as if they had stood in the register. -/
theorem feed_eq_pack (bs : List Bool) (r : BitVec w) (hlen : bs.length ≤ w) :
    R.feed bs r = R.next^[bs.length] (r ^^^ R.pack bs 0) := by
  induction bs generalizing r with
  | nil => simp [feed, pack]
  | cons b bs ih =>
      rw [List.length_cons] at hlen
      have hpack : R.next (R.pack bs 1) = R.pack bs 0 := R.next_pack bs (by omega)
      rw [feed, ih _ (by omega), List.length_cons, Function.iterate_succ_apply, pack,
        ← BitVec.xor_assoc, R.next_xor (r ^^^ R.enter b 0), hpack]

theorem bit_enter (b : Bool) {i : ℕ} (hi : i < w) (j : ℕ) :
    R.bit (R.enter b i) j = (b && decide (i = j)) := by
  cases b with
  | false => simpa [enter] using R.bit_zero j
  | true => simpa [enter] using R.bit_place i j hi

theorem bit_pack (bs : List Bool) {i : ℕ} (hi : i + bs.length ≤ w) (j : ℕ) :
    R.bit (R.pack bs i) j = (decide (i ≤ j) && bs.getD (j - i) false) := by
  induction bs generalizing i with
  | nil => simp [pack, R.bit_zero]
  | cons b bs ih =>
      rw [List.length_cons] at hi
      rw [pack, R.bit_xor, R.bit_enter b (by omega), ih (by omega)]
      rcases Nat.lt_trichotomy j i with hj | rfl | hj
      · have hne : ¬ i = j := by omega
        have hle : ¬ i ≤ j := by omega
        have hle' : ¬ i + 1 ≤ j := by omega
        simp [hne, hle, hle']
      · have hle : ¬ j + 1 ≤ j := by omega
        simp [hle]
      · obtain ⟨k, rfl⟩ : ∃ k, j = i + 1 + k := ⟨j - (i + 1), by omega⟩
        have hne : ¬ i = i + 1 + k := by omega
        have hsub : i + 1 + k - i = k + 1 := by omega
        simp [hne, hsub, show i ≤ i + 1 + k by omega]

theorem pack_injective {a b : List Bool} (hlen : a.length = b.length) (hw : a.length ≤ w)
    (h : R.pack a 0 = R.pack b 0) : a = b := by
  apply List.ext_getElem hlen
  intro i hi hi'
  have ha := R.bit_pack a (i := 0) (by omega) i
  have hb := R.bit_pack b (i := 0) (by omega) i
  rw [h, hb] at ha
  simpa [hi, hi'] using ha.symm

/-- The bits of a register. -/
def bits (x : BitVec w) : List Bool := (List.range w).map (R.bit x)

theorem pack_bits (x : BitVec w) : R.pack (R.bits x) 0 = x := by
  apply R.bit_ext
  intro i hi
  rw [R.bit_pack _ (by simp [bits])]
  simp [bits, hi]

theorem feed_bits (x r : BitVec w) : R.feed (R.bits x) r = R.next^[w] (r ^^^ x) := by
  have hlen : (R.bits x).length = w := by simp [bits]
  rw [R.feed_eq_pack _ r (Nat.le_of_eq hlen), R.pack_bits, hlen]

end Register

/-- Two messages that differ in at most `n` bits next to each other. -/
def Burst (n : ℕ) (a b : List Bool) : Prop :=
  ∃ pre mid mid' post, a = pre ++ mid ++ post ∧ b = pre ++ mid' ++ post ∧
    mid.length = mid'.length ∧ mid.length ≤ n ∧ mid ≠ mid'

/-- A register tells such messages apart. -/
theorem Register.feed_burst {w : ℕ} (R : Register w) {a b : List Bool} (h : Burst w a b)
    (r : BitVec w) : R.feed a r ≠ R.feed b r := by
  obtain ⟨pre, mid, mid', post, rfl, rfl, hlen, hw, hne⟩ := h
  intro he
  rw [R.feed_append, R.feed_append, R.feed_append, R.feed_append] at he
  have hmid := R.feed_injective post he
  rw [R.feed_eq_pack mid _ hw, R.feed_eq_pack mid' _ (hlen ▸ hw), hlen] at hmid
  have hpack := (R.next_injective.iterate mid'.length) hmid
  have hpack' : R.pack mid 0 = R.pack mid' 0 := by
    simpa using congrArg (R.feed pre r ^^^ ·) hpack
  exact hne (R.pack_injective hlen hw hpack')

/-- What is left of a message with its own checksum behind it. -/
theorem Register.feed_check {w : ℕ} (R : Register w) (a : List Bool) (r k : BitVec w) :
    R.feed (a ++ R.bits (R.feed a r ^^^ k)) r = R.next^[w] k := by
  rw [R.feed_append, R.feed_bits, ← BitVec.xor_assoc, BitVec.xor_self, BitVec.zero_xor]

/-- A burst anywhere in a message and the checksum behind it is found by the checksum. -/
theorem Register.detects {w : ℕ} (R : Register w) {a b : List Bool} {c d r : BitVec w}
    (k : BitVec w) (h : Burst w (a ++ R.bits c) (b ++ R.bits d)) (hc : c = R.feed a r ^^^ k) :
    d ≠ R.feed b r ^^^ k := by
  intro hd
  apply R.feed_burst h r
  rw [hc, hd, R.feed_check, R.feed_check]

/-! ## Both directions -/

section

variable {w : ℕ} {p : BitVec w}

/-- What comes out of the register decides whether the polynomial is added. -/
theorem xor_mask_xor (x y : Bool) (u v : BitVec w) :
    (u ^^^ v) ^^^ (if (x ^^ y) = true then p else 0#w) =
      (u ^^^ if x = true then p else 0#w) ^^^ (v ^^^ if y = true then p else 0#w) := by
  have hcancel : (u ^^^ p) ^^^ (v ^^^ p) = u ^^^ v := by
    rw [BitVec.xor_assoc, ← BitVec.xor_assoc p v p, BitVec.xor_comm p v, BitVec.xor_assoc v p p,
      BitVec.xor_self, BitVec.xor_zero]
  cases x <;> cases y <;> simp [BitVec.xor_assoc, BitVec.xor_comm p, hcancel]

theorem getLsbD_mask (b : Bool) (i : ℕ) :
    (if b = true then p else 0#w).getLsbD i = (b && p.getLsbD i) := by
  cases b <;> simp

theorem eq_of_shiftLeft {x y : BitVec w} (h : x <<< 1 = y <<< 1) (hmsb : x.msb = y.msb) :
    x = y := by
  apply BitVec.eq_of_getLsbD_eq
  intro i hi
  by_cases hlast : i = w - 1
  · rw [hlast, ← BitVec.msb_eq_getLsbD_last, ← BitVec.msb_eq_getLsbD_last, hmsb]
  · have hbit := congrArg (·.getLsbD (i + 1)) h
    have hlt : i + 1 < w := by omega
    have hge : ¬ i + 1 < 1 := by omega
    simp only [BitVec.getLsbD_shiftLeft, hlt, hge, decide_true, decide_false, Bool.not_false,
      Bool.true_and, Nat.add_sub_cancel] at hbit
    exact hbit

theorem eq_of_ushiftRight {x y : BitVec w} (h : x >>> 1 = y >>> 1)
    (hlow : x.getLsbD 0 = y.getLsbD 0) : x = y := by
  apply BitVec.eq_of_getLsbD_eq
  intro i hi
  cases i with
  | zero => exact hlow
  | succ i =>
      have hbit := congrArg (·.getLsbD i) h
      simp only [BitVec.getLsbD_ushiftRight, Nat.add_comm 1 i] at hbit
      exact hbit

/-- The highest bit goes out first. -/
def msbFirst (p : BitVec w) (hp : p.getLsbD 0 = true) : Register w where
  next x := (x <<< 1) ^^^ if x.msb = true then p else 0#w
  place i := BitVec.twoPow w (w - 1 - i)
  bit x i := x.getMsbD i
  next_xor x y := by
    rw [BitVec.msb_xor, BitVec.shiftLeft_xor_distrib]
    exact xor_mask_xor _ _ _ _
  next_injective x y h := by
    have hmsb : x.msb = y.msb := by
      have hbit := congrArg (·.getLsbD 0) h
      simpa [getLsbD_mask, hp] using hbit
    refine eq_of_shiftLeft ?_ hmsb
    have hcancel := congrArg (· ^^^ if x.msb = true then p else 0#w) h
    simpa [hmsb, BitVec.xor_assoc] using hcancel
  next_place i hi := by
    have hmsb : (BitVec.twoPow w (w - 1 - (i + 1))).msb = false := by
      rw [BitVec.msb_twoPow]
      simp
      omega
    rw [hmsb, if_neg (by decide), BitVec.xor_zero]
    apply BitVec.eq_of_getLsbD_eq
    intro j hj
    rw [Bool.eq_iff_iff]
    simp [BitVec.getLsbD_twoPow]
    omega
  bit_zero i := by simp
  bit_xor x y i := by simp
  bit_place i j hi := by
    rw [BitVec.getMsbD_twoPow, Bool.eq_iff_iff]
    simp only [Bool.and_eq_true, decide_eq_true_eq]
    omega
  bit_ext x y h := BitVec.eq_of_getMsbD_eq h

/-- The lowest bit goes out first. -/
def lsbFirst (p : BitVec w) (hp : p.msb = true) : Register w where
  next x := (x >>> 1) ^^^ if x.getLsbD 0 = true then p else 0#w
  place i := BitVec.twoPow w i
  bit x i := x.getLsbD i
  next_xor x y := by
    rw [BitVec.getLsbD_xor, BitVec.ushiftRight_xor_distrib]
    exact xor_mask_xor _ _ _ _
  next_injective x y h := by
    have hlow : x.getLsbD 0 = y.getLsbD 0 := by
      rw [BitVec.msb_eq_getLsbD_last] at hp
      have hw : 0 < w := by
        by_contra hw
        simp [Nat.eq_zero_of_not_pos hw] at hp
      have hbit := congrArg (·.getLsbD (w - 1)) h
      have hout : ∀ z : BitVec w, z.getLsbD (1 + (w - 1)) = false :=
        fun z ↦ BitVec.getLsbD_of_ge z _ (by omega)
      simpa [getLsbD_mask, hp, hout] using hbit
    refine eq_of_ushiftRight ?_ hlow
    have hcancel := congrArg (· ^^^ if x.getLsbD 0 = true then p else 0#w) h
    simpa only [hlow, BitVec.xor_assoc, BitVec.xor_self, BitVec.xor_zero] using hcancel
  next_place i hi := by
    have hlow : (BitVec.twoPow w (i + 1)).getLsbD 0 = false := by
      rw [BitVec.getLsbD_twoPow]
      simp
    rw [hlow, if_neg (by decide), BitVec.xor_zero]
    apply BitVec.eq_of_getLsbD_eq
    intro j hj
    rw [Bool.eq_iff_iff]
    simp [BitVec.getLsbD_twoPow]
    omega
  bit_zero i := by simp
  bit_xor x y i := by simp
  bit_place i j hi := by
    rw [BitVec.getLsbD_twoPow]
    simp [hi]
  bit_ext x y h := BitVec.eq_of_getLsbD_eq h

/-- Nothing is added while zeros go out. -/
theorem iterate_lsbFirst (hp : p.msb = true) {n : ℕ} {x : BitVec w}
    (hx : ∀ i < n, x.getLsbD i = false) : (lsbFirst p hp).next^[n] x = x >>> n := by
  induction n generalizing x with
  | zero => rfl
  | succ n ih =>
      have hnext : (lsbFirst p hp).next x = x >>> 1 := by
        simp [lsbFirst, hx 0 (Nat.succ_pos n)]
      have hrest : ∀ i < n, (x >>> 1).getLsbD i = false := by
        intro i hi
        rw [BitVec.getLsbD_ushiftRight]
        exact hx _ (by omega)
      rw [Function.iterate_succ_apply, hnext, ih hrest, ← BitVec.shiftRight_add, Nat.add_comm]

end

end Synchronet.ShiftRegister
