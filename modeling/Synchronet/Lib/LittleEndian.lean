import Mathlib.Data.List.TakeDrop
import Mathlib.Data.Nat.Basic
import Mathlib.Tactic.Ring

/-!
# Little-endian numbers and packed records

`le w n` are the `w` low-order bytes of `n`, least significant first.  A packed
record is the concatenation of such numbers, and `field bs o w` reads the number
of `w` bytes at byte `o` back.
-/

namespace Synchronet.LittleEndian

def le : ℕ → ℕ → List UInt8
  | 0, _ => []
  | w + 1, n => UInt8.ofNat n :: le w (n / 256)

def ofLe : List UInt8 → ℕ
  | [] => 0
  | b :: bs => b.toNat + 256 * ofLe bs

/-- The number stored in the `w` bytes at byte `o` of a record. -/
def field (bs : List UInt8) (o w : ℕ) : ℕ := ofLe ((bs.drop o).take w)

@[simp] theorem length_le (w n : ℕ) : (le w n).length = w := by
  induction w generalizing n with
  | zero => rfl
  | succ w ih => simp [le, ih]

theorem ofLe_le (w n : ℕ) : ofLe (le w n) = n % 256 ^ w := by
  induction w generalizing n with
  | zero => simp [le, ofLe, Nat.mod_one]
  | succ w ih =>
      have hlow : n % 2 ^ 8 = n % 256 := rfl
      rw [le, ofLe, ih, UInt8.toNat_ofNat', hlow, Nat.pow_succ', Nat.mod_mul]

theorem ofLe_lt (bs : List UInt8) : ofLe bs < 256 ^ bs.length := by
  induction bs with
  | nil => simp [ofLe]
  | cons b bs ih =>
      have hb : b.toNat < 256 := UInt8.toNat_lt b
      rw [ofLe, List.length_cons, Nat.pow_succ]
      omega

/-- The first number of a record. -/
theorem field_zero (w n : ℕ) (rest : List UInt8) :
    field (le w n ++ rest) 0 w = n % 256 ^ w := by
  rw [field, List.drop_zero, List.take_left' (length_le w n), ofLe_le]

/-- Numbers behind the first one. -/
theorem field_skip (w n : ℕ) (rest : List UInt8) (o w' : ℕ) (h : w ≤ o) :
    field (le w n ++ rest) o w' = field rest (o - w) w' := by
  rw [field, field, List.drop_append, List.drop_eq_nil_of_le (by simpa using h), List.nil_append,
    length_le]

theorem field_append (bs rest : List UInt8) (o w : ℕ) (h : o + w ≤ bs.length) :
    field (bs ++ rest) o w = field bs o w := by
  rw [field, field, List.drop_append_of_le_length (by omega),
    List.take_append_of_le_length (by rw [List.length_drop]; omega)]

@[simp] theorem ofNat_toNat_mod_uint16 (x : UInt16) : UInt16.ofNat (x.toNat % 256 ^ 2) = x := by
  have hx : x.toNat < 256 ^ 2 := UInt16.toNat_lt x
  rw [Nat.mod_eq_of_lt hx, UInt16.ofNat_toNat]

@[simp] theorem ofNat_toNat_mod_uint32 (x : UInt32) : UInt32.ofNat (x.toNat % 256 ^ 4) = x := by
  have hx : x.toNat < 256 ^ 4 := UInt32.toNat_lt x
  rw [Nat.mod_eq_of_lt hx, UInt32.ofNat_toNat]

/-- The signed 32-bit number at the start of a piece of memory. -/
def int32At (mem : ℕ → UInt8) : ℤ := (Int32.ofNat (ofLe [mem 0, mem 1, mem 2, mem 3])).toInt

/-! ## Words of four bytes -/

/-- The file that holds the given 32-bit words. -/
def packWords : List UInt32 → List UInt8
  | [] => []
  | w :: ws => le 4 w.toNat ++ packWords ws

/-- The words of a file; an incomplete word at its end is left out. -/
def unpackWords : List UInt8 → List UInt32
  | a :: b :: c :: d :: bs => UInt32.ofNat (ofLe [a, b, c, d]) :: unpackWords bs
  | _ => []

@[simp] theorem length_packWords (ws : List UInt32) : (packWords ws).length = 4 * ws.length := by
  induction ws with
  | nil => rfl
  | cons w ws ih =>
      rw [packWords, List.length_append, length_le, ih, List.length_cons]
      omega

@[simp] theorem packWords_append (vs ws : List UInt32) :
    packWords (vs ++ ws) = packWords vs ++ packWords ws := by
  induction vs with
  | nil => rfl
  | cons v vs ih => rw [List.cons_append, packWords, ih, packWords, List.append_assoc]

@[simp] theorem unpackWords_packWords (ws : List UInt32) : unpackWords (packWords ws) = ws := by
  induction ws with
  | nil => rfl
  | cons w ws ih =>
      have hw : UInt32.ofNat (ofLe (le 4 w.toNat)) = w := by
        rw [ofLe_le, ofNat_toNat_mod_uint32]
      rw [packWords]
      simp only [le, List.cons_append, List.nil_append, unpackWords, ih] at hw ⊢
      rw [hw]

/-- A word at a word boundary is one of the words. -/
theorem mem_unpackWords_append {bs : List UInt8} (h : bs.length % 4 = 0) (w : UInt32) :
    w ∈ unpackWords (bs ++ le 4 w.toNat) := by
  induction bs using unpackWords.induct with
  | case1 a b c d bs ih =>
      have hlen : bs.length % 4 = 0 := by
        simp only [List.length_cons] at h
        omega
      exact List.mem_cons_of_mem _ (ih hlen)
  | case2 bs hshort =>
      have hnil : bs = [] := by
        rcases bs with _ | ⟨a, _ | ⟨b, _ | ⟨c, _ | ⟨d, bs⟩⟩⟩⟩
        · rfl
        · simp at h
        · simp at h
        · simp at h
        · exact (hshort a b c d bs rfl).elim
      have hw := unpackWords_packWords [w]
      rw [packWords, packWords, List.append_nil] at hw
      rw [hnil, List.nil_append, hw]
      exact List.mem_singleton_self w

end Synchronet.LittleEndian
