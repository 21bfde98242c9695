import Mathlib.Data.Nat.Digits.Defs
import Synchronet.Lib.Words
import Synchronet.Smblib.Defs
import Synchronet.Xpdev.Genwrap

/-!
# The chat password of a node (userdat.c)

`packchatpass` puts up to eight characters into five bits each: the high byte of `aux` and the
double word `extaux` together hold the number whose digits to the base 32 they are.
-/

namespace Synchronet.Sbbs3

open Nat (ofDigits)
open Smblib (cstr)
open Xpdev (Str)

/-- The fields of `node_t` for the password. -/
structure ChatNode where
  aux : UInt16
  extaux : UInt32

/-- `pass[i]-64` -/
def chatCode (c : UInt8) : ℤ := c.toInt8.toInt - 64

/-- The 3rd character through the last. -/
def packRest : ℕ → Str → UInt32 → UInt32
  | _, [], extaux => extaux
  | bits, c :: pass, extaux =>
      packRest (bits + 5) pass (extaux ||| UInt32.ofInt (chatCode c * 2 ^ bits))

def packchatpass (pass : Str) (node : ChatNode) : ChatNode :=
  let node : ChatNode := { aux := node.aux &&& 0x00ff, extaux := 0 }
  match pass with
  | [] => node
  | c :: pass =>
      let node := { node with aux := node.aux ||| UInt16.ofInt (chatCode c * 2 ^ 8) }
      match pass with
      | [] => node
      | c :: pass =>
          { aux := node.aux ||| UInt16.ofInt (chatCode c * 2 ^ 13),
            extaux := packRest 2 pass (node.extaux ||| UInt32.ofInt (chatCode c / 2 ^ 3)) }

/-- The codes in `pass` before they become letters again. -/
def unpackCodes (node : ChatNode) : List UInt8 :=
  [((node.aux &&& 0x1f00) >>> 8).toUInt8,
    (((node.aux &&& 0xe000) >>> 13).toUInt32 ||| (node.extaux &&& 0x3) <<< 3).toUInt8] ++
  (List.range 6).map fun i ↦ ((node.extaux >>> UInt32.ofNat (2 + 5 * i)) &&& 0x1f).toUInt8

/-- The nine bytes that `unpackchatpass` writes to `pass`. -/
def unpackchatpass (node : ChatNode) : List UInt8 :=
  (unpackCodes node).map (fun c ↦ if c = 0 then 0 else c + 64) ++ [0]

/-! ## Digits -/

variable {b k n : ℕ} {ds : List ℕ}

theorem ofDigits_div_mod (hds : ∀ d ∈ ds, d < b) (i : ℕ) :
    ofDigits b ds / b ^ i % b = ds.getD i 0 := by
  induction ds generalizing i with
  | nil => simp
  | cons d ds ih =>
      obtain ⟨hd, hds⟩ := List.forall_mem_cons.mp hds
      have hpos : 0 < b := Nat.zero_lt_of_lt hd
      rw [Nat.ofDigits_cons]
      cases i with
      | zero => simpa using Nat.mod_eq_of_lt hd
      | succ i =>
          have hdiv : (d + b * ofDigits b ds) / b = ofDigits b ds := by
            rw [Nat.add_mul_div_left _ _ hpos, Nat.div_eq_of_lt hd, Nat.zero_add]
          rw [pow_succ', ← Nat.div_div_eq_div_mul, hdiv, ih hds]
          rfl

/-! ## Packing -/

variable {c : UInt8} {pass : Str} {node : ChatNode}

/-- What `packchatpass` takes for a letter. -/
def ChatLetter (c : UInt8) : Prop := 65 ≤ c ∧ c ≤ 95

/-- The five bits of a letter. -/
def chatDigit (c : UInt8) : ℕ := c.toNat - 64

theorem chatCode_letter (h : ChatLetter c) :
    chatCode c = chatDigit c ∧ 1 ≤ chatDigit c ∧ chatDigit c < 32 ∧
      UInt8.ofNat (chatDigit c) + 64 = c :=
  Words.forall_uint8 (p := fun c ↦ 65 ≤ c ∧ c ≤ 95 → chatCode c = chatDigit c ∧
    1 ≤ chatDigit c ∧ chatDigit c < 32 ∧ UInt8.ofNat (chatDigit c) + 64 = c)
    (by decide +kernel) c h

/-- Higher bits are added. -/
theorem or_eq_add {x : ℕ} (hx : x < 2 ^ k) (n : ℕ) : x ||| n * 2 ^ k = x + 2 ^ k * n := by
  rw [Nat.or_comm, Nat.mul_comm, ← Nat.two_pow_add_eq_or_of_lt hx, Nat.add_comm]

theorem toNat_or_ofInt32 {x : UInt32} (hx : x.toNat < 2 ^ k) (hn : n * 2 ^ k < 2 ^ 32) :
    (x ||| UInt32.ofInt ((n : ℤ) * 2 ^ k)).toNat = x.toNat + 2 ^ k * n := by
  have hint : (UInt32.ofInt ((n : ℤ) * 2 ^ k)).toNat = n * 2 ^ k := by
    rw [UInt32.ofInt, UInt32.toNat_ofNat']
    norm_cast
    omega
  rw [UInt32.toNat_or, hint, or_eq_add hx]

theorem toNat_or_ofInt16 {x : UInt16} (hx : x.toNat < 2 ^ k) (hk : k ≤ 16) (n : ℕ) :
    (x ||| UInt16.ofInt ((n : ℤ) * 2 ^ k)).toNat = x.toNat + 2 ^ k * (n % 2 ^ (16 - k)) := by
  have hpow : 2 ^ 16 = 2 ^ (16 - k) * 2 ^ k := by rw [← pow_add, Nat.sub_add_cancel hk]
  have hint : (UInt16.ofInt ((n : ℤ) * 2 ^ k)).toNat = n % 2 ^ (16 - k) * 2 ^ k := by
    have hcast : (n : ℤ) * 2 ^ k % 2 ^ 16 = ((n * 2 ^ k % 2 ^ 16 : ℕ) : ℤ) := by norm_cast
    rw [UInt16.ofInt, UInt16.toNat_ofNat', hcast, Int.toNat_natCast, Nat.mod_mod, hpow,
      Nat.mul_mod_mul_right]
  rw [UInt16.toNat_or, hint, or_eq_add hx]

theorem packRest_toNat {bits : ℕ} {extaux : UInt32} (hpass : ∀ c ∈ pass, ChatLetter c)
    (hext : extaux.toNat < 2 ^ bits) (hbits : bits + 5 * pass.length ≤ 32) :
    (packRest bits pass extaux).toNat =
      extaux.toNat + 2 ^ bits * ofDigits 32 (pass.map chatDigit) := by
  induction pass generalizing bits extaux with
  | nil => simp [packRest]
  | cons c pass ih =>
      obtain ⟨hc, hpass⟩ := List.forall_mem_cons.mp hpass
      obtain ⟨hcode, -, hlt, -⟩ := chatCode_letter hc
      rw [List.length_cons] at hbits
      have hroom : chatDigit c * 2 ^ bits < 2 ^ (bits + 5) := by
        rw [pow_add, Nat.mul_comm]
        exact Nat.mul_lt_mul_of_pos_left hlt (Nat.two_pow_pos bits)
      have hword : 2 ^ (bits + 5) ≤ 2 ^ 32 := Nat.pow_le_pow_right (by decide) (by omega)
      have hstep := toNat_or_ofInt32 hext (hroom.trans_le hword)
      have hnext : extaux.toNat + 2 ^ bits * chatDigit c < 2 ^ (bits + 5) := by
        rw [pow_add]
        nlinarith
      rw [packRest, hcode, ih hpass (by rw [hstep]; exact hnext) (by omega), hstep, List.map_cons,
        Nat.ofDigits_cons, pow_add]
      ring

/-- The number that a password is. -/
def chatNumber (pass : Str) : ℕ := ofDigits 32 (pass.map chatDigit)

theorem toNat_low (x : UInt16) : (x &&& 0x00ff).toNat = x.toNat % 2 ^ 8 := by
  rw [UInt16.toNat_and, show (0x00ff : UInt16).toNat = 2 ^ 8 - 1 from rfl,
    Nat.and_two_pow_sub_one_eq_mod]

theorem packchatpass_toNat (hpass : ∀ c ∈ pass, ChatLetter c) (hlen : pass.length ≤ 8)
    (node : ChatNode) :
    (packchatpass pass node).aux.toNat =
        node.aux.toNat % 2 ^ 8 + 2 ^ 8 * (chatNumber pass % 2 ^ 8) ∧
      (packchatpass pass node).extaux.toNat = chatNumber pass / 2 ^ 8 := by
  have hlow := toNat_low node.aux
  match pass with
  | [] => exact ⟨by simpa [packchatpass, chatNumber] using hlow, by simp [packchatpass, chatNumber]⟩
  | [c] =>
      obtain ⟨hcode, -, hlt, -⟩ := chatCode_letter (hpass c List.mem_cons_self)
      have hfirst := toNat_or_ofInt16 (x := node.aux &&& 0x00ff) (k := 8) (by omega) (by decide)
        (chatDigit c)
      simp only [packchatpass, chatNumber, hcode, hfirst, hlow, List.map_cons, List.map_nil,
        Nat.ofDigits_singleton]
      exact ⟨trivial, by rw [Nat.div_eq_of_lt (by omega)]; rfl⟩
  | c :: d :: pass =>
      obtain ⟨hc, hpass⟩ := List.forall_mem_cons.mp hpass
      obtain ⟨hd, hpass⟩ := List.forall_mem_cons.mp hpass
      obtain ⟨hcode, -, hlt, -⟩ := chatCode_letter hc
      obtain ⟨hcode', -, hlt', -⟩ := chatCode_letter hd
      rw [List.length_cons, List.length_cons] at hlen
      have hfirst := toNat_or_ofInt16 (x := node.aux &&& 0x00ff) (k := 8) (by omega) (by decide)
        (chatDigit c)
      have hsecond := toNat_or_ofInt16
        (x := node.aux &&& 0x00ff ||| UInt16.ofInt ((chatDigit c : ℤ) * 2 ^ 8)) (k := 13)
        (by omega) (by decide) (chatDigit d)
      have hhigh : ((0 : UInt32) ||| UInt32.ofInt ((chatDigit d : ℤ) / 2 ^ 3)).toNat =
          chatDigit d / 2 ^ 3 := by
        have hint := toNat_or_ofInt32 (x := 0) (k := 0) (n := chatDigit d / 2 ^ 3) (by decide)
          (by omega)
        simpa using hint
      have hrest : (packRest 2 pass (0 ||| UInt32.ofInt ((chatDigit d : ℤ) / 2 ^ 3))).toNat =
          (0 ||| UInt32.ofInt ((chatDigit d : ℤ) / 2 ^ 3)).toNat +
            2 ^ 2 * ofDigits 32 (pass.map chatDigit) :=
        packRest_toNat hpass (by omega) (by omega)
      simp only [packchatpass, chatNumber, hcode, hcode', hsecond, hfirst, hlow, hrest, hhigh,
        List.map_cons, Nat.ofDigits_cons]
      omega

/-! ## Unpacking -/

theorem toNat_and_shift16 (x m : UInt16) (hk : k < 16) {w : ℕ}
    (hm : m.toNat >>> k = 2 ^ w - 1) :
    ((x &&& m) >>> UInt16.ofNat k).toNat = x.toNat / 2 ^ k % 2 ^ w := by
  have hshift : (UInt16.ofNat k).toNat % 16 = k := by
    rw [UInt16.toNat_ofNat_of_lt' (by omega : k < 2 ^ 16)]
    omega
  rw [UInt16.toNat_shiftRight, hshift, UInt16.toNat_and, Nat.shiftRight_and_distrib, hm,
    Nat.and_two_pow_sub_one_eq_mod, Nat.shiftRight_eq_div_pow]

theorem toNat_shift_and32 (x : UInt32) (hk : k < 32) :
    ((x >>> UInt32.ofNat k) &&& 0x1f).toNat = x.toNat / 2 ^ k % 2 ^ 5 := by
  have hshift : (UInt32.ofNat k).toNat % 32 = k := by
    rw [Words.toNat_ofNat_uint32 (by omega)]
    omega
  have hmask : (0x1f : UInt32).toNat = 2 ^ 5 - 1 := rfl
  rw [UInt32.toNat_and, hmask, Nat.and_two_pow_sub_one_eq_mod, UInt32.toNat_shiftRight, hshift,
    Nat.shiftRight_eq_div_pow]

/-- The codes are the digits. -/
theorem unpackCodes_eq (hlow : node.aux.toNat / 2 ^ 8 = n % 2 ^ 8)
    (hhigh : node.extaux.toNat = n / 2 ^ 8) :
    unpackCodes node = (List.range 8).map fun i ↦ UInt8.ofNat (n / 32 ^ i % 32) := by
  have hfirst : ((node.aux &&& 0x1f00) >>> 8).toUInt8 = UInt8.ofNat (n / 32 ^ 0 % 32) := by
    have hval := toNat_and_shift16 node.aux 0x1f00 (k := 8) (w := 5) (by decide) (by decide)
    apply UInt8.toNat_inj.mp
    rw [UInt16.toNat_toUInt8, show (8 : UInt16) = UInt16.ofNat 8 from rfl, hval,
      UInt8.toNat_ofNat']
    omega
  have hsecond : (((node.aux &&& 0xe000) >>> 13).toUInt32 ||| (node.extaux &&& 0x3) <<< 3).toUInt8 =
      UInt8.ofNat (n / 32 ^ 1 % 32) := by
    have hval := toNat_and_shift16 node.aux 0xe000 (k := 13) (w := 3) (by decide) (by decide)
    have hlow2 : (node.extaux &&& 0x3).toNat = node.extaux.toNat % 2 ^ 2 := by
      rw [UInt32.toNat_and, show (0x3 : UInt32).toNat = 2 ^ 2 - 1 from rfl,
        Nat.and_two_pow_sub_one_eq_mod]
    have hshift : ((node.extaux &&& 0x3) <<< 3).toNat = node.extaux.toNat % 2 ^ 2 * 2 ^ 3 := by
      rw [UInt32.toNat_shiftLeft, hlow2, show (3 : UInt32).toNat % 32 = 3 from rfl,
        Nat.shiftLeft_eq]
      omega
    apply UInt8.toNat_inj.mp
    rw [UInt32.toNat_toUInt8, UInt32.toNat_or, UInt16.toNat_toUInt32,
      show (13 : UInt16) = UInt16.ofNat 13 from rfl, hval, hshift, or_eq_add (by omega),
      UInt8.toNat_ofNat']
    omega
  have hrest : ∀ i < 6, ((node.extaux >>> UInt32.ofNat (2 + 5 * i)) &&& 0x1f).toUInt8 =
      UInt8.ofNat (n / 32 ^ (i + 2) % 32) := by
    intro i hi
    have hpow : 32 ^ (i + 2) = 2 ^ 8 * 2 ^ (2 + 5 * i) := by
      rw [show (32 : ℕ) = 2 ^ 5 from rfl, ← pow_mul, ← pow_add]
      congr 1
      omega
    apply UInt8.toNat_inj.mp
    rw [UInt32.toNat_toUInt8, toNat_shift_and32 _ (by omega), hhigh, Nat.div_div_eq_div_mul,
      ← hpow, UInt8.toNat_ofNat']
    rfl
  rw [unpackCodes, hfirst, hsecond, List.map_congr_left fun i hi ↦ hrest i (List.mem_range.mp hi)]
  rfl

/-- Digits of a password as letters, and zeros behind it. -/
theorem map_digits_eq (hpass : ∀ c ∈ pass, ChatLetter c) (k : ℕ) :
    (List.range (pass.length + k)).map (fun i ↦
        let c := UInt8.ofNat ((pass.map chatDigit).getD i 0)
        if c = 0 then 0 else c + 64) = pass ++ List.replicate k 0 := by
  induction pass with
  | nil =>
      simp [List.map_const']
  | cons c pass ih =>
      obtain ⟨hc, hpass⟩ := List.forall_mem_cons.mp hpass
      obtain ⟨-, hpos, hlt, hletter⟩ := chatCode_letter hc
      have hne : UInt8.ofNat (chatDigit c) ≠ 0 := by
        intro h
        have hzero := congrArg UInt8.toNat h
        rw [UInt8.toNat_ofNat_of_lt' (by omega : chatDigit c < 2 ^ 8)] at hzero
        simp at hzero
        omega
      have hrest := ih hpass
      rw [List.length_cons, Nat.add_right_comm, List.range_succ_eq_map, List.map_cons, List.map_map,
        List.cons_append, ← hrest]
      simp [hne, hletter, Function.comp_def]

theorem notMem_letters (hpass : ∀ c ∈ pass, ChatLetter c) : 0 ∉ pass := by
  intro h
  exact absurd (hpass 0 h).1 (by decide)

/-- The password is unpacked as it was packed, and the low byte of `aux` is left alone. -/
theorem unpackchatpass_packchatpass (pass : Str) (node : ChatNode) (hlen : pass.length ≤ 8)
    (hpass : ∀ c ∈ pass, 65 ≤ c ∧ c ≤ 95) :
    cstr (unpackchatpass (packchatpass pass node)) = pass ∧
      (packchatpass pass node).aux &&& 0x00ff = node.aux &&& 0x00ff := by
  obtain ⟨haux, hext⟩ := packchatpass_toNat hpass hlen node
  have hdigits : ∀ d ∈ pass.map chatDigit, d < 32 := by
    intro d hd
    obtain ⟨c, hc, rfl⟩ := List.mem_map.mp hd
    exact (chatCode_letter (hpass c hc)).2.2.1
  constructor
  · have hcodes : unpackCodes (packchatpass pass node) =
        (List.range 8).map fun i ↦ UInt8.ofNat (chatNumber pass / 32 ^ i % 32) :=
      unpackCodes_eq (by omega) hext
    simp only [chatNumber, ofDigits_div_mod hdigits] at hcodes
    obtain ⟨k, hk⟩ := Nat.exists_eq_add_of_le hlen
    have hletters := map_digits_eq hpass k
    rw [unpackchatpass, hcodes, List.map_map, hk]
    simp only [Function.comp_def]
    rw [hletters, List.append_assoc]
    have hzeros : List.replicate k (0 : UInt8) ++ [0] = 0 :: List.replicate k 0 := by
      rw [← List.replicate_succ', List.replicate_succ]
    rw [hzeros, Smblib.cstr_append_zero (notMem_letters hpass)]
  · apply UInt16.toNat_inj.mp
    rw [toNat_low, toNat_low, haux]
    omega

/-- Letters on both sides of the words' boundary. -/
theorem unpackchatpass_packchatpass_secret :
    cstr (unpackchatpass (packchatpass [83, 69, 67, 82, 69, 84, 95] ⟨0xabcd, 0xffffffff⟩)) =
        [83, 69, 67, 82, 69, 84, 95] ∧
      (packchatpass [83, 69, 67, 82, 69, 84, 95] ⟨0xabcd, 0xffffffff⟩).aux &&& 0x00ff =
        (0xabcd : UInt16) &&& 0x00ff :=
  unpackchatpass_packchatpass _ _ (by decide) (by decide)

end Synchronet.Sbbs3
