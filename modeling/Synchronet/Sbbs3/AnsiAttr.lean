import Mathlib.Data.List.GetD
import Mathlib.Tactic.FinCases
import Synchronet.Conio.CTerm

/-!
# Attributes (ansiterm.cpp)

`ansi_attr` makes the shortest change from one attribute to another, and the terminal emulation
follows it.
-/

namespace Synchronet.Sbbs3.Ansi

open Xpdev Conio

abbrev BLACK : UInt32 := 0
abbrev LIGHTGRAY : UInt32 := 7
abbrev HIGH : UInt32 := 0x08
abbrev BG_LIGHTGRAY : UInt32 := 0x70
abbrev BLINK : UInt32 := 0x80

/-- The last digit of the colour `BLUE`, `GREEN`, …; the cases of the two `switch`es. -/
def colourDigit (colour : UInt32) : UInt8 :=
  ([0x30, 0x34, 0x32, 0x36, 0x31, 0x35, 0x33, 0x37] : List UInt8).getD colour.toNat 0x30

/-- Without colours. -/
def mono (atr : UInt32) : UInt32 :=
  let atr := if atr &&& LIGHTGRAY ≠ 0 then atr ||| LIGHTGRAY else atr
  let atr := if atr &&& BG_LIGHTGRAY ≠ 0 then atr ||| BG_LIGHTGRAY else atr
  let atr := if atr &&& LIGHTGRAY ≠ 0 ∧ atr &&& BG_LIGHTGRAY ≠ 0 then atr &&& ~~~LIGHTGRAY else atr
  if atr = 0 then atr ||| LIGHTGRAY else atr

/-- Whether the attribute starts from the normal one. -/
def resets (atr curatr : UInt32) : Bool :=
  (atr &&& HIGH = 0 ∧ curatr &&& HIGH ≠ 0) ∨ (atr &&& BLINK = 0 ∧ curatr &&& BLINK ≠ 0) ∨
    atr = LIGHTGRAY

/-- What `strcat` appends, each without its `;`. -/
def ansiParams (atr curatr : UInt32) : List Str :=
  let cur := if resets atr curatr then LIGHTGRAY else curatr
  (if resets atr curatr then ([[0x30]] : List Str) else []) ++
    (if atr &&& BLINK ≠ 0 ∧ cur &&& BLINK = 0 then ([[0x35]] : List Str) else []) ++
    (if atr &&& HIGH ≠ 0 ∧ cur &&& HIGH = 0 then ([[0x31]] : List Str) else []) ++
    (if atr &&& 0x07 ≠ cur &&& 0x07 then [[0x33, colourDigit (atr &&& 0x07)]] else []) ++
    (if atr &&& 0x70 ≠ cur &&& 0x70 then [[0x34, colourDigit ((atr &&& 0x70) >>> 4)]] else [])

def ansiAttr (atr curatr : UInt32) (color : Bool) : Str :=
  let atr := if color then atr else mono atr
  if curatr = atr then []
  else
    let str := (ansiParams atr curatr).flatMap (· ++ [0x3b])
    if str = [] then [] else 27 :: 0x5b :: (str.dropLast ++ [0x6d])

/-! ## The parameters -/

/-- The parameters that `ansi_attr` sends. -/
def sgrParams : List Str :=
  [[0x30], [0x31], [0x35]] ++ [0x30, 0x31, 0x32, 0x33, 0x34, 0x35, 0x36, 0x37].flatMap
    fun d : UInt8 ↦ [[0x33, d], [0x34, d]]

theorem colourDigit_mem (colour : UInt32) : colourDigit colour ∈
    ([0x30, 0x31, 0x32, 0x33, 0x34, 0x35, 0x36, 0x37] : List UInt8) := by
  have hall : ∀ d ∈ ([0x30, 0x34, 0x32, 0x36, 0x31, 0x35, 0x33, 0x37] : List UInt8),
      d ∈ ([0x30, 0x31, 0x32, 0x33, 0x34, 0x35, 0x36, 0x37] : List UInt8) := by decide
  rw [colourDigit]
  by_cases hlt : colour.toNat < 8
  · rw [List.getD_eq_getElem _ _ hlt]
    exact hall _ (List.getElem_mem hlt)
  · rw [List.getD_eq_default _ _ (by simpa using hlt)]
    decide

theorem ansiParams_mem {atr curatr : UInt32} : ∀ p ∈ ansiParams atr curatr, p ∈ sgrParams := by
  have hcolour : ∀ colour : UInt32, [0x33, colourDigit colour] ∈ sgrParams ∧
      [0x34, colourDigit colour] ∈ sgrParams := by
    have hall : ∀ d ∈ ([0x30, 0x31, 0x32, 0x33, 0x34, 0x35, 0x36, 0x37] : List UInt8),
        [0x33, d] ∈ sgrParams ∧ [0x34, d] ∈ sgrParams := by decide
    exact fun colour ↦ hall _ (colourDigit_mem colour)
  have hif : ∀ {c : Prop} [Decidable c] {q : Str}, q ∈ sgrParams →
      ∀ p ∈ (if c then [q] else []), p ∈ sgrParams := by
    intro c _ q hq p hp
    split at hp
    · exact List.mem_singleton.mp hp ▸ hq
    · simp at hp
  intro p hp
  rw [ansiParams] at hp
  simp only [List.mem_append] at hp
  rcases hp with (((hp | hp) | hp) | hp) | hp
  · exact hif (by decide) p hp
  · exact hif (by decide) p hp
  · exact hif (by decide) p hp
  · exact hif (hcolour _).1 p hp
  · exact hif (hcolour _).2 p hp

theorem length_flatMap_if {c : Prop} [Decidable c] (p : Str) :
    ((if c then [p] else []).flatMap (· ++ [0x3b])).length = if c then p.length + 1 else 0 := by
  by_cases hc : c <;> simp [hc]

theorem sum_ifs {r b h f g : Prop} [Decidable r] [Decidable b] [Decidable h] [Decidable f]
    [Decidable g] (hr : r → ¬ (b ∧ h)) : (if r then 2 else 0) + (if b then 2 else 0) +
      (if h then 2 else 0) + (if f then 3 else 0) + (if g then 3 else 0) ≤ 10 := by
  have hf : (if f then 3 else 0) ≤ 3 := by split <;> omega
  have hg : (if g then 3 else 0) ≤ 3 := by split <;> omega
  have hrest : (if r then 2 else 0) + (if b then 2 else 0) + (if h then 2 else 0) ≤ 4 := by
    by_cases hb : b <;> by_cases hh : h <;> by_cases hr' : r <;> simp_all
  omega

/-- A reset leaves at most one of the bits to be set. -/
theorem length_ansiParams (atr curatr : UInt32) :
    ((ansiParams atr curatr).flatMap (· ++ [0x3b])).length ≤ 10 := by
  have hreset : resets atr curatr = true → atr &&& BLINK = 0 ∨ atr &&& HIGH = 0 := by
    intro h
    simp only [resets, decide_eq_true_eq] at h
    rcases h with h | h | rfl
    · exact Or.inr h.1
    · exact Or.inl h.1
    · exact Or.inl (by decide)
  simp only [ansiParams, List.flatMap_append, List.length_append, length_flatMap_if,
    List.length_cons, List.length_nil]
  apply sum_ifs
  rintro hr ⟨hb, hh⟩
  exact (hreset hr).elim hb.1 hh.1

/-- The bytes and the NUL fit in 14. -/
theorem length_ansiAttr (atr curatr : UInt32) (color : Bool) :
    (ansiAttr atr curatr color).length + 1 ≤ 14 := by
  have hshort := length_ansiParams (if color then atr else mono atr) curatr
  simp only [ansiAttr]
  split_ifs <;> simp_all <;> omega

def value (param : Str) : ℕ := param.foldl (fun n c ↦ 10 * n + (c.toNat - 0x30)) 0

theorem paramInt_sgrParams : ∀ p ∈ sgrParams,
    paramInt (stripZeros p) = some (some (value p)) ∧ (∀ c ∈ p, 0x30 ≤ c ∧ c ≤ 0x3a) ∧
      p.length ≤ 2 := by
  decide +kernel

theorem dropLast_flatMap {sep : UInt8} {ps : List Str} (hne : ps ≠ []) :
    (ps.flatMap (· ++ [sep])).dropLast = [sep].intercalate ps := by
  induction ps with
  | nil => exact absurd rfl hne
  | cons p ps ih =>
      cases ps with
      | nil => simp
      | cons q ps =>
          have hrest := ih (List.cons_ne_nil _ _)
          have htail : (q :: ps).flatMap (· ++ [sep]) ≠ [] := by simp
          rw [List.flatMap_cons, List.dropLast_append_of_ne_nil htail, hrest,
            List.intercalate_cons_cons]

theorem params_intercalate {ps : List Str} (hps : ∀ p ∈ ps, p ∈ sgrParams) (hne : ps ≠ []) :
    [0x3b].intercalate ps ≠ [] ∧ IsParams ([0x3b].intercalate ps) := by
  have hfirst : ∀ p ∈ sgrParams, p ≠ [] := by decide
  have hbytes : ∀ p ∈ sgrParams, IsParams p := fun p hp c hc ↦
    ⟨((paramInt_sgrParams p hp).2.1 c hc).1,
      UInt8.le_trans ((paramInt_sgrParams p hp).2.1 c hc).2 (by decide : (0x3a : UInt8) ≤ 0x3b)⟩
  induction ps with
  | nil => exact absurd rfl hne
  | cons p ps ih =>
      have hp := hps p (List.mem_cons_self ..)
      cases ps with
      | nil => simpa using ⟨hfirst p hp, hbytes p hp⟩
      | cons q ps =>
          obtain ⟨-, hrest⟩ := ih (fun q hq ↦ hps q (List.mem_cons_of_mem p hq))
            (List.cons_ne_nil _ _)
          rw [List.intercalate_cons_cons]
          refine ⟨by simp, fun c hc ↦ ?_⟩
          simp only [List.mem_append, List.mem_singleton] at hc
          rcases hc with (hc | rfl) | hc
          · exact hbytes p hp c hc
          · exact ⟨by decide, by decide⟩
          · exact hrest c hc

/-- What the terminal reads. -/
theorem parseParameters_params {ps : List Str} (hps : ∀ p ∈ ps, p ∈ sgrParams) (hne : ps ≠ []) :
    parseParameters ([0x3b].intercalate ps) = some (ps.map fun p ↦ some (value p)) := by
  obtain ⟨hstr, hparams⟩ := params_intercalate hps hne
  have hall : ([0x3b].intercalate ps).all (fun c ↦ 0x30 ≤ c ∧ c ≤ 0x3b) = true :=
    List.all_eq_true.mpr fun c hc ↦ decide_eq_true (hparams c hc)
  have hsep : ∀ p ∈ ps, (0x3b : UInt8) ∉ p := by
    intro p hp hc
    have hle := ((paramInt_sgrParams p (hps p hp)).2.1 _ hc).2
    exact absurd hle (by decide)
  have hmap : ps.mapM (fun p ↦ paramInt (stripZeros p)) = some (ps.map fun p ↦ some (value p)) := by
    clear hne hstr hparams hall hsep
    induction ps with
    | nil => rfl
    | cons p ps ih =>
        have hp := (paramInt_sgrParams p (hps p (List.mem_cons_self ..))).1
        have hrest := ih fun q hq ↦ hps q (List.mem_cons_of_mem p hq)
        simp [List.mapM_cons, hp, hrest]
  rw [parseParameters, if_pos hall, if_neg hstr, List.splitOn_intercalate _ hsep hne, hmap]

/-! ## What the terminal does with them -/

/-- The attribute behind the parameters. -/
def follow (params : List Str) (normattr x : UInt8) : Option UInt8 :=
  (params.map fun p ↦ some (value p)).foldlM (sgr normattr) x

theorem follow_append (p q : List Str) (n x : UInt8) :
    follow (p ++ q) n x = (follow p n x).bind (follow q n) := by
  simp [follow, List.map_append, List.foldlM_append]
  rfl

/-! ## Fields of an attribute -/

/-- `x` with the bits `m` of `v`. -/
def setBits (m x v : UInt8) : UInt8 := (x &&& ~~~m) ||| (v &&& m)

theorem setBits_setBits (m n x v : UInt8) :
    setBits m (setBits n x v) v = setBits (n ||| m) x v := by
  apply UInt8.toBitVec_inj.mp
  apply BitVec.eq_of_getLsbD_eq
  intro i hi
  simp only [setBits, UInt8.toBitVec_or, UInt8.toBitVec_and, UInt8.toBitVec_not, BitVec.getLsbD_or,
    BitVec.getLsbD_and, BitVec.getLsbD_not, hi, decide_true, Bool.true_and]
  cases x.toBitVec.getLsbD i <;> cases v.toBitVec.getLsbD i <;> cases m.toBitVec.getLsbD i <;>
    cases n.toBitVec.getLsbD i <;> rfl

theorem setBits_and {m k : UInt8} (x v : UInt8) (h : m &&& k = 0) :
    setBits m x v &&& k = x &&& k := by
  apply UInt8.toBitVec_inj.mp
  apply BitVec.eq_of_getLsbD_eq
  intro i hi
  have hbit := congrArg (fun w : UInt8 ↦ w.toBitVec.getLsbD i) h
  simp only [UInt8.toBitVec_and, BitVec.getLsbD_and, UInt8.toBitVec_zero, BitVec.getLsbD_zero]
    at hbit
  simp only [setBits, UInt8.toBitVec_or, UInt8.toBitVec_and, UInt8.toBitVec_not, BitVec.getLsbD_or,
    BitVec.getLsbD_and, BitVec.getLsbD_not, hi, decide_true, Bool.true_and]
  cases hm : m.toBitVec.getLsbD i <;> cases hk : k.toBitVec.getLsbD i <;> simp_all

theorem setBits_self {m x v : UInt8} (h : v &&& m = x &&& m) : setBits m x v = x := by
  apply UInt8.toBitVec_inj.mp
  apply BitVec.eq_of_getLsbD_eq
  intro i hi
  rw [setBits, h]
  simp only [UInt8.toBitVec_or, UInt8.toBitVec_and, UInt8.toBitVec_not, BitVec.getLsbD_or,
    BitVec.getLsbD_and, BitVec.getLsbD_not, hi, decide_true, Bool.true_and]
  cases x.toBitVec.getLsbD i <;> cases m.toBitVec.getLsbD i <;> rfl

/-- The masks with one bit and with all of them. -/
theorem masks_byte : ∀ x : UInt8, (x &&& ~~~0xff = 0 ∧ x &&& 0xff = x) ∧
    (x &&& 0x80 = 0 ∨ x &&& 0x80 = 0x80) ∧ (x &&& 0x08 = 0 ∨ x &&& 0x08 = 0x08) ∧
    (x &&& ~~~0x80) ||| 0x80 = x ||| 0x80 ∧ (x &&& ~~~0x08) ||| 0x08 = x ||| 0x08 :=
  Words.forall_uint8 (by decide +kernel)

theorem setBits_all (x v : UInt8) : setBits 0xff x v = v := by
  rw [setBits, (masks_byte x).1.1, (masks_byte v).1.2, UInt8.zero_or]

theorem and_toUInt32 (x : UInt32) (m : UInt8) : x &&& m.toUInt32 = (x.toUInt8 &&& m).toUInt32 := by
  apply UInt32.toBitVec_inj.mp
  apply BitVec.eq_of_getLsbD_eq
  intro i hi
  simp only [UInt32.toBitVec_and, UInt8.toBitVec_toUInt32, BitVec.getLsbD_and,
    BitVec.getLsbD_setWidth, UInt8.toBitVec_and, UInt32.toBitVec_toUInt8, hi, decide_true,
    Bool.true_and]
  by_cases hlow : i < 8
  · simp [hlow]
  · have hzero : m.toBitVec.getLsbD i = false := Words.getLsbD_byte m (by omega)
    simp [hlow, hzero]

theorem bits_iff (m : UInt8) (x : UInt32) : x &&& m.toUInt32 = 0 ↔ x.toUInt8 &&& m = 0 := by
  rw [and_toUInt32, show (0 : UInt32) = (0 : UInt8).toUInt32 from rfl, UInt8.toUInt32_inj]

theorem bits_ne_iff (m : UInt8) (x y : UInt32) :
    x &&& m.toUInt32 ≠ y &&& m.toUInt32 ↔ x.toUInt8 &&& m ≠ y.toUInt8 &&& m := by
  rw [and_toUInt32, and_toUInt32, Ne, UInt8.toUInt32_inj]

/-! ## From one attribute to another -/

theorem sgr_foreground (x : UInt8) (a : UInt32) :
    sgr 7 x (some (value [0x33, colourDigit (a &&& 0x07)])) = some (setBits 7 x a.toUInt8) := by
  have hvalue : ∀ b : UInt8, ∃ n : Fin 8,
      value [0x33, colourDigit (b &&& 7).toUInt32] = 30 + n ∧ sgrColour n = b &&& 7 :=
    Words.forall_uint8 (by decide +kernel)
  have hsgr : ∀ n : Fin 8, ∀ x, sgr 7 x (some (30 + n)) = some ((x &&& 248) ||| sgrColour n) := by
    intro n x
    fin_cases n <;> rfl
  obtain ⟨n, hn, hcolour⟩ := hvalue a.toUInt8
  have hmask : a &&& 0x07 = (a.toUInt8 &&& 7).toUInt32 := and_toUInt32 a 7
  rw [hmask, hn, hsgr, hcolour]
  rfl

theorem sgr_background (x : UInt8) (a : UInt32) :
    sgr 7 x (some (value [0x34, colourDigit ((a &&& 0x70) >>> 4)])) =
      some (setBits 0x70 x a.toUInt8) := by
  have hvalue : ∀ b : UInt8, ∃ n : Fin 8,
      value [0x34, colourDigit ((b &&& 0x70).toUInt32 >>> 4)] = 40 + n ∧
        sgrColour n <<< (4 : UInt8) = b &&& 0x70 :=
    Words.forall_uint8 (by decide +kernel)
  have hsgr : ∀ n : Fin 8, ∀ x, sgr 7 x (some (40 + n)) =
      some ((x &&& 143) ||| (sgrColour n <<< (4 : UInt8))) := by
    intro n x
    fin_cases n <;> rfl
  obtain ⟨n, hn, hcolour⟩ := hvalue a.toUInt8
  have hmask : a &&& 0x70 = (a.toUInt8 &&& 0x70).toUInt32 := and_toUInt32 a 0x70
  rw [hmask, hn, hsgr, hcolour]
  rfl

/-- A colour that is sent where it is another one. -/
theorem follow_colour {p : Str} {m x : UInt8} {a x₀ : UInt32}
    (hset : sgr 7 x (some (value p)) = some (setBits m x a.toUInt8))
    (hx : x &&& m = x₀.toUInt8 &&& m) :
    follow (if a &&& m.toUInt32 ≠ x₀ &&& m.toUInt32 then [p] else []) 7 x =
      some (setBits m x a.toUInt8) := by
  simp only [bits_ne_iff]
  by_cases ha : a.toUInt8 &&& m = x₀.toUInt8 &&& m
  · have hself : setBits m x a.toUInt8 = x := setBits_self (ha.trans hx.symm)
    simp [ha, hself, follow]
  · simp [ha, follow, hset]

/-- A bit that is set where it has to be and is not. -/
theorem follow_bit {p : Str} {m x : UInt8} {a x₀ : UInt32}
    (hset : ∀ x a : UInt8, a &&& m ≠ 0 → sgr 7 x (some (value p)) = some (setBits m x a))
    (hone : ∀ x : UInt8, x &&& m = 0 ∨ x &&& m = m) (hx : x &&& m = x₀.toUInt8 &&& m)
    (hoff : a.toUInt8 &&& m = 0 → x₀.toUInt8 &&& m = 0) :
    follow (if a &&& m.toUInt32 ≠ 0 ∧ x₀ &&& m.toUInt32 = 0 then [p] else []) 7 x =
      some (setBits m x a.toUInt8) := by
  simp only [Ne, bits_iff]
  by_cases ha : a.toUInt8 &&& m = 0
  · have hself : setBits m x a.toUInt8 = x := setBits_self (by rw [ha, hx, hoff ha])
    simp [ha, hself, follow]
  · by_cases hx₀ : x₀.toUInt8 &&& m = 0
    · simp [ha, hx₀, follow, hset x _ ha]
    · have hself : setBits m x a.toUInt8 = x := by
        apply setBits_self
        rw [hx, (hone _).resolve_left ha, (hone _).resolve_left hx₀]
      simp [hx₀, hself, follow]

theorem sgr_blink (x a : UInt8) (ha : a &&& 0x80 ≠ 0) :
    sgr 7 x (some (value [0x35])) = some (setBits 0x80 x a) := by
  obtain ⟨-, -, -, hset, -⟩ := masks_byte x
  have hone : a &&& 0x80 = 0x80 := (masks_byte a).2.1.resolve_left ha
  rw [setBits, hone, hset]
  rfl

theorem sgr_high (x a : UInt8) (ha : a &&& 0x08 ≠ 0) :
    sgr 7 x (some (value [0x31])) = some (setBits 0x08 x a) := by
  obtain ⟨-, -, -, -, hset⟩ := masks_byte x
  have hone : a &&& 0x08 = 0x08 := (masks_byte a).2.2.1.resolve_left ha
  rw [setBits, hone, hset]
  rfl

/-- The attribute from which the changes are made. -/
def base (a c : UInt32) : UInt32 := if resets a c then LIGHTGRAY else c

theorem base_bits (a c : UInt32) : (a.toUInt8 &&& 0x80 = 0 → (base a c).toUInt8 &&& 0x80 = 0) ∧
    (a.toUInt8 &&& 0x08 = 0 → (base a c).toUInt8 &&& 0x08 = 0) := by
  rw [base]
  by_cases hresets : resets a c
  · rw [if_pos hresets]
    exact ⟨fun _ ↦ by decide, fun _ ↦ by decide⟩
  · have hkeep := hresets
    simp only [resets, decide_eq_true_eq, not_or, not_and, not_not] at hkeep
    obtain ⟨hhigh, hblink, -⟩ := hkeep
    rw [if_neg hresets]
    exact ⟨fun ha ↦ (bits_iff 0x80 c).mp (hblink ((bits_iff 0x80 a).mpr ha)),
      fun ha ↦ (bits_iff 0x08 c).mp (hhigh ((bits_iff 0x08 a).mpr ha))⟩

/-- The parameters change an attribute into the one wanted. -/
theorem follow_ansiParams (a c : UInt32) :
    follow (ansiParams a c) 7 c.toUInt8 = some a.toUInt8 := by
  have hreset : follow (if resets a c then [[0x30]] else []) 7 c.toUInt8 =
      some (base a c).toUInt8 := by
    rw [base]
    split <;> rfl
  obtain ⟨hblink, hhigh⟩ := base_bits a c
  let x₁ := setBits 0x80 (base a c).toUInt8 a.toUInt8
  let x₂ := setBits 0x08 x₁ a.toUInt8
  let x₃ := setBits 0x07 x₂ a.toUInt8
  have hx₂ : ∀ m : UInt8, 0x80 &&& m = 0 → 0x08 &&& m = 0 →
      x₂ &&& m = (base a c).toUInt8 &&& m := by
    intro m hblink hhigh
    exact (setBits_and x₁ a.toUInt8 hhigh).trans (setBits_and (base a c).toUInt8 a.toUInt8 hblink)
  have h₁ : follow (if a &&& BLINK ≠ 0 ∧ base a c &&& BLINK = 0 then [[0x35]] else []) 7
      (base a c).toUInt8 = some x₁ :=
    follow_bit sgr_blink (fun x ↦ (masks_byte x).2.1) rfl hblink
  have h₂ : follow (if a &&& HIGH ≠ 0 ∧ base a c &&& HIGH = 0 then [[0x31]] else []) 7 x₁ =
      some x₂ :=
    follow_bit sgr_high (fun x ↦ (masks_byte x).2.2.1) (setBits_and _ _ (by decide)) hhigh
  have h₃ : follow (if a &&& 0x07 ≠ base a c &&& 0x07 then [[0x33, colourDigit (a &&& 0x07)]]
      else []) 7 x₂ = some x₃ :=
    follow_colour (sgr_foreground x₂ a) (hx₂ 0x07 (by decide) (by decide))
  have h₄ : follow (if a &&& 0x70 ≠ base a c &&& 0x70 then
      [[0x34, colourDigit ((a &&& 0x70) >>> 4)]] else []) 7 x₃ =
        some (setBits 0x70 x₃ a.toUInt8) :=
    follow_colour (sgr_background x₃ a)
      ((setBits_and x₂ a.toUInt8 (by decide)).trans (hx₂ 0x70 (by decide) (by decide)))
  have hall : setBits 0x70 x₃ a.toUInt8 = a.toUInt8 := by
    rw [setBits_setBits, setBits_setBits, setBits_setBits]
    exact setBits_all (base a c).toUInt8 a.toUInt8
  have hbase : (if resets a c = true then LIGHTGRAY else c) = base a c := rfl
  simp only [ansiParams, hbase]
  rw [follow_append, follow_append, follow_append, follow_append, hreset, Option.bind_some, h₁,
    Option.bind_some, h₂, Option.bind_some, h₃, Option.bind_some, h₄, hall]

/-! ## The terminal -/

theorem doAnsi_params {t : CTerm} {ps : List Str} {x : UInt8} (hps : ∀ p ∈ ps, p ∈ sgrParams)
    (hne : ps ≠ []) (hesc : t.escbuf = 0x5b :: ([0x3b].intercalate ps ++ [0x6d]))
    (hfollow : follow ps t.normattr t.attr = some x) :
    doAnsi t = some { t with attr := x, escbuf := [], sequence := false } := by
  obtain ⟨-, hparams⟩ := params_intercalate hps hne
  have hparameter : ∀ c ∈ [0x3b].intercalate ps, isParameter c = true := fun c hc ↦
    (isParameter_of_isParams c (hparams c hc)).1
  have htake : ([0x3b].intercalate ps ++ [0x6d]).takeWhile isParameter = [0x3b].intercalate ps := by
    rw [List.takeWhile_append_of_pos hparameter]
    simp [isParameter]
  have hdrop : ([0x3b].intercalate ps ++ [0x6d]).dropWhile isParameter = [0x6d] := by
    rw [List.dropWhile_append_of_pos hparameter]
    rfl
  have hprivate : isPrivate (([0x3b].intercalate ps).head?.getD 0) = false := by
    cases h : [0x3b].intercalate ps with
    | nil => rfl
    | cons c str =>
        exact (isParameter_of_isParams c (hparams c (h ▸ List.mem_cons_self ..))).2
  have hdefault : seqDefault (ps.map fun p ↦ some (value p)) 0 0 =
      ps.map fun p ↦ some (value p) := by
    cases ps with
    | nil => exact absurd rfl hne
    | cons p ps => simp [seqDefault]
  have hsgr : (ps.map fun p ↦ some (value p)).foldlM (sgr t.normattr) t.attr = some x := hfollow
  simp [doAnsi, hesc, htake, hdrop, hprivate, parseParameters_params hps hne, hdefault, hsgr]

/-- The terminal has followed the changes up to `curatr`. -/
structure Follows (t : CTerm) (curatr : UInt32) : Prop where
  sequence : t.sequence = false
  escbuf : t.escbuf = []
  normattr : t.normattr = 7
  attr : t.attr = curatr.toUInt8

/-- The sequence makes the attribute the one wanted and displays nothing. -/
theorem foldlM_ansiAttr {t : CTerm} {curatr : UInt32} (h : Follows t curatr) (atr : UInt32) :
    ∃ t', (ansiAttr atr curatr true).foldlM CTerm.putc t = some t' ∧ Follows t' atr ∧
      t'.ctputs.screen = t.ctputs.screen := by
  have hfollow := follow_ansiParams atr curatr
  by_cases hsame : ansiParams atr curatr = []
  · have hsent : ansiAttr atr curatr true = [] := by simp [ansiAttr, hsame]
    have hattr : curatr.toUInt8 = atr.toUInt8 := by simpa [hsame, follow] using hfollow
    exact ⟨t, by rw [hsent]; rfl, ⟨h.sequence, h.escbuf, h.normattr, h.attr.trans hattr⟩, rfl⟩
  · by_cases hcur : curatr = atr
    · have hsent : ansiAttr atr curatr true = [] := by simp [ansiAttr, hcur]
      exact ⟨t, by rw [hsent]; rfl, hcur ▸ h, rfl⟩
    · have hparams : ∀ p ∈ ansiParams atr curatr, p ∈ sgrParams := ansiParams_mem
      have hnonempty : (ansiParams atr curatr).flatMap (· ++ [0x3b]) ≠ [] := by
        obtain ⟨p, hp⟩ := List.exists_mem_of_ne_nil _ hsame
        intro hnil
        simpa using List.flatMap_eq_nil_iff.mp hnil p hp
      have hsent : ansiAttr atr curatr true =
          27 :: 0x5b :: ([0x3b].intercalate (ansiParams atr curatr) ++ [0x6d]) := by
        simp [ansiAttr, hcur, hnonempty, dropLast_flatMap hsame]
      have hlength : ([0x3b].intercalate (ansiParams atr curatr)).length < 1022 := by
        have hshort := length_ansiParams atr curatr
        rw [← dropLast_flatMap hsame, List.length_dropLast]
        omega
      let t₁ : CTerm := { t.ctputs with
        sequence := true
        escbuf := 0x5b :: ([0x3b].intercalate (ansiParams atr curatr) ++ [0x6d]) }
      have hcolours : follow (ansiParams atr curatr) t₁.normattr t₁.attr = some atr.toUInt8 := by
        change follow _ t.normattr t.attr = _
        rw [h.normattr, h.attr, hfollow]
      have hansi := doAnsi_params (t := t₁) hparams hsame rfl hcolours
      refine ⟨{ t₁ with attr := atr.toUInt8, escbuf := [], sequence := false }, ?_,
        ⟨rfl, rfl, h.normattr, rfl⟩, by simp [t₁, CTerm.ctputs]⟩
      rw [hsent, foldlM_sequence h.sequence h.escbuf (params_intercalate hparams hsame).2 hlength]
      exact hansi

end Synchronet.Sbbs3.Ansi
