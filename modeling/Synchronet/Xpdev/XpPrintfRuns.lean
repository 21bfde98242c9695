import Synchronet.Lib.Doubled
import Synchronet.Xpdev.XpPrintf

/-!
# Formatting with a printf in steps (xpprintf.c)

A format string is a list of characters, `%%` pairs and conversions, each with the arguments
it takes.  `sprintf` writes for each of them what it stands for.  `xp_vasprintf` stays inside
its memory for the conversions whose texts, widths and results are short, and then gives back
what `sprintf` writes unless percent signs of the arguments come together.
-/

namespace Synchronet.Xpdev.XpPrintf

open Sbbs3 (ultoa ultoa_of_lt)
open Smblib (digitsValue)

/-! ## Format strings with their arguments -/

/-- The width of a conversion, with the argument where it is an asterisk. -/
inductive Width
  | absent
  | digits (d : Str) (hd : ∀ c ∈ d, isdigit c = true) (hstart : ∃ c s, d = c :: s ∧ c ≠ 48)
  | star (v : Int32)

inductive Precision
  | absent
  | digits (d : Str) (hd : ∀ c ∈ d, isdigit c = true)
  | star (v : Int32)

/-- What a conversion converts: a number of type `int` or `long`, a character or a string. -/
inductive Operand
  | int (modifier : Str) (type : UInt8) (v : Int32)
      (hmodifier : modifier ∈ [[], [104], [104, 104]]) (htype : type ∈ [100, 105, 111, 117, 120, 88])
  | long (type : UInt8) (v : Int64) (htype : type ∈ [100, 105, 111, 117, 120, 88])
  | char (v : Int32)
  | string (s : Str) (hs : (0 : UInt8) ∉ s)

structure Conversion where
  flags : Str
  flags_ok : ∀ c ∈ flags, isFlag c = true
  width : Width
  precision : Precision
  operand : Operand

inductive Item
  | char (c : UInt8) (hzero : c ≠ 0) (hpercent : c ≠ 37)
  | percent
  | conversion (c : Conversion)

namespace Width

def text : Width → Str
  | absent => []
  | digits d _ _ => d
  | star _ => [42]

def stars : Width → List Int32
  | star v => [v]
  | _ => []

/-- A negative width is a flag and a width. -/
def flags : Width → Str
  | star v => if v < 0 then [45] else []
  | _ => []

def value : Width → Option ℕ
  | absent => none
  | digits d _ _ => some (digitsValue d)
  | star v => some v.toInt.natAbs

end Width

namespace Precision

def text : Precision → Str
  | absent => []
  | digits d _ => 46 :: d
  | star _ => [46, 42]

def stars : Precision → List Int32
  | star v => [v]
  | _ => []

/-- A negative precision is none. -/
def value : Precision → Option ℕ
  | absent => none
  | digits d _ => some (digitsValue d)
  | star v => if v < 0 then none else some v.toInt.natAbs

end Precision

namespace Operand

def modifier : Operand → Str
  | int modifier _ _ _ _ => modifier
  | long _ _ _ => [108]
  | _ => []

def type : Operand → UInt8
  | int _ type _ _ _ => type
  | long type _ _ => type
  | char _ => 99
  | string _ _ => 115

def arg : Operand → Arg
  | int _ _ v _ _ => .int v
  | long _ v _ => .long v
  | char v => .int v
  | string s _ => .charp (some s)

def isString : Operand → Bool
  | string _ _ => true
  | _ => false

end Operand

namespace Conversion

/-- What stands behind the width and the precision. -/
def tail (c : Conversion) : Str := c.operand.modifier ++ [c.operand.type]

def text (c : Conversion) : Str := 37 :: c.flags ++ c.width.text ++ c.precision.text ++ c.tail

/-- The arguments of the asterisks. -/
def stars (c : Conversion) : List Int32 := c.width.stars ++ c.precision.stars

def args (c : Conversion) : List Arg := c.stars.map Arg.int ++ [c.operand.arg]

/-- What the conversion asks for, with the arguments of the asterisks. -/
def meaning (c : Conversion) : Directive where
  flags := c.flags ++ c.width.flags
  width := c.width.value
  precision := c.precision.value
  modifier := c.operand.modifier
  type := c.operand.type

def output (lib : CLibrary) (c : Conversion) : Option Str :=
  lib.convert c.meaning c.operand.arg

/-- The asterisks stand for single digits, and the conversion and its result have room on the
stack. -/
structure Fits (lib : CLibrary) (c : Conversion) : Prop where
  stars : ∀ v ∈ c.stars, 0 ≤ v ∧ v ≤ 9
  text : c.text.length < maxFormatLen
  entry : c.operand.isString = true ∨ ∀ out, c.output lib = some out → out.length < maxArgLen

end Conversion

namespace Item

def text : Item → Str
  | char c _ _ => [c]
  | percent => [37, 37]
  | conversion c => c.text

def args : Item → List Arg
  | conversion c => c.args
  | _ => []

def output (lib : CLibrary) : Item → Option Str
  | char c _ _ => some [c]
  | percent => some [37]
  | conversion c => c.output lib

/-- The bytes that are written for an item, with `true` for those of a conversion. -/
def marked (lib : CLibrary) : Item → List (UInt8 × Bool)
  | char c _ _ => [(c, false)]
  | percent => [(37, false)]
  | conversion c => ((c.output lib).getD []).map fun b ↦ (b, true)

def Fits (lib : CLibrary) : Item → Prop
  | conversion c => c.Fits lib
  | _ => True

end Item

def formatText (items : List Item) : Str := items.flatMap Item.text

def formatArgs (items : List Item) : List Arg := items.flatMap Item.args

/-- `sprintf`, which fails with any of its conversions. -/
def sprintf (lib : CLibrary) : List Item → Option Str
  | [] => some []
  | i :: items => do pure ((← i.output lib) ++ (← sprintf lib items))

def marked (lib : CLibrary) (items : List Item) : List (UInt8 × Bool) :=
  items.flatMap (Item.marked lib)

theorem sprintf_cons {lib : CLibrary} {i : Item} {items : List Item} {out : Str}
    (h : sprintf lib (i :: items) = some out) :
    ∃ s t, i.output lib = some s ∧ sprintf lib items = some t ∧ out = s ++ t := by
  simp only [sprintf, Option.bind_eq_bind, Option.bind_eq_some_iff, Option.pure_def,
    Option.some.injEq] at h
  obtain ⟨s, hs, t, ht, rfl⟩ := h
  exact ⟨s, t, hs, ht, rfl⟩

/-- Without the marks the bytes are those that `sprintf` writes. -/
theorem map_fst_marked {lib : CLibrary} {items : List Item} {out : Str}
    (h : sprintf lib items = some out) : (marked lib items).map Prod.fst = out := by
  induction items generalizing out with
  | nil => simpa [sprintf, marked] using h
  | cons i items ih =>
      obtain ⟨s, t, hs, ht, rfl⟩ := sprintf_cons h
      rw [marked, List.flatMap_cons, List.map_append, ← marked, ih ht]
      congr 1
      cases i with
      | char c => simpa [Item.output, Item.marked] using hs
      | percent => simpa [Item.output, Item.marked] using hs
      | conversion c =>
          have hc : c.output lib = some s := hs
          simp [Item.marked, hc, List.map_map, Function.comp_def]

/-! ## Scanning -/

theorem takeWhile_run {pred : UInt8 → Bool} {run : Str} (hrun : ∀ c ∈ run, pred c = true)
    {c : UInt8} (hc : pred c = false) (rest : Str) :
    (run ++ c :: rest).takeWhile pred = run ∧ (run ++ c :: rest).dropWhile pred = c :: rest := by
  have hneg : ¬pred c = true := by simp [hc]
  constructor
  · rw [List.takeWhile_append_of_pos hrun, List.takeWhile_cons_of_neg hneg, List.append_nil]
  · rw [List.dropWhile_append_of_pos hrun, List.dropWhile_cons_of_neg hneg]

theorem skipWhile_run {pred : UInt8 → Bool} {run : Str} (hrun : ∀ c ∈ run, pred c = true)
    {c : UInt8} (hc : pred c = false) (rest : Str) :
    skipWhile pred (run ++ c :: rest) = some (c :: rest) := by
  induction run with
  | nil => simp [skipWhile, hc]
  | cons d run ih =>
      obtain ⟨hd, hrun⟩ := List.forall_mem_cons.mp hrun
      rw [List.cons_append, skipWhile, if_pos hd, ih hrun]

theorem copyWhile_run {pred : UInt8 → Bool} {run : Str} (hrun : ∀ c ∈ run, pred c = true)
    {c : UInt8} (hc : pred c = false) (rest : Str) {fmt : Str} (hfmt : fmt.length ≤ maxFormatLen) :
    copyWhile pred fmt (run ++ c :: rest) =
      if fmt.length + run.length ≤ maxFormatLen then some (fmt ++ run, c :: rest) else none := by
  induction run generalizing fmt with
  | nil => simp [copyWhile, hc, hfmt]
  | cons d run ih =>
      obtain ⟨hd, hrun⟩ := List.forall_mem_cons.mp hrun
      rw [List.cons_append, copyWhile, if_pos hd, push]
      by_cases hroom : fmt.length < maxFormatLen
      · have hlen : (fmt ++ [d]).length ≤ maxFormatLen := by
          simp only [List.length_append, List.length_singleton]
          exact hroom
        rw [if_pos hroom]
        refine (ih hrun hlen).trans ?_
        simp only [List.length_append, List.length_cons, List.length_nil, List.append_assoc,
          List.cons_append, List.nil_append, Nat.add_assoc, Nat.add_comm 1]
      · rw [if_neg hroom, if_neg (by simp only [List.length_cons]; omega)]
        rfl

theorem foldlM_push (run : Str) {fmt : Str} (hfmt : fmt.length ≤ maxFormatLen) :
    run.foldlM push fmt =
      if fmt.length + run.length ≤ maxFormatLen then some (fmt ++ run) else none := by
  induction run generalizing fmt with
  | nil => simp [hfmt]
  | cons d run ih =>
      rw [List.foldlM_cons, push]
      by_cases hroom : fmt.length < maxFormatLen
      · have hlen : (fmt ++ [d]).length ≤ maxFormatLen := by
          simp only [List.length_append, List.length_singleton]
          exact hroom
        rw [if_pos hroom]
        refine (ih hlen).trans ?_
        simp only [List.length_append, List.length_cons, List.length_nil, List.append_assoc,
          List.cons_append, List.nil_append, Nat.add_assoc, Nat.add_comm 1]
      · rw [if_neg hroom, if_neg (by simp only [List.length_cons]; omega)]
        rfl

/-- What stands behind the flags, the width or the precision is none of them. -/
structure Plain (c : UInt8) : Prop where
  notFlag : isFlag c = false
  notDigit : isdigit c = false
  notStar : c ≠ 42

namespace Conversion

variable (c : Conversion)

theorem exists_tail : ∃ b s, c.tail = b :: s ∧ Plain b ∧ b ≠ 46 := by
  have hnumber : ∀ b ∈ ([100, 105, 111, 117, 120, 88, 104, 108, 99, 115] : Str),
      (isFlag b = false ∧ isdigit b = false ∧ b ≠ 42) ∧ b ≠ 46 := by decide +kernel
  have hplain : ∀ b s, c.tail = b :: s → b ∈ ([100, 105, 111, 117, 120, 88, 104, 108, 99, 115] : Str) →
      ∃ b s, c.tail = b :: s ∧ Plain b ∧ b ≠ 46 := by
    intro b s htail hb
    obtain ⟨⟨hflag, hdigit, hstar⟩, hdot⟩ := hnumber b hb
    exact ⟨b, s, htail, ⟨hflag, hdigit, hstar⟩, hdot⟩
  obtain ⟨flags, flags_ok, width, precision, operand⟩ := c
  cases operand with
  | int modifier type v hmodifier htype =>
      simp only [List.mem_cons, List.not_mem_nil, or_false] at hmodifier
      obtain rfl | rfl | rfl := hmodifier
      · exact hplain type [] rfl (List.mem_append_left [104, 108, 99, 115] htype)
      · exact hplain 104 _ rfl (by decide)
      · exact hplain 104 _ rfl (by decide)
  | long type v htype => exact hplain 108 _ rfl (by decide)
  | char v => exact hplain 99 _ rfl (by decide)
  | string s hs => exact hplain 115 _ rfl (by decide)

theorem scanModifier_tail (rest : Str) :
    scanModifier (c.tail ++ rest) = some (c.operand.modifier, c.operand.type :: rest) := by
  obtain ⟨flags, flags_ok, width, precision, operand⟩ := c
  cases operand with
  | int modifier type v hmodifier htype =>
      have htype' : (type ≠ 104 ∧ type ≠ 108) ∧
          type ≠ 106 ∧ type ≠ 116 ∧ type ≠ 122 ∧ type ≠ 76 := by
        revert type
        decide +kernel
      simp only [List.mem_cons, List.not_mem_nil, or_false] at hmodifier
      obtain rfl | rfl | rfl := hmodifier <;>
        simp [tail, Operand.modifier, Operand.type, scanModifier, htype']
  | long type v htype =>
      have htype' : type ≠ 108 := by
        revert type
        decide +kernel
      simp [tail, Operand.modifier, Operand.type, scanModifier, htype']
  | char v => simp [tail, Operand.modifier, Operand.type, scanModifier]
  | string s hs => simp [tail, Operand.modifier, Operand.type, scanModifier]

end Conversion

/-! ## A conversion without asterisks -/

theorem digitsValue_run {d : Str} (hd : ∀ c ∈ d, isdigit c = true) {b : UInt8}
    (hb : isdigit b = false) (rest : Str) : digitsValue (d ++ b :: rest) = digitsValue d := by
  have htake : d.takeWhile isdigit = d := List.takeWhile_eq_self_iff.mpr hd
  have hrun := (takeWhile_run hd hb rest).1
  change ((d ++ b :: rest).takeWhile isdigit).foldl _ 0 = (d.takeWhile isdigit).foldl _ 0
  rw [hrun, htake]

namespace Conversion

variable (c : Conversion)

theorem exists_precision : ∃ b s, c.precision.text ++ c.tail = b :: s ∧ Plain b := by
  cases hprecision : c.precision with
  | absent =>
      obtain ⟨b, s, htail, hb, -⟩ := c.exists_tail
      exact ⟨b, s, htail, hb⟩
  | digits d hd => exact ⟨46, _, rfl, by decide, by decide, by decide⟩
  | star v => exact ⟨46, _, rfl, by decide, by decide, by decide⟩

theorem exists_width : ∃ b s, c.width.text ++ (c.precision.text ++ c.tail) = b :: s ∧
    isFlag b = false ∧ (b = 42 ↔ c.width.stars ≠ []) := by
  cases hwidth : c.width with
  | absent =>
      obtain ⟨b, s, hs, hb⟩ := c.exists_precision
      exact ⟨b, s, hs, hb.notFlag, by simp [hb.notStar, Width.stars]⟩
  | digits d hd hstart =>
      have hdigit : ∀ b : UInt8, isdigit b = true ∧ b ≠ 48 → isFlag b = false ∧ b ≠ 42 :=
        fun b ↦ Words.forall_uint8
          (p := fun b ↦ isdigit b = true ∧ b ≠ 48 → isFlag b = false ∧ b ≠ 42) (by decide +kernel) b
      obtain ⟨b, s, rfl, hb⟩ := hstart
      obtain ⟨hflag, hstar⟩ := hdigit b ⟨hd b List.mem_cons_self, hb⟩
      exact ⟨b, _, rfl, hflag, by simp [hstar, Width.stars]⟩
  | star v => exact ⟨42, _, rfl, by decide, by simp [Width.stars]⟩

/-- No width or precision is an asterisk. -/
structure StarFree : Prop where
  width : c.width.stars = []
  precision : c.precision.stars = []

variable {c}

theorem text_eq : c.text = 37 :: (c.flags ++ (c.width.text ++ (c.precision.text ++ c.tail))) := by
  simp [text, List.append_assoc]

/-- The conversion that stands in the text is the one that is meant. -/
theorem directive_text (hc : c.StarFree) : directive c.text = c.meaning := by
  obtain ⟨b, s, hs, hb, -⟩ := c.exists_width
  obtain ⟨b', s', hs', hb'⟩ := c.exists_precision
  obtain ⟨b'', s'', hs'', hb'', hdot⟩ := c.exists_tail
  have hflags := takeWhile_run c.flags_ok hb s
  rw [← hs] at hflags
  have hscan := c.scanModifier_tail []
  rw [List.append_nil] at hscan
  have hwidth : (c.width.text ++ (c.precision.text ++ c.tail)).takeWhile isdigit = c.width.text ∧
      (c.width.text ++ (c.precision.text ++ c.tail)).dropWhile isdigit =
        c.precision.text ++ c.tail := by
    rw [hs']
    refine takeWhile_run ?_ hb'.notDigit s'
    cases hw : c.width with
    | absent => simp [Width.text]
    | digits d hd hstart => exact hd
    | star v => simpa [hw, Width.stars] using hc.width
  have hvalue : (if c.width.text = [] then none else some (digitsValue c.width.text)) =
      c.width.value := by
    cases hw : c.width with
    | absent => rfl
    | digits d hd hstart =>
        obtain ⟨b, s, rfl, -⟩ := hstart
        rfl
    | star v => simpa [hw, Width.stars] using hc.width
  have hnoflags : c.width.flags = [] := by
    cases hw : c.width with
    | absent => rfl
    | digits d hd hstart => rfl
    | star v => simpa [hw, Width.stars] using hc.width
  have hprecision : (if (c.precision.text ++ c.tail).head? = some 46 then
        some (digitsValue (c.precision.text ++ c.tail).tail) else none) = c.precision.value ∧
      (if (c.precision.text ++ c.tail).head? = some 46 then
        (c.precision.text ++ c.tail).tail.dropWhile isdigit else c.precision.text ++ c.tail) =
        c.tail := by
    cases hp : c.precision with
    | absent => simp [Precision.text, Precision.value, hs'', hdot]
    | digits d hd =>
        simp [Precision.text, Precision.value, hs'', digitsValue_run hd hb''.notDigit,
          (takeWhile_run hd hb''.notDigit s'').2]
    | star v => simpa [hp, Precision.stars] using hc.precision
  rw [directive, text_eq]
  simp only [List.drop_succ_cons, List.drop_zero, hflags.1, hflags.2, hwidth.1, hwidth.2, hvalue,
    hprecision.1, hprecision.2, hscan, Option.getD_some, List.headD_cons]
  rw [meaning, hnoflags, List.append_nil]

end Conversion

/-! ## The argument that comes next -/

/-- The type of the argument that is converted. -/
def Operand.argType : Operand → ArgType
  | .int _ type _ _ _ => if type = 100 ∨ type = 105 then .int else .uint
  | .long type _ _ => if type = 100 ∨ type = 105 then .long else .ulong
  | .char _ => .char
  | .string _ _ => .charp

theorem suits_argType (o : Operand) : suits o.argType o.arg = true := by
  cases o with
  | int modifier type v hmodifier htype =>
      rw [Operand.argType, Operand.arg]
      split <;> rfl
  | long type v htype =>
      rw [Operand.argType, Operand.arg]
      split <;> rfl
  | char v => rfl
  | string s hs => rfl

theorem correctType_operand (o : Operand) : correctType o.modifier o.type = some o.argType := by
  cases o with
  | int modifier type v hmodifier htype =>
      have htable : ∀ m ∈ ([[], [104], [104, 104]] : List Str),
          ∀ t ∈ ([100, 105, 111, 117, 120, 88] : Str),
          correctType m t = some (if t = 100 ∨ t = 105 then .int else .uint) := by decide +kernel
      exact htable modifier hmodifier type htype
  | long type v htype =>
      have htable : ∀ t ∈ ([100, 105, 111, 117, 120, 88] : Str),
          correctType [108] t = some (if t = 100 ∨ t = 105 then .long else .ulong) := by
        decide +kernel
      exact htable type htype
  | char v => rfl
  | string s hs => rfl

namespace Conversion

variable {c : Conversion} {w : Working} {offset : ℕ} {rest : List UInt8}

theorem forall_mem_width (hc : c.width.stars = []) : ∀ b ∈ c.width.text, isdigit b = true := by
  cases hw : c.width with
  | absent => simp [Width.text]
  | digits d hd hstart => exact hd
  | star v => simp [hw, Width.stars] at hc

/-- Behind a width that is no asterisk comes the precision. -/
theorem printfGetTypePrecision_text (rest : List UInt8) :
    printfGetTypePrecision (c.precision.text ++ c.tail ++ rest) =
      some (some (if c.precision.stars = [] then c.operand.argType else .int)) := by
  obtain ⟨b, s, hs, hb, hdot⟩ := c.exists_tail
  have hscan := c.scanModifier_tail rest
  have htype := correctType_operand c.operand
  rw [hs, List.cons_append] at hscan
  cases hp : c.precision with
  | absent =>
      have hskip := skipWhile_run (fun d hd ↦ absurd hd (List.not_mem_nil (a := d))) hb.notDigit
        (s ++ rest)
      rw [List.nil_append] at hskip
      simp [printfGetTypePrecision, Precision.text, Precision.stars, hs, hdot, hskip, hscan, htype]
  | digits d hd =>
      have hskip := skipWhile_run hd hb.notDigit (s ++ rest)
      have hstar : (d ++ b :: (s ++ rest)).head? ≠ some 42 := by
        cases d with
        | nil => simpa using hb.notStar
        | cons e d =>
            intro heq
            obtain rfl : e = 42 := by simpa using heq
            exact absurd (hd 42 List.mem_cons_self) (by decide)
      simp only [Precision.text, hs, List.cons_append, List.append_assoc]
      rw [printfGetTypePrecision, if_neg fun h ↦ hstar h.2]
      simp [Precision.stars, hskip, hscan, htype]
  | star v => simp [printfGetTypePrecision, Precision.text, Precision.stars]

theorem printfGetType_text (hoffset : w.offset = some offset)
    (htext : w.text.drop offset = c.text ++ rest) :
    printfGetType w =
      some (some (if c.width.stars = [] ∧ c.precision.stars = [] then c.operand.argType
        else .int)) := by
  obtain ⟨b, s, hs, hb, hstar⟩ := c.exists_width
  obtain ⟨b', s', hs', hb'⟩ := c.exists_precision
  have hflags := skipWhile_run c.flags_ok hb (s ++ rest)
  rw [printfGetType, hoffset]
  simp only [htext]
  rw [text_eq, hs]
  simp only [List.cons_append, List.append_assoc, hflags, ne_eq, not_true_eq_false, if_false,
    Option.bind_eq_bind, Option.bind_some, List.head?_cons, Option.some.injEq]
  by_cases hw : c.width.stars = []
  · have hb42 : b ≠ 42 := fun h ↦ hstar.mp h hw
    have hwidth : skipWhile isdigit (b :: (s ++ rest)) =
        some (c.precision.text ++ c.tail ++ rest) := by
      rw [← List.cons_append, ← hs, hs', List.append_assoc, List.cons_append]
      exact skipWhile_run (forall_mem_width hw) hb'.notDigit (s' ++ rest)
    rw [if_neg hb42, hwidth]
    refine (printfGetTypePrecision_text rest).trans ?_
    simp [hw]
  · simp [hw, hstar.mpr hw]

end Conversion

/-! ## What a step does with a conversion -/

section Step

variable (lib : CLibrary) (heap : List UInt8 → ℕ → UInt8)

namespace Conversion

variable {c : Conversion} {w : Working} {offset width precision : ℕ} {fmt rest : List UInt8}
  {arg : Arg}

theorem precision_cases (hp : c.precision.stars = []) :
    (c.precision.text = [] ∧ c.precision.value = none) ∨
      ∃ d, (∀ b ∈ d, isdigit b = true) ∧ c.precision.text = 46 :: d ∧
        c.precision.value = some (digitsValue d) := by
  cases hprecision : c.precision with
  | absent => exact Or.inl ⟨rfl, rfl⟩
  | digits d hd => exact Or.inr ⟨d, hd, rfl, rfl⟩
  | star v => simp [hprecision, Precision.stars] at hp

/-- The width and the precision as numbers of type `size_t`. -/
def sizeT (value : Option ℕ) : ℕ := min (value.getD 0) (2 ^ 64 - 1)

theorem nextConversion_tail (hfmt : fmt.length ≤ maxFormatLen) :
    nextConversion lib heap w offset fmt (c.tail ++ rest) width precision arg =
      if (fmt ++ c.tail).length < maxFormatLen then
        (sprintfEntry lib (fmt ++ c.tail) width precision arg).bind
          (splice heap w offset (fmt ++ c.tail).length)
      else none := by
  have hlen : (fmt ++ c.tail).length = fmt.length + c.operand.modifier.length + 1 := by
    simp [tail, Nat.add_assoc]
  rw [nextConversion, c.scanModifier_tail]
  simp only [Option.bind_eq_bind, Option.bind_some, foldlM_push _ hfmt, List.head?_cons]
  by_cases hmodifier : fmt.length + c.operand.modifier.length ≤ maxFormatLen
  · rw [if_pos hmodifier, Option.bind_some, push, List.length_append]
    by_cases htype : fmt.length + c.operand.modifier.length < maxFormatLen
    · rw [if_pos htype, Option.bind_some, push, List.append_assoc]
      change ((if (fmt ++ c.tail).length < maxFormatLen then some _ else none).bind _) = _
      by_cases hend : (fmt ++ c.tail).length < maxFormatLen
      · rw [if_pos hend, if_pos hend]
        rfl
      · rw [if_neg hend, if_neg hend]
        rfl
    · rw [if_neg htype, if_neg (by omega)]
      rfl
  · rw [if_neg hmodifier, if_neg (by omega)]
    rfl

theorem nextPrecision_text (hp : c.precision.stars = []) (hfmt : fmt.length ≤ maxFormatLen) :
    nextPrecision lib heap w offset fmt (c.precision.text ++ c.tail ++ rest) width arg =
      if (fmt ++ (c.precision.text ++ c.tail)).length < maxFormatLen then
        (sprintfEntry lib (fmt ++ (c.precision.text ++ c.tail)) width
          (sizeT c.precision.value) arg).bind
          (splice heap w offset (fmt ++ (c.precision.text ++ c.tail)).length)
      else none := by
  obtain ⟨b, s, hs, hb, hdot⟩ := c.exists_tail
  obtain ⟨hptext, hvalue⟩ | ⟨d, hd, hdtext, hvalue⟩ := precision_cases hp
  · have hhead : (c.tail ++ rest).head? ≠ some 46 := by simpa [hs] using hdot
    rw [hptext, hvalue, List.nil_append, nextPrecision, if_neg hhead]
    exact nextConversion_tail lib heap hfmt
  · have htext : d ++ c.tail ++ rest = d ++ b :: (s ++ rest) := by simp [hs]
    have hstar : (d ++ c.tail ++ rest).head? ≠ some 42 := by
      cases d with
      | nil => simpa [hs] using hb.notStar
      | cons e d =>
          intro heq
          obtain rfl : e = 42 := by simpa using heq
          exact absurd (hd 42 List.mem_cons_self) (by decide)
    have hnumber : number (d ++ c.tail ++ rest) = sizeT (some (digitsValue d)) := by
      rw [number, htext, digitsValue_run hd hb.notDigit]
      rfl
    rw [hdtext, hvalue, List.cons_append, List.cons_append]
    rw [nextPrecision, List.head?_cons, if_pos (rfl : some (46 : UInt8) = some 46), push]
    by_cases hroom : fmt.length < maxFormatLen
    · have hfmt' : (fmt ++ [46]).length ≤ maxFormatLen := by
        rw [List.length_append]
        exact hroom
      simp only [if_pos hroom, Option.bind_eq_bind, Option.bind_some, List.tail_cons,
        if_neg hstar, hnumber]
      rw [htext, copyWhile_run hd hb.notDigit _ hfmt', ← List.cons_append, ← hs]
      by_cases hdigits : (fmt ++ [46]).length + d.length ≤ maxFormatLen
      · rw [if_pos hdigits, Option.bind_some]
        have hfmt'' : (fmt ++ [46] ++ d).length ≤ maxFormatLen := by
          rwa [List.length_append]
        have hsplit : fmt ++ [46] ++ d ++ c.tail = fmt ++ 46 :: (d ++ c.tail) := by simp
        rw [← hsplit]
        exact nextConversion_tail lib heap hfmt''
      · rw [if_neg hdigits, if_neg]
        · rfl
        · simp only [List.length_append, List.length_cons, List.length_nil] at hdigits ⊢
          omega
    · rw [if_neg hroom, if_neg]
      · rfl
      · simp only [List.length_append, List.length_cons]
        omega

theorem nextPrecision_star (hp : c.precision.stars ≠ []) :
    nextPrecision lib heap w offset fmt (c.precision.text ++ c.tail ++ rest) width arg =
      if (fmt ++ [46]).length ≤ maxFormatLen then
        replaceStar heap w (offset + (fmt ++ [46]).length) arg
      else none := by
  have hptext : c.precision.text = [46, 42] := by
    cases hprecision : c.precision with
    | absent => simp [hprecision, Precision.stars] at hp
    | digits d hd => simp [hprecision, Precision.stars] at hp
    | star v => rfl
  have hlen : (fmt ++ [46]).length = fmt.length + 1 := List.length_append
  rw [nextPrecision, hptext]
  simp only [List.cons_append, List.nil_append, List.head?_cons, List.tail_cons, if_true, push]
  by_cases hroom : fmt.length < maxFormatLen
  · rw [if_pos hroom, if_pos (by omega)]
    rfl
  · rw [if_neg hroom, if_neg (by omega)]
    rfl

variable (arg)

/-- The flags are copied, and an asterisk behind them is replaced. -/
theorem asprintfNext_flags (hoffset : w.offset = some offset)
    (htext : w.text.drop offset = c.text ++ rest) :
    asprintfNext lib heap w arg =
      if (37 :: c.flags).length ≤ maxFormatLen then
        if c.width.stars ≠ [] then replaceStar heap w (offset + (37 :: c.flags).length) arg
        else (copyWhile isdigit (37 :: c.flags)
          (c.width.text ++ (c.precision.text ++ c.tail) ++ rest)).bind fun r ↦
            nextPrecision lib heap w offset r.1 r.2
              (number (c.width.text ++ (c.precision.text ++ c.tail) ++ rest)) arg
      else none := by
  obtain ⟨b, s, hs, hb, hstar⟩ := c.exists_width
  rw [asprintfNext, hoffset]
  simp only [htext]
  rw [text_eq, hs]
  simp only [List.cons_append, List.append_assoc]
  rw [copyWhile_run c.flags_ok hb (s ++ rest) (by decide)]
  simp only [List.length_cons, List.length_nil, Nat.zero_add, Nat.add_comm 1, List.singleton_append]
  by_cases hflags : c.flags.length + 1 ≤ maxFormatLen
  · rw [if_pos hflags, if_pos hflags]
    simp only [Option.bind_eq_bind, Option.bind_some, List.head?_cons, Option.some.injEq, hstar,
      List.length_cons]
  · rw [if_neg hflags, if_neg hflags]
    rfl

theorem asprintfNext_star (hoffset : w.offset = some offset)
    (htext : w.text.drop offset = c.text ++ rest) (hw : c.width.stars ≠ []) :
    asprintfNext lib heap w arg =
      if (37 :: c.flags).length ≤ maxFormatLen then
        replaceStar heap w (offset + (37 :: c.flags).length) arg
      else none := by
  rw [asprintfNext_flags lib heap arg hoffset htext, if_pos hw]

theorem asprintfNext_width (hoffset : w.offset = some offset)
    (htext : w.text.drop offset = c.text ++ rest) (hw : c.width.stars = []) :
    asprintfNext lib heap w arg =
      if (37 :: c.flags ++ c.width.text).length ≤ maxFormatLen then
        nextPrecision lib heap w offset (37 :: c.flags ++ c.width.text)
          (c.precision.text ++ c.tail ++ rest) (sizeT c.width.value) arg
      else none := by
  obtain ⟨b, s, hs, hb⟩ := c.exists_precision
  have hdigits := forall_mem_width hw
  have hnumber : number (c.width.text ++ b :: (s ++ rest)) = sizeT c.width.value := by
    rw [number, digitsValue_run hdigits hb.notDigit]
    cases hwidth : c.width with
    | absent => rfl
    | digits d hd hstart => rfl
    | star v => simp [hwidth, Width.stars] at hw
  have hnostar : ¬c.width.stars ≠ [] := by simp [hw]
  rw [asprintfNext_flags lib heap arg hoffset htext, if_neg hnostar, hs]
  simp only [List.append_assoc, List.cons_append]
  rw [hnumber]
  by_cases hflags : (37 :: c.flags).length ≤ maxFormatLen
  · rw [if_pos hflags, copyWhile_run hdigits hb.notDigit _ hflags, ← List.length_append,
      List.cons_append]
    by_cases hwidth : (37 :: (c.flags ++ c.width.text)).length ≤ maxFormatLen
    · rw [if_pos hwidth, if_pos hwidth]
      rfl
    · rw [if_neg hwidth, if_neg hwidth]
      rfl
  · rw [if_neg hflags, if_neg]
    simp only [List.length_cons, List.length_append] at hflags ⊢
    omega

/-- An asterisk for the precision is replaced. -/
theorem asprintfNext_precision_star (hoffset : w.offset = some offset)
    (htext : w.text.drop offset = c.text ++ rest) (hw : c.width.stars = [])
    (hp : c.precision.stars ≠ []) :
    asprintfNext lib heap w arg =
      if (37 :: c.flags ++ c.width.text ++ [46]).length ≤ maxFormatLen then
        replaceStar heap w (offset + (37 :: c.flags ++ c.width.text ++ [46]).length) arg
      else none := by
  rw [asprintfNext_width lib heap arg hoffset htext hw]
  by_cases hroom : (37 :: c.flags ++ c.width.text).length ≤ maxFormatLen
  · rw [if_pos hroom, nextPrecision_star lib heap hp]
  · rw [if_neg hroom, if_neg]
    rw [List.length_append]
    omega

/-- The step that converts. -/
theorem asprintfNext_text (hoffset : w.offset = some offset)
    (htext : w.text.drop offset = c.text ++ rest) (hc : c.StarFree) :
    asprintfNext lib heap w arg =
      if c.text.length < maxFormatLen then
        (sprintfEntry lib c.text (sizeT c.width.value) (sizeT c.precision.value) arg).bind
          (splice heap w offset c.text.length)
      else none := by
  have hsplit : 37 :: c.flags ++ c.width.text ++ (c.precision.text ++ c.tail) = c.text := by
    simp [text, List.append_assoc]
  rw [asprintfNext_width lib heap arg hoffset htext hc.width]
  by_cases hwidth : (37 :: c.flags ++ c.width.text).length ≤ maxFormatLen
  · rw [if_pos hwidth, nextPrecision_text lib heap hc.precision hwidth, hsplit]
  · rw [if_neg hwidth, if_neg]
    rw [← hsplit, List.length_append]
    omega

end Conversion

end Step

/-! ## The memory of a step -/

section Memory

variable (lib : CLibrary) (heap : List UInt8 → ℕ → UInt8)

/-- A string has room for its result, and a number or a character for a short one. -/
theorem sprintfEntry_text {c : Conversion} (hc : c.StarFree) {out : Str} (precision : ℕ)
    (hout : c.output lib = some out) :
    sprintfEntry lib c.text (Conversion.sizeT c.width.value) precision c.operand.arg =
      if c.operand.isString = true ∨ out.length < maxArgLen then some (some out) else none := by
  have hconvert : lib.convert (directive c.text) c.operand.arg = some out := by
    rw [Conversion.directive_text hc]
    exact hout
  cases hoperand : c.operand with
  | int modifier type v hmodifier htype =>
      rw [hoperand] at hconvert
      simp [sprintfEntry, Operand.arg, Operand.isString] at hconvert ⊢
      rw [hconvert]
  | long type v htype =>
      rw [hoperand] at hconvert
      simp [sprintfEntry, Operand.arg, Operand.isString] at hconvert ⊢
      rw [hconvert]
  | char v =>
      rw [hoperand] at hconvert
      simp [sprintfEntry, Operand.arg, Operand.isString] at hconvert ⊢
      rw [hconvert]
  | string s hs =>
      have htype : c.meaning.type = 115 := by
        rw [Conversion.meaning, hoperand]
        rfl
      rw [hoperand] at hconvert
      have hlen := lib.length_convert_string c.meaning s out htype (by
        rwa [Conversion.directive_text hc] at hconvert)
      have hint := lib.length_convert _ _ _ hconvert
      have hroom : out.length ≤ max (max s.length (Conversion.sizeT c.width.value)) precision := by
        have hwidth : c.meaning.width.getD 0 = c.width.value.getD 0 := rfl
        rw [Conversion.sizeT]
        omega
      have hconvert' : lib.convert (directive c.text) (.charp (some s)) = some out := hconvert
      simp only [Operand.arg, Operand.isString, true_or, if_true]
      rw [sprintfEntry]
      simp only [hconvert']
      by_cases hlong : max (max s.length (Conversion.sizeT c.width.value)) precision ≥ maxArgLen
      · rw [if_pos hlong, if_pos (Nat.lt_succ_of_le hroom)]
      · rw [if_neg hlong, if_pos (by omega)]

/-- What is in memory from the start of the string on, after it has grown. -/
theorem exists_realloc (body slack : List UInt8) {n : ℕ} (h : body.length ≤ n) :
    ∃ slack', realloc heap (body ++ slack) n = body ++ slack' ∧
      n ≤ (body ++ slack').length := by
  refine ⟨slack.take (n - body.length) ++ (List.range' (body ++ slack).length
    (n - (body ++ slack).length)).map (heap (body ++ slack)), ?_, ?_⟩
  · rw [realloc, List.take_append, List.take_of_length_le h, List.append_assoc]
  · simp only [List.length_append, List.length_take, List.length_map, List.length_range']
    omega

/-- The text behind a part of the string is moved, and another part written in front of it. -/
theorem move_and_copy {pre old new rest slack : List UInt8}
    (hroom : pre.length + new.length + rest.length ≤ (pre ++ old ++ rest ++ slack).length) :
    ∃ slack', (memmove (pre ++ old ++ rest ++ slack) (pre.length + new.length)
        (pre.length + old.length) rest.length).bind (fun text ↦ memcpy text pre.length new) =
      some (pre ++ new ++ rest ++ slack') := by
  let mem := pre ++ old ++ rest ++ slack
  have hread : (mem.drop (pre.length + old.length)).take rest.length = rest := by
    have hmem : mem = (pre ++ old) ++ (rest ++ slack) := by simp [mem, List.append_assoc]
    rw [hmem, ← List.length_append, List.drop_left, List.take_left]
  have hpre : mem.take pre.length = pre := by
    have hmem : mem = pre ++ (old ++ (rest ++ slack)) := by simp [mem, List.append_assoc]
    rw [hmem, List.take_left]
  have hdst : (mem.take (pre.length + new.length)).length = pre.length + new.length :=
    List.length_take_of_le (Nat.le_trans (Nat.le_add_right _ _) hroom)
  let slack' := mem.drop (pre.length + new.length + rest.length)
  have hmove : memmove mem (pre.length + new.length) (pre.length + old.length) rest.length =
      some (mem.take (pre.length + new.length) ++ rest ++ slack') := by
    rw [memmove, if_pos, hread]
    exact ⟨by simp only [mem, List.length_append]; omega, hroom⟩
  refine ⟨slack', ?_⟩
  rw [hmove, Option.bind_some, memcpy, if_pos]
  · have htake : (mem.take (pre.length + new.length) ++ rest ++ slack').take pre.length = pre := by
      rw [List.append_assoc, List.take_append_of_le_length (by omega), List.take_take,
        Nat.min_eq_left (Nat.le_add_right _ _), hpre]
    have hdrop : (mem.take (pre.length + new.length) ++ rest ++ slack').drop
        (pre.length + new.length) = rest ++ slack' := by
      rw [List.append_assoc]
      exact List.drop_left' hdst
    rw [htake, hdrop, ← List.append_assoc]
  · simp only [List.length_append, hdst]
    omega

/-- The result of a conversion takes the place of its text. -/
theorem splice_text {w : Working} {done spec rest slack : List UInt8} (out : List UInt8)
    (htext : w.text = done ++ spec ++ (rest ++ [0]) ++ slack)
    (hlen : w.len = done.length + spec.length + rest.length) :
    ∃ slack', splice heap w done.length spec.length (some out) =
      (findFormat (done ++ out).length (rest ++ 0 :: slack')).map fun next ↦
        ⟨next, (done ++ out).length + rest.length, done ++ out ++ (rest ++ [0]) ++ slack'⟩ := by
  have hgrow : ∃ slack', (if w.len + 1 < w.len + 1 - spec.length + out.length then
        realloc heap w.text (w.len + 1 - spec.length + out.length) else w.text) =
        done ++ spec ++ (rest ++ [0]) ++ slack' ∧
      done.length + out.length + (rest ++ [0]).length ≤
        (done ++ spec ++ (rest ++ [0]) ++ slack').length := by
    by_cases hshort : w.len + 1 < w.len + 1 - spec.length + out.length
    · rw [if_pos hshort, htext]
      have hbody : (done ++ spec ++ (rest ++ [0])).length ≤
          w.len + 1 - spec.length + out.length := by
        simp only [List.length_append, List.length_singleton]
        omega
      obtain ⟨slack', hrealloc, hle⟩ := exists_realloc heap _ slack hbody
      refine ⟨slack', hrealloc, Nat.le_trans ?_ hle⟩
      simp only [List.length_append, List.length_singleton]
      omega
    · rw [if_neg hshort]
      refine ⟨slack, htext, ?_⟩
      simp only [List.length_append, List.length_singleton]
      omega
  obtain ⟨mem, hmem, hroom⟩ := hgrow
  obtain ⟨slack', hcopy⟩ := move_and_copy hroom
  refine ⟨slack', ?_⟩
  have hcount : w.len + 1 - done.length - spec.length = (rest ++ [0]).length := by
    rw [List.length_append, List.length_singleton]
    omega
  have hdrop : (done ++ out ++ (rest ++ [0]) ++ slack').drop (done.length + out.length) =
      rest ++ 0 :: slack' := by
    rw [List.append_assoc (done ++ out), ← List.length_append, List.drop_left,
      List.append_assoc, List.singleton_append]
  simp only [splice, Option.bind_eq_bind]
  rw [hmem, hcount, ← Option.bind_assoc, hcopy, Option.bind_some, hdrop, List.length_append]
  have hlen' : w.len + out.length - spec.length = done.length + out.length + rest.length := by
    omega
  rw [hlen']
  cases findFormat (done.length + out.length) (rest ++ 0 :: slack') <;> rfl

end Memory

/-! ## Asterisks -/

theorem decimal_digit {v : Int32} (hv : 0 ≤ v ∧ v ≤ 9) :
    decimal v = [Sbbs3.digit v.toInt.natAbs] ∧ v.toInt.natAbs < 10 := by
  have hneg : ¬v < 0 := by
    rw [Int32.lt_iff_toInt_lt]
    have := Int32.le_iff_toInt_le.mp hv.1
    omega
  have hlow := Int32.le_iff_toInt_le.mp hv.1
  have hhigh := Int32.le_iff_toInt_le.mp hv.2
  have hlt : v.toInt.natAbs < 10 := by
    change (0 : ℤ) ≤ _ at hlow
    change _ ≤ (9 : ℤ) at hhigh
    omega
  rw [decimal, if_neg hneg, ultoa_of_lt hlt]
  exact ⟨rfl, hlt⟩

/-- Every other number has more than one character. -/
theorem one_lt_length_decimal {v : Int32} (hv : ¬(0 ≤ v ∧ v ≤ 9)) : 1 < (decimal v).length := by
  have hpos : ∀ n, 0 < (ultoa n 10).length := fun n ↦
    List.length_pos_of_ne_nil (Sbbs3.ultoa_ne_nil n 10)
  rw [decimal]
  by_cases hneg : v < 0
  · rw [if_pos hneg, List.length_cons]
    exact Nat.succ_lt_succ (hpos _)
  · have hle : 10 ≤ v.toInt.natAbs := by
      rw [Int32.lt_iff_toInt_lt] at hneg
      rw [Int32.le_iff_toInt_le, Int32.le_iff_toInt_le] at hv
      change ¬_ < (0 : ℤ) at hneg
      change ¬((0 : ℤ) ≤ _ ∧ _ ≤ (9 : ℤ)) at hv
      omega
    rw [if_neg hneg, Sbbs3.ultoa_of_le (by decide) hle, List.length_append]
    exact Nat.lt_add_of_pos_left (hpos _)

section Star

variable (heap : List UInt8 → ℕ → UInt8)

theorem length_realloc (mem : List UInt8) (n : ℕ) : (realloc heap mem n).length = n := by
  rw [realloc]
  simp only [List.length_append, List.length_take, List.length_map, List.length_range']
  omega

theorem replaceStar_digit {w : Working} {pre post : List UInt8} {v : Int32}
    (htext : w.text = pre ++ 42 :: post) (hv : 0 ≤ v ∧ v ≤ 9) :
    replaceStar heap w pre.length (.int v) =
      some { w with text := pre ++ Sbbs3.digit v.toInt.natAbs :: post } := by
  have hroom : pre.length + 1 ≤ (pre ++ 42 :: post).length := by
    rw [List.length_append, List.length_cons]
    omega
  have hdrop : (pre ++ 42 :: post).drop (pre.length + 1) = post := by
    rw [← List.drop_drop, List.drop_left, List.drop_succ_cons, List.drop_zero]
  simp only [replaceStar, (decimal_digit hv).1, List.length_singleton, htext, memcpy]
  rw [if_neg (Nat.lt_irrefl 1), if_pos hroom, List.take_left, hdrop]
  simp

/-- For a number with more characters the byte behind the block is written. -/
theorem replaceStar_eq_none {w : Working} {p : ℕ} {v : Int32} (hp : p ≤ w.len)
    (hv : ¬(0 ≤ v ∧ v ≤ 9)) : replaceStar heap w p (.int v) = none := by
  have hlen := one_lt_length_decimal hv
  simp only [replaceStar]
  rw [if_pos hlen, memmove, if_neg]
  · rfl
  · rw [length_realloc]
    omega

end Star

theorem digitsValue_digit {n : ℕ} (h : n < 10) : digitsValue [Sbbs3.digit n] = n := by
  rw [← ultoa_of_lt h, Sbbs3.digitsValue_ultoa]

theorem isdigit_digit : ∀ n < 10, isdigit (Sbbs3.digit n) = true := by decide +kernel

namespace Conversion

/-- A digit for the width, which is a flag when it is zero. -/
theorem exists_width_digit (lib : CLibrary) {c : Conversion} {v : Int32} (hw : c.width = .star v)
    (hv : 0 ≤ v ∧ v ≤ 9) :
    ∃ c' : Conversion, c'.width.stars = [] ∧ c'.precision = c.precision ∧
      c'.operand = c.operand ∧ c'.output lib = c.output lib ∧
      c'.text = 37 :: c.flags ++ Sbbs3.digit v.toInt.natAbs :: (c.precision.text ++ c.tail) := by
  obtain ⟨flags, flags_ok, width, precision, operand⟩ := c
  dsimp only at hw
  subst hw
  have hneg : ¬v < 0 := Int32.not_lt.mpr hv.1
  have hlt := (decimal_digit hv).2
  by_cases hzero : v.toInt.natAbs = 0
  · have hflags : ∀ b ∈ flags ++ [48], isFlag b = true := by
      intro b hb
      rcases List.mem_append.mp hb with hb | hb
      · exact flags_ok b hb
      · rw [List.mem_singleton.mp hb]
        rfl
    refine ⟨⟨flags ++ [48], hflags, .absent, precision, operand⟩, rfl, rfl, rfl, ?_, ?_⟩
    · have hconvert := lib.convert_zero
        ⟨flags, none, precision.value, operand.modifier, operand.type⟩ operand.arg
      simpa [output, meaning, Width.flags, Width.value, hneg, hzero] using hconvert
    · simp [text, tail, Width.text, hzero, Sbbs3.digit, Nat.digitChar]
  · have hstart : Sbbs3.digit v.toInt.natAbs ≠ 48 := by
      have hdigit : ∀ n < 10, n ≠ 0 → Sbbs3.digit n ≠ 48 := by decide +kernel
      exact hdigit _ hlt hzero
    refine ⟨⟨flags, flags_ok, .digits [Sbbs3.digit v.toInt.natAbs] ?_ ⟨_, [], rfl, hstart⟩,
      precision, operand⟩, rfl, rfl, rfl, ?_, ?_⟩
    · simpa using isdigit_digit _ hlt
    · simp [output, meaning, Width.flags, Width.value, hneg, digitsValue_digit hlt]
    · simp [text, tail, Width.text]

theorem exists_precision_digit (lib : CLibrary) {c : Conversion} {v : Int32}
    (hp : c.precision = .star v) (hv : 0 ≤ v ∧ v ≤ 9) :
    ∃ c' : Conversion, c'.width = c.width ∧ c'.precision.stars = [] ∧
      c'.operand = c.operand ∧ c'.output lib = c.output lib ∧
      c'.text = 37 :: c.flags ++ c.width.text ++ [46] ++
        Sbbs3.digit v.toInt.natAbs :: c.tail := by
  obtain ⟨flags, flags_ok, width, precision, operand⟩ := c
  dsimp only at hp
  subst hp
  have hneg : ¬v < 0 := Int32.not_lt.mpr hv.1
  have hlt := (decimal_digit hv).2
  refine ⟨⟨flags, flags_ok, width, .digits [Sbbs3.digit v.toInt.natAbs] ?_, operand⟩,
    rfl, rfl, rfl, ?_, ?_⟩
  · simpa using isdigit_digit _ hlt
  · simp [output, meaning, Precision.value, hneg, digitsValue_digit hlt]
  · simp [text, tail, Precision.text]

end Conversion

/-! ## A conversion with its arguments -/

section Runs

variable (lib : CLibrary) (heap : List UInt8 → ℕ → UInt8)

/-- A string that is done up to `done`, with a conversion next and `rest` behind it. -/
structure Ready (w : Working) (done spec rest slack : List UInt8) : Prop where
  text : w.text = done ++ spec ++ (rest ++ [0]) ++ slack
  len : w.len = done.length + spec.length + rest.length
  offset : w.offset = some done.length

/-- The string after a conversion, with the next one searched behind it. -/
def afterConversion (done out rest slack : List UInt8) : Option Working :=
  (findFormat (done ++ out).length (rest ++ 0 :: slack)).map fun next ↦
    ⟨next, (done ++ out).length + rest.length, done ++ out ++ (rest ++ [0]) ++ slack⟩

/-- The loop of `xp_vasprintf` puts the arguments of a conversion in just when it fits. -/
structure Expands (c : Conversion) (w : Working) (done rest out : List UInt8)
    (args : List Arg) : Prop where
  fits : c.Fits lib → ∃ slack, expand lib heap w (c.args ++ args) =
    (afterConversion done out rest slack).bind fun w ↦ expand lib heap w args
  faults : ¬c.Fits lib → expand lib heap w (c.args ++ args) = none

theorem expand_cons {w : Working} {offset : ℕ} {type : ArgType} {arg : Arg} {args : List Arg}
    (hoffset : w.offset = some offset) (htype : printfGetType w = some (some type))
    (hsuits : suits type arg = true) :
    expand lib heap w (arg :: args) =
      (asprintfNext lib heap w arg).bind fun w ↦ expand lib heap w args := by
  rw [expand, hoffset]
  simp only [htype, Option.bind_eq_bind, Option.bind_some, hsuits, if_true]

variable {lib} {c : Conversion} {w : Working} {done rest slack out : List UInt8}

theorem Ready.drop (h : Ready w done c.text rest slack) :
    w.text.drop done.length = c.text ++ ((rest ++ [0]) ++ slack) := by
  rw [h.text, List.append_assoc, List.append_assoc, List.drop_left]

theorem expands_starFree (hc : c.StarFree) (h : Ready w done c.text rest slack)
    (hout : c.output lib = some out) (args : List Arg) :
    Expands lib heap c w done rest out args := by
  have htype := Conversion.printfGetType_text h.offset h.drop
  rw [if_pos ⟨hc.width, hc.precision⟩] at htype
  have hstars : c.stars = [] := by rw [Conversion.stars, hc.width, hc.precision, List.append_nil]
  have hargs : c.args ++ args = c.operand.arg :: args := by
    rw [Conversion.args, hstars]
    rfl
  have hentry := sprintfEntry_text lib hc (Conversion.sizeT c.precision.value) hout
  have hstep := Conversion.asprintfNext_text lib heap c.operand.arg h.offset h.drop hc
  rw [hentry] at hstep
  constructor
  · intro hfits
    obtain ⟨slack', hsplice⟩ := splice_text heap out h.text h.len
    have hroom : c.operand.isString = true ∨ out.length < maxArgLen :=
      hfits.entry.imp_right fun hlen ↦ hlen out hout
    refine ⟨slack', ?_⟩
    rw [hargs, expand_cons lib heap h.offset htype (suits_argType _), hstep, if_pos hfits.text,
      if_pos hroom, Option.bind_some, hsplice]
    rfl
  · intro hfits
    rw [hargs, expand_cons lib heap h.offset htype (suits_argType _), hstep]
    by_cases htext : c.text.length < maxFormatLen
    · have hroom : ¬(c.operand.isString = true ∨ out.length < maxArgLen) := by
        intro hroom
        refine hfits ⟨by simp [hstars], htext, hroom.imp_right fun hlen out' hout' ↦ ?_⟩
        obtain rfl : out = out' := Option.some.inj (hout.symm.trans hout')
        exact hlen
      rw [if_pos htext, if_neg hroom]
      rfl
    · rw [if_neg htext]
      rfl

/-- An asterisk is replaced before anything else is done with the conversion. -/
theorem expands_star (pre post : List UInt8) {v : Int32} (h : Ready w done c.text rest slack)
    (htext : c.text = pre ++ 42 :: post) (hstars : ∃ vs, c.stars = v :: vs)
    (hnotFree : ¬(c.width.stars = [] ∧ c.precision.stars = []))
    (hnext : asprintfNext lib heap w (.int v) =
      if pre.length ≤ maxFormatLen then replaceStar heap w (done.length + pre.length) (.int v)
      else none)
    {args : List Arg}
    (hdigit : 0 ≤ v ∧ v ≤ 9 → ∃ c' : Conversion, c.stars = v :: c'.stars ∧
      c'.operand = c.operand ∧ c'.output lib = c.output lib ∧
      c'.text = pre ++ Sbbs3.digit v.toInt.natAbs :: post ∧
      ∀ w' : Working, Ready w' done c'.text rest slack →
        Expands lib heap c' w' done rest out args) :
    Expands lib heap c w done rest out args := by
  have htype := Conversion.printfGetType_text h.offset h.drop
  rw [if_neg hnotFree] at htype
  have hmem : v ∈ c.stars := by
    obtain ⟨vs, hvs⟩ := hstars
    rw [hvs]
    exact List.mem_cons_self
  have hexpand : expand lib heap w (c.args ++ args) =
      (asprintfNext lib heap w (.int v)).bind fun w ↦
        expand lib heap w ((c.stars.tail.map Arg.int ++ [c.operand.arg]) ++ args) := by
    obtain ⟨vs, hvs⟩ := hstars
    rw [Conversion.args, hvs]
    exact expand_cons lib heap h.offset htype rfl
  rw [hnext] at hexpand
  by_cases hv : 0 ≤ v ∧ v ≤ 9
  · obtain ⟨c', hstars', hoperand, houtput, htext', hexpands⟩ := hdigit hv
    have hlen : c'.text.length = c.text.length := by
      rw [htext', htext, List.length_append, List.length_append]
      rfl
    have hfits : c.Fits lib ↔ c'.Fits lib := by
      constructor
      · intro hf
        refine ⟨fun u hu ↦ hf.stars u ?_, hlen ▸ hf.text, ?_⟩
        · rw [hstars']
          exact List.mem_cons_of_mem v hu
        · rw [hoperand, houtput]
          exact hf.entry
      · intro hf
        refine ⟨?_, hlen ▸ hf.text, ?_⟩
        · rw [hstars']
          exact List.forall_mem_cons.mpr ⟨hv, hf.stars⟩
        · rw [← hoperand, ← houtput]
          exact hf.entry
    have hargs : c.stars.tail.map Arg.int ++ [c.operand.arg] = c'.args := by
      rw [Conversion.args, hstars', hoperand]
      rfl
    have hwtext : w.text = (done ++ pre) ++ 42 :: (post ++ (rest ++ [0]) ++ slack) := by
      rw [h.text, htext]
      simp [List.append_assoc]
    have hreplace := replaceStar_digit heap hwtext hv
    rw [List.length_append] at hreplace
    let w' : Working := { w with
      text := (done ++ pre) ++ Sbbs3.digit v.toInt.natAbs :: (post ++ (rest ++ [0]) ++ slack) }
    have hready : Ready w' done c'.text rest slack := by
      refine ⟨?_, ?_, h.offset⟩
      · rw [htext']
        simp [w', List.append_assoc]
      · rw [hlen]
        exact h.len
    have hafter := hexpands w' hready
    rw [hargs, hreplace] at hexpand
    by_cases hroom : pre.length ≤ maxFormatLen
    · rw [if_pos hroom, Option.bind_some] at hexpand
      constructor
      · intro hf
        obtain ⟨slack', hslack'⟩ := hafter.fits (hfits.mp hf)
        exact ⟨slack', hexpand.trans hslack'⟩
      · intro hf
        exact hexpand.trans (hafter.faults fun hf' ↦ hf (hfits.mpr hf'))
    · rw [if_neg hroom] at hexpand
      refine ⟨fun hf ↦ absurd ?_ hroom, fun _ ↦ hexpand⟩
      have := hf.text
      rw [htext, List.length_append, List.length_cons] at this
      omega
  · have hp : done.length + pre.length ≤ w.len := by
      rw [h.len, htext, List.length_append]
      omega
    rw [replaceStar_eq_none heap hp hv, ite_self] at hexpand
    exact ⟨fun hf ↦ absurd (hf.stars v hmem) hv, fun _ ↦ hexpand⟩

theorem expands_precision (hw : c.width.stars = []) (h : Ready w done c.text rest slack)
    (hout : c.output lib = some out) (args : List Arg) :
    Expands lib heap c w done rest out args := by
  by_cases hp : c.precision.stars = []
  · exact expands_starFree heap ⟨hw, hp⟩ h hout args
  · obtain ⟨v, hv⟩ : ∃ v, c.precision = .star v := by
      cases hprecision : c.precision with
      | star v => exact ⟨v, rfl⟩
      | _ => simp [hprecision, Precision.stars] at hp
    have hstars : c.stars = [v] := by
      rw [Conversion.stars, hw, hv]
      rfl
    refine expands_star heap (37 :: c.flags ++ c.width.text ++ [46]) c.tail h ?_
      ⟨[], hstars⟩ (fun hfree ↦ hp hfree.2)
      (Conversion.asprintfNext_precision_star lib heap _ h.offset h.drop hw hp) fun hdigit ↦ ?_
    · simp [Conversion.text, hv, Precision.text, List.append_assoc]
    · obtain ⟨c', hw', hp', hoperand, houtput, htext⟩ :=
        Conversion.exists_precision_digit lib hv hdigit
      have hfree : c'.StarFree := ⟨by rw [hw', hw], hp'⟩
      refine ⟨c', ?_, hoperand, houtput, htext, fun w' hready ↦ ?_⟩
      · rw [hstars, Conversion.stars, hfree.width, hfree.precision]
        rfl
      · exact expands_starFree heap hfree hready (houtput.trans hout) args

/-- Every conversion, with or without asterisks. -/
theorem expands_conversion (h : Ready w done c.text rest slack) (hout : c.output lib = some out)
    (args : List Arg) : Expands lib heap c w done rest out args := by
  by_cases hw : c.width.stars = []
  · exact expands_precision heap hw h hout args
  · obtain ⟨v, hv⟩ : ∃ v, c.width = .star v := by
      cases hwidth : c.width with
      | star v => exact ⟨v, rfl⟩
      | _ => simp [hwidth, Width.stars] at hw
    have hstars : c.stars = v :: c.precision.stars := by
      rw [Conversion.stars, hv]
      rfl
    refine expands_star heap (37 :: c.flags) (c.precision.text ++ c.tail) h ?_
      ⟨_, hstars⟩ (fun hfree ↦ hw hfree.1)
      (Conversion.asprintfNext_star lib heap _ h.offset h.drop hw) fun hdigit ↦ ?_
    · simp [Conversion.text, hv, Width.text, List.append_assoc]
    · obtain ⟨c', hw', hp', hoperand, houtput, htext⟩ :=
        Conversion.exists_width_digit lib hv hdigit
      refine ⟨c', ?_, hoperand, houtput, htext, fun w' hready ↦ ?_⟩
      · rw [hstars, Conversion.stars, hw', hp']
        rfl
      · exact expands_precision heap hw' hready (houtput.trans hout) args

end Runs

/-! ## The search for the next conversion -/

namespace Conversion

theorem percent_notMem_text (c : Conversion) : (37 : UInt8) ∉ c.text.tail := by
  have hdigits : ∀ d : Str, (∀ b ∈ d, isdigit b = true) → (37 : UInt8) ∉ d :=
    fun d hd h ↦ absurd (hd 37 h) (by decide)
  have hflags : (37 : UInt8) ∉ c.flags := fun h ↦ absurd (c.flags_ok 37 h) (by decide)
  have hwidth : (37 : UInt8) ∉ c.width.text := by
    cases c.width with
    | absent => simp [Width.text]
    | digits d hd hstart => exact hdigits d hd
    | star v => simp [Width.text]
  have hprecision : (37 : UInt8) ∉ c.precision.text := by
    cases c.precision with
    | absent => simp [Precision.text]
    | digits d hd => simpa [Precision.text] using hdigits d hd
    | star v => simp [Precision.text]
  have htail : (37 : UInt8) ∉ c.tail := by
    rw [tail]
    cases c.operand with
    | int modifier type v hmodifier htype =>
        have htable : ∀ m ∈ ([[], [104], [104, 104]] : List Str),
            ∀ t ∈ ([100, 105, 111, 117, 120, 88] : Str), (37 : UInt8) ∉ m ++ [t] := by decide
        exact htable modifier hmodifier type htype
    | long type v htype =>
        have htable : ∀ t ∈ ([100, 105, 111, 117, 120, 88] : Str),
            (37 : UInt8) ∉ ([108] ++ [t] : Str) := by decide
        exact htable type htype
    | char v => exact (by decide : (37 : UInt8) ∉ ([99] : Str))
    | string s hs => exact (by decide : (37 : UInt8) ∉ ([115] : Str))
  rw [text_eq, List.tail_cons]
  simp only [List.mem_append, not_or]
  exact ⟨hflags, hwidth, hprecision, htail⟩

theorem findFormat_text (c : Conversion) (p : ℕ) (rest : List UInt8) :
    findFormat p (c.text ++ rest) = some (some p) := by
  have hpercent := c.percent_notMem_text
  rw [text_eq, List.tail_cons] at hpercent
  obtain ⟨b, s, hs⟩ : ∃ b s, c.flags ++ (c.width.text ++ (c.precision.text ++ c.tail)) = b :: s := by
    refine List.exists_cons_of_ne_nil fun hnil ↦ ?_
    simp [tail] at hnil
  rw [hs] at hpercent
  have hb : b ≠ 37 := fun h ↦ hpercent (h ▸ List.mem_cons_self)
  rw [text_eq, hs]
  simp [findFormat, hb]

end Conversion

theorem findFormat_char {c : UInt8} (hzero : c ≠ 0) (hpercent : c ≠ 37) (p : ℕ)
    (rest : List UInt8) : findFormat p (c :: rest) = findFormat (p + 1) rest := by
  rw [findFormat.eq_def]
  simp only [if_neg hzero, if_neg hpercent]

@[simp] theorem findFormat_zero (p : ℕ) (rest : List UInt8) :
    findFormat p (0 :: rest) = some none := by
  rw [findFormat.eq_def]
  simp

@[simp] theorem findFormat_percent (p : ℕ) (rest : List UInt8) :
    findFormat p (37 :: 37 :: rest) = findFormat (p + 2) rest := by
  simp [findFormat]

/-- The search ends inside every string. -/
theorem exists_findFormat (items : List Item) (p : ℕ) (slack : List UInt8) :
    ∃ next, findFormat p (formatText items ++ 0 :: slack) = some next := by
  induction items generalizing p with
  | nil => exact ⟨none, by simp [formatText]⟩
  | cons i items ih =>
      rw [formatText, List.flatMap_cons, ← formatText, List.append_assoc]
      cases i with
      | char c hzero hpercent =>
          obtain ⟨next, hnext⟩ := ih (p + 1)
          exact ⟨next, (findFormat_char hzero hpercent p _).trans hnext⟩
      | percent =>
          obtain ⟨next, hnext⟩ := ih (p + 2)
          exact ⟨next, (findFormat_percent p _).trans hnext⟩
      | conversion c => exact ⟨some p, c.findFormat_text p _⟩

/-! ## The whole string -/

section Whole

variable (lib : CLibrary) (heap : List UInt8 → ℕ → UInt8)

/-- The working string when no conversion is left: the characters and `%%` pairs as they were, and
the results of the conversions. -/
def expanded (items : List Item) : List UInt8 := Doubled.spliced 37 (marked lib items)

variable {lib}

theorem expanded_cons (i : Item) (items : List Item) :
    expanded lib (i :: items) = Doubled.spliced 37 (i.marked lib) ++ expanded lib items := by
  rw [expanded, marked, List.flatMap_cons, Doubled.spliced_append]
  rfl

theorem spliced_conversion {c : Conversion} {out : Str} (hout : c.output lib = some out) :
    Doubled.spliced 37 ((Item.conversion c).marked lib) = out := by
  rw [Item.marked, hout]
  exact Doubled.spliced_put 37 out

/-- The string at the head of the loop: what is done, the items that are not, and the offset of
the first conversion of them. -/
structure AtHead (w : Working) (done : List UInt8) (items : List Item) (slack : List UInt8) :
    Prop where
  text : w.text = done ++ (formatText items ++ [0]) ++ slack
  len : w.len = done.length + (formatText items).length
  offset : findFormat done.length (formatText items ++ 0 :: slack) = some w.offset

theorem AtHead.char {w : Working} {done slack : List UInt8} {items : List Item} {c : UInt8}
    {hzero : c ≠ 0} {hpercent : c ≠ 37} (h : AtHead w done (.char c hzero hpercent :: items) slack) :
    AtHead w (done ++ [c]) items slack := by
  obtain ⟨htext, hlen, hoffset⟩ := h
  have hformat : formatText (.char c hzero hpercent :: items) = c :: formatText items := rfl
  rw [hformat] at htext hlen hoffset
  rw [List.cons_append, findFormat_char hzero hpercent] at hoffset
  refine ⟨by rw [htext]; simp [List.append_assoc], ?_, ?_⟩
  · rw [hlen, List.length_append, List.length_cons, List.length_singleton]
    omega
  · rwa [List.length_append]

theorem AtHead.percent {w : Working} {done slack : List UInt8} {items : List Item}
    (h : AtHead w done (.percent :: items) slack) : AtHead w (done ++ [37, 37]) items slack := by
  obtain ⟨htext, hlen, hoffset⟩ := h
  have hformat : formatText (.percent :: items) = 37 :: 37 :: formatText items := rfl
  rw [hformat] at htext hlen hoffset
  rw [List.cons_append, List.cons_append, findFormat_percent] at hoffset
  refine ⟨by rw [htext]; simp [List.append_assoc], ?_, ?_⟩
  · rw [hlen, List.length_append]
    simp only [List.length_cons, List.length_nil]
    omega
  · rwa [List.length_append]

theorem AtHead.ready {w : Working} {done slack : List UInt8} {items : List Item} {c : Conversion}
    (h : AtHead w done (.conversion c :: items) slack) :
    Ready w done c.text (formatText items) slack := by
  obtain ⟨htext, hlen, hoffset⟩ := h
  have hformat : formatText (.conversion c :: items) = c.text ++ formatText items := rfl
  rw [hformat] at htext hlen hoffset
  rw [List.append_assoc, c.findFormat_text] at hoffset
  refine ⟨by rw [htext]; simp [List.append_assoc], ?_, (Option.some.inj hoffset).symm⟩
  rw [hlen, List.length_append]
  omega

/-- The string behind a conversion is at the head of the loop again. -/
theorem exists_atHead (done out slack : List UInt8) (items : List Item) :
    ∃ w, afterConversion done out (formatText items) slack = some w ∧
      AtHead w (done ++ out) items slack := by
  obtain ⟨next, hnext⟩ := exists_findFormat items (done ++ out).length slack
  refine ⟨⟨next, _, _⟩, by rw [afterConversion, hnext]; rfl, rfl, rfl, hnext⟩

/-- The run over the items that are left. -/
theorem expand_items (items : List Item) {w : Working} {done slack : List UInt8} {out : Str}
    (h : AtHead w done items slack) (hout : sprintf lib items = some out) (args : List Arg) :
    ((∀ i ∈ items, i.Fits lib) → ∃ w' slack',
      expand lib heap w (formatArgs items ++ args) = some (some w') ∧
        w'.text = done ++ (expanded lib items ++ [0]) ++ slack' ∧
        w'.len = done.length + (expanded lib items).length) ∧
      ((¬∀ i ∈ items, i.Fits lib) → expand lib heap w (formatArgs items ++ args) = none) := by
  induction items generalizing w done slack out with
  | nil =>
      refine ⟨fun _ ↦ ⟨w, slack, ?_, h.text, h.len⟩, fun hfits ↦ absurd (by simp) hfits⟩
      have hoffset : w.offset = none := by simpa [formatText] using h.offset.symm
      rw [expand, hoffset]
  | cons i items ih =>
      obtain ⟨s, t, hs, ht, rfl⟩ := sprintf_cons hout
      have hargs : formatArgs (i :: items) = i.args ++ formatArgs items := rfl
      rw [hargs, expanded_cons, List.forall_mem_cons, List.append_assoc]
      cases i with
      | char c hzero hpercent =>
          have hdone : Doubled.spliced 37 ((Item.char c hzero hpercent).marked lib) = [c] := by
            simp [Doubled.spliced, Item.marked, hpercent]
          have hnext := ih h.char ht
          simpa [Item.Fits, Item.args, hdone, Nat.add_assoc, Nat.add_comm 1] using hnext
      | percent =>
          have hdone : Doubled.spliced 37 (Item.percent.marked lib) = [37, 37] := rfl
          have hnext := ih h.percent ht
          simpa [Item.Fits, Item.args, hdone, Nat.add_assoc, Nat.add_comm 2] using hnext
      | conversion c =>
          have hstep := expands_conversion heap h.ready hs (formatArgs items ++ args)
          rw [spliced_conversion hs]
          constructor
          · rintro ⟨hfits, hrest⟩
            obtain ⟨slack', hexpand⟩ := hstep.fits hfits
            obtain ⟨w', hw', hhead⟩ := exists_atHead done s slack' items
            rw [hw', Option.bind_some] at hexpand
            obtain ⟨w'', slack'', hrun, htext, hlen⟩ := (ih hhead ht).1 hrest
            refine ⟨w'', slack'', hexpand.trans hrun, ?_, ?_⟩
            · rw [htext]
              simp [List.append_assoc]
            · rw [hlen, List.length_append, List.length_append, Nat.add_assoc]
          · intro hfits
            by_cases hc : c.Fits lib
            · obtain ⟨slack', hexpand⟩ := hstep.fits hc
              obtain ⟨w', hw', hhead⟩ := exists_atHead done s slack' items
              rw [hw', Option.bind_some] at hexpand
              exact hexpand.trans ((ih hhead ht).2 fun hrest ↦ hfits ⟨hc, hrest⟩)
            · exact hstep.faults hc

/-- What stands behind an item is moved over it. -/
theorem memmove_back (pre block slack : List UInt8) (a : UInt8) :
    ∃ slack', memmove (pre ++ a :: (block ++ slack)) pre.length (pre.length + 1) block.length =
      some (pre ++ block ++ slack') := by
  have hread : ((pre ++ a :: (block ++ slack)).drop (pre.length + 1)).take block.length =
      block := by
    rw [← List.drop_drop, List.drop_left, List.drop_succ_cons, List.drop_zero, List.take_left]
  refine ⟨(pre ++ a :: (block ++ slack)).drop (pre.length + block.length), ?_⟩
  rw [memmove, if_pos, hread, List.take_left]
  simp only [List.length_append, List.length_cons]
  omega

theorem getElem?_here (done rest : List UInt8) (a : UInt8) :
    (done ++ a :: rest)[done.length]? = some a := by
  simp

theorem getElem?_next (done rest : List UInt8) (a b : UInt8) :
    (done ++ a :: b :: rest)[done.length + 1]? = some b := by
  rw [List.getElem?_append_right (Nat.le_add_right _ _), Nat.add_sub_cancel_left]
  rfl

/-- The loop of `xp_asprintf_end`: the pairs in what is left become single signs. -/
theorem endLoop_spec (left done slack : List UInt8) :
    ∃ slack', endLoop (done ++ (left ++ 0 :: slack)) done.length (done.length + left.length)
        left.length =
      some (done ++ (Doubled.undouble 37 left ++ 0 :: slack'),
        done.length + (Doubled.undouble 37 left).length) := by
  induction left using Doubled.undouble.induct (e := (37 : UInt8)) generalizing done slack with
  | case1 a b l hpair ih =>
      obtain ⟨rfl, rfl⟩ := hpair
      obtain ⟨slack₁, hmove⟩ := memmove_back done (37 :: (l ++ [0])) slack 37
      obtain ⟨slack', hloop⟩ := ih (done ++ [37]) slack₁
      have hlen : (37 :: (l ++ [0])).length = l.length + 1 + 1 := by simp
      have hmem : done ++ 37 :: (37 :: (l ++ [0]) ++ slack) =
          done ++ (37 :: 37 :: l ++ 0 :: slack) := by simp
      have hmem' : done ++ (37 :: (l ++ [0])) ++ slack₁ = done ++ [37] ++ (l ++ 0 :: slack₁) := by
        simp
      have hend : done.length + (37 :: 37 :: l).length - 1 = (done ++ [37]).length + l.length := by
        simp only [List.length_append, List.length_cons, List.length_nil]
        omega
      rw [hmem, hmem', hlen] at hmove
      have hstep : endLoop (done ++ (37 :: 37 :: l ++ 0 :: slack)) done.length
          (done.length + (37 :: 37 :: l).length) (37 :: 37 :: l).length =
          endLoop (done ++ [37] ++ (l ++ 0 :: slack₁)) (done.length + 1)
            (done.length + (37 :: 37 :: l).length - 1) l.length := by
        rw [List.cons_append, List.cons_append] at hmove ⊢
        rw [List.length_cons, List.length_cons, endLoop, getElem?_here, getElem?_next]
        simp only [Option.bind_eq_bind, Option.bind_some, if_true, hmove]
      refine ⟨slack', ?_⟩
      rw [hstep, hend, Doubled.undouble, if_pos ⟨rfl, rfl⟩]
      rw [List.length_append, List.length_singleton] at hloop ⊢
      simpa [List.append_assoc, Nat.add_assoc, Nat.add_comm 1] using hloop
  | case2 a b l hpair ih =>
      obtain ⟨slack', hloop⟩ := ih (done ++ [a]) slack
      refine ⟨slack', ?_⟩
      have hstep : endLoop (done ++ (a :: b :: l ++ 0 :: slack)) done.length
          (done.length + (a :: b :: l).length) (a :: b :: l).length =
          endLoop (done ++ (a :: b :: l ++ 0 :: slack)) (done.length + 1)
            (done.length + (a :: b :: l).length) (b :: l).length := by
        rw [List.length_cons, endLoop, List.cons_append, List.cons_append, getElem?_here,
          getElem?_next]
        simp only [Option.bind_eq_bind, Option.bind_some]
        by_cases ha : a = 37
        · rw [if_pos ha, if_neg fun hb ↦ hpair ⟨ha, hb⟩]
        · rw [if_neg ha]
      rw [hstep, Doubled.undouble, if_neg hpair]
      rw [List.length_append, List.length_singleton] at hloop
      simpa [List.append_assoc, Nat.add_assoc, Nat.add_comm 1] using hloop
  | case3 a =>
      refine ⟨slack, ?_⟩
      rw [List.length_singleton, endLoop, List.singleton_append, getElem?_here, getElem?_next]
      simp [endLoop, Doubled.undouble]
  | case4 => exact ⟨slack, rfl⟩

theorem asprintfEnd_eq {w : Working} {body slack : List UInt8} (htext : w.text = body ++ 0 :: slack)
    (hlen : w.len = body.length) : asprintfEnd w = some (Doubled.undouble 37 body ++ [0]) := by
  obtain ⟨slack', hloop⟩ := endLoop_spec body [] slack
  simp only [List.nil_append, List.length_nil, Nat.zero_add] at hloop
  have hroom : (Doubled.undouble 37 body).length + 1 ≤
      (Doubled.undouble 37 body ++ 0 :: slack').length := by
    rw [List.length_append, List.length_cons]
    omega
  have htake : (Doubled.undouble 37 body ++ 0 :: slack').take
      ((Doubled.undouble 37 body).length + 1) = Doubled.undouble 37 body ++ [0] := by
    rw [List.take_length_add_append]
    rfl
  rw [asprintfEnd, htext, hlen, hloop]
  simp only [Option.bind_eq_bind, Option.bind_some, if_pos hroom, htake]

/-- What `xp_vasprintf` gives back, if it gives anything back. -/
theorem vasprintf_formatText (items : List Item) {out : Str} (hout : sprintf lib items = some out)
    (args : List Arg) :
    ((∀ i ∈ items, i.Fits lib) →
      vasprintf lib heap (formatText items) (formatArgs items ++ args) =
        some (some (Doubled.undouble 37 (expanded lib items) ++ [0]))) ∧
    ((¬∀ i ∈ items, i.Fits lib) →
      vasprintf lib heap (formatText items) (formatArgs items ++ args) = none) := by
  obtain ⟨next, hnext⟩ := exists_findFormat items 0 []
  have hstart : asprintfStart (formatText items) =
      some ⟨next, (formatText items).length, formatText items ++ [0]⟩ := by
    rw [asprintfStart]
    simp [hnext]
  have hhead : AtHead ⟨next, (formatText items).length, formatText items ++ [0]⟩ [] items [] :=
    ⟨by simp, by simp, hnext⟩
  have hrun := expand_items heap items hhead hout args
  constructor
  · intro hfits
    obtain ⟨w, slack, hexpand, htext, hlen⟩ := hrun.1 hfits
    have htext' : w.text = expanded lib items ++ 0 :: slack := by simpa using htext
    have hend := asprintfEnd_eq htext' (by simpa using hlen)
    rw [vasprintf, hstart]
    simp only [Option.bind_eq_bind, Option.bind_some, hexpand, hend, Option.pure_def]
  · intro hfits
    rw [vasprintf, hstart]
    simp only [Option.bind_eq_bind, Option.bind_some, hrun.2 hfits, Option.bind_none]

/-- `xp_vasprintf` gives back what `sprintf` writes just when every conversion fits and no two
percent signs of the results have nothing but percent signs between them. -/
theorem vasprintf_eq_sprintf_iff (items : List Item) {out : Str}
    (hout : sprintf lib items = some out) (args : List Arg) :
    vasprintf lib heap (formatText items) (formatArgs items ++ args) = some (some (out ++ [0])) ↔
      (∀ i ∈ items, i.Fits lib) ∧ Doubled.Apart 37 (marked lib items) := by
  have hrun := vasprintf_formatText heap items hout args
  have happart : Doubled.undouble 37 (expanded lib items) = out ↔
      Doubled.Apart 37 (marked lib items) := by
    rw [← map_fst_marked hout]
    exact Doubled.undouble_spliced_eq_iff 37 (marked lib items)
  by_cases hfits : ∀ i ∈ items, i.Fits lib
  · rw [hrun.1 hfits, ← happart, and_iff_right hfits]
    simp
  · rw [hrun.2 hfits]
    simp [hfits]

end Whole

/-! ## A C library with blanks for padding -/

/-- Blanks up to the width, behind the text with the flag for that. -/
def pad (d : Directive) (s : Str) : Str :=
  let blanks := List.replicate (d.width.getD 0 - s.length) 32
  if 45 ∈ d.flags then s ++ blanks else blanks ++ s

def integer (v : ℤ) : Str := if v < 0 then 45 :: ultoa v.natAbs 10 else ultoa v.natAbs 10

def plainConvert (d : Directive) : Arg → Str
  | .int v => pad d (if d.type = 99 then [v.toInt8.toUInt8] else integer v.toInt)
  | .long v => pad d (integer v.toInt)
  | .charp cp =>
      let s := cp.getD []
      pad d (s.take (d.precision.getD s.length))

theorem length_pad (d : Directive) (s : Str) :
    (pad d s).length = max s.length (d.width.getD 0) := by
  have hmax : s.length + (d.width.getD 0 - s.length) = max s.length (d.width.getD 0) := by omega
  rw [pad]
  split
  · rw [List.length_append, List.length_replicate, hmax]
  · rw [List.length_append, List.length_replicate, Nat.add_comm, hmax]

theorem pad_zero (d : Directive) (s : Str) :
    pad { d with flags := d.flags ++ [48], width := none } s = pad { d with width := some 0 } s := by
  simp [pad]

/-- Numbers in decimal, characters and strings. -/
def plainLibrary : CLibrary where
  convert d a := if (plainConvert d a).length < 2 ^ 31 then some (plainConvert d a) else none
  convert_zero d a := by
    have hconvert : plainConvert { d with flags := d.flags ++ [48], width := none } a =
        plainConvert { d with width := some 0 } a := by
      cases a <;> exact pad_zero d _
    rw [hconvert]
  length_convert_string d s out _ h := by
    obtain rfl := Option.some.inj (Option.ite_none_right_eq_some.mp h).2
    have htake : (s.take (d.precision.getD s.length)).length ≤ s.length := List.length_take_le' _ _
    have hlen := length_pad d (s.take (d.precision.getD s.length))
    change (pad d _).length ≤ _
    simp only [Option.getD_some] at hlen ⊢
    omega
  length_convert d a out h := by
    obtain ⟨hlen, heq⟩ := Option.ite_none_right_eq_some.mp h
    rwa [← Option.some.inj heq]

/-- `"%*s %%"` -/
def starFormat : List Item :=
  [.conversion ⟨[], by simp, .star 7, .absent, .string [53, 48, 37] (by decide)⟩,
    .char 32 (by decide) (by decide), .percent]

theorem vasprintf_starFormat :
    vasprintf plainLibrary (fun _ _ ↦ 0) [37, 42, 115, 32, 37, 37]
        [.int 7, .charp (some [53, 48, 37])] =
      some (some [32, 32, 32, 32, 53, 48, 37, 32, 37, 0]) := by
  have hout : sprintf plainLibrary starFormat = some [32, 32, 32, 32, 53, 48, 37, 32, 37] := by
    decide +kernel
  refine (vasprintf_eq_sprintf_iff (fun _ _ ↦ 0) starFormat hout []).mpr ⟨?_, by decide +kernel⟩
  simp only [starFormat, List.forall_mem_cons, Item.Fits, List.not_mem_nil, false_implies,
    implies_true, and_true]
  refine ⟨fun v hv ↦ ?_, by decide +kernel, Or.inl rfl⟩
  obtain rfl := List.mem_singleton.mp hv
  decide

/-- A string argument loses a percent sign, and a width of two digits is written behind the
block. -/
theorem vasprintf_ne_sprintf :
    (sprintf plainLibrary [.conversion ⟨[], by simp, .absent, .absent,
        .string [53, 37, 37] (by decide)⟩] = some [53, 37, 37] ∧
      vasprintf plainLibrary (fun _ _ ↦ 0) [37, 115] [.charp (some [53, 37, 37])] =
        some (some [53, 37, 0])) ∧
    (sprintf plainLibrary [.conversion ⟨[], by simp, .star 10, .absent,
        .int [] 100 5 (by simp) (by simp)⟩] = some [32, 32, 32, 32, 32, 32, 32, 32, 32, 53] ∧
      vasprintf plainLibrary (fun _ _ ↦ 0) [37, 42, 100] [.int 10, .int 5] = none) := by
  refine ⟨⟨?_, ?_⟩, ?_, ?_⟩ <;> decide +kernel

end Synchronet.Xpdev.XpPrintf
