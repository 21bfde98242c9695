import Synchronet.Sbbs3.AnsiAttr
import Synchronet.Sbbs3.Ars

/-!
# Console output (con_out.cpp)

`bputs` turns the Ctrl-A codes of a string into changes of the attribute.  On a colour terminal
with ANSI, without ice colours, pauses and Telnet, the terminal displays each character as the
codes before it say.
-/

namespace Synchronet.Sbbs3.ConOut

open Xpdev Conio Ansi

inductive Colour
  | black
  | blue
  | green
  | cyan
  | red
  | magenta
  | brown
  | lightgray
  deriving DecidableEq

/-- The value in the `enum` of colours. -/
def Colour.bits : Colour → UInt8
  | .black => 0
  | .blue => 1
  | .green => 2
  | .cyan => 3
  | .red => 4
  | .magenta => 5
  | .brown => 6
  | .lightgray => 7

/-- What a code is for. -/
inductive Code
  | push
  | pop
  | plain
  | char (ch : UInt8)
  | high
  | blink
  | normal
  | foreground (colour : Colour)
  | background (colour : Colour)
  | nothing
  deriving DecidableEq

/-- The cases of `ctrl_a`.  The codes for levels and flags, pauses, delays, the time, the date,
clearing and cursor positions are left out. -/
def codeOf (x : UInt8) : Option Code :=
  if x ≠ 0 ∧ x ≤ 26 ∨ 0x7f < x then none
  else
    match toupper x with
    | 0x21 | 0x40 | 0x23 | 0x24 | 0x25 | 0x5e | 0x26 | 0x2a | 0x28 | 0x29 => none  -- !@#$%^&*()
    | 0x50 | 0x51 | 0x54 | 0x44 | 0x2c | 0x3b | 0x2e | 0x53 | 0x4c | 0x3e => none  -- PQTD,;.SL>
    | 0x2b => some .push
    | 0x2d => some .pop
    | 0x5f => some .plain
    | 0x3c => some (.char 8)
    | 0x5b => some (.char 13)
    | 0x5d => some (.char 10)
    | 0x41 => some (.char 1)
    | 0x48 => some .high
    | 0x49 => some .blink
    | 0x4e => some .normal
    | 0x52 => some (.foreground .red)
    | 0x47 => some (.foreground .green)
    | 0x42 => some (.foreground .blue)
    | 0x57 => some (.foreground .lightgray)
    | 0x43 => some (.foreground .cyan)
    | 0x4d => some (.foreground .magenta)
    | 0x59 => some (.foreground .brown)
    | 0x4b => some (.foreground .black)
    | 0x30 => some (.background .black)
    | 0x31 => some (.background .red)
    | 0x32 => some (.background .green)
    | 0x33 => some (.background .brown)
    | 0x34 => some (.background .blue)
    | 0x35 => some (.background .magenta)
    | 0x36 => some (.background .cyan)
    | 0x37 => some (.background .lightgray)
    | _ => some .nothing

/-- `attr_stack` below `attr_sp`, the top first, and what `outcom` got. -/
structure Sbbs where
  curatr : UInt32 := LIGHTGRAY
  attrStack : List UInt32 := []
  sent : Str := []
  deriving DecidableEq

/-- `rputs(ansi(atr,curatr,str)); curatr=atr;` -/
def Sbbs.attr (s : Sbbs) (atr : UInt32) : Sbbs :=
  { s with sent := s.sent ++ ansiAttr atr s.curatr true, curatr := atr }

def Sbbs.outchar (s : Sbbs) (ch : UInt8) : Sbbs := { s with sent := s.sent ++ [ch] }

/-- A `char` as an `int`, with its sign. -/
def promote (c : UInt8) : UInt32 := c.toInt8.toInt32.toUInt32

/-- The bytes of `attr_stack` are counted, not its elements: a push may write behind it. -/
def Sbbs.ctrlA (s : Sbbs) (x : UInt8) : Option Sbbs :=
  let atr := s.curatr.toUInt8
  (codeOf x).bind fun
    | .push =>
        if s.attrStack.length < 256 then
          if s.attrStack.length < 64 then some { s with attrStack := s.curatr :: s.attrStack }
          else none
        else some s
    | .pop =>
        match s.attrStack with
        | a :: attrStack => some ({ s with attrStack := attrStack }.attr a)
        | [] => some (if atr &&& 0xf8 ≠ 0 then s.attr LIGHTGRAY else s)
    | .plain => some (if atr &&& 0xf0 ≠ 0 then s.attr LIGHTGRAY else s)
    | .char ch => some (s.outchar ch)
    | .high => some (s.attr (promote (atr ||| 0x08)))
    | .blink => some (s.attr (promote (atr ||| 0x80)))
    | .normal => some (s.attr LIGHTGRAY)
    | .foreground colour => some (s.attr (promote ((atr &&& 0xf8) ||| colour.bits)))
    | .background colour =>
        some (s.attr (promote ((atr &&& 0x8f) ||| (colour.bits <<< (4 : UInt8)))))
    | .nothing => some s

/-- Not a mnemonic and not a text of `text.dat`, so without `@` codes. -/
def Sbbs.bputs (s : Sbbs) : Str → Option Sbbs
  | [] => some s
  | ch :: str =>
      if ch = 1 then
        match str with
        | [] => some (s.outchar ch)
        | x :: str => if toupper x = 0x5a then some s else (s.ctrlA x).bind fun s ↦ s.bputs str
      else (s.outchar ch).bputs str

/-! ## What the codes mean -/

/-- How a character looks. -/
structure Look where
  foreground : Colour := .lightgray
  background : Colour := .black
  high : Bool := false
  blink : Bool := false
  deriving DecidableEq

/-- How the next character looks, and the looks that have been saved. -/
structure Pen where
  look : Look := {}
  saved : List Look := []
  deriving DecidableEq

def Pen.run (p : Pen) : Code → Pen
  | .push => { p with saved := p.look :: p.saved }
  | .pop =>
      match p.saved with
      | look :: saved => { look := look, saved := saved }
      | [] =>
          if p.look.high || p.look.blink || p.look.background ≠ .black then { p with look := {} }
          else p
  | .plain => if p.look.blink || p.look.background ≠ .black then { p with look := {} } else p
  | .char _ => p
  | .high => { p with look := { p.look with high := true } }
  | .blink => { p with look := { p.look with blink := true } }
  | .normal => { p with look := {} }
  | .foreground colour => { p with look := { p.look with foreground := colour } }
  | .background colour => { p with look := { p.look with background := colour } }
  | .nothing => p

/-- A character that is displayed as it is, or a code. -/
inductive Item
  | text (ch : UInt8) (h : ch ∉ ([0, 1, 7, 12, 27] : List UInt8))
  | code (x : UInt8) (code : Code) (h : codeOf x = some code ∧ toupper x ≠ 0x5a)

def Item.bytes : Item → Str
  | .text ch _ => [ch]
  | .code x _ _ => [1, x]

def Pen.item (p : Pen) : Item → Pen
  | .text _ _ => p
  | .code _ code _ => p.run code

def Pen.shownBy (p : Pen) : Code → List (UInt8 × Look)
  | .char ch => [(ch, p.look)]
  | _ => []

def Pen.shown (p : Pen) : Item → List (UInt8 × Look)
  | .text ch _ => [(ch, p.look)]
  | .code _ code _ => p.shownBy code

def Pen.display (p : Pen) : List Item → List (UInt8 × Look)
  | [] => []
  | item :: items => p.shown item ++ (p.item item).display items

/-- Whether an item saves a look. -/
def Item.saves : Item → Bool
  | .code _ .push _ => true
  | _ => false

/-- No more than 64 looks are saved at a time. -/
def Pen.fits (p : Pen) : List Item → Bool
  | [] => true
  | item :: items => (item.saves → p.saved.length < 64) && (p.item item).fits items

/-! ## Attributes and looks -/

def colour (bits : UInt8) : Colour :=
  ([.black, .blue, .green, .cyan, .red, .magenta, .brown] : List Colour).getD bits.toNat .lightgray

/-- The look of an attribute. -/
def look (a : UInt8) : Look where
  foreground := colour (a &&& 0x07)
  background := colour ((a &&& 0x70) >>> (4 : UInt8))
  high := a &&& 0x08 ≠ 0
  blink := a &&& 0x80 ≠ 0

theorem look_byte : ∀ a : UInt8, (promote a).toUInt8 = a ∧
    look (a ||| 0x08) = { look a with high := true } ∧
    look (a ||| 0x80) = { look a with blink := true } ∧
    (a &&& 0xf8 ≠ 0 ↔
      ((look a).high || (look a).blink || (look a).background ≠ .black) = true) ∧
    (a &&& 0xf0 ≠ 0 ↔ ((look a).blink || (look a).background ≠ .black) = true) :=
  Words.forall_uint8 (by decide +kernel)

theorem look_colour (c : Colour) : ∀ a : UInt8,
    look ((a &&& 0xf8) ||| c.bits) = { look a with foreground := c } ∧
      look ((a &&& 0x8f) ||| (c.bits <<< (4 : UInt8))) = { look a with background := c } := by
  cases c <;> exact Words.forall_uint8 (by decide +kernel)

/-! ## What the terminal displays -/

/-- A terminal in its normal attribute. -/
def fresh : CTerm := { attr := 7, normattr := 7 }

/-- The terminal has displayed `shown`, and the next character will look as the pen says. -/
structure Shows (s : Sbbs) (p : Pen) (shown : List (UInt8 × Look)) : Prop where
  term : ∃ t, s.sent.foldlM CTerm.putc fresh = some t ∧ Follows t s.curatr ∧
    t.ctputs.screen.map (Prod.map id look) = shown
  pen : look s.curatr.toUInt8 = p.look
  saved : s.attrStack.map (fun a ↦ look a.toUInt8) = p.saved
  depth : s.attrStack.length ≤ 64

theorem shows_start : Shows {} {} [] where
  term := ⟨fresh, rfl, ⟨rfl, rfl, rfl, rfl⟩, rfl⟩
  pen := by decide
  saved := rfl
  depth := by decide

variable {s : Sbbs} {p : Pen} {shown : List (UInt8 × Look)}

theorem Shows.attr (h : Shows s p shown) (atr : UInt32) :
    Shows (s.attr atr) { p with look := look atr.toUInt8 } shown := by
  obtain ⟨t, hsent, hfollows, hshown⟩ := h.term
  obtain ⟨t', hansi, hfollows', hscreen⟩ := foldlM_ansiAttr hfollows atr
  refine ⟨⟨t', ?_, hfollows', by rw [hscreen, hshown]⟩, rfl, h.saved, h.depth⟩
  rw [Sbbs.attr, List.foldlM_append, hsent]
  exact hansi

theorem Shows.attr_look (h : Shows s p shown) {atr : UInt32} {l : Look}
    (hl : look atr.toUInt8 = l) : Shows (s.attr atr) { p with look := l } (shown ++ []) := by
  rw [List.append_nil, ← hl]
  exact h.attr atr

/-- Back to normal if the attribute has more than a foreground. -/
theorem Shows.attr_normal (h : Shows s p shown) {c : Prop} [Decidable c] {b : Bool}
    (hc : c ↔ b = true) : Shows (if c then s.attr LIGHTGRAY else s)
      (if b then { p with look := {} } else p) (shown ++ []) := by
  by_cases hb : b = true
  · rw [if_pos (hc.mpr hb), if_pos hb]
    exact h.attr_look (by decide)
  · rw [if_neg (mt hc.mp hb), if_neg hb, List.append_nil]
    exact h

theorem Shows.outchar (h : Shows s p shown) {ch : UInt8}
    (hch : ch ∉ ([0, 7, 12, 27] : List UInt8)) :
    Shows (s.outchar ch) p (shown ++ [(ch, p.look)]) := by
  obtain ⟨t, hsent, hfollows, hshown⟩ := h.term
  obtain ⟨h0, h7, h12, h27⟩ : ch ≠ 0 ∧ ch ≠ 7 ∧ ch ≠ 12 ∧ ch ≠ 27 := by simpa using hch
  have hputc : t.putc ch = some { t with prn := t.prn ++ [ch] } := by
    rw [CTerm.putc_text hfollows.sequence, if_neg h27, if_neg h7, if_neg h12, if_neg h0]
  refine ⟨⟨{ t with prn := t.prn ++ [ch] }, ?_,
    ⟨hfollows.sequence, hfollows.escbuf, hfollows.normattr, hfollows.attr⟩, ?_⟩, h.pen, h.saved,
    h.depth⟩
  · rw [Sbbs.outchar, List.foldlM_append, hsent]
    change [ch].foldlM CTerm.putc t = _
    simp [hputc]
  · rw [← hshown]
    simp [CTerm.ctputs, hfollows.attr, h.pen]

theorem codeOf_char : ∀ x : UInt8, ∀ ch ∈ ([0, 7, 12, 27] : List UInt8),
    codeOf x ≠ some (.char ch) :=
  Words.forall_uint8 (by decide +kernel)

/-- A code that can be followed is followed. -/
theorem Shows.ctrlA (h : Shows s p shown) {x : UInt8} {code : Code} (hx : codeOf x = some code)
    (hroom : code = .push → p.saved.length < 64) :
    ∃ s', s.ctrlA x = some s' ∧ Shows s' (p.run code) (shown ++ p.shownBy code) := by
  have hlength : s.attrStack.length = p.saved.length := by simp [← h.saved]
  rw [Sbbs.ctrlA, hx, Option.bind_some]
  cases code with
  | push =>
      have hlt : s.attrStack.length < 64 := hlength ▸ hroom rfl
      refine ⟨{ s with attrStack := s.curatr :: s.attrStack }, ?_, ?_⟩
      · simp only [if_pos hlt, if_pos (by omega : s.attrStack.length < 256)]
      · refine ⟨by simpa [Pen.shownBy] using h.term, h.pen, ?_, hlt⟩
        simp [Pen.run, h.pen, h.saved]
  | pop =>
      cases hstack : s.attrStack with
      | nil =>
          have hsaved : p.saved = [] := by simpa [hstack] using h.saved.symm
          have hspecial := (look_byte s.curatr.toUInt8).2.2.2.1
          rw [h.pen] at hspecial
          have hrun : p.run .pop = if p.look.high || p.look.blink || p.look.background ≠ .black then
              { p with look := {} } else p := by
            simp [Pen.run, hsaved]
          exact ⟨_, rfl, hrun ▸ h.attr_normal hspecial⟩
      | cons a attrStack =>
          have hsaved : p.saved = look a.toUInt8 :: attrStack.map fun a ↦ look a.toUInt8 := by
            simpa [hstack] using h.saved.symm
          have hdepth : attrStack.length ≤ 64 := by
            have hle := h.depth
            rw [hstack, List.length_cons] at hle
            omega
          have hrest : Shows { s with attrStack := attrStack }
              { p with saved := attrStack.map fun a ↦ look a.toUInt8 } shown :=
            ⟨h.term, h.pen, rfl, hdepth⟩
          refine ⟨_, rfl, ?_⟩
          rw [Pen.run, hsaved]
          exact hrest.attr_look rfl
  | plain =>
      have hspecial := (look_byte s.curatr.toUInt8).2.2.2.2
      rw [h.pen] at hspecial
      exact ⟨_, rfl, h.attr_normal hspecial⟩
  | char ch =>
      have hch : ch ∉ ([0, 7, 12, 27] : List UInt8) := fun hmem ↦ codeOf_char x ch hmem hx
      exact ⟨s.outchar ch, rfl, h.outchar hch⟩
  | high =>
      exact ⟨_, rfl, h.attr_look (by rw [(look_byte _).1, (look_byte _).2.1, h.pen])⟩
  | blink =>
      exact ⟨_, rfl, h.attr_look (by rw [(look_byte _).1, (look_byte _).2.2.1, h.pen])⟩
  | normal =>
      exact ⟨_, rfl, h.attr_look (by decide)⟩
  | foreground c =>
      exact ⟨_, rfl, h.attr_look (by rw [(look_byte _).1, (look_colour _ _).1, h.pen])⟩
  | background c =>
      exact ⟨_, rfl, h.attr_look (by rw [(look_byte _).1, (look_colour _ _).2, h.pen])⟩
  | nothing => exact ⟨s, rfl, by simpa [Pen.shownBy, Pen.run] using h⟩

/-- There is no room for a 65th attribute. -/
theorem Shows.ctrlA_full (h : Shows s p shown) {x : UInt8} (hx : codeOf x = some .push)
    (hfull : 64 ≤ p.saved.length) : s.ctrlA x = none := by
  have hlength : s.attrStack.length = p.saved.length := by simp [← h.saved]
  have hle := h.depth
  rw [Sbbs.ctrlA, hx, Option.bind_some]
  simp only [if_pos (by omega : s.attrStack.length < 256),
    if_neg (by omega : ¬ s.attrStack.length < 64)]

/-! ## Runs -/

/-- A string for `bputs`: after an end of file code anything may stand. -/
structure Line where
  items : List Item
  tail : Str
  ends : tail = [] ∨ ∃ x rest, tail = 1 :: x :: rest ∧ toupper x = 0x5a

def Line.str (line : Line) : Str := line.items.flatMap Item.bytes ++ line.tail

theorem bputs_text (s : Sbbs) {ch : UInt8} (hch : ch ≠ 1) (str : Str) :
    s.bputs (ch :: str) = (s.outchar ch).bputs str := by
  cases str with
  | nil => simp only [Sbbs.bputs, if_neg hch]
  | cons x str => rw [Sbbs.bputs, if_neg hch]

theorem bputs_code (s : Sbbs) {x : UInt8} (hx : toupper x ≠ 0x5a) (str : Str) :
    s.bputs (1 :: x :: str) = (s.ctrlA x).bind fun s ↦ s.bputs str := by
  simp [Sbbs.bputs, hx]

theorem bputs_tail (s : Sbbs) {tail : Str}
    (ends : tail = [] ∨ ∃ x rest, tail = 1 :: x :: rest ∧ toupper x = 0x5a) :
    s.bputs tail = some s := by
  rcases ends with rfl | ⟨x, rest, rfl, hx⟩
  · rfl
  · simp [Sbbs.bputs, hx]

theorem Shows.bputs (h : Shows s p shown) (items : List Item) {tail : Str}
    (ends : tail = [] ∨ ∃ x rest, tail = 1 :: x :: rest ∧ toupper x = 0x5a) :
    if p.fits items then ∃ s', s.bputs (items.flatMap Item.bytes ++ tail) = some s' ∧
      Shows s' (items.foldl Pen.item p) (shown ++ p.display items)
    else s.bputs (items.flatMap Item.bytes ++ tail) = none := by
  induction items generalizing s p shown with
  | nil =>
      refine ⟨s, bputs_tail s ends, ?_⟩
      simpa [Pen.display] using h
  | cons item items ih =>
      cases item with
      | text ch hch =>
          obtain ⟨hctrl, hplain⟩ : ch ≠ 1 ∧ ch ∉ ([0, 7, 12, 27] : List UInt8) := by
            simp only [List.mem_cons, List.not_mem_nil, or_false, not_or] at hch ⊢
            tauto
          have hrest := ih (h.outchar hplain)
          rw [List.append_assoc] at hrest
          rw [List.flatMap_cons, Item.bytes, List.singleton_append, List.cons_append,
            bputs_text s hctrl]
          simpa [Pen.fits, Item.saves, Pen.item, Pen.display, Pen.shown] using hrest
      | code x code hx =>
          have hbytes : (Item.code x code hx :: items).flatMap Item.bytes ++ tail =
              1 :: x :: (items.flatMap Item.bytes ++ tail) := rfl
          rw [hbytes, bputs_code s hx.2]
          by_cases hroom : code = .push → p.saved.length < 64
          · obtain ⟨s₁, hs₁, hshows⟩ := h.ctrlA hx.1 hroom
            have hrest := ih hshows
            rw [List.append_assoc] at hrest
            have hfits : p.fits (Item.code x code hx :: items) = (p.run code).fits items := by
              cases code <;> simp_all [Pen.fits, Item.saves, Pen.item]
            rw [hs₁, Option.bind_some, hfits]
            exact hrest
          · obtain ⟨rfl, hfull⟩ := Classical.not_imp.mp hroom
            have hfits : p.fits (Item.code x .push hx :: items) = false := by
              simp [Pen.fits, Item.saves, hfull]
            rw [h.ctrlA_full hx.1 (by omega), hfits]
            rfl

theorem display_append (p : Pen) (items more : List Item) : p.display (items ++ more) =
    p.display items ++ (items.foldl Pen.item p).display more := by
  induction items generalizing p with
  | nil => rfl
  | cons item items ih => simp [Pen.display, ih]

theorem fits_append (p : Pen) (items more : List Item) : p.fits (items ++ more) =
    (p.fits items && (items.foldl Pen.item p).fits more) := by
  induction items generalizing p with
  | nil => rfl
  | cons item items ih => simp [Pen.fits, ih, Bool.and_assoc]

theorem Shows.foldlM_bputs (h : Shows s p shown) (lines : List Line) :
    if p.fits (lines.flatMap Line.items) then
      ∃ s' p', lines.foldlM (fun s line ↦ s.bputs line.str) s = some s' ∧
        Shows s' p' (shown ++ p.display (lines.flatMap Line.items))
    else lines.foldlM (fun s line ↦ s.bputs line.str) s = none := by
  induction lines generalizing s p shown with
  | nil => exact ⟨s, p, rfl, by simpa [Pen.display] using h⟩
  | cons line lines ih =>
      have hline := h.bputs line.items line.ends
      rw [List.flatMap_cons, fits_append, List.foldlM_cons]
      by_cases hfits : p.fits line.items = true
      · rw [if_pos hfits] at hline
        obtain ⟨s₁, hs₁, hshows⟩ := hline
        have hstr : s.bputs line.str = some s₁ := hs₁
        have hrest := ih hshows
        rw [List.append_assoc, ← display_append] at hrest
        rw [hstr, hfits, Bool.true_and]
        exact hrest
      · rw [if_neg hfits] at hline
        have hstr : s.bputs line.str = none := hline
        rw [hstr, Bool.eq_false_iff.mpr hfits]
        rfl

/-- Whatever is printed since the login, the terminal displays each character as the codes before
it say, in whatever chunks the bytes arrive; unless more than 64 looks are saved at a time, which
writes behind the array. -/
theorem bputs_displayed (lines : List Line) :
    if Pen.fits {} (lines.flatMap Line.items) then
      ∃ s : Sbbs, lines.foldlM (fun s line ↦ s.bputs line.str) {} = some s ∧
        ∀ chunks : List Str, chunks.flatten = s.sent →
          ∃ t, chunks.foldlM CTerm.write fresh = some t ∧
            t.screen.map (Prod.map id look) = Pen.display {} (lines.flatMap Line.items)
    else lines.foldlM (fun (s : Sbbs) line ↦ s.bputs line.str) {} = none := by
  have hrun := shows_start.foldlM_bputs lines
  by_cases hfits : Pen.fits {} (lines.flatMap Line.items) = true
  · rw [if_pos hfits] at hrun ⊢
    obtain ⟨s, p, hs, hshows⟩ := hrun
    obtain ⟨t, hsent, -, hscreen⟩ := hshows.term
    refine ⟨s, hs, fun chunks hchunks ↦ ⟨t.ctputs, ?_, hscreen⟩⟩
    rw [CTerm.write_flatten rfl, hchunks, CTerm.write, hsent]
    rfl
  · rw [if_neg hfits] at hrun ⊢
    exact hrun

end Synchronet.Sbbs3.ConOut
