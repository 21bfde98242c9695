import Synchronet.Lib.Words

/-!
# The ZMODEM line (zmodem.c)

Single bytes are sent with `ZDLE` escapes where the line or the receiver could take
them for something else, and received with the escapes undone.  A connection is a
list of bytes that are delivered in order; when it is empty every read times out.
Sending always succeeds, and nobody cancels locally.
-/

namespace Synchronet.Sbbs3

open Words

def cr : UInt8 := 0x0d
def dle : UInt8 := 0x10
def xon : UInt8 := 0x11
def xoff : UInt8 := 0x13
def can : UInt8 := 0x18
def telnetIac : UInt8 := 0xff

def zpad : UInt8 := 0x2a
def zdle : UInt8 := 0x18
def zbin : UInt8 := 0x41
def zhex : UInt8 := 0x42
def zbin32 : UInt8 := 0x43

def zcrce : UInt8 := 0x68
def zcrcg : UInt8 := 0x69
def zcrcq : UInt8 := 0x6a
def zcrcw : UInt8 := 0x6b
def zrub0 : UInt8 := 0x6c
def zrub1 : UInt8 := 0x6d

/-- The result of a read that was cancelled; it is also a frame type. -/
def zcan : ℤ := 0x10
def timeout : ℤ := -1
def invhdr : ℤ := -2
def aborted : ℤ := -3
def subpktoverflow : ℤ := -4
def crcfailed : ℤ := -5

/-- Set on the byte that ends a data subpacket. -/
def zdleesc : ℤ := 0x8000

/-- One end of a connection: `input` is what will be received, `output` what has been
sent. -/
structure Zmodem where
  rxdHeader : Vector UInt8 16 := Vector.replicate 16 0
  rxdHeaderLen : ℕ := 0
  rxdHeaderPos : UInt32 := 0
  escapeCtrlChars : Bool := false
  escapeTelnetIac : Bool := false
  canFcs32 : Bool := false
  wantFcs16 : Bool := false
  receive32bitData : Bool := false
  ackFilePos : UInt32 := 0
  crcRequest : UInt32 := 0
  lastSent : UInt8 := 0
  nCans : ℕ := 0
  cancelled : Bool := false
  input : List UInt8 := []
  output : List UInt8 := []
  deriving DecidableEq, Repr

/-! ## Sending -/

def zmodemSendRaw (zm : Zmodem) (ch : UInt8) : Zmodem :=
  { zm with lastSent := ch, output := zm.output ++ [ch] }

def zmodemSendEsc (zm : Zmodem) (c : UInt8) : Zmodem :=
  zmodemSendRaw (zmodemSendRaw zm zdle) (c ^^^ 0x40)

/-- The bytes that are escaped in every mode. -/
def alwaysEscaped (c : UInt8) : Bool :=
  c = dle ∨ c = dle ||| 0x80 ∨ c = xon ∨ c = xon ||| 0x80 ∨ c = xoff ∨ c = xoff ||| 0x80 ∨ c = zdle

def zmodemTx (zm : Zmodem) (c : UInt8) : Zmodem :=
  if alwaysEscaped c then zmodemSendEsc zm c
  else if c = cr ∨ c = cr ||| 0x80 then
    if zm.escapeCtrlChars ∧ zm.lastSent &&& 0x7f = 0x40 then zmodemSendEsc zm c
    else zmodemSendRaw zm c
  else if c = telnetIac then
    if zm.escapeTelnetIac then zmodemSendRaw (zmodemSendRaw zm zdle) zrub1
    else zmodemSendRaw zm c
  else if zm.escapeCtrlChars ∧ c &&& 0x60 = 0 then zmodemSendEsc zm c
  else zmodemSendRaw zm c

/-! ## Receiving -/

/-- The connection after a byte has been taken from it: five `CAN` in a row cancel the
session. -/
def Zmodem.took (zm : Zmodem) (c : UInt8) (rest : List UInt8) : Zmodem :=
  let n := if c = can then zm.nCans + 1 else 0
  { zm with
    input := rest
    nCans := n
    cancelled := zm.cancelled || n == 5 }

def zmodemRecvRaw (zm : Zmodem) : ℤ × Zmodem :=
  match zm.input with
  | [] => (if zm.cancelled then zcan else timeout, zm)
  | c :: rest => (c.toNat, zm.took c rest)

def isFlowCtrl (c : UInt8) : Bool :=
  c = xon ∨ c = xon ||| 0x80 ∨ c = xoff ∨ c = xoff ||| 0x80

/-- Control characters that come in unescaped are dropped when all of them should be
escaped. -/
def isSpurious (escapeCtrlChars : Bool) (c : UInt8) : Bool := escapeCtrlChars ∧ c &&& 0x60 = 0

/-- The loops of `zmodem_rx` over the bytes that come in; `escaped` says that the
second one, after a `ZDLE`, is running. -/
def zmodemRxLoop : List UInt8 → Bool → Zmodem → ℤ × Zmodem
  | [], _, zm => (if zm.cancelled then aborted else timeout, zm)
  | c :: rest, escaped, zm =>
      if zm.cancelled then (aborted, zm)
      else
        let zm := zm.took c rest
        if escaped then
          if isFlowCtrl c ∨ c = zdle then zmodemRxLoop rest true zm
          else if c = zcrce ∨ c = zcrcg ∨ c = zcrcq ∨ c = zcrcw then (c.toNat + zdleesc, zm)
          else if c = zrub0 then (0x7f, zm)
          else if c = zrub1 then (0xff, zm)
          else if isSpurious zm.escapeCtrlChars c then zmodemRxLoop rest true zm
          else if c &&& 0x60 = 0x40 then ((c ^^^ 0x40).toNat, zm)
          else zmodemRxLoop rest false zm
        else if c = zdle then zmodemRxLoop rest true zm
        else if isFlowCtrl c then zmodemRxLoop rest false zm
        else if isSpurious zm.escapeCtrlChars c then zmodemRxLoop rest false zm
        else (c.toNat, zm)

def zmodemRx (zm : Zmodem) : ℤ × Zmodem := zmodemRxLoop zm.input false zm

/-! ## What is sent for a byte -/

/-- What `zmodem_tx` puts on the line for a byte. -/
def txBytes (zm : Zmodem) (c : UInt8) : List UInt8 :=
  if alwaysEscaped c then [zdle, c ^^^ 0x40]
  else if c = cr ∨ c = cr ||| 0x80 then
    if zm.escapeCtrlChars ∧ zm.lastSent &&& 0x7f = 0x40 then [zdle, c ^^^ 0x40] else [c]
  else if c = telnetIac then if zm.escapeTelnetIac then [zdle, zrub1] else [c]
  else if zm.escapeCtrlChars ∧ c &&& 0x60 = 0 then [zdle, c ^^^ 0x40]
  else [c]

theorem zmodemTx_eq (zm : Zmodem) (c : UInt8) :
    zmodemTx zm c =
      { zm with
        lastSent := (txBytes zm c).getLastD 0
        output := zm.output ++ txBytes zm c } := by
  simp only [zmodemTx, txBytes]
  repeat' split
  all_goals simp [zmodemSendEsc, zmodemSendRaw]

/-- A carriage return that is sent as it is although control characters should be
escaped.  The sender escapes it behind an `@` only. -/
def sentBare (zm : Zmodem) (c : UInt8) : Prop :=
  (c = cr ∨ c = cr ||| 0x80) ∧ zm.escapeCtrlChars = true ∧ zm.lastSent &&& 0x7f ≠ 0x40

instance (zm : Zmodem) (c : UInt8) : Decidable (sentBare zm c) := by
  unfold sentBare
  infer_instance

/-! ## What is received for it -/

/-- An escaped byte is none of the codes with a meaning of their own. -/
theorem escape_ok (c : UInt8) (h : alwaysEscaped c = true ∨ c &&& 0x60 = 0) :
    isFlowCtrl (c ^^^ 0x40) = false ∧ c ^^^ 0x40 ≠ zdle ∧
      (c ^^^ 0x40 ≠ zcrce ∧ c ^^^ 0x40 ≠ zcrcg ∧ c ^^^ 0x40 ≠ zcrcq ∧ c ^^^ 0x40 ≠ zcrcw) ∧
      (c ^^^ 0x40 ≠ zrub0 ∧ c ^^^ 0x40 ≠ zrub1) ∧ (c ^^^ 0x40) &&& 0x60 = 0x40 ∧
      (c ^^^ 0x40) ^^^ 0x40 = c ∧ c ^^^ 0x40 ≠ can := by
  revert h
  revert c
  refine forall_uint8 ?_
  decide +kernel

/-- The connection once all of a byte's code has been taken from it. -/
def Zmodem.heard (zm : Zmodem) (rest : List UInt8) : Zmodem :=
  { zm with input := rest, nCans := 0 }

/-- A connection that is not about to be cancelled. -/
structure Zmodem.Ready (zm : Zmodem) : Prop where
  notCancelled : zm.cancelled = false
  fewCans : zm.nCans < 4

/-- A connection that is about to receive from `tx`, with the same escapes. -/
structure Zmodem.Hears (zm tx : Zmodem) : Prop where
  ready : zm.Ready
  ctrl : zm.escapeCtrlChars = tx.escapeCtrlChars

@[simp] theorem Zmodem.heard_heard (zm : Zmodem) (r s : List UInt8) :
    (zm.heard r).heard s = zm.heard s := rfl

theorem Zmodem.Hears.next {zm tx : Zmodem} (h : zm.Hears tx) (c : UInt8) (rest : List UInt8) :
    (zm.heard rest).Hears (zmodemTx tx c) where
  ready := ⟨h.ready.notCancelled, Nat.zero_lt_succ 3⟩
  ctrl := by rw [zmodemTx_eq]; exact h.ctrl

theorem Zmodem.took_eq_heard (zm : Zmodem) {c : UInt8} (hc : c ≠ zdle) (rest : List UInt8) :
    zm.took c rest = zm.heard rest := by
  have hcan : c ≠ can := hc
  simp [Zmodem.took, Zmodem.heard, hcan]

/-- The three forms that a byte can take on the line. -/
theorem txBytes_cases (zm : Zmodem) (c : UInt8) :
    ((alwaysEscaped c = true ∨ c &&& 0x60 = 0) ∧ ¬ sentBare zm c ∧
      txBytes zm c = [zdle, c ^^^ 0x40]) ∨
    (c = telnetIac ∧ ¬ sentBare zm c ∧ txBytes zm c = [zdle, zrub1]) ∨
    (txBytes zm c = [c] ∧ c ≠ zdle ∧ isFlowCtrl c = false ∧
      (isSpurious zm.escapeCtrlChars c = true ↔ sentBare zm c)) := by
  by_cases halways : alwaysEscaped c = true
  · refine Or.inl ⟨Or.inl halways, ?_, by rw [txBytes, if_pos halways]⟩
    rintro ⟨rfl | rfl, -⟩
    · exact absurd halways (by decide)
    · exact absurd halways (by decide)
  have hplain : c ≠ zdle ∧ isFlowCtrl c = false := by
    simp only [alwaysEscaped, decide_eq_true_eq, not_or] at halways
    simp only [isFlowCtrl, decide_eq_false_iff_not, not_or]
    exact ⟨halways.2.2.2.2.2.2, halways.2.2.1, halways.2.2.2.1, halways.2.2.2.2.1,
      halways.2.2.2.2.2.1⟩
  rw [txBytes, if_neg halways]
  by_cases hcr : c = cr ∨ c = cr ||| 0x80
  · have hctrl : c &&& 0x60 = 0 := by
      rcases hcr with rfl | rfl
      · decide
      · decide
    rw [if_pos hcr]
    by_cases hat : zm.escapeCtrlChars ∧ zm.lastSent &&& 0x7f = 0x40
    · rw [if_pos hat]
      exact Or.inl ⟨Or.inr hctrl, fun hbare ↦ hbare.2.2 hat.2, rfl⟩
    · rw [if_neg hat]
      refine Or.inr (Or.inr ⟨rfl, hplain.1, hplain.2, ?_⟩)
      simp only [isSpurious, hctrl, and_true, decide_eq_true_eq, sentBare, hcr, true_and]
      exact ⟨fun he ↦ ⟨he, fun hl ↦ hat ⟨he, hl⟩⟩, fun he ↦ he.1⟩
  · have hbare : ¬ sentBare zm c := fun hb ↦ hcr hb.1
    rw [if_neg hcr]
    by_cases hiac : c = telnetIac
    · rw [if_pos hiac]
      by_cases hesc : zm.escapeTelnetIac = true
      · rw [if_pos hesc]
        exact Or.inr (Or.inl ⟨hiac, hbare, rfl⟩)
      · rw [if_neg hesc]
        refine Or.inr (Or.inr ⟨rfl, hplain.1, hplain.2, iff_of_false ?_ hbare⟩)
        have hbits : ¬ telnetIac &&& 0x60 = 0 := by decide
        simp [isSpurious, hiac, hbits]
    · rw [if_neg hiac]
      by_cases hctrl : zm.escapeCtrlChars ∧ c &&& 0x60 = 0
      · rw [if_pos hctrl]
        exact Or.inl ⟨Or.inr hctrl.2, hbare, rfl⟩
      · rw [if_neg hctrl]
        refine Or.inr (Or.inr ⟨rfl, hplain.1, hplain.2, iff_of_false ?_ hbare⟩)
        simpa [isSpurious] using hctrl

section Receive

attribute [local simp] zmodemRxLoop

variable {zm : Zmodem} (h : zm.Ready)

include h

theorem rx_empty (hin : zm.input = []) : zmodemRx zm = (timeout, zm) := by
  simp [zmodemRx, hin, zmodemRxLoop, h.notCancelled]

/-- A byte that means itself. -/
theorem rx_plain {c : UInt8} {rest : List UInt8} (hin : zm.input = c :: rest) (hdle : c ≠ zdle)
    (hflow : isFlowCtrl c = false) (hspur : isSpurious zm.escapeCtrlChars c = false) :
    zmodemRx zm = ((c.toNat : ℤ), zm.heard rest) := by
  rw [zmodemRx, hin, zmodemRxLoop, zm.took_eq_heard hdle]
  simp [h.notCancelled, hdle, hflow, hspur, Zmodem.heard]

/-- A byte that is dropped. -/
theorem rx_spurious {c : UInt8} {rest : List UInt8} (hin : zm.input = c :: rest) (hdle : c ≠ zdle)
    (hflow : isFlowCtrl c = false) (hspur : isSpurious zm.escapeCtrlChars c = true) :
    zmodemRx zm = zmodemRx (zm.heard rest) := by
  rw [zmodemRx, hin, zmodemRxLoop, zm.took_eq_heard hdle]
  simp [h.notCancelled, hdle, hflow, hspur, zmodemRx, Zmodem.heard]

/-- The second byte of an escape sequence decides what is received. -/
theorem rx_escape (d : UInt8) (rest : List UInt8) (hin : zm.input = zdle :: d :: rest) :
    zmodemRx zm = zmodemRxLoop (d :: rest) true
      { zm with input := d :: rest, nCans := zm.nCans + 1 } := by
  have hcans := h.fewCans
  have hcan : zdle = can := rfl
  have hfive : (zm.nCans + 1 == 5) = false := by
    rw [beq_eq_false_iff_ne]
    omega
  rw [zmodemRx, hin, zmodemRxLoop]
  simp [h.notCancelled, Zmodem.took, hcan, hfive]

theorem rx_escaped {c : UInt8} {rest : List UInt8} (hin : zm.input = zdle :: (c ^^^ 0x40) :: rest)
    (hc : alwaysEscaped c = true ∨ c &&& 0x60 = 0) :
    zmodemRx zm = ((c.toNat : ℤ), zm.heard rest) := by
  obtain ⟨hflow, hdle, ⟨he, hg, hq, hw⟩, ⟨h0, h1⟩, h40, hback, hcan⟩ := escape_ok c hc
  have hspur : isSpurious zm.escapeCtrlChars (c ^^^ 0x40) = false := by
    simp [isSpurious, h40]
  rw [rx_escape h _ _ hin, zmodemRxLoop]
  simp [h.notCancelled, hflow, hdle, he, hg, hq, hw, h0, h1, h40, hback, hcan, hspur,
    Zmodem.took, Zmodem.heard]

/-- The end of the data of a subpacket. -/
theorem rx_subpktEnd {t : UInt8} {rest : List UInt8} (hin : zm.input = zdle :: t :: rest)
    (ht : t = zcrce ∨ t = zcrcg ∨ t = zcrcq ∨ t = zcrcw) :
    zmodemRx zm = ((t.toNat : ℤ) + zdleesc, zm.heard rest) := by
  have hplain : (isFlowCtrl t || t = zdle || t = can) = false := by
    rcases ht with rfl | rfl | rfl | rfl <;> decide
  simp only [Bool.or_eq_false_iff, decide_eq_false_iff_not] at hplain
  obtain ⟨⟨hflow, hdle⟩, hcan⟩ := hplain
  rw [rx_escape h _ _ hin, zmodemRxLoop]
  simp [h.notCancelled, hflow, hdle, ht, hcan, Zmodem.took, Zmodem.heard]

theorem rx_rubout {rest : List UInt8} (hin : zm.input = zdle :: zrub1 :: rest) :
    zmodemRx zm = ((telnetIac.toNat : ℤ), zm.heard rest) := by
  have hplain : isFlowCtrl zrub1 = false ∧ zrub1 ≠ zdle ∧
      ¬ (zrub1 = zcrce ∨ zrub1 = zcrcg ∨ zrub1 = zcrcq ∨ zrub1 = zcrcw) ∧ zrub1 ≠ zrub0 ∧
      zrub1 ≠ can := by decide
  obtain ⟨hflow, hdle, hend, h0, hcan⟩ := hplain
  rw [rx_escape h _ _ hin, zmodemRxLoop]
  simp [h.notCancelled, hflow, hdle, hend, h0, hcan, Zmodem.took, Zmodem.heard, telnetIac]

end Receive

section Hear

variable {zm tx : Zmodem} (h : zm.Hears tx) {c : UInt8} {rest : List UInt8}
  (hin : zm.input = txBytes tx c ++ rest)

include h hin

/-- What is sent for a byte is received as this byte, unless it is a bare carriage
return. -/
theorem rx_txBytes (hbare : ¬ sentBare tx c) : zmodemRx zm = ((c.toNat : ℤ), zm.heard rest) := by
  rcases txBytes_cases tx c with ⟨hesc, -, hbytes⟩ | ⟨rfl, -, hbytes⟩ |
    ⟨hbytes, hdle, hflow, hspur⟩
  · rw [hbytes] at hin
    exact rx_escaped h.ready hin hesc
  · rw [hbytes] at hin
    exact rx_rubout h.ready hin
  · rw [hbytes] at hin
    refine rx_plain h.ready hin hdle hflow ?_
    rw [h.ctrl, ← Bool.not_eq_true]
    exact mt hspur.mp hbare

/-- A bare carriage return is lost. -/
theorem rx_bare (hbare : sentBare tx c) : zmodemRx zm = zmodemRx (zm.heard rest) := by
  rcases txBytes_cases tx c with ⟨-, hnot, -⟩ | ⟨-, hnot, -⟩ | ⟨hbytes, hdle, hflow, hspur⟩
  · exact absurd hbare hnot
  · exact absurd hbare hnot
  · rw [hbytes] at hin
    exact rx_spurious h.ready hin hdle hflow (by rw [h.ctrl]; exact hspur.mpr hbare)

end Hear

end Synchronet.Sbbs3
