import Synchronet.Lib.Transducer
import Synchronet.Lib.Words
import Synchronet.Sbbs3.DatRec
import Synchronet.Sbbs3.ZmodemLine
import Synchronet.Smblib.Index
import Mathlib.Logic.Function.Basic

/-!
# The Telnet protocol of the terminal server (main.cpp)

`telnet_interpret` takes the commands out of what a client sends.  A chunk that needs no
interpretation is passed on as it is, and the bytes before the first that does are copied.
-/

namespace Synchronet.Sbbs3

open Smblib (cstr atoi)

/-! ## Constants (telnet.h) -/

def telnetDont : UInt8 := 254
def telnetDo : UInt8 := 253
def telnetWont : UInt8 := 252
def telnetWill : UInt8 := 251
def telnetSb : UInt8 := 250
def telnetSe : UInt8 := 240

def telnetBinaryTx : UInt8 := 0
def telnetEcho : UInt8 := 1
def telnetSupGa : UInt8 := 3
def telnetSendLocation : UInt8 := 23
def telnetTermType : UInt8 := 24
def telnetTermLocationNumber : UInt8 := 28
def telnetNegotiateWindowSize : UInt8 := 31
def telnetTermSpeed : UInt8 := 32

def telnetTermIs : UInt8 := 0
def telnetTermSend : UInt8 := 1
def telnetTermMaxlen : ℕ := 40

def telnetOptAck (cmd : UInt8) : UInt8 :=
  if cmd = telnetDo then telnetWill
  else if cmd = telnetDont then telnetWont
  else if cmd = telnetWill then telnetDo
  else if cmd = telnetWont then telnetDont
  else 0

def telnetOptNak (cmd : UInt8) : UInt8 :=
  if cmd = telnetDo then telnetWont
  else if cmd = telnetDont then telnetWill
  else if cmd = telnetWill then telnetDont
  else if cmd = telnetWont then telnetDo
  else 0

/-! ## The session -/

/-- What `sbbs_t` has for the protocol, and what was put to the client. -/
structure Telnet where
  /-- `telnet_mode & TELNET_MODE_GATE` -/
  modeGate : Bool := false
  /-- `telnet_mode & TELNET_MODE_OFF` -/
  modeOff : Bool := false
  /-- `console & CON_RAW_IN` -/
  rawIn : Bool := false
  localOption : UInt8 → UInt8 := fun _ ↦ 0
  remoteOption : UInt8 → UInt8 := fun _ ↦ 0
  cmd : ℕ → UInt8 := fun _ ↦ 0
  cmdlen : ℕ := 0
  lastRxch : UInt8 := 0
  location : List UInt8 := []
  terminal : List UInt8 := []
  rows : ℕ := 0
  cols : ℕ := 0
  speed : ℤ := 0
  ackEvent : Bool := false
  sent : List UInt8 := []

/-- `sizeof(telnet_cmd)` -/
def telnetCmdSize : ℕ := 64

namespace Telnet

/-- Whether a LF or NUL behind a CR is ignored. -/
def collapses (s : Telnet) : Bool :=
  !s.modeGate && s.remoteOption telnetBinaryTx ≠ telnetWill && !s.rawIn

def putcom (s : Telnet) (buf : List UInt8) : Telnet := { s with sent := s.sent ++ buf }

def sendTelnetCmd (s : Telnet) (cmd opt : UInt8) : Telnet :=
  if s.modeOff then s
  else if cmd < telnetWill then s.putcom [telnetIac, cmd]
  else s.putcom [telnetIac, cmd, opt]

/-- `"%.*s"` at a place of the command, in an array of `size` bytes. -/
def cmdText (s : Telnet) (start len size : ℕ) : List UInt8 :=
  (cstr ((List.range len).map fun i ↦ s.cmd (start + i))).take (size - 1)

/-- The number in two bytes of the command. -/
def cmdWord (s : Telnet) (i : ℕ) : ℕ := (s.cmd i).toNat <<< 8 ||| (s.cmd (i + 1)).toNat

/-- A sub-negotiation that has ended. -/
def subOption (s : Telnet) : Telnet :=
  let option := s.cmd 2
  if option = telnetTermType ∧ s.cmd 3 = telnetTermIs then
    { s with terminal := s.cmdText 4 (s.cmdlen - 6) (telnetTermMaxlen + 1) }
  else if option = telnetTermSpeed ∧ s.cmd 3 = telnetTermIs then
    { s with speed := atoi (s.cmdText 4 (s.cmdlen - 6) 128) }
  else if option = telnetSendLocation then
    { s with location := s.cmdText 3 (s.cmdlen - 5) 128 }
  else if option = telnetTermLocationNumber ∧ s.cmd 3 = 0 then
    { s with
      location := ultoa (s.cmd 4).toNat 10 ++ 46 :: ultoa (s.cmd 5).toNat 10 ++
        46 :: ultoa (s.cmd 6).toNat 10 ++ 46 :: ultoa (s.cmd 7).toNat 10 }
  else if option = telnetNegotiateWindowSize then
    { s with cols := s.cmdWord 3, rows := s.cmdWord 5 }
  else s

/-- The remote options that are acknowledged. -/
def knownOption (option : UInt8) : Bool :=
  option = telnetBinaryTx || option = telnetEcho || option = telnetTermType ||
    option = telnetTermSpeed || option = telnetSupGa || option = telnetNegotiateWindowSize ||
    option = telnetSendLocation || option = telnetTermLocationNumber

/-- WILL or WONT. -/
def remoteNegotiation (s : Telnet) (command option : UInt8) : Telnet :=
  if s.remoteOption option = command then { s with ackEvent := true }
  else if knownOption option then
    { s with remoteOption := Function.update s.remoteOption option command }.sendTelnetCmd
      (telnetOptAck command) option
  else if command = telnetWill then s.sendTelnetCmd (telnetOptNak command) option
  else s

/-- What follows WILL for two of the options. -/
def requestValue (s : Telnet) (command option : UInt8) : Telnet :=
  if command = telnetWill ∧ (option = telnetTermType ∨ option = telnetTermSpeed) then
    s.putcom [telnetIac, telnetSb, option, telnetTermSend, telnetIac, telnetSe]
  else s

/-- An option negotiation outside gate mode. -/
def negotiation (s : Telnet) (command option : UInt8) : Telnet :=
  if command = telnetDo ∨ command = telnetDont then
    if s.localOption option = command then { s with ackEvent := true }
    else
      { s with localOption := Function.update s.localOption option command }.sendTelnetCmd
        (telnetOptAck command) option
  else (s.remoteNegotiation command option).requestValue command option

/-- A byte of a command is stored; when the buffer is full, the command is dropped. -/
def storeCmd (s : Telnet) (b : UInt8) : Telnet :=
  if s.cmdlen < telnetCmdSize then
    { s with cmd := Function.update s.cmd s.cmdlen b, cmdlen := s.cmdlen + 1 }
  else { s with cmdlen := 0 }

/-- The command after its last byte is stored. -/
def interpretCmd (s : Telnet) (b : UInt8) : Telnet :=
  let command := s.cmd 1
  let option := s.cmd 2
  if s.cmdlen = 2 ∧ command = telnetSe then { s with cmdlen := 0 }
  else if 2 ≤ s.cmdlen ∧ command = telnetSb then
    if b = telnetSe ∧ s.cmd (s.cmdlen - 2) = telnetIac then { s.subOption with cmdlen := 0 }
    else s
  else if s.cmdlen = 2 ∧ b < telnetWill then { s with cmdlen := 0 }
  else if 3 ≤ s.cmdlen then
    { if s.modeGate then s else s.negotiation command option with cmdlen := 0 }
  else s

/-- The commands in the loop of `telnet_interpret`. -/
def interpretByte (s : Telnet) (b : UInt8) : Telnet × List UInt8 :=
  if b = telnetIac ∧ s.cmdlen = 1 then ({ s with cmdlen := 0 }, [telnetIac])
  else if b = telnetIac ∨ s.cmdlen ≠ 0 then
    ((s.storeCmd b).interpretCmd b, if s.modeGate then [b] else [])
  else (s, [b])

/-- One round of the loop of `telnet_interpret`. -/
def step (s : Telnet) (b : UInt8) : Telnet × List UInt8 :=
  if s.collapses then
    if s.lastRxch = 13 ∧ (b = 10 ∨ b = 0) then ({ s with lastRxch := b }, [])
    else { s with lastRxch := b }.interpretByte b
  else s.interpretByte b

/-- How many bytes are copied before the loop. -/
def copied (s : Telnet) (inbuf : List UInt8) : ℕ :=
  let firstIac := inbuf.idxOf telnetIac
  let firstCr :=
    if s.collapses then if s.lastRxch = 13 then 0 else inbuf.idxOf 13 else inbuf.length
  if s.cmdlen = 0 then min firstIac firstCr else 0

/-- `telnet_interpret`: what is handed on. -/
def interpret (s : Telnet) (inbuf : List UInt8) : Telnet × List UInt8 :=
  let outlen := s.copied inbuf
  let (t, out) := Transducer.run step s (inbuf.drop outlen)
  (t, inbuf.take outlen ++ out)

/-! ## One byte -/

variable {s : Telnet} {b : UInt8}

/-- The byte is remembered outside binary mode. -/
def receive (s : Telnet) (b : UInt8) : Telnet :=
  { s with lastRxch := if s.collapses then b else s.lastRxch }

@[simp] theorem receive_collapses : (s.receive b).collapses = s.collapses := rfl

theorem step_of_ignored (h : s.collapses = true ∧ s.lastRxch = 13 ∧ (b = 10 ∨ b = 0)) :
    step s b = (s.receive b, []) := by
  rw [step, if_pos h.1, if_pos h.2, receive, if_pos h.1]

theorem step_of_not_ignored (h : ¬ (s.collapses = true ∧ s.lastRxch = 13 ∧ (b = 10 ∨ b = 0))) :
    step s b = (s.receive b).interpretByte b := by
  rw [step, receive]
  by_cases hs : s.collapses = true
  · rw [if_pos hs, if_pos hs, if_neg fun hb ↦ h ⟨hs, hb⟩]
  · rw [if_neg hs, if_neg hs]

/-- Only a LF or NUL is ever ignored. -/
theorem step_of_ne (h : b ≠ 10) (h0 : b ≠ 0) : step s b = (s.receive b).interpretByte b :=
  step_of_not_ignored fun hb ↦ hb.2.2.elim h h0

theorem interpretByte_data (hcmdlen : s.cmdlen = 0) (hb : b ≠ telnetIac) :
    s.interpretByte b = (s, [b]) := by
  simp [interpretByte, hcmdlen, hb]

/-! ## Chunks -/

/-- What the last byte was is changed. -/
def withLast (s : Telnet) (x : UInt8) : Telnet := { s with lastRxch := x }

theorem withLast_ite {p : Prop} [Decidable p] (s t : Telnet) (x : UInt8) :
    (if p then s else t).withLast x = if p then s.withLast x else t.withLast x :=
  apply_ite (withLast · x) p s t

theorem storeCmd_withLast (x : UInt8) :
    (s.withLast x).storeCmd b = (s.storeCmd b).withLast x := by
  simp only [storeCmd, withLast_ite]
  rfl

theorem subOption_withLast (x : UInt8) : (s.withLast x).subOption = s.subOption.withLast x := by
  simp only [subOption, withLast_ite]
  rfl

theorem sendTelnetCmd_withLast (x cmd opt : UInt8) :
    (s.withLast x).sendTelnetCmd cmd opt = (s.sendTelnetCmd cmd opt).withLast x := by
  simp only [sendTelnetCmd, withLast_ite]
  rfl

theorem remoteNegotiation_withLast (x command option : UInt8) :
    (s.withLast x).remoteNegotiation command option =
      (s.remoteNegotiation command option).withLast x := by
  simp only [remoteNegotiation, withLast_ite, ← sendTelnetCmd_withLast]
  rfl

theorem requestValue_withLast (x command option : UInt8) :
    (s.withLast x).requestValue command option = (s.requestValue command option).withLast x := by
  simp only [requestValue, withLast_ite]
  rfl

theorem negotiation_withLast (x command option : UInt8) :
    (s.withLast x).negotiation command option = (s.negotiation command option).withLast x := by
  simp only [negotiation, withLast_ite, ← sendTelnetCmd_withLast, remoteNegotiation_withLast,
    requestValue_withLast]
  rfl

/-- The commands neither read nor change what the last byte was. -/
theorem interpretCmd_withLast (x : UInt8) :
    (s.withLast x).interpretCmd b = (s.interpretCmd b).withLast x := by
  have hgate : (s.withLast x).modeGate = s.modeGate := rfl
  cases hs : s.modeGate <;>
    simp only [interpretCmd, withLast_ite, subOption_withLast, negotiation_withLast, hgate, hs,
      Bool.false_eq_true, if_false, if_true] <;> rfl

theorem interpretByte_withLast (x : UInt8) : (s.withLast x).interpretByte b =
    ((s.interpretByte b).1.withLast x, (s.interpretByte b).2) := by
  simp only [interpretByte, storeCmd_withLast, interpretCmd_withLast]
  have hcmdlen : (s.withLast x).cmdlen = s.cmdlen := rfl
  have hgate : (s.withLast x).modeGate = s.modeGate := rfl
  rw [hcmdlen, hgate]
  split_ifs <;> rfl

theorem interpretByte_lastRxch : (s.interpretByte b).1.lastRxch = s.lastRxch := by
  have h : s.withLast s.lastRxch = s := rfl
  have heq := interpretByte_withLast (s := s) (b := b) s.lastRxch
  rw [h] at heq
  rw [heq]
  rfl

/-- Only what the last byte was may differ, if it is a CR for both or for none. -/
def Same (s t : Telnet) : Prop :=
  t = s.withLast t.lastRxch ∧ (s.lastRxch = 13 ↔ t.lastRxch = 13)

theorem Same.refl (s : Telnet) : Same s s := ⟨rfl, Iff.rfl⟩

theorem Same.trans {t u : Telnet} (hst : Same s t) (htu : Same t u) : Same s u := by
  refine ⟨?_, hst.2.trans htu.2⟩
  rw [htu.1, hst.1]
  rfl

theorem same_withLast {x : UInt8} (h : s.lastRxch = 13 ↔ x = 13) : Same s (s.withLast x) :=
  ⟨rfl, h⟩

theorem step_same {t : Telnet} (h : Same s t) :
    Same (step s b).1 (step t b).1 ∧ (step s b).2 = (step t b).2 := by
  obtain ⟨ht, hlast⟩ := h
  generalize t.lastRxch = x at ht hlast
  subst ht
  have hcollapses : (s.withLast x).collapses = s.collapses := rfl
  have hx : (s.withLast x).lastRxch = x := rfl
  by_cases hs : s.collapses = true
  · -- Both forget what the last byte was.
    have heq : step (s.withLast x) b = step s b := by
      simp only [step, hcollapses, hx, hlast, hs, if_true]
      rfl
    rw [heq]
    exact ⟨Same.refl _, rfl⟩
  · have hstep : step (s.withLast x) b = (s.withLast x).interpretByte b := if_neg hs
    rw [hstep, interpretByte_withLast, step, if_neg hs]
    refine ⟨same_withLast ?_, rfl⟩
    rwa [interpretByte_lastRxch]

theorem bisimulation : Transducer.Bisimulation step Same where
  states := fun _ _ _ h ↦ (step_same h).1
  outputs := fun _ _ _ h ↦ (step_same h).2

/-- Bytes that need no interpretation. -/
theorem run_plain {bs : List UInt8} (hcmdlen : s.cmdlen = 0) (hiac : ∀ b ∈ bs, b ≠ telnetIac)
    (hcr : s.collapses → ∀ b ∈ bs, s.lastRxch ≠ 13 ∧ b ≠ 13) :
    Same s (Transducer.run step s bs).1 ∧ (Transducer.run step s bs).2 = bs := by
  induction bs generalizing s with
  | nil => exact ⟨Same.refl s, rfl⟩
  | cons b bs ih =>
      have hstep : step s b = (s.receive b, [b]) := by
        rw [step_of_not_ignored fun hb ↦ (hcr hb.1 b List.mem_cons_self).1 hb.2.1]
        exact interpretByte_data (s := s.receive b) hcmdlen (hiac b List.mem_cons_self)
      have hsame : Same s (s.receive b) := by
        apply same_withLast
        by_cases hs : s.collapses = true
        · obtain ⟨hlast, hb⟩ := hcr hs b List.mem_cons_self
          rw [if_pos hs]
          exact iff_of_false hlast hb
        · rw [if_neg hs]
      obtain ⟨hrun, hout⟩ := ih (s := s.receive b) hcmdlen
        (fun c hc ↦ hiac c (List.mem_cons_of_mem b hc)) fun hs c hc ↦ by
          obtain ⟨hlast, -⟩ := hcr hs b List.mem_cons_self
          exact ⟨mt hsame.2.mpr hlast, (hcr hs c (List.mem_cons_of_mem b hc)).2⟩
      rw [Transducer.run_cons, hstep, hout]
      exact ⟨hsame.trans hrun, rfl⟩

theorem ne_of_mem_take {bs : List UInt8} {c : UInt8} {n : ℕ} (hn : n ≤ bs.idxOf c) :
    ∀ b ∈ bs.take n, b ≠ c := by
  rintro b hb rfl
  obtain ⟨i, hi, rfl⟩ := List.mem_take_iff_getElem.mp hb
  have hlt : i < bs.idxOf bs[i] := by omega
  exact absurd (beq_self_eq_true bs[i]) (by simpa using List.not_of_lt_findIdx hlt)

/-- A chunk is interpreted byte by byte. -/
theorem interpret_same (inbuf : List UInt8) :
    Same (s.interpret inbuf).1 (Transducer.run step s inbuf).1 ∧
      (s.interpret inbuf).2 = (Transducer.run step s inbuf).2 := by
  have hplain : Same s (Transducer.run step s (inbuf.take (s.copied inbuf))).1 ∧
      (Transducer.run step s (inbuf.take (s.copied inbuf))).2 = inbuf.take (s.copied inbuf) := by
    by_cases hcmdlen : s.cmdlen = 0
    · apply run_plain hcmdlen
      · apply ne_of_mem_take
        rw [copied, if_pos hcmdlen]
        exact min_le_left _ _
      · intro hs b hb
        rw [copied, if_pos hcmdlen, if_pos hs] at hb
        by_cases hlast : s.lastRxch = 13
        · simp [hlast] at hb
        · rw [if_neg hlast] at hb
          exact ⟨hlast, ne_of_mem_take (min_le_right _ _) b hb⟩
    · simp [copied, hcmdlen, Same.refl]
  obtain ⟨hsame, hout⟩ := hplain
  have hrun : Same (Transducer.run step s (inbuf.drop (s.copied inbuf))).1 _ ∧ _ :=
    bisimulation.run hsame
  have happend : Transducer.run step s
      (inbuf.take (s.copied inbuf) ++ inbuf.drop (s.copied inbuf)) = _ := Transducer.run_append
  rw [List.take_append_drop] at happend
  rw [happend, hout, ← hrun.2]
  exact ⟨hrun.1, rfl⟩

/-- The chunks in which the bytes come do not matter. -/
theorem run_interpret (chunks : List (List UInt8)) :
    Same (Transducer.run interpret s chunks).1 (Transducer.run step s chunks.flatten).1 ∧
      (Transducer.run interpret s chunks).2 = (Transducer.run step s chunks.flatten).2 :=
  bisimulation.run_flatten (fun _ _ _ ↦ Same.trans) (fun _ inbuf ↦ (interpret_same inbuf).1)
    (fun _ inbuf ↦ (interpret_same inbuf).2) (Same.refl s) chunks

end Telnet

end Synchronet.Sbbs3
