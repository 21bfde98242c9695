import Synchronet.Sbbs3.Telnet
import Mathlib.Data.List.Chain

/-!
# What a Telnet client sends

A client sends data, commands, negotiations and sub-negotiations.  `telnet_interpret` hands on
the data and stores the window size, in whatever chunks the bytes come, with two exceptions: it
does not undo the doubling of 255 in a sub-negotiation, and outside binary mode it takes the
bytes of commands for a CR with a LF or NUL behind it.
-/

namespace Synchronet.Sbbs3

/-! ## Items and their meaning -/

/-- What a client sends.  A line end is the data byte CR with the data byte LF or NUL. -/
inductive TelnetItem
  | data (b : UInt8)
  | escapedIac
  | command (c : UInt8)
  | negotiation (command option : UInt8)
  | windowSize (cols rows : ℕ)
  | subnegotiation (content : List UInt8)

/-- Each 255 is doubled. -/
def doubled (content : List UInt8) : List UInt8 :=
  content.flatMap fun b ↦ if b = telnetIac then [telnetIac, telnetIac] else [b]

/-- The columns and rows as they are sent. -/
def sizeBytes (cols rows : ℕ) : List UInt8 :=
  [UInt8.ofNat (cols / 256), UInt8.ofNat cols, UInt8.ofNat (rows / 256), UInt8.ofNat rows]

/-- The content of a sub-negotiation between its begin and end. -/
def encodeSub (content : List UInt8) : List UInt8 :=
  telnetIac :: telnetSb :: (doubled content ++ [telnetIac, telnetSe])

namespace TelnetItem

def encode : TelnetItem → List UInt8
  | data b => [b]
  | escapedIac => [telnetIac, telnetIac]
  | command c => [telnetIac, c]
  | negotiation c option => [telnetIac, c, option]
  | windowSize cols rows => encodeSub (telnetNegotiateWindowSize :: sizeBytes cols rows)
  | subnegotiation content => encodeSub content

def Valid : TelnetItem → Prop
  | data b => b ≠ telnetIac
  | escapedIac => True
  | command c => c < telnetSb
  | negotiation c _ => telnetWill ≤ c ∧ c ≤ telnetDont
  | windowSize cols rows => cols < 65536 ∧ rows < 65536
  | subnegotiation content =>
      content.head? ≠ some telnetNegotiateWindowSize ∧
        (encodeSub content).length ≤ telnetCmdSize

end TelnetItem

/-- What the items so far say. -/
structure TelnetMeaning where
  raw : Bool
  binary : Bool
  /-- The item before is the data byte CR. -/
  afterCr : Bool
  /-- The last byte outside binary mode, of whatever item, is 13. -/
  lastCr : Bool
  cols : ℕ
  rows : ℕ

namespace TelnetMeaning

/-- Whether line ends are sent as CR with LF or NUL. -/
def text (m : TelnetMeaning) : Bool := !m.raw && !m.binary

def lastCrAfter (m : TelnetMeaning) (item : TelnetItem) : Bool :=
  if m.text then item.encode.getLast? = some 13 else m.lastCr

/-- The data bytes of an item, and what is known after it. -/
def receive (m : TelnetMeaning) (item : TelnetItem) : TelnetMeaning × List UInt8 :=
  let n := { m with afterCr := false, lastCr := m.lastCrAfter item }
  match item with
  | .data b =>
      ({ n with afterCr := b = 13 },
        if m.text ∧ m.afterCr ∧ (b = 10 ∨ b = 0) then [] else [b])
  | .escapedIac => (n, [telnetIac])
  | .negotiation command option =>
      if option = telnetBinaryTx ∧ (command = telnetWill ∨ command = telnetWont) then
        ({ n with binary := command = telnetWill }, [])
      else (n, [])
  | .windowSize cols rows => ({ n with cols, rows }, [])
  | .command _ | .subnegotiation _ => (n, [])

/-- No byte of a command is taken for a CR, LF or NUL, and no 255 in a sub-negotiation is
mistaken. -/
def Clear (m : TelnetMeaning) : TelnetItem → Prop
  | .data b => m.text → (b = 10 ∨ b = 0) → m.lastCr → m.afterCr
  | .windowSize cols rows =>
      (doubled (sizeBytes cols rows)).take 4 = sizeBytes cols rows ∧
        (m.text → (sizeBytes cols rows).IsChain fun a b ↦ ¬ (a = 13 ∧ (b = 10 ∨ b = 0)))
  | .subnegotiation content => content.IsChain fun a b ↦ ¬ (a = telnetIac ∧ b = telnetSe)
  | .escapedIac | .command _ | .negotiation _ _ => True

end TelnetMeaning

namespace Telnet

/-- What is known before the first item. -/
def meaning (s : Telnet) : TelnetMeaning where
  raw := s.rawIn
  binary := s.remoteOption telnetBinaryTx = telnetWill
  afterCr := s.lastRxch = 13
  lastCr := s.lastRxch = 13
  cols := s.cols
  rows := s.rows

/-! ## Bytes of a command -/

variable {s : Telnet} {b : UInt8}

/-- The command with one byte more. -/
def push (s : Telnet) (b : UInt8) : Telnet :=
  { s.receive b with cmd := Function.update s.cmd s.cmdlen b, cmdlen := s.cmdlen + 1 }

@[simp] theorem push_modeGate : (s.push b).modeGate = s.modeGate := rfl

@[simp] theorem push_cmdlen : (s.push b).cmdlen = s.cmdlen + 1 := rfl

theorem push_lastRxch : (s.push b).lastRxch = if s.collapses then b else s.lastRxch := rfl

@[simp] theorem push_collapses : (s.push b).collapses = s.collapses := rfl

/-- The bytes of the command. -/
def command (s : Telnet) : List UInt8 := (List.range s.cmdlen).map s.cmd

theorem length_command : s.command.length = s.cmdlen := by simp [command]

theorem command_getElem? {i : ℕ} (h : i < s.cmdlen) : s.command[i]? = some (s.cmd i) := by
  simp [command, h]

theorem push_command : (s.push b).command = s.command ++ [b] := by
  have hlow : ∀ i ∈ List.range s.cmdlen, (s.push b).cmd i = s.cmd i := by
    intro i hi
    exact Function.update_of_ne (List.mem_range.mp hi).ne _ _
  have hcmdlen : (s.push b).cmdlen = s.cmdlen + 1 := rfl
  have hlast : (s.push b).cmd s.cmdlen = b := Function.update_self _ _ _
  rw [command, hcmdlen, List.range_succ, List.map_append, List.map_singleton, hlast,
    List.map_congr_left hlow, command]

/-- A byte of a command that is not ignored. -/
theorem step_push (hgate : s.modeGate = false)
    (hkept : ¬ (s.collapses = true ∧ s.lastRxch = 13 ∧ (b = 10 ∨ b = 0)))
    (hopen : b = telnetIac ∨ s.cmdlen ≠ 0) (hescape : ¬ (b = telnetIac ∧ s.cmdlen = 1))
    (hsize : s.cmdlen < telnetCmdSize) :
    step s b = ((s.push b).interpretCmd b, []) := by
  have hcmdlen : (s.receive b).cmdlen = s.cmdlen := rfl
  have hgate' : (s.receive b).modeGate = false := hgate
  have hstore : (s.receive b).storeCmd b = s.push b := if_pos hsize
  rw [step_of_not_ignored hkept, interpretByte, hcmdlen, if_neg hescape, if_pos hopen, hstore,
    hgate', if_neg Bool.false_ne_true]

/-- The begin of a command. -/
theorem step_iac (hgate : s.modeGate = false) (hcmdlen : s.cmdlen = 0) :
    step s telnetIac = (s.push telnetIac, []) := by
  rw [step_push hgate (by simp [telnetIac]) (.inl rfl) (by simp [hcmdlen])
    (by simp [hcmdlen, telnetCmdSize])]
  simp [interpretCmd, hcmdlen]

/-- The byte behind 255 is not ignored. -/
theorem push_lastRxch_ne (hb : b ≠ 13) (p : Prop) :
    ¬ ((s.push b).collapses = true ∧ (s.push b).lastRxch = 13 ∧ p) := by
  rintro ⟨hs, hlast, -⟩
  have hs : s.collapses = true := hs
  rw [push, receive, if_pos hs] at hlast
  exact hb hlast

theorem step_escaped (hcmdlen : s.cmdlen = 0) :
    step (s.push telnetIac) telnetIac =
      ({ (s.push telnetIac).receive telnetIac with cmdlen := 0 }, [telnetIac]) := by
  have hlen : (s.push telnetIac).cmdlen = 1 := congrArg (· + 1) hcmdlen
  rw [step_of_ne (by decide) (by decide), interpretByte, if_pos ⟨rfl, hlen⟩]

/-- The byte behind the begin of a command. -/
theorem step_second (hgate : s.modeGate = false) (hcmdlen : s.cmdlen = 0) (hb : b ≠ telnetIac) :
    step (s.push telnetIac) b = (((s.push telnetIac).push b).interpretCmd b, []) := by
  have hlen : (s.push telnetIac).cmdlen = 1 := congrArg (· + 1) hcmdlen
  have hgate' : (s.push telnetIac).modeGate = false := hgate
  apply step_push hgate' (push_lastRxch_ne (by decide) _)
  · simp
  · simp [hb]
  · rw [hlen, telnetCmdSize]
    decide

theorem push_push_command (hcmdlen : s.cmdlen = 0) :
    ((s.push telnetIac).push b).command = [telnetIac, b] := by
  rw [push_command, push_command]
  simp [command, hcmdlen]

theorem push_push_cmd (hcmdlen : s.cmdlen = 0) : ((s.push telnetIac).push b).cmd 1 = b := by
  have h := push_push_command (b := b) hcmdlen
  have hlen : ((s.push telnetIac).push b).cmdlen = 2 := congrArg (· + 2) hcmdlen
  have hget := command_getElem? (s := (s.push telnetIac).push b) (i := 1) (by omega)
  rw [h] at hget
  exact (Option.some.inj hget).symm

/-- A command of two bytes has no effect. -/
theorem interpretCmd_two (hcmdlen : s.cmdlen = 2) (hcommand : s.cmd 1 = b) (hb : b < telnetSb) :
    s.interpretCmd b = { s with cmdlen := 0 } := by
  have hne : b ≠ telnetSb := UInt8.ne_of_lt hb
  have hlt : b < telnetWill := UInt8.lt_trans hb (by decide)
  simp only [interpretCmd, hcommand, hcmdlen, hne, hlt, and_false, if_false, and_self, if_true,
    true_and, ite_self]

/-- The begin of a negotiation or sub-negotiation. -/
theorem interpretCmd_open (hcmdlen : s.cmdlen = 2) (hcommand : s.cmd 1 = b) (hb : telnetSb ≤ b) :
    s.interpretCmd b = s := by
  have hse : b ≠ telnetSe := fun h ↦ absurd (h ▸ hb) (by decide)
  by_cases hsb : b = telnetSb
  · have : telnetSb ≠ telnetSe := by decide
    simp [interpretCmd, hcommand, hcmdlen, hsb, this]
  · have hwill : ¬ b < telnetWill := by
      intro hlt
      apply hsb
      apply UInt8.toNat_inj.mp
      have hle := UInt8.le_iff_toNat_le.mp hb
      have hlt := UInt8.lt_iff_toNat_lt.mp hlt
      simp only [telnetSb, telnetWill, UInt8.reduceToNat] at hle hlt ⊢
      omega
    simp [interpretCmd, hcommand, hcmdlen, hsb, hse, hwill]

/-! ## Sub-negotiations -/

/-- Only the command and the last byte differ, and the last byte only outside binary mode. -/
structure OnlyCommand (s t : Telnet) : Prop where
  eq : t = { s with cmd := t.cmd, cmdlen := t.cmdlen, lastRxch := t.lastRxch }
  last : s.collapses = false → t.lastRxch = s.lastRxch

theorem OnlyCommand.trans {t u : Telnet} (hst : OnlyCommand s t) (htu : OnlyCommand t u) :
    OnlyCommand s u := by
  refine ⟨?_, fun hs ↦ ?_⟩
  · rw [htu.eq, hst.eq]
  · have ht : t.collapses = false := by
      rw [hst.eq]
      exact hs
    exact (htu.last ht).trans (hst.last hs)

theorem OnlyCommand.collapses {t : Telnet} (h : OnlyCommand s t) : t.collapses = s.collapses := by
  rw [h.eq]
  rfl

theorem onlyCommand_refl (s : Telnet) : OnlyCommand s s := ⟨rfl, fun _ ↦ rfl⟩

theorem onlyCommand_receive (s : Telnet) (b : UInt8) : OnlyCommand s (s.receive b) :=
  ⟨rfl, fun hs ↦ if_neg (by simp [hs])⟩

theorem onlyCommand_push (s : Telnet) (b : UInt8) : OnlyCommand s (s.push b) :=
  ⟨rfl, fun hs ↦ if_neg (by simp [hs])⟩

/-- The bytes without each LF or NUL behind a CR, when these are ignored. -/
def kept (text : Bool) : UInt8 → List UInt8 → List UInt8
  | _, [] => []
  | last, b :: bs =>
      if text = true ∧ last = 13 ∧ (b = 10 ∨ b = 0) then kept text b bs else b :: kept text b bs

theorem kept_false (last : UInt8) (bs : List UInt8) : kept false last bs = bs := by
  induction bs generalizing last with
  | nil => rfl
  | cons b bs ih => simp [kept, ih]

theorem length_kept_le (text : Bool) (last : UInt8) (bs : List UInt8) :
    (kept text last bs).length ≤ bs.length := by
  induction bs generalizing last with
  | nil => exact Nat.le_refl 0
  | cons b bs ih =>
      have hle := ih b
      rw [kept, List.length_cons]
      split
      · omega
      · rw [List.length_cons]
        omega

theorem kept_receive (bs : List UInt8) :
    kept s.collapses b bs = kept (s.receive b).collapses (s.receive b).lastRxch bs := by
  cases hs : s.collapses with
  | false => rw [receive_collapses, hs, kept_false, kept_false]
  | true => rw [receive_collapses, hs, receive, if_pos hs]

/-- The last two bytes of a command. -/
theorem command_eq_append (h : 2 ≤ s.cmdlen) :
    ∃ l, s.command = l ++ [s.cmd (s.cmdlen - 2), s.cmd (s.cmdlen - 1)] := by
  obtain ⟨n, hn⟩ := Nat.exists_eq_add_of_le' h
  refine ⟨(List.range n).map s.cmd, ?_⟩
  simp [command, hn, List.range_succ]

/-- A sub-negotiation ends with 255 and 240. -/
theorem interpretCmd_sub {l : List UInt8} (hcommand : s.command = telnetIac :: telnetSb :: l) :
    s.interpretCmd b =
      if b = telnetSe ∧ s.cmd (s.cmdlen - 2) = telnetIac then { s.subOption with cmdlen := 0 }
      else s := by
  have hlen : 2 ≤ s.cmdlen := by
    rw [← length_command, hcommand]
    simp
  have hsb : s.cmd 1 = telnetSb := by
    have h := command_getElem? (s := s) (i := 1) (by omega)
    rw [hcommand] at h
    exact (Option.some.inj h).symm
  have hne : telnetSb ≠ telnetSe := by decide
  rw [interpretCmd, hsb, if_neg fun h ↦ hne h.2, if_pos ⟨hlen, rfl⟩]

/-- Two bytes that do not end a sub-negotiation. -/
def Goes (a b : UInt8) : Prop := ¬ (a = telnetIac ∧ b = telnetSe)

theorem goes_of_ne {a b : UInt8} (h : a ≠ telnetIac) : Goes a b := fun hab ↦ h hab.1

theorem interpretCmd_goes {l rest : List UInt8}
    (hcommand : s.command = telnetIac :: telnetSb :: l)
    (hgoes : ((s.push b).command ++ rest).IsChain Goes) :
    (s.push b).interpretCmd b = s.push b := by
  have hcommand' : (s.push b).command = telnetIac :: telnetSb :: (l ++ [b]) := by
    rw [push_command, hcommand]
    rfl
  have hlen : 2 ≤ (s.push b).cmdlen := by
    rw [← length_command, hcommand']
    simp
  rw [interpretCmd_sub hcommand', if_neg]
  rintro ⟨hb, hiac⟩
  obtain ⟨m, hm⟩ := command_eq_append hlen
  have hlast : (s.push b).cmd ((s.push b).cmdlen - 1) = b := Function.update_self _ _ _
  rw [hm, hlast, List.append_assoc] at hgoes
  exact (List.isChain_append_cons_cons.mp hgoes).2.1 ⟨hiac, hb⟩

/-- The bytes of a sub-negotiation are collected. -/
theorem run_collect {l : List UInt8} (bs : List UInt8) (hgate : s.modeGate = false)
    (hcommand : s.command = telnetIac :: telnetSb :: l)
    (hsize : s.cmdlen + bs.length ≤ telnetCmdSize)
    (hgoes : (s.command ++ kept s.collapses s.lastRxch bs).IsChain Goes) :
    ∃ t, Transducer.run step s bs = (t, []) ∧ OnlyCommand s t ∧
      t.command = s.command ++ kept s.collapses s.lastRxch bs := by
  induction bs generalizing s l with
  | nil => exact ⟨s, rfl, onlyCommand_refl s, (List.append_nil _).symm⟩
  | cons b bs ih =>
      rw [List.length_cons] at hsize
      by_cases hb : s.collapses = true ∧ s.lastRxch = 13 ∧ (b = 10 ∨ b = 0)
      · rw [kept, if_pos hb, kept_receive] at hgoes ⊢
        have hsize' : (s.receive b).cmdlen + bs.length ≤ telnetCmdSize := by
          have h : (s.receive b).cmdlen = s.cmdlen := rfl
          omega
        obtain ⟨t, hrun, honly, ht⟩ := ih (s := s.receive b) hgate hcommand hsize' hgoes
        refine ⟨t, ?_, (onlyCommand_receive s b).trans honly, ht⟩
        rw [Transducer.run_cons, step_of_ignored hb, hrun]
        rfl
      · rw [kept, if_neg hb] at hgoes ⊢
        have hkept : kept s.collapses b bs =
            kept (s.push b).collapses (s.push b).lastRxch bs := kept_receive bs
        have hlen : s.cmdlen ≠ 0 ∧ s.cmdlen ≠ 1 := by
          rw [← length_command, hcommand]
          simp
        rw [List.append_cons, ← push_command, hkept] at hgoes ⊢
        have hsize' : (s.push b).cmdlen + bs.length ≤ telnetCmdSize := by
          have h : (s.push b).cmdlen = s.cmdlen + 1 := rfl
          omega
        have hcommand' : (s.push b).command = telnetIac :: telnetSb :: (l ++ [b]) := by
          rw [push_command, hcommand]
          rfl
        obtain ⟨t, hrun, honly, ht⟩ := ih (s := s.push b) hgate hcommand' hsize' hgoes
        refine ⟨t, ?_, (onlyCommand_push s b).trans honly, ht⟩
        rw [Transducer.run_cons, step_push hgate hb (.inr hlen.1) (fun h ↦ hlen.2 h.2)
          (by omega), interpretCmd_goes hcommand hgoes, hrun]
        rfl

/-- The end of a sub-negotiation. -/
theorem run_end {l : List UInt8} (hgate : s.modeGate = false)
    (hcommand : s.command = telnetIac :: telnetSb :: l) (hsize : s.cmdlen + 2 ≤ telnetCmdSize) :
    Transducer.run step s [telnetIac, telnetSe] =
      ({ ((s.push telnetIac).push telnetSe).subOption with cmdlen := 0 }, []) := by
  have hlen : s.cmdlen = l.length + 2 := by
    rw [← length_command, hcommand]
    rfl
  have hiac : (s.push telnetIac).command = telnetIac :: telnetSb :: (l ++ [telnetIac]) := by
    rw [push_command, hcommand]
    rfl
  have hse : ((s.push telnetIac).push telnetSe).command =
      telnetIac :: telnetSb :: (l ++ [telnetIac] ++ [telnetSe]) := by
    rw [push_command, hiac]
    rfl
  have hlen' : (s.push telnetIac).cmdlen = s.cmdlen + 1 := rfl
  have hgate' : (s.push telnetIac).modeGate = false := hgate
  have hlast : ((s.push telnetIac).push telnetSe).cmd
      (((s.push telnetIac).push telnetSe).cmdlen - 2) = telnetIac := by
    have hprev : ((s.push telnetIac).push telnetSe).cmdlen - 2 = s.cmdlen := rfl
    have hne : s.cmdlen ≠ (s.push telnetIac).cmdlen := by omega
    rw [hprev]
    exact (Function.update_of_ne hne _ _).trans (Function.update_self _ _ _)
  have hfirst : step s telnetIac = (s.push telnetIac, []) := by
    rw [step_push hgate (by simp [telnetIac]) (.inl rfl) (by omega) (by omega),
      interpretCmd_sub hiac, if_neg (by simp [telnetIac, telnetSe])]
  have hsecond : step (s.push telnetIac) telnetSe =
      ({ ((s.push telnetIac).push telnetSe).subOption with cmdlen := 0 }, []) := by
    rw [step_push hgate' (by simp [telnetSe]) (.inr (by omega)) (by omega) (by omega),
      interpretCmd_sub hse, if_pos ⟨rfl, hlast⟩]
  rw [Transducer.run_cons, hfirst, Transducer.run_singleton, hsecond]
  rfl

theorem run_encodeSub {content : List UInt8} (hgate : s.modeGate = false) (hcmdlen : s.cmdlen = 0)
    (hsize : (encodeSub content).length ≤ telnetCmdSize)
    (hgoes : (telnetSb :: kept s.collapses telnetSb (doubled content)).IsChain Goes) :
    ∃ u, Transducer.run step s (encodeSub content) = ({ u.subOption with cmdlen := 0 }, []) ∧
      OnlyCommand s u ∧ (s.collapses = true → u.lastRxch = telnetSe) ∧
      u.command = telnetIac :: telnetSb ::
        (kept s.collapses telnetSb (doubled content) ++ [telnetIac, telnetSe]) := by
  have hsb : step (s.push telnetIac) telnetSb = ((s.push telnetIac).push telnetSb, []) := by
    rw [step_second hgate hcmdlen (by decide), interpretCmd_open (congrArg (· + 2) hcmdlen)
      (push_push_cmd hcmdlen) (UInt8.le_refl _)]
  have hcommand : ((s.push telnetIac).push telnetSb).command = [telnetIac, telnetSb] :=
    push_push_command hcmdlen
  have honly : OnlyCommand s ((s.push telnetIac).push telnetSb) :=
    (onlyCommand_push s _).trans (onlyCommand_push _ _)
  have hkept : kept s.collapses telnetSb (doubled content) =
      kept ((s.push telnetIac).push telnetSb).collapses
        ((s.push telnetIac).push telnetSb).lastRxch (doubled content) :=
    kept_receive (s := s.push telnetIac) (doubled content)
  have hlen : ((s.push telnetIac).push telnetSb).cmdlen = 2 := congrArg (· + 2) hcmdlen
  have hsize' : (doubled content).length + 4 ≤ telnetCmdSize := by
    have hlength : (encodeSub content).length = (doubled content).length + 4 := by simp [encodeSub]
    rwa [hlength] at hsize
  rw [hkept] at hgoes ⊢
  generalize (s.push telnetIac).push telnetSb = t at *
  have hgate' : t.modeGate = false := by
    rw [honly.eq]
    exact hgate
  obtain ⟨t', hrun, honly', ht'⟩ := run_collect (doubled content) hgate' hcommand (by omega)
    (by
      rw [hcommand]
      exact List.isChain_cons_cons.mpr ⟨by simp [Goes, telnetSb, telnetSe], hgoes⟩)
  rw [hcommand] at ht'
  have hgate'' : t'.modeGate = false := by
    rw [honly'.eq]
    exact hgate'
  have hlen' : t'.cmdlen + 2 ≤ telnetCmdSize := by
    have hle := length_kept_le t.collapses t.lastRxch (doubled content)
    have hlen := congrArg List.length ht'
    rw [length_command, List.length_append] at hlen
    simp only [List.length_cons, List.length_nil] at hlen
    omega
  refine ⟨(t'.push telnetIac).push telnetSe, ?_, ?_, ?_, ?_⟩
  · rw [encodeSub, Transducer.run_cons, step_iac hgate hcmdlen, Transducer.run_cons, hsb,
      Transducer.run_append, hrun, run_end hgate'' ht' hlen']
    rfl
  · exact (honly.trans honly').trans ((onlyCommand_push _ _).trans (onlyCommand_push _ _))
  · intro hs
    have ht : (t'.push telnetIac).collapses = true :=
      honly'.collapses.trans (honly.collapses.trans hs)
    exact if_pos ht
  · rw [push_command, push_command, ht']
    simp

/-! ## What is left of a sub-negotiation -/

theorem doubled_cons (b : UInt8) (bs : List UInt8) :
    doubled (b :: bs) = (if b = telnetIac then [telnetIac, telnetIac] else [b]) ++ doubled bs := rfl

theorem isChain_doubled {R : UInt8 → UInt8 → Prop} (hiac : R telnetIac telnetIac) {a : UInt8}
    {content : List UInt8} (h : (a :: content).IsChain R) : (a :: doubled content).IsChain R := by
  induction content generalizing a with
  | nil => exact h
  | cons b content ih =>
      obtain ⟨hab, hcontent⟩ := List.isChain_cons_cons.mp h
      have hrest := ih hcontent
      rw [doubled_cons]
      split
      case isTrue hb =>
        rw [hb] at hab hrest
        exact List.isChain_cons_cons.mpr ⟨hab, List.isChain_cons_cons.mpr ⟨hiac, hrest⟩⟩
      case isFalse => exact List.isChain_cons_cons.mpr ⟨hab, hrest⟩

/-- Leaving out a byte behind a CR does not bring 255 and 240 together. -/
theorem isChain_kept {text : Bool} {prev last : UInt8} {bs : List UInt8}
    (hprev : last = prev ∨ prev ≠ telnetIac) (h : (prev :: bs).IsChain Goes) :
    (prev :: kept text last bs).IsChain Goes := by
  induction bs generalizing prev last with
  | nil => exact h
  | cons b bs ih =>
      obtain ⟨hb, hbs⟩ := List.isChain_cons_cons.mp h
      rw [kept]
      split
      case isTrue hdrop =>
        have hne : prev ≠ telnetIac := by
          obtain rfl | hne := hprev
          · rw [hdrop.2.1]
            decide
          · exact hne
        apply ih (.inr hne)
        cases bs with
        | nil => exact List.isChain_singleton prev
        | cons c bs => exact List.isChain_cons_cons.mpr ⟨goes_of_ne hne, hbs.tail⟩
      case isFalse => exact List.isChain_cons_cons.mpr ⟨hb, ih (.inl rfl) hbs⟩

/-- Nothing is left out without a LF or NUL behind a CR. -/
theorem kept_eq {text : Bool} {last : UInt8} {bs : List UInt8}
    (h : text = true → (last :: bs).IsChain fun a b ↦ ¬ (a = 13 ∧ (b = 10 ∨ b = 0))) :
    kept text last bs = bs := by
  induction bs generalizing last with
  | nil => rfl
  | cons b bs ih =>
      rw [kept, if_neg, ih fun htext ↦ (List.isChain_cons_cons.mp (h htext)).2]
      exact fun hb ↦ (List.isChain_cons_cons.mp (h hb.1)).1 hb.2

/-- The first byte of a sub-negotiation is not left out. -/
theorem kept_sb {text : Bool} {bs : List UInt8} :
    (kept text telnetSb bs).head? = bs.head? := by
  cases bs with
  | nil => rfl
  | cons b bs =>
      rw [kept, if_neg fun h ↦ absurd h.2.1 (by decide)]
      rfl

theorem head?_doubled (content : List UInt8) : (doubled content).head? = content.head? := by
  cases content with
  | nil => rfl
  | cons b bs =>
      rw [doubled_cons]
      split
      case isTrue hb => rw [hb, List.head?_append]; rfl
      case isFalse => rfl

/-! ## What the commands change -/

theorem sendTelnetCmd_eq (cmd opt : UInt8) :
    ∃ sent, s.sendTelnetCmd cmd opt = { s with sent } := by
  rw [sendTelnetCmd]
  split_ifs <;> exact ⟨_, rfl⟩

theorem remoteNegotiation_eq (command option : UInt8) :
    ∃ remoteOption ackEvent sent,
      s.remoteNegotiation command option = { s with remoteOption, ackEvent, sent } ∧
      remoteOption telnetBinaryTx =
        if option = telnetBinaryTx then command else s.remoteOption telnetBinaryTx := by
  rw [remoteNegotiation]
  by_cases hset : s.remoteOption option = command
  · refine ⟨s.remoteOption, true, s.sent, if_pos hset, ?_⟩
    split
    case isTrue hbinary => rw [← hbinary, hset]
    case isFalse => rfl
  · rw [if_neg hset]
    by_cases hknown : knownOption option = true
    · obtain ⟨sent, hsend⟩ := sendTelnetCmd_eq (telnetOptAck command) option
        (s := { s with remoteOption := Function.update s.remoteOption option command })
      rw [if_pos hknown, hsend]
      refine ⟨Function.update s.remoteOption option command, s.ackEvent, sent, rfl, ?_⟩
      rw [Function.update_apply]
      simp only [eq_comm]
    · have hbinary : option ≠ telnetBinaryTx := by
        rintro rfl
        exact hknown rfl
      obtain ⟨sent, hsend⟩ := sendTelnetCmd_eq (s := s) (telnetOptNak command) option
      rw [if_neg hknown, if_neg hbinary, hsend]
      split
      · exact ⟨s.remoteOption, s.ackEvent, sent, rfl, rfl⟩
      · exact ⟨s.remoteOption, s.ackEvent, s.sent, rfl, rfl⟩

theorem requestValue_eq (command option : UInt8) :
    ∃ sent, s.requestValue command option = { s with sent } := by
  rw [requestValue]
  split
  · exact ⟨_, rfl⟩
  · exact ⟨s.sent, rfl⟩

/-- WILL, WONT, DO or DONT. -/
theorem negotiation_cases {command : UInt8}
    (h : telnetWill ≤ command ∧ command ≤ telnetDont) :
    (command = telnetWill ∨ command = telnetWont) ∨ command = telnetDo ∨ command = telnetDont := by
  revert h
  exact Words.forall_uint8 (p := fun c ↦ telnetWill ≤ c ∧ c ≤ telnetDont →
    (c = telnetWill ∨ c = telnetWont) ∨ c = telnetDo ∨ c = telnetDont) (by decide +kernel) command

/-- A negotiation sets binary mode if it is about it. -/
theorem negotiation_eq {command : UInt8} (option : UInt8)
    (hcommand : telnetWill ≤ command ∧ command ≤ telnetDont) :
    ∃ localOption remoteOption ackEvent sent, s.negotiation command option =
        { s with localOption, remoteOption, ackEvent, sent } ∧
      remoteOption telnetBinaryTx =
        if option = telnetBinaryTx ∧ (command = telnetWill ∨ command = telnetWont) then command
        else s.remoteOption telnetBinaryTx := by
  rw [negotiation]
  obtain hremote | hlocal := negotiation_cases hcommand
  · have hne : ¬ (command = telnetDo ∨ command = telnetDont) := by
      obtain rfl | rfl := hremote <;> decide
    obtain ⟨remoteOption, ackEvent, sent, heq, hbinary⟩ :=
      remoteNegotiation_eq (s := s) command option
    obtain ⟨sent', heq'⟩ := requestValue_eq (s := s.remoteNegotiation command option) command option
    rw [if_neg hne, heq', heq]
    refine ⟨s.localOption, remoteOption, ackEvent, sent', rfl, ?_⟩
    simp only [hbinary, hremote, and_true]
  · have hne : ¬ (command = telnetWill ∨ command = telnetWont) := by
      obtain rfl | rfl := hlocal <;> decide
    simp only [hlocal, hne, and_false, if_true, if_false]
    split
    · exact ⟨s.localOption, s.remoteOption, true, s.sent, rfl, rfl⟩
    · obtain ⟨sent, hsend⟩ := sendTelnetCmd_eq (telnetOptAck command) option
        (s := { s with localOption := Function.update s.localOption option command })
      rw [hsend]
      exact ⟨_, s.remoteOption, s.ackEvent, sent, rfl, rfl⟩

/-- A sub-negotiation stores a window size if it is one. -/
theorem subOption_eq : ∃ location terminal speed, s.subOption = { s with
    location, terminal, speed
    cols := if s.cmd 2 = telnetNegotiateWindowSize then s.cmdWord 3 else s.cols
    rows := if s.cmd 2 = telnetNegotiateWindowSize then s.cmdWord 5 else s.rows } := by
  by_cases hsize : s.cmd 2 = telnetNegotiateWindowSize
  · refine ⟨s.location, s.terminal, s.speed, ?_⟩
    simp [subOption, hsize, telnetNegotiateWindowSize, telnetTermType, telnetTermSpeed,
      telnetSendLocation, telnetTermLocationNumber]
  · rw [subOption]
    simp only [hsize, if_false]
    split_ifs <;> exact ⟨_, _, _, rfl⟩

/-! ## The bytes of one item -/

theorem push_push_lastRxch (a : UInt8) : ((s.push a).push b).lastRxch =
    if s.collapses then b else s.lastRxch := by
  rw [push_lastRxch, push_lastRxch, push_collapses]
  split <;> rfl

theorem run_command (hgate : s.modeGate = false) (hcmdlen : s.cmdlen = 0) (hb : b < telnetSb) :
    Transducer.run step s [telnetIac, b] =
      ({ (s.push telnetIac).push b with cmdlen := 0 }, []) := by
  have hne : b ≠ telnetIac := UInt8.ne_of_lt (UInt8.lt_trans hb (by decide))
  rw [Transducer.run_cons, step_iac hgate hcmdlen, Transducer.run_singleton,
    step_second hgate hcmdlen hne,
    interpretCmd_two (congrArg (· + 2) hcmdlen) (push_push_cmd hcmdlen) hb]
  rfl

theorem run_negotiation {command : UInt8} (option : UInt8) (hgate : s.modeGate = false)
    (hcmdlen : s.cmdlen = 0) (hcommand : telnetWill ≤ command ∧ command ≤ telnetDont) :
    ∃ u, Transducer.run step s [telnetIac, command, option] =
        ({ u.negotiation command option with cmdlen := 0 }, []) ∧ OnlyCommand s u ∧
      u.lastRxch = if s.collapses then option else s.lastRxch := by
  have hcases := negotiation_cases hcommand
  have hne : command ≠ telnetIac ∧ command ≠ telnetSe ∧ command ≠ telnetSb ∧ command ≠ 13 := by
    obtain (rfl | rfl) | rfl | rfl := hcases <;> decide
  have hsb : telnetSb ≤ command := UInt8.le_trans (by decide) hcommand.1
  have hlen : ((s.push telnetIac).push command).cmdlen = 2 := congrArg (· + 2) hcmdlen
  have hsecond : step (s.push telnetIac) command = ((s.push telnetIac).push command, []) := by
    rw [step_second hgate hcmdlen hne.1, interpretCmd_open hlen (push_push_cmd hcmdlen) hsb]
  have hthird := push_command (s := (s.push telnetIac).push command) (b := option)
  rw [push_push_command hcmdlen] at hthird
  have honly : OnlyCommand s (((s.push telnetIac).push command).push option) :=
    ((onlyCommand_push s _).trans (onlyCommand_push _ _)).trans (onlyCommand_push _ _)
  have hgate' : ((s.push telnetIac).push command).modeGate = false := by
    rw [push_modeGate, push_modeGate, hgate]
  refine ⟨((s.push telnetIac).push command).push option, ?_, honly, ?_⟩
  · rw [Transducer.run_cons, step_iac hgate hcmdlen, Transducer.run_cons, hsecond,
      Transducer.run_singleton, step_push hgate' (push_lastRxch_ne hne.2.2.2 _)
      (.inr (by omega)) (by omega) (by rw [hlen]; decide)]
    have hlen' : (((s.push telnetIac).push command).push option).cmdlen = 3 :=
      congrArg (· + 1) hlen
    have hgate'' : (((s.push telnetIac).push command).push option).modeGate = false := by
      rw [push_modeGate, hgate']
    generalize ((s.push telnetIac).push command).push option = u at *
    have hcmd1 : u.cmd 1 = command := by
      have h := command_getElem? (s := u) (i := 1) (by omega)
      rw [hthird] at h
      exact (Option.some.inj h).symm
    have hcmd2 : u.cmd 2 = option := by
      have h := command_getElem? (s := u) (i := 2) (by omega)
      rw [hthird] at h
      exact (Option.some.inj h).symm
    simp [interpretCmd, hlen', hcmd1, hcmd2, hne.2.1, hne.2.2.1, hgate'']
  · rw [push_lastRxch, push_collapses, push_collapses, push_push_lastRxch]
    split <;> rfl

/-! ## The state after each item -/

/-- The state is what the items so far say. -/
structure Agrees (s : Telnet) (m : TelnetMeaning) : Prop where
  gate : s.modeGate = false
  cmdlen : s.cmdlen = 0
  raw : s.rawIn = m.raw
  binary : s.remoteOption telnetBinaryTx = telnetWill ↔ m.binary = true
  lastCr : s.lastRxch = 13 ↔ m.lastCr = true
  afterCr : m.text = true → m.afterCr = true → m.lastCr = true
  cols : s.cols = m.cols
  rows : s.rows = m.rows

variable {m : TelnetMeaning}

theorem agrees_meaning (hgate : s.modeGate = false) (hcmdlen : s.cmdlen = 0) :
    Agrees s s.meaning where
  gate := hgate
  cmdlen := hcmdlen
  raw := rfl
  binary := by simp [meaning]
  lastCr := by simp [meaning]
  afterCr := fun _ h ↦ h
  cols := rfl
  rows := rfl

theorem Agrees.collapses (h : Agrees s m) : s.collapses = m.text := by
  rw [Telnet.collapses, h.gate, h.raw, TelnetMeaning.text, Bool.and_comm (!m.raw)]
  congr 1
  rw [Bool.eq_iff_iff]
  simp [h.binary]

theorem Agrees.lastCrAfter (h : Agrees s m) (item : TelnetItem) {x y : UInt8}
    (hx : item.encode.getLast? = some x) (hy : y = if s.collapses then x else s.lastRxch) :
    y = 13 ↔ m.lastCrAfter item = true := by
  rw [hy, h.collapses, TelnetMeaning.lastCrAfter, hx]
  by_cases htext : m.text = true
  · simp [htext]
  · simp [htext, h.lastCr]

theorem Agrees.data (h : Agrees s m) (hb : b ≠ telnetIac) (hclear : m.Clear (.data b)) :
    Agrees (step s b).1 (m.receive (.data b)).1 ∧ (step s b).2 = (m.receive (.data b)).2 := by
  have hagrees : ∀ t, t = s.receive b → Agrees t (m.receive (.data b)).1 := by
    rintro t rfl
    have hlast := h.lastCrAfter (.data b) (x := b) (y := (s.receive b).lastRxch) rfl rfl
    refine ⟨h.gate, h.cmdlen, h.raw, h.binary, hlast, fun htext hcr ↦ ?_, h.cols, h.rows⟩
    have htext : m.text = true := htext
    have hcr : decide (b = 13) = true := hcr
    simpa [TelnetMeaning.receive, TelnetMeaning.lastCrAfter, htext, TelnetItem.encode] using hcr
  by_cases hdrop : s.collapses = true ∧ s.lastRxch = 13 ∧ (b = 10 ∨ b = 0)
  · have htext : m.text = true := h.collapses ▸ hdrop.1
    have hafter := hclear htext hdrop.2.2 (h.lastCr.mp hdrop.2.1)
    rw [step_of_ignored hdrop]
    exact ⟨hagrees _ rfl, (if_pos ⟨htext, hafter, hdrop.2.2⟩).symm⟩
  · rw [step_of_not_ignored hdrop, interpretByte_data (s := s.receive b) h.cmdlen hb]
    refine ⟨hagrees _ rfl, (if_neg ?_).symm⟩
    rintro ⟨htext, hafter, hb⟩
    exact hdrop ⟨h.collapses.trans htext, h.lastCr.mpr (h.afterCr htext hafter), hb⟩

theorem Agrees.escapedIac (h : Agrees s m) :
    Agrees (Transducer.run step s [telnetIac, telnetIac]).1 (m.receive .escapedIac).1 ∧
      (Transducer.run step s [telnetIac, telnetIac]).2 = (m.receive .escapedIac).2 := by
  rw [Transducer.run_cons, step_iac h.gate h.cmdlen, Transducer.run_singleton,
    step_escaped h.cmdlen]
  have hlast := h.lastCrAfter .escapedIac rfl (push_push_lastRxch telnetIac)
  refine ⟨⟨h.gate, rfl, h.raw, h.binary, hlast, fun _ hcr ↦ ?_, h.cols, h.rows⟩, rfl⟩
  exact absurd hcr Bool.false_ne_true

theorem Agrees.command {c : UInt8} (h : Agrees s m) (hc : c < telnetSb) :
    Agrees (Transducer.run step s [telnetIac, c]).1 (m.receive (.command c)).1 ∧
      (Transducer.run step s [telnetIac, c]).2 = (m.receive (.command c)).2 := by
  rw [run_command h.gate h.cmdlen hc]
  have hlast := h.lastCrAfter (.command c) rfl (push_push_lastRxch telnetIac)
  refine ⟨⟨h.gate, rfl, h.raw, h.binary, hlast, fun _ hcr ↦ ?_, h.cols, h.rows⟩, rfl⟩
  exact absurd hcr Bool.false_ne_true

theorem receive_negotiation (c option : UInt8) : m.receive (.negotiation c option) =
    ({ m with
      afterCr := false
      lastCr := m.lastCrAfter (.negotiation c option)
      binary := if option = telnetBinaryTx ∧ (c = telnetWill ∨ c = telnetWont) then
        c = telnetWill else m.binary }, []) := by
  rw [TelnetMeaning.receive]
  split_ifs <;> rfl

theorem Agrees.negotiation {c option : UInt8} (h : Agrees s m)
    (hc : telnetWill ≤ c ∧ c ≤ telnetDont) :
    Agrees (Transducer.run step s [telnetIac, c, option]).1
        (m.receive (.negotiation c option)).1 ∧
      (Transducer.run step s [telnetIac, c, option]).2 =
        (m.receive (.negotiation c option)).2 := by
  obtain ⟨u, hrun, honly, hlast⟩ := run_negotiation option h.gate h.cmdlen hc
  obtain ⟨localOption, remoteOption, ackEvent, sent, heq, hbinary⟩ :=
    negotiation_eq (s := u) option hc
  rw [hrun, heq, receive_negotiation]
  have hlast' := h.lastCrAfter (.negotiation c option) rfl hlast
  have hgate : u.modeGate = s.modeGate := by rw [honly.eq]
  have hraw : u.rawIn = s.rawIn := by rw [honly.eq]
  have hoption : u.remoteOption = s.remoteOption := by rw [honly.eq]
  have hcols : u.cols = s.cols := by rw [honly.eq]
  have hrows : u.rows = s.rows := by rw [honly.eq]
  rw [hoption] at hbinary
  refine ⟨?_, rfl⟩
  constructor
  case gate => exact hgate.trans h.gate
  case cmdlen => rfl
  case raw => exact hraw.trans h.raw
  case binary =>
    dsimp only
    rw [hbinary]
    split
    · exact decide_eq_true_iff.symm
    · exact h.binary
  case lastCr => exact hlast'
  case afterCr => exact fun _ hcr ↦ absurd hcr Bool.false_ne_true
  case cols => exact hcols.trans h.cols
  case rows => exact hrows.trans h.rows

/-- A sub-negotiation that is taken to its end. -/
theorem Agrees.sub {content : List UInt8} (item : TelnetItem) (h : Agrees s m)
    (hitem : item.encode = encodeSub content) (hsize : (encodeSub content).length ≤ telnetCmdSize)
    (hgoes : (telnetSb :: doubled content).IsChain Goes) :
    ∃ t u : Telnet, Transducer.run step s (encodeSub content) = (t, []) ∧
      u.command = telnetIac :: telnetSb ::
        (kept m.text telnetSb (doubled content) ++ [telnetIac, telnetSe]) ∧
      Agrees t { m with
        afterCr := false
        lastCr := m.lastCrAfter item
        cols := if u.cmd 2 = telnetNegotiateWindowSize then u.cmdWord 3 else m.cols
        rows := if u.cmd 2 = telnetNegotiateWindowSize then u.cmdWord 5 else m.rows } := by
  obtain ⟨u, hrun, honly, hlast, hu⟩ := run_encodeSub h.gate h.cmdlen hsize
    (isChain_kept (.inl rfl) hgoes)
  rw [h.collapses] at hu
  refine ⟨_, u, hrun, hu, ?_⟩
  have hend : item.encode.getLast? = some telnetSe := by
    rw [hitem, encodeSub, List.getLast?_cons_cons, ← List.cons_append]
    exact List.getLast?_append_of_ne_nil _ (by simp)
  have hy : u.lastRxch = if s.collapses then telnetSe else s.lastRxch := by
    by_cases hs : s.collapses = true
    · rw [if_pos hs, hlast hs]
    · rw [if_neg hs, honly.last (by simpa using hs)]
  have hlast' := h.lastCrAfter item hend hy
  obtain ⟨location, terminal, speed, hsub⟩ := subOption_eq (s := u)
  have hgate : u.modeGate = s.modeGate := by rw [honly.eq]
  have hraw : u.rawIn = s.rawIn := by rw [honly.eq]
  have hoption : u.remoteOption = s.remoteOption := by rw [honly.eq]
  have hcols : u.cols = s.cols := by rw [honly.eq]
  have hrows : u.rows = s.rows := by rw [honly.eq]
  rw [hsub]
  constructor
  case gate => exact hgate.trans h.gate
  case cmdlen => rfl
  case raw => exact hraw.trans h.raw
  case binary => exact hoption ▸ h.binary
  case lastCr => exact hlast'
  case afterCr => exact fun _ hcr ↦ absurd hcr Bool.false_ne_true
  case cols => rw [← h.cols, ← hcols]
  case rows => rw [← h.rows, ← hrows]

theorem Agrees.subnegotiation {content : List UInt8} (h : Agrees s m)
    (hvalid : TelnetItem.Valid (.subnegotiation content))
    (hclear : m.Clear (.subnegotiation content)) :
    Agrees (Transducer.run step s (encodeSub content)).1
        (m.receive (.subnegotiation content)).1 ∧
      (Transducer.run step s (encodeSub content)).2 =
        (m.receive (.subnegotiation content)).2 := by
  obtain ⟨hoption, hsize⟩ := hvalid
  have hgoes : (telnetSb :: doubled content).IsChain Goes := by
    apply isChain_doubled (by simp [Goes, telnetIac, telnetSe])
    exact List.isChain_cons.mpr ⟨fun b _ ↦ goes_of_ne (by decide), hclear⟩
  obtain ⟨t, u, hrun, hu, hagrees⟩ := h.sub (.subnegotiation content) rfl hsize hgoes
  have hlen : 2 < u.cmdlen := by
    rw [← length_command, hu]
    simp
  have hne : u.cmd 2 ≠ telnetNegotiateWindowSize := by
    have hget := command_getElem? hlen
    rw [hu, List.getElem?_cons_succ, List.getElem?_cons_succ, ← List.head?_eq_getElem?,
      List.head?_append, kept_sb, head?_doubled] at hget
    intro heq
    rw [heq] at hget
    cases hcontent : content.head? with
    | none =>
        rw [hcontent] at hget
        exact absurd (Option.some.inj hget) (by decide)
    | some b =>
        rw [hcontent] at hget hoption
        exact hoption hget
  rw [if_neg hne, if_neg hne] at hagrees
  rw [hrun]
  exact ⟨hagrees, rfl⟩

theorem word_eq {n : ℕ} (h : n < 65536) :
    (UInt8.ofNat (n / 256)).toNat <<< 8 ||| (UInt8.ofNat n).toNat = n := by
  have hhigh : (UInt8.ofNat (n / 256)).toNat = n / 256 := by
    rw [UInt8.toNat_ofNat']
    omega
  have hlow : (UInt8.ofNat n).toNat = n % 256 := UInt8.toNat_ofNat'
  rw [hhigh, hlow, ← Nat.shiftLeft_add_eq_or_of_lt (by omega), Nat.shiftLeft_eq]
  omega

theorem goes_of_imp {a b : UInt8} (h : a = telnetIac → b = telnetIac) : Goes a b := by
  rintro ⟨ha, hb⟩
  exact absurd (hb.symm.trans (h ha)) (by decide)

/-- When a size is stored as it was sent, each 255 in it is followed by 255 only. -/
theorem goes_of_take {a b c d : UInt8} (h : (doubled [a, b, c, d]).take 4 = [a, b, c, d]) :
    [a, b, c, d].IsChain Goes := by
  have hchain : (a = telnetIac → b = telnetIac) → (b = telnetIac → c = telnetIac) →
      (c = telnetIac → d = telnetIac) → [a, b, c, d].IsChain Goes := by
    intro hab hbc hcd
    simp [goes_of_imp hab, goes_of_imp hbc, goes_of_imp hcd]
  by_cases ha : a = telnetIac
  · simp only [doubled_cons, ha, if_true] at h
    obtain ⟨rfl, h⟩ : telnetIac = b ∧ _ := by simpa using h
    obtain ⟨hc, hd⟩ : telnetIac = c ∧ telnetIac = d := by simpa using h
    exact hchain (fun _ ↦ rfl) (fun _ ↦ hc.symm) fun _ ↦ hd.symm
  · by_cases hb : b = telnetIac
    · simp only [doubled_cons, ha, hb, if_true, if_false] at h
      obtain ⟨rfl, h⟩ : telnetIac = c ∧ _ := by simpa using h
      have hd : telnetIac = d := by simpa using h
      exact hchain (fun h ↦ absurd h ha) (fun _ ↦ rfl) fun _ ↦ hd.symm
    · by_cases hc : c = telnetIac
      · simp only [doubled_cons, ha, hb, hc, if_true, if_false] at h
        have hd : telnetIac = d := by simpa using h
        exact hchain (fun h ↦ absurd h ha) (fun h ↦ absurd h hb) fun _ ↦ hd.symm
      · exact hchain (fun h ↦ absurd h ha) (fun h ↦ absurd h hb) fun h ↦ absurd h hc

theorem Agrees.windowSize {cols rows : ℕ} (h : Agrees s m)
    (hvalid : TelnetItem.Valid (.windowSize cols rows)) (hclear : m.Clear (.windowSize cols rows)) :
    Agrees (Transducer.run step s (TelnetItem.windowSize cols rows).encode).1
        (m.receive (.windowSize cols rows)).1 ∧
      (Transducer.run step s (TelnetItem.windowSize cols rows).encode).2 =
        (m.receive (.windowSize cols rows)).2 := by
  obtain ⟨hstored, hcr⟩ := hclear
  have hsize : (encodeSub (telnetNegotiateWindowSize :: sizeBytes cols rows)).length ≤
      telnetCmdSize := by
    have hle : ∀ l : List UInt8, (doubled l).length ≤ 2 * l.length := by
      intro l
      induction l with
      | nil => exact Nat.le_refl 0
      | cons b l ih =>
          rw [doubled_cons, List.length_append, List.length_cons]
          split <;> simp only [List.length_cons, List.length_nil] <;> omega
    have h := hle (telnetNegotiateWindowSize :: sizeBytes cols rows)
    simp only [encodeSub, List.length_cons, List.length_append, sizeBytes, List.length_nil,
      telnetCmdSize] at h ⊢
    omega
  have hgoes : (telnetSb :: doubled (telnetNegotiateWindowSize :: sizeBytes cols rows)).IsChain
      Goes := by
    apply isChain_doubled (by simp [Goes, telnetIac, telnetSe])
    refine List.isChain_cons_cons.mpr ⟨goes_of_ne (by decide), ?_⟩
    exact List.isChain_cons.mpr ⟨fun b _ ↦ goes_of_ne (by decide), goes_of_take hstored⟩
  obtain ⟨t, u, hrun, hu, hagrees⟩ := h.sub (.windowSize cols rows) rfl hsize hgoes
  -- Nothing is left out, and the doubled bytes come after the size.
  have hkept : kept m.text telnetSb (doubled (telnetNegotiateWindowSize :: sizeBytes cols rows)) =
      doubled (telnetNegotiateWindowSize :: sizeBytes cols rows) := by
    apply kept_eq
    intro htext
    apply isChain_doubled (by simp [telnetIac])
    refine List.isChain_cons_cons.mpr ⟨by simp [telnetSb], ?_⟩
    exact List.isChain_cons.mpr ⟨fun b _ ↦ by simp [telnetNegotiateWindowSize], hcr htext⟩
  have hbytes := List.take_append_drop 4 (doubled (sizeBytes cols rows))
  rw [hkept, doubled_cons, if_neg (by decide), ← hbytes, hstored] at hu
  obtain ⟨rest, hrest⟩ : ∃ rest, u.command =
      (telnetIac :: telnetSb :: telnetNegotiateWindowSize :: sizeBytes cols rows) ++ rest :=
    ⟨_, hu.trans (by simp only [List.append_assoc, List.cons_append, List.nil_append]; rfl)⟩
  have hcmd : ∀ i < 7, some (u.cmd i) =
      (telnetIac :: telnetSb :: telnetNegotiateWindowSize :: sizeBytes cols rows)[i]? := by
    intro i hi
    have hlen : 7 ≤ u.cmdlen := by
      rw [← length_command, hrest]
      simp [sizeBytes]
    rw [← command_getElem? (by omega), hrest, List.getElem?_append_left (by simpa [sizeBytes])]
  have h2 : u.cmd 2 = telnetNegotiateWindowSize := Option.some.inj (hcmd 2 (by decide))
  have h3 : u.cmd 3 = UInt8.ofNat (cols / 256) := Option.some.inj (hcmd 3 (by decide))
  have h4 : u.cmd 4 = UInt8.ofNat cols := Option.some.inj (hcmd 4 (by decide))
  have h5 : u.cmd 5 = UInt8.ofNat (rows / 256) := Option.some.inj (hcmd 5 (by decide))
  have h6 : u.cmd 6 = UInt8.ofNat rows := Option.some.inj (hcmd 6 (by decide))
  rw [if_pos h2, if_pos h2, cmdWord, cmdWord, h3, h4, h5, h6, word_eq hvalid.1,
    word_eq hvalid.2] at hagrees
  rw [TelnetItem.encode, hrun]
  exact ⟨hagrees, rfl⟩

/-- The bytes of an item that is clear are taken for what they are. -/
theorem Agrees.item {item : TelnetItem} (h : Agrees s m) (hvalid : item.Valid)
    (hclear : m.Clear item) :
    Agrees (Transducer.run step s item.encode).1 (m.receive item).1 ∧
      (Transducer.run step s item.encode).2 = (m.receive item).2 := by
  cases item with
  | data b =>
      rw [TelnetItem.encode, Transducer.run_singleton]
      exact h.data hvalid hclear
  | escapedIac => exact h.escapedIac
  | command c => exact h.command hvalid
  | negotiation c option => exact h.negotiation hvalid
  | windowSize cols rows => exact h.windowSize hvalid hclear
  | subnegotiation content => exact h.subnegotiation hvalid hclear

/-- Whatever the chunks are, the output is the data of the items, and the window size is the
last one that was sent, if no byte of a command is taken for a CR, LF or NUL, no 255 in a
sub-negotiation is followed by 240 and a doubled 255 does not shift a window size. -/
theorem interpret_items (items : List TelnetItem) (chunks : List (List UInt8))
    (hgate : s.modeGate = false) (hcmdlen : s.cmdlen = 0) (hvalid : ∀ item ∈ items, item.Valid)
    (hclear : Transducer.Along TelnetMeaning.receive TelnetMeaning.Clear s.meaning items)
    (hchunks : chunks.flatten = items.flatMap TelnetItem.encode) :
    (Transducer.run interpret s chunks).2 =
        (Transducer.run TelnetMeaning.receive s.meaning items).2 ∧
      (Transducer.run interpret s chunks).1.cols =
        (Transducer.run TelnetMeaning.receive s.meaning items).1.cols ∧
      (Transducer.run interpret s chunks).1.rows =
        (Transducer.run TelnetMeaning.receive s.meaning items).1.rows ∧
      (Transducer.run interpret s chunks).1.cmdlen = 0 := by
  obtain ⟨hsame, hout⟩ := run_interpret (s := s) chunks
  have hitem : ∀ (s : Telnet) (m : TelnetMeaning) (item : TelnetItem), Agrees s m →
      item.Valid ∧ m.Clear item →
        Agrees (Transducer.run step s item.encode).1 (m.receive item).1 ∧
          (Transducer.run step s item.encode).2 = (m.receive item).2 :=
    fun _ _ _ h hclear ↦ h.item hclear.1 hclear.2
  obtain ⟨hagrees, hmeaning⟩ := Transducer.run_flatMap
    (fun s m item h hclear ↦ (hitem s m item h hclear).1)
    (fun s m item h hclear ↦ (hitem s m item h hclear).2)
    (agrees_meaning hgate hcmdlen) (hclear.and hvalid)
  rw [← hchunks] at hagrees hmeaning
  rw [hsame.1] at hagrees
  exact ⟨hout.trans hmeaning, hagrees.cols, hagrees.rows, hagrees.cmdlen⟩

/-- A window size in three chunks, and a line end. -/
theorem interpret_items_size :
    (Transducer.run interpret {} [[255, 250, 31, 0], [80, 0, 24, 255, 240, 13], [10]]).2 = [13] ∧
      (Transducer.run interpret {} [[255, 250, 31, 0], [80, 0, 24, 255, 240, 13], [10]]).1.cols =
        80 := by
  have h := interpret_items (s := {}) [.windowSize 80 24, .data 13, .data 10]
    [[255, 250, 31, 0], [80, 0, 24, 255, 240, 13], [10]] rfl rfl
    (by simp [TelnetItem.Valid, telnetIac])
    ⟨⟨rfl, fun _ ↦ by simp [sizeBytes]⟩, fun _ h ↦ absurd h (by decide),
      fun _ _ _ ↦ rfl, trivial⟩ rfl
  exact ⟨h.1, h.2.1⟩

/-- A window of 255 columns and 24 rows, with 255 doubled as it has to be. -/
theorem interpret_doubled : ∃ (items : List TelnetItem) (chunks : List (List UInt8)),
    (∀ item ∈ items, item.Valid) ∧ chunks.flatten = items.flatMap TelnetItem.encode ∧
      (Transducer.run TelnetMeaning.receive (meaning {}) items).1.rows = 24 ∧
      (Transducer.run interpret {} chunks).1.rows = 65280 :=
  ⟨[.windowSize 255 24], [[255, 250, 31, 0, 255, 255, 0, 24, 255, 240]],
    by simp [TelnetItem.Valid], by decide, rfl, by decide +kernel⟩

end Telnet

end Synchronet.Sbbs3
