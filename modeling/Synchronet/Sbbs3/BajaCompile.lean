import Synchronet.Lib.Structured
import Synchronet.Sbbs3.BajaSkip

/-!
# Compiled structured programs

`compile` lays a structured program out as the source compiler does, and `skipto` finds the end of
each block across the blocks inside it.
-/

namespace Synchronet.Sbbs3.Baja

open LittleEndian Structured

/-! ## The image of a program -/

/-- An instruction without a part in the flow of control. -/
abbrev Instr : Type := { instr : List UInt8 // instrRest instr = some [] }

abbrev Condition : Type := { op : UInt8 // isIf op = true }

/-- A structured program; the selections read variables and have numbers for labels. -/
abbrev Program : Type := Prog Instr Condition UInt32 Int32

def compile : Program → List UInt8
  | .done => []
  | .instr i rest => i.val ++ compile rest
  | .ite op thn rest => op.val :: (compile thn ++ CS_ENDIF :: compile rest)
  | .iteElse op thn els rest =>
      op.val :: (compile thn ++ CS_ELSE :: (compile els ++ CS_ENDIF :: compile rest))
  | .loop body rest =>
      CS_ONE_MORE_BYTE :: CS_LOOP_BEGIN ::
        (compile body ++ CS_ONE_MORE_BYTE :: CS_END_LOOP :: compile rest)
  | .brk rest => CS_ONE_MORE_BYTE :: CS_BREAK_LOOP :: compile rest
  | .cont rest => CS_ONE_MORE_BYTE :: CS_CONTINUE_LOOP :: compile rest
  | .switch name body rest =>
      CS_SWITCH :: (le 4 name.toNat ++ (compile body ++ CS_END_SWITCH :: compile rest))
  | .case k rest => CS_CASE :: (le 4 k.toUInt32.toNat ++ compile rest)
  | .default rest => CS_DEFAULT :: compile rest
  | .endCase rest => CS_END_CASE :: compile rest

/-- `CS_GETKEYE` has the number of `CS_END_LOOP`, for which `skipto` looks in a loop. -/
def NoGetkeye (inLoop : Bool) (i : Instr) : Prop :=
  inLoop = true → i.val.head? ≠ some CS_GETKEYE

/-! ## Passing over programs -/

/-- `skipto` passes over this part of an image. -/
def Passes (inLoop : Bool) (head : List UInt8) : Prop :=
  ∀ inst ∈ targets, (inst = CS_END_LOOP → inLoop = true) → ∀ code rest,
    Skips inst code rest → Skips inst (head ++ code) rest

/-- It passes over the body of a selection, or over a part of it up to the next label. -/
def PassesCases (inLoop : Bool) (p : Program) : Prop :=
  ∀ code,
    Skips CS_NEXTCASE (compile p ++ CS_END_SWITCH :: code)
      (compile p.next ++ CS_END_SWITCH :: code) ∧
    ∀ inst ∈ ([CS_END_SWITCH, CS_END_LOOP] : List UInt8),
      (inst = CS_END_LOOP → inLoop = true) → ∀ rest, Skips inst (CS_END_SWITCH :: code) rest →
        Skips inst (compile p ++ CS_END_SWITCH :: code) rest ∧
        Skips inst (compile p.next ++ CS_END_SWITCH :: code) rest

variable {inLoop : Bool}

theorem Passes.nil : Passes inLoop [] := fun _ _ _ _ _ h ↦ h

theorem Passes.append {a b : List UInt8} (ha : Passes inLoop a) (hb : Passes inLoop b) :
    Passes inLoop (a ++ b) := by
  intro inst hinst hloop code rest h
  rw [List.append_assoc]
  exact ha inst hinst hloop _ _ (hb inst hinst hloop _ _ h)

theorem Passes.instr {i : Instr} (hi : NoGetkeye inLoop i) : Passes inLoop i.val :=
  fun _ hinst hloop _ _ h ↦ Skips.instr i.property hinst (fun he ↦ hi (hloop he)) h

/-- The ends of conditionals and cases are not ends of what is looked for. -/
theorem Skips.passMark {inst op : UInt8} {code rest : List UInt8}
    (hop : op ∈ ([CS_ELSE, CS_ENDIF, CS_DEFAULT, CS_END_CASE] : List UInt8))
    (hinst : inst ∈ ([CS_END_SWITCH, CS_END_LOOP] : List UInt8)) (h : Skips inst code rest) :
    Skips inst (op :: code) rest := by
  have hall : ∀ op ∈ ([CS_ELSE, CS_ENDIF, CS_DEFAULT, CS_END_CASE] : List UInt8),
      op ∈ marks ∧ ∀ inst ∈ ([CS_END_SWITCH, CS_END_LOOP] : List UInt8),
        stops inst op = false := by decide
  exact Skips.mark (hall op hop).1 ((hall op hop).2 inst hinst) h

theorem stops_isIf (op : UInt8) : isIf op = true → ∀ inst ∈ targets, stops inst op = false := by
  revert op
  exact Words.forall_uint8 (by decide +kernel)

/-- From the first branch to the end of the conditional. -/
theorem Passes.to_endif {a : List UInt8} (ha : Passes inLoop a) (code : List UInt8) :
    Skips CS_ENDIF (a ++ CS_ENDIF :: code) (CS_ENDIF :: code) :=
  ha _ (by decide) (fun h ↦ absurd h (by decide)) _ _ (Skips.stop _ (by decide))

theorem Passes.to_endLoop {a : List UInt8} (ha : Passes true a) (code : List UInt8) :
    Skips CS_END_LOOP (a ++ CS_ONE_MORE_BYTE :: CS_END_LOOP :: code)
      (CS_ONE_MORE_BYTE :: CS_END_LOOP :: code) :=
  ha _ (by decide) (fun _ ↦ rfl) _ _ (Skips.endLoop _)

theorem Passes.conditional {op : UInt8} {a : List UInt8} (hop : isIf op = true)
    (ha : Passes inLoop a) : Passes inLoop (op :: (a ++ [CS_ENDIF])) := by
  intro inst hinst _ code rest h
  have hin := ha.to_endif code
  refine Skips.conditional (d := CS_ENDIF :: code) hop (stops_isIf op hop inst hinst) ?_ (by simpa)
  simpa using hin

theorem Passes.conditionalElse {op : UInt8} {a b : List UInt8} (hop : isIf op = true)
    (ha : Passes inLoop a) (hb : Passes inLoop b) :
    Passes inLoop (op :: (a ++ CS_ELSE :: (b ++ [CS_ENDIF]))) := by
  intro inst hinst _ code rest h
  have helse : Skips CS_ENDIF (CS_ELSE :: (b ++ CS_ENDIF :: code)) (CS_ENDIF :: code) :=
    Skips.mark (by decide) (by decide) (hb.to_endif code)
  have hin := ha CS_ENDIF (by decide) (fun h ↦ absurd h (by decide)) _ _ helse
  refine Skips.conditional (d := CS_ENDIF :: code) hop (stops_isIf op hop inst hinst) ?_ (by simpa)
  simpa using hin

theorem stops_oneMoreByte {inst : UInt8} (hinst : inst ∈ targets) :
    stops inst CS_ONE_MORE_BYTE = false := by
  have hall : ∀ inst ∈ targets, stops inst CS_ONE_MORE_BYTE = false := by decide
  exact hall inst hinst

theorem Passes.loop {a : List UInt8} (ha : Passes true a) :
    Passes inLoop (CS_ONE_MORE_BYTE :: CS_LOOP_BEGIN :: (a ++ [CS_ONE_MORE_BYTE, CS_END_LOOP])) := by
  intro inst hinst _ code rest h
  have hin := ha.to_endLoop code
  refine Skips.loop (d := CS_ONE_MORE_BYTE :: CS_END_LOOP :: code) (stops_oneMoreByte hinst) ?_
    (by simpa)
  simpa using hin

/-- `brk` and `cont`. -/
theorem Passes.leave {sub : UInt8} (hsub : sub ∈ ([CS_BREAK_LOOP, CS_CONTINUE_LOOP] : List UInt8)) :
    Passes inLoop [CS_ONE_MORE_BYTE, sub] := by
  have hall : ∀ sub ∈ ([CS_BREAK_LOOP, CS_CONTINUE_LOOP] : List UInt8),
      sub ≠ CS_END_LOOP ∧ sub ≠ CS_LOOP_BEGIN := by decide
  intro inst hinst _ code rest h
  exact Skips.oneMoreByte (stops_oneMoreByte hinst) (fun _ ↦ (hall sub hsub).1) (hall sub hsub).2 h

theorem Passes.switch {name : List UInt8} {p : Program} (hname : name.length = 4)
    (hp : PassesCases inLoop p) :
    Passes inLoop (CS_SWITCH :: (name ++ (compile p ++ [CS_END_SWITCH]))) := by
  have hstops : ∀ inst ∈ targets, stops inst CS_SWITCH = false := by decide
  intro inst hinst _ code rest h
  have hin := ((hp code).2 CS_END_SWITCH (by decide) (fun h ↦ absurd h (by decide)) _
    (Skips.stop code (by decide))).1
  refine Skips.switch (d := CS_END_SWITCH :: code) (hstops inst hinst) ?_ (by simpa)
  simpa [List.drop_left' hname] using hin

theorem Passes.endCase : Passes inLoop [CS_END_CASE] := by
  have hstops : ∀ inst ∈ targets, stops inst CS_END_CASE = false := by decide
  intro inst hinst _ code rest h
  exact Skips.mark (by decide) (hstops inst hinst) h

/-- What begins with a part that is passed over and has no label. -/
theorem PassesCases.cons {head : List UInt8} {p rest : Program} (hhead : Passes inLoop head)
    (hp : compile p = head ++ compile rest) (hnext : p.next = rest.next)
    (hrest : PassesCases inLoop rest) : PassesCases inLoop p := by
  intro code
  obtain ⟨hskips, hall⟩ := hrest code
  rw [hp, hnext, List.append_assoc]
  refine ⟨hhead _ (by decide) (fun h ↦ absurd h (by decide)) _ _ hskips, ?_⟩
  intro inst hinst hloop code' h
  obtain ⟨hwhole, hpart⟩ := hall inst hinst hloop code' h
  have htargets : inst ∈ targets := by
    rcases List.mem_cons.mp hinst with rfl | hinst
    · decide
    · obtain rfl := List.mem_singleton.mp hinst
      decide
  exact ⟨hhead inst htargets hloop _ _ hwhole, hpart⟩

theorem PassesCases.done : PassesCases inLoop .done := by
  intro code
  exact ⟨Skips.stop _ (by decide), fun _ _ _ _ h ↦ ⟨h, h⟩⟩

theorem PassesCases.case {k : Int32} {rest : Program} (hrest : PassesCases inLoop rest) :
    PassesCases inLoop (.case k rest) := by
  intro code
  obtain ⟨hskips, hall⟩ := hrest code
  refine ⟨Skips.stop _ (by decide), ?_⟩
  intro inst hinst hloop code' h
  have hstops : ∀ inst ∈ ([CS_END_SWITCH, CS_END_LOOP] : List UInt8),
      stops inst CS_CASE = false := by decide
  have hcase : Skips inst (compile (.case k rest) ++ CS_END_SWITCH :: code) code' := by
    refine Skips.case (hstops inst hinst) ?_ (hall inst hinst hloop code' h).2
    change Skips _ ((le 4 k.toUInt32.toNat ++ compile rest ++ CS_END_SWITCH :: code).drop 4) _
    rw [List.append_assoc, List.drop_left' (length_le 4 _)]
    exact hskips
  exact ⟨hcase, hcase⟩

theorem PassesCases.default {rest : Program} (hrest : PassesCases inLoop rest) :
    PassesCases inLoop (.default rest) := by
  intro code
  obtain ⟨-, hall⟩ := hrest code
  refine ⟨Skips.stop _ (by decide), ?_⟩
  intro inst hinst hloop code' h
  have hdefault : Skips inst (compile (.default rest) ++ CS_END_SWITCH :: code) code' :=
    Skips.passMark (by decide) hinst (hall inst hinst hloop code' h).1
  exact ⟨hdefault, hdefault⟩

/-- A program with labels is passed over as the body of a selection. -/
def Passed (inLoop labels : Bool) (p : Program) : Prop :=
  (labels = false → Passes inLoop (compile p)) ∧ (labels = true → PassesCases inLoop p)

theorem Passed.cons {labels : Bool} {head : List UInt8} {p : Program} (rest : Program)
    (hhead : Passes inLoop head) (hp : compile p = head ++ compile rest)
    (hnext : p.next = rest.next) (hrest : Passed inLoop labels rest) : Passed inLoop labels p := by
  refine ⟨fun hno ↦ ?_, fun hyes ↦ PassesCases.cons hhead hp hnext (hrest.2 hyes)⟩
  rw [hp]
  exact hhead.append (hrest.1 hno)

/-- `skipto` passes over every well-formed program. -/
theorem passed {inSwitch labels : Bool} {p : Program}
    (hp : p.WellFormed NoGetkeye inLoop inSwitch labels) : Passed inLoop labels p := by
  induction p generalizing inLoop inSwitch labels with
  | done => exact ⟨fun _ ↦ Passes.nil, fun _ ↦ PassesCases.done⟩
  | instr i rest ih => exact Passed.cons rest (Passes.instr hp.1) rfl rfl (ih hp.2)
  | ite op thn rest ihthn ih =>
      have hthn := (ihthn hp.1).1 rfl
      exact Passed.cons rest (Passes.conditional op.property hthn) (by simp [compile]) rfl (ih hp.2)
  | iteElse op thn els rest ihthn ihels ih =>
      have hthn := (ihthn hp.1).1 rfl
      have hels := (ihels hp.2.1).1 rfl
      exact Passed.cons rest (Passes.conditionalElse op.property hthn hels) (by simp [compile]) rfl
        (ih hp.2.2)
  | loop body rest ihbody ih =>
      have hbody := (ihbody hp.1).1 rfl
      exact Passed.cons rest (Passes.loop hbody) (by simp [compile]) rfl (ih hp.2)
  | brk rest ih => exact Passed.cons rest (Passes.leave (by decide)) rfl rfl (ih hp.2)
  | cont rest ih => exact Passed.cons rest (Passes.leave (by decide)) rfl rfl (ih hp.2)
  | switch name body rest ihbody ih =>
      have hbody := (ihbody hp.2.1).2 rfl
      exact Passed.cons rest (Passes.switch (length_le 4 name.toNat) hbody) (by simp [compile]) rfl (ih hp.2.2)
  | case k rest ih =>
      refine ⟨fun hno ↦ absurd (hno.symm.trans hp.1) (by decide), fun hyes ↦ ?_⟩
      exact PassesCases.case ((ih hp.2).2 hyes)
  | default rest ih =>
      refine ⟨fun hno ↦ absurd (hno.symm.trans hp.1) (by decide), fun hyes ↦ ?_⟩
      exact PassesCases.default ((ih hp.2).2 hyes)
  | endCase rest ih => exact Passed.cons rest Passes.endCase rfl rfl (ih hp.2)

/-- What a program is passed over to, if it stands in a selection right to its end. -/
theorem Passed.skips {labels : Bool} {p : Program} (hp : Passed inLoop labels p) {inst : UInt8}
    {code rest : List UInt8} (hcode : labels = true → ∃ c, code = CS_END_SWITCH :: c)
    (hinst : inst ∈ ([CS_END_SWITCH, CS_END_LOOP] : List UInt8))
    (hloop : inst = CS_END_LOOP → inLoop = true) (h : Skips inst code rest) :
    Skips inst (compile p ++ code) rest := by
  have htargets : ∀ inst ∈ ([CS_END_SWITCH, CS_END_LOOP] : List UInt8), inst ∈ targets := by decide
  cases labels with
  | false => exact hp.1 rfl inst (htargets inst hinst) hloop _ _ h
  | true =>
      obtain ⟨c, rfl⟩ := hcode rfl
      exact ((hp.2 rfl c).2 inst hinst hloop _ h).1

/-- `CS_CRLF`. -/
def crlf : Instr := ⟨[0x16], by decide⟩

theorem noGetkeye_crlf (inLoop : Bool) : NoGetkeye inLoop crlf := fun _ ↦ by decide

end Synchronet.Sbbs3.Baja
