import Mathlib.Logic.Relation
import Synchronet.Sbbs3.BajaCompile

/-!
# Runs of compiled programs

A run of `exec` over the image of a structured program is a run of the program: the parts of the
program are simulated one by one, each from its start to where it leaves it.
-/

namespace Synchronet.Sbbs3.Baja

open LittleEndian Structured

variable {inLoop : Bool}

/-! ## Runs of the interpreter -/

/-- What a run changes between the parts of a program; no command is open. -/
structure Point (ε : Type*) where
  ip : List UInt8
  loopHome : List (List UInt8)
  env : ε

variable {ε : Type*}

def Point.csi (cs : List UInt8) (ret : List (List UInt8)) (p : Point ε) (v : Int32) : Csi ε :=
  { cs := cs, ip := p.ip, ret := ret, cmdret := [], loopHome := p.loopHome, inSwitch := false,
    switchVal := v, env := p.env }

/-- On the way to a label. -/
def Point.selecting (cs : List UInt8) (ret : List (List UInt8)) (p : Point ε) (v : Int32) : Csi ε :=
  { cs := cs, ip := p.ip, ret := ret, cmdret := [], loopHome := p.loopHome, inSwitch := true,
    switchVal := v, env := p.env }

def Step (sh : Shell ε) (m m' : Csi ε) : Prop := exec sh m = some (m', false)

def Reaches (sh : Shell ε) (cs : List UInt8) (ret : List (List UInt8)) (p q : Point ε) : Prop :=
  ∀ v, ∃ w, Relation.ReflTransGen (Step sh) (p.csi cs ret v) (q.csi cs ret w)

section

variable {sh : Shell ε} {cs : List UInt8} {ret : List (List UInt8)} {p q r : Point ε}
  {code d : List UInt8} {homes : List (List UInt8)} {s : ε}

theorem Reaches.refl (p : Point ε) : Reaches sh cs ret p p := fun v ↦ ⟨v, .refl⟩

theorem Reaches.trans (hpq : Reaches sh cs ret p q) (hqr : Reaches sh cs ret q r) :
    Reaches sh cs ret p r := by
  intro v
  obtain ⟨w, hw⟩ := hpq v
  obtain ⟨u, hu⟩ := hqr w
  exact ⟨u, hw.trans hu⟩

theorem Reaches.step (h : ∀ v, exec sh (p.csi cs ret v) = some (q.csi cs ret v, false)) :
    Reaches sh cs ret p q := fun v ↦ ⟨v, .single (h v)⟩

theorem reaches_ifTrue {op : UInt8} (hop : isIf op = true) (h : ifHolds op (sh.logic s) = true) :
    Reaches sh cs ret ⟨op :: code, homes, s⟩ ⟨code, homes, s⟩ :=
  Reaches.step fun v ↦ by simp [exec, Point.csi, hop, h]

theorem reaches_ifFalse {op : UInt8} (hop : isIf op = true) (h : ifHolds op (sh.logic s) = false)
    (hd : Skips CS_ELSEORENDIF code d) :
    Reaches sh cs ret ⟨op :: code, homes, s⟩ ⟨d.drop 1, homes, s⟩ :=
  Reaches.step fun v ↦ by simp [exec, Point.csi, hop, h, hd.skip_eq]

theorem reaches_else (hd : Skips CS_ENDIF code d) :
    Reaches sh cs ret ⟨CS_ELSE :: code, homes, s⟩ ⟨d.drop 1, homes, s⟩ :=
  Reaches.step fun v ↦ by simp +decide [exec, Point.csi, hd.skip_eq]

theorem reaches_endif : Reaches sh cs ret ⟨CS_ENDIF :: code, homes, s⟩ ⟨code, homes, s⟩ :=
  Reaches.step fun v ↦ by simp +decide [exec, Point.csi]

theorem reaches_endCase (hd : Skips CS_END_SWITCH code d) :
    Reaches sh cs ret ⟨CS_END_CASE :: code, homes, s⟩ ⟨d.drop 1, homes, s⟩ :=
  Reaches.step fun v ↦ by simp +decide [exec, Point.csi, hd.skip_eq]

theorem reaches_default : Reaches sh cs ret ⟨CS_DEFAULT :: code, homes, s⟩ ⟨code, homes, s⟩ :=
  Reaches.step fun v ↦ by simp +decide [exec, Point.csi]

theorem reaches_endSwitch :
    Reaches sh cs ret ⟨CS_END_SWITCH :: code, homes, s⟩ ⟨code, homes, s⟩ :=
  Reaches.step fun v ↦ by simp +decide [exec, Point.csi]

theorem reaches_loop (hhomes : homes.length < 50) :
    Reaches sh cs ret ⟨CS_ONE_MORE_BYTE :: CS_LOOP_BEGIN :: code, homes, s⟩
      ⟨code, (CS_LOOP_BEGIN :: code) :: homes, s⟩ :=
  Reaches.step fun v ↦ by simp +decide [exec, Point.csi, instrRest, execLoop, hhomes]

/-- A loop starts over at the second byte of its first instruction, which is `CS_END_CMD`. -/
theorem reaches_home :
    Reaches sh cs ret ⟨CS_LOOP_BEGIN :: code, homes, s⟩ ⟨code, homes, s⟩ :=
  Reaches.step fun v ↦ by simp +decide [exec, Point.csi]

theorem reaches_again {sub : UInt8} {home : List UInt8}
    (hsub : sub ∈ ([CS_CONTINUE_LOOP, CS_END_LOOP] : List UInt8)) :
    Reaches sh cs ret ⟨CS_ONE_MORE_BYTE :: sub :: code, home :: homes, s⟩
      ⟨home, home :: homes, s⟩ := by
  have hall : ∀ sub ∈ ([CS_CONTINUE_LOOP, CS_END_LOOP] : List UInt8), CS_EXIT ≤ sub ∧
      sub ≤ CS_END_LOOP ∧ sub ≠ CS_EXIT ∧ sub ≠ CS_LOOP_BEGIN ∧ sub ≠ CS_BREAK_LOOP := by decide
  obtain ⟨hle, hge, hexit, hbegin, hbreak⟩ := hall sub hsub
  exact Reaches.step fun v ↦ by
    simp +decide [exec, Point.csi, instrRest, execLoop, hle, hge, hexit, hbegin, hbreak]

theorem reaches_break {home : List UInt8} (hd : Skips CS_END_LOOP code d) :
    Reaches sh cs ret ⟨CS_ONE_MORE_BYTE :: CS_BREAK_LOOP :: code, home :: homes, s⟩
      ⟨d.drop 2, homes, s⟩ :=
  Reaches.step fun v ↦ by simp +decide [exec, Point.csi, instrRest, execLoop, hd.skip_eq]

/-- The instructions that `exec` has a branch of its own for. -/
abbrev flow : List UInt8 :=
  [CS_ELSE, CS_ENDIF, CS_END_CASE, CS_DEFAULT, CS_END_SWITCH, CS_SWITCH, CS_CASE, CS_CMD_HOME,
    CS_CMD_POP, CS_END_CMD, CS_RETURN, CS_GOTO, CS_CALL, CS_CMDKEY, CS_CMDCHAR, CS_CMDSTR,
    CS_CMDKEYS]

theorem not_flow_of_instrRest {op : UInt8} {code rest : List UInt8}
    (h : instrRest (op :: code) = some rest) : isIf op = false ∧ op ∉ flow := by
  have hall : ∀ op : UInt8, (isIf op = false ∧ op ∉ flow) ∨ (fixedOperands op = none ∧
      op ∉ ([CS_VAR_INSTRUCTION, CS_COMPARE_ARS, CS_TWO_MORE_BYTES, CS_ONE_MORE_BYTE] :
        List UInt8)) :=
    Words.forall_uint8 (by decide +kernel)
  rcases hall op with hop | ⟨hnone, hop⟩
  · exact hop
  · simp only [List.mem_cons, List.not_mem_nil, or_false, not_or] at hop
    simp [instrRest, hop, hnone] at h

theorem reaches_instr {instr : List UInt8} (h : instrRest instr = some []) :
    Reaches sh cs ret ⟨instr ++ code, homes, s⟩ ⟨code, homes, sh.run instr s⟩ := by
  have happend := instrRest_append h code
  cases instr with
  | nil => simp [instrRest] at h
  | cons op operands =>
      obtain ⟨hif, hflow⟩ := not_flow_of_instrRest h
      simp only [List.mem_cons, List.not_mem_nil, or_false, not_or] at hflow
      have htake : (op :: (operands ++ code)).take
          ((operands ++ code).length + 1 - code.length) = op :: operands := by
        have hlen : (operands ++ code).length + 1 - code.length = (op :: operands).length := by
          simp only [List.length_append, List.length_cons]
          omega
        rw [hlen, ← List.cons_append, List.take_left]
      refine Reaches.step fun v ↦ ?_
      rw [List.cons_append, List.nil_append] at happend
      simp only [exec, Point.csi, List.cons_append, hif, hflow, happend, htake, if_false,
        Bool.false_eq_true, or_self]

theorem word_le (n : UInt32) (code : List UInt8) : word (le 4 n.toNat ++ code) = n := by
  simp [word, field_zero]

theorem exec_case {m : Csi ε} {k : Int32}
    (hip : m.ip = CS_CASE :: (le 4 k.toUInt32.toNat ++ code)) :
    exec sh m = if m.inSwitch = true ∧ m.switchVal ≠ k then
        (skip CS_NEXTCASE code).map fun c ↦ ({ m with ip := c }, false)
      else some ({ m with ip := code, inSwitch := false }, false) := by
  have hread : readBytes 4 (le 4 k.toUInt32.toNat ++ code) = some code := by
    simp [readBytes, List.drop_left']
  simp +decide [exec, hip, hread, word_le]

theorem reaches_case {k : Int32} :
    Reaches sh cs ret ⟨CS_CASE :: (le 4 k.toUInt32.toNat ++ code), homes, s⟩ ⟨code, homes, s⟩ :=
  Reaches.step fun v ↦ (exec_case rfl).trans (if_neg (by simp [Point.csi]))

/-- The selection goes from label to label until one takes the value, and leaves the flag behind. -/
theorem selects {inSwitch : Bool} {body : Program} {v : Int32}
    (hbody : body.WellFormed NoGetkeye inLoop inSwitch true) :
    Relation.ReflTransGen (Step sh)
      (Point.selecting cs ret ⟨compile body.next ++ CS_END_SWITCH :: code, homes, s⟩ v)
      (Point.csi cs ret ⟨(body.select v).elim code fun q ↦ compile q ++ CS_END_SWITCH :: code,
        homes, s⟩ v) := by
  induction body with
  | done => exact .single (by simp +decide [Step, exec, Point.csi, Point.selecting, Prog.next,
      Prog.select, compile])
  | instr i rest ih => exact ih hbody.2
  | ite op thn rest _ ih => exact ih hbody.2
  | iteElse op thn els rest _ _ ih => exact ih hbody.2.2
  | loop body rest _ ih => exact ih hbody.2
  | brk rest ih => exact ih hbody.2
  | cont rest ih => exact ih hbody.2
  | switch name body rest _ ih => exact ih hbody.2.2
  | case k rest ih =>
      have hip : (Point.selecting cs ret
          ⟨compile (.case k rest) ++ CS_END_SWITCH :: code, homes, s⟩ v).ip =
          CS_CASE :: (le 4 k.toUInt32.toNat ++ (compile rest ++ CS_END_SWITCH :: code)) := by
        simp [Point.selecting, compile]
      by_cases hv : v = k
      · refine .single ((exec_case hip).trans ?_)
        rw [if_neg (fun h ↦ h.2 hv), Prog.select, if_pos hv]
        rfl
      · refine .head ((exec_case hip).trans ?_) (by simpa [Prog.select, hv] using ih hbody.2)
        have hskips := ((passed hbody.2).2 rfl code).1
        rw [if_pos ⟨rfl, hv⟩, hskips.skip_eq]
        rfl
  | default rest ih => exact .single (by simp +decide [Step, exec, Point.csi, Point.selecting,
      Prog.next, Prog.select, compile])
  | endCase rest ih => exact ih hbody.2

theorem reaches_switch {inSwitch : Bool} {name : UInt32} {body : Program} {v : Int32}
    (hbody : body.WellFormed NoGetkeye inLoop inSwitch true) (hstarts : body.StartsCases)
    (hv : sh.getintvar name s = some v) :
    Reaches sh cs ret
      ⟨CS_SWITCH :: (le 4 name.toNat ++ (compile body ++ CS_END_SWITCH :: code)), homes, s⟩
      ⟨(body.select v).elim code fun q ↦ compile q ++ CS_END_SWITCH :: code, homes, s⟩ := by
  intro u
  refine ⟨v, .head ?_ (selects hbody)⟩
  rw [hstarts.next_eq]
  simp +decide [Step, exec, Point.csi, Point.selecting, readBytes, word_le, hv, List.drop_left']

theorem reaches_switchUndefined {name : UInt32} (hname : sh.getintvar name s = none)
    (hd : Skips CS_END_SWITCH code d) :
    Reaches sh cs ret ⟨CS_SWITCH :: (le 4 name.toNat ++ code), homes, s⟩ ⟨d.drop 1, homes, s⟩ :=
  Reaches.step fun v ↦ by
    simp +decide [exec, Point.csi, readBytes, word_le, hname, hd.skip_eq, List.drop_left']

end

/-! ## The interpreter runs the program -/

/-- The instructions and the tests as the interpreter has them. -/
def meaning (sh : Shell ε) : Meaning Instr Condition UInt32 Int32 ε where
  act i s := sh.run i.val s
  test op s := ifHolds op.val (sh.logic s)
  value name s := sh.getintvar name s

/-- Where a run gets to from `p`, with `code` behind the program. -/
def Ends (sh : Shell ε) (cs : List UInt8) (ret : List (List UInt8)) (inLoop : Bool) (o : Outcome)
    (code : List UInt8) (homes : List (List UInt8)) (s : ε) (p : Point ε) : Prop :=
  match o with
  | .normal => Reaches sh cs ret p ⟨code, homes, s⟩
  | .brk => inLoop = true → ∀ d, Skips CS_END_LOOP code (CS_ONE_MORE_BYTE :: CS_END_LOOP :: d) →
      Reaches sh cs ret p ⟨d, homes.tail, s⟩
  | .cont => ∀ home ∈ homes.head?, Reaches sh cs ret p ⟨home, homes, s⟩
  | .endCase => ∀ d, Skips CS_END_SWITCH code (CS_END_SWITCH :: d) →
      Reaches sh cs ret p ⟨d, homes, s⟩

/-- The image from the body of a loop on. -/
def inside (body rest : Program) (code : List UInt8) : List UInt8 :=
  compile body ++ CS_ONE_MORE_BYTE :: CS_END_LOOP :: (compile rest ++ code)

/-- A loop is entered before its body for the first time only. -/
def start (p : Program) (code : List UInt8) (homes : List (List UInt8)) (s : ε) : Point ε :=
  match p with
  | .loop body rest =>
      ⟨inside body rest code, (CS_LOOP_BEGIN :: inside body rest code) :: homes, s⟩
  | p => ⟨compile p ++ code, homes, s⟩

/-- A program in its place. -/
structure Fits (inLoop inSwitch labels : Bool) (p : Program) (code : List UInt8)
    (homes : List (List UInt8)) : Prop where
  wellFormed : p.WellFormed NoGetkeye inLoop inSwitch labels
  depth : homes.length + p.depth ≤ 50
  loops : inLoop = true → homes ≠ []
  closed : labels = true → ∃ c, code = CS_END_SWITCH :: c

section

variable {sh : Shell ε} {cs : List UInt8} {ret : List (List UInt8)} {p : Program} {q r : Point ε}
  {code d : List UInt8} {homes : List (List UInt8)} {s : ε} {o : Outcome}
  {inSwitch labels : Bool}

theorem reaches_start (h : homes.length + p.depth ≤ 50) :
    Reaches sh cs ret ⟨compile p ++ code, homes, s⟩ (start p code homes s) := by
  cases p with
  | loop body rest =>
      have hdepth : body.depth + 1 ≤ (Prog.loop body rest).depth := le_max_left _ _
      have hhomes : homes.length < 50 := by omega
      have hcode : compile (.loop body rest) ++ code =
          CS_ONE_MORE_BYTE :: CS_LOOP_BEGIN :: inside body rest code := by simp [compile, inside]
      rw [hcode]
      exact reaches_loop hhomes
  | _ => exact Reaches.refl _

theorem Ends.head (hqr : Reaches sh cs ret q r) (h : Ends sh cs ret inLoop o code homes s r) :
    Ends sh cs ret inLoop o code homes s q := by
  cases o with
  | normal => exact hqr.trans h
  | brk => exact fun hloop d hd ↦ hqr.trans (h hloop d hd)
  | cont => exact fun home hhome ↦ hqr.trans (h home hhome)
  | endCase => exact fun d hd ↦ hqr.trans (h d hd)

/-- What leaves a part of a program leaves it across what follows. -/
theorem Ends.leave (ho : o ≠ .normal) (h : Ends sh cs ret inLoop o d homes s q)
    (hpass : ∀ inst ∈ ([CS_END_SWITCH, CS_END_LOOP] : List UInt8),
      (inst = CS_END_LOOP → inLoop = true) → ∀ rest, Skips inst code rest → Skips inst d rest) :
    Ends sh cs ret inLoop o code homes s q := by
  cases o with
  | normal => exact absurd rfl ho
  | brk => exact fun hloop e he ↦ h hloop e (hpass _ (by decide) (fun _ ↦ hloop) _ he)
  | cont => exact h
  | endCase => exact fun e he ↦ h e (hpass _ (by decide) (fun he ↦ absurd he (by decide)) _ he)

theorem Fits.part {q : Program} (h : Fits inLoop inSwitch labels p code homes)
    (hq : q.WellFormed NoGetkeye inLoop inSwitch labels) (hdepth : q.depth ≤ p.depth) :
    Fits inLoop inSwitch labels q code homes :=
  ⟨hq, (Nat.add_le_add_left hdepth _).trans h.depth, h.loops, h.closed⟩

/-- A branch of a conditional, with what follows it. -/
theorem Fits.branch {q : Program} (h : Fits inLoop inSwitch labels p code homes)
    (hq : q.WellFormed NoGetkeye inLoop inSwitch false) (hdepth : q.depth ≤ p.depth)
    (d : List UInt8) : Fits inLoop inSwitch false q d homes :=
  ⟨hq, (Nat.add_le_add_left hdepth _).trans h.depth, h.loops, fun h ↦ absurd h (by decide)⟩

theorem Fits.enter (h : Fits inLoop inSwitch labels p code homes)
    {s' : ε} (hends : Ends sh cs ret inLoop o code homes s' (start p code homes s)) :
    Ends sh cs ret inLoop o code homes s' ⟨compile p ++ code, homes, s⟩ :=
  hends.head (reaches_start h.depth)

theorem Fits.pass (h : Fits inLoop inSwitch labels p code homes) :
    ∀ inst ∈ ([CS_END_SWITCH, CS_END_LOOP] : List UInt8), (inst = CS_END_LOOP → inLoop = true) →
      ∀ rest, Skips inst code rest → Skips inst (compile p ++ code) rest :=
  fun _ hinst hloop _ hrest ↦ (passed h.wellFormed).skips h.closed hinst hloop hrest

section

variable {rest thn els body : Program} {op : Condition} {name : UInt32} {s₁ s' : ε}

theorem ends_instr {i : Instr} (hfits : Fits inLoop inSwitch labels rest code homes)
    (h : Ends sh cs ret inLoop o code homes s' (start rest code homes (sh.run i.val s))) :
    Ends sh cs ret inLoop o code homes s' (start (.instr i rest) code homes s) := by
  have hstart : start (.instr i rest) code homes s = ⟨i.val ++ (compile rest ++ code), homes, s⟩ := by
    simp [start, compile]
  rw [hstart]
  exact Ends.head (reaches_instr i.property) (hfits.enter h)

theorem start_ite : start (.ite op thn rest) code homes s =
    ⟨op.val :: (compile thn ++ CS_ENDIF :: (compile rest ++ code)), homes, s⟩ := by
  simp [start, compile]

/-- Into the branch. -/
theorem reaches_ite (hthn : Fits inLoop inSwitch false thn d homes)
    (hd : d = CS_ENDIF :: (compile rest ++ code)) (ht : ifHolds op.val (sh.logic s) = true) :
    Reaches sh cs ret (start (.ite op thn rest) code homes s) (start thn d homes s) := by
  rw [start_ite, ← hd]
  exact (reaches_ifTrue op.property ht).trans (reaches_start hthn.depth)

theorem ends_iteTrue (hthn : Fits inLoop inSwitch false thn d homes)
    (hrest : Fits inLoop inSwitch labels rest code homes)
    (hd : d = CS_ENDIF :: (compile rest ++ code)) (ht : ifHolds op.val (sh.logic s) = true)
    (h₁ : Ends sh cs ret inLoop .normal d homes s₁ (start thn d homes s))
    (h : Ends sh cs ret inLoop o code homes s' (start rest code homes s₁)) :
    Ends sh cs ret inLoop o code homes s' (start (.ite op thn rest) code homes s) := by
  have hbranch : Reaches sh cs ret (start thn d homes s) ⟨d, homes, s₁⟩ := h₁
  have hend : Reaches sh cs ret ⟨d, homes, s₁⟩ ⟨compile rest ++ code, homes, s₁⟩ := by
    rw [hd]
    exact reaches_endif
  exact Ends.head ((reaches_ite hthn hd ht).trans (hbranch.trans hend)) (hrest.enter h)

theorem ends_iteLeave (hthn : Fits inLoop inSwitch false thn d homes)
    (hrest : Fits inLoop inSwitch labels rest code homes)
    (hd : d = CS_ENDIF :: (compile rest ++ code)) (ht : ifHolds op.val (sh.logic s) = true)
    (ho : o ≠ .normal) (h : Ends sh cs ret inLoop o d homes s' (start thn d homes s)) :
    Ends sh cs ret inLoop o code homes s' (start (.ite op thn rest) code homes s) := by
  refine Ends.head (reaches_ite hthn hd ht) (h.leave ho ?_)
  intro inst hinst hloop e he
  rw [hd]
  exact Skips.passMark (by decide) hinst (hrest.pass inst hinst hloop e he)

theorem ends_iteFalse (hthn : Fits inLoop inSwitch false thn d homes)
    (hrest : Fits inLoop inSwitch labels rest code homes)
    (ht : ifHolds op.val (sh.logic s) = false)
    (h : Ends sh cs ret inLoop o code homes s' (start rest code homes s)) :
    Ends sh cs ret inLoop o code homes s' (start (.ite op thn rest) code homes s) := by
  have hskips : Skips CS_ELSEORENDIF (compile thn ++ CS_ENDIF :: (compile rest ++ code))
      (CS_ENDIF :: (compile rest ++ code)) :=
    (passed hthn.wellFormed).1 rfl _ (by decide) (fun h ↦ absurd h (by decide)) _ _
      (Skips.stop _ (by decide))
  rw [start_ite]
  exact Ends.head (reaches_ifFalse op.property ht hskips) (hrest.enter h)

theorem start_iteElse : start (.iteElse op thn els rest) code homes s =
    ⟨op.val :: (compile thn ++ CS_ELSE :: (compile els ++ CS_ENDIF :: (compile rest ++ code))),
      homes, s⟩ := by
  simp [start, compile]

/-- What stands behind the two branches. -/
def behind (b : Bool) (els rest : Program) (code : List UInt8) : List UInt8 :=
  if b then CS_ELSE :: (compile els ++ CS_ENDIF :: (compile rest ++ code))
  else CS_ENDIF :: (compile rest ++ code)

/-- Into the branch that is taken. -/
theorem reaches_iteElse {b : Bool} (hthn : Fits inLoop inSwitch false thn d homes)
    (hbranch : homes.length + (if b then thn else els).depth ≤ 50)
    (hb : ifHolds op.val (sh.logic s) = b) :
    Reaches sh cs ret (start (.iteElse op thn els rest) code homes s)
      (start (if b then thn else els) (behind b els rest code) homes s) := by
  rw [start_iteElse]
  cases b with
  | true => exact (reaches_ifTrue op.property hb).trans (reaches_start hbranch)
  | false =>
      have hskips : Skips CS_ELSEORENDIF
          (compile thn ++ CS_ELSE :: (compile els ++ CS_ENDIF :: (compile rest ++ code)))
          (CS_ELSE :: (compile els ++ CS_ENDIF :: (compile rest ++ code))) :=
        (passed hthn.wellFormed).1 rfl _ (by decide) (fun h ↦ absurd h (by decide)) _ _
          (Skips.stop _ (by decide))
      exact (reaches_ifFalse op.property hb hskips).trans (reaches_start hbranch)

/-- Behind the branch that was taken. -/
theorem reaches_behind {b : Bool} (hels : Fits inLoop inSwitch false els d homes) :
    Reaches sh cs ret ⟨behind b els rest code, homes, s⟩ ⟨compile rest ++ code, homes, s⟩ := by
  cases b with
  | true => exact reaches_else (((passed hels.wellFormed).1 rfl).to_endif _)
  | false => exact reaches_endif

theorem pass_behind {b : Bool} (hels : Fits inLoop inSwitch false els d homes)
    (hrest : Fits inLoop inSwitch labels rest code homes) :
    ∀ inst ∈ ([CS_END_SWITCH, CS_END_LOOP] : List UInt8), (inst = CS_END_LOOP → inLoop = true) →
      ∀ e, Skips inst code e → Skips inst (behind b els rest code) e := by
  intro inst hinst hloop e he
  have hendif : Skips inst (CS_ENDIF :: (compile rest ++ code)) e :=
    Skips.passMark (by decide) hinst (hrest.pass inst hinst hloop e he)
  cases b with
  | true =>
      have hpass := (passed hels.wellFormed).skips (fun h ↦ absurd h (by decide)) hinst hloop hendif
      exact Skips.passMark (by decide) hinst hpass
  | false => exact hendif

theorem start_loop : start (.loop body rest) code homes s =
    ⟨inside body rest code, (CS_LOOP_BEGIN :: inside body rest code) :: homes, s⟩ := rfl

/-- The home of a loop, and its end, lead to its start. -/
theorem reaches_loopStart :
    Reaches sh cs ret
      ⟨CS_LOOP_BEGIN :: inside body rest code, (CS_LOOP_BEGIN :: inside body rest code) :: homes, s⟩
      (start (.loop body rest) code homes s) := by
  rw [start_loop]
  exact reaches_home

/-- The body of a loop, with what follows it. -/
theorem Fits.loopBody (h : Fits inLoop inSwitch labels (.loop body rest) code homes)
    (d home : List UInt8) : Fits true false false body d (home :: homes) := by
  have hdepth : body.depth + 1 ≤ (Prog.loop body rest : Program).depth := le_max_left _ _
  have hall := h.depth
  refine ⟨h.wellFormed.1, ?_, fun _ ↦ List.cons_ne_nil _ _, fun h ↦ absurd h (by decide)⟩
  rw [List.length_cons]
  omega

theorem reaches_body (hd : d = CS_ONE_MORE_BYTE :: CS_END_LOOP :: (compile rest ++ code))
    {home : List UInt8} (hhome : home = CS_LOOP_BEGIN :: inside body rest code)
    (hbody : Fits true false false body d (home :: homes)) :
    Reaches sh cs ret (start (.loop body rest) code homes s) (start body d (home :: homes) s) := by
  rw [start_loop, inside, ← hd, hhome, inside, ← hd]
  rw [hhome, inside, ← hd] at hbody
  exact reaches_start hbody.depth

theorem ends_loopNext {o' : Outcome}
    (hd : d = CS_ONE_MORE_BYTE :: CS_END_LOOP :: (compile rest ++ code)) {home : List UInt8}
    (hhome : home = CS_LOOP_BEGIN :: inside body rest code)
    (hbody : Fits true false false body d (home :: homes)) (ho : o' = .normal ∨ o' = .cont)
    (h₁ : Ends sh cs ret true o' d (home :: homes) s₁ (start body d (home :: homes) s))
    (h : Ends sh cs ret inLoop o code homes s' (start (.loop body rest) code homes s₁)) :
    Ends sh cs ret inLoop o code homes s' (start (.loop body rest) code homes s) := by
  have hround : Reaches sh cs ret (start body d (home :: homes) s) ⟨home, home :: homes, s₁⟩ := by
    rcases ho with rfl | rfl
    · have hend : Reaches sh cs ret (start body d (home :: homes) s) ⟨d, home :: homes, s₁⟩ := h₁
      rw [hd] at hend ⊢
      exact hend.trans (reaches_again (by decide))
    · exact h₁ home rfl
  have hagain : Reaches sh cs ret ⟨home, home :: homes, s₁⟩
      (start (.loop body rest) code homes s₁) := by
    rw [hhome]
    exact reaches_loopStart
  exact Ends.head ((reaches_body hd hhome hbody).trans (hround.trans hagain)) h

theorem ends_loopBreak (hd : d = CS_ONE_MORE_BYTE :: CS_END_LOOP :: (compile rest ++ code))
    {home : List UInt8} (hhome : home = CS_LOOP_BEGIN :: inside body rest code)
    (hbody : Fits true false false body d (home :: homes))
    (hrest : Fits inLoop inSwitch labels rest code homes)
    (h₁ : Ends sh cs ret true .brk d (home :: homes) s₁ (start body d (home :: homes) s))
    (h : Ends sh cs ret inLoop o code homes s' (start rest code homes s₁)) :
    Ends sh cs ret inLoop o code homes s' (start (.loop body rest) code homes s) := by
  have hend : Skips CS_END_LOOP d (CS_ONE_MORE_BYTE :: CS_END_LOOP :: (compile rest ++ code)) := by
    rw [hd]
    exact Skips.endLoop _
  have hout := h₁ rfl _ hend
  exact Ends.head ((reaches_body hd hhome hbody).trans hout) (hrest.enter h)

theorem ends_brk (hfits : Fits inLoop inSwitch labels rest code homes) :
    Ends sh cs ret inLoop .brk code homes s (start (.brk rest) code homes s) := by
  intro hloop e he
  obtain ⟨home, rest', rfl⟩ := List.exists_cons_of_ne_nil (hfits.loops hloop)
  exact reaches_break (hfits.pass _ (by decide) (fun _ ↦ hloop) _ he)

theorem ends_cont : Ends sh cs ret inLoop .cont code homes s (start (.cont rest) code homes s) := by
  intro home hhome
  obtain ⟨rest', rfl⟩ : ∃ rest', homes = home :: rest' := by
    cases homes with
    | nil => simp at hhome
    | cons b rest' => exact ⟨rest', by rw [Option.some.inj hhome]⟩
  exact reaches_again (by decide)

theorem ends_endCase (hfits : Fits inLoop inSwitch labels rest code homes) :
    Ends sh cs ret inLoop .endCase code homes s (start (.endCase rest) code homes s) :=
  fun _ he ↦ reaches_endCase (hfits.pass _ (by decide) (fun h ↦ absurd h (by decide)) _ he)

theorem start_switch : start (.switch name body rest) code homes s =
    ⟨CS_SWITCH :: (le 4 name.toNat ++ (compile body ++ CS_END_SWITCH :: (compile rest ++ code))),
      homes, s⟩ := by
  simp [start, compile]

/-- To the label that takes the value, or to the end of the selection. -/
theorem reaches_selection {inSwitch' : Bool} {v : Int32}
    (hbody : body.WellFormed NoGetkeye inLoop inSwitch' true) (hstarts : body.StartsCases)
    (hv : sh.getintvar name s = some v) :
    Reaches sh cs ret (start (.switch name body rest) code homes s)
      ⟨(body.select v).elim (compile rest ++ code) fun q ↦
        compile q ++ CS_END_SWITCH :: (compile rest ++ code), homes, s⟩ := by
  rw [start_switch]
  exact reaches_switch hbody hstarts hv

theorem ends_switchNone {inSwitch' : Bool}
    (hbody : body.WellFormed NoGetkeye inLoop inSwitch' true) (hstarts : body.StartsCases)
    (hrest : Fits inLoop inSwitch labels rest code homes)
    (hnone : (sh.getintvar name s).bind (body.select ·) = none)
    (h : Ends sh cs ret inLoop o code homes s' (start rest code homes s)) :
    Ends sh cs ret inLoop o code homes s' (start (.switch name body rest) code homes s) := by
  refine Ends.head ?_ (hrest.enter h)
  cases hv : sh.getintvar name s with
  | none =>
      rw [start_switch]
      exact reaches_switchUndefined hv (((passed hbody).2 rfl _).2 CS_END_SWITCH (by decide)
        (fun h ↦ absurd h (by decide)) _ (Skips.stop _ (by decide))).1
  | some v =>
      rw [hv, Option.bind_some] at hnone
      have hreach : Reaches sh cs ret (start (.switch name body rest) code homes s) _ :=
        reaches_selection hbody hstarts hv
      rw [hnone] at hreach
      exact hreach

theorem reaches_selected {inSwitch' : Bool} {v : Int32} {q : Program}
    (hbody : body.WellFormed NoGetkeye inLoop inSwitch' true) (hstarts : body.StartsCases)
    (hv : sh.getintvar name s = some v) (hq : body.select v = some q)
    (hfits : Fits inLoop true true q (CS_END_SWITCH :: (compile rest ++ code)) homes) :
    Reaches sh cs ret (start (.switch name body rest) code homes s)
      (start q (CS_END_SWITCH :: (compile rest ++ code)) homes s) := by
  have hreach : Reaches sh cs ret (start (.switch name body rest) code homes s) _ :=
    reaches_selection hbody hstarts hv
  rw [hq] at hreach
  exact hreach.trans (reaches_start hfits.depth)

/-- What the body of a selection ends with. -/
theorem reaches_leaveSwitch {o' : Outcome} (ho : o' = .normal ∨ o' = .endCase)
    (h : Ends sh cs ret inLoop o' (CS_END_SWITCH :: (compile rest ++ code)) homes s q) :
    Reaches sh cs ret q ⟨compile rest ++ code, homes, s⟩ := by
  rcases ho with rfl | rfl
  · have hend : Reaches sh cs ret q ⟨CS_END_SWITCH :: (compile rest ++ code), homes, s⟩ := h
    exact hend.trans reaches_endSwitch
  · exact h _ (Skips.stop _ (by decide))

/-- `brk` and `cont` leave the selection behind. -/
theorem ends_outOfSwitch (ho : o = .brk ∨ o = .cont)
    (hrest : Fits inLoop inSwitch labels rest code homes)
    (h : Ends sh cs ret inLoop o (CS_END_SWITCH :: (compile rest ++ code)) homes s q) :
    Ends sh cs ret inLoop o code homes s q := by
  rcases ho with rfl | rfl
  · intro hloop e he
    exact h hloop e (Skips.mark (by decide) (by decide)
      (hrest.pass _ (by decide) (fun _ ↦ hloop) _ he))
  · exact h

end

/-- The parts of a selection. -/
theorem Fits.selected {name : UInt32} {body rest t : Program} {v : Int32}
    (h : Fits inLoop inSwitch labels (.switch name body rest) code homes)
    (ht : body.select v = some t) :
    Fits inLoop true true t (CS_END_SWITCH :: (compile rest ++ code)) homes := by
  have hdepth : body.depth ≤ (Prog.switch name body rest : Program).depth := le_max_left _ _
  refine ⟨h.wellFormed.2.1.select ht, ?_, h.loops, fun _ ↦ ⟨_, rfl⟩⟩
  exact (Nat.add_le_add_left ((Prog.depth_select ht).trans hdepth) _).trans h.depth

/-- The branch that is taken. -/
theorem Fits.taken {op : Condition} {thn els rest : Program} (b : Bool)
    (h : Fits inLoop inSwitch labels (.iteElse op thn els rest) code homes) (d : List UInt8) :
    Fits inLoop inSwitch false (if b then thn else els) d homes := by
  cases b with
  | true => exact h.branch h.wellFormed.1 (le_max_left _ _) d
  | false => exact h.branch h.wellFormed.2.1 ((le_max_left _ _).trans (le_max_right _ _)) d

theorem ends_iteElse {op : Condition} {thn els rest : Program} {b : Bool} {s₁ s' : ε}
    (hfits : Fits inLoop inSwitch labels (.iteElse op thn els rest) code homes)
    (hrest : Fits inLoop inSwitch labels rest code homes) (hb : ifHolds op.val (sh.logic s) = b)
    (h₁ : Ends sh cs ret inLoop .normal (behind b els rest code) homes s₁
      (start (if b then thn else els) (behind b els rest code) homes s))
    (h : Ends sh cs ret inLoop o code homes s' (start rest code homes s₁)) :
    Ends sh cs ret inLoop o code homes s' (start (.iteElse op thn els rest) code homes s) := by
  have hin : Reaches sh cs ret (start (.iteElse op thn els rest) code homes s) _ :=
    reaches_iteElse (hfits.taken true []) (hfits.taken b []).depth hb
  have hout : Reaches sh cs ret _ ⟨behind b els rest code, homes, s₁⟩ := h₁
  exact Ends.head (hin.trans (hout.trans (reaches_behind (hfits.taken false [])))) (hrest.enter h)

theorem ends_iteElseLeave {op : Condition} {thn els rest : Program} {b : Bool} {s' : ε}
    (hfits : Fits inLoop inSwitch labels (.iteElse op thn els rest) code homes)
    (hrest : Fits inLoop inSwitch labels rest code homes) (hb : ifHolds op.val (sh.logic s) = b)
    (ho : o ≠ .normal) (h : Ends sh cs ret inLoop o (behind b els rest code) homes s'
      (start (if b then thn else els) (behind b els rest code) homes s)) :
    Ends sh cs ret inLoop o code homes s' (start (.iteElse op thn els rest) code homes s) := by
  have hin : Reaches sh cs ret (start (.iteElse op thn els rest) code homes s) _ :=
    reaches_iteElse (hfits.taken true []) (hfits.taken b []).depth hb
  exact Ends.head hin (h.leave ho (pass_behind (hfits.taken false []) hrest))

/-- The interpreter goes where the program goes. -/
theorem ends {s' : ε} (h : Exec (meaning sh) p s o s') : ∀ {inLoop inSwitch labels code homes},
    Fits inLoop inSwitch labels p code homes →
      Ends sh cs ret inLoop o code homes s' (start p code homes s) := by
  induction h with
  | done s => exact fun _ ↦ Reaches.refl _
  | instr _ ih =>
      intro inLoop inSwitch labels code homes hfits
      have hrest := hfits.part hfits.wellFormed.2 le_rfl
      exact ends_instr hrest (ih hrest)
  | iteTrue ht _ _ ihthn ih =>
      intro inLoop inSwitch labels code homes hfits
      have hthn := hfits.branch hfits.wellFormed.1 (le_max_left _ _)
      have hrest := hfits.part hfits.wellFormed.2 (le_max_right _ _)
      exact ends_iteTrue (hthn _) hrest rfl ht (ihthn (hthn _)) (ih hrest)
  | iteLeave ht ho _ ihthn =>
      intro inLoop inSwitch labels code homes hfits
      have hthn := hfits.branch hfits.wellFormed.1 (le_max_left _ _)
      have hrest := hfits.part hfits.wellFormed.2 (le_max_right _ _)
      exact ends_iteLeave (hthn _) hrest rfl ht ho (ihthn (hthn _))
  | iteFalse ht _ ih =>
      intro inLoop inSwitch labels code homes hfits
      have hthn := hfits.branch hfits.wellFormed.1 (le_max_left _ _) []
      have hrest := hfits.part hfits.wellFormed.2 (le_max_right _ _)
      exact ends_iteFalse hthn hrest ht (ih hrest)
  | iteElse _ _ ihthn ih =>
      intro inLoop inSwitch labels code homes hfits
      have hrest := hfits.part hfits.wellFormed.2.2
        ((le_max_right _ _).trans (le_max_right _ _))
      exact ends_iteElse hfits hrest rfl (ihthn (hfits.taken _ _)) (ih hrest)
  | iteElseLeave ho _ ihthn =>
      intro inLoop inSwitch labels code homes hfits
      have hrest := hfits.part hfits.wellFormed.2.2
        ((le_max_right _ _).trans (le_max_right _ _))
      exact ends_iteElseLeave hfits hrest rfl ho (ihthn (hfits.taken _ _))
  | loopNext ho _ _ ihbody ih =>
      intro inLoop inSwitch labels code homes hfits
      have hbody := hfits.loopBody
      exact ends_loopNext rfl rfl (hbody _ _) ho (ihbody (hbody _ _)) (ih hfits)
  | loopBreak _ _ ihbody ih =>
      intro inLoop inSwitch labels code homes hfits
      have hbody := hfits.loopBody
      have hrest := hfits.part hfits.wellFormed.2 (le_max_right _ _)
      exact ends_loopBreak rfl rfl (hbody _ _) hrest (ihbody (hbody _ _)) (ih hrest)
  | brk s =>
      intro inLoop inSwitch labels code homes hfits
      exact ends_brk (hfits.part hfits.wellFormed.2 le_rfl)
  | cont s =>
      intro inLoop inSwitch labels code homes _
      exact ends_cont
  | switchNone hnone _ ih =>
      intro inLoop inSwitch labels code homes hfits
      have hrest := hfits.part hfits.wellFormed.2.2 (le_max_right _ _)
      exact ends_switchNone hfits.wellFormed.2.1 hfits.wellFormed.1 hrest hnone (ih hrest)
  | switch hv hq ho _ _ ihbody ih =>
      intro inLoop inSwitch labels code homes hfits
      have hrest := hfits.part hfits.wellFormed.2.2 (le_max_right _ _)
      have hselected := hfits.selected hq
      have hout := reaches_leaveSwitch ho (ihbody hselected)
      have hin := (reaches_selected hfits.wellFormed.2.1 hfits.wellFormed.1 hv hq hselected).trans
        hout
      exact Ends.head hin (hrest.enter (ih hrest))
  | switchLeave hv hq ho _ ihbody =>
      intro inLoop inSwitch labels code homes hfits
      have hrest := hfits.part hfits.wellFormed.2.2 (le_max_right _ _)
      have hselected := hfits.selected hq
      have hout := ends_outOfSwitch ho hrest (ihbody hselected)
      exact Ends.head
        (reaches_selected hfits.wellFormed.2.1 hfits.wellFormed.1 hv hq hselected) hout
  | @case k rest s s' o _ ih =>
      intro inLoop inSwitch labels code homes hfits
      have hrest := hfits.part hfits.wellFormed.2 le_rfl
      have hstart : start (.case k rest) code homes s =
          ⟨CS_CASE :: (le 4 k.toUInt32.toNat ++ (compile rest ++ code)), homes, s⟩ := by
        simp [start, compile]
      rw [hstart]
      exact Ends.head reaches_case (hrest.enter (ih hrest))
  | default _ ih =>
      intro inLoop inSwitch labels code homes hfits
      have hrest := hfits.part hfits.wellFormed.2 le_rfl
      exact Ends.head reaches_default (hrest.enter (ih hrest))
  | endCase s =>
      intro inLoop inSwitch labels code homes hfits
      exact ends_endCase (hfits.part hfits.wellFormed.2 le_rfl)

end

/-! ## Main results -/

/-- A shell that counts the instructions it runs, and is true at three. -/
def counting : Shell ℕ where
  logic n := if n = 3 then 0 else -1
  cmd _ := 0
  str _ := []
  getintvar _ n := some (Int32.ofNat n)
  run _ n := n + 1

/-- A loop that is left from a conditional, with a selection behind it. -/
def countToThree : Program :=
  .loop (.instr crlf (.ite ⟨CS_IF_TRUE, by decide⟩ (.brk .done)
    (.switch 7 (.case 1 (.instr crlf (.endCase (.default (.endCase .done))))) .done))) .done

theorem countToThree_wellFormed : countToThree.WellFormed NoGetkeye false false false := by
  simp [countToThree, Prog.WellFormed, Prog.StartsCases, noGetkeye_crlf]

end Synchronet.Sbbs3.Baja
