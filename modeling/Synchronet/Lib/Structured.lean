import Mathlib.Data.Nat.Basic
import Mathlib.Order.Lattice
import Mathlib.Tactic.SplitIfs

/-!
# Structured programs

Programs of instructions, conditionals, endless loops that are left by a `brk`, and selections
whose cases are labels in one body: what is selected runs on through the labels that follow until
an `endCase`.  The instructions, the tests and the selecting values are parameters.
-/

namespace Synchronet.Structured

variable {ι τ υ κ σ : Type*}

/-- A program with what follows it. -/
inductive Prog (ι τ υ κ : Type*)
  | done
  | instr (i : ι) (rest : Prog ι τ υ κ)
  | ite (t : τ) (thn rest : Prog ι τ υ κ)
  | iteElse (t : τ) (thn els rest : Prog ι τ υ κ)
  | loop (body rest : Prog ι τ υ κ)
  | brk (rest : Prog ι τ υ κ)
  | cont (rest : Prog ι τ υ κ)
  | switch (u : υ) (body rest : Prog ι τ υ κ)
  | case (k : κ) (rest : Prog ι τ υ κ)
  | default (rest : Prog ι τ υ κ)
  | endCase (rest : Prog ι τ υ κ)

/-- What instructions do to the state, which tests hold, and which values select. -/
structure Meaning (ι τ υ κ σ : Type*) where
  act : ι → σ → σ
  test : τ → σ → Bool
  value : υ → σ → Option κ

inductive Outcome
  | normal
  | brk
  | cont
  | endCase

namespace Prog

/-- What follows the first label that takes `v`; the default label takes every value. -/
def select [DecidableEq κ] (v : κ) : Prog ι τ υ κ → Option (Prog ι τ υ κ)
  | done => none
  | instr _ rest => select v rest
  | ite _ _ rest => select v rest
  | iteElse _ _ _ rest => select v rest
  | loop _ rest => select v rest
  | brk rest => select v rest
  | cont rest => select v rest
  | switch _ _ rest => select v rest
  | case k rest => if v = k then some rest else select v rest
  | default rest => some rest
  | endCase rest => select v rest

/-- What is left from the next label on. -/
def next : Prog ι τ υ κ → Prog ι τ υ κ
  | done => done
  | instr _ rest => next rest
  | ite _ _ rest => next rest
  | iteElse _ _ _ rest => next rest
  | loop _ rest => next rest
  | brk rest => next rest
  | cont rest => next rest
  | switch _ _ rest => next rest
  | case k rest => case k rest
  | default rest => default rest
  | endCase rest => next rest

/-- The body of a selection begins with a label. -/
def StartsCases : Prog ι τ υ κ → Prop
  | done => True
  | case _ _ => True
  | default _ => True
  | _ => False

/-- `brk` and `cont` stand in loops, `endCase` in selections and labels in their bodies only;
`P` holds of the instructions, told whether they stand in a loop. -/
def WellFormed (P : Bool → ι → Prop) (inLoop inSwitch labels : Bool) : Prog ι τ υ κ → Prop
  | done => True
  | instr i rest => P inLoop i ∧ WellFormed P inLoop inSwitch labels rest
  | ite _ thn rest =>
      WellFormed P inLoop inSwitch false thn ∧ WellFormed P inLoop inSwitch labels rest
  | iteElse _ thn els rest =>
      WellFormed P inLoop inSwitch false thn ∧ WellFormed P inLoop inSwitch false els ∧
        WellFormed P inLoop inSwitch labels rest
  | loop body rest =>
      WellFormed P true false false body ∧ WellFormed P inLoop inSwitch labels rest
  | brk rest => inLoop = true ∧ WellFormed P inLoop inSwitch labels rest
  | cont rest => inLoop = true ∧ WellFormed P inLoop inSwitch labels rest
  | switch _ body rest =>
      body.StartsCases ∧ WellFormed P inLoop true true body ∧
        WellFormed P inLoop inSwitch labels rest
  | case _ rest => labels = true ∧ WellFormed P inLoop inSwitch labels rest
  | default rest => labels = true ∧ WellFormed P inLoop inSwitch labels rest
  | endCase rest => inSwitch = true ∧ WellFormed P inLoop inSwitch labels rest

/-- How many loops stand in each other. -/
def depth : Prog ι τ υ κ → ℕ
  | done => 0
  | instr _ rest => depth rest
  | ite _ thn rest => max (depth thn) (depth rest)
  | iteElse _ thn els rest => max (depth thn) (max (depth els) (depth rest))
  | loop body rest => max (depth body + 1) (depth rest)
  | brk rest => depth rest
  | cont rest => depth rest
  | switch _ body rest => max (depth body) (depth rest)
  | case _ rest => depth rest
  | default rest => depth rest
  | endCase rest => depth rest

theorem StartsCases.next_eq {p : Prog ι τ υ κ} (h : p.StartsCases) : p.next = p := by
  cases p <;> first | rfl | exact h.elim

theorem WellFormed.select [DecidableEq κ] {P : Bool → ι → Prop} {inLoop inSwitch : Bool} {v : κ}
    {p q : Prog ι τ υ κ} (h : WellFormed P inLoop inSwitch true p) (hq : p.select v = some q) :
    WellFormed P inLoop inSwitch true q := by
  induction p with
  | done => simp [Prog.select] at hq
  | instr i rest ih => exact ih h.2 hq
  | ite t thn rest _ ih => exact ih h.2 hq
  | iteElse t thn els rest _ _ ih => exact ih h.2.2 hq
  | loop body rest _ ih => exact ih h.2 hq
  | brk rest ih => exact ih h.2 hq
  | cont rest ih => exact ih h.2 hq
  | switch u body rest _ ih => exact ih h.2.2 hq
  | case k rest ih =>
      rw [Prog.select] at hq
      split_ifs at hq
      · obtain rfl := Option.some.inj hq
        exact h.2
      · exact ih h.2 hq
  | default rest ih =>
      obtain rfl := Option.some.inj hq
      exact h.2
  | endCase rest ih => exact ih h.2 hq

theorem depth_select [DecidableEq κ] {v : κ} {p q : Prog ι τ υ κ} (hq : p.select v = some q) :
    q.depth ≤ p.depth := by
  induction p with
  | done => simp [select] at hq
  | instr i rest ih => exact ih hq
  | ite t thn rest _ ih => exact (ih hq).trans (le_max_right _ _)
  | iteElse t thn els rest _ _ ih =>
      exact (ih hq).trans ((le_max_right _ _).trans (le_max_right _ _))
  | loop body rest _ ih => exact (ih hq).trans (le_max_right _ _)
  | brk rest ih => exact ih hq
  | cont rest ih => exact ih hq
  | switch u body rest _ ih => exact (ih hq).trans (le_max_right _ _)
  | case k rest ih =>
      rw [select] at hq
      split_ifs at hq
      · obtain rfl := Option.some.inj hq
        exact le_rfl
      · exact ih hq
  | default rest ih =>
      obtain rfl := Option.some.inj hq
      exact le_rfl
  | endCase rest ih => exact ih hq

end Prog

open Prog

/-- A run of a program from a state to its outcome and another state. -/
inductive Exec [DecidableEq κ] (M : Meaning ι τ υ κ σ) :
    Prog ι τ υ κ → σ → Outcome → σ → Prop
  | done (s : σ) : Exec M done s .normal s
  | instr {i : ι} {rest : Prog ι τ υ κ} {s s' : σ} {o : Outcome}
      (h : Exec M rest (M.act i s) o s') : Exec M (instr i rest) s o s'
  | iteTrue {t : τ} {thn rest : Prog ι τ υ κ} {s s₁ s' : σ} {o : Outcome}
      (ht : M.test t s = true) (hthn : Exec M thn s .normal s₁) (h : Exec M rest s₁ o s') :
      Exec M (ite t thn rest) s o s'
  | iteLeave {t : τ} {thn rest : Prog ι τ υ κ} {s s' : σ} {o : Outcome}
      (ht : M.test t s = true) (ho : o ≠ .normal) (hthn : Exec M thn s o s') :
      Exec M (ite t thn rest) s o s'
  | iteFalse {t : τ} {thn rest : Prog ι τ υ κ} {s s' : σ} {o : Outcome}
      (ht : M.test t s = false) (h : Exec M rest s o s') : Exec M (ite t thn rest) s o s'
  | iteElse {t : τ} {thn els rest : Prog ι τ υ κ} {s s₁ s' : σ} {o : Outcome}
      (hthn : Exec M (if M.test t s then thn else els) s .normal s₁) (h : Exec M rest s₁ o s') :
      Exec M (iteElse t thn els rest) s o s'
  | iteElseLeave {t : τ} {thn els rest : Prog ι τ υ κ} {s s' : σ} {o : Outcome}
      (ho : o ≠ .normal) (hthn : Exec M (if M.test t s then thn else els) s o s') :
      Exec M (iteElse t thn els rest) s o s'
  | loopNext {body rest : Prog ι τ υ κ} {s s₁ s' : σ} {o o' : Outcome}
      (ho : o' = .normal ∨ o' = .cont) (hbody : Exec M body s o' s₁)
      (h : Exec M (loop body rest) s₁ o s') : Exec M (loop body rest) s o s'
  | loopBreak {body rest : Prog ι τ υ κ} {s s₁ s' : σ} {o : Outcome}
      (hbody : Exec M body s .brk s₁) (h : Exec M rest s₁ o s') : Exec M (loop body rest) s o s'
  | brk {rest : Prog ι τ υ κ} (s : σ) : Exec M (brk rest) s .brk s
  | cont {rest : Prog ι τ υ κ} (s : σ) : Exec M (cont rest) s .cont s
  | switchNone {u : υ} {body rest : Prog ι τ υ κ} {s s' : σ} {o : Outcome}
      (hu : (M.value u s).bind (body.select ·) = none) (h : Exec M rest s o s') :
      Exec M (switch u body rest) s o s'
  | switch {u : υ} {v : κ} {body q rest : Prog ι τ υ κ} {s s₁ s' : σ} {o o' : Outcome}
      (hu : M.value u s = some v) (hq : body.select v = some q)
      (ho : o' = .normal ∨ o' = .endCase) (hbody : Exec M q s o' s₁) (h : Exec M rest s₁ o s') :
      Exec M (switch u body rest) s o s'
  | switchLeave {u : υ} {v : κ} {body q rest : Prog ι τ υ κ} {s s' : σ} {o : Outcome}
      (hu : M.value u s = some v) (hq : body.select v = some q)
      (ho : o = .brk ∨ o = .cont) (hbody : Exec M q s o s') : Exec M (switch u body rest) s o s'
  | case {k : κ} {rest : Prog ι τ υ κ} {s s' : σ} {o : Outcome} (h : Exec M rest s o s') :
      Exec M (case k rest) s o s'
  | default {rest : Prog ι τ υ κ} {s s' : σ} {o : Outcome} (h : Exec M rest s o s') :
      Exec M (default rest) s o s'
  | endCase {rest : Prog ι τ υ κ} (s : σ) : Exec M (endCase rest) s .endCase s

end Synchronet.Structured
