import Synchronet.Lib.Doorbell
import Synchronet.Xpdev.Genwrap

/-!
# Short messages (userdat.c, getnode.cpp)

`putsmsg` and `putnmsg` append to the file of a user or a node and then set a flag in the records
of the nodes; `getsmsg` and `getnmsg` clear the flags and then empty the file.  Any number of
processes may do so at a time, under the locks of the file (`nopen`) and of the records
(`getnodedat`).
-/

namespace Synchronet.Sbbs3.ShortMessages

open Xpdev

/-- `node_t` -/
structure Node where
  status : UInt8
  errors : UInt8
  action : UInt8
  useron : UInt16
  connection : UInt16
  misc : UInt16
  aux : UInt16
  extaux : UInt32
  deriving DecidableEq

abbrev NODE_INUSE : UInt8 := 3
abbrev NODE_QUIET : UInt8 := 4
abbrev NODE_MSGW : UInt16 := 0x0008
abbrev NODE_NMSG : UInt16 := 0x0800

/-- Whom a message is for. -/
inductive Addressee
  | user (usernumber : ℕ)
  | node (num : ℕ)

def Addressee.flag : Addressee → UInt16
  | .user _ => NODE_MSGW
  | .node _ => NODE_NMSG

/-- The nodes whose records the calls visit. -/
def Addressee.nodes (sysNodes : ℕ) : Addressee → List ℕ
  | .user _ => List.range' 1 sysNodes
  | .node num => [num]

/-- Whether the addressee is on the node of the record. -/
def Addressee.there (r : Node) : Addressee → Bool
  | .user usernumber =>
      r.useron.toNat = usernumber ∧ (r.status = NODE_INUSE ∨ r.status = NODE_QUIET)
  | .node _ => r.status = NODE_INUSE ∨ r.status = NODE_QUIET

def Addressee.rung (a : Addressee) (r : Node) : Bool := r.misc &&& a.flag ≠ 0

/-- `getsmsg` and `getnmsg` of the programs and those of the console. -/
inductive Reader
  | program
  | console
  deriving DecidableEq

/-- Whether a record that has been read is locked and read again. -/
def Addressee.looks (r : Node) : Addressee → Reader → Bool
  | .user usernumber, .program =>
      (Addressee.user usernumber).there r && (Addressee.user usernumber).rung r
  | .user usernumber, .console => r.useron.toNat = usernumber
  | .node _, _ => true

/-- The record with its flag cleared. -/
def Addressee.clear (a : Addressee) (r : Node) : Node := { r with misc := r.misc &&& ~~~a.flag }

/-- What is written then. -/
def Addressee.stop (r : Node) : Addressee → Reader → Node
  | .user usernumber, .console =>
      if (Addressee.user usernumber).there r && (Addressee.user usernumber).rung r then
        (Addressee.user usernumber).clear r
      else r
  | a, _ => a.clear r

theorem Addressee.there_clear (a : Addressee) (r : Node) : a.there (a.clear r) = a.there r := by
  cases a <;> rfl

theorem Addressee.there_stop (a : Addressee) (k : Reader) (r : Node) :
    a.there (a.stop r k) = a.there r := by
  cases a <;> cases k <;> simp only [Addressee.stop]
  case user.console =>
    split
    · exact Addressee.there_clear _ r
    · rfl
  all_goals exact Addressee.there_clear _ r

/-- What others do to a record under its lock: neither the user nor the flag changes. -/
def Edit (a : Addressee) : Type :=
  { f : Node → Node // ∀ r, a.rung (f r) = a.rung r ∧ a.there (f r) = a.there r }

theorem or_and_flag (misc flag : UInt16) : (misc ||| flag) &&& flag = flag := by
  apply UInt16.toBitVec_inj.mp
  apply BitVec.eq_of_getLsbD_eq
  intro i hi
  simp only [UInt16.toBitVec_and, UInt16.toBitVec_or, BitVec.getLsbD_and, BitVec.getLsbD_or]
  cases misc.toBitVec.getLsbD i <;> cases flag.toBitVec.getLsbD i <;> rfl

theorem Addressee.flag_ne_zero (a : Addressee) : a.flag ≠ 0 := by
  cases a with
  | user usernumber => exact (by decide : NODE_MSGW ≠ 0)
  | node num => exact (by decide : NODE_NMSG ≠ 0)

/-- What the calls do with the records. -/
def messages (sysNodes : ℕ) (a : Addressee) : Doorbell.System ℕ Node Reader (Edit a) where
  bells := a.nodes sysNodes
  there r := a.there r
  rung := a.rung
  ring r := { r with misc := r.misc ||| a.flag }
  looks k r := a.looks r k
  stop k r := a.stop r k
  apply e r := e.val r
  rung_ring r := by simp [Addressee.rung, or_and_flag, a.flag_ne_zero]
  there_ring r := by cases a <;> rfl
  there_stop k r := a.there_stop k r
  rung_apply e r := (e.property r).1
  there_apply e r := (e.property r).2

/-- User 5 on node 1. -/
def oneNode (_ : ℕ) : Node := ⟨NODE_INUSE, 0, 0, 5, 0xffff, 0, 0, 0⟩

end Synchronet.Sbbs3.ShortMessages
