import Mathlib.Data.FinEnum
import Mathlib.Data.Set.Finite.Range
import Synchronet.Lib.Walk
import Synchronet.Smblib.HeaderFile
import Synchronet.Smblib.Index

/-!
# Walking through threads (smblib.c)

The header of a message names the message it replies to, its first reply and the next reply to
the same message.  These walks follow the numbers from header to header, whatever the headers
hold.
-/

namespace Synchronet.Smblib

open Walk (run Ends Next Meets Clear)

/-- `smb_getmsgidx` and `smb_getmsghdr` for a number, as the walks call them one after the other;
`none` when they do not return, and no header when one of them fails. -/
def threadHdr (smb : Smb) (number : UInt32) : Option (Option MsgHdr) :=
  match smbGetmsgidx smb.sid { hdr := { number := number } } with
  | .error _ => some none
  | .ok msg =>
      match smbGetmsghdr smb.status smb.shd msg with
      | none => none
      | some (.error _) => some none
      | some (.ok msg) => some (some { msg.hdr with totalDfields := 0 })

/-! ## To the first message -/

/-- One turn of the loop of `smb_first_in_thread`: the number and `thread_back` of the message
it stands at, and what has been stored through `hdr`. -/
def backTurn (smb : Smb) : UInt32 × UInt32 × Option MsgHdr →
    Option ((UInt32 × UInt32 × Option MsgHdr) ⊕ (UInt32 × Option MsgHdr))
  | (number, threadBack, hdr) =>
      if threadBack ≠ 0 ∧ threadBack < number then
        (threadHdr smb threadBack).map fun found ↦
          match found with
          | none => .inr (number, hdr)
          | some h => .inl (h.number, h.threadBack, some h)
      else some (.inr (number, hdr))

/-- `smb_first_in_thread`, with at most `n` turns of its loop: the number that it returns and
the header that it stores through `hdr`. -/
def smbFirstInThread (smb : Smb) (n : ℕ) (remsg : MsgHdr) : Option (UInt32 × Option MsgHdr) :=
  if remsg.threadBack = 0 then some (remsg.number, some remsg)
  else
    match if remsg.threadId ≠ 0 then threadHdr smb remsg.threadId else some none with
    | none => none
    | some (some h) => some (h.number, some h)
    | some none => run (backTurn smb) n (remsg.number, remsg.threadBack, none)

/-! ## To the last message -/

/-- `smb_next_in_thread`: what it returns and the header that it stores through `hdr`. -/
def smbNextInThread (smb : Smb) (remsg : MsgHdr) : Option (UInt32 × Option MsgHdr) :=
  (threadHdr smb remsg.number).map fun found ↦
    match found with
    | none => (0, none)
    | some h => (if h.threadNext ≤ h.number then 0 else h.threadNext, some h)

/-- One turn of the loop of `smb_last_in_branch`, with `msg.hdr`.  Where the loop ends, the
function calls itself for the message it has come to, which ends there or comes back to the
loop. -/
def branchTurn (smb : Smb) (hdr : MsgHdr) : Option (MsgHdr ⊕ UInt32) :=
  (smbNextInThread smb hdr).map fun (next, stored) ↦
    let hdr := stored.getD hdr
    if next ≠ 0 then .inl { hdr with number := next }
    else if hdr.threadFirst = 0 then .inr hdr.number
    else .inl { number := hdr.threadFirst }

/-- `smb_last_in_branch`, with at most `n` turns. -/
def smbLastInBranch (smb : Smb) (n : ℕ) (remsg : MsgHdr) : Option UInt32 :=
  if remsg.threadFirst = 0 then some remsg.number
  else run (branchTurn smb) n { number := remsg.threadFirst }

/-- `smb_last_in_thread`, with at most `n` turns of each walk. -/
def smbLastInThread (smb : Smb) (n : ℕ) (remsg : MsgHdr) : Option UInt32 :=
  match smbFirstInThread smb n remsg with
  | none => none
  | some (first, hdr) =>
      if first = 0 then some remsg.number else smbLastInBranch smb n (hdr.getD {})

/-! ## When the walks end -/

/-- The index holds a message of this number. -/
def Indexed (smb : Smb) (number : UInt32) : Prop := ∃ idx ∈ smb.sid, idx.number = number

/-- The way back from a message is clear and leads to a result that passes the test. -/
def FirstClear (smb : Smb) (remsg : MsgHdr) (p : UInt32 × Option MsgHdr → Prop) : Prop :=
  if remsg.threadBack = 0 then p (remsg.number, some remsg)
  else
    match if remsg.threadId ≠ 0 then threadHdr smb remsg.threadId else some none with
    | none => False
    | some (some h) => p (h.number, some h)
    | some none => Walk.ClearTo (backTurn smb) (remsg.number, remsg.threadBack, none) p

/-- The way down from a message is clear and leads to a message of the index. -/
def BranchClear (smb : Smb) (remsg : MsgHdr) : Prop :=
  if remsg.threadFirst = 0 then Indexed smb remsg.number
  else Walk.ClearTo (branchTurn smb) { number := remsg.threadFirst } (Indexed smb)

/-- The ways back and down from a message and down from the first message of its thread. -/
structure ThreadClear (smb : Smb) (remsg : MsgHdr) : Prop where
  own : threadHdr smb remsg.number ≠ none
  back : FirstClear smb remsg fun first ↦ Indexed smb first.1
  down : BranchClear smb remsg
  thread : FirstClear smb remsg fun first ↦
    if first.1 = 0 then Indexed smb remsg.number else BranchClear smb (first.2.getD {})

/-- All four walks from a message return, and those that return a message return one of the
index. -/
structure WalksReturn (smb : Smb) (remsg : MsgHdr) : Prop where
  first : ∃ n first, smbFirstInThread smb n remsg = some first ∧ Indexed smb first.1
  next : ∃ next, smbNextInThread smb remsg = some next
  lastInBranch : ∃ n last, smbLastInBranch smb n remsg = some last ∧ Indexed smb last
  lastInThread : ∃ n last, smbLastInThread smb n remsg = some last ∧ Indexed smb last

theorem backTurn_finite (smb : Smb) : {t | ∃ s, Next (backTurn smb) s t}.Finite := by
  refine (Set.finite_range fun number : UInt32 ↦
    let h := ((threadHdr smb number).getD none).getD {}
    (h.number, h.threadBack, some h)).subset ?_
  rintro t ⟨⟨number, threadBack, hdr⟩, hnext⟩
  refine ⟨threadBack, ?_⟩
  simp only [Next, backTurn] at hnext
  split at hnext
  case isTrue =>
    cases hread : threadHdr smb threadBack with
    | none => simp [hread] at hnext
    | some found =>
        cases found with
        | none => simp [hread] at hnext
        | some h => simpa [hread] using hnext
  case isFalse => simp at hnext

theorem branchTurn_finite (smb : Smb) : {t | ∃ s, Next (branchTurn smb) s t}.Finite := by
  have hsibling := Set.finite_range fun place : UInt32 × UInt32 ↦
    (fun h : MsgHdr ↦ { h with number := place.2 }) (((threadHdr smb place.1).getD none).getD {})
  have hfirst := Set.finite_range fun number : UInt32 ↦ ({ number := number } : MsgHdr)
  refine (hsibling.union hfirst).subset ?_
  rintro t ⟨hdr, hnext⟩
  cases hread : threadHdr smb hdr.number with
  | none => simp [Next, branchTurn, smbNextInThread, hread] at hnext
  | some found =>
      cases found with
      | none =>
          simp only [Next, branchTurn, smbNextInThread, hread, Option.map_some] at hnext
          split at hnext
          case isTrue hzero => simp at hzero
          case isFalse =>
            split at hnext
            case isTrue => cases hnext
            case isFalse => exact .inr ⟨_, Sum.inl.inj (Option.some.inj hnext)⟩
      | some h =>
          simp only [Next, branchTurn, smbNextInThread, hread, Option.map_some,
            Option.getD_some, Option.some.injEq] at hnext
          generalize (if h.threadNext ≤ h.number then 0 else h.threadNext) = next at hnext
          split at hnext
          case isTrue =>
            refine .inl ⟨(hdr.number, next), ?_⟩
            simp only [hread, Option.getD_some]
            exact Sum.inl.inj hnext
          case isFalse =>
            split at hnext
            case isTrue => cases hnext
            case isFalse => exact .inr ⟨_, Sum.inl.inj hnext⟩

variable {smb : Smb} {remsg : MsgHdr}

theorem smbFirstInThread_iff {p : UInt32 × Option MsgHdr → Prop} :
    (∃ n first, smbFirstInThread smb n remsg = some first ∧ p first) ↔
      FirstClear smb remsg p := by
  simp only [smbFirstInThread, FirstClear]
  split
  case isTrue => simp
  case isFalse =>
    split
    · simp
    · simp
    · rw [← Walk.exists_ends_and_iff (backTurn_finite smb)]
      exact ⟨fun ⟨n, first, hrun, hp⟩ ↦ ⟨first, ⟨n, hrun⟩, hp⟩,
        fun ⟨first, ⟨n, hrun⟩, hp⟩ ↦ ⟨n, first, hrun, hp⟩⟩

theorem smbLastInBranch_iff :
    (∃ n last, smbLastInBranch smb n remsg = some last ∧ Indexed smb last) ↔
      BranchClear smb remsg := by
  simp only [smbLastInBranch, BranchClear]
  split
  case isTrue => simp
  case isFalse =>
    rw [← Walk.exists_ends_and_iff (branchTurn_finite smb)]
    exact ⟨fun ⟨n, last, hrun, hp⟩ ↦ ⟨last, ⟨n, hrun⟩, hp⟩,
      fun ⟨last, ⟨n, hrun⟩, hp⟩ ↦ ⟨n, last, hrun, hp⟩⟩

theorem smbFirstInThread_mono {n m : ℕ} {first : UInt32 × Option MsgHdr}
    (h : smbFirstInThread smb n remsg = some first) (hnm : n ≤ m) :
    smbFirstInThread smb m remsg = some first := by
  simp only [smbFirstInThread] at h ⊢
  split at h
  case isTrue hback => rwa [if_pos hback]
  case isFalse hback =>
    rw [if_neg hback]
    split at h
    · cases h
    · exact h
    · exact Walk.run_mono h hnm

theorem smbLastInBranch_mono {n m : ℕ} {last : UInt32}
    (h : smbLastInBranch smb n remsg = some last) (hnm : n ≤ m) :
    smbLastInBranch smb m remsg = some last := by
  simp only [smbLastInBranch] at h ⊢
  split at h
  case isTrue hfirst => rwa [if_pos hfirst]
  case isFalse hfirst =>
    rw [if_neg hfirst]
    exact Walk.run_mono h hnm

theorem smbLastInThread_iff :
    (∃ n last, smbLastInThread smb n remsg = some last ∧ Indexed smb last) ↔
      FirstClear smb remsg fun first ↦
        if first.1 = 0 then Indexed smb remsg.number else BranchClear smb (first.2.getD {}) := by
  rw [← smbFirstInThread_iff]
  constructor
  · rintro ⟨n, last, hlast, hindexed⟩
    rw [smbLastInThread] at hlast
    cases hfirst : smbFirstInThread smb n remsg with
    | none => simp [hfirst] at hlast
    | some first =>
        refine ⟨n, first, hfirst, ?_⟩
        simp only [hfirst] at hlast
        split at hlast
        case isTrue hzero =>
          rw [if_pos hzero, Option.some.inj hlast]
          exact hindexed
        case isFalse hzero =>
          rw [if_neg hzero]
          exact smbLastInBranch_iff.mp ⟨n, last, hlast, hindexed⟩
  · rintro ⟨n, first, hfirst, hp⟩
    split at hp
    case isTrue hzero => exact ⟨n, remsg.number, by simp [smbLastInThread, hfirst, hzero], hp⟩
    case isFalse hzero =>
      obtain ⟨m, last, hlast, hindexed⟩ := smbLastInBranch_iff.mpr hp
      refine ⟨max n m, last, ?_, hindexed⟩
      have hfirst' := smbFirstInThread_mono hfirst (le_max_left n m)
      have hlast' := smbLastInBranch_mono hlast (le_max_right n m)
      simp [smbLastInThread, hfirst', hzero, hlast']

/-- Every header can be read to its end and carries the number under which it is looked up. -/
structure Numbered (smb : Smb) : Prop where
  reads : ∀ number, threadHdr smb number ≠ none
  number_eq : ∀ number h, number ≠ 0 → threadHdr smb number = some (some h) → h.number = number

/-- A header that is read by its number is that of a message of the index. -/
theorem indexed_of_threadHdr {number : UInt32} {h : MsgHdr} (hnum : number ≠ 0)
    (hread : threadHdr smb number = some (some h)) : Indexed smb number := by
  rw [threadHdr] at hread
  cases hidx : smbGetmsgidx smb.sid { hdr := { number := number } } with
  | error code => simp [hidx] at hread
  | ok msg =>
      obtain ⟨i, idx, hget, hnumber, -⟩ := smbGetmsgidx_ok hnum hidx
      exact ⟨idx, List.mem_of_getElem? hget, hnumber⟩

theorem Numbered.next_backTurn (h : Numbered smb) {number threadBack number' back' : UInt32}
    {hdr hdr' : Option MsgHdr}
    (hnext : Next (backTurn smb) (number, threadBack, hdr) (number', back', hdr')) :
    Indexed smb number' ∧ number' < number := by
  simp only [Next, backTurn] at hnext
  split at hnext
  case isTrue hlt =>
    obtain ⟨found, hread, hfound⟩ := Option.map_eq_some_iff.mp hnext
    cases found with
    | none => cases hfound
    | some m =>
        simp only [Sum.inl.injEq, Prod.mk.injEq] at hfound
        rw [← hfound.1, h.number_eq threadBack m hlt.1 hread]
        exact ⟨indexed_of_threadHdr hlt.1 hread, hlt.2⟩
  case isFalse => cases hnext

/-- The way back is clear from every message of the index. -/
theorem Numbered.firstClear (h : Numbered smb) (hremsg : Indexed smb remsg.number) :
    FirstClear smb remsg fun first ↦ Indexed smb first.1 := by
  rw [FirstClear]
  split
  case isTrue => exact hremsg
  case isFalse =>
    split
    case h_1 heq =>
      split at heq
      · exact absurd heq (h.reads _)
      · cases heq
    case h_2 m heq =>
      split at heq
      case isTrue hid =>
        rw [h.number_eq _ m hid heq]
        exact indexed_of_threadHdr hid heq
      case isFalse => cases heq
    case h_3 =>
      refine ⟨⟨?_, ?_⟩, ?_⟩
      · rintro ⟨number, threadBack, hdr⟩ -
        simp only [backTurn]
        split
        · simpa using h.reads threadBack
        · simp
      · intro t _
        apply Walk.not_transGen_of_measure fun s ↦ s.1.toNat
        rintro ⟨number, threadBack, hdr⟩ ⟨number', back', hdr'⟩ hnext
        exact UInt32.lt_iff_toNat_lt.mp (h.next_backTurn hnext).2
      · rintro ⟨number, threadBack, hdr⟩ r hmeets hturn
        have hindexed : Indexed smb number := by
          refine hmeets.inv (P := fun s ↦ Indexed smb s.1) ?_ hremsg
          rintro ⟨_, _, _⟩ ⟨_, _, _⟩ - hnext
          exact (h.next_backTurn hnext).1
        simp only [backTurn] at hturn
        split at hturn
        case isTrue =>
          obtain ⟨found, -, hfound⟩ := Option.map_eq_some_iff.mp hturn
          cases found with
          | none =>
              obtain rfl := Sum.inr.inj hfound
              exact hindexed
          | some m => cases hfound
        case isFalse =>
          obtain rfl := Sum.inr.inj (Option.some.inj hturn)
          exact hindexed

/-! ## A message that is its own first reply -/

/-- Its number and its first reply are 1. -/
def ownReply : MsgHdr where
  id := shdHeaderId
  version := smbVersion
  length := 70
  number := 1
  threadFirst := 1

def ownReplyBase : Smb where
  shd := encodeHdr ownReply ++ List.replicate 186 0
  sid := [{ offset := 32, number := 1 }]

end Synchronet.Smblib
