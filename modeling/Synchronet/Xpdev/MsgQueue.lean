import Synchronet.Xpdev.LinkListSeq
import Mathlib.Algebra.BigOperators.Group.Finset.Basic
import Mathlib.Data.Fintype.Basic

/-!
# Message queues

A queue of `msg_queue.c` is one list, or two when it is bi-directional, each with a semaphore.
Threads call the queue's functions and run them one list operation at a time, so that the
operations of several threads interleave; waits that a signal interrupts are left out.

As long as `msgQueueFind` finds nothing, and a read whose wait timed out finds the list still
empty, the semaphore counts the messages that no thread has waited for.
-/

namespace Synchronet.Xpdev

open DoublyLinked

/-- A list that is made with `LINK_LIST_SEMAPHORE`. -/
structure SemList (α : Type) where
  nodes : NodeSeq α
  sem : ℕ

/-- The two lists of a queue. -/
inductive Side
  | inList
  | outList
deriving DecidableEq

/-- Where a thread stands in the function that it runs. -/
inductive Phase
  | idle
  | waitPost
  | readShift (waited : Bool)
  | peekPost
  | peekFirst
  | peekData (node : Option ℕ)
  | findRemove (node : ℕ)
deriving DecidableEq

/-- What a function returns. -/
inductive Reply (α : Type)
  | write (ok : Bool)
  | wait (ok : Bool)
  | read (data : Option α)
  | peek (data : Option α)
  | find (data : Option α)
deriving DecidableEq

/-- What a thread does: it calls a function, or it goes on in the one that it runs.  A write comes
with the copy of the message and the node that it allocates. -/
inductive Act (α : Type)
  | msgQueueWrite (buf : Option α) (malloc : Option ℕ)
  | msgQueueWait (timeout : ℤ)
  | msgQueueRead (timeout : ℤ)
  | msgQueuePeek (timeout : ℤ)
  | msgQueueFind (equal : α → Bool)
  | resume

structure MsgQueue (α T : Type) where
  lists : Side → SemList α
  owner : T
  bidir : Bool
  phase : T → Phase

variable {α T : Type} [DecidableEq T]

namespace MsgQueue

/-- The queue that `msgQueueInit` makes. -/
def msgQueueInit (owner : T) (bidir : Bool) : MsgQueue α T :=
  ⟨fun _ ↦ ⟨[], 0⟩, owner, bidir, fun _ ↦ .idle⟩

/-- `msgQueueReadList` -/
def msgQueueReadList (q : MsgQueue α T) (t : T) : Side :=
  if q.bidir && q.owner = t then .inList else .outList

/-- `msgQueueWriteList` -/
def msgQueueWriteList (q : MsgQueue α T) (t : T) : Side :=
  if !q.bidir || q.owner = t then .outList else .inList

/-- `list_wait`, which takes a unit of the semaphore, times out, or blocks. -/
def listWait (list : SemList α) (timeout : ℤ) : Option (SemList α × Bool) :=
  if 0 < list.sem then some ({ list with sem := list.sem - 1 }, true)
  else if timeout < 0 then none
  else some (list, false)

/-- `listPushNodeData`, which posts the semaphore. -/
def listPushNodeData (list : SemList α) : Option α → Option ℕ → SemList α × Bool
  | some buf, some a =>
      (⟨list.nodes.splice [(a, ⟨some buf, listNodeTagDefault, false, true⟩)] .last,
        list.sem + 1⟩, true)
  | _, _ => (list, false)

/-- What a thread does to the list that it reads from, with its next phase and what it returns. -/
def readStep (list : SemList α) (phase : Phase) (act : Act α) :
    Option (SemList α × Phase × Option (Reply α)) :=
  match phase, act with
  | .idle, .msgQueueWait timeout => do
      let (list, waited) ← listWait list timeout
      if waited then some (list, .waitPost, none) else some (list, .idle, some (.wait false))
  | .idle, .msgQueueRead timeout => do
      let (list, waited) ← listWait list timeout
      some (list, .readShift waited, none)
  | .idle, .msgQueuePeek timeout => do
      let (list, waited) ← listWait list timeout
      some (list, if waited then .peekPost else .peekFirst, none)
  | .idle, .msgQueueFind equal =>
      match list.nodes.find? fun x ↦ x.2.data.any equal with
      | none => some (list, .idle, some (.find none))
      | some x => some (list, .findRemove x.1, none)
  | .waitPost, .resume => some ({ list with sem := list.sem + 1 }, .idle, some (.wait true))
  | .readShift _, .resume =>
      some ({ list with nodes := list.nodes.remove .first }, .idle,
        some (.read (list.nodes.head?.bind fun x ↦ x.2.data)))
  | .peekPost, .resume => some ({ list with sem := list.sem + 1 }, .peekFirst, none)
  | .peekFirst, .resume => some (list, .peekData (first list.nodes), none)
  | .peekData none, .resume => some (list, .idle, some (.peek none))
  | .peekData (some a), .resume => do
      let x ← list.nodes.lookup a
      some (list, .idle, some (.peek x.data))
  | .findRemove a, .resume => do
      let x ← list.nodes.lookup a
      some ({ list with nodes := list.nodes.remove (.node a) }, .idle, some (.find x.data))
  | _, _ => none

/-- One list operation of a thread.  There is none when the thread is blocked, when the function
is not one that it can run, or when it would touch a node that is freed. -/
def step (q : MsgQueue α T) (t : T) : Act α → Option (MsgQueue α T × Option (Reply α))
  | .msgQueueWrite buf malloc =>
      if q.phase t = .idle then
        let side := q.msgQueueWriteList t
        let (list, ok) := listPushNodeData (q.lists side) buf malloc
        some ({ q with lists := Function.update q.lists side list }, some (.write ok))
      else none
  | act => do
      let side := q.msgQueueReadList t
      let (list, phase, reply) ← readStep (q.lists side) (q.phase t) act
      some ({ q with
        lists := Function.update q.lists side list
        phase := Function.update q.phase t phase }, reply)

/-- A run of threads and their actions, with what the functions return. -/
def run (q : MsgQueue α T) : List (T × Act α) → Option (MsgQueue α T × List (T × Reply α))
  | [] => some (q, [])
  | (t, act) :: steps => do
      let (q, reply) ← q.step t act
      let (q, replies) ← q.run steps
      some (q, (reply.map fun reply ↦ (t, reply)).toList ++ replies)

end MsgQueue

end Synchronet.Xpdev
