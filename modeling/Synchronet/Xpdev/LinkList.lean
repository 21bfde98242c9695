import Synchronet.Lib.DoublyLinked
import Mathlib.Data.Int.Notation
import Mathlib.Data.List.Basic

/-!
# Linked lists

The node heap of one `link_list_t` and the functions of `link_list.c` that change it.  An
access to a node that has been freed has no result.  Node data are pointers, so releasing
what they point to (`LINK_LIST_ALWAYS_FREE`) does not show; the list's mutex and semaphore
are left out.
-/

namespace Synchronet.Xpdev

open DoublyLinked

/-- The members of a `list_node_t` besides its links. -/
structure NodeInfo (α : Type) where
  data : Option α
  tag : ℤ
  locked : Bool
  malloc : Bool
deriving DecidableEq

structure LinkList (α : Type) where
  heap : Heap (NodeInfo α)
  first : Option ℕ
  last : Option ℕ
  count : ℕ

/-- A node that a function is given: `FIRST_NODE`, `LAST_NODE` or a pointer. -/
inductive Place
  | first
  | last
  | node (a : ℕ)
deriving DecidableEq

/-- `LIST_NODE_TAG_DEFAULT` -/
def listNodeTagDefault : ℤ := 0

variable {α : Type}

namespace LinkList

/-- The list that `listInit` makes. -/
def listInit : LinkList α := ⟨fun _ ↦ none, none, none, 0⟩

/-- The node behind which a node is added. -/
def after (list : LinkList α) : Place → Option ℕ
  | .first => none
  | .last => list.last
  | .node a => some a

/-- The node that is removed. -/
def nodeAt (list : LinkList α) : Place → Option ℕ
  | .first => list.first
  | .last => list.last
  | .node a => some a

/-! ## Adding nodes -/

/-- `list_add_node`, for a node at a fresh address. -/
def linkNode (list : LinkList α) (a : ℕ) (info : NodeInfo α) (place : Place) :
    Option (LinkList α) :=
  let last := if list.after place = list.last then some a else list.last
  match list.after place with
  | none => do
      let heap ← setPrev (Function.update list.heap a (some ⟨info, none, list.first⟩))
        list.first (some a)
      some ⟨heap, some a, last, list.count + 1⟩
  | some b => do
      let node ← list.heap b
      let heap ← setPrev (Function.update list.heap a (some ⟨info, some b, node.next⟩))
        node.next (some a)
      let heap ← setNext heap (some b) (some a)
      some ⟨heap, list.first, last, list.count + 1⟩

/-- `listAddNode`, where `malloc` gives the node's address or fails. -/
def listAddNode (list : LinkList α) (data : Option α) (tag : ℤ) (place : Place)
    (malloc : Option ℕ) : Option (LinkList α × Option ℕ) :=
  match malloc with
  | none => some (list, none)
  | some a => do
      let list ← list.linkNode a ⟨data, tag, false, false⟩ place
      some (list, some a)

/-- `listAddNodeString`, where `strdup` gives the copy of the string or fails. -/
def listAddNodeString (list : LinkList α) (strdup : Option α) (tag : ℤ) (place : Place)
    (malloc : Option ℕ) : Option (LinkList α × Option ℕ) :=
  match strdup with
  | none => some (list, none)
  | some buf => do
      let (list, node) ← list.listAddNode (some buf) tag place malloc
      match node with
      | none => some (list, none)
      | some a => do
          let heap ← modifyCell list.heap a fun c ↦ { c with payload.malloc := true }
          some ({ list with heap }, some a)

/-- One entry of the arrays that `listAddNodes` is given, with the address for its node.  Without
an array of tags each tag is the default one. -/
structure NodeItem (α : Type) where
  data : α
  tag : ℤ := listNodeTagDefault
  malloc : Option ℕ

/-- `listAddNodes`: each node goes behind the one before. -/
def listAddNodes (list : LinkList α) (items : List (NodeItem α)) (place : Place) :
    Option (LinkList α × ℕ) :=
  match items with
  | [] => some (list, 0)
  | item :: items => do
      match ← list.listAddNode (some item.data) item.tag place item.malloc with
      | (list, none) => some (list, 0)
      | (list, some node) => do
          let (list, i) ← list.listAddNodes items (.node node)
          some (list, i + 1)

/-- One string of a list with its tag, what `strdup` makes of it and the address for its node. -/
structure StringItem (α : Type) where
  strdup : Option α
  tag : ℤ := listNodeTagDefault
  malloc : Option ℕ

/-- `listAddStringList` -/
def listAddStringList (list : LinkList α) (items : List (StringItem α)) (place : Place) :
    Option (LinkList α × ℕ) :=
  match items with
  | [] => some (list, 0)
  | item :: items => do
      match ← list.listAddNodeString item.strdup item.tag place item.malloc with
      | (list, none) => some (list, 0)
      | (list, some node) => do
          let (list, i) ← list.listAddStringList items (.node node)
          some (list, i + 1)

/-! ## Finding and removing nodes -/

/-- The loop of `listFindNode`; a list of `fuel` nodes is searched completely. -/
def findLoop (heap : Heap (NodeInfo α)) (p : NodeInfo α → Bool) :
    ℕ → Option ℕ → Option (Option ℕ)
  | _, none => some none
  | 0, some _ => none
  | fuel + 1, some a => do
      let node ← heap a
      if p node.payload then some (some a) else findLoop heap p fuel node.next

/-- `listFindTaggedNode`, which is `listFindNode` with no data and the tag as length: with the
tag 0 the data pointers are compared. -/
def listFindTaggedNode (list : LinkList α) (tag : ℤ) : Option (Option ℕ) :=
  findLoop list.heap
    (fun node ↦ if tag = 0 then node.data.isNone else decide (node.tag = tag))
    list.count list.first

/-- `list_remove_node` and `listRemoveNode` -/
def listRemoveNode (list : LinkList α) (place : Place) (freeData : Bool) :
    Option (LinkList α × Option α) :=
  match list.nodeAt place with
  | none => some (list, none)
  | some a => do
      let node ← list.heap a
      if node.payload.locked then
        some (list, none)
      else
        let heap ← setNext list.heap node.prev node.next
        let heap ← setPrev heap node.next node.prev
        let first := if list.first = some a then node.next else list.first
        let last := if list.last = some a then node.prev else list.last
        let data := if freeData then none else node.payload.data
        some (⟨Function.update heap a none, first, last, list.count - 1⟩, data)

/-- `listRemoveTaggedNode` -/
def listRemoveTaggedNode (list : LinkList α) (tag : ℤ) (freeData : Bool) :
    Option (LinkList α × Option α) := do
  match ← list.listFindTaggedNode tag with
  | none => some (list, none)
  | some a => list.listRemoveNode (.node a) freeData

/-- The loop of `listFreeNodes`, which stops at a locked node and frees each node before it. -/
def freeLoop (heap : Heap (NodeInfo α)) (count : ℕ) :
    ℕ → Option ℕ → Option (Heap (NodeInfo α) × ℕ × Option ℕ)
  | _, none => some (heap, count, none)
  | 0, some _ => none
  | fuel + 1, some a => do
      let node ← heap a
      if node.payload.locked then
        some (heap, count, some a)
      else
        freeLoop (Function.update heap a none) (count - 1) fuel node.next

/-- `listFreeNodes` -/
def listFreeNodes (list : LinkList α) : Option (LinkList α × ℕ) := do
  let (heap, count, node) ← freeLoop list.heap list.count list.count list.first
  some (⟨heap, node, if count = 0 then none else list.last, count⟩, count)

/-! ## Nodes in place -/

/-- `listLockNode` -/
def listLockNode (list : LinkList α) (node : Option ℕ) : Option (LinkList α × Bool) :=
  match node with
  | none => some (list, false)
  | some a => do
      let node ← list.heap a
      if node.payload.locked then
        some (list, false)
      else
        let heap ← modifyCell list.heap a fun c ↦ { c with payload.locked := true }
        some ({ list with heap }, true)

/-- `listUnlockNode` -/
def listUnlockNode (list : LinkList α) (node : Option ℕ) : Option (LinkList α × Bool) :=
  match node with
  | none => some (list, false)
  | some a => do
      let node ← list.heap a
      if node.payload.locked then
        let heap ← modifyCell list.heap a fun c ↦ { c with payload.locked := false }
        some ({ list with heap }, true)
      else
        some (list, false)

/-- `listSwapNodes`, which swaps what the nodes hold and leaves their links. -/
def listSwapNodes (list : LinkList α) (node₁ node₂ : Option ℕ) : Option (LinkList α × Bool) :=
  match node₁, node₂ with
  | some a, some b =>
      if a = b then
        some (list, false)
      else do
        let node₁ ← list.heap a
        let node₂ ← list.heap b
        if node₁.payload.locked || node₂.payload.locked then
          some (list, false)
        else
          let heap ← modifyCell list.heap a fun c ↦ { c with payload := node₂.payload }
          let heap ← modifyCell heap b fun c ↦ { c with payload := node₁.payload }
          some ({ list with heap }, true)
  | _, _ => some (list, false)

end LinkList

end Synchronet.Xpdev
