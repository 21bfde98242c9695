import Synchronet.Xpdev.LinkList
import Mathlib.Data.List.TakeWhile
import Mathlib.Tactic.Cases

/-!
# Linked lists as sequences

A well-formed list holds a sequence of nodes, and each function acts on the sequence.
`listFreeNodes` breaks the list when it stops at a locked node that is not the first, and
`listRemoveTaggedNode` removes another node when the tag is 0.
-/

namespace Synchronet.Xpdev

open DoublyLinked

variable {α : Type}

/-- The nodes in their order, each with its address. -/
abbrev NodeSeq (α : Type) := List (ℕ × NodeInfo α)

/-- The list is well formed and holds the sequence. -/
structure LinkList.Is (list : LinkList α) (seq : NodeSeq α) : Prop where
  linked : Linked list.heap none seq none
  nodup : (places seq).Nodup
  freed : ∀ a, a ∉ places seq → list.heap a = none
  first : list.first = DoublyLinked.first seq
  last : list.last = DoublyLinked.last seq
  count : list.count = seq.length

/-! ## What the functions do to a sequence -/

namespace NodeSeq

/-- A block of nodes is inserted behind a node. -/
def spliceAfter (a : ℕ) (block : NodeSeq α) : NodeSeq α → NodeSeq α
  | [] => []
  | x :: seq => if x.1 = a then x :: (block ++ seq) else x :: spliceAfter a block seq

/-- A block of nodes is inserted at a place. -/
def splice (seq block : NodeSeq α) : Place → NodeSeq α
  | .first => block ++ seq
  | .last => seq ++ block
  | .node a => spliceAfter a block seq

/-- The first node with a property is removed, unless it is locked. -/
def unlink (p : ℕ × NodeInfo α → Bool) : NodeSeq α → NodeSeq α
  | [] => []
  | x :: seq => if p x then (if x.2.locked then x :: seq else seq) else x :: unlink p seq

/-- The node at a place is removed, unless it is locked. -/
def remove (seq : NodeSeq α) : Place → NodeSeq α
  | .first => unlink (fun _ ↦ true) seq
  | .last => (unlink (fun _ ↦ true) seq.reverse).reverse
  | .node a => unlink (fun x ↦ x.1 = a) seq

/-- What a node holds is changed. -/
def modify (seq : NodeSeq α) (a : ℕ) (f : NodeInfo α → NodeInfo α) : NodeSeq α :=
  seq.map fun x ↦ (x.1, if x.1 = a then f x.2 else x.2)

/-- Two nodes that are not locked swap what they hold. -/
def swap (seq : NodeSeq α) (a b : ℕ) : NodeSeq α :=
  match seq.lookup a, seq.lookup b with
  | some x, some y =>
      if x.locked || y.locked then seq else (seq.modify a fun _ ↦ y).modify b fun _ ↦ x
  | _, _ => seq

/-- The nodes before the first locked one are freed. -/
def free (seq : NodeSeq α) : NodeSeq α := seq.dropWhile fun x ↦ !x.2.locked

variable {xs ys block seq : NodeSeq α} {a : ℕ} {x : NodeInfo α}

theorem spliceAfter_append (ha : a ∉ places xs) :
    spliceAfter a block (xs ++ (a, x) :: ys) = xs ++ (a, x) :: (block ++ ys) := by
  induction xs with
  | nil => simp [spliceAfter]
  | cons y xs ih =>
      obtain ⟨hne, ha⟩ := not_or.mp (mt List.mem_cons.mpr ha)
      rw [List.cons_append, spliceAfter, if_neg (Ne.symm hne), ih ha, List.cons_append]

theorem unlink_append {p : ℕ × NodeInfo α → Bool} {y : ℕ × NodeInfo α}
    (hxs : ∀ z ∈ xs, p z = false) (hy : p y = true) :
    unlink p (xs ++ y :: ys) = xs ++ if y.2.locked then y :: ys else ys := by
  induction xs with
  | nil => rw [List.nil_append, List.nil_append, unlink, if_pos hy]
  | cons z xs ih =>
      rw [List.cons_append, unlink, hxs z List.mem_cons_self, if_neg Bool.false_ne_true,
        ih fun w hw ↦ hxs w (List.mem_cons_of_mem z hw), List.cons_append]

theorem unlink_of_not_mem {p : ℕ × NodeInfo α → Bool} (h : ∀ z ∈ seq, p z = false) :
    unlink p seq = seq := by
  induction seq with
  | nil => rfl
  | cons z seq ih =>
      rw [unlink, h z List.mem_cons_self, if_neg Bool.false_ne_true,
        ih fun w hw ↦ h w (List.mem_cons_of_mem z hw)]

theorem ne_of_not_mem_places (ha : a ∉ places xs) :
    ∀ z ∈ xs, decide (z.1 = a) = false := by
  intro z hz
  apply decide_eq_false
  rintro rfl
  exact ha (List.mem_map_of_mem hz)

theorem unlink_place (ha : a ∉ places xs) :
    unlink (fun z ↦ z.1 = a) (xs ++ (a, x) :: ys) =
      xs ++ if x.locked then (a, x) :: ys else ys :=
  unlink_append (ne_of_not_mem_places ha) (decide_eq_true rfl)

@[simp] theorem places_modify (f : NodeInfo α → NodeInfo α) :
    places (seq.modify a f) = places seq := by
  simp [modify, places]

theorem first_modify (f : NodeInfo α → NodeInfo α) :
    DoublyLinked.first (seq.modify a f) = DoublyLinked.first seq := by
  rw [modify, DoublyLinked.first, List.head?_map, Option.map_map]
  rfl

theorem last_modify (f : NodeInfo α → NodeInfo α) :
    DoublyLinked.last (seq.modify a f) = DoublyLinked.last seq := by
  rw [modify, DoublyLinked.last, List.getLast?_map, Option.map_map]
  rfl

theorem modify_of_not_mem (ha : a ∉ places seq) (f : NodeInfo α → NodeInfo α) :
    seq.modify a f = seq := by
  have h : ∀ z ∈ seq, (z.1, if z.1 = a then f z.2 else z.2) = z := by
    intro z hz
    rw [if_neg (of_decide_eq_false (ne_of_not_mem_places ha z hz))]
  exact (List.map_congr_left h).trans (List.map_id seq)

theorem modify_append (hxs : a ∉ places xs) (hys : a ∉ places ys)
    (f : NodeInfo α → NodeInfo α) :
    NodeSeq.modify (xs ++ (a, x) :: ys) a f = xs ++ (a, f x) :: ys := by
  have h := modify_of_not_mem hxs f
  have h' := modify_of_not_mem hys f
  simp only [modify] at h h' ⊢
  rw [List.map_append, List.map_cons, h, h', if_pos rfl]

theorem lookup_append (hxs : a ∉ places xs) : (xs ++ (a, x) :: ys).lookup a = some x := by
  induction xs with
  | nil => exact List.lookup_cons_self
  | cons y xs ih =>
      obtain ⟨hne, ha⟩ := not_or.mp (mt List.mem_cons.mpr hxs)
      rw [List.cons_append, List.lookup_cons, beq_false_of_ne hne]
      exact ih ha

end NodeSeq

/-! ## What the functions do to a list -/

namespace LinkList

variable {list : LinkList α} {xs ys seq : NodeSeq α} {a : ℕ} {x : NodeInfo α}

theorem listInit_is : (listInit : LinkList α).Is [] :=
  ⟨trivial, List.nodup_nil, fun _ _ ↦ rfl, rfl, rfl, rfl⟩

theorem Is.get (h : list.Is (xs ++ (a, x) :: ys)) :
    list.heap a = some ⟨x, DoublyLinked.last xs, DoublyLinked.first ys⟩ := by
  have hget := h.linked.get
  rwa [Option.or_none, Option.or_none] at hget

/-- Where a node of the list stands. -/
theorem Is.split (h : list.Is seq) (ha : a ∈ places seq) :
    ∃ xs x ys, seq = xs ++ (a, x) :: ys ∧ a ∉ places xs ∧ a ∉ places ys := by
  obtain ⟨⟨_, x⟩, hmem, rfl⟩ := List.mem_map.mp ha
  obtain ⟨xs, ys, rfl⟩ := List.append_of_mem hmem
  have hnodup := h.nodup
  rw [places_append, places_cons] at hnodup
  obtain ⟨-, hys, hdisjoint⟩ := List.nodup_append.mp hnodup
  refine ⟨xs, x, ys, rfl, fun hx ↦ ?_, (List.nodup_cons.mp hys).1⟩
  exact hdisjoint _ hx _ List.mem_cons_self rfl

theorem last_insert (hnodup : (places (xs ++ ys)).Nodup) :
    (if DoublyLinked.last xs = DoublyLinked.last (xs ++ ys) then some a
      else DoublyLinked.last (xs ++ ys)) = DoublyLinked.last (xs ++ (a, x) :: ys) := by
  cases ys using List.reverseRecOn with
  | nil => rw [List.append_nil, if_pos rfl, last_append_singleton]
  | append_singleton ys y _ =>
      rw [← List.append_assoc, last_append_singleton, ← List.cons_append, ← List.append_assoc,
        last_append_singleton, if_neg]
      intro hlast
      rw [places_append] at hnodup
      refine (List.nodup_append.mp hnodup).2.2 _ (mem_places_of_last hlast) y.1 ?_ rfl
      simp

/-- The places with one more node in between. -/
theorem nodup_insert (hnodup : (places (xs ++ ys)).Nodup) (ha : a ∉ places (xs ++ ys)) :
    (places (xs ++ (a, x) :: ys)).Nodup := by
  rw [places_append, places_cons]
  rw [places_append] at hnodup ha
  exact List.perm_middle.nodup_iff.mpr (List.nodup_cons.mpr ⟨ha, hnodup⟩)

theorem Is.linkNode (h : list.Is (xs ++ ys)) (ha : a ∉ places (xs ++ ys)) {place : Place}
    (hplace : list.after place = DoublyLinked.last xs) (x : NodeInfo α) :
    ∃ list', list.linkNode a x place = some list' ∧ list'.Is (xs ++ (a, x) :: ys) := by
  obtain ⟨heap₁, heap₂, hset₁, hset₂, hlinked, hrest⟩ := h.linked.insert h.nodup ha x
  rw [Option.or_none, Option.or_none] at hset₁
  have hnodup : (places (xs ++ (a, x) :: ys)).Nodup := nodup_insert h.nodup ha
  have hfreed : ∀ b, b ∉ places (xs ++ (a, x) :: ys) → heap₂ b = none := by
    intro b hb
    rw [hrest b hb]
    apply h.freed
    rw [places_append, places_cons] at hb
    rw [places_append]
    simp_all
  have hlast : (if list.after place = list.last then some a else list.last) =
      DoublyLinked.last (xs ++ (a, x) :: ys) := by
    rw [hplace, h.last, last_insert h.nodup]
  have hcount : list.count + 1 = (xs ++ (a, x) :: ys).length := by
    simp [h.count]; omega
  cases xs using List.reverseRecOn with
  | nil =>
      obtain rfl := Option.some.inj hset₂
      refine ⟨⟨heap₁, some a, _, list.count + 1⟩, ?_, hlinked, hnodup, hfreed, rfl, hlast, hcount⟩
      rw [LinkList.linkNode, hplace, last_nil, h.first]
      exact congrArg (· >>= _) hset₁
  | append_singleton xs y _ =>
      obtain ⟨b, y⟩ := y
      rw [last_append_singleton] at hset₁ hset₂ hplace
      rw [hplace] at hlast
      rw [List.append_assoc] at h
      have hget : list.heap b = some ⟨y, DoublyLinked.last xs, DoublyLinked.first ys⟩ := h.get
      refine ⟨⟨heap₂, list.first, _, list.count + 1⟩, ?_, hlinked, hnodup, hfreed, ?_, hlast,
        hcount⟩
      · rw [LinkList.linkNode, hplace]
        simp only [hget, Option.bind_eq_bind, Option.bind_some, hset₁, hset₂]
        rfl
      · simp [h.first, first_append]

/-- Changing what a node holds. -/
theorem Is.modify (h : list.Is seq) (ha : a ∈ places seq) (f : NodeInfo α → NodeInfo α) :
    ∃ heap, modifyCell list.heap a (fun c ↦ { c with payload := f c.payload }) = some heap ∧
      LinkList.Is { list with heap } (seq.modify a f) := by
  obtain ⟨xs, x, ys, rfl, -, -⟩ := h.split ha
  have hget := h.get
  refine ⟨_, modifyCell_eq hget _, ?_, ?_, ?_, ?_, ?_, ?_⟩
  · refine h.linked.map (fun b y ↦ if b = a then f y else y) ?_
    intro b
    by_cases hb : b = a
    · obtain rfl := hb
      simp [hget]
    · simp [hb]
  · rw [NodeSeq.places_modify]
    exact h.nodup
  · intro b hb
    rw [NodeSeq.places_modify] at hb
    have hba : b ≠ a := fun hba ↦ hb (hba ▸ ha)
    exact (Function.update_of_ne hba _ _).trans (h.freed b hb)
  · exact h.first.trans (NodeSeq.first_modify f).symm
  · exact h.last.trans (NodeSeq.last_modify f).symm
  · exact h.count.trans (List.length_map _).symm

/-! ## Adding several nodes -/

/-- The nodes that `listAddNodes` makes before an allocation fails. -/
def nodeBlock : List (NodeItem α) → NodeSeq α
  | [] => []
  | item :: items =>
      match item.malloc with
      | none => []
      | some a => (a, ⟨some item.data, item.tag, false, false⟩) :: nodeBlock items

/-- The nodes that `listAddStringList` makes before an allocation fails. -/
def stringBlock : List (StringItem α) → NodeSeq α
  | [] => []
  | item :: items =>
      match item.strdup, item.malloc with
      | some buf, some a => (a, ⟨some buf, item.tag, false, true⟩) :: stringBlock items
      | _, _ => []

/-- The addresses of a block are fresh and differ. -/
def Fresh (block seq : NodeSeq α) : Prop := (places block ++ places seq).Nodup

theorem Fresh.cons {block : NodeSeq α} (h : Fresh ((a, x) :: block) (xs ++ ys)) :
    a ∉ places (xs ++ ys) ∧ Fresh block ((xs ++ [(a, x)]) ++ ys) := by
  rw [Fresh, places_cons, List.cons_append, List.nodup_cons, List.mem_append, not_or] at h
  obtain ⟨⟨hblock, hseq⟩, hnodup⟩ := h
  refine ⟨hseq, ?_⟩
  have hperm : (places block ++ places ((xs ++ [(a, x)]) ++ ys)).Perm
      (a :: (places block ++ places (xs ++ ys))) := by
    simp only [places_append, places_cons, List.append_assoc, List.singleton_append]
    rw [← List.append_assoc, ← List.append_assoc (places block)]
    exact List.perm_middle
  rw [Fresh, hperm.nodup_iff, List.nodup_cons, List.mem_append, not_or]
  exact ⟨⟨hblock, hseq⟩, hnodup⟩

theorem after_node : list.after (.node a) = DoublyLinked.last (xs ++ [(a, x)]) :=
  (last_append_singleton xs (a, x)).symm

theorem Is.listAddNodes (items : List (NodeItem α)) {place : Place} (h : list.Is (xs ++ ys))
    (hplace : list.after place = DoublyLinked.last xs) (hfresh : Fresh (nodeBlock items) (xs ++ ys)) :
    ∃ list', list.listAddNodes items place = some (list', (nodeBlock items).length) ∧
      list'.Is (xs ++ (nodeBlock items ++ ys)) := by
  induction items generalizing list xs place with
  | nil => exact ⟨list, rfl, h⟩
  | cons item items ih =>
      cases hmalloc : item.malloc with
      | none =>
          refine ⟨list, ?_, ?_⟩
          · rw [LinkList.listAddNodes, nodeBlock, hmalloc]
            rfl
          · rwa [nodeBlock, hmalloc]
      | some a =>
          rw [nodeBlock, hmalloc] at hfresh ⊢
          obtain ⟨ha, hfresh⟩ := hfresh.cons
          obtain ⟨list₁, hlink, h₁⟩ := h.linkNode ha hplace ⟨some item.data, item.tag, false, false⟩
          rw [← List.singleton_append, ← List.append_assoc] at h₁
          obtain ⟨list', hadd, h'⟩ := ih h₁ after_node hfresh
          refine ⟨list', ?_, by simpa using h'⟩
          rw [LinkList.listAddNodes, hmalloc]
          simp only [listAddNode]
          simp only [hlink, Option.bind_eq_bind, Option.bind_some, hadd, List.length_cons]

theorem Is.listAddNodeString {buf : α} {tag : ℤ} {place : Place} (h : list.Is (xs ++ ys))
    (ha : a ∉ places (xs ++ ys)) (hplace : list.after place = DoublyLinked.last xs) :
    ∃ list', list.listAddNodeString (some buf) tag place (some a) = some (list', some a) ∧
      list'.Is (xs ++ (a, ⟨some buf, tag, false, true⟩) :: ys) := by
  obtain ⟨list₁, hlink, h₁⟩ := h.linkNode ha hplace ⟨some buf, tag, false, false⟩
  have hmem : a ∈ places (xs ++ (a, ⟨some buf, tag, false, false⟩) :: ys) := by simp
  obtain ⟨heap, hmodify, h'⟩ := h₁.modify hmem fun x ↦ { x with malloc := true }
  rw [places_append] at ha
  obtain ⟨hxs, hys⟩ := not_or.mp (mt List.mem_append.mpr ha)
  rw [NodeSeq.modify_append hxs hys] at h'
  refine ⟨_, ?_, h'⟩
  rw [LinkList.listAddNodeString, listAddNode]
  simp only [hlink, Option.bind_eq_bind, Option.bind_some, hmodify]

theorem Is.listAddStringList (items : List (StringItem α)) {place : Place} (h : list.Is (xs ++ ys))
    (hplace : list.after place = DoublyLinked.last xs)
    (hfresh : Fresh (stringBlock items) (xs ++ ys)) :
    ∃ list', list.listAddStringList items place = some (list', (stringBlock items).length) ∧
      list'.Is (xs ++ (stringBlock items ++ ys)) := by
  induction items generalizing list xs place with
  | nil => exact ⟨list, rfl, h⟩
  | cons item items ih =>
      obtain ⟨strdup, tag, malloc⟩ := item
      cases strdup with
      | none => exact ⟨list, rfl, h⟩
      | some buf =>
          cases malloc with
          | none => exact ⟨list, rfl, h⟩
          | some a =>
              obtain ⟨ha, hfresh⟩ := Fresh.cons hfresh
              obtain ⟨list₁, hadd₁, h₁⟩ := h.listAddNodeString ha hplace
              rw [← List.singleton_append, ← List.append_assoc] at h₁
              obtain ⟨list', hadd, h'⟩ := ih h₁ after_node hfresh
              refine ⟨list', ?_, by simpa [stringBlock] using h'⟩
              rw [LinkList.listAddStringList, hadd₁]
              simp only [Option.bind_eq_bind, Option.bind_some, hadd, stringBlock,
                List.length_cons]

/-- The place is one of the list. -/
def PlaceIn (place : Place) (seq : NodeSeq α) : Prop :=
  ∀ a, place = .node a → a ∈ places seq

/-- Where a block goes when it is inserted at a place. -/
theorem Is.splice (h : list.Is seq) {place : Place} (hplace : PlaceIn place seq) :
    ∃ xs ys, seq = xs ++ ys ∧ list.after place = DoublyLinked.last xs ∧
      ∀ block, seq.splice block place = xs ++ (block ++ ys) := by
  cases place with
  | first => exact ⟨[], seq, rfl, rfl, fun _ ↦ rfl⟩
  | last =>
      refine ⟨seq, [], (List.append_nil seq).symm, h.last, fun block ↦ ?_⟩
      rw [List.append_nil]
      rfl
  | node a =>
      obtain ⟨xs, x, ys, rfl, hxs, -⟩ := h.split (hplace a rfl)
      refine ⟨xs ++ [(a, x)], ys, by simp, after_node, fun block ↦ ?_⟩
      rw [NodeSeq.splice, NodeSeq.spliceAfter_append hxs]
      simp

/-! ## Removing nodes -/

theorem Is.listRemoveNode_of_locked (h : list.Is (xs ++ (a, x) :: ys)) {place : Place}
    (hplace : list.nodeAt place = some a) (hx : x.locked = true) (freeData : Bool) :
    list.listRemoveNode place freeData = some (list, none) := by
  rw [listRemoveNode, hplace]
  simp only [h.get, Option.bind_eq_bind, Option.bind_some, hx, if_true]

theorem first_remove (ha : a ∉ places (xs ++ ys)) :
    (if DoublyLinked.first (xs ++ (a, x) :: ys) = some a then DoublyLinked.first ys
      else DoublyLinked.first (xs ++ (a, x) :: ys)) = DoublyLinked.first (xs ++ ys) := by
  cases xs with
  | nil => exact if_pos rfl
  | cons y xs =>
      apply if_neg
      intro hya
      obtain rfl := Option.some.inj hya
      exact ha List.mem_cons_self

theorem last_remove (ha : a ∉ places (xs ++ ys)) :
    (if DoublyLinked.last (xs ++ (a, x) :: ys) = some a then DoublyLinked.last xs
      else DoublyLinked.last (xs ++ (a, x) :: ys)) = DoublyLinked.last (xs ++ ys) := by
  cases ys using List.reverseRecOn with
  | nil => rw [last_append_singleton, if_pos rfl, List.append_nil]
  | append_singleton ys y _ =>
      rw [← List.cons_append, ← List.append_assoc, ← List.append_assoc, last_append_singleton,
        last_append_singleton]
      apply if_neg
      intro hya
      obtain rfl := Option.some.inj hya
      simp at ha

theorem Is.listRemoveNode_of_unlocked (h : list.Is (xs ++ (a, x) :: ys)) {place : Place}
    (hplace : list.nodeAt place = some a) (hx : x.locked = false) (freeData : Bool) :
    ∃ list', list.listRemoveNode place freeData =
        some (list', if freeData then none else x.data) ∧ list'.Is (xs ++ ys) := by
  obtain ⟨heap₁, heap₂, hset₁, hset₂, hlinked, hrest⟩ := h.linked.remove h.nodup
  rw [Option.or_none] at hset₁ hset₂
  have hnodup : (a :: places (xs ++ ys)).Nodup := by
    have hperm := h.nodup
    rw [places_append, places_cons, List.perm_middle.nodup_iff] at hperm
    rwa [places_append]
  obtain ⟨ha, hnodup⟩ := List.nodup_cons.mp hnodup
  have hcell : ∀ b, b ∈ places (xs ++ ys) → Function.update heap₂ a none b = heap₂ b :=
    fun b hb ↦ Function.update_of_ne (ne_of_mem_of_not_mem hb ha) _ _
  refine ⟨⟨Function.update heap₂ a none,
    if list.first = some a then DoublyLinked.first ys else list.first,
    if list.last = some a then DoublyLinked.last xs else list.last, list.count - 1⟩,
    ?_, hlinked.congr hcell, hnodup, ?_, ?_, ?_, ?_⟩
  · rw [listRemoveNode, hplace]
    simp only [h.get, Option.bind_eq_bind, Option.bind_some, hx, Bool.false_eq_true, if_false,
      hset₁, hset₂]
  · intro b hb
    by_cases hba : b = a
    · exact hba ▸ Function.update_self _ _ _
    · refine (Function.update_of_ne hba _ _).trans ((hrest b hb).trans ?_)
      apply h.freed
      rw [places_append, places_cons, List.mem_append, List.mem_cons]
      rw [places_append, List.mem_append] at hb
      tauto
  · rw [h.first]
    exact first_remove ha
  · rw [h.last]
    exact last_remove ha
  · rw [h.count]
    simp

/-- The node that a place names is the one that `NodeSeq.remove` removes. -/
theorem Is.nodeAt (h : list.Is seq) {place : Place} (hplace : PlaceIn place seq) :
    (seq = [] ∧ list.nodeAt place = none) ∨
      ∃ xs a x ys, seq = xs ++ (a, x) :: ys ∧ list.nodeAt place = some a ∧
        seq.remove place = xs ++ if x.locked then (a, x) :: ys else ys := by
  cases place with
  | first =>
      cases seq with
      | nil => exact .inl ⟨rfl, h.first⟩
      | cons y seq => exact .inr ⟨[], y.1, y.2, seq, rfl, h.first, rfl⟩
  | last =>
      cases seq using List.reverseRecOn with
      | nil => exact .inl ⟨rfl, h.last⟩
      | append_singleton seq y _ =>
          refine .inr ⟨seq, y.1, y.2, [], rfl, h.last.trans (last_append_singleton _ _), ?_⟩
          rw [NodeSeq.remove, List.reverse_append, List.reverse_singleton, List.singleton_append,
            NodeSeq.unlink, if_pos rfl]
          cases y.2.locked <;> simp
  | node a =>
      obtain ⟨xs, x, ys, rfl, hxs, -⟩ := h.split (hplace a rfl)
      exact .inr ⟨xs, a, x, ys, rfl, rfl, NodeSeq.unlink_place hxs⟩

theorem Is.listRemoveNode (h : list.Is seq) {place : Place} (hplace : PlaceIn place seq)
    (freeData : Bool) :
    ∃ list' data, list.listRemoveNode place freeData = some (list', data) ∧
      list'.Is (seq.remove place) := by
  obtain ⟨rfl, hnone⟩ | ⟨xs, a, x, ys, rfl, hnode, hremove⟩ := h.nodeAt hplace
  · refine ⟨list, none, by rw [LinkList.listRemoveNode, hnone], ?_⟩
    cases place <;> exact h
  · rw [hremove]
    cases hx : x.locked with
    | true => exact ⟨list, none, h.listRemoveNode_of_locked hnode hx freeData, h⟩
    | false =>
        obtain ⟨list', hremoved, h'⟩ := h.listRemoveNode_of_unlocked hnode hx freeData
        exact ⟨list', _, hremoved, h'⟩

theorem findLoop_eq (p : NodeInfo α → Bool) {heap : Heap (NodeInfo α)} {q : Option ℕ}
    (h : Linked heap q seq none) {fuel : ℕ} (hfuel : seq.length ≤ fuel) :
    findLoop heap p fuel (DoublyLinked.first seq) =
      some ((seq.find? fun y ↦ p y.2).map Prod.fst) := by
  induction seq generalizing fuel q with
  | nil => simp [findLoop]
  | cons y seq ih =>
      obtain ⟨fuel, rfl⟩ := Nat.exists_eq_add_of_lt (Nat.lt_of_lt_of_le (Nat.succ_pos _) hfuel)
      rw [Nat.zero_add] at hfuel ⊢
      obtain ⟨hget, hrest⟩ := h
      rw [first_cons, findLoop, List.find?_cons, hget]
      simp only [Option.bind_eq_bind, Option.bind_some, Option.or_none]
      cases p y.2 with
      | true => rfl
      | false => exact ih hrest (Nat.le_of_succ_le_succ hfuel)

/-- What `listFindTaggedNode` looks for. -/
def tagTest (tag : ℤ) (x : NodeInfo α) : Bool :=
  if tag = 0 then x.data.isNone else decide (x.tag = tag)

theorem Is.listFindTaggedNode (h : list.Is seq) (tag : ℤ) :
    list.listFindTaggedNode tag = some ((seq.find? fun x ↦ tagTest tag x.2).map Prod.fst) := by
  rw [LinkList.listFindTaggedNode, h.first]
  exact findLoop_eq (tagTest tag) h.linked (Nat.le_of_eq h.count.symm)

/-- The node that is found is the first with the tag. -/
def TagFound (seq : NodeSeq α) (tag : ℤ) : Prop :=
  (seq.find? fun x ↦ tagTest tag x.2) = seq.find? fun x ↦ x.2.tag = tag

theorem Is.listRemoveTaggedNode (h : list.Is seq) {tag : ℤ} (htag : TagFound seq tag)
    (freeData : Bool) :
    ∃ list' data, list.listRemoveTaggedNode tag freeData = some (list', data) ∧
      list'.Is (seq.unlink fun x ↦ x.2.tag = tag) := by
  rw [LinkList.listRemoveTaggedNode, h.listFindTaggedNode, htag]
  cases hfind : seq.find? fun x ↦ decide (x.2.tag = tag) with
  | none =>
      refine ⟨list, none, rfl, ?_⟩
      rw [NodeSeq.unlink_of_not_mem]
      · exact h
      · intro z hz
        exact Bool.eq_false_iff.mpr (List.find?_eq_none.mp hfind z hz)
  | some y =>
      obtain ⟨hy, xs, ys, rfl, hxs⟩ := List.find?_eq_some_iff_append.mp hfind
      obtain ⟨a, x⟩ := y
      have hmem : a ∈ places (xs ++ (a, x) :: ys) := by simp
      have hnot : a ∉ places xs := by
        have hnodup := h.nodup
        rw [places_append, places_cons] at hnodup
        exact fun ha ↦ (List.nodup_append.mp hnodup).2.2 a ha a List.mem_cons_self rfl
      have hplace : PlaceIn (.node a) (xs ++ (a, x) :: ys) := by
        rintro b ⟨⟩
        exact hmem
      have hremove := h.listRemoveNode hplace freeData
      have hunlink : NodeSeq.remove (xs ++ (a, x) :: ys) (.node a) =
          NodeSeq.unlink (fun z ↦ z.2.tag = tag) (xs ++ (a, x) :: ys) := by
        rw [NodeSeq.remove, NodeSeq.unlink_place hnot, NodeSeq.unlink_append _ hy]
        intro z hz
        simpa using hxs z hz
      rwa [hunlink] at hremove

/-- With the tag 0 the data pointers are compared, so no node is found where none is `NULL`. -/
theorem Is.listRemoveTaggedNode_zero (h : list.Is seq) (hdata : ∀ x ∈ seq, x.2.data ≠ none)
    (freeData : Bool) : list.listRemoveTaggedNode 0 freeData = some (list, none) := by
  have hnone : (seq.find? fun x ↦ tagTest 0 x.2) = none := by
    rw [List.find?_eq_none]
    intro x hx
    simpa [tagTest] using hdata x hx
  rw [LinkList.listRemoveTaggedNode, h.listFindTaggedNode, hnone]
  rfl

/-! ## Freeing all nodes -/

/-- The nodes that `listFreeNodes` frees. -/
def unlockedPrefix (seq : NodeSeq α) : NodeSeq α := seq.takeWhile fun x ↦ !x.2.locked

theorem freeLoop_eq {heap : Heap (NodeInfo α)} {q : Option ℕ} (h : Linked heap q seq none)
    (hnodup : (places seq).Nodup) {count fuel : ℕ} (hfuel : seq.length ≤ fuel) :
    freeLoop heap count fuel (DoublyLinked.first seq) =
      some (fun b ↦ if b ∈ places (unlockedPrefix seq) then none else heap b,
        count - (unlockedPrefix seq).length, DoublyLinked.first (NodeSeq.free seq)) := by
  induction seq generalizing heap q count fuel with
  | nil => simp [freeLoop, unlockedPrefix, NodeSeq.free]
  | cons y seq ih =>
      obtain ⟨a, x⟩ := y
      obtain ⟨fuel, rfl⟩ := Nat.exists_eq_add_of_lt (Nat.lt_of_lt_of_le (Nat.succ_pos _) hfuel)
      rw [Nat.zero_add] at hfuel ⊢
      obtain ⟨hget, hrest⟩ := h
      obtain ⟨ha, hnodup⟩ := List.nodup_cons.mp hnodup
      rw [first_cons, freeLoop, hget]
      simp only [Option.bind_eq_bind, Option.bind_some, Option.or_none]
      cases hx : x.locked with
      | true => simp [unlockedPrefix, NodeSeq.free, hx]
      | false =>
          have hlinked : Linked (Function.update heap a none) (some a) seq none :=
            hrest.congr fun b hb ↦ Function.update_of_ne (ne_of_mem_of_not_mem hb ha) _ _
          rw [if_neg Bool.false_ne_true, ih hlinked hnodup (Nat.le_of_succ_le_succ hfuel)]
          have hpre : unlockedPrefix ((a, x) :: seq) = (a, x) :: unlockedPrefix seq := by
            simp [unlockedPrefix, hx]
          have hfree : NodeSeq.free ((a, x) :: seq) = NodeSeq.free seq := by
            simp [NodeSeq.free, hx]
          rw [hpre, hfree, places_cons, List.length_cons, Nat.sub_sub, Nat.add_comm 1]
          congr 2
          funext b
          by_cases hba : b = a
          · simp [hba]
          · simp [hba]

/-- `listFreeNodes` frees every node or none. -/
def FreesAll (seq : NodeSeq α) : Prop :=
  (∀ x ∈ seq, x.2.locked = false) ∨ ∃ x, seq.head? = some x ∧ x.2.locked = true

theorem Is.listFreeNodes (h : list.Is seq) (hfree : FreesAll seq) :
    ∃ list', list.listFreeNodes = some (list', (NodeSeq.free seq).length) ∧
      list'.Is (NodeSeq.free seq) := by
  rw [LinkList.listFreeNodes, h.first, freeLoop_eq h.linked h.nodup (Nat.le_of_eq h.count.symm)]
  simp only [Option.bind_eq_bind, Option.bind_some]
  rcases hfree with hall | ⟨⟨a, x⟩, hhead, hx⟩
  · have hempty : NodeSeq.free seq = [] := by
      rw [NodeSeq.free, List.dropWhile_eq_nil_iff]
      intro y hy
      rw [hall y hy]
      rfl
    have hpre : unlockedPrefix seq = seq := by
      rw [unlockedPrefix, List.takeWhile_eq_self_iff]
      intro y hy
      rw [hall y hy]
      rfl
    rw [hempty, hpre, h.count, Nat.sub_self]
    refine ⟨_, rfl, trivial, List.nodup_nil, fun b _ ↦ ?_, rfl, rfl, rfl⟩
    by_cases hb : b ∈ places seq
    · exact if_pos hb
    · exact (if_neg hb).trans (h.freed b hb)
  · obtain ⟨seq, rfl⟩ := List.head?_eq_some_iff.mp hhead
    have hx : x.locked = true := hx
    have hkeep : NodeSeq.free ((a, x) :: seq) = (a, x) :: seq := by
      simp [NodeSeq.free, hx]
    have hpre : unlockedPrefix ((a, x) :: seq) = [] := by
      simp [unlockedPrefix, hx]
    rw [hkeep, hpre, h.count, List.length_nil, Nat.sub_zero]
    refine ⟨_, rfl, ?_⟩
    have hlist : (⟨fun b ↦ if b ∈ places ([] : NodeSeq α) then none else list.heap b,
        DoublyLinked.first ((a, x) :: seq),
        if ((a, x) :: seq).length = 0 then none else list.last,
        ((a, x) :: seq).length⟩ : LinkList α) = list := by
      rw [← h.first, ← h.count, if_neg]
      · rfl
      · rw [h.count]
        exact Nat.succ_ne_zero _
    rwa [hlist]

/-- When `listFreeNodes` stops behind the first node, the node it stops at still points back to
one that is freed. -/
theorem Is.listFreeNodes_dangling (h : list.Is seq) (hfree : ¬ FreesAll seq) :
    ∃ list', list.listFreeNodes = some (list', (NodeSeq.free seq).length) ∧
      ∀ seq', ¬ list'.Is seq' := by
  rw [LinkList.listFreeNodes, h.first, freeLoop_eq h.linked h.nodup (Nat.le_of_eq h.count.symm)]
  simp only [Option.bind_eq_bind, Option.bind_some]
  have hsplit : unlockedPrefix seq ++ NodeSeq.free seq = seq := List.takeWhile_append_dropWhile
  have hcount : list.count - (unlockedPrefix seq).length = (NodeSeq.free seq).length := by
    rw [h.count, ← congrArg List.length hsplit, List.length_append, Nat.add_sub_cancel_left]
  rw [hcount]
  refine ⟨_, rfl, fun seq' h' ↦ ?_⟩
  cases hrest : NodeSeq.free seq with
  | nil =>
      refine hfree (.inl fun x hx ↦ ?_)
      have hx := List.dropWhile_eq_nil_iff.mp hrest x hx
      simpa using hx
  | cons y ys =>
      obtain ⟨a, x⟩ := y
      rw [hrest] at hsplit h'
      cases hpre : unlockedPrefix seq using List.reverseRecOn with
      | nil =>
          refine hfree (.inr ⟨(a, x), ?_, ?_⟩)
          · rw [← hsplit, hpre]
            rfl
          · have hx := List.head_dropWhile_not (fun z : ℕ × NodeInfo α ↦ !z.2.locked) (l := seq)
              (by rw [show List.dropWhile _ seq = _ from hrest]; exact List.cons_ne_nil _ _)
            simpa [show List.dropWhile _ seq = _ from hrest] using hx
      | append_singleton xs z _ =>
          rw [← hsplit] at h
          have hget := h.get
          have ha : a ∉ places (unlockedPrefix seq) := by
            have hnodup := h.nodup
            rw [places_append, places_cons] at hnodup
            exact fun ha ↦ (List.nodup_append.mp hnodup).2.2 a ha a List.mem_cons_self rfl
          have hfirst := h'.first
          cases seq' with
          | nil => cases hfirst
          | cons z' seq' =>
              obtain ⟨b, x'⟩ := z'
              obtain rfl : a = b := Option.some.inj hfirst
              have hcell : (if a ∈ places (unlockedPrefix seq) then none else list.heap a) =
                  some ⟨x', none, (DoublyLinked.first seq').or none⟩ := h'.linked.1
              rw [if_neg ha, hget, hpre, last_append_singleton] at hcell
              cases hcell

/-! ## Nodes in place -/

/-- A node that is given is in the list. -/
def NodeIn (node : Option ℕ) (seq : NodeSeq α) : Prop := ∀ a, node = some a → a ∈ places seq

theorem modify_of_eq (h : list.Is (xs ++ (a, x) :: ys)) {f : NodeInfo α → NodeInfo α}
    (hx : f x = x) : NodeSeq.modify (xs ++ (a, x) :: ys) a f = xs ++ (a, x) :: ys := by
  have hnodup := h.nodup
  rw [places_append, places_cons, List.perm_middle.nodup_iff, List.nodup_cons, List.mem_append,
    not_or] at hnodup
  rw [NodeSeq.modify_append hnodup.1.1 hnodup.1.2, hx]

/-- What `listLockNode` and `listUnlockNode` do to a sequence. -/
def setLocked (seq : NodeSeq α) (node : Option ℕ) (locked : Bool) : NodeSeq α :=
  match node with
  | none => seq
  | some a => seq.modify a fun x ↦ { x with locked }

theorem Is.listLockNode (h : list.Is seq) {node : Option ℕ} (hnode : NodeIn node seq) :
    ∃ list' done, list.listLockNode node = some (list', done) ∧
      list'.Is (setLocked seq node true) := by
  cases node with
  | none => exact ⟨list, false, rfl, h⟩
  | some a =>
      have ha := hnode a rfl
      obtain ⟨heap, hmodify, h'⟩ := h.modify ha fun x ↦ { x with locked := true }
      obtain ⟨xs, x, ys, rfl, -, -⟩ := h.split ha
      simp only [LinkList.listLockNode, h.get, Option.bind_eq_bind, Option.bind_some, hmodify]
      cases hx : x.locked with
      | true =>
          refine ⟨list, false, rfl, ?_⟩
          rwa [setLocked, modify_of_eq h]
          rw [← hx]
      | false => exact ⟨_, true, rfl, h'⟩

theorem Is.listUnlockNode (h : list.Is seq) {node : Option ℕ} (hnode : NodeIn node seq) :
    ∃ list' done, list.listUnlockNode node = some (list', done) ∧
      list'.Is (setLocked seq node false) := by
  cases node with
  | none => exact ⟨list, false, rfl, h⟩
  | some a =>
      have ha := hnode a rfl
      obtain ⟨heap, hmodify, h'⟩ := h.modify ha fun x ↦ { x with locked := false }
      obtain ⟨xs, x, ys, rfl, -, -⟩ := h.split ha
      simp only [LinkList.listUnlockNode, h.get, Option.bind_eq_bind, Option.bind_some, hmodify]
      cases hx : x.locked with
      | true => exact ⟨_, true, rfl, h'⟩
      | false =>
          refine ⟨list, false, rfl, ?_⟩
          rwa [setLocked, modify_of_eq h]
          rw [← hx]

theorem Is.lookup (h : list.Is seq) (ha : a ∈ places seq) :
    ∃ c, list.heap a = some c ∧ seq.lookup a = some c.payload ∧
      seq.modify a (fun _ ↦ c.payload) = seq := by
  obtain ⟨xs, x, ys, rfl, hxs, -⟩ := h.split ha
  exact ⟨_, h.get, NodeSeq.lookup_append hxs, modify_of_eq h rfl⟩

/-- What `listSwapNodes` does to a sequence. -/
def swapNodes (seq : NodeSeq α) : Option ℕ → Option ℕ → NodeSeq α
  | some a, some b => seq.swap a b
  | _, _ => seq

theorem Is.listSwapNodes (h : list.Is seq) {node₁ node₂ : Option ℕ} (hnode₁ : NodeIn node₁ seq)
    (hnode₂ : NodeIn node₂ seq) :
    ∃ list' done, list.listSwapNodes node₁ node₂ = some (list', done) ∧
      list'.Is (swapNodes seq node₁ node₂) := by
  cases node₁ with
  | none => exact ⟨list, false, by cases node₂ <;> rfl, by cases node₂ <;> exact h⟩
  | some a =>
      cases node₂ with
      | none => exact ⟨list, false, rfl, h⟩
      | some b =>
          obtain ⟨c, hc, hlookup, hsame⟩ := h.lookup (hnode₁ a rfl)
          obtain ⟨d, hd, hlookup', -⟩ := h.lookup (hnode₂ b rfl)
          by_cases hab : a = b
          · obtain rfl := hab
            refine ⟨list, false, by rw [LinkList.listSwapNodes, if_pos rfl], ?_⟩
            simp only [swapNodes, NodeSeq.swap, hlookup, hsame, ite_self]
            exact h
          · obtain ⟨heap₁, hmodify₁, h₁⟩ := h.modify (hnode₁ a rfl) fun _ ↦ d.payload
            have hb : b ∈ places (seq.modify a fun _ ↦ d.payload) := by
              rw [NodeSeq.places_modify]
              exact hnode₂ b rfl
            obtain ⟨heap₂, hmodify₂, h₂⟩ := h₁.modify hb fun _ ↦ c.payload
            rw [LinkList.listSwapNodes, if_neg hab, swapNodes, NodeSeq.swap]
            simp only [hc, hd, hlookup, hlookup', Option.bind_eq_bind, Option.bind_some,
              hmodify₁]
            split
            · exact ⟨list, false, rfl, h⟩
            · refine ⟨_, true, ?_, h₂⟩
              dsimp only at hmodify₂ ⊢
              rw [hmodify₂, Option.bind_some]

end LinkList

/-! ## Runs -/

/-- The calls that change a list. -/
inductive ListOp (α : Type)
  | addNode (data : Option α) (tag : ℤ) (place : Place) (malloc : Option ℕ)
  | addNodes (items : List (LinkList.NodeItem α)) (place : Place)
  | addStringList (items : List (LinkList.StringItem α)) (place : Place)
  | removeNode (place : Place) (freeData : Bool)
  | removeTaggedNode (tag : ℤ) (freeData : Bool)
  | swapNodes (node₁ node₂ : Option ℕ)
  | lockNode (node : Option ℕ)
  | unlockNode (node : Option ℕ)
  | freeNodes

namespace ListOp

open LinkList

/-- The list that a call leaves. -/
def apply (list : LinkList α) : ListOp α → Option (LinkList α)
  | addNode data tag place malloc => (list.listAddNode data tag place malloc).map Prod.fst
  | addNodes items place => (list.listAddNodes items place).map Prod.fst
  | addStringList items place => (list.listAddStringList items place).map Prod.fst
  | removeNode place freeData => (list.listRemoveNode place freeData).map Prod.fst
  | removeTaggedNode tag freeData => (list.listRemoveTaggedNode tag freeData).map Prod.fst
  | swapNodes node₁ node₂ => (list.listSwapNodes node₁ node₂).map Prod.fst
  | lockNode node => (list.listLockNode node).map Prod.fst
  | unlockNode node => (list.listUnlockNode node).map Prod.fst
  | freeNodes => list.listFreeNodes.map Prod.fst

/-- The nodes that a call adds. -/
def addBlock (data : Option α) (tag : ℤ) : Option ℕ → NodeSeq α
  | none => []
  | some a => [(a, ⟨data, tag, false, false⟩)]

/-- The sequence operation that a call stands for. -/
def onSeq (seq : NodeSeq α) : ListOp α → NodeSeq α
  | addNode data tag place malloc => seq.splice (addBlock data tag malloc) place
  | addNodes items place => seq.splice (nodeBlock items) place
  | addStringList items place => seq.splice (stringBlock items) place
  | removeNode place _ => seq.remove place
  | removeTaggedNode tag _ => seq.unlink fun x ↦ x.2.tag = tag
  | swapNodes node₁ node₂ => LinkList.swapNodes seq node₁ node₂
  | lockNode node => setLocked seq node true
  | unlockNode node => setLocked seq node false
  | freeNodes => seq.free

/-- A call names nodes of the list, and the allocator gives addresses that are not in use. -/
def Valid (seq : NodeSeq α) : ListOp α → Prop
  | addNode data tag place malloc => PlaceIn place seq ∧ Fresh (addBlock data tag malloc) seq
  | addNodes items place => PlaceIn place seq ∧ Fresh (nodeBlock items) seq
  | addStringList items place => PlaceIn place seq ∧ Fresh (stringBlock items) seq
  | removeNode place _ => PlaceIn place seq
  | removeTaggedNode _ _ => True
  | swapNodes node₁ node₂ => NodeIn node₁ seq ∧ NodeIn node₂ seq
  | lockNode node => NodeIn node seq
  | unlockNode node => NodeIn node seq
  | freeNodes => True

/-- A call does what its sequence operation does. -/
def Keeps (seq : NodeSeq α) : ListOp α → Prop
  | removeTaggedNode tag _ => TagFound seq tag
  | freeNodes => FreesAll seq
  | _ => True

variable {list : LinkList α} {seq : NodeSeq α}

theorem apply_is (h : list.Is seq) {op : ListOp α} (hvalid : op.Valid seq) (hkeeps : op.Keeps seq) :
    ∃ list', op.apply list = some list' ∧ list'.Is (op.onSeq seq) := by
  cases op with
  | addNode data tag place malloc =>
      obtain ⟨hplace, hfresh⟩ := hvalid
      obtain ⟨xs, ys, rfl, hafter, hsplice⟩ := h.splice hplace
      simp only [apply, onSeq, hsplice]
      cases malloc with
      | none => exact ⟨list, rfl, h⟩
      | some a =>
          obtain ⟨list', hlink, h'⟩ := h.linkNode (Fresh.cons hfresh).1 hafter _
          refine ⟨list', ?_, h'⟩
          rw [listAddNode, hlink]
          rfl
  | addNodes items place =>
      obtain ⟨hplace, hfresh⟩ := hvalid
      obtain ⟨xs, ys, rfl, hafter, hsplice⟩ := h.splice hplace
      obtain ⟨list', hadd, h'⟩ := h.listAddNodes items hafter hfresh
      simp only [apply, onSeq, hsplice, hadd]
      exact ⟨list', rfl, h'⟩
  | addStringList items place =>
      obtain ⟨hplace, hfresh⟩ := hvalid
      obtain ⟨xs, ys, rfl, hafter, hsplice⟩ := h.splice hplace
      obtain ⟨list', hadd, h'⟩ := h.listAddStringList items hafter hfresh
      simp only [apply, onSeq, hsplice, hadd]
      exact ⟨list', rfl, h'⟩
  | removeNode place freeData =>
      obtain ⟨list', data, hremove, h'⟩ := h.listRemoveNode hvalid freeData
      exact ⟨list', by rw [apply, hremove]; rfl, h'⟩
  | removeTaggedNode tag freeData =>
      obtain ⟨list', data, hremove, h'⟩ := h.listRemoveTaggedNode hkeeps freeData
      exact ⟨list', by rw [apply, hremove]; rfl, h'⟩
  | swapNodes node₁ node₂ =>
      obtain ⟨list', done, hswap, h'⟩ := h.listSwapNodes hvalid.1 hvalid.2
      exact ⟨list', by rw [apply, hswap]; rfl, h'⟩
  | lockNode node =>
      obtain ⟨list', done, hlock, h'⟩ := h.listLockNode hvalid
      exact ⟨list', by rw [apply, hlock]; rfl, h'⟩
  | unlockNode node =>
      obtain ⟨list', done, hunlock, h'⟩ := h.listUnlockNode hvalid
      exact ⟨list', by rw [apply, hunlock]; rfl, h'⟩
  | freeNodes =>
      obtain ⟨list', hfree, h'⟩ := h.listFreeNodes hkeeps
      exact ⟨list', by rw [apply, hfree]; rfl, h'⟩

/-- The list that a run of calls leaves. -/
def run (list : LinkList α) (ops : List (ListOp α)) : Option (LinkList α) :=
  ops.foldlM apply list

/-- The sequence that a run of calls stands for. -/
def runSeq (seq : NodeSeq α) (ops : List (ListOp α)) : NodeSeq α := ops.foldl onSeq seq

/-- Every call of a run has a property, at the sequence it finds. -/
def Along (p : NodeSeq α → ListOp α → Prop) : NodeSeq α → List (ListOp α) → Prop
  | _, [] => True
  | seq, op :: ops => p seq op ∧ Along p (op.onSeq seq) ops

theorem run_is (h : list.Is seq) {ops : List (ListOp α)} (hvalid : Along Valid seq ops)
    (hkeeps : Along Keeps seq ops) : ∃ list', run list ops = some list' ∧
      list'.Is (runSeq seq ops) := by
  induction ops generalizing list seq with
  | nil => exact ⟨list, rfl, h⟩
  | cons op ops ih =>
      obtain ⟨list₁, happly, h₁⟩ := apply_is h hvalid.1 hkeeps.1
      obtain ⟨list', hrun, h'⟩ := ih h₁ hvalid.2 hkeeps.2
      refine ⟨list', ?_, h'⟩
      rw [run, List.foldlM_cons, happly]
      exact hrun

/-- A list is well formed and holds the sequence that its calls stand for, as long as bulk frees
free all nodes or none and removals by tag find the first node with the tag. -/
theorem linkList_run (ops : List (ListOp α)) (hvalid : Along Valid [] ops)
    (hkeeps : Along Keeps [] ops) :
    ∃ list, run listInit ops = some list ∧ list.Is (runSeq [] ops) :=
  run_is listInit_is hvalid hkeeps

theorem linkList_run_three : ∃ list,
    run listInit ([.addNodes [⟨7, 1, some 10⟩, ⟨8, 2, some 11⟩] .last, .lockNode (some 10),
      .freeNodes, .removeTaggedNode 2 false] : List (ListOp ℕ)) = some list ∧
      list.Is [(10, ⟨some 7, 1, true, false⟩)] := by
  refine linkList_run _ ⟨⟨?_, ?_⟩, ?_, trivial, trivial, trivial⟩
    ⟨trivial, trivial, .inr ⟨_, rfl, rfl⟩, ?_, trivial⟩
  · rintro a ⟨⟩
  · rw [Fresh]
    decide
  · rintro a ⟨⟩
    decide
  · rfl

/-- Two nodes are added and the second is locked before `listFreeNodes`. -/
theorem linkList_run_dangling : ∃ ops : List (ListOp ℕ), Along Valid [] ops ∧
    ¬ ∃ list, run listInit ops = some list ∧ list.Is (runSeq [] ops) := by
  refine ⟨[.addNodes [⟨7, 1, some 10⟩, ⟨8, 2, some 11⟩] .last, .lockNode (some 11), .freeNodes],
    ⟨⟨?_, ?_⟩, ?_, trivial, trivial⟩, ?_⟩
  · rintro a ⟨⟩
  · rw [Fresh]
    decide
  · rintro a ⟨⟩
    decide
  · rintro ⟨list, hrun, h⟩
    have hprev : (run listInit ([.addNodes [⟨7, 1, some 10⟩, ⟨8, 2, some 11⟩] .last,
        .lockNode (some 11), .freeNodes] : List (ListOp ℕ))).bind
        (fun list ↦ (list.heap 11).map Cell.prev) = some (some 10) := by decide
    rw [hrun, Option.bind_some, h.linked.1] at hprev
    cases hprev

end ListOp

end Synchronet.Xpdev
