import Synchronet.Xpdev.LinkListSeq

/-!
# Removing and merging several nodes (link_list.c)

`listRemoveNodes` goes from each node that it has removed to the next one, and `listMerge` goes
through the source while it links its nodes into the destination.  The nodes of both lists
share one heap.
-/

namespace Synchronet.Xpdev

open DoublyLinked

variable {α : Type}

namespace LinkList

/-! ## Removing several nodes -/

/-- The loop of `listRemoveNodes`, which may remove so many nodes.  The pointer to the next node
is read from the node that has been removed. -/
def removeLoop (freeData : Bool) : ℕ → LinkList α → Option ℕ → Option (LinkList α × ℕ)
  | 0, list, _ => some (list, 0)
  | _ + 1, list, none => some (list, 0)
  | n + 1, list, some a => do
      let (list, data) ← list.listRemoveNode (.node a) freeData
      match data with
      | none => some (list, 0)
      | some _ => do
          let node ← list.heap a
          let (list, count) ← removeLoop freeData n list node.next
          some (list, count + 1)

/-- `listRemoveNodes`; behind `LAST_NODE` there is nothing to read. -/
def listRemoveNodes (list : LinkList α) (place : Place) (max : ℤ) (freeData : Bool) :
    Option (LinkList α × ℕ) :=
  match place with
  | .first => removeLoop freeData max.toNat list list.first
  | .node a => removeLoop freeData max.toNat list (some a)
  | .last =>
      if max ≤ 0 then some (list, 0)
      else do
        let (list, data) ← list.listRemoveNode .last freeData
        if data.isNone then some (list, 0) else none

variable {list : LinkList α} {xs ys seq block : NodeSeq α} {a : ℕ} {x : NodeInfo α}

/-- A run of unlocked nodes is removed from its first node on, as far as `max` allows. -/
def RemovesRun (list : LinkList α) (xs ys : NodeSeq α) (a : ℕ) (max : ℤ) (freeData : Bool) :
    Prop :=
  let count := min max.toNat (unlockedPrefix ys).length
  ∃ list', list.listRemoveNodes (.node a) max freeData = some (list', count) ∧
    list'.Is (xs ++ ys.drop count)

/-- The node that `listRemoveNode` has removed is no longer there. -/
theorem Is.heap_of_listRemoveNode (h : list.Is (xs ++ (a, x) :: ys)) (hx : x.locked = false)
    (freeData : Bool) :
    ∃ list', list.listRemoveNode (.node a) freeData =
        some (list', if freeData then none else x.data) ∧ list'.heap a = none := by
  have hnode : list.nodeAt (.node a) = some a := rfl
  obtain ⟨list', hremove, h'⟩ := h.listRemoveNode_of_unlocked hnode hx freeData
  refine ⟨list', hremove, h'.freed a ?_⟩
  have hnodup := h.nodup
  rw [places_append, places_cons, List.perm_middle.nodup_iff] at hnodup
  rw [places_append]
  exact (List.nodup_cons.mp hnodup).1

/-- `listRemoveNodes` does what it should just when there is nothing to remove. -/
theorem removesRun_iff (h : list.Is (xs ++ (a, x) :: ys)) (max : ℤ) (freeData : Bool) :
    RemovesRun list xs ((a, x) :: ys) a max freeData ↔ max ≤ 0 ∨ x.locked = true := by
  by_cases hmax : max ≤ 0
  · refine iff_of_true ⟨list, ?_, ?_⟩ (.inl hmax)
    · simp [listRemoveNodes, removeLoop, Int.toNat_of_nonpos hmax]
    · simpa [Int.toNat_of_nonpos hmax] using h
  · obtain ⟨n, hn⟩ : ∃ n, max.toNat = n + 1 := ⟨max.toNat - 1, by omega⟩
    rw [or_iff_right hmax]
    cases hx : x.locked with
    | true =>
        have hpre : unlockedPrefix ((a, x) :: ys) = [] := by simp [unlockedPrefix, hx]
        refine iff_of_true ⟨list, ?_, ?_⟩ rfl
        · rw [listRemoveNodes, hn, removeLoop, h.listRemoveNode_of_locked rfl hx]
          simp [hpre]
        · simpa [hpre] using h
    | false =>
        refine iff_of_false ?_ Bool.false_ne_true
        rintro ⟨list', hrun, -⟩
        obtain ⟨list₁, hremove, hfreed⟩ := h.heap_of_listRemoveNode hx freeData
        rw [listRemoveNodes, hn, removeLoop, hremove] at hrun
        cases hdata : if freeData then none else x.data with
        | none =>
            have hcount : min (n + 1) (unlockedPrefix ((a, x) :: ys)).length ≠ 0 := by
              simp [unlockedPrefix, hx]
            simp only [hdata, Option.bind_eq_bind, Option.bind_some, Option.some.injEq,
              Prod.mk.injEq] at hrun
            exact hcount hrun.2.symm
        | some d => simp [hdata, hfreed] at hrun

/-- A list of one node. -/
def oneNode (locked : Bool) : LinkList ℕ where
  heap := fun b ↦ if b = 10 then some ⟨⟨some 7, 1, locked, false⟩, none, none⟩ else none
  first := some 10
  last := some 10
  count := 1

theorem oneNode_is (locked : Bool) :
    (oneNode locked).Is ([] ++ (10, ⟨some 7, 1, locked, false⟩) :: []) :=
  ⟨⟨rfl, trivial⟩, by simp, fun _ hb ↦ if_neg (by simpa using hb), rfl, rfl, rfl⟩

theorem removesRun_iff_locked :
    RemovesRun (oneNode true) [] [(10, ⟨some 7, 1, true, false⟩)] 10 5 true :=
  (removesRun_iff (oneNode_is true) 5 true).mpr (.inr rfl)

/-- With `freeData` one node is removed and none counted. -/
theorem not_removesRun :
    ¬ ∀ (list : LinkList ℕ) (xs ys : NodeSeq ℕ) (a : ℕ) (x : NodeInfo ℕ) (max : ℤ)
      (freeData : Bool), list.Is (xs ++ (a, x) :: ys) →
      RemovesRun list xs ((a, x) :: ys) a max freeData := by
  intro h
  obtain ⟨list', hrun, -⟩ := h _ _ _ _ _ 1 true (oneNode_is false)
  have hcount : ((oneNode false).listRemoveNodes (.node 10) 1 true).map Prod.snd = some 0 := by
    decide +kernel
  rw [hrun] at hcount
  simp [unlockedPrefix] at hcount

/-! ## Merging lists -/

/-- `list_add_node`, for a node that is in memory, behind the node at `after` or first. -/
def relinkNode (list : LinkList α) (a : ℕ) (after : Option ℕ) : Option (LinkList α) := do
  let heap ← setPrev list.heap (some a) after
  let last := if after = list.last then some a else list.last
  match after with
  | none => do
      let heap ← setNext heap (some a) list.first
      let heap ← setPrev heap list.first (some a)
      some ⟨heap, some a, last, list.count + 1⟩
  | some b => do
      let node ← heap b
      match node.next with
      | none => do
          let heap ← setNext heap (some b) (some a)
          some ⟨heap, list.first, last, list.count + 1⟩
      | some c => do
          let heap ← setPrev heap (some c) (some a)
          let heap ← setNext heap (some a) (some c)
          let heap ← setNext heap (some b) (some a)
          some ⟨heap, list.first, last, list.count + 1⟩

/-- The loop of `listMerge` with `src_node`, for a number of rounds; `none` also when it has not
ended. -/
def mergeLoop : ℕ → LinkList α → Option ℕ → Option ℕ → Option (LinkList α × ℕ)
  | _, list, none, _ => some (list, 0)
  | 0, _, some _, _ => none
  | n + 1, list, some a, after => do
      let list ← list.relinkNode a after
      let node ← list.heap a
      let (list, count) ← mergeLoop n list node.next (some a)
      some (list, count + 1)

/-- `listMerge`, where `src` gives the first node of the source, if there is a source. -/
def listMerge (n : ℕ) (list : LinkList α) (src : Option (Option ℕ)) (place : Place) :
    Option (LinkList α × ℤ) :=
  match src with
  | none => some (list, -1)
  | some first => (mergeLoop n list first (list.after place)).map fun r ↦ (r.1, r.2)

/-- Two well-formed lists in one heap, the first of which is `list`. -/
structure Apart (list : LinkList α) (seq : NodeSeq α) (src : Option ℕ) (block : NodeSeq α) :
    Prop where
  linked : Linked list.heap none seq none
  linked_src : Linked list.heap none block none
  nodup : (places (seq ++ block)).Nodup
  freed : ∀ a, a ∉ places (seq ++ block) → list.heap a = none
  first : list.first = DoublyLinked.first seq
  last : list.last = DoublyLinked.last seq
  count : list.count = seq.length
  src_first : src = DoublyLinked.first block

/-- The block is merged into the list at the place. -/
def Merges (list : LinkList α) (seq : NodeSeq α) (src : Option ℕ) (block : NodeSeq α)
    (place : Place) : Prop :=
  ∃ (n : ℕ) (list' : LinkList α),
    listMerge n list (some src) place = some (list', (block.length : ℤ)) ∧
      list'.Is (seq.splice block place)

variable {list' : LinkList α} {b c : ℕ} {src : Option ℕ} {place : Place}

/-- A node that is linked first points to what was first. -/
theorem nexts_relinkNode_none {r : Option ℕ} (ha : nexts list.heap a = some r)
    (hfirst : ∀ c, list.first = some c → nexts list.heap c ≠ none) :
    ∃ list', list.relinkNode a none = some list' ∧ nexts list'.heap a = some list.first ∧
      ∀ d, d ≠ a → nexts list'.heap d = nexts list.heap d := by
  obtain ⟨heap₁, h₁, hn₁⟩ := nexts_setPrev ha none
  obtain ⟨heap₂, h₂, hn₂⟩ := nexts_setNext ((hn₁ a).trans ha) list.first
  have hnexts : ∀ d, nexts heap₂ d = if d = a then some list.first else nexts list.heap d :=
    fun d ↦ by rw [hn₂, hn₁]
  cases hc : list.first with
  | none =>
      refine ⟨⟨heap₂, some a, if none = list.last then some a else list.last, list.count + 1⟩,
        ?_, ?_, fun d hd ↦ ?_⟩
      · rw [hc] at h₂
        simp only [relinkNode, h₁, hc, h₂, Option.bind_eq_bind, Option.bind_some]
        rfl
      · rw [hnexts, if_pos rfl, hc]
      · rw [hnexts, if_neg hd]
  | some c =>
      obtain ⟨q, hq⟩ : ∃ q, nexts heap₂ c = some q := by
        rw [hnexts, ← Option.ne_none_iff_exists']
        split
        · exact Option.some_ne_none _
        · exact hfirst c hc
      obtain ⟨heap₃, h₃, hn₃⟩ := nexts_setPrev hq (some a)
      refine ⟨⟨heap₃, some a, if none = list.last then some a else list.last, list.count + 1⟩,
        ?_, ?_, fun d hd ↦ ?_⟩
      · rw [hc] at h₂
        simp only [relinkNode, h₁, hc, h₂, h₃, Option.bind_eq_bind, Option.bind_some]
      · rw [hn₃, hnexts, if_pos rfl, hc]
      · rw [hn₃, hnexts, if_neg hd]

/-- A node that is linked behind another points to what the other pointed to, or where that
pointed to nothing keeps its own pointer. -/
theorem nexts_relinkNode_some {q r : Option ℕ} (hb : nexts list.heap b = some q)
    (ha : nexts list.heap a = some r) (hq : ∀ c, q = some c → nexts list.heap c ≠ none)
    (hab : a = b → q = some a) :
    ∃ list', list.relinkNode a (some b) = some list' ∧ nexts list'.heap a = some (q.or r) ∧
      ∀ d, nexts list.heap d ≠ none → nexts list'.heap d ≠ none := by
  obtain ⟨heap₁, h₁, hn₁⟩ := nexts_setPrev ha (some b)
  obtain ⟨y, p, hget⟩ := nexts_eq_some ((hn₁ b).trans hb)
  cases q with
  | none =>
      obtain ⟨heap₂, h₂, hn₂⟩ := nexts_setNext ((hn₁ b).trans hb) (some a)
      refine ⟨⟨heap₂, list.first, if some b = list.last then some a else list.last,
        list.count + 1⟩, ?_, ?_, fun d hd ↦ ?_⟩
      · simp only [relinkNode, h₁, hget, h₂, Option.bind_eq_bind, Option.bind_some]
      · have hne : a ≠ b := fun h ↦ by simpa using hab h
        rw [hn₂, if_neg hne, hn₁, ha, Option.none_or]
      · rw [hn₂, hn₁]
        split
        · exact Option.some_ne_none _
        · exact hd
  | some c =>
      obtain ⟨s, hs⟩ := Option.ne_none_iff_exists'.mp (hq c rfl)
      obtain ⟨heap₂, h₂, hn₂⟩ := nexts_setPrev ((hn₁ c).trans hs) (some a)
      obtain ⟨heap₃, h₃, hn₃⟩ := nexts_setNext ((hn₂ a).trans ((hn₁ a).trans ha)) (some c)
      obtain ⟨t, ht⟩ : ∃ t, nexts heap₃ b = some t := by
        rw [hn₃]
        split
        · exact ⟨_, rfl⟩
        · exact ⟨_, (hn₂ b).trans ((hn₁ b).trans hb)⟩
      obtain ⟨heap₄, h₄, hn₄⟩ := nexts_setNext ht (some a)
      refine ⟨⟨heap₄, list.first, if some b = list.last then some a else list.last,
        list.count + 1⟩, ?_, ?_, fun d hd ↦ ?_⟩
      · simp only [relinkNode, h₁, hget, h₂, h₃, h₄, Option.bind_eq_bind, Option.bind_some]
      · rw [hn₄, hn₃, if_pos rfl, Option.some_or]
        split
        case isTrue heq => rw [hab heq]
        case isFalse => rfl
      · rw [hn₄, hn₃, hn₂, hn₁]
        split
        · exact Option.some_ne_none _
        · split
          · exact Option.some_ne_none _
          · exact hd

/-- Where a node already follows the one behind which it is linked, it comes to point to itself
and the loop never ends. -/
theorem mergeLoop_round (n : ℕ) (ha : nexts list.heap a = some (some c))
    (hc : nexts list.heap c ≠ none) : mergeLoop n list (some c) (some a) = none := by
  induction n generalizing list a with
  | zero => rfl
  | succ n ih =>
      obtain ⟨r, hr⟩ := Option.ne_none_iff_exists'.mp hc
      have hex : ∀ d, some c = some d → nexts list.heap d ≠ none := by
        rintro d ⟨⟩
        exact hc
      obtain ⟨list', hrelink, hnext, -⟩ := nexts_relinkNode_some ha hr hex fun _ ↦ rfl
      obtain ⟨y, p, hget⟩ := nexts_eq_some hnext
      have hnone : mergeLoop n list' (some c) (some c) = none :=
        ih hnext (by rw [hnext]; exact Option.some_ne_none _)
      simp [mergeLoop, hrelink, hget, hnone]

/-- The rest of the loop after its first node. -/
theorem mergeLoop_succ {n : ℕ} {after q : Option ℕ} (hrelink : list.relinkNode a after = some list')
    (hnext : nexts list'.heap a = some q) :
    mergeLoop (n + 1) list (some a) after =
      (mergeLoop n list' q (some a)).map fun r ↦ (r.1, r.2 + 1) := by
  obtain ⟨y, p, hget⟩ := nexts_eq_some hnext
  rw [mergeLoop, hrelink]
  simp only [Option.bind_eq_bind, Option.bind_some, hget]
  cases mergeLoop n list' q (some a) <;> rfl

/-- Where the loop goes round after its first node nothing is merged. -/
theorem not_merges_of_round {bs : NodeSeq α} (hrelink : list.relinkNode a (list.after place) = some list')
    (hnext : nexts list'.heap a = some (some c)) (hc : nexts list'.heap c ≠ none) :
    ¬ Merges list seq (some a) ((a, x) :: bs) place := by
  rintro ⟨n, list₁, hmerge, -⟩
  cases n with
  | zero => simp [listMerge, mergeLoop] at hmerge
  | succ n =>
      rw [listMerge, mergeLoop_succ hrelink hnext, mergeLoop_round n hnext hc] at hmerge
      cases hmerge

theorem nexts_of_get {y : NodeInfo α} {p q : Option ℕ} (h : list.heap a = some ⟨y, p, q⟩) :
    nexts list.heap a = some q := by rw [nexts, h, Option.map_some]

theorem last_ne_last (hnodup : (places (xs ++ ys)).Nodup) (hys : ys ≠ []) :
    DoublyLinked.last xs ≠ DoublyLinked.last (xs ++ ys) := by
  cases ys using List.reverseRecOn with
  | nil => exact absurd rfl hys
  | append_singleton ys y _ =>
      rw [← List.append_assoc, last_append_singleton]
      intro hlast
      rw [places_append] at hnodup
      exact (List.nodup_append.mp hnodup).2.2 _ (mem_places_of_last hlast) y.1 (by simp) rfl

namespace Apart

variable (h : Apart list seq src block)

include h

theorem nodup_seq : (places seq).Nodup := by
  have hnodup := h.nodup
  rw [places_append] at hnodup
  exact (List.nodup_append.mp hnodup).1

/-- The place, as it splits the list. -/
theorem splice (hplace : PlaceIn place seq) :
    ∃ xs ys, seq = xs ++ ys ∧ list.after place = DoublyLinked.last xs ∧
      ∀ block, seq.splice block place = xs ++ (block ++ ys) := by
  have his : LinkList.Is { list with
      heap := fun b ↦ if b ∈ places seq then list.heap b else none } seq :=
    ⟨h.linked.congr fun b hb ↦ if_pos hb, h.nodup_seq, fun b hb ↦ if_neg hb, h.first, h.last,
      h.count⟩
  obtain ⟨xs, ys, hseq, hafter, hsplice⟩ := his.splice hplace
  refine ⟨xs, ys, hseq, ?_, hsplice⟩
  rw [← hafter]
  cases place <;> rfl

/-- One node of another list goes to the end. -/
theorem is_append (hblock : block = [(a, x)]) :
    ∃ list', list.relinkNode a list.last = some list' ∧ nexts list'.heap a = some none ∧
      list'.Is (seq ++ [(a, x)]) := by
  subst hblock
  have hget : list.heap a = some ⟨x, none, none⟩ := h.linked_src.1
  have hnodup := h.nodup
  have ha : a ∉ places seq := by
    rw [places_append] at hnodup
    exact fun ha ↦ (List.nodup_append.mp hnodup).2.2 a ha a (by simp) rfl
  cases seq using List.reverseRecOn with
  | nil =>
      have hfirst := h.first
      have hlast := h.last
      rw [first_nil] at hfirst
      rw [last_nil] at hlast
      have hprev : setPrev list.heap (some a) none = some list.heap := by
        rw [setPrev, modifyCell_eq hget, ← hget, Function.update_eq_self]
      have hnext : setNext list.heap (some a) none = some list.heap := by
        rw [setNext, modifyCell_eq hget, ← hget, Function.update_eq_self]
      refine ⟨⟨list.heap, some a, some a, list.count + 1⟩, ?_, nexts_of_get hget, ?_⟩
      · simp [relinkNode, hfirst, hlast, hprev, hnext]
        rfl
      · refine ⟨h.linked_src, h.nodup, h.freed, rfl, rfl, ?_⟩
        rw [h.count]
        rfl
  | append_singleton xs y _ =>
      obtain ⟨b, y⟩ := y
      have hlast : list.last = some b := h.last.trans (last_append_singleton _ _)
      have hba : b ≠ a := fun hba ↦ ha (hba ▸ by simp)
      obtain ⟨heap₁, hheap₁⟩ : ∃ heap₁, Function.update list.heap a (some ⟨x, some b, none⟩) =
          heap₁ := ⟨_, rfl⟩
      have hset₁ : setPrev list.heap (some a) (some b) = some heap₁ := by
        rw [setPrev, modifyCell_eq hget, ← hheap₁]
      have hrest₁ : ∀ d, d ≠ a → heap₁ d = list.heap d := fun d hd ↦ by
        rw [← hheap₁, Function.update_of_ne hd]
      have hget₁ : heap₁ a = some ⟨x, some b, none⟩ := by rw [← hheap₁, Function.update_self]
      have hlinked₁ : Linked heap₁ none (xs ++ [(b, y)]) none :=
        h.linked.congr fun d hd ↦ hrest₁ d (ne_of_mem_of_not_mem hd ha)
      have hgetb : heap₁ b = some ⟨y, DoublyLinked.last xs, none⟩ := by
        rw [hlinked₁.get, Option.or_none, Option.or_none, first_nil]
      obtain ⟨heap₂, hset₂, hlinked₂, hrest₂⟩ := hlinked₁.setNext h.nodup_seq (some a)
      rw [last_append_singleton] at hset₂
      have hget₂ : heap₂ a = some ⟨x, some b, none⟩ := (hrest₂ a ha).trans hget₁
      refine ⟨⟨heap₂, list.first, some a, list.count + 1⟩, ?_, ?_, ?_⟩
      · simp [relinkNode, hlast, hset₁, hgetb, hset₂]
      · exact nexts_of_get hget₂
      · refine ⟨linked_append.mpr ⟨hlinked₂, ?_, trivial⟩, h.nodup, fun d hd ↦ ?_, ?_,
          by rw [last_append_singleton], ?_⟩
        · rw [last_append_singleton]
          exact hget₂
        · have hd' := hd
          rw [places_append, List.mem_append, not_or] at hd'
          have hda : d ≠ a := by simpa using hd'.2
          exact (hrest₂ d hd'.1).trans ((hrest₁ d hda).trans (h.freed d hd))
        · simp [h.first, first_append]
        · simp [h.count]

theorem get_src {bs : NodeSeq α} (hblock : block = (a, x) :: bs) :
    nexts list.heap a = some (DoublyLinked.first bs) ∧ a ∉ places seq := by
  have hnodup := h.nodup
  rw [hblock, places_append] at hnodup
  have hlinked := h.linked_src
  rw [hblock] at hlinked
  have hget := hlinked.1
  rw [Option.or_none] at hget
  exact ⟨nexts_of_get hget, fun ha ↦ (List.nodup_append.mp hnodup).2.2 a ha a (by simp) rfl⟩

theorem nexts_ne_none {y : NodeInfo α} (hseq : seq = xs ++ (c, y) :: ys) :
    nexts list.heap c ≠ none := by
  have hlinked := h.linked
  rw [hseq] at hlinked
  rw [nexts_of_get hlinked.get]
  exact Option.some_ne_none _

/-- Before the end of the list the loop goes round. -/
theorem not_merges_before {bs : NodeSeq α} {y : NodeInfo α} (hseq : seq = xs ++ (c, y) :: ys)
    (hblock : block = (a, x) :: bs) (hafter : list.after place = DoublyLinked.last xs) :
    ¬ Merges list seq src block place := by
  obtain ⟨hnexta, ha⟩ := h.get_src hblock
  have hnextc := h.nexts_ne_none hseq
  have hsrc : src = some a := by rw [h.src_first, hblock, first_cons]
  have hca : c ≠ a := by
    rintro rfl
    exact ha (by simp [hseq])
  rw [hsrc, hblock]
  cases xs using List.reverseRecOn with
  | nil =>
      have hfirst : list.first = some c := by
        rw [h.first, hseq]
        rfl
      obtain ⟨list', hrelink, hnext, hrest⟩ := nexts_relinkNode_none hnexta
        fun d hd ↦ by rwa [← Option.some.inj (hfirst.symm.trans hd)]
      rw [← last_nil (π := NodeInfo α), ← hafter] at hrelink
      rw [hfirst] at hnext
      exact not_merges_of_round hrelink hnext (by rwa [hrest c hca])
  | append_singleton xs z _ =>
      obtain ⟨b, z⟩ := z
      rw [last_append_singleton] at hafter
      have hnextb : nexts list.heap b = some (some c) := by
        have hlinked := h.linked
        rw [hseq, List.append_assoc, List.singleton_append] at hlinked
        exact nexts_of_get hlinked.get
      have hab : a ≠ b := by
        rintro rfl
        exact ha (by simp [hseq])
      obtain ⟨list', hrelink, hnext, hrest⟩ := nexts_relinkNode_some hnextb hnexta
        (fun d hd ↦ by rwa [← Option.some.inj hd]) fun heq ↦ absurd heq hab
      rw [← hafter] at hrelink
      exact not_merges_of_round hrelink hnext (hrest c hnextc)

/-- Of several nodes only the first comes into an empty list, and at the end of another list the
loop goes round. -/
theorem not_merges_behind {bs : NodeSeq α} {y : NodeInfo α}
    (hblock : block = (a, x) :: (c, y) :: bs) (hafter : list.after place = list.last) :
    ¬ Merges list seq src block place := by
  obtain ⟨hnexta, ha⟩ := h.get_src hblock
  have hsrc : src = some a := by rw [h.src_first, hblock, first_cons]
  have hnextc : nexts list.heap c ≠ none := by
    have hlinked := h.linked_src
    rw [hblock] at hlinked
    simp [nexts, hlinked.2.1]
  rw [h.last] at hafter
  rw [hsrc, hblock]
  cases seq using List.reverseRecOn with
  | nil =>
      have hfirst : list.first = none := h.first
      obtain ⟨list', hrelink, hnext, -⟩ := nexts_relinkNode_none hnexta
        fun d hd ↦ by simp [hfirst] at hd
      rw [← last_nil (π := NodeInfo α), ← hafter] at hrelink
      rw [hfirst] at hnext
      rintro ⟨n, list₁, hmerge, -⟩
      cases n with
      | zero => simp [listMerge, mergeLoop] at hmerge
      | succ n =>
          rw [listMerge, mergeLoop_succ hrelink hnext] at hmerge
          simp [mergeLoop] at hmerge
          omega
  | append_singleton xs z _ =>
      obtain ⟨b, z⟩ := z
      rw [last_append_singleton] at hafter
      have hnextb : nexts list.heap b = some none := nexts_of_get h.linked.get
      have hab : a ≠ b := by
        rintro rfl
        exact ha (by simp)
      obtain ⟨list', hrelink, hnext, hrest⟩ := nexts_relinkNode_some hnextb hnexta
        (fun d hd ↦ by cases hd) fun heq ↦ absurd heq hab
      rw [← hafter] at hrelink
      exact not_merges_of_round hrelink hnext (hrest c hnextc)

/-- `listMerge` does what it should just for an empty source, and for a source of one node at
the end of the list. -/
theorem merges_iff (hplace : PlaceIn place seq) :
    Merges list seq src block place ↔
      block = [] ∨ block.length = 1 ∧ list.after place = list.last := by
  obtain ⟨xs, ys, hseq, hafter, hsplice⟩ := h.splice hplace
  rcases block with _ | ⟨⟨a, x⟩, bs⟩
  · refine iff_of_true ⟨0, list, ?_, ?_⟩ (.inl rfl)
    · rw [h.src_first]
      rfl
    · rw [hsplice, List.nil_append, ← hseq]
      have hfreed := h.freed
      rw [List.append_nil] at hfreed
      exact ⟨h.linked, h.nodup_seq, hfreed, h.first, h.last, h.count⟩
  · rw [or_iff_right (List.cons_ne_nil _ _)]
    rcases ys with _ | ⟨⟨c, y⟩, ys⟩
    · rw [List.append_nil] at hseq
      have hlast : list.after place = list.last := by rw [hafter, h.last, hseq]
      rcases bs with _ | ⟨⟨c, y⟩, bs⟩
      · refine iff_of_true ?_ ⟨rfl, hlast⟩
        have hsrc : src = some a := h.src_first
        obtain ⟨list', hrelink, hnext, his⟩ := h.is_append rfl
        rw [← hlast] at hrelink
        refine ⟨1, list', ?_, ?_⟩
        · rw [hsrc, listMerge, mergeLoop_succ hrelink hnext, mergeLoop]
          rfl
        · rwa [hsplice, List.append_nil, ← hseq]
      · exact iff_of_false (h.not_merges_behind rfl hlast) fun hone ↦ by simp at hone
    · refine iff_of_false (h.not_merges_before hseq rfl hafter) fun hend ↦ ?_
      rw [hafter, h.last, hseq] at hend
      exact last_ne_last (hseq ▸ h.nodup_seq) (List.cons_ne_nil _ _) hend.2

end Apart

theorem placeIn_last : PlaceIn .last seq := by
  rintro a ⟨⟩

/-- An empty list beside a source with the nodes of the heap. -/
def emptyBeside (heap : Heap (NodeInfo ℕ)) : LinkList ℕ := ⟨heap, none, none, 0⟩

theorem apart_one : Apart
    (emptyBeside fun b ↦ if b = 10 then some ⟨⟨some 7, 1, false, false⟩, none, none⟩ else none)
    [] (some 10) [(10, ⟨some 7, 1, false, false⟩)] :=
  ⟨trivial, ⟨rfl, trivial⟩, by simp, fun _ hb ↦ if_neg (by simpa using hb), rfl, rfl, rfl, rfl⟩

theorem merges_iff_one : Merges
    (emptyBeside fun b ↦ if b = 10 then some ⟨⟨some 7, 1, false, false⟩, none, none⟩ else none)
    [] (some 10) [(10, ⟨some 7, 1, false, false⟩)] .last :=
  (apart_one.merges_iff placeIn_last).mpr (.inr ⟨rfl, rfl⟩)

/-- Of two nodes only the first comes into an empty list. -/
theorem not_merges :
    ¬ ∀ (list : LinkList ℕ) (seq block : NodeSeq ℕ) (src : Option ℕ) (place : Place),
      Apart list seq src block → PlaceIn place seq → Merges list seq src block place := by
  intro h
  have hapart : Apart (emptyBeside fun b ↦
        if b = 10 then some ⟨⟨some 7, 1, false, false⟩, none, some 11⟩
        else if b = 11 then some ⟨⟨some 8, 2, false, false⟩, some 10, none⟩ else none)
      [] (some 10) [(10, ⟨some 7, 1, false, false⟩), (11, ⟨some 8, 2, false, false⟩)] := by
    refine ⟨trivial, ⟨rfl, rfl, trivial⟩, by simp, fun b hb ↦ ?_, rfl, rfl, rfl, rfl⟩
    have hne : b ≠ 10 ∧ b ≠ 11 := by simpa using hb
    exact (if_neg hne.1).trans (if_neg hne.2)
  exact hapart.not_merges_behind rfl rfl (h _ _ _ _ .last hapart placeIn_last)

end LinkList

end Synchronet.Xpdev
