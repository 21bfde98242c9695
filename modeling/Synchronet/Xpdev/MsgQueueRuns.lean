import Synchronet.Xpdev.MsgQueue
import Mathlib.Algebra.Order.BigOperators.Group.Finset
import Mathlib.Tactic.Cases
import Mathlib.Tactic.FinCases

/-!
# Runs of message queues

The units that the waits of a list have taken and not given back, together with its
semaphore, make up the number of its messages.  The steps that break this are a
`msgQueueFind` that removes a message and a read that shifts one after its wait timed out.
-/

namespace Synchronet.Xpdev

open DoublyLinked

/-- The units of the semaphore that a thread holds. -/
def Phase.units : Phase → ℕ
  | .waitPost => 1
  | .readShift true => 1
  | .peekPost => 1
  | _ => 0

@[simp] theorem Phase.units_idle : Phase.idle.units = 0 := rfl

@[simp] theorem Phase.units_readShift (waited : Bool) :
    (Phase.readShift waited).units = if waited then 1 else 0 := by
  cases waited <;> rfl

/-- The nodes that `msgQueueWrite` makes. -/
structure SemList.Plain {α : Type} (list : SemList α) : Prop where
  nodup : (places list.nodes).Nodup
  unlocked : ∀ x ∈ list.nodes, x.2.locked = false
  data : ∀ x ∈ list.nodes, x.2.data ≠ none

namespace MsgQueue

variable {α T : Type}

/-! ## One list -/

/-- The next operation takes no message without a unit of the semaphore. -/
def KeepsRead (list : SemList α) (phase : Phase) : Act α → Prop
  | .resume => (phase = .readShift false → list.nodes = []) ∧ ∀ a, phase ≠ .findRemove a
  | _ => True

/-- What one operation of a thread can do to the list that it reads from. -/
inductive ReadEffect (list : SemList α) :
    Phase → Act α → SemList α → Phase → Option (Reply α) → Prop
  | quiet {phase act phase' reply} (hkeeps : KeepsRead list phase act) (hunits : phase.units = 0)
      (hunits' : phase'.units = 0) (hphase : phase' ≠ .readShift false) (hwait : reply ≠ some (.wait true))
      (hread : ∀ data, reply ≠ some (.read data)) : ReadEffect list phase act list phase' reply
  | take {act phase'} (hsem : 0 < list.sem) (hunits' : phase'.units = 1) :
      ReadEffect list .idle act { list with sem := list.sem - 1 } phase' none
  | timeOut {timeout} (hsem : list.sem = 0) (htimeout : 0 ≤ timeout) :
      ReadEffect list .idle (.msgQueueRead timeout) list (.readShift false) none
  | post {phase phase' reply} (hkeeps : KeepsRead list phase .resume) (hunits : phase.units = 1)
      (hunits' : phase'.units = 0) (hphase : phase' ≠ .readShift false) (hread : ∀ data, reply ≠ some (.read data)) :
      ReadEffect list phase .resume { list with sem := list.sem + 1 } phase' reply
  | shift (waited : Bool) :
      ReadEffect list (.readShift waited) .resume { list with nodes := list.nodes.remove .first }
        .idle (some (.read (list.nodes.head?.bind fun x ↦ x.2.data)))
  | remove {a : ℕ} {x : NodeInfo α} (hx : list.nodes.lookup a = some x) :
      ReadEffect list (.findRemove a) .resume
        { list with nodes := list.nodes.remove (.node a) } .idle (some (.find x.data))

variable {list list' : SemList α} {phase phase' : Phase} {act : Act α} {reply : Option (Reply α)}

theorem listWait_cases {timeout : ℤ} {waited : Bool}
    (h : listWait list timeout = some (list', waited)) :
    (0 < list.sem ∧ list' = { list with sem := list.sem - 1 } ∧ waited = true) ∨
      (list.sem = 0 ∧ 0 ≤ timeout ∧ list' = list ∧ waited = false) := by
  rw [listWait] at h
  split at h
  case isTrue hsem =>
    simp only [Option.some.injEq, Prod.mk.injEq] at h
    exact .inl ⟨hsem, h.1.symm, h.2.symm⟩
  case isFalse hsem =>
    split at h
    · cases h
    case isFalse htimeout =>
      simp only [Option.some.injEq, Prod.mk.injEq] at h
      exact .inr ⟨by omega, by omega, h.1.symm, h.2.symm⟩

theorem readStep_cases (h : readStep list phase act = some (list', phase', reply)) :
    ReadEffect list phase act list' phase' reply := by
  unfold readStep at h
  split at h
  case h_1 timeout =>
    obtain ⟨⟨list₁, waited⟩, hwait, h⟩ := Option.bind_eq_some_iff.mp h
    obtain ⟨hsem, rfl, rfl⟩ | ⟨hsem, htimeout, rfl, rfl⟩ := listWait_cases hwait
    · cases h
      exact .take hsem rfl
    · cases h
      exact .quiet trivial rfl rfl (by decide) (by simp) (by simp)
  case h_2 timeout =>
    obtain ⟨⟨list₁, waited⟩, hwait, h⟩ := Option.bind_eq_some_iff.mp h
    obtain ⟨hsem, rfl, rfl⟩ | ⟨hsem, htimeout, rfl, rfl⟩ := listWait_cases hwait
    · cases h
      exact .take hsem rfl
    · cases h
      exact .timeOut hsem htimeout
  case h_3 timeout =>
    obtain ⟨⟨list₁, waited⟩, hwait, h⟩ := Option.bind_eq_some_iff.mp h
    obtain ⟨hsem, rfl, rfl⟩ | ⟨hsem, htimeout, rfl, rfl⟩ := listWait_cases hwait
    · cases h
      exact .take hsem rfl
    · cases h
      exact .quiet trivial rfl rfl (by decide) (by simp) (by simp)
  case h_4 equal =>
    split at h
    · cases h
      exact .quiet trivial rfl rfl (by decide) (by simp) (by simp)
    · cases h
      exact .quiet trivial rfl rfl (by simp) (by simp) (by simp)
  case h_5 =>
    cases h
    exact .post (by simp [KeepsRead]) rfl rfl (by decide) (by simp)
  case h_6 waited =>
    cases h
    exact .shift waited
  case h_7 =>
    cases h
    exact .post (by simp [KeepsRead]) rfl rfl (by decide) (by simp)
  case h_8 =>
    cases h
    exact .quiet (by simp [KeepsRead]) rfl rfl (by simp) (by simp) (by simp)
  case h_9 =>
    cases h
    exact .quiet (by simp [KeepsRead]) rfl rfl (by decide) (by simp) (by simp)
  case h_10 a =>
    obtain ⟨x, hx, h⟩ := Option.bind_eq_some_iff.mp h
    cases h
    exact .quiet (by simp [KeepsRead]) rfl rfl (by decide) (by simp) (by simp)
  case h_11 a =>
    obtain ⟨x, hx, h⟩ := Option.bind_eq_some_iff.mp h
    cases h
    exact .remove hx
  case h_12 => cases h

theorem remove_first_cons {x : ℕ × NodeInfo α} {seq : NodeSeq α} (hx : x.2.locked = false) :
    NodeSeq.remove (x :: seq) .first = seq := by
  rw [NodeSeq.remove, NodeSeq.unlink, if_pos rfl, hx, if_neg Bool.false_ne_true]

theorem Plain.remove_first (h : list.Plain) :
    SemList.Plain { list with nodes := list.nodes.remove .first } ∧
      (list.nodes.remove .first).length = list.nodes.length - 1 := by
  obtain ⟨nodes, sem⟩ := list
  obtain ⟨hnodup, hunlocked, hdata⟩ := h
  cases nodes with
  | nil => exact ⟨⟨hnodup, hunlocked, hdata⟩, rfl⟩
  | cons x nodes =>
      dsimp only at *
      rw [remove_first_cons (hunlocked x List.mem_cons_self)]
      refine ⟨⟨(List.nodup_cons.mp hnodup).2, ?_, ?_⟩, rfl⟩
      · exact fun y hy ↦ hunlocked y (List.mem_cons_of_mem x hy)
      · exact fun y hy ↦ hdata y (List.mem_cons_of_mem x hy)

/-- The messages change as the semaphore and the thread's units do. -/
theorem ReadEffect.balance (h : ReadEffect list phase act list' phase' reply) (hplain : list.Plain)
    (hunits : phase.units ≤ list.nodes.length) (hkeeps : KeepsRead list phase act) :
    list'.Plain ∧
      list'.sem + phase'.units + list.nodes.length =
        list.sem + phase.units + list'.nodes.length := by
  cases h with
  | quiet _ hunits₁ hunits' => exact ⟨hplain, by rw [hunits₁, hunits']⟩
  | take hsem hunits' =>
      refine ⟨⟨hplain.nodup, hplain.unlocked, hplain.data⟩, ?_⟩
      rw [hunits', Phase.units_idle]
      dsimp only
      omega
  | timeOut => exact ⟨hplain, rfl⟩
  | post _ hunits₁ hunits' =>
      refine ⟨⟨hplain.nodup, hplain.unlocked, hplain.data⟩, ?_⟩
      rw [hunits₁, hunits']
  | shift waited =>
      obtain ⟨hplain', hlength⟩ := Plain.remove_first hplain
      refine ⟨hplain', ?_⟩
      dsimp only
      rw [hlength]
      cases waited with
      | false =>
          rw [hkeeps.1 rfl]
          rfl
      | true =>
          rw [Phase.units_idle, Phase.units_readShift, if_pos rfl] at *
          omega
  | remove => exact absurd rfl (hkeeps.2 _)

/-! ## All threads -/

variable [DecidableEq T] [Fintype T]

/-- The units that the readers of a list hold: the messages that are waited for. -/
def held (q : MsgQueue α T) (side : Side) : ℕ :=
  ∑ t, if q.msgQueueReadList t = side then (q.phase t).units else 0

/-- The semaphore of each list counts the messages that are not waited for. -/
structure Balanced (q : MsgQueue α T) : Prop where
  plain : ∀ side, (q.lists side).Plain
  count : ∀ side, (q.lists side).sem + q.held side = (q.lists side).nodes.length

/-- The allocator gives a write an address that is not in use. -/
def Valid (q : MsgQueue α T) (t : T) : Act α → Prop
  | .msgQueueWrite _ (some a) => a ∉ places (q.lists (q.msgQueueWriteList t)).nodes
  | _ => True

/-- The action takes no message without a unit of the semaphore. -/
def Keeps (q : MsgQueue α T) (t : T) (act : Act α) : Prop :=
  KeepsRead (q.lists (q.msgQueueReadList t)) (q.phase t) act

variable {q q' : MsgQueue α T} {t : T} {side : Side}

omit [Fintype T] in
theorem step_cases (h : q.step t act = some (q', reply)) :
    (∃ buf malloc, act = .msgQueueWrite buf malloc ∧ q.phase t = .idle ∧
        q' = { q with
          lists := Function.update q.lists (q.msgQueueWriteList t)
            (listPushNodeData (q.lists (q.msgQueueWriteList t)) buf malloc).1 } ∧
        reply = some (.write (listPushNodeData (q.lists (q.msgQueueWriteList t)) buf malloc).2)) ∨
      (∀ buf malloc, act ≠ .msgQueueWrite buf malloc) ∧ ∃ list' phase',
        ReadEffect (q.lists (q.msgQueueReadList t)) (q.phase t) act list' phase' reply ∧
        q' = { q with
          lists := Function.update q.lists (q.msgQueueReadList t) list'
          phase := Function.update q.phase t phase' } := by
  unfold step at h
  split at h
  case h_1 buf malloc =>
    split at h
    case isTrue hidle =>
      simp only [Option.some.injEq, Prod.mk.injEq] at h
      exact .inl ⟨buf, malloc, rfl, hidle, h.1.symm, h.2.symm⟩
    · cases h
  case h_2 hact =>
    obtain ⟨⟨list', phase', reply'⟩, hread, h⟩ := Option.bind_eq_some_iff.mp h
    simp only [Option.some.injEq, Prod.mk.injEq] at h
    obtain ⟨hq, rfl⟩ := h
    exact .inr ⟨hact, list', phase', readStep_cases hread, hq.symm⟩

theorem held_update (q : MsgQueue α T) (lists : Side → SemList α) (t : T) (phase' : Phase)
    (side : Side) :
    held { q with lists, phase := Function.update q.phase t phase' } side +
        (if q.msgQueueReadList t = side then (q.phase t).units else 0) =
      q.held side + if q.msgQueueReadList t = side then phase'.units else 0 := by
  have hrest : ∀ phase₁ : T → Phase, (∀ u, u ≠ t → phase₁ u = q.phase u) →
      (∑ u, if q.msgQueueReadList u = side then (phase₁ u).units else 0) =
        (if q.msgQueueReadList t = side then (phase₁ t).units else 0) +
          ∑ u ∈ Finset.univ.erase t,
            if q.msgQueueReadList u = side then (q.phase u).units else 0 := by
    intro phase₁ hphase
    rw [← Finset.add_sum_erase _ _ (Finset.mem_univ t)]
    congr 1
    apply Finset.sum_congr rfl
    intro u hu
    rw [hphase u (Finset.ne_of_mem_erase hu)]
  have hnew := hrest (Function.update q.phase t phase') fun u hu ↦ Function.update_of_ne hu _ _
  have hold := hrest q.phase fun _ _ ↦ rfl
  rw [Function.update_self] at hnew
  rw [held, held, hold]
  refine (congrArg (· + _) hnew).trans ?_
  omega

theorem units_le_held (q : MsgQueue α T) (t : T) :
    (q.phase t).units ≤ q.held (q.msgQueueReadList t) := by
  have h := Finset.single_le_sum
    (f := fun u ↦ if q.msgQueueReadList u = q.msgQueueReadList t then (q.phase u).units else 0)
    (fun _ _ ↦ Nat.zero_le _) (Finset.mem_univ t)
  rw [if_pos rfl] at h
  exact h

/-- A write adds a message and a unit, or nothing. -/
theorem listPushNodeData_balance (buf : Option α) (malloc : Option ℕ) (hplain : list.Plain)
    (hvalid : ∀ a, malloc = some a → a ∉ places list.nodes) :
    (listPushNodeData list buf malloc).1.Plain ∧
      (listPushNodeData list buf malloc).1.sem + list.nodes.length =
        list.sem + (listPushNodeData list buf malloc).1.nodes.length ∧
      list.nodes.length ≤ (listPushNodeData list buf malloc).1.nodes.length := by
  cases buf with
  | none => exact ⟨hplain, rfl, le_rfl⟩
  | some buf =>
      cases malloc with
      | none => exact ⟨hplain, rfl, le_rfl⟩
      | some a =>
          have ha := hvalid a rfl
          refine ⟨⟨?_, ?_, ?_⟩, ?_, ?_⟩
          · simp only [listPushNodeData, NodeSeq.splice, places_append, places_cons, places_nil]
            rw [List.nodup_append]
            refine ⟨hplain.nodup, List.nodup_singleton a, fun b hb c hc ↦ ?_⟩
            rw [List.mem_singleton.mp hc]
            exact ne_of_mem_of_not_mem hb ha
          · intro x hx
            rcases List.mem_append.mp hx with hx | hx
            · exact hplain.unlocked x hx
            · rw [List.mem_singleton.mp hx]
          · intro x hx
            rcases List.mem_append.mp hx with hx | hx
            · exact hplain.data x hx
            · rw [List.mem_singleton.mp hx]
              simp
          · simp [listPushNodeData, NodeSeq.splice]
            omega
          · simp [listPushNodeData, NodeSeq.splice]

theorem msgQueueInit_balanced (owner : T) (bidir : Bool) :
    (msgQueueInit owner bidir : MsgQueue α T).Balanced := by
  refine ⟨fun _ ↦ ⟨List.nodup_nil, by simp [msgQueueInit], by simp [msgQueueInit]⟩, fun side ↦ ?_⟩
  have hheld : (msgQueueInit owner bidir : MsgQueue α T).held side = 0 :=
    Finset.sum_eq_zero fun t _ ↦ ite_self _
  rw [hheld]
  rfl

theorem Balanced.step (h : q.Balanced) (hstep : q.step t act = some (q', reply))
    (hvalid : q.Valid t act) (hkeeps : q.Keeps t act) : q'.Balanced := by
  obtain ⟨buf, malloc, rfl, -, rfl, -⟩ | ⟨-, list', phase', heffect, rfl⟩ := step_cases hstep
  · have hfresh : ∀ a, malloc = some a → a ∉ places (q.lists (q.msgQueueWriteList t)).nodes := by
      rintro a rfl
      exact hvalid
    obtain ⟨hplain, hcount, -⟩ := listPushNodeData_balance buf malloc (h.plain _) hfresh
    refine ⟨fun side ↦ ?_, fun side ↦ ?_⟩
    · by_cases hside : side = q.msgQueueWriteList t
      · rw [hside]
        simpa only [Function.update_self] using hplain
      · simpa only [Function.update_of_ne hside] using h.plain side
    · have hheld := h.count side
      change (Function.update q.lists _ _ side).sem + q.held side = _
      by_cases hside : side = q.msgQueueWriteList t
      · rw [hside] at hheld ⊢
        simp only [Function.update_self]
        omega
      · simpa only [Function.update_of_ne hside] using hheld
  · have hunits : (q.phase t).units ≤ (q.lists (q.msgQueueReadList t)).nodes.length := by
      have h₁ := units_le_held q t
      have h₂ := h.count (q.msgQueueReadList t)
      omega
    obtain ⟨hplain, hcount⟩ := heffect.balance (h.plain _) hunits hkeeps
    refine ⟨fun side ↦ ?_, fun side ↦ ?_⟩
    · by_cases hside : side = q.msgQueueReadList t
      · rw [hside]
        simpa only [Function.update_self] using hplain
      · simpa only [Function.update_of_ne hside] using h.plain side
    · have hbefore := h.count side
      have hheld := held_update q (Function.update q.lists (q.msgQueueReadList t) list') t phase' side
      by_cases hside : side = q.msgQueueReadList t
      · rw [hside] at hbefore hheld ⊢
        rw [if_pos rfl, if_pos rfl] at hheld
        simp only [Function.update_self]
        omega
      · rw [if_neg (Ne.symm hside), if_neg (Ne.symm hside)] at hheld
        simp only [Function.update_of_ne hside]
        omega

/-! ## A single reader -/

/-- Whether `msgQueueWait` has returned `TRUE` in the thread since its last read. -/
def observe (r : T) (waited : Bool) : T × Option (Reply α) → Bool
  | (t, some (.wait true)) => if t = r then true else waited
  | (t, some (.read _)) => if t = r then false else waited
  | _ => waited

/-- No other thread reads from the list, and a message that was waited for is there. -/
structure Watched (q : MsgQueue α T) (r : T) (waited : Bool) : Prop where
  sole : ∀ u, u ≠ r → q.msgQueueReadList u = q.msgQueueReadList r → q.phase u = .idle
  ready : waited = true →
    (q.lists (q.msgQueueReadList r)).nodes ≠ [] ∧ q.phase r ≠ .readShift false

variable {r : T} {waited : Bool}

theorem held_sole (h : ∀ u, u ≠ r → q.msgQueueReadList u = q.msgQueueReadList r →
    q.phase u = .idle) : q.held (q.msgQueueReadList r) = (q.phase r).units := by
  rw [held, Finset.sum_eq_single_of_mem r (Finset.mem_univ r), if_pos rfl]
  intro u _ hu
  by_cases hside : q.msgQueueReadList u = q.msgQueueReadList r
  · rw [if_pos hside, h u hu hside, Phase.units_idle]
  · exact if_neg hside

omit [Fintype T] in
/-- The step of a thread that does not read from the list of `r`. -/
theorem Watched.step_other (h : q.Watched r waited) (ht : t ≠ r)
    (hside : q.msgQueueReadList t ≠ q.msgQueueReadList r) (list' : SemList α) (phase' : Phase) :
    Watched { q with
      lists := Function.update q.lists (q.msgQueueReadList t) list'
      phase := Function.update q.phase t phase' } r waited := by
  refine ⟨fun u hu hread ↦ ?_, fun hwaited ↦ ?_⟩
  · have hut : u ≠ t := by
      rintro rfl
      exact hside hread
    exact (Function.update_of_ne hut _ _).trans (h.sole u hu hread)
  · obtain ⟨hnodes, hphase⟩ := h.ready hwaited
    refine ⟨?_, ?_⟩
    · intro hnil
      refine hnodes ?_
      rw [← hnil]
      exact congrArg SemList.nodes (Function.update_of_ne (Ne.symm hside) _ _).symm
    · exact fun hr ↦ hphase ((Function.update_of_ne (Ne.symm ht) _ _).symm.trans hr)

/-- The step of the only reader itself. -/
theorem Watched.step_reader (h : q.Watched r waited) (hbalanced : q.Balanced)
    {list' : SemList α}
    (heffect : ReadEffect (q.lists (q.msgQueueReadList r)) (q.phase r) act list' phase' reply)
    (hkeeps : q.Keeps r act) :
    Watched { q with
      lists := Function.update q.lists (q.msgQueueReadList r) list'
      phase := Function.update q.phase r phase' } r (observe r waited (r, reply)) := by
  have hheld := held_sole h.sole
  have hcount := hbalanced.count (q.msgQueueReadList r)
  have hready := h.ready
  refine ⟨fun u hu hread ↦ (Function.update_of_ne hu _ _).trans (h.sole u hu hread), ?_⟩
  change _ → ((Function.update q.lists _ list') (q.msgQueueReadList r)).nodes ≠ [] ∧
    Function.update q.phase r phase' r ≠ _
  rw [Function.update_self, Function.update_self]
  unfold Keeps at hkeeps
  generalize hphase : q.phase r = phase at *
  generalize q.lists (q.msgQueueReadList r) = list at *
  cases heffect with
  | quiet _ _ _ hphase' hwait hread =>
      have hobserve : observe r waited (r, reply) = waited := by
        unfold observe
        split <;> simp_all
      rw [hobserve]
      exact fun hwaited ↦ ⟨(hready hwaited).1, hphase'⟩
  | take _ hunits' =>
      refine fun hwaited ↦ ⟨(hready hwaited).1, ?_⟩
      rintro rfl
      cases hunits'
  | timeOut hsem =>
      intro hwaited
      rw [hsem, hheld, Phase.units_idle] at hcount
      exact absurd (List.length_eq_zero_iff.mp hcount.symm) (hready hwaited).1
  | post _ hunits _ hphase' =>
      refine fun _ ↦ ⟨?_, hphase'⟩
      dsimp only
      rintro hnil
      rw [hnil, hheld, hunits, List.length_nil] at hcount
      omega
  | shift =>
      intro hwaited
      simp [observe] at hwaited
  | remove => exact absurd rfl (hkeeps.2 _)

theorem Watched.step (h : q.Watched r waited) (hbalanced : q.Balanced)
    (hstep : q.step t act = some (q', reply)) (hvalid : q.Valid t act) (hkeeps : q.Keeps t act)
    (hsole : t ≠ r → q.msgQueueReadList t = q.msgQueueReadList r →
      ∃ buf malloc, act = .msgQueueWrite buf malloc) :
    q'.Watched r (observe r waited (t, reply)) := by
  obtain ⟨buf, malloc, rfl, -, rfl, rfl⟩ | ⟨hact, list', phase', heffect, rfl⟩ := step_cases hstep
  · have hfresh : ∀ a, malloc = some a → a ∉ places (q.lists (q.msgQueueWriteList t)).nodes := by
      rintro a rfl
      exact hvalid
    obtain ⟨-, -, hlength⟩ := listPushNodeData_balance buf malloc (hbalanced.plain _) hfresh
    refine ⟨h.sole, fun hwaited ↦ ?_⟩
    obtain ⟨hnodes, hphase⟩ := h.ready hwaited
    refine ⟨fun hnil ↦ hnodes ?_, hphase⟩
    change (Function.update q.lists _ _ (q.msgQueueReadList r)).nodes = [] at hnil
    by_cases hside : q.msgQueueReadList r = q.msgQueueWriteList t
    · rw [hside, Function.update_self] at hnil
      rw [hnil, List.length_nil] at hlength
      rw [hside]
      exact List.length_eq_zero_iff.mp (Nat.le_zero.mp hlength)
    · rwa [Function.update_of_ne hside] at hnil
  · by_cases ht : t = r
    · obtain rfl := ht
      exact h.step_reader hbalanced heffect hkeeps
    · have hside : q.msgQueueReadList t ≠ q.msgQueueReadList r := by
        intro hside
        obtain ⟨buf, malloc, rfl⟩ := hsole ht hside
        exact hact buf malloc rfl
      have hobserve : observe r waited (t, reply) = waited := by
        unfold observe
        split <;> simp_all
      rw [hobserve]
      exact h.step_other ht hside list' phase'

/-! ## Messages that are taken without a unit -/

theorem lookup_split {seq : NodeSeq α} {a : ℕ} {x : NodeInfo α} (h : seq.lookup a = some x) :
    ∃ xs ys, seq = xs ++ (a, x) :: ys ∧ a ∉ places xs := by
  induction seq with
  | nil => cases h
  | cons y seq ih =>
      obtain ⟨b, y⟩ := y
      by_cases hab : a = b
      · obtain rfl := hab
        rw [List.lookup_cons_self] at h
        obtain rfl := Option.some.inj h
        exact ⟨[], seq, rfl, List.not_mem_nil⟩
      · rw [List.lookup_cons, beq_false_of_ne hab] at h
        obtain ⟨xs, ys, rfl, ha⟩ := ih h
        refine ⟨(b, y) :: xs, ys, rfl, fun hmem ↦ ?_⟩
        rcases List.mem_cons.mp hmem with hmem | hmem
        · exact hab hmem
        · exact ha hmem

/-- A step that takes a message without a unit leaves the semaphore behind the messages. -/
theorem Balanced.step_unbalanced (h : q.Balanced) (hstep : q.step t act = some (q', reply))
    (hkeeps : ¬ q.Keeps t act) : ¬ q'.Balanced := by
  intro h'
  obtain ⟨_, _, rfl, -⟩ | ⟨hact, list', phase', heffect, rfl⟩ := step_cases hstep
  · exact hkeeps trivial
  have hplain := h.plain (q.msgQueueReadList t)
  have hbefore := h.count (q.msgQueueReadList t)
  have hafter : list'.sem + held { q with
      lists := Function.update q.lists (q.msgQueueReadList t) list'
      phase := Function.update q.phase t phase' } (q.msgQueueReadList t) = list'.nodes.length := by
    simpa only [Function.update_self] using h'.count (q.msgQueueReadList t)
  have hheld := held_update q (Function.update q.lists (q.msgQueueReadList t) list') t phase'
    (q.msgQueueReadList t)
  rw [if_pos rfl, if_pos rfl] at hheld
  unfold Keeps at hkeeps
  generalize held { q with
      lists := Function.update q.lists (q.msgQueueReadList t) list'
      phase := Function.update q.phase t phase' } (q.msgQueueReadList t) = held' at hafter hheld
  generalize q.phase t = phase at *
  generalize q.lists (q.msgQueueReadList t) = list at *
  cases heffect with
  | quiet hkept => exact hkeeps hkept
  | post hkept => exact hkeeps hkept
  | take => exact hkeeps (by cases act <;> simp [KeepsRead])
  | timeOut => exact hkeeps trivial
  | shift waited =>
      cases waited with
      | true => exact hkeeps (by simp [KeepsRead])
      | false =>
          have hnodes : list.nodes ≠ [] := fun hnil ↦ hkeeps ⟨fun _ ↦ hnil, by simp⟩
          have hpos := List.length_pos_iff.mpr hnodes
          dsimp only at hafter
          rw [(Plain.remove_first hplain).2] at hafter
          simp only [Phase.units_idle, Phase.units_readShift, Bool.false_eq_true, if_false] at hheld
          omega
  | remove hx =>
      obtain ⟨xs, ys, hsplit, ha⟩ := lookup_split hx
      have hunlocked := hplain.unlocked _ (hsplit ▸ List.mem_append_right xs List.mem_cons_self)
      dsimp only at hafter
      rw [hsplit, NodeSeq.remove, NodeSeq.unlink_place ha, hunlocked,
        if_neg Bool.false_ne_true] at hafter
      rw [hsplit] at hbefore
      simp only [Phase.units] at hheld
      simp only [List.length_append, List.length_cons] at hafter hbefore
      omega

/-! ## Runs -/

/-- Every step of a run has a property, at the queue that it finds. -/
def Along (p : MsgQueue α T → T → Act α → Prop) : MsgQueue α T → List (T × Act α) → Prop
  | _, [] => True
  | q, (t, act) :: steps =>
      p q t act ∧ ∀ q' reply, q.step t act = some (q', reply) → Along p q' steps

omit [Fintype T] in
theorem Along.cons {p : MsgQueue α T → T → Act α → Prop} {steps : List (T × Act α)}
    (hstep : q.step t act = some (q', reply)) (h : p q t act) (hrest : Along p q' steps) :
    Along p q ((t, act) :: steps) := by
  refine ⟨h, fun q₁ reply₁ hstep₁ ↦ ?_⟩
  rw [hstep] at hstep₁
  simp only [Option.some.injEq, Prod.mk.injEq] at hstep₁
  exact hstep₁.1 ▸ hrest

/-- Whether `msgQueueWait` has returned `TRUE` in the thread since its last read. -/
def waitedSince (r : T) (waited : Bool) (replies : List (T × Reply α)) : Bool :=
  replies.foldl (fun waited x ↦ observe r waited (x.1, some x.2)) waited

/-- The threads besides `r` that read from its list do nothing but write. -/
def OnlyReader (q : MsgQueue α T) (r : T) (steps : List (T × Act α)) : Prop :=
  ∀ x ∈ steps, x.1 ≠ r → q.msgQueueReadList x.1 = q.msgQueueReadList r →
    ∃ buf malloc, x.2 = .msgQueueWrite buf malloc

variable {steps : List (T × Act α)} {replies : List (T × Reply α)}

omit [Fintype T] in
theorem step_readList (h : q.step t act = some (q', reply)) :
    q'.msgQueueReadList = q.msgQueueReadList := by
  obtain ⟨_, _, -, -, rfl, -⟩ | ⟨-, _, _, -, rfl⟩ := step_cases h <;> rfl

omit [Fintype T] in
theorem run_cons (h : q.run ((t, act) :: steps) = some (q', replies)) :
    ∃ q₁ reply replies₁, q.step t act = some (q₁, reply) ∧ q₁.run steps = some (q', replies₁) ∧
      replies = (reply.map fun reply ↦ (t, reply)).toList ++ replies₁ := by
  obtain ⟨⟨q₁, reply⟩, hstep, h⟩ := Option.bind_eq_some_iff.mp h
  obtain ⟨⟨q₂, replies₁⟩, hrun, h⟩ := Option.bind_eq_some_iff.mp h
  simp only [Option.some.injEq, Prod.mk.injEq] at h
  obtain ⟨rfl, rfl⟩ := h
  exact ⟨q₁, reply, replies₁, hstep, hrun, rfl⟩

theorem Balanced.run (h : q.Balanced) (hrun : q.run steps = some (q', replies))
    (hvalid : Along Valid q steps) (hkeeps : Along Keeps q steps) : q'.Balanced := by
  induction steps generalizing q replies with
  | nil =>
      simp only [MsgQueue.run, Option.some.injEq, Prod.mk.injEq] at hrun
      exact hrun.1 ▸ h
  | cons x steps ih =>
      obtain ⟨t, act⟩ := x
      obtain ⟨q₁, reply, replies₁, hstep, hrun₁, rfl⟩ := run_cons hrun
      exact ih (h.step hstep hvalid.1 hkeeps.1) hrun₁ (hvalid.2 _ _ hstep) (hkeeps.2 _ _ hstep)

theorem Watched.run (h : q.Watched r waited) (hbalanced : q.Balanced)
    (hrun : q.run steps = some (q', replies)) (hvalid : Along Valid q steps)
    (hkeeps : Along Keeps q steps) (hsole : q.OnlyReader r steps) :
    q'.Watched r (waitedSince r waited replies) := by
  induction steps generalizing q replies waited with
  | nil =>
      simp only [MsgQueue.run, Option.some.injEq, Prod.mk.injEq] at hrun
      obtain ⟨rfl, rfl⟩ := hrun
      exact h
  | cons x steps ih =>
      obtain ⟨t, act⟩ := x
      obtain ⟨q₁, reply, replies₁, hstep, hrun₁, rfl⟩ := run_cons hrun
      have hsole₁ : q₁.OnlyReader r steps := by
        intro x hx
        rw [step_readList hstep]
        exact hsole x (List.mem_cons_of_mem _ hx)
      have h₁ := h.step hbalanced hstep hvalid.1 hkeeps.1 (hsole _ List.mem_cons_self)
      have hbalanced₁ := hbalanced.step hstep hvalid.1 hkeeps.1
      have h' := ih h₁ hbalanced₁ hrun₁ (hvalid.2 _ _ hstep) (hkeeps.2 _ _ hstep) hsole₁
      cases reply with
      | none => exact h'
      | some reply => exact h'

/-- A read that the thread calls takes a unit of the semaphore. -/
def TakesUnit (q : MsgQueue α T) (t : T) : Prop :=
  ∀ timeout, ∃ q', q.step t (.msgQueueRead timeout) = some (q', none) ∧
    q'.phase t = .readShift true

/-- The read that the thread runs returns a message. -/
def ReturnsMessage (q : MsgQueue α T) (t : T) : Prop :=
  ∃ q' data, q.step t .resume = some (q', some (.read (some data)))

omit [Fintype T] in
theorem step_of_readStep (hact : ∀ buf malloc, act ≠ .msgQueueWrite buf malloc)
    (h : readStep (q.lists (q.msgQueueReadList t)) (q.phase t) act =
      some (list', phase', reply)) :
    q.step t act = some ({ q with
      lists := Function.update q.lists (q.msgQueueReadList t) list'
      phase := Function.update q.phase t phase' }, reply) := by
  unfold MsgQueue.step
  split
  · exact absurd rfl (hact _ _)
  · simp only [h, Option.bind_eq_bind, Option.bind_some]

omit [Fintype T] in
theorem takesUnit_of_sem (hidle : q.phase t = .idle)
    (hsem : 0 < (q.lists (q.msgQueueReadList t)).sem) : q.TakesUnit t := by
  intro timeout
  have hwait : readStep (q.lists (q.msgQueueReadList t)) (q.phase t) (.msgQueueRead timeout) =
      some ({ q.lists (q.msgQueueReadList t) with sem := (q.lists (q.msgQueueReadList t)).sem - 1 },
        .readShift true, none) := by
    rw [hidle, readStep, listWait, if_pos hsem]
    rfl
  refine ⟨_, step_of_readStep (by simp) hwait, ?_⟩
  exact Function.update_self _ _ _

theorem returnsMessage_of_nodes (hbalanced : q.Balanced) (hphase : q.phase t = .readShift waited)
    (hnodes : (q.lists (q.msgQueueReadList t)).nodes ≠ []) : q.ReturnsMessage t := by
  obtain ⟨x, nodes, hcons⟩ := List.exists_cons_of_ne_nil hnodes
  obtain ⟨data, hdata⟩ := Option.ne_none_iff_exists'.mp
    ((hbalanced.plain _).data x (hcons ▸ List.mem_cons_self))
  have hshift : readStep (q.lists (q.msgQueueReadList t)) (q.phase t) .resume =
      some ({ q.lists (q.msgQueueReadList t) with
        nodes := (q.lists (q.msgQueueReadList t)).nodes.remove .first }, .idle,
        some (.read (some data))) := by
    rw [hphase, readStep, hcons, List.head?_cons, Option.bind_some, hdata]
  exact ⟨_, data, step_of_readStep (by simp) hshift⟩

theorem Balanced.returnsMessage (h : q.Balanced) (hphase : q.phase t = .readShift true) :
    q.ReturnsMessage t := by
  apply returnsMessage_of_nodes h hphase
  intro hnil
  have hcount := h.count (q.msgQueueReadList t)
  have hunits := units_le_held q t
  rw [hphase, Phase.units_readShift, if_pos rfl] at hunits
  rw [hnil, List.length_nil] at hcount
  omega

/-- The semaphore of each list counts the messages that no thread has waited for, as long as a find
removes none and a read whose wait timed out takes none.  Then a read takes a unit where such a
message is queued, whatever its timeout, and a read that took one returns a message; and after
`msgQueueWait` has returned `TRUE` in the only reader, so does its next read. -/
theorem msgQueue_run (owner : T) (bidir : Bool)
    (hrun : (msgQueueInit owner bidir).run steps = some (q, replies))
    (hvalid : Along Valid (msgQueueInit owner bidir) steps)
    (hkeeps : Along Keeps (msgQueueInit owner bidir) steps) :
    (∀ side, (q.lists side).sem + q.held side = (q.lists side).nodes.length) ∧
      (∀ t, q.phase t = .idle →
        q.held (q.msgQueueReadList t) < (q.lists (q.msgQueueReadList t)).nodes.length →
          q.TakesUnit t) ∧
      (∀ t, q.phase t = .readShift true → q.ReturnsMessage t) ∧
      ∀ r, (msgQueueInit owner bidir).OnlyReader r steps → waitedSince r false replies = true →
        (q.phase r = .idle → q.TakesUnit r) ∧
          ∀ waited, q.phase r = .readShift waited → q.ReturnsMessage r := by
  have hinit := msgQueueInit_balanced (α := α) owner bidir
  have hbalanced := hinit.run hrun hvalid hkeeps
  have htakes : ∀ t, q.phase t = .idle →
      q.held (q.msgQueueReadList t) < (q.lists (q.msgQueueReadList t)).nodes.length →
        q.TakesUnit t := by
    intro t hidle hlt
    have hcount := hbalanced.count (q.msgQueueReadList t)
    exact takesUnit_of_sem hidle (by omega)
  refine ⟨hbalanced.count, htakes, fun t ht ↦ hbalanced.returnsMessage ht, ?_⟩
  intro r hsole hwaited
  have hwatched : (msgQueueInit owner bidir : MsgQueue α T).Watched r false :=
    ⟨fun _ _ _ ↦ rfl, fun h ↦ nomatch h⟩
  obtain ⟨hothers, hready⟩ := hwatched.run hinit hrun hvalid hkeeps hsole
  obtain ⟨hnodes, -⟩ := hready hwaited
  refine ⟨fun hidle ↦ htakes r hidle ?_, fun waited hr ↦ returnsMessage_of_nodes hbalanced hr hnodes⟩
  rw [held_sole hothers, hidle, Phase.units_idle]
  exact List.length_pos_iff.mpr hnodes

/-- Another thread writes a message and the owner waits for it. -/
theorem msgQueue_run_wait : ∃ q : MsgQueue ℕ Bool,
    ((msgQueueInit true false).run [(false, .msgQueueWrite (some 7) (some 1)),
      (true, .msgQueueWait 0), (true, .resume)]).map Prod.fst = some q ∧ q.TakesUnit true := by
  have hrun : (msgQueueInit true false : MsgQueue ℕ Bool).run
      [(false, .msgQueueWrite (some 7) (some 1)), (true, .msgQueueWait 0), (true, .resume)] =
      some (_, [(false, .write true), (true, .wait true)]) := rfl
  refine ⟨_, congrArg (Option.map Prod.fst) hrun,
    ((msgQueue_run true false hrun ?_ ?_).2.2.2 true ?_ rfl).1 rfl⟩
  · exact .cons rfl List.not_mem_nil (.cons rfl trivial (.cons rfl trivial trivial))
  · refine .cons rfl trivial (.cons rfl trivial (.cons rfl ⟨?_, ?_⟩ trivial))
    · intro h
      cases h
    · intro a h
      cases h
  · intro x hx hne _
    fin_cases hx
    · exact ⟨_, _, rfl⟩
    · exact absurd rfl hne
    · exact absurd rfl hne

/-- The owner finds a message and removes it; then its wait returns `TRUE`, its read nothing. -/
theorem msgQueue_run_find : ∃ steps : List (Bool × Act ℕ), Along Valid (msgQueueInit true false) steps ∧
    ∃ q replies, (msgQueueInit true false).run steps = some (q, replies) ∧
      (q.lists .outList).sem + q.held .outList ≠ (q.lists .outList).nodes.length ∧
      (msgQueueInit true false).OnlyReader true steps ∧ waitedSince true false replies = true ∧
      ((q.run [(true, .msgQueueRead 0), (true, .resume)]).map Prod.snd) =
        some [(true, .read none)] := by
  refine ⟨[(false, .msgQueueWrite (some 7) (some 1)), (true, .msgQueueFind fun n ↦ n == 7),
    (true, .resume), (true, .msgQueueWait 0), (true, .resume)], ?_, _, _, rfl, ?_, ?_, rfl, rfl⟩
  · exact .cons rfl List.not_mem_nil (.cons rfl trivial (.cons rfl trivial
      (.cons rfl trivial (.cons rfl trivial trivial))))
  · decide
  · intro x hx hne _
    fin_cases hx
    · exact ⟨_, _, rfl⟩
    all_goals exact absurd rfl hne

end MsgQueue

end Synchronet.Xpdev
