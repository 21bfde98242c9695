import Mathlib.Data.List.Sort
import Mathlib.Logic.Relation

/-!
# Stop and wait

A sender repeats a message until it is acknowledged and then turns to the next one; the receiver
takes the messages in their order, each of them once, and acknowledges each one once.  Messages
and acknowledgements may get lost but not out of order.  The receiver knows a message only by its
number modulo some `m`, and two numbers are enough.
-/

namespace Synchronet.StopAndWait

/-- `current` is the message that the sender repeats and `accepted` the number of messages taken.
`heard` says that the receiver has just seen message `accepted` but has not taken it yet. -/
structure State where
  current : ℕ
  accepted : ℕ
  heard : Bool
  line : List ℕ
  acks : ℕ

/-- Nothing sent, nothing taken. -/
def State.start : State := ⟨0, 0, false, [], 0⟩

inductive Step (m : ℕ) : State → State → Prop
  | send (s : State) : Step m s { s with line := s.line ++ [s.current] }
  | hear (s : State) (k : ℕ) (rest : List ℕ) (hline : s.line = k :: rest)
      (hk : k % m = s.accepted % m) : Step m s { s with line := rest, heard := true }
  | discard (s : State) (k : ℕ) (rest : List ℕ) (hline : s.line = k :: rest) :
      Step m s { s with line := rest, heard := false }
  | forget (s : State) : Step m s { s with heard := false }
  | accept (s : State) (hheard : s.heard = true) :
      Step m s { s with accepted := s.accepted + 1, heard := false, acks := s.acks + 1 }
  | acknowledged (s : State) (n : ℕ) (hacks : s.acks = n + 1) :
      Step m s { s with current := s.current + 1, acks := n }
  | lose (s : State) (line : List ℕ) (hline : line.Sublist s.line) :
      Step m s { s with line := line }
  | loseAck (s : State) (n : ℕ) (hn : n ≤ s.acks) : Step m s { s with acks := n }

abbrev Steps (m : ℕ) : State → State → Prop := Relation.ReflTransGen (Step m)

structure State.Inv (s : State) : Prop where
  acks : s.current + s.acks ≤ s.accepted
  ahead : s.accepted ≤ s.current + 1
  sorted : s.line.Pairwise (· ≤ ·)
  recent : ∀ k ∈ s.line, s.accepted ≤ k + 1
  sent : ∀ k ∈ s.line, k ≤ s.current
  heard : s.heard = true → s.accepted ≤ s.current ∧ ∀ k ∈ s.line, s.accepted ≤ k

theorem State.Inv.start : State.start.Inv where
  acks := le_rfl
  ahead := Nat.zero_le _
  sorted := List.Pairwise.nil
  recent := by simp [State.start]
  sent := by simp [State.start]
  heard := by simp [State.start]

namespace State.Inv

variable {m : ℕ} {s s' : State}

/-- Only the message that the receiver waits for and the one before it can arrive. -/
theorem head_eq {k : ℕ} {rest : List ℕ} (h : s.Inv) (hline : s.line = k :: rest) :
    k = s.accepted ∨ k + 1 = s.accepted := by
  have hsent := h.sent k (by simp [hline])
  have hrecent := h.recent k (by simp [hline])
  have hacks := h.acks
  omega

/-- The number modulo `m` tells the two apart. -/
theorem head_eq_of_mod {k : ℕ} {rest : List ℕ} (h : s.Inv) (hm : 2 ≤ m)
    (hline : s.line = k :: rest) (hk : k % m = s.accepted % m) : k = s.accepted := by
  rcases h.head_eq hline with heq | hsucc
  · exact heq
  · have hdvd : m ∣ 1 := by
      have := Nat.dvd_of_mod_eq_zero (Nat.sub_mod_eq_zero_of_mod_eq hk.symm)
      rwa [← hsucc, Nat.add_sub_cancel_left] at this
    have := Nat.le_of_dvd one_pos hdvd
    omega

/-- Fewer messages on the line. -/
theorem of_sublist {line : List ℕ} {heard : Bool} (h : s.Inv) (hline : line.Sublist s.line)
    (hheard : heard = true → s.heard = true) : { s with line := line, heard := heard }.Inv where
  acks := h.acks
  ahead := h.ahead
  sorted := h.sorted.sublist hline
  recent := fun k hk ↦ h.recent k (hline.subset hk)
  sent := fun k hk ↦ h.sent k (hline.subset hk)
  heard := fun hh ↦
    ⟨(h.heard (hheard hh)).1, fun k hk ↦ (h.heard (hheard hh)).2 k (hline.subset hk)⟩

theorem send (h : s.Inv) : { s with line := s.line ++ [s.current] }.Inv where
  acks := h.acks
  ahead := h.ahead
  sorted := by
    rw [List.pairwise_append]
    refine ⟨h.sorted, List.pairwise_singleton _ _, ?_⟩
    intro k hk l hl
    rw [List.mem_singleton.mp hl]
    exact h.sent k hk
  recent := by
    intro k hk
    rcases List.mem_append.mp hk with hk | hk
    · exact h.recent k hk
    · rw [List.mem_singleton.mp hk]
      exact h.ahead
  sent := by
    intro k hk
    rcases List.mem_append.mp hk with hk | hk
    · exact h.sent k hk
    · rw [List.mem_singleton.mp hk]
  heard := by
    intro hheard
    refine ⟨(h.heard hheard).1, fun k hk ↦ ?_⟩
    rcases List.mem_append.mp hk with hk | hk
    · exact (h.heard hheard).2 k hk
    · rw [List.mem_singleton.mp hk]
      exact (h.heard hheard).1

theorem hear {k : ℕ} {rest : List ℕ} (h : s.Inv) (hm : 2 ≤ m) (hline : s.line = k :: rest)
    (hk : k % m = s.accepted % m) : { s with line := rest, heard := true }.Inv where
  acks := h.acks
  ahead := h.ahead
  sorted := h.sorted.sublist (by simp [hline])
  recent := fun l hl ↦ h.recent l (by simp [hline, hl])
  sent := fun l hl ↦ h.sent l (by simp [hline, hl])
  heard := by
    have heq := h.head_eq_of_mod hm hline hk
    have hsorted := h.sorted
    rw [hline, List.pairwise_cons] at hsorted
    intro _
    exact ⟨heq ▸ h.sent k (by simp [hline]), fun l hl ↦ heq ▸ hsorted.1 l hl⟩

theorem accept (h : s.Inv) (hheard : s.heard = true) :
    { s with accepted := s.accepted + 1, heard := false, acks := s.acks + 1 }.Inv where
  acks := by
    have := h.acks
    simp only
    omega
  ahead := by
    have := (h.heard hheard).1
    simp only
    omega
  sorted := h.sorted
  recent := fun k hk ↦ Nat.succ_le_succ ((h.heard hheard).2 k hk)
  sent := h.sent
  heard := by simp

theorem acknowledged {n : ℕ} (h : s.Inv) (hacks : s.acks = n + 1) :
    { s with current := s.current + 1, acks := n }.Inv where
  acks := by
    have := h.acks
    simp only
    omega
  ahead := by
    have := h.ahead
    simp only
    omega
  sorted := h.sorted
  recent := h.recent
  sent := fun k hk ↦ (h.sent k hk).trans (Nat.le_succ _)
  heard := fun hheard ↦ ⟨(h.heard hheard).1.trans (Nat.le_succ _), (h.heard hheard).2⟩

theorem loseAck {n : ℕ} (h : s.Inv) (hn : n ≤ s.acks) : { s with acks := n }.Inv where
  acks := (Nat.add_le_add_left hn _).trans h.acks
  ahead := h.ahead
  sorted := h.sorted
  recent := h.recent
  sent := h.sent
  heard := h.heard

theorem step (h : s.Inv) (hm : 2 ≤ m) (hstep : Step m s s') : s'.Inv := by
  cases hstep with
  | send => exact h.send
  | hear k rest hline hk => exact h.hear hm hline hk
  | discard k rest hline => exact h.of_sublist (by simp [hline]) (by simp)
  | forget => exact h.of_sublist (List.Sublist.refl _) (by simp)
  | accept hheard => exact h.accept hheard
  | acknowledged n hacks => exact h.acknowledged hacks
  | lose line hline => exact h.of_sublist hline id
  | loseAck n hn => exact h.loseAck hn

theorem steps (h : s.Inv) (hm : 2 ≤ m) (hsteps : Steps m s s') : s'.Inv := by
  induction hsteps with
  | refl => exact h
  | tail _ hstep ih => exact ih.step hm hstep

end State.Inv

/-! ## A lost acknowledgement -/

/-- The receiver has taken the message that the sender still repeats, and no acknowledgement is on
its way. -/
structure State.Stuck (s : State) : Prop where
  inv : s.Inv
  taken : s.current < s.accepted
  noAck : s.acks = 0

namespace State.Stuck

variable {m : ℕ} {s s' : State}

theorem not_heard (h : s.Stuck) : s.heard = false := by
  rw [Bool.eq_false_iff]
  intro hheard
  exact absurd (h.inv.heard hheard).1 (not_le.mpr h.taken)

/-- A message is acknowledged once: the sender repeats it for ever. -/
theorem step (h : s.Stuck) (hm : 2 ≤ m) (hstep : Step m s s') :
    s'.Stuck ∧ s'.current = s.current := by
  have hinv := h.inv.step hm hstep
  cases hstep with
  | send => exact ⟨⟨hinv, h.taken, h.noAck⟩, rfl⟩
  | hear k rest hline hk =>
      exact absurd (hinv.heard rfl).1 (not_le.mpr h.taken)
  | discard k rest hline => exact ⟨⟨hinv, h.taken, h.noAck⟩, rfl⟩
  | forget => exact ⟨⟨hinv, h.taken, h.noAck⟩, rfl⟩
  | accept hheard => exact absurd hheard (by simp [h.not_heard])
  | acknowledged n hacks => exact absurd hacks (by simp [h.noAck])
  | lose line hline => exact ⟨⟨hinv, h.taken, h.noAck⟩, rfl⟩
  | loseAck n hn => exact ⟨⟨hinv, h.taken, Nat.le_zero.mp (h.noAck ▸ hn)⟩, rfl⟩

theorem steps (h : s.Stuck) (hm : 2 ≤ m) (hsteps : Steps m s s') :
    s'.Stuck ∧ s'.current = s.current := by
  induction hsteps with
  | refl => exact ⟨h, rfl⟩
  | tail _ hstep ih =>
      obtain ⟨hstuck, hcurrent⟩ := ih
      obtain ⟨hstuck', hcurrent'⟩ := hstuck.step hm hstep
      exact ⟨hstuck', hcurrent'.trans hcurrent⟩

end State.Stuck

end Synchronet.StopAndWait
