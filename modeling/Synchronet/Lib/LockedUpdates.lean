import Mathlib.Data.List.Induction
import Mathlib.Data.List.Nodup
import Mathlib.Logic.Function.Basic
import Mathlib.Logic.Relation

/-!
# Updates under an exclusive lock

Any number of calls change a shared object.  Each takes the only lock, reads the object, writes
it and lets the lock go, and between these steps the other calls may take theirs; a call that
does not get the lock may give up.  Every run does what the calls would do one after the other,
in the order in which they wrote.
-/

namespace Synchronet.LockedUpdates

variable {ι σ ρ ω : Type*}

/-- What a call reads, and what it makes of that: the new object and its result. -/
structure Update (ι σ ρ ω : Type*) where
  read : ι → σ → ρ
  write : ι → ρ → σ → σ × ω

/-- Where a call is. -/
inductive Phase (ρ ω : Type*)
  | waiting
  | locked
  | fetched (r : ρ)
  | stored (w : ω)
  | done (w : ω)
  | gaveUp

/-- The result of a call that has written. -/
def Phase.result : Phase ρ ω → Option ω
  | .stored w => some w
  | .done w => some w
  | _ => none

/-- The call has the lock. -/
def Phase.Inside : Phase ρ ω → Prop
  | .locked => True
  | .fetched _ => True
  | .stored _ => True
  | _ => False

structure State (ι σ ρ ω : Type*) where
  shared : σ
  holder : Option ι
  phase : ι → Phase ρ ω

/-- No call has begun. -/
def State.start (s₀ : σ) : State ι σ ρ ω := ⟨s₀, none, fun _ ↦ .waiting⟩

namespace Update

variable (U : Update ι σ ρ ω)

/-- A call with nothing in between. -/
def call (i : ι) (s : σ) : σ × ω := U.write i (U.read i s) s

/-- Calls one after the other. -/
def callAll (s : σ) (order : List ι) : σ := order.foldl (fun s i ↦ (U.call i s).1) s

@[simp] theorem callAll_nil (s : σ) : U.callAll s [] = s := rfl

@[simp] theorem callAll_append_singleton (s : σ) (order : List ι) (i : ι) :
    U.callAll s (order ++ [i]) = (U.call i (U.callAll s order)).1 := by
  simp [callAll]

/-- What every call preserves. -/
theorem callAll_induction {I : σ → Prop} (h : ∀ i s, I s → I (U.call i s).1) {s : σ} (hs : I s)
    (order : List ι) : I (U.callAll s order) := by
  induction order using List.reverseRecOn with
  | nil => exact hs
  | append_singleton order i ih =>
      rw [callAll_append_singleton]
      exact h i _ ih

/-- The state is what the calls of `order` make of `s₀`, and no other call has written. -/
structure Serial (s₀ : σ) (order : List ι) (s : State ι σ ρ ω) : Prop where
  nodup : order.Nodup
  mem_iff : ∀ i, i ∈ order ↔ (s.phase i).result.isSome
  shared : s.shared = U.callAll s₀ order
  result : ∀ pre i post, order = pre ++ i :: post →
    (s.phase i).result = some (U.call i (U.callAll s₀ pre)).2
  inside_iff : ∀ i, (s.phase i).Inside ↔ s.holder = some i
  fetched : ∀ i r, s.phase i = .fetched r → r = U.read i s.shared

theorem serial_start (s₀ : σ) : U.Serial s₀ [] (State.start s₀) where
  nodup := List.nodup_nil
  mem_iff i := by simp [State.start, Phase.result]
  shared := rfl
  result pre i post h := by simp at h
  inside_iff i := by simp [State.start, Phase.Inside]
  fetched i r h := nomatch h

/-- While a call has the lock no other is inside. -/
theorem Serial.eq_of_inside {U : Update ι σ ρ ω} {s₀ : σ} {order : List ι}
    {s : State ι σ ρ ω} {i j : ι} (h : U.Serial s₀ order s) (hi : (s.phase i).Inside)
    (hj : (s.phase j).Inside) : i = j :=
  Option.some.inj (((h.inside_iff i).mp hi).symm.trans ((h.inside_iff j).mp hj))

variable [DecidableEq ι]

/-- A call moves on. -/
inductive Step : State ι σ ρ ω → State ι σ ρ ω → Prop
  | lock {s : State ι σ ρ ω} {i : ι} (hfree : s.holder = none) (hi : s.phase i = .waiting) :
      Step s { s with holder := some i, phase := Function.update s.phase i .locked }
  | giveUp {s : State ι σ ρ ω} {i : ι} (hi : s.phase i = .waiting) :
      Step s { s with phase := Function.update s.phase i .gaveUp }
  | fetch {s : State ι σ ρ ω} {i : ι} (hi : s.phase i = .locked) :
      Step s { s with phase := Function.update s.phase i (.fetched (U.read i s.shared)) }
  | store {s : State ι σ ρ ω} {i : ι} {r : ρ} (hi : s.phase i = .fetched r) :
      Step s { s with
        shared := (U.write i r s.shared).1
        phase := Function.update s.phase i (.stored (U.write i r s.shared).2) }
  | unlock {s : State ι σ ρ ω} {i : ι} {w : ω} (hi : s.phase i = .stored w) :
      Step s { s with holder := none, phase := Function.update s.phase i (.done w) }

variable {U} {s₀ : σ} {order : List ι} {s s' : State ι σ ρ ω} {i : ι}

/-- A call that moves on without writing changes neither the object nor the order. -/
theorem Serial.move (h : U.Serial s₀ order s) {p : Phase ρ ω} {holder : Option ι}
    (hresult : p.result = (s.phase i).result)
    (hinside : ∀ j, (Function.update s.phase i p j).Inside ↔ holder = some j)
    (hfetched : ∀ r, p = .fetched r → r = U.read i s.shared) :
    U.Serial s₀ order ⟨s.shared, holder, Function.update s.phase i p⟩ := by
  have hphase : ∀ j, (Function.update s.phase i p j).result = (s.phase j).result := by
    intro j
    rcases eq_or_ne j i with rfl | hj
    · simp [hresult]
    · simp [hj]
  constructor
  case nodup => exact h.nodup
  case mem_iff => exact fun j ↦ by simpa [hphase] using h.mem_iff j
  case shared => exact h.shared
  case result => exact fun pre j post hsplit ↦ by simpa [hphase] using h.result pre j post hsplit
  case inside_iff => exact hinside
  case fetched =>
    intro j r hj
    rcases eq_or_ne j i with rfl | hne
    · exact hfetched r (by simpa using hj)
    · exact h.fetched j r (by simpa [hne] using hj)

theorem Serial.store (h : U.Serial s₀ order s) {r : ρ} (hi : s.phase i = .fetched r) :
    U.Serial s₀ (order ++ [i]) { s with
      shared := (U.write i r s.shared).1
      phase := Function.update s.phase i (.stored (U.write i r s.shared).2) } := by
  obtain rfl : r = U.read i s.shared := h.fetched i r hi
  have hinside : (s.phase i).Inside := by simp [hi, Phase.Inside]
  have hnot : i ∉ order := by simp [h.mem_iff, hi, Phase.result]
  constructor
  case nodup =>
    rw [List.nodup_append]
    exact ⟨h.nodup, by simp, fun a ha b hb ↦ by
      rintro rfl
      exact hnot (List.mem_singleton.mp hb ▸ ha)⟩
  case mem_iff =>
    intro j
    rcases eq_or_ne j i with rfl | hj
    · simp [Phase.result]
    · simpa [hj] using h.mem_iff j
  case shared => simp [call, h.shared]
  case result =>
    intro pre j post hsplit
    rcases List.eq_nil_or_concat post with rfl | ⟨post, k, rfl⟩
    · obtain ⟨rfl, hij⟩ := List.append_inj' hsplit rfl
      obtain rfl : i = j := by simpa using hij
      simp [Phase.result, call, h.shared]
    · have hsplit' : order ++ [i] = (pre ++ j :: post) ++ [k] := by simpa using hsplit
      obtain ⟨hpre, -⟩ := List.append_inj' hsplit' rfl
      have hj : j ≠ i := by
        rintro rfl
        exact hnot (by simp [hpre])
      simpa [hj] using h.result pre j post hpre
  case inside_iff =>
    intro j
    rcases eq_or_ne j i with rfl | hj
    · simpa [Phase.Inside] using (h.inside_iff j).mp hinside
    · simpa [hj] using h.inside_iff j
  case fetched =>
    intro j r hj
    rcases eq_or_ne j i with rfl | hne
    · simp at hj
    · have hj' : s.phase j = .fetched r := by simpa [hne] using hj
      exact absurd (h.eq_of_inside (by simp [hj', Phase.Inside]) hinside) hne

/-- A step leaves the order, or puts the call that writes behind it. -/
theorem Serial.step (h : U.Serial s₀ order s) (hstep : U.Step s s') :
    ∃ order', U.Serial s₀ order' s' ∧ order <+: order' := by
  cases hstep with
  | @lock i hfree hi =>
      refine ⟨order, h.move (by simp [hi, Phase.result]) (fun j ↦ ?_) (by simp), List.prefix_rfl⟩
      rcases eq_or_ne j i with rfl | hj
      · simp [Phase.Inside]
      · have hout : ¬(s.phase j).Inside := by simp [h.inside_iff, hfree]
        simpa [hj, hj.symm] using hout
  | @giveUp i hi =>
      refine ⟨order, h.move (by simp [hi, Phase.result]) (fun j ↦ ?_) (by simp), List.prefix_rfl⟩
      rcases eq_or_ne j i with rfl | hj
      · simpa [hi, Phase.Inside] using h.inside_iff j
      · simpa [hj] using h.inside_iff j
  | @fetch i hi =>
      refine ⟨order, h.move (by simp [hi, Phase.result]) (fun j ↦ ?_) (by simp), List.prefix_rfl⟩
      rcases eq_or_ne j i with rfl | hj
      · simpa [hi, Phase.Inside] using h.inside_iff j
      · simpa [hj] using h.inside_iff j
  | @store i r hi => exact ⟨order ++ [i], h.store hi, List.prefix_append _ _⟩
  | @unlock i w hi =>
      refine ⟨order, h.move (by simp [hi, Phase.result]) (fun j ↦ ?_) (by simp), List.prefix_rfl⟩
      rcases eq_or_ne j i with rfl | hj
      · simp [Phase.Inside]
      · have hout : ¬(s.phase j).Inside := fun hin ↦
          hj (h.eq_of_inside hin (by simp [hi, Phase.Inside]))
        simpa [hj] using hout

/-- A run is the calls that wrote, one after the other. -/
theorem exists_serial (h : Relation.ReflTransGen U.Step (State.start s₀) s) :
    ∃ order, U.Serial s₀ order s := by
  induction h with
  | refl => exact ⟨[], U.serial_start s₀⟩
  | tail _ hstep ih =>
      obtain ⟨order, horder⟩ := ih
      obtain ⟨order', h', -⟩ := horder.step hstep
      exact ⟨order', h'⟩

end Update

end Synchronet.LockedUpdates
