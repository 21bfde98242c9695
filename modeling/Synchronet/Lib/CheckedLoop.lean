import Mathlib.Data.List.Basic

/-!
# Loops with steps that may fail

A loop takes steps until it is done, and a step that does what it must not do has no result.
Where a step has a result just under a condition on the state, keeps an invariant and makes a
measure smaller, the loop has a result just when the condition holds in every state in which
it takes a step.
-/

namespace Synchronet.CheckedLoop

variable {σ : Type*} (done : σ → Bool) (step : σ → Option σ)

/-- At most as many steps as the first number says, one less than that for a result. -/
def run : ℕ → σ → Option σ
  | 0, _ => none
  | n + 1, s => if done s then some s else (step s).bind (run n)

/-- The states of a loop that starts in the first state. -/
inductive Reached (start : σ) : σ → Prop
  | refl : Reached start start
  | next {s t : σ} : Reached start s → done s = false → step s = some t → Reached start t

/-- What a step needs and what it does. -/
structure Spec (Inv Good : σ → Prop) (measure : σ → ℕ) : Prop where
  isSome_iff : ∀ s, Inv s → done s = false → ((step s).isSome ↔ Good s)
  next : ∀ s t, Inv s → done s = false → step s = some t → Inv t ∧ measure t < measure s

variable {done step} {Inv Good : σ → Prop} {measure : σ → ℕ} {s t : σ} {n : ℕ}

theorem Reached.head {s₁ : σ} (hdone : done s = false) (hstep : step s = some s₁)
    (h : Reached done step s₁ t) : Reached done step s t := by
  induction h with
  | refl => exact .next .refl hdone hstep
  | next _ hdone' hstep' ih => exact .next ih hdone' hstep'

/-- A state is the first one or is reached from the second one. -/
theorem Reached.cases_head (h : Reached done step s t) :
    t = s ∨ ∃ s₁, done s = false ∧ step s = some s₁ ∧ Reached done step s₁ t := by
  induction h with
  | refl => exact Or.inl rfl
  | next _ hdone hstep ih =>
      obtain rfl | ⟨s₁, hdone₁, hstep₁, hreached⟩ := ih
      · exact Or.inr ⟨_, hdone, hstep, .refl⟩
      · exact Or.inr ⟨s₁, hdone₁, hstep₁, .next hreached hdone hstep⟩

theorem run_isSome_iff (hspec : Spec done step Inv Good measure) (hs : Inv s)
    (hn : measure s < n) :
    (run done step n s).isSome ↔
      ∀ t, Reached done step s t → done t = false → Good t := by
  induction n generalizing s with
  | zero => exact absurd hn (Nat.not_lt_zero _)
  | succ n ih =>
      rw [run]
      cases hdone : done s
      · rw [if_neg (by decide)]
        cases hstep : step s with
        | none =>
            refine iff_of_false (by simp) fun hgood ↦ ?_
            have := (hspec.isSome_iff s hs hdone).mpr (hgood s .refl hdone)
            rw [hstep] at this
            cases this
        | some s₁ =>
            obtain ⟨hs₁, hlt⟩ := hspec.next s s₁ hs hdone hstep
            refine (ih hs₁ (by omega)).trans ⟨fun h t ht hdone' ↦ ?_, fun h t ht ↦ ?_⟩
            · obtain rfl | ⟨s₂, -, hstep₂, hreached⟩ := ht.cases_head
              · exact (hspec.isSome_iff t hs hdone).mp (by rw [hstep]; rfl)
              · obtain rfl : s₁ = s₂ := Option.some.inj (hstep.symm.trans hstep₂)
                exact h t hreached hdone'
            · exact h t (.head hdone hstep ht)
      · rw [if_pos rfl]
        refine iff_of_true rfl fun t ht hdone' ↦ ?_
        obtain rfl | ⟨s₁, hdone₁, -⟩ := ht.cases_head
        · exact absurd hdone (by simp [hdone'])
        · exact absurd hdone (by simp [hdone₁])

/-- A loop that may also stand still: it ends just when it is never in a state in which it
does so or must not go on. -/
theorem exists_run_isSome_iff
    (hgood : ∀ s, Inv s → done s = false → Good s →
      ∃ t, step s = some t ∧ Inv t ∧ measure t < measure s)
    (hbad : ∀ s, Inv s → done s = false → ¬Good s → step s = none ∨ step s = some s)
    (hs : Inv s) :
    (∃ n, (run done step n s).isSome) ↔
      ∀ t, Reached done step s t → done t = false → Good t := by
  constructor
  · rintro ⟨n, hn⟩
    induction n generalizing s with
    | zero => cases hn
    | succ n ih =>
        intro t ht hdone'
        rw [run] at hn
        cases hdone : done s with
        | true =>
            obtain rfl | ⟨s₁, hdone₁, -⟩ := ht.cases_head
            · exact absurd hdone (by simp [hdone'])
            · exact absurd hdone (by simp [hdone₁])
        | false =>
            rw [if_neg (by simp [hdone])] at hn
            by_cases hg : Good s
            · obtain ⟨s₁, hstep, hs₁, -⟩ := hgood s hs hdone hg
              rw [hstep, Option.bind_some] at hn
              obtain rfl | ⟨s₂, -, hstep₂, hreached⟩ := ht.cases_head
              · exact hg
              · obtain rfl : s₁ = s₂ := Option.some.inj (hstep.symm.trans hstep₂)
                exact ih hs₁ hn t hreached hdone'
            · obtain hnone | hstill := hbad s hs hdone hg
              · rw [hnone] at hn
                cases hn
              · rw [hstill, Option.bind_some] at hn
                exact absurd (ih hs hn s .refl hdone) hg
  · intro h
    generalize hm : measure s = m
    induction m using Nat.strongRecOn generalizing s with
    | _ m ih =>
        cases hdone : done s with
        | true => exact ⟨1, by simp [run, hdone]⟩
        | false =>
            obtain ⟨s₁, hstep, hs₁, hlt⟩ := hgood s hs hdone (h s .refl hdone)
            obtain ⟨n, hn⟩ := ih (measure s₁) (hm ▸ hlt) hs₁
              (fun t ht ↦ h t (.head hdone hstep ht)) rfl
            exact ⟨n + 1, by simpa [run, hdone, hstep] using hn⟩

/-- What every step keeps holds where the loop ends. -/
theorem inv_of_run_of_next
    (hnext : ∀ s t, Inv s → done s = false → step s = some t → Inv t) (hs : Inv s)
    (h : run done step n s = some t) : Inv t ∧ done t = true := by
  induction n generalizing s with
  | zero => cases h
  | succ n ih =>
      rw [run] at h
      cases hdone : done s
      · rw [if_neg (by simp [hdone])] at h
        obtain ⟨s₁, hstep, hrun⟩ := Option.bind_eq_some_iff.mp h
        exact ih (hnext s s₁ hs hdone hstep) hrun
      · rw [if_pos hdone] at h
        obtain rfl := Option.some.inj h
        exact ⟨hs, hdone⟩

/-- The invariant holds where the loop ends. -/
theorem inv_of_run (hspec : Spec done step Inv Good measure) (hs : Inv s)
    (h : run done step n s = some t) : Inv t ∧ done t = true :=
  inv_of_run_of_next (fun s t hs hdone hstep ↦ (hspec.next s t hs hdone hstep).1) hs h

end Synchronet.CheckedLoop
