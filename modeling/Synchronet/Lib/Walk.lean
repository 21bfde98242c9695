import Mathlib.Data.Fintype.EquivFin
import Mathlib.Data.Set.Finite.Basic
import Mathlib.Logic.Relation
import Mathlib.Order.WellFounded

/-!
# Walks that may go round

A turn of a walk leads to the next place, ends the walk with a result, or never comes to an
end itself.  Where the turns lead to finitely many places, the walk ends just if every turn
comes to an end and no place is met a second time.
-/

namespace Synchronet.Walk

open Relation (ReflTransGen TransGen)

variable {σ ρ : Type*} (turn : σ → Option (σ ⊕ ρ))

/-- The result after at most so many turns. -/
def run : ℕ → σ → Option ρ
  | 0, _ => none
  | n + 1, s =>
      match turn s with
      | none => none
      | some (.inl t) => run n t
      | some (.inr r) => some r

def Ends (s : σ) (r : ρ) : Prop := ∃ n, run turn n s = some r

def Next (s t : σ) : Prop := turn s = some (.inl t)

/-- The places of a walk. -/
def Meets (s t : σ) : Prop := ReflTransGen (Next turn) s t

/-- Nothing on the way keeps the walk from ending. -/
structure Clear (s : σ) : Prop where
  turns : ∀ t, Meets turn s t → turn t ≠ none
  once : ∀ t, Meets turn s t → ¬ TransGen (Next turn) t t

/-- Besides, wherever the walk can end its result passes the test. -/
def ClearTo (s : σ) (p : ρ → Prop) : Prop :=
  Clear turn s ∧ ∀ t r, Meets turn s t → turn t = some (.inr r) → p r

variable {turn} {s t : σ} {r : ρ}

theorem Ends.of_turn (h : turn s = some (.inr r)) : Ends turn s r := ⟨1, by simp [run, h]⟩

theorem Ends.of_next (h : Next turn s t) (hend : Ends turn t r) : Ends turn s r := by
  obtain ⟨n, hn⟩ := hend
  exact ⟨n + 1, by simpa [run, show turn s = some (.inl t) from h] using hn⟩

/-- A walk ends where a turn ends it. -/
theorem ends_iff : Ends turn s r ↔ ∃ t, Meets turn s t ∧ turn t = some (.inr r) := by
  constructor
  · rintro ⟨n, hn⟩
    induction n generalizing s with
    | zero => cases hn
    | succ n ih =>
        cases hturn : turn s with
        | none => simp [run, hturn] at hn
        | some place =>
            cases place with
            | inl t =>
                obtain ⟨u, hmeets, hu⟩ := ih (by simpa [run, hturn] using hn)
                exact ⟨u, .head hturn hmeets, hu⟩
            | inr r' =>
                obtain rfl : r' = r := by simpa [run, hturn] using hn
                exact ⟨s, .refl, hturn⟩
  · rintro ⟨t, hmeets, ht⟩
    exact ReflTransGen.head_induction_on hmeets (Ends.of_turn ht)
      fun hnext _ hend ↦ hend.of_next hnext

theorem run_mono {n m : ℕ} (h : run turn n s = some r) (hnm : n ≤ m) :
    run turn m s = some r := by
  induction n generalizing s m with
  | zero => cases h
  | succ n ih =>
      obtain ⟨m, rfl⟩ : ∃ k, m = k + 1 := ⟨m - 1, by omega⟩
      rw [run] at h ⊢
      cases hturn : turn s with
      | none => simp [hturn] at h
      | some place =>
          cases place with
          | inl t => exact ih (by simpa [hturn] using h) (by omega)
          | inr r' => simpa [hturn] using h

theorem Next.unique {u : σ} (ht : Next turn s t) (hu : Next turn s u) : t = u :=
  Sum.inl.inj (Option.some.inj (ht.symm.trans hu))

theorem Clear.of_next (h : Clear turn s) (hnext : Next turn s t) : Clear turn t :=
  ⟨fun u hu ↦ h.turns u (.head hnext hu), fun u hu ↦ h.once u (.head hnext hu)⟩

theorem Clear.of_turn (h : turn s = some (.inr r)) : Clear turn s := by
  have hstop : ∀ t, ¬ Next turn s t := fun t ht ↦ by simp [Next, h] at ht
  have honly : ∀ t, Meets turn s t → t = s := fun t ht ↦ by
    rcases ht.cases_head with rfl | ⟨u, hu, -⟩
    · rfl
    · exact absurd hu (hstop u)
  refine ⟨fun t ht ↦ by simp [honly t ht, h], fun t ht hcycle ↦ ?_⟩
  obtain ⟨u, hu, -⟩ := TransGen.head'_iff.mp hcycle
  rw [honly t ht] at hu
  exact hstop u hu

/-- What lies on a walk that is clear from its next place on is not met again from there. -/
theorem Clear.of_clear_next (hnext : Next turn s t) (h : Clear turn t) : Clear turn s := by
  have hcases : ∀ u, Meets turn s u → u = s ∨ Meets turn t u := fun u hu ↦ by
    rcases hu.cases_head with rfl | ⟨v, hv, hvu⟩
    · exact .inl rfl
    · exact .inr (hnext.unique hv ▸ hvu)
  refine ⟨fun u hu ↦ ?_, fun u hu hcycle ↦ ?_⟩
  · rcases hcases u hu with rfl | hmeets
    · simp [show turn u = some (.inl t) from hnext]
    · exact h.turns u hmeets
  · rcases hcases u hu with rfl | hmeets
    · obtain ⟨v, hv, hback⟩ := TransGen.head'_iff.mp hcycle
      obtain rfl := hnext.unique hv
      exact h.once t .refl (.tail' hback hnext)
    · exact h.once u hmeets hcycle

theorem Clear.of_ends (h : Ends turn s r) : Clear turn s := by
  obtain ⟨t, hmeets, ht⟩ := ends_iff.mp h
  exact ReflTransGen.head_induction_on hmeets (Clear.of_turn ht)
    fun hnext _ hclear ↦ .of_clear_next hnext hclear

/-- A walk among finitely many places ends just if it is clear. -/
theorem exists_ends_iff (hfin : {t | ∃ s, Next turn s t}.Finite) :
    (∃ r, Ends turn s r) ↔ Clear turn s := by
  refine ⟨fun ⟨r, hr⟩ ↦ .of_ends hr, fun hclear ↦ ?_⟩
  have hmet : {t | Meets turn s t}.Finite := by
    refine (hfin.insert s).subset fun t ht ↦ ?_
    rcases ReflTransGen.cases_tail ht with rfl | ⟨u, -, hu⟩
    · exact Set.mem_insert _ _
    · exact Set.mem_insert_of_mem s ⟨u, hu⟩
  have : Finite {t // Meets turn s t} := hmet
  let later (t u : {t // Meets turn s t}) : Prop := TransGen (Next turn) u.1 t.1
  have : IsTrans _ later := ⟨fun _ _ _ htu huv ↦ huv.trans htu⟩
  have : Std.Irrefl later := ⟨fun t ↦ hclear.once t.1 t.2⟩
  have hwf : WellFounded later := Finite.wellFounded_of_trans_of_irrefl later
  suffices h : ∀ t : {t // Meets turn s t}, ∃ r, Ends turn t.1 r from h ⟨s, .refl⟩
  intro t
  induction t using hwf.induction with
  | h t ih =>
      cases hturn : turn t.1 with
      | none => exact absurd hturn (hclear.turns t.1 t.2)
      | some place =>
          cases place with
          | inl u =>
              obtain ⟨r, hr⟩ := ih ⟨u, .tail t.2 hturn⟩ (.single hturn)
              exact ⟨r, hr.of_next hturn⟩
          | inr r => exact ⟨r, .of_turn hturn⟩

theorem exists_ends_and_iff (hfin : {t | ∃ s, Next turn s t}.Finite) (p : ρ → Prop) :
    (∃ r, Ends turn s r ∧ p r) ↔ ClearTo turn s p := by
  constructor
  · rintro ⟨r, hr, hp⟩
    refine ⟨.of_ends hr, fun t r' ht hturn ↦ ?_⟩
    obtain ⟨u, hu, hturn'⟩ := ends_iff.mp hr
    have hstop : ∀ {a b : σ} {q : ρ}, turn a = some (.inr q) → Meets turn a b → b = a := by
      intro a b q ha hab
      rcases hab.cases_head with rfl | ⟨c, hc, -⟩
      · rfl
      · simp [Next, ha] at hc
    have hdet : Relator.RightUnique (Next turn) := fun _ _ _ hb hc ↦ hb.unique hc
    obtain rfl : t = u := by
      rcases ReflTransGen.total_of_right_unique hdet ht hu with h | h
      · exact (hstop hturn h).symm
      · exact hstop hturn' h
    obtain rfl : r' = r := Sum.inr.inj (Option.some.inj (hturn.symm.trans hturn'))
    exact hp
  · rintro ⟨hclear, hp⟩
    obtain ⟨r, hr⟩ := (exists_ends_iff hfin).mpr hclear
    obtain ⟨t, ht, hturn⟩ := ends_iff.mp hr
    exact ⟨r, hr, hp t r ht hturn⟩

/-- No place is met again where every turn makes a measure smaller. -/
theorem not_transGen_of_measure (μ : σ → ℕ) (hnext : ∀ s t, Next turn s t → μ t < μ s) :
    ¬ TransGen (Next turn) s s := by
  intro hcycle
  have hless : ∀ t, TransGen (Next turn) s t → μ t < μ s := fun t ht ↦ by
    induction ht with
    | single h => exact hnext _ _ h
    | tail _ h ih => exact (hnext _ _ h).trans ih
  exact lt_irrefl _ (hless s hcycle)

theorem Meets.inv {P : σ → Prop} (hnext : ∀ s t, P s → Next turn s t → P t) (hs : P s)
    (h : Meets turn s t) : P t := by
  induction h with
  | refl => exact hs
  | tail _ hstep ih => exact hnext _ _ ih hstep

end Synchronet.Walk
