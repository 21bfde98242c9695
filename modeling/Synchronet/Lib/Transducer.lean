import Mathlib.Data.List.Basic
import Mathlib.Data.Nat.Notation

/-!
# Transducers

A transducer reads its input item by item and writes some items for each.  What is written for
an input does not depend on how the input is cut into chunks, when the chunk function is the
run of the step function up to a bisimulation.  An encoding that is undone item by item is
undone as a whole.
-/

namespace Transducer

variable {σ τ α β ι : Type}

/-- The outputs of a run one after another, and its last state. -/
def run (step : σ → α → σ × List β) : σ → List α → σ × List β
  | s, [] => (s, [])
  | s, a :: as => ((run step (step s a).1 as).1, (step s a).2 ++ (run step (step s a).1 as).2)

variable {step : σ → α → σ × List β} {s t : σ} {as bs : List α}

@[simp] theorem run_nil : run step s [] = (s, []) := rfl

@[simp] theorem run_singleton (a : α) : run step s [a] = step s a := by
  simp [run]

theorem run_cons (a : α) : run step s (a :: as) =
    ((run step (step s a).1 as).1, (step s a).2 ++ (run step (step s a).1 as).2) := rfl

theorem run_append : run step s (as ++ bs) =
    ((run step (run step s as).1 bs).1,
      (run step s as).2 ++ (run step (run step s as).1 bs).2) := by
  induction as generalizing s with
  | nil => rfl
  | cons a as ih => simp [run, ih]

/-! ## Chunks -/

/-- Related states stay related and give the same output. -/
structure Bisimulation (step : σ → α → σ × List β) (Same : σ → σ → Prop) : Prop where
  states : ∀ s t a, Same s t → Same (step s a).1 (step t a).1
  outputs : ∀ s t a, Same s t → (step s a).2 = (step t a).2

variable {Same : σ → σ → Prop}

theorem Bisimulation.run (h : Bisimulation step Same) (hs : Same s t) :
    Same (Transducer.run step s as).1 (Transducer.run step t as).1 ∧
      (Transducer.run step s as).2 = (Transducer.run step t as).2 := by
  induction as generalizing s t with
  | nil => exact ⟨hs, rfl⟩
  | cons a as ih =>
      obtain ⟨hstate, houtput⟩ := ih (h.states s t a hs)
      refine ⟨hstate, ?_⟩
      rw [run_cons, run_cons, h.outputs s t a hs, houtput]

/-- A function for chunks that is the run up to a bisimulation gives the output of the run, in
whatever way the input is cut. -/
theorem Bisimulation.run_flatten (h : Bisimulation step Same)
    (htrans : ∀ s t u, Same s t → Same t u → Same s u) {chunk : σ → List α → σ × List β}
    (hstates : ∀ s as, Same (chunk s as).1 (Transducer.run step s as).1)
    (houtputs : ∀ s as, (chunk s as).2 = (Transducer.run step s as).2)
    (hs : Same s t) (chunks : List (List α)) :
    Same (Transducer.run chunk s chunks).1 (Transducer.run step t chunks.flatten).1 ∧
      (Transducer.run chunk s chunks).2 = (Transducer.run step t chunks.flatten).2 := by
  induction chunks generalizing s t with
  | nil => exact ⟨hs, rfl⟩
  | cons as chunks ih =>
      obtain ⟨hsame, heq⟩ := (h.run hs : Same (Transducer.run step s as).1 _ ∧ _)
      obtain ⟨hstate, houtput⟩ := ih (htrans _ _ _ (hstates s as) hsame)
      rw [List.flatten_cons, run_append, run_cons, houtputs s as, heq, houtput]
      exact ⟨hstate, rfl⟩

/-! ## Decoding item by item -/

/-- A property holds at each item, in the state before it. -/
def Along (step : τ → ι → τ × List β) (p : τ → ι → Prop) : τ → List ι → Prop
  | _, [] => True
  | t, i :: is => p t i ∧ Along step p (step t i).1 is

theorem Along.and {step : τ → ι → τ × List β} {p : τ → ι → Prop} {q : ι → Prop} {t : τ}
    {is : List ι} (hp : Along step p t is) (hq : ∀ i ∈ is, q i) :
    Along step (fun t i ↦ q i ∧ p t i) t is := by
  induction is generalizing t with
  | nil => trivial
  | cons i is ih =>
      exact ⟨⟨hq i List.mem_cons_self, hp.1⟩,
        ih hp.2 fun j hj ↦ hq j (List.mem_cons_of_mem i hj)⟩

/-- When the bytes of each item are decoded to what its meaning says, so are those of a sequence
of items. -/
theorem run_flatMap {encode : ι → List α} {meaning : τ → ι → τ × List β} {Agrees : σ → τ → Prop}
    {Clear : τ → ι → Prop}
    (hstates : ∀ s t i, Agrees s t → Clear t i →
      Agrees (run step s (encode i)).1 (meaning t i).1)
    (houtputs : ∀ s t i, Agrees s t → Clear t i →
      (run step s (encode i)).2 = (meaning t i).2)
    {t : τ} (hs : Agrees s t) {is : List ι} (hclear : Along meaning Clear t is) :
    Agrees (run step s (is.flatMap encode)).1 (run meaning t is).1 ∧
      (run step s (is.flatMap encode)).2 = (run meaning t is).2 := by
  induction is generalizing s t with
  | nil => exact ⟨hs, rfl⟩
  | cons i is ih =>
      obtain ⟨hi, his⟩ := hclear
      obtain ⟨hstate, houtput⟩ := ih (hstates s t i hs hi) his
      rw [List.flatMap_cons, run_append, run_cons, houtputs s t i hs hi, houtput]
      exact ⟨hstate, rfl⟩

end Transducer
