import KeyValueServer.Concurrency.Run
import Mathlib.Algebra.BigOperators.Group.Finset.Basic
import Mathlib.Algebra.Order.BigOperators.Group.Finset
import Mathlib.Data.Fintype.Basic

/-!
# Runs that come to an end

A system whose steps use up a measure has no infinite run: a run is no longer than what there was to use up
(`Run.length_add_measure_le`), and every state leads to one from which there is no step (`Run.exists_stuck`).  The
measure of a system of threads is often a sum over the threads, which a step changes at one place (`sum_update_eq`).
-/

namespace Concurrency

section Measure

variable {S L : Type} {step : S → L → S → Prop}

/-- There is no step from here. -/
def Stuck (step : S → L → S → Prop) (s : S) : Prop := ∀ l s', ¬ step s l s'

/-- Every step from a state with the invariant keeps it and uses up some of the measure. -/
structure Consumes (step : S → L → S → Prop) (I : S → Prop) (μ : S → Nat) : Prop where
  keeps : ∀ {s l s'}, I s → step s l s' → I s'
  uses : ∀ {s l s'}, I s → step s l s' → μ s' < μ s

variable {I : S → Prop} {μ : S → Nat}

theorem Run.length_add_measure_le (h : Consumes step I μ) {s₀ s : S} {ls : List L} (h0 : I s₀)
    (hrun : Run step s₀ ls s) : I s ∧ ls.length + μ s ≤ μ s₀ := by
  induction hrun with
  | nil => exact ⟨h0, by simp⟩
  | snoc _ hl ih =>
    refine ⟨h.keeps ih.1 hl, ?_⟩
    have huses := h.uses ih.1 hl
    rw [List.length_append, List.length_singleton]
    omega

theorem Run.exists_stuck (h : Consumes step I μ) {s₀ : S} (h0 : I s₀) :
    ∃ ls s, Run step s₀ ls s ∧ Stuck step s := by
  induction hn : μ s₀ using Nat.strongRecOn generalizing s₀ with
  | ind n ih =>
    by_cases hstuck : Stuck step s₀
    · exact ⟨[], s₀, .nil, hstuck⟩
    · simp only [Stuck, not_forall, not_not] at hstuck
      obtain ⟨l, s₁, hl⟩ := hstuck
      have hlt := h.uses h0 hl
      rw [hn] at hlt
      obtain ⟨ls, s, hrun, hs⟩ := ih _ hlt (h.keeps h0 hl) rfl
      exact ⟨l :: ls, s, Run.cons hl hrun, hs⟩

end Measure

section Threads

variable {T P : Type} [DecidableEq T] [Fintype T]

/-- A sum over the threads after one of them has moved. -/
theorem sum_update_eq (phase : T → P) (f : P → Nat) (t : T) (x : P) :
    ∑ t', f (Function.update phase t x t') + f (phase t) = ∑ t', f (phase t') + f x := by
  have hsplit : ∀ g : T → P, ∑ t', f (g t') = f (g t) + ∑ t' ∈ Finset.univ.erase t, f (g t') :=
    fun g => (Finset.add_sum_erase _ (fun t' => f (g t')) (Finset.mem_univ t)).symm
  have hrest : ∑ t' ∈ Finset.univ.erase t, f (Function.update phase t x t') =
      ∑ t' ∈ Finset.univ.erase t, f (phase t') :=
    Finset.sum_congr rfl fun t' ht => by rw [Function.update_of_ne (Finset.ne_of_mem_erase ht)]
  rw [hsplit, hsplit phase, hrest, Function.update_self]
  omega

end Threads

end Concurrency
