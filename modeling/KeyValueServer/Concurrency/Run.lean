import Mathlib.Data.List.Induction
import Mathlib.Tactic.Common

/-!
# Runs of a labelled transition system

A step relation `step : S → L → S → Prop` is given by its states and labels alone.  A run is a finite sequence of
steps, kept with its trace (the labels in the order in which the steps were taken).  The induction over runs is
packaged once (`Run.invariant`): what holds at the start with the empty trace and is kept by every step holds of
every state reached, together with the trace that led there.
-/

namespace Concurrency

variable {S L : Type} {step step' : S → L → S → Prop}

/-- The runs from `s₀`: the trace and the state reached. -/
inductive Run (step : S → L → S → Prop) (s₀ : S) : List L → S → Prop
  | nil : Run step s₀ [] s₀
  | snoc {ls : List L} {s s' : S} {l : L} : Run step s₀ ls s → step s l s' → Run step s₀ (ls ++ [l]) s'

/-- The steps of `step` that meet the condition `good` on the state before the step and the label. -/
def Restrict (step : S → L → S → Prop) (good : S → L → Prop) (s : S) (l : L) (s' : S) : Prop :=
  step s l s' ∧ good s l

theorem Run.invariant {s₀ s : S} {ls : List L} (I : List L → S → Prop) (h0 : I [] s₀)
    (hs : ∀ {ls s l s'}, I ls s → step s l s' → I (ls ++ [l]) s') (h : Run step s₀ ls s) : I ls s := by
  induction h with
  | nil => exact h0
  | snoc _ hl ih => exact hs ih hl

theorem Run.mono {s₀ s : S} {ls : List L} (hm : ∀ s l s', step s l s' → step' s l s')
    (h : Run step s₀ ls s) : Run step' s₀ ls s := by
  induction h with
  | nil => exact .nil
  | snoc _ hl ih => exact .snoc ih (hm _ _ _ hl)

theorem Run.append {s₀ s₁ s₂ : S} {ls₁ ls₂ : List L} (h₁ : Run step s₀ ls₁ s₁) (h₂ : Run step s₁ ls₂ s₂) :
    Run step s₀ (ls₁ ++ ls₂) s₂ := by
  induction h₂ with
  | nil => rwa [List.append_nil]
  | snoc _ hl ih => rw [← List.append_assoc]; exact .snoc ih hl

theorem Run.cons {s₀ s₁ s₂ : S} {l : L} {ls : List L} (h₁ : step s₀ l s₁) (h₂ : Run step s₁ ls s₂) :
    Run step s₀ (l :: ls) s₂ :=
  Run.append (.snoc .nil h₁) h₂

theorem Run.of_concat {s₀ s : S} {ls : List L} {l : L} (h : Run step s₀ (ls ++ [l]) s) :
    ∃ s', Run step s₀ ls s' ∧ step s' l s := by
  generalize htrace : ls ++ [l] = trace at h
  cases h with
  | nil => simp at htrace
  | snoc h hl =>
    obtain ⟨rfl, hlast⟩ := List.append_inj' htrace rfl
    obtain rfl := List.singleton_inj.1 hlast
    exact ⟨_, h, hl⟩

/-- Cut a run where its trace is cut. -/
theorem Run.exists_of_append {s₀ s : S} {ls₁ ls₂ : List L} (h : Run step s₀ (ls₁ ++ ls₂) s) :
    ∃ s₁, Run step s₀ ls₁ s₁ ∧ Run step s₁ ls₂ s := by
  induction ls₂ using List.reverseRecOn generalizing s with
  | nil =>
    rw [List.append_nil] at h
    exact ⟨s, h, .nil⟩
  | append_singleton ls₂ l ih =>
    rw [← List.append_assoc] at h
    obtain ⟨s', h', hl⟩ := h.of_concat
    obtain ⟨s₁, h₁, h₂⟩ := ih h'
    exact ⟨s₁, h₁, h₂.snoc hl⟩

theorem Run.unrestrict {good : S → L → Prop} {s₀ s : S} {ls : List L} (h : Run (Restrict step good) s₀ ls s) :
    Run step s₀ ls s :=
  h.mono fun _ _ _ hl => hl.1

/-- A run whose labels meet a condition on labels alone. -/
theorem Run.restrict {good : L → Prop} {s₀ s : S} {ls : List L} (h : Run step s₀ ls s) (hg : ∀ l ∈ ls, good l) :
    Run (Restrict step fun _ l => good l) s₀ ls s := by
  induction h with
  | nil => exact .nil
  | snoc _ hl ih =>
    rw [List.forall_mem_append] at hg
    exact .snoc (ih hg.1) ⟨hl, hg.2 _ (List.mem_singleton_self _)⟩

/-- A run in which one step is singled out. -/
structure RunThrough (step : S → L → S → Prop) (s₀ : S) (before : List L) (s : S) (l : L) (s' : S) (behind : List L)
    (s'' : S) : Prop where
  before : Run step s₀ before s
  via : step s l s'
  behind : Run step s' behind s''

theorem Run.through {s₀ s s' : S} {ls : List L} {l : L} (h : Run step s₀ ls s) (hl : step s l s') :
    RunThrough step s₀ ls s l s' [] s' :=
  ⟨h, hl, .nil⟩

theorem RunThrough.snoc {s₀ s s' s₁ s₂ : S} {ls ls' : List L} {l l' : L} (h : RunThrough step s₀ ls s l s' ls' s₁)
    (hl : step s₁ l' s₂) : RunThrough step s₀ ls s l s' (ls' ++ [l']) s₂ :=
  ⟨h.before, h.via, h.behind.snoc hl⟩

end Concurrency
