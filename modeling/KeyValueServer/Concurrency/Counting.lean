import Mathlib.Algebra.BigOperators.Group.Finset.Piecewise
import Mathlib.Data.Finmap
import Mathlib.Data.Fintype.Basic
import Mathlib.Tactic.Abel

/-!
# Counting

Two quantities that a step changes at one place only: the number of threads in a certain phase, when one thread
moves, and the total of a counter over the entries of a finite map, when one entry is inserted or changed.
-/

namespace Concurrency

/-! ### The number of threads in a phase -/

section Threads

variable {T P : Type} [DecidableEq T] [Fintype T]

/-- How many threads are in a phase with the property `p`. -/
def countThreads (phase : T → P) (p : P → Bool) : Nat := (Finset.univ.filter fun t => p (phase t) = true).card

omit [DecidableEq T] in
theorem countThreads_eq_zero {phase : T → P} {p : P → Bool} (h : ∀ t, p (phase t) = false) :
    countThreads phase p = 0 := by
  simp [countThreads, h]

theorem countThreads_update (phase : T → P) (p : P → Bool) (t : T) (x : P) :
    countThreads (Function.update phase t x) p + (p (phase t)).toNat = countThreads phase p + (p x).toNat := by
  have hsplit : ∀ f : T → P, countThreads f p =
      (p (f t)).toNat + ∑ t' ∈ Finset.univ.erase t, (p (f t')).toNat := by
    intro f
    rw [Finset.add_sum_erase _ (fun t' => (p (f t')).toNat) (Finset.mem_univ t), countThreads, Finset.card_filter]
    exact Finset.sum_congr rfl fun t' _ => by cases p (f t') <;> rfl
  have hrest : ∑ t' ∈ Finset.univ.erase t, (p (Function.update phase t x t')).toNat =
      ∑ t' ∈ Finset.univ.erase t, (p (phase t')).toNat :=
    Finset.sum_congr rfl fun t' ht => by rw [Function.update_of_ne (Finset.ne_of_mem_erase ht)]
  rw [hsplit, hsplit phase, hrest, Function.update_self]
  omega

end Threads

/-! ### The total over a finite map -/

section Total

variable {α β M : Type} [DecidableEq α] [AddCommGroup M] {m : Finmap fun _ : α => β} {k : α} {b b' : β} (f : β → M)

/-- The sum of `f` over the entries of `m`. -/
def total (m : Finmap fun _ : α => β) : M := ∑ k ∈ m.keys, (m.lookup k).elim 0 f

theorem total_eq_zero (h : ∀ k b, m.lookup k = some b → f b = 0) : total f m = 0 := by
  apply Finset.sum_eq_zero
  intro k _
  cases hk : m.lookup k with
  | none => rfl
  | some b => exact h k b hk

private theorem total_erase_insert :
    ∑ k' ∈ m.keys.erase k, ((m.insert k b).lookup k').elim 0 f = ∑ k' ∈ m.keys.erase k, (m.lookup k').elim 0 f :=
  Finset.sum_congr rfl fun k' hk' => by rw [Finmap.lookup_insert_of_ne _ (Finset.ne_of_mem_erase hk')]

theorem keys_insert (m : Finmap fun _ : α => β) (k : α) (b : β) : (m.insert k b).keys = insert k m.keys := by
  ext k'
  simp [Finmap.mem_keys]

theorem total_insert_of_notMem (h : k ∉ m) : total f (m.insert k b) = total f m + f b := by
  have hk : k ∉ m.keys := fun hm => h (Finmap.mem_keys.1 hm)
  rw [total, keys_insert, Finset.sum_insert hk, Finmap.lookup_insert, Option.elim_some, add_comm, total]
  congr 1
  rw [← Finset.erase_eq_of_notMem hk]
  exact total_erase_insert f

theorem total_insert_of_lookup (h : m.lookup k = some b) : total f (m.insert k b') = total f m - f b + f b' := by
  have hk : k ∈ m.keys := Finmap.mem_keys.2 (Finmap.mem_of_lookup_eq_some h)
  rw [total, keys_insert, Finset.insert_eq_of_mem hk, total, ← Finset.add_sum_erase _ _ hk,
    ← Finset.add_sum_erase m.keys _ hk, total_erase_insert f, Finmap.lookup_insert, h, Option.elim_some,
    Option.elim_some]
  abel

end Total

end Concurrency
