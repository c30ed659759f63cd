import Mathlib.Algebra.Order.BigOperators.Group.Finset
import Mathlib.Tactic.Abel

/-!
# Increments counted in batches

A counter is incremented along a trace, and loaded now and then.  The loads cut the increments into batches (`batch`):
an increment with `k` loads before it belongs to the `k`-th batch, whose load is the first one behind it.  Somebody
reports each loaded value, and the difference to the value reported before.  `Tally` says that the differences are the
batches; the lemmas about it are one for each kind of step.
-/

namespace Concurrency

variable {L : Type} {load inc : L → Bool} {ls : List L} {l : L}

/-- How many increments have exactly `k` loads before them. -/
def batch (load inc : L → Bool) (ls : List L) (k : Nat) : Nat :=
  (List.range ls.length).countP fun i => ls[i]?.any inc && (ls.take i).countP load == k

theorem batch_concat (k : Nat) :
    batch load inc (ls ++ [l]) k = batch load inc ls k + (inc l && ls.countP load == k).toNat := by
  have hold : ∀ i ∈ List.range ls.length,
      ((ls ++ [l])[i]?.any inc && ((ls ++ [l]).take i).countP load == k) =
        (ls[i]?.any inc && (ls.take i).countP load == k) := by
    intro i hi
    have hlt := List.mem_range.1 hi
    rw [List.getElem?_append_left hlt, List.take_append_of_le_length hlt.le]
  rw [batch, List.length_append, List.length_singleton, List.range_succ, List.countP_append,
    List.countP_congr fun i hi => by rw [hold i hi], List.countP_singleton, List.getElem?_concat_length,
    List.take_left, Option.any_some]
  rw [batch]
  cases inc l && ls.countP load == k <;> rfl

/-- The increments of the first `n` batches. -/
def batches (load inc : L → Bool) (ls : List L) (n : Nat) : Nat := ∑ k ∈ Finset.range n, batch load inc ls k

theorem batches_succ (n : Nat) : batches load inc ls (n + 1) = batches load inc ls n + batch load inc ls n :=
  Finset.sum_range_succ _ n

/-- A batch whose load has been taken does not change any more. -/
theorem batch_concat_of_ne {k : Nat} (hk : inc l = false ∨ ls.countP load ≠ k) :
    batch load inc (ls ++ [l]) k = batch load inc ls k := by
  rw [batch_concat]
  rcases hk with hk | hk
  · rw [hk]
    rfl
  · rw [beq_false_of_ne hk, Bool.and_false]
    rfl

theorem batches_concat_of_le {n : Nat} (hn : inc l = false ∨ n ≤ ls.countP load) :
    batches load inc (ls ++ [l]) n = batches load inc ls n := by
  refine Finset.sum_congr rfl fun k hk => batch_concat_of_ne (hn.imp id fun hle => ?_)
  have hlt := Finset.mem_range.1 hk
  omega

/-- Every increment is in a batch, the last ones in the batch that is not loaded yet. -/
theorem batches_all (load inc : L → Bool) (ls : List L) :
    batches load inc ls (ls.countP load + 1) = ls.countP inc := by
  induction ls using List.reverseRecOn with
  | nil => rfl
  | append_singleton ls l ih =>
    have hbatch : ∀ n, ls.countP load < n → batches load inc (ls ++ [l]) n = batches load inc ls n + (inc l).toNat := by
      intro n hn
      rw [batches, Finset.sum_congr rfl fun k _ => batch_concat k, Finset.sum_add_distrib, ← batches]
      congr 1
      rw [Finset.sum_eq_single_of_mem _ (Finset.mem_range.2 hn), beq_self_eq_true, Bool.and_true]
      intro k _ hk
      rw [beq_false_of_ne (Ne.symm hk), Bool.and_false]
      rfl
    have hempty : batch load inc ls (ls.countP load + 1) = 0 := by
      rw [batch, List.countP_eq_zero]
      intro i _
      have hle := (List.take_sublist i ls).countP_le (p := load)
      simp only [Bool.and_eq_true, beq_iff_eq, not_and]
      omega
    rw [hbatch _ (by rw [List.countP_append]; omega), List.countP_append, List.countP_append, List.countP_singleton,
      List.countP_singleton]
    cases hl : load l
    · rw [if_neg Bool.false_ne_true, Nat.add_zero, ih]
      cases inc l <;> rfl
    · rw [if_pos rfl, batches_succ, hempty, Nat.add_zero, ih]
      cases inc l <;> rfl

theorem batches_le {n : Nat} (hn : n ≤ ls.countP load + 1) : batches load inc ls n ≤ ls.countP inc := by
  rw [← batches_all load inc ls]
  exact Finset.sum_le_sum_of_subset (Finset.range_subset_range.2 hn)

/-! ### Reports of a counter -/

variable {M : Type} [AddCommGroup M] {one counter previous value : M} {loaded : Option M} {reports : List (M × M)}

/-- A counter that goes up by `one` with each increment; `loaded` is what was loaded and not reported yet, and each
report is a loaded value with its difference to the one before. -/
structure Tally (load inc : L → Bool) (ls : List L) (one counter previous : M) (loaded : Option M)
    (reports : List (M × M)) : Prop where
  counter_eq : counter = ls.countP inc • one
  previous_eq : previous = batches load inc ls reports.length • one
  loads : ls.countP load = reports.length + loaded.isSome.toNat
  loaded_eq : ∀ v, loaded = some v → v = batches load inc ls (reports.length + 1) • one
  reported : ∀ k total delta, reports[k]? = some (total, delta) →
    total = batches load inc ls (k + 1) • one ∧ delta = batch load inc ls k • one
  sum_eq : (reports.map Prod.snd).sum = previous
  last_eq : ∀ r, reports.getLast? = some r → r.1 = previous

namespace Tally

theorem nil : Tally load inc [] one 0 0 none [] where
  counter_eq := (zero_nsmul one).symm
  previous_eq := (zero_nsmul one).symm
  loads := rfl
  loaded_eq _ h := by cases h
  reported _ _ _ h := by cases h
  sum_eq := rfl
  last_eq _ h := by cases h

theorem loads_le (h : Tally load inc ls one counter previous loaded reports) :
    reports.length ≤ ls.countP load ∧ ls.countP load ≤ reports.length + 1 := by
  have hloads := h.loads
  cases loaded <;> simp at hloads <;> omega

/-- A step that does not load leaves alone what was loaded and reported. -/
theorem concat (h : Tally load inc ls one counter previous loaded reports) (hl : load l = false) {counter' : M}
    (hcounter : counter' = counter + (inc l).toNat • one) :
    Tally load inc (ls ++ [l]) one counter' previous loaded reports where
  counter_eq := by
    rw [hcounter, h.counter_eq, List.countP_append, add_nsmul, List.countP_singleton]
    cases inc l <;> rfl
  previous_eq := by
    rw [batches_concat_of_le (Or.inr h.loads_le.1)]
    exact h.previous_eq
  loads := by
    rw [List.countP_append, List.countP_singleton, hl, h.loads]
    rfl
  loaded_eq v hv := by
    have hloads : ls.countP load = reports.length + 1 := by
      rw [h.loads, hv]
      rfl
    rw [batches_concat_of_le (Or.inr hloads.ge)]
    exact h.loaded_eq v hv
  reported k total delta hk := by
    have hlt : k < reports.length := (List.getElem?_eq_some_iff.1 hk).1
    have hle := h.loads_le.1
    rw [batches_concat_of_le (Or.inr (by omega)), batch_concat_of_ne (Or.inr (by omega))]
    exact h.reported k total delta hk
  sum_eq := h.sum_eq
  last_eq := h.last_eq

/-- The counter is loaded: all increments so far are in the batches up to this one. -/
theorem load_concat (h : Tally load inc ls one counter previous none reports) (hl : load l = true)
    (hi : inc l = false) : Tally load inc (ls ++ [l]) one counter previous (some counter) reports where
  counter_eq := by
    rw [h.counter_eq, List.countP_append, List.countP_singleton, hi]
    rfl
  previous_eq := by
    rw [batches_concat_of_le (Or.inl hi)]
    exact h.previous_eq
  loads := by
    rw [List.countP_append, List.countP_singleton, hl, h.loads]
    rfl
  loaded_eq v hv := by
    have hloads : ls.countP load = reports.length := h.loads
    obtain rfl := Option.some.inj hv
    rw [batches_concat_of_le (Or.inl hi), ← hloads, batches_all]
    exact h.counter_eq
  reported k total delta hk := by
    rw [batches_concat_of_le (Or.inl hi), batch_concat_of_ne (Or.inl hi)]
    exact h.reported k total delta hk
  sum_eq := h.sum_eq
  last_eq := h.last_eq

/-- What was loaded is reported. -/
theorem report (h : Tally load inc ls one counter previous (some value) reports) :
    Tally load inc ls one counter value none (reports ++ [(value, value - previous)]) where
  counter_eq := h.counter_eq
  previous_eq := by
    rw [List.length_append]
    exact h.loaded_eq value rfl
  loads := by
    rw [List.length_append]
    exact h.loads
  loaded_eq v hv := by cases hv
  reported k total delta hk := by
    by_cases hlt : k < reports.length
    · rw [List.getElem?_append_left hlt] at hk
      exact h.reported k total delta hk
    · rw [List.getElem?_append_right (Nat.not_lt.1 hlt)] at hk
      obtain ⟨hk0, hpair⟩ := List.getElem?_eq_some_iff.1 hk
      have hlast : k = reports.length := by
        rw [List.length_singleton] at hk0
        omega
      subst hlast
      simp only [Nat.sub_self, List.getElem_cons_zero, Prod.mk.injEq] at hpair
      obtain ⟨rfl, rfl⟩ := hpair
      refine ⟨h.loaded_eq value rfl, ?_⟩
      rw [h.loaded_eq value rfl, h.previous_eq, batches_succ, add_nsmul]
      abel
  sum_eq := by
    rw [List.map_append, List.sum_append, h.sum_eq]
    simp
  last_eq r hr := by
    rw [List.getLast?_concat, Option.some.injEq] at hr
    rw [← hr]

end Tally

end Concurrency
