import Mathlib.Data.List.Sort
import Mathlib.Data.Fintype.Basic
import Mathlib.Logic.Equiv.Defs

/-!
# Reorderings that keep the order within a kind

A list is reordered by moving its entries to other places (`Reordering`), where any two entries of one kind keep
their order.  Then the entries of one kind, and those among them that stand in front of a given one, are the same
lists before and after (`filter_eq`, `filter_take_eq`): whatever is computed from them alone does not change.
-/

namespace Concurrency

variable {α κ : Type}

/-- `ys` has the entries of `xs` at other places, with the entries of each kind in the same order. -/
structure Reordering (kind : α → κ) (xs ys : List α) where
  place : Fin xs.length ≃ Fin ys.length
  same : ∀ i, ys.get (place i) = xs.get i
  ordered : ∀ i j, kind (xs.get i) = kind (xs.get j) → i < j → place i < place j

/-- The entries with a property in front of a place, found by their places. -/
private theorem filter_take_eq_map (xs : List α) (n : Nat) (p : α → Bool) :
    (xs.take n).filter p =
      ((List.finRange xs.length).filter fun i => i.1 < n && p (xs.get i)).map xs.get := by
  induction xs generalizing n with
  | nil => simp
  | cons x xs ih =>
    cases n with
    | zero => simp
    | succ n =>
      have hrange : List.finRange (x :: xs).length = 0 :: (List.finRange xs.length).map Fin.succ := List.finRange_succ
      rw [hrange, List.take_succ_cons, List.filter_cons, List.filter_cons, ih, List.filter_map]
      by_cases hx : p x <;> simp [hx, Function.comp_def]

namespace Reordering

variable {kind : α → κ} {xs ys : List α}

theorem lt_iff (r : Reordering kind xs ys) {i j : Fin xs.length} (h : kind (xs.get i) = kind (xs.get j)) :
    r.place i < r.place j ↔ i < j := by
  refine ⟨fun hlt => ?_, r.ordered i j h⟩
  by_contra hn
  rcases Nat.lt_or_eq_of_le (Nat.not_lt.1 hn) with hji | heq
  · exact absurd hlt (Fin.not_lt.2 (Fin.le_of_lt (r.ordered j i h.symm hji)))
  · rw [Fin.ext heq] at hlt
    exact Fin.lt_irrefl _ hlt

variable [DecidableEq κ]

private theorem filter_take_aux (r : Reordering kind xs ys) (c : κ) {m n : Nat}
    (h : ∀ i, kind (xs.get i) = c → (i.1 < m ↔ (r.place i).1 < n)) :
    (ys.take n).filter (fun y => kind y = c) = (xs.take m).filter fun x => kind x = c := by
  rw [filter_take_eq_map, filter_take_eq_map]
  -- the places of the entries, in increasing order on both sides
  have hplaces : ((List.finRange ys.length).filter fun j => decide (j.1 < n) && decide (kind (ys.get j) = c)) =
      ((List.finRange xs.length).filter fun i => decide (i.1 < m) && decide (kind (xs.get i) = c)).map r.place := by
    refine List.Perm.eq_of_pairwise (fun i j _ _ (hij : i < j) (hji : j < i) => ?_) ?_ ?_ ?_
    · exact absurd (Fin.lt_trans hij hji) (Fin.lt_irrefl i)
    · exact (List.pairwise_lt_finRange _).filter _
    · rw [List.pairwise_map]
      apply ((List.pairwise_lt_finRange _).filter _).imp_of_mem
      intro i j hi hj hij
      simp only [List.mem_filter, Bool.and_eq_true, decide_eq_true_eq] at hi hj
      exact r.ordered i j (hi.2.2.trans hj.2.2.symm) hij
    · rw [List.perm_ext_iff_of_nodup ((List.nodup_finRange _).filter _)
        (((List.nodup_finRange _).filter _).map r.place.injective)]
      intro j
      obtain ⟨i, rfl⟩ := r.place.surjective j
      simp only [List.mem_filter, List.mem_finRange, true_and, Bool.and_eq_true, decide_eq_true_eq, List.mem_map,
        r.place.apply_eq_iff_eq, exists_eq_right, r.same]
      exact ⟨fun hi => ⟨(h i hi.2).2 hi.1, hi.2⟩, fun hi => ⟨(h i hi.2).1 hi.1, hi.2⟩⟩
  rw [hplaces, List.map_map]
  congr 1
  funext i
  exact r.same i

/-- The entries of one kind. -/
theorem filter_eq (r : Reordering kind xs ys) (c : κ) :
    ys.filter (fun y => kind y = c) = xs.filter fun x => kind x = c := by
  have h := r.filter_take_aux c (m := xs.length) (n := ys.length) fun i _ =>
    ⟨fun _ => (r.place i).isLt, fun _ => i.isLt⟩
  rwa [List.take_length, List.take_length] at h

/-- The entries of the kind of an entry that stand in front of it. -/
theorem filter_take_eq (r : Reordering kind xs ys) (i : Fin xs.length) :
    (ys.take (r.place i)).filter (fun y => kind y = kind (xs.get i)) =
      (xs.take i).filter fun x => kind x = kind (xs.get i) := by
  apply r.filter_take_aux
  intro j hj
  exact (r.lt_iff hj).symm

omit [DecidableEq κ] in
theorem perm (r : Reordering kind xs ys) : xs.Perm ys := by
  have hplaces : ((List.finRange xs.length).map r.place).Perm (List.finRange ys.length) := by
    rw [List.perm_ext_iff_of_nodup ((List.nodup_finRange _).map r.place.injective) (List.nodup_finRange _)]
    intro j
    simp only [List.mem_map, List.mem_finRange, true_and, iff_true]
    exact r.place.surjective j
  have hentries := hplaces.map ys.get
  rw [List.map_map] at hentries
  have hsame : ys.get ∘ r.place = xs.get := funext r.same
  rwa [hsame, List.map_get_finRange, List.map_get_finRange] at hentries

end Reordering

end Concurrency
