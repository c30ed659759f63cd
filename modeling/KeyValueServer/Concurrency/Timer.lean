import Mathlib.Algebra.Order.Monoid.Defs
import Mathlib.Data.List.Chain
import Mathlib.Data.List.Induction
import Mathlib.Order.Defs.LinearOrder

/-!
# An action that is repeated after a period

A loop reads a clock in each of its rounds, and starts an action when at least a period has passed since the reading
with which it started the action last.  The starts (`starts`) are readings at least a period apart; and since the action
is started with the first reading that is late enough, they are not much more than a period apart when the readings
come often enough.
-/

namespace Concurrency

variable {α : Type} [AddCommMonoid α] [LinearOrder α]

/-- The readings with which the action is started, when it was started last with `last`. -/
def starts (period last : α) : List α → List α
  | [] => []
  | reading :: readings =>
    if last + period ≤ reading then reading :: starts period reading readings else starts period last readings

/-- The last start after these readings. -/
def lastStart (period last : α) (readings : List α) : α := (starts period last readings).getLastD last

variable {period last reading bound : α} {readings : List α}

theorem getLast?_starts :
    (last :: starts period last readings).getLast? = some (lastStart period last readings) := by
  rw [List.getLast?_cons, ← List.getLastD_eq_getLast?, lastStart]

theorem starts_concat :
    starts period last (readings ++ [reading]) =
      starts period last readings ++ if lastStart period last readings + period ≤ reading then [reading] else [] := by
  induction readings generalizing last with
  | nil => rfl
  | cons r readings ih =>
    rw [List.cons_append, starts, starts, lastStart, starts]
    split
    · rw [ih, List.getLastD_cons]
      rfl
    · exact ih

/-- A reading that is late enough is a start. -/
theorem starts_concat_of_le (h : lastStart period last readings + period ≤ reading) :
    starts period last (readings ++ [reading]) = starts period last readings ++ [reading] := by
  rw [starts_concat, if_pos h]

theorem starts_concat_of_lt (h : reading < lastStart period last readings + period) :
    starts period last (readings ++ [reading]) = starts period last readings := by
  rw [starts_concat, if_neg (not_le_of_gt h), List.append_nil]

theorem lastStart_concat_of_le (h : lastStart period last readings + period ≤ reading) :
    lastStart period last (readings ++ [reading]) = reading := by
  rw [lastStart, starts_concat_of_le h, List.getLastD_concat]

theorem lastStart_concat_of_lt (h : reading < lastStart period last readings + period) :
    lastStart period last (readings ++ [reading]) = lastStart period last readings := by
  rw [lastStart, starts_concat_of_lt h]
  rfl

theorem isChain_starts : (last :: starts period last readings).IsChain fun a b => a + period ≤ b := by
  induction readings generalizing last with
  | nil => exact List.isChain_singleton _
  | cons r readings ih =>
    rw [starts]
    split
    · rename_i hle
      exact List.isChain_cons_cons.2 ⟨hle, ih⟩
    · exact ih

variable [IsOrderedCancelAddMonoid α]

/-- A reading is less than a period after the last start, once it has been decided on. -/
theorem lt_lastStart (hperiod : 0 < period) (hlast : reading ∈ (last :: readings).getLast?) :
    reading < lastStart period last readings + period := by
  induction readings using List.reverseRecOn with
  | nil =>
    obtain rfl : last = reading := by simpa using hlast
    exact lt_add_of_pos_right _ hperiod
  | append_singleton readings r _ =>
    obtain rfl : r = reading := by
      rw [← List.cons_append, List.getLast?_concat] at hlast
      exact Option.some.inj hlast
    rcases le_or_gt (lastStart period last readings + period) r with hle | hlt
    · rw [lastStart_concat_of_le hle]
      exact lt_add_of_pos_right _ hperiod
    · rw [lastStart_concat_of_lt hlt]
      exact hlt

/-- The next reading comes less than a period and the distance between two readings after the last start. -/
theorem lt_of_isChain (hperiod : 0 < period)
    (h : (last :: (readings ++ [reading])).IsChain fun a b => b ≤ a + bound) :
    reading < lastStart period last readings + (period + bound) := by
  rw [← List.cons_append, List.isChain_append] at h
  obtain ⟨before, hbefore⟩ : ∃ before, before ∈ (last :: readings).getLast? :=
    Option.isSome_iff_exists.1 (by simp)
  calc reading ≤ before + bound := h.2.2 before hbefore reading rfl
    _ < lastStart period last readings + period + bound := add_lt_add_left (lt_lastStart hperiod hbefore) bound
    _ = lastStart period last readings + (period + bound) := add_assoc _ _ _

theorem isChain_starts_of_isChain (hperiod : 0 < period)
    (h : (last :: readings).IsChain fun a b => b ≤ a + bound) :
    (last :: starts period last readings).IsChain fun a b => b < a + (period + bound) := by
  induction readings using List.reverseRecOn with
  | nil => exact List.isChain_singleton _
  | append_singleton readings r ih =>
    have hlt := lt_of_isChain hperiod h
    rw [← List.cons_append, List.isChain_append] at h
    have hchain := ih h.1
    rw [starts_concat]
    split
    · rw [← List.cons_append, List.isChain_append]
      refine ⟨hchain, List.isChain_singleton _, fun x hx y hy => ?_⟩
      obtain rfl : r = y := Option.some.inj hy
      obtain rfl : lastStart period last readings = x := Option.some.inj (getLast?_starts.symm.trans hx)
      exact hlt
    · rw [List.append_nil]
      exact hchain

end Concurrency
