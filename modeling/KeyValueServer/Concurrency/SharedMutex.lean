import KeyValueServer.Concurrency.Run
import Mathlib.Data.Finset.Insert
import Mathlib.Data.Finset.Basic
import Mathlib.Logic.Function.Basic

/-!
# The readers-writer lock

`SharedMutex T` is a lock that is held by any number of threads in shared mode or by one thread in exclusive mode.
The four operations are those of a shared mutex: `lockShared` and `lock` are defined when the lock can be taken,
`unlock` gives back whatever the thread holds.

A system in which each thread is at a point of its program where it should hold the lock in a certain mode keeps
the invariant `Agrees`: the lock is held by exactly the threads that should hold it.  The rules for the operations
keep `Agrees`, and `Agrees.exclusive_alone` is what the lock is for.
-/

namespace Concurrency

/-- What one thread holds of the lock. -/
inductive Hold
  | none
  | shared
  | exclusive
  deriving DecidableEq, Repr

/-- The state of the lock; it is free when it is held in shared mode by nobody. -/
inductive SharedMutex (T : Type)
  | shared (holders : Finset T)
  | exclusive (holder : T)

namespace SharedMutex

variable {T : Type} [DecidableEq T]

/-- The lock that nobody holds. -/
def free : SharedMutex T := .shared ∅

def hold : SharedMutex T → T → Hold
  | .shared holders, t => if t ∈ holders then .shared else .none
  | .exclusive holder, t => if t = holder then .exclusive else .none

def lockShared (t : T) : SharedMutex T → Option (SharedMutex T)
  | .shared holders => some (.shared (insert t holders))
  | .exclusive _ => .none

def lock (t : T) : SharedMutex T → Option (SharedMutex T)
  | .shared holders => if holders = ∅ then some (.exclusive t) else .none
  | .exclusive _ => .none

def unlock (t : T) : SharedMutex T → SharedMutex T
  | .shared holders => .shared (holders.erase t)
  | .exclusive _ => free

theorem hold_shared (holders : Finset T) (t : T) :
    (SharedMutex.shared holders).hold t = if t ∈ holders then .shared else .none := rfl

theorem hold_exclusive (holder t : T) :
    (SharedMutex.exclusive holder).hold t = if t = holder then .exclusive else .none := rfl

@[simp] theorem hold_free (t : T) : (free : SharedMutex T).hold t = .none := by
  simp [free, hold_shared]

theorem hold_lockShared {l l' : SharedMutex T} {t : T} (h : l.lockShared t = some l') (t' : T) :
    l'.hold t' = if t' = t then .shared else l.hold t' := by
  cases l with
  | exclusive _ => simp [lockShared] at h
  | shared holders =>
    simp only [lockShared, Option.some.injEq] at h
    subst h
    by_cases ht : t' = t <;> simp [hold_shared, ht]

theorem hold_lock {l l' : SharedMutex T} {t : T} (h : l.lock t = some l') (t' : T) :
    l.hold t' = .none ∧ l'.hold t' = if t' = t then .exclusive else .none := by
  cases l with
  | exclusive _ => simp [lock] at h
  | shared holders =>
    simp only [lock] at h
    split at h
    · rename_i he
      cases h
      simp [hold_shared, hold_exclusive, he]
    · cases h

theorem hold_unlock {l : SharedMutex T} {t : T} (h : l.hold t ≠ .none) (t' : T) :
    (l.unlock t).hold t' = if t' = t then .none else l.hold t' := by
  cases l with
  | exclusive holder =>
    have ht : t = holder := by
      by_contra hne
      simp [hold_exclusive, hne] at h
    subst ht
    by_cases ht' : t' = t <;> simp [unlock, hold_exclusive, ht']
  | shared holders => by_cases ht' : t' = t <;> simp [unlock, hold_shared, ht']

/-- Taking the free lock in shared mode and giving it back leaves it free. -/
theorem lockShared_free (t : T) : ∃ l, (free : SharedMutex T).lockShared t = some l ∧ l.unlock t = free := by
  refine ⟨.shared (insert t ∅), rfl, ?_⟩
  show SharedMutex.shared ((insert t ∅ : Finset T).erase t) = .shared ∅
  rw [Finset.erase_insert (Finset.notMem_empty t)]

theorem lock_free (t : T) : (free : SharedMutex T).lock t = some (.exclusive t) := by
  simp [free, lock]

theorem eq_free_iff {l : SharedMutex T} : l = free ↔ ∀ t, l.hold t = .none := by
  cases l with
  | exclusive holder =>
    constructor
    · intro h; simp [free] at h
    · intro h; simpa [hold_exclusive] using h holder
  | shared holders =>
    simp only [free, SharedMutex.shared.injEq, Finset.eq_empty_iff_forall_notMem, hold_shared]
    constructor
    · intro h t; simp [h t]
    · intro h t ht
      have := h t
      simp [ht] at this

theorem hold_exclusive_iff {l : SharedMutex T} {t : T} : l.hold t = .exclusive ↔ l = .exclusive t := by
  cases l with
  | exclusive holder => by_cases h : t = holder <;> simp [hold_exclusive, h, eq_comm]
  | shared holders => rw [hold_shared]; split <;> simp

/-! ### Threads that hold what they should -/

/-- The lock is held by the threads and in the modes that `mode` says. -/
def Agrees (l : SharedMutex T) (mode : T → Hold) : Prop := ∀ t, l.hold t = mode t

theorem Agrees.free : Agrees (SharedMutex.free : SharedMutex T) fun _ => .none := fun t => hold_free t

theorem Agrees.exclusive_alone {l : SharedMutex T} {mode : T → Hold} (h : l.Agrees mode) {t t' : T}
    (ht : mode t = .exclusive) (hne : t' ≠ t) : mode t' = .none := by
  have hl := hold_exclusive_iff.1 ((h t).trans ht)
  rw [← h t', hl]
  simp [hold_exclusive, hne]

theorem Agrees.update_same {l : SharedMutex T} {mode : T → Hold} (h : l.Agrees mode) {t : T} {m : Hold}
    (hm : m = mode t) : l.Agrees (Function.update mode t m) := by
  subst hm
  rwa [Function.update_eq_self]

theorem Agrees.lockShared {l l' : SharedMutex T} {mode : T → Hold} (h : l.Agrees mode) {t : T}
    (hl : l.lockShared t = some l') : l'.Agrees (Function.update mode t .shared) := by
  intro t'
  rw [hold_lockShared hl t', Function.update_apply, h t']

theorem Agrees.lock {l l' : SharedMutex T} {mode : T → Hold} (h : l.Agrees mode) {t : T}
    (hl : l.lock t = some l') : l'.Agrees (Function.update mode t .exclusive) := by
  intro t'
  obtain ⟨hn, hl'⟩ := hold_lock hl t'
  rw [hl', Function.update_apply, ← h t', hn]

theorem Agrees.unlock {l : SharedMutex T} {mode : T → Hold} (h : l.Agrees mode) {t : T}
    (ht : mode t ≠ .none) : (l.unlock t).Agrees (Function.update mode t .none) := by
  intro t'
  rw [hold_unlock (by rw [h t]; exact ht) t', Function.update_apply, h t']

end SharedMutex

end Concurrency
