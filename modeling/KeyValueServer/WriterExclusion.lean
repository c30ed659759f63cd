import KeyValueServer.EngineThreads
import KeyValueServer.JsonText

/-!
# Exclusion of writers

`set` changes the records with the lock held exclusively, and then no other call is inside the lock at all.
`initial_set` changes them as well, but takes the lock in shared mode: two of its calls, or one of them and a
`get`, can be inside together.  `initialSet_races` is such a run.  As long as every `initial_set` takes the lock when
it is free and no other call joins it (`InitialSetAlone`), which is how the server loads its file before it starts
its threads, writers are excluded in every reachable state.
-/

namespace KeyValueServer

open Concurrency

/-- The points that insert into `m_data` or assign a record's `m_value`. -/
def Pc.mutates : Pc → Prop
  | .setEmplace _ _ | .setAssign _ _ | .initialSetEmplace _ _ | .initialSetAssign _ _ => True
  | _ => False

/-- The points that search, iterate or insert into `m_data`, or read or assign a record's `m_value`. -/
def Pc.accesses : Pc → Prop
  | .getFind _ | .getCopy _ _ | .initialSetFind _ _ | .initialSetEmplace _ _ | .initialSetAssign _ _
  | .setFind _ _ | .setEmplace _ _ | .setAssign _ _ | .enumerateBegin _ | .enumerateNext _ _ => True
  | _ => False

/-- The points at which `initial_set` holds the lock. -/
def Pc.inInitialSet : Pc → Prop
  | .initialSetFind _ _ | .initialSetEmplace _ _ | .initialSetAssign _ _ | .initialSetUnlock _ _ => True
  | _ => False

def Thread.at (p : Pc → Prop) : Thread → Prop
  | .idle => False
  | .running _ pc => p pc

variable {T : Type}

/-- Where one call changes the records, no other call is at them. -/
def World.WritersExcluded (w : World T) : Prop :=
  ∀ t t', t' ≠ t → (w.thread t).at Pc.mutates → ¬ (w.thread t').at Pc.accesses

/-- A call of `initial_set` takes the lock when nobody holds it, and nobody takes it in shared mode while a call
of `initial_set` holds it. -/
def InitialSetAlone (w : World T) : Label T → Prop
  | .exec _ _ (.initialSetLock _ _) => w.memory.protectData = .free
  | .exec _ _ (.getLock _) | .exec _ _ (.enumerateLock _) => ∀ t, ¬ (w.thread t).at Pc.inInitialSet
  | _ => True

/-- Beside a call of `initial_set` inside the lock, no other call is inside. -/
def World.InitialSetsAlone (w : World T) : Prop :=
  ∀ t t', t' ≠ t → (w.thread t).at Pc.inInitialSet → (w.thread t').hold = .none

theorem Pc.hold_of_accesses {pc : Pc} (h : pc.accesses) : pc.hold ≠ .none := by
  cases pc <;> first | exact h.elim | simp [Pc.hold]

theorem Pc.exclusive_or_inInitialSet {pc : Pc} (h : pc.mutates) : pc.hold = .exclusive ∨ pc.inInitialSet := by
  cases pc <;> first | exact h.elim | exact Or.inl rfl | exact Or.inr trivial

theorem Pc.shared_of_inInitialSet {pc : Pc} (h : pc.inInitialSet) : pc.hold = .shared := by
  cases pc <;> first | exact h.elim | rfl

/-- Beside a call that holds the lock, in whatever mode, no other call changes the records. -/
theorem World.not_mutates_of_hold {w : World T} [DecidableEq T] (hl : w.LockAgrees) (hi : w.InitialSetsAlone)
    {t t' : T} (hne : t' ≠ t) (hhold : (w.thread t').hold ≠ .none) : ¬ (w.thread t).at Pc.mutates := by
  intro hm
  cases h : w.thread t with
  | idle => rw [h] at hm; exact hm.elim
  | running c pc =>
    rw [h] at hm
    rcases Pc.exclusive_or_inInitialSet hm with hx | hx
    · exact hhold (hl.alone (t := t) (by rw [h]; exact hx) hne)
    · exact hhold (hi t t' hne (by rw [h]; exact hx))

theorem World.writersExcluded_of_alone {w : World T} [DecidableEq T] (hl : w.LockAgrees)
    (hi : w.InitialSetsAlone) : w.WritersExcluded := by
  intro t t' hne hm ha
  refine World.not_mutates_of_hold hl hi hne ?_ hm
  cases h : w.thread t' with
  | idle => rw [h] at ha; exact ha.elim
  | running c pc => rw [h] at ha; exact Pc.hold_of_accesses ha

section Exclusion

variable [DecidableEq T] [Allocator]

/-- A point at which a call gets inside the lock is one of the four acquisitions, and `initial_set` gets inside at
its own. -/
theorem Exec.enters {rj : RapidJson} {t : T} {m m' : Memory T} {pc pc' : Pc} (h : Exec rj t m pc m' pc') :
    (pc'.hold = .none ∨ pc.hold ≠ .none ∨ (∃ name, pc = .getLock name) ∨ (∃ v, pc = .enumerateLock v) ∨
      (∃ l, m.protectData.lock t = some l) ∨ ∃ name value, pc = .initialSetLock name value) ∧
    (pc'.inInitialSet → pc.inInitialSet ∨ ∃ name value, pc = .initialSetLock name value) := by
  cases h with
  | setLock hl => exact ⟨by simp [hl], fun h => h.elim⟩
  | getLock | enumerateLock => exact ⟨by simp, fun h => h.elim⟩
  | initialSetLock => exact ⟨by simp, fun _ => by simp⟩
  | initialSetFindMiss | initialSetFindHit | initialSetEmplace | initialSetAssign =>
    exact ⟨by simp [Pc.hold], fun _ => Or.inl trivial⟩
  | _ => exact ⟨by simp [Pc.hold], fun h => h.elim⟩

omit [DecidableEq T] [Allocator] in
theorem not_inInitialSet_of_hold {w : World T} {t : T} (h : (w.thread t).hold = .none) :
    ¬ (w.thread t).at Pc.inInitialSet := by
  cases ht : w.thread t with
  | idle => exact fun h => h
  | running c pc =>
    intro hi
    rw [ht, Thread.hold, Pc.shared_of_inInitialSet hi] at h
    cases h

/-- What the thread that moves may do: start being inside with an `initial_set` when nobody is inside, and get
inside when no `initial_set` is. -/
theorem Step.enters {rj : RapidJson} {w w' : World T} {l : Label T} (hs : Step rj w l w')
    (hg : InitialSetAlone w l) (hl : w.LockAgrees) :
    ((w'.thread l.thread).at Pc.inInitialSet →
      (w.thread l.thread).at Pc.inInitialSet ∨ ∀ t, (w.thread t).hold = .none) ∧
    ((w'.thread l.thread).hold = .none ∨ (w.thread l.thread).hold ≠ .none ∨
      ∀ t, ¬ (w.thread t).at Pc.inInitialSet) := by
  cases hs with
  | @invoke t op ht => cases op <;> simp [Label.thread, Thread.at, Op.start, Pc.inInitialSet, Thread.hold, Pc.hold]
  | ret ht => simp [Label.thread, Thread.at, Thread.hold]
  | @exec t call pc pc' m' ht he =>
    simp only [Label.thread, Function.update_self, Thread.at, Thread.hold, ht]
    obtain ⟨henter, hinit⟩ := he.enters
    have hfree : ∀ {name value}, pc = .initialSetLock name value → ∀ t, (w.thread t).hold = .none := by
      rintro name value rfl a
      rw [← hl.hold_eq a]
      exact SharedMutex.eq_free_iff.1 hg a
    constructor
    · intro h
      rcases hinit h with hpc | ⟨name, value, hpc⟩
      · exact Or.inl hpc
      · exact Or.inr (hfree hpc)
    · rcases henter with h | h | ⟨name, rfl⟩ | ⟨v, rfl⟩ | ⟨l, h⟩ | ⟨name, value, h⟩
      · exact Or.inl h
      · exact Or.inr (Or.inl h)
      · exact Or.inr (Or.inr hg)
      · exact Or.inr (Or.inr hg)
      · right; right
        intro a
        apply not_inInitialSet_of_hold
        rw [← hl.hold_eq a]
        exact (SharedMutex.hold_lock h a).1
      · exact Or.inr (Or.inr fun a => not_inInitialSet_of_hold (hfree h a))

theorem Step.initialSetsAlone {rj : RapidJson} {w w' : World T} {l : Label T} (hs : Step rj w l w')
    (hg : InitialSetAlone w l) (hl : w.LockAgrees) (hi : w.InitialSetsAlone) : w'.InitialSetsAlone := by
  obtain ⟨hinit, henter⟩ := hs.enters hg hl
  intro a b hne ha
  by_cases hat : a = l.thread
  · subst hat
    rw [hs.thread_of_ne hne]
    rcases hinit ha with ha | hnone
    · exact hi _ b hne ha
    · exact hnone b
  · rw [hs.thread_of_ne hat] at ha
    by_cases hb : b = l.thread
    · -- the moving call is not the `initial_set`: it must not get inside
      subst hb
      rcases henter with h | h | h
      · exact h
      · exact absurd (hi a _ hne ha) h
      · exact absurd ha (h a)
    · rw [hs.thread_of_ne hb]
      exact hi a b hne ha

/-- In every run in which calls of `initial_set` are alone inside the lock, writers are excluded in every state. -/
theorem writersExcluded_of_initialSetAlone {rj : RapidJson} {engine : DataEngine} {file : Option Bytes}
    {ls : List (Label T)} {w : World T}
    (h : Run (Restrict (Step rj) InitialSetAlone) (World.start T engine file) ls w) : w.WritersExcluded := by
  have hinv : w.LockAgrees ∧ w.InitialSetsAlone := by
    refine Run.invariant (fun _ w => w.LockAgrees ∧ w.InitialSetsAlone) ?_ ?_ h
    · exact ⟨World.lockAgrees_start engine file, fun _ _ _ ha => ha.elim⟩
    · intro _ _ _ _ hi hs
      exact ⟨hs.1.lockAgrees hi.1, hs.1.initialSetsAlone hs.2 hi.1 hi.2⟩
  exact World.writersExcluded_of_alone hinv.1 hinv.2

end Exclusion

section Runs

attribute [local instance] Allocator.exact

/-- An `initial_set` that has found nothing and a `get` that has taken the lock are inside together. -/
theorem initialSet_races : ∃ (ls : List (Label Bool)) (w : World Bool),
    Run (Step JsonText.library) (World.start Bool .empty none) ls w ∧ ¬ w.WritersExcluded := by
  have h₀ : Run (Step JsonText.library) (World.start Bool .empty none) [] _ := .nil
  have h₁ := h₀.snoc (.invoke (t := false) (.initialSet (ascii "a") (ascii "1")) rfl)
  have h₂ := h₁.snoc (.exec (t := false) rfl (.initialSetLock rfl))
  have h₃ := h₂.snoc (.exec (t := false) rfl (.initialSetFindMiss rfl))
  have h₄ := h₃.snoc (.invoke (t := true) (.get (ascii "a")) rfl)
  have h₅ := h₄.snoc (.exec (t := true) rfl (.getLock rfl))
  exact ⟨_, _, h₅, fun hexcl => hexcl false true (by decide) trivial trivial⟩

/-- An `initial_set` alone inside the lock, about to insert its record. -/
theorem initialSet_alone_excludes : ∃ (ls : List (Label Bool)) (w : World Bool),
    Run (Restrict (Step JsonText.library) InitialSetAlone) (World.start Bool .empty none) ls w ∧
      (w.thread false).at Pc.mutates ∧ w.WritersExcluded := by
  have h₀ : Run (Restrict (Step JsonText.library) InitialSetAlone) (World.start Bool .empty none) [] _ := .nil
  have h₁ := h₀.snoc ⟨.invoke (t := false) (.initialSet (ascii "a") (ascii "1")) rfl, trivial⟩
  have h₂ := h₁.snoc ⟨.exec (t := false) rfl (.initialSetLock rfl), rfl⟩
  have h₃ := h₂.snoc ⟨.exec (t := false) rfl (.initialSetFindMiss rfl), trivial⟩
  exact ⟨_, _, h₃, trivial, writersExcluded_of_initialSetAlone h₃⟩

end Runs

end KeyValueServer
