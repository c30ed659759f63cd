import KeyValueServer.Concurrency.Timer
import KeyValueServer.TimedProgram
import Mathlib.Algebra.Order.Group.Defs
import Mathlib.Algebra.Order.Group.Int

/-!
# When the worker saves

The worker decides with the second reading of each iteration whether to save.  The saves that a trace shows, each with
the reading that was decided on, are the starts of a timer (`Follows`), however long a save, a print or a wait takes.
-/

namespace KeyValueServer

open Concurrency

variable {T : Type}

/-! ### The clock readings of a trace -/

def loopStart : Int × TimedLabel T → Option Int
  | (τ, .enterLoop) => some τ
  | _ => none

def saveReading : Int × TimedLabel T → Option Int
  | (τ, .readSaveTime) => some τ
  | _ => none

def saveStart : Int × TimedLabel T → Option Int
  | (_, .startStore saveTime _) => some saveTime
  | _ => none

/-- When the loop was entered: once, or not yet. -/
def loopStarts (ls : List (Int × TimedLabel T)) : List Int := ls.filterMap loopStart

/-- The second readings of the iterations. -/
def saveReadings (ls : List (Int × TimedLabel T)) : List Int := ls.filterMap saveReading

/-- The readings with which the worker began to save. -/
def saveStarts (ls : List (Int × TimedLabel T)) : List Int := ls.filterMap saveStart

theorem loopStarts_concat (ls : List (Int × TimedLabel T)) (l : Int × TimedLabel T) :
    loopStarts (ls ++ [l]) = loopStarts ls ++ (loopStart l).toList :=
  filterMap_concat _ ls l

theorem saveReadings_concat (ls : List (Int × TimedLabel T)) (l : Int × TimedLabel T) :
    saveReadings (ls ++ [l]) = saveReadings ls ++ (saveReading l).toList :=
  filterMap_concat _ ls l

theorem saveStarts_concat (ls : List (Int × TimedLabel T)) (l : Int × TimedLabel T) :
    saveStarts (ls ++ [l]) = saveStarts ls ++ (saveStart l).toList :=
  filterMap_concat _ ls l

namespace BackgroundWorker

theorem timeBetweenDataSaves_pos : 0 < timeBetweenDataSaves := by decide

/-- The point of `run` in a loop that was entered at `loopTime`; the reading to be decided on is not one of the timer's
yet. -/
def RunLocals.FollowsFrom (r : RunLocals) (loopTime : Int) (readings saves : List Int) : Prop :=
  match r.point with
  | .entering => False
  | .deciding _ saveTime => ∃ decided, readings = decided ++ [saveTime] ∧
      saves = starts timeBetweenDataSaves loopTime decided ∧
      r.lastSaveTime = lastStart timeBetweenDataSaves loopTime decided
  | .storing _ saveTime => readings.getLast? = some saveTime ∧
      saves = starts timeBetweenDataSaves loopTime readings ∧
      saveTime = lastStart timeBetweenDataSaves loopTime readings
  | .waiting _ saveTime => readings.getLast? = some saveTime ∧
      saves = starts timeBetweenDataSaves loopTime readings ∧
      r.lastSaveTime = lastStart timeBetweenDataSaves loopTime readings
  | _ => saves = starts timeBetweenDataSaves loopTime readings ∧
      r.lastSaveTime = lastStart timeBetweenDataSaves loopTime readings

/-- The saves follow the timer. -/
inductive RunLocals.Follows (ls : List (Int × TimedLabel T)) (r : RunLocals) : Prop
  | before : r.point = .entering → loopStarts ls = [] → saveReadings ls = [] → saveStarts ls = [] → Follows ls r
  | inside {loopTime : Int} :
      loopStarts ls = [loopTime] → r.FollowsFrom loopTime (saveReadings ls) (saveStarts ls) → Follows ls r

variable {roles : Roles T} {ls : List (Int × TimedLabel T)} {now : Int} {l : TimedLabel T} {r r' : RunLocals}

theorem RunLocals.Follows.entered (h : r.Follows ls) (hp : r.point ≠ .entering) :
    ∃ loopTime, loopStarts ls = [loopTime] ∧ r.FollowsFrom loopTime (saveReadings ls) (saveStarts ls) := by
  cases h with
  | before he => exact absurd he hp
  | inside hloop hfrom => exact ⟨_, hloop, hfrom⟩

/-- A step that the timer does not see. -/
theorem RunLocals.Follows.keep (h : r.Follows ls) (hloop : loopStart (now, l) = none)
    (hreading : saveReading (now, l) = none) (hsave : saveStart (now, l) = none)
    (hentering : r.point = .entering → r'.point = .entering)
    (hfrom : ∀ loopTime readings saves, r.FollowsFrom loopTime readings saves →
      r'.FollowsFrom loopTime readings saves) :
    r'.Follows (ls ++ [(now, l)]) := by
  have hloops : loopStarts (ls ++ [(now, l)]) = loopStarts ls := by simp [loopStarts_concat, hloop]
  have hreadings : saveReadings (ls ++ [(now, l)]) = saveReadings ls := by simp [saveReadings_concat, hreading]
  have hsaves : saveStarts (ls ++ [(now, l)]) = saveStarts ls := by simp [saveStarts_concat, hsave]
  cases h with
  | before hp h₁ h₂ h₃ => exact .before (hentering hp) (hloops.trans h₁) (hreadings.trans h₂) (hsaves.trans h₃)
  | inside h₁ h₂ =>
    refine .inside (hloops.trans h₁) ?_
    rw [hreadings, hsaves]
    exact hfrom _ _ _ h₂

theorem RunStep.follows (hs : RunStep roles now r l r') (h : r.Follows ls) : r'.Follows (ls ++ [(now, l)]) := by
  cases hs with
  | enterLoop hp =>
    cases h with
    | before _ hloops hreadings hsaves =>
      have hloops' : loopStarts (ls ++ [(now, .enterLoop)]) = [now] := by rw [loopStarts_concat, hloops]; rfl
      refine .inside hloops' ?_
      rw [saveReadings_concat, hreadings, saveStarts_concat, hsaves]
      exact ⟨rfl, rfl⟩
    | inside _ hfrom =>
      rw [RunLocals.FollowsFrom, hp] at hfrom
      exact hfrom.elim
  | readPrintTime hp | getStatistics hp | gotStatistics hp | print hp _ =>
    refine h.keep rfl rfl rfl (fun he => by rw [hp] at he; cases he) fun loopTime readings saves hfrom => ?_
    rw [RunLocals.FollowsFrom, hp] at hfrom
    exact hfrom
  | unlock hp =>
    refine h.keep rfl rfl rfl (fun he => by rw [hp] at he; cases he) fun loopTime readings saves hfrom => ?_
    rw [RunLocals.FollowsFrom, hp] at hfrom
    exact hfrom.2
  | timeOut | elsewhere => exact h.keep rfl rfl rfl id fun _ _ _ hfrom => hfrom
  | readSaveTime hp =>
    obtain ⟨loopTime, hloop, hfrom⟩ := h.entered (by rw [hp]; nofun)
    rw [RunLocals.FollowsFrom, hp] at hfrom
    refine .inside (by rw [loopStarts_concat, hloop]; rfl) ?_
    rw [saveReadings_concat, saveStarts_concat]
    exact ⟨_, rfl, (List.append_nil _).trans hfrom.1, hfrom.2⟩
  | @startStore printTime saveTime call hp hlate =>
    obtain ⟨loopTime, hloop, hfrom⟩ := h.entered (by rw [hp]; nofun)
    rw [RunLocals.FollowsFrom, hp] at hfrom
    obtain ⟨decided, hreadings, hsaves, hlast⟩ := hfrom
    have hle : lastStart timeBetweenDataSaves loopTime decided + timeBetweenDataSaves ≤ saveTime := by
      rw [← hlast]
      omega
    have hreadings' : saveReadings (ls ++ [(now, .startStore saveTime call)]) = decided ++ [saveTime] := by
      rw [saveReadings_concat, hreadings]
      exact List.append_nil _
    have hsaves' : saveStarts (ls ++ [(now, .startStore saveTime call)]) =
        starts timeBetweenDataSaves loopTime (decided ++ [saveTime]) := by
      rw [starts_concat_of_le hle, saveStarts_concat, hsaves]
      rfl
    refine .inside (by rw [loopStarts_concat, hloop]; rfl) ?_
    rw [hreadings', hsaves']
    exact ⟨List.getLast?_concat, rfl, (lastStart_concat_of_le hle).symm⟩
  | finishStore hp =>
    refine h.keep rfl rfl rfl (fun he => by rw [hp] at he; cases he) fun loopTime readings saves hfrom => ?_
    rw [RunLocals.FollowsFrom, hp] at hfrom
    exact hfrom
  | @skipStore printTime saveTime hp hearly =>
    refine h.keep rfl rfl rfl (fun he => by rw [hp] at he; cases he) fun loopTime readings saves hfrom => ?_
    rw [RunLocals.FollowsFrom, hp] at hfrom
    obtain ⟨decided, rfl, rfl, hlast⟩ := hfrom
    have hlt : saveTime < lastStart timeBetweenDataSaves loopTime decided + timeBetweenDataSaves := by
      rw [← hlast]
      omega
    refine ⟨List.getLast?_concat, ?_, ?_⟩
    · rw [starts_concat_of_lt hlt]
    · rw [lastStart_concat_of_lt hlt]
      exact hlast

/-! ### The distances between saves -/

/-- The saves are the starts of the timer for the readings that were decided on. -/
theorem RunLocals.Follows.decided (h : r.Follows ls) :
    (loopStarts ls = [] ∧ saveStarts ls = []) ∨ ∃ loopTime decided, loopStarts ls = [loopTime] ∧
      saveStarts ls = starts timeBetweenDataSaves loopTime decided ∧ decided <+: saveReadings ls := by
  cases h with
  | before _ hloops _ hsaves => exact Or.inl ⟨hloops, hsaves⟩
  | @inside loopTime hloop hfrom =>
    right
    unfold RunLocals.FollowsFrom at hfrom
    split at hfrom
    · exact hfrom.elim
    · obtain ⟨decided, hreadings, hsaves, -⟩ := hfrom
      refine ⟨loopTime, decided, hloop, hsaves, ?_⟩
      rw [hreadings]
      exact List.prefix_append _ _
    · exact ⟨loopTime, _, hloop, hfrom.2.1, List.prefix_refl _⟩
    · exact ⟨loopTime, _, hloop, hfrom.2.1, List.prefix_refl _⟩
    · exact ⟨loopTime, _, hloop, hfrom.1, List.prefix_refl _⟩

theorem RunLocals.Follows.isChain (h : r.Follows ls) :
    (loopStarts ls ++ saveStarts ls).IsChain fun a b => a + timeBetweenDataSaves ≤ b := by
  rcases h.decided with ⟨hloop, hsaves⟩ | ⟨loopTime, decided, hloop, hsaves, -⟩
  · rw [hloop, hsaves]
    exact .nil
  · rw [hloop, hsaves]
    exact isChain_starts

theorem RunLocals.Follows.isChain_of_isChain (h : r.Follows ls) {bound : Int}
    (hreadings : (loopStarts ls ++ saveReadings ls).IsChain fun a b => b ≤ a + bound) :
    (loopStarts ls ++ saveStarts ls).IsChain fun a b => b < a + (timeBetweenDataSaves + bound) := by
  rcases h.decided with ⟨hloop, hsaves⟩ | ⟨loopTime, decided, hloop, hsaves, hshorter⟩
  · rw [hloop, hsaves]
    exact .nil
  · rw [hloop] at hreadings ⊢
    rw [hsaves]
    have hdecided : loopTime :: decided <+: [loopTime] ++ saveReadings ls :=
      (List.prefix_append_right_inj [loopTime]).2 hshorter
    have hprefix := List.IsChain.prefix hreadings hdecided
    exact isChain_starts_of_isChain timeBetweenDataSaves_pos hprefix

/-- The last save, or the start of the loop. -/
def lastSaved (ls : List (Int × TimedLabel T)) : Option Int := (loopStarts ls ++ saveStarts ls).getLast?

/-- A reading that is to be decided on. -/
theorem RunLocals.Follows.deciding_lt (h : r.Follows ls) {printTime saveTime bound : Int}
    (hp : r.point = .deciding printTime saveTime)
    (hreadings : (loopStarts ls ++ saveReadings ls).IsChain fun a b => b ≤ a + bound) :
    ∀ last ∈ lastSaved ls, saveTime < last + (timeBetweenDataSaves + bound) := by
  intro last hlast
  obtain ⟨loopTime, hloop, hfrom⟩ := h.entered (by rw [hp]; nofun)
  rw [RunLocals.FollowsFrom, hp] at hfrom
  obtain ⟨decided, hdecided, hsaves, -⟩ := hfrom
  rw [hloop, hdecided] at hreadings
  rw [lastSaved, hloop, hsaves] at hlast
  obtain rfl := Option.some.inj (getLast?_starts.symm.trans hlast)
  exact lt_of_isChain timeBetweenDataSaves_pos hreadings

/-- A reading that was decided on. -/
theorem RunLocals.Follows.waiting_lt (h : r.Follows ls) {printTime saveTime : Int}
    (hp : r.point = .waiting printTime saveTime) : ∀ last ∈ lastSaved ls, saveTime < last + timeBetweenDataSaves := by
  intro last hlast
  obtain ⟨loopTime, hloop, hfrom⟩ := h.entered (by rw [hp]; nofun)
  rw [RunLocals.FollowsFrom, hp] at hfrom
  obtain ⟨hreading, hsaves, -⟩ := hfrom
  rw [lastSaved, hloop, hsaves] at hlast
  obtain rfl := Option.some.inj (getLast?_starts.symm.trans hlast)
  exact lt_lastStart timeBetweenDataSaves_pos (by rw [List.getLast?_cons, hreading]; rfl)

end BackgroundWorker

open BackgroundWorker

section Runs

variable [DecidableEq T] [Allocator] {rj : RapidJson} {roles : Roles T} {file : Option Bytes} {clock : Int}
  {ls : List (Int × TimedLabel T)} {s : TimedProgram T}

theorem Run.follows (h : Run (TimedStep rj roles) (.start T rj file clock) ls s) : s.locals.Follows ls :=
  Run.invariant (fun ls s => s.locals.Follows ls) (.before rfl rfl rfl rfl) (fun hi hs => hs.locals.follows hi) h

/-- The steps of a run are in the order of their times. -/
theorem Run.ordered (h : Run (TimedStep rj roles) (.start T rj file clock) ls s) :
    (ls.Pairwise fun a b => a.1 ≤ b.1) ∧ ∀ l ∈ ls, l.1 ≤ s.clock := by
  refine Run.invariant (fun ls s => (ls.Pairwise fun a b => a.1 ≤ b.1) ∧ ∀ l ∈ ls, l.1 ≤ s.clock)
    ⟨.nil, nofun⟩ (fun {ls s l s'} hi hs => ⟨?_, fun l' hl' => ?_⟩) h
  · rw [List.pairwise_append]
    refine ⟨hi.1, List.pairwise_singleton _ _, fun a ha b hb => ?_⟩
    obtain rfl := List.mem_singleton.1 hb
    exact (hi.2 a ha).trans hs.monotone
  · rw [hs.now]
    rcases List.mem_append.1 hl' with hl' | hl'
    · exact (hi.2 l' hl').trans hs.monotone
    · obtain rfl := List.mem_singleton.1 hl'
      exact le_rfl

end Runs

end KeyValueServer
