import KeyValueServer.Sessions

/-!
# The values over the sessions

What the sessions keep is the values: the records of a session hold what was set last, in this session or in an earlier
one, or else what the file held at first.  The next session begins with the values of the last one, and so the file
holds them when `main` has stored the data (`System.Durable.values_saved`).
-/

namespace KeyValueServer

open Concurrency DataSerializer

/-- The values under all names. -/
def Values : Type := Bytes → Option Bytes

def DataEngine.values (e : DataEngine) : Values := e.data.valueOf

/-- What a session has under a name: what was set last in it or before it, or what the file held at first. -/
theorem System.Durable.valueOf_sequential {T : Type} [DecidableEq T] [Allocator] {rj : RapidJson} {roles : Roles T}
    {records : List (Bytes × Bytes)} {ls : List (MainLabel T)} {s : System T} (h : s.Durable rj roles records ls)
    (name : Bytes) :
    s.world.sequential.valueOf name =
      lastValue name (records ++ earlierSets ls ++ lockedSets (currentSession ls)) := by
  obtain ⟨file, hfile, hrun⟩ := h.session
  obtain ⟨lin, hlin⟩ := Run.linearized (Run.afterLoading hrun)
  have hhistory := Replay.recordHistory hlin.replay name
  rw [setsOf, hlin.sets] at hhistory
  rw [lastValue_append, ← hfile]
  exact hhistory.value_eq

/-- The next session begins with the values of the last one. -/
theorem System.Durable.values_restart {T : Type} [DecidableEq T] [Allocator] {rj : RapidJson} {roles : Roles T}
    {records : List (Bytes × Bytes)} {ls : List (MainLabel T)} {s s' : System T} (h : s.Durable rj roles records ls)
    (h' : s'.Durable rj roles records (ls ++ [.restart])) :
    s'.world.sequential.valueOf = s.world.sequential.valueOf := by
  funext name
  obtain ⟨hearlier, hcurrent⟩ := earlierSets_restart ls
  have hnone : lockedSets ([] : List (Label T)) = [] := rfl
  have hafter := h'.valueOf_sequential name
  rw [hearlier, hcurrent, hnone, List.append_nil, ← List.append_assoc] at hafter
  exact hafter.trans (h.valueOf_sequential name).symm

theorem Run.durable {T : Type} [DecidableEq T] [Allocator] {rj : RapidJson} {roles : Roles T} {file : Option Bytes}
    (hp : rj.ParsesOwnText) {ls : List (MainLabel T)} {s : System T}
    (h : Run (MainStep rj roles) (System.start T rj file) ls s) :
    s.Durable rj roles (loadedRecords rj file) ls := by
  refine Run.invariant (fun ls s => s.Durable rj roles (loadedRecords rj file) ls) ?_
    (fun hi hs => hs.durable hp hi) h
  refine ⟨⟨file, fun name => ?_, ?_⟩, nofun⟩
  · exact congrArg _ (List.append_nil _).symm
  · rw [System.start, BackgroundWorker.loadedEngine_eq]
    exact .nil

/-- When `main` has stored the data, the file holds the values: the program could be started again. -/
theorem System.Durable.values_saved {T : Type} [DecidableEq T] [Allocator] {rj : RapidJson} (hp : rj.ParsesOwnText)
    {roles : Roles T} {records : List (Bytes × Bytes)} {ls : List (MainLabel T)} {s : System T}
    (h : s.Durable rj roles records ls) (hphase : s.phase = .saving) (hidle : ∀ t, s.world.thread t = .idle) :
    (BackgroundWorker.loadedEngine rj s.world.memory.file).values = s.world.memory.engine.values := by
  obtain ⟨phase, w⟩ := s
  obtain rfl : phase = .saving := hphase
  have hvalues := h.values_restart ((MainStep.restart hidle).durable hp h)
  rw [World.sequential_of_idle hidle] at hvalues
  exact hvalues

end KeyValueServer
