import KeyValueServer.EngineHistory
import KeyValueServer.EngineStatistics
import KeyValueServer.Snapshot

/-!
# Sessions

`main` loads the file into a fresh engine and starts the worker and the server.  While the server runs, its threads
get and set records, and the worker prints statistics and stores the data.  When the server has returned, its threads
are joined; when the worker has returned too, `main` stores the data once more and exits.  The next start of the
program is the next session on the same file.

What the worker stores beside the running server may be mixed, but what `main` stores at the end is not, since no
other thread is left.  So the records of a session begin where those of the last one ended: to a session, the
earlier ones are a list of records that were loaded (`sessions_durable`).
-/

namespace KeyValueServer

open Concurrency DataSerializer

/-! ### The program -/

/-- The threads of the program that are no server threads. -/
structure Roles (T : Type) where
  worker : T
  main : T
  distinct : worker ≠ main

inductive Phase
  | serving
  | stopping
  | saving
  deriving DecidableEq

/-- The program: how far `main` has come, and its threads. -/
structure System (T : Type) where
  phase : Phase
  world : World T

/-- Names and values are shorter than 2^32 bytes. -/
def Op.Short : Op → Prop
  | .get name => name.length < sizeTypeRange
  | .set name value | .initialSet name value => name.length < sizeTypeRange ∧ value.length < sizeTypeRange
  | _ => True

/-- The calls made while the server runs. -/
def Roles.Serve {T : Type} (roles : Roles T) (t : T) (op : Op) : Prop :=
  op.Short ∧
  match op with
  | .get _ | .set _ _ => t ≠ roles.worker ∧ t ≠ roles.main
  | .getGlobalStatistics | .storeData => t = roles.worker
  | _ => False

/-- The calls that the worker makes when the server has returned. -/
def Roles.Work {T : Type} (roles : Roles T) (t : T) (op : Op) : Prop :=
  t = roles.worker ∧ (op = .getGlobalStatistics ∨ op = .storeData)

inductive MainLabel (T : Type)
  | call (l : Label T)
  | serverReturned
  | restart

section Program

variable {T : Type} [DecidableEq T] [Allocator]

/-- The program as it is started on a file. -/
def System.start (T : Type) (rj : RapidJson) (file : Option Bytes) : System T where
  phase := .serving
  world := World.start T (BackgroundWorker.loadedEngine rj file) file

inductive MainStep (rj : RapidJson) (roles : Roles T) : System T → MainLabel T → System T → Prop
  | serve {w w' : World T} {l : Label T} :
      Step rj w l w' → l.Calls roles.Serve → MainStep rj roles ⟨.serving, w⟩ (.call l) ⟨.serving, w'⟩
  | serverReturned {w : World T} :
      (∀ t ≠ roles.worker, w.thread t = .idle) →
      MainStep rj roles ⟨.serving, w⟩ .serverReturned ⟨.stopping, w⟩
  | work {w w' : World T} {l : Label T} :
      Step rj w l w' → l.Calls roles.Work → MainStep rj roles ⟨.stopping, w⟩ (.call l) ⟨.stopping, w'⟩
  -- the worker has returned, and `main` calls `store_data`
  | finalStore {w w' : World T} :
      (∀ t, w.thread t = .idle) → Step rj w (.invoke roles.main w.calls .storeData) w' →
      MainStep rj roles ⟨.stopping, w⟩ (.call (.invoke roles.main w.calls .storeData)) ⟨.saving, w'⟩
  | save {w w' : World T} {l : Label T} :
      Step rj w l w' → l.Calls (fun _ _ => False) → MainStep rj roles ⟨.saving, w⟩ (.call l) ⟨.saving, w'⟩
  -- the program has ended, and is started again
  | restart {w : World T} :
      (∀ t, w.thread t = .idle) →
      MainStep rj roles ⟨.saving, w⟩ .restart (System.start T rj w.memory.file)

/-! ### The sessions of a trace -/

omit [DecidableEq T] [Allocator]

/-- The names and values that were set, in the order in which the sets took the lock. -/
def lockedSets (ls : List (Label T)) : List (Bytes × Bytes) := (ls.filterMap Label.setPlaced).map Prod.snd

/-- What was set in the sessions before the last restart, and the calls since then. -/
def sessionsOf (ls : List (MainLabel T)) : List (Bytes × Bytes) × List (Label T) :=
  ls.foldl
    (fun s l => match l with
      | .call l => (s.1, s.2 ++ [l])
      | .serverReturned => s
      | .restart => (s.1 ++ lockedSets s.2, []))
    ([], [])

def earlierSets (ls : List (MainLabel T)) : List (Bytes × Bytes) := (sessionsOf ls).1

def currentSession (ls : List (MainLabel T)) : List (Label T) := (sessionsOf ls).2

theorem earlierSets_call (ls : List (MainLabel T)) (l : Label T) :
    earlierSets (ls ++ [.call l]) = earlierSets ls ∧ currentSession (ls ++ [.call l]) = currentSession ls ++ [l] := by
  simp [earlierSets, currentSession, sessionsOf]

theorem earlierSets_serverReturned (ls : List (MainLabel T)) :
    earlierSets (ls ++ [.serverReturned]) = earlierSets ls ∧
      currentSession (ls ++ [.serverReturned]) = currentSession ls := by
  simp [earlierSets, currentSession, sessionsOf]

theorem earlierSets_restart (ls : List (MainLabel T)) :
    earlierSets (ls ++ [.restart]) = earlierSets ls ++ lockedSets (currentSession ls) ∧
      currentSession (ls ++ [.restart]) = [] := by
  simp [earlierSets, currentSession, sessionsOf]

end Program

/-! ### One session -/

section Session

variable {T : Type} [DecidableEq T] [Allocator]

omit [DecidableEq T] [Allocator] in
theorem Label.Calls.mono {l : Label T} {allowed allowed' : T → Op → Prop} (h : l.Calls allowed)
    (hm : ∀ t op, allowed t op → allowed' t op) : l.Calls allowed' := by
  cases l with
  | invoke t call op => exact hm t op h
  | _ => exact trivial

/-- The runs of a session: nothing is loaded any more, and strings are short. -/
abbrev SessionStep (rj : RapidJson) : World T → Label T → World T → Prop :=
  Restrict (Step rj) fun _ l => l.Calls fun _ op => op.AfterLoading ∧ op.Short

variable {rj : RapidJson} {records : List (Bytes × Bytes)} {file : Option Bytes} {ls : List (Label T)} {w : World T}

theorem Run.afterLoading {w₀ : World T} (h : Run (SessionStep rj) w₀ ls w) : Run (StepAfterLoading rj) w₀ ls w :=
  h.mono fun _ _ _ hl => ⟨hl.1, hl.2.mono fun _ _ hop => hop.1⟩

theorem Run.short_lockedSets (h : Run (SessionStep rj) (World.start T (.load records) file) ls w) :
    ∀ r ∈ lockedSets ls, r.1.length < sizeTypeRange ∧ r.2.length < sizeTypeRange := by
  have hinv : (w.Calls fun _ op => op.AfterLoading ∧ op.Short) ∧
      ∀ r ∈ lockedSets ls, r.1.length < sizeTypeRange ∧ r.2.length < sizeTypeRange := by
    refine Run.invariant (fun ls w => (w.Calls fun _ op => op.AfterLoading ∧ op.Short) ∧
      ∀ r ∈ lockedSets ls, r.1.length < sizeTypeRange ∧ r.2.length < sizeTypeRange) ?_ ?_ h
    · exact ⟨fun _ _ _ ht => (by cases ht), fun r hr => (by simp [lockedSets] at hr)⟩
    · rintro ls w l w' ⟨hcalls, hshort⟩ ⟨hs, hg⟩
      refine ⟨hs.calls hg hcalls, fun r hr => ?_⟩
      rw [lockedSets, List.filterMap_append, List.map_append] at hr
      rcases List.mem_append.1 hr with hr | hr
      · exact hshort r hr
      · obtain ⟨p, hp, rfl⟩ := List.mem_map.1 hr
        obtain ⟨l', hl', hplaced⟩ := List.mem_filterMap.1 hp
        obtain rfl := List.mem_singleton.1 hl'
        obtain ⟨t, rfl⟩ := Label.eq_of_setPlaced hplaced
        cases hs with
        | exec ht _ => exact (hcalls _ _ _ ht).2
  exact hinv.2

omit [DecidableEq T] in
theorem World.sequential_of_idle (hidle : ∀ t, w.thread t = .idle) : w.sequential = w.memory.data := by
  unfold World.sequential
  split
  · rfl
  · rw [hidle]
    rfl

/-- When no set is under way, a session has under each name the record that its sets and reads have made of the one
loaded. -/
theorem Run.recordHistory (h : Run (StepAfterLoading rj) (World.start T (.load records) file) ls w)
    (hsame : w.sequential = w.memory.data) (name : Bytes) :
    RecordHistory (w.memory.data.lookup name) (lastValue name records) (valuesUnder name (lockedSets ls))
      (increments name ls).length := by
  obtain ⟨lin, hlin⟩ := Run.linearized h
  have hreplay := hlin.replay
  rw [hsame] at hreplay
  have hhistory := Replay.recordHistory hreplay name
  rw [hlin.hitsOf_eq_increments, setsOf, hlin.sets] at hhistory
  exact hhistory

theorem Run.valueOf (h : Run (StepAfterLoading rj) (World.start T (.load records) file) ls w)
    (hsame : w.sequential = w.memory.data) (name : Bytes) :
    w.memory.data.valueOf name = lastValue name (records ++ lockedSets ls) := by
  rw [lastValue_append]
  exact (Run.recordHistory h hsame name).value_eq

theorem Run.short (hfile : ∀ r ∈ records, r.1.length < sizeTypeRange ∧ r.2.length < sizeTypeRange)
    (h : Run (SessionStep rj) (World.start T (.load records) file) ls w) (hidle : ∀ t, w.thread t = .idle) :
    w.memory.data.Short := by
  intro name record hr
  have hvalue : w.memory.data.valueOf name = some record.value.value := DataCollection.valueOf_of_lookup hr
  rw [Run.valueOf (Run.afterLoading h) (World.sequential_of_idle hidle)] at hvalue
  rw [← StdString.length_value]
  rcases List.mem_append.1 (mem_of_lastValue hvalue) with hm | hm
  · exact hfile _ hm
  · exact Run.short_lockedSets h _ hm

/-! ### The final save -/

/-- How far the final `store_data` has come. -/
def Pc.Storing (rj : RapidJson) (data : DataCollection) (file : Option Bytes) : Pc → Prop
  | .enumerateLock visitor | .enumerateBegin visitor => visitor = .addToDocument 0 []
  | pc => ∃ order, data.IterationOrder order ∧ pc.Saving rj data order data file

omit [DecidableEq T] [Allocator] in
theorem Pc.Saving.op_eq {data₁ data : DataCollection} {order : List Bytes} {file : Option Bytes} {pc : Pc}
    (h : pc.Saving rj data₁ order data file) : pc.op = .storeData := by
  unfold Pc.Saving at h
  split at h
  all_goals first | rfl | exact h.elim

/-- `store_data` does not change the records. -/
theorem Exec.data_of_storeData {t : T} {m m' : Memory T} {pc pc' : Pc} (h : Exec rj t m pc m' pc')
    (hop : pc.op = .storeData) : m'.data = m.data := by
  cases h with
  | getReads | setEmplace | setWrites | setAssign | initialSetEmplace | initialSetAssign => cases hop
  | _ => rfl

theorem Exec.storing {t : T} {m m' : Memory T} {pc pc' : Pc} (h : Exec rj t m pc m' pc')
    (hp : pc.Storing rj m.data m.file) : pc'.Storing rj m'.data m'.file := by
  have hnext : (∃ order, m.data.IterationOrder order ∧ pc.Saving rj m.data order m.data m.file) →
      ∃ order, m'.data.IterationOrder order ∧ pc'.Saving rj m'.data order m'.data m'.file := by
    rintro ⟨order, ho, hsaving⟩
    have hdata := h.data_of_storeData hsaving.op_eq
    have hsaving' := h.saving hsaving
    rw [← hdata] at ho hsaving'
    exact ⟨order, ho, hsaving'⟩
  cases h with
  | enumerateLock => exact hp
  | @enumerateBegin visitor order ho =>
    obtain rfl : visitor = .addToDocument 0 [] := hp
    exact ⟨order, ho, [], rfl, rfl, rfl, fun _ => rfl⟩
  | _ => exact hnext hp

/-- `main` alone is storing the data, or has stored it. -/
structure World.Saving (rj : RapidJson) (main : T) (w : World T) : Prop where
  alone : ∀ t ≠ main, w.thread t = .idle
  storing : ∀ c pc, w.thread main = .running c pc → pc.Storing rj w.memory.data w.memory.file
  stored : w.thread main = .idle → ∃ order, w.memory.data.IterationOrder order ∧
    w.memory.file = some (rj.write (.ofStrings (documentRecords w.memory.data order)))

omit [Allocator] in
theorem World.Saving.eq_main {main t : T} {c : Nat} {pc : Pc} (h : w.Saving rj main)
    (ht : w.thread t = .running c pc) : t = main := by
  by_contra hne
  rw [h.alone t hne] at ht
  cases ht

omit [Allocator] in
theorem World.Saving.alone_update {main : T} (h : w.Saving rj main) (th : Thread) :
    ∀ t ≠ main, Function.update w.thread main th t = .idle := by
  intro t hne
  rw [Function.update_of_ne hne]
  exact h.alone t hne

theorem Step.saving {main : T} {w' : World T} {l : Label T} (hs : Step rj w l w') (hl : l.Calls fun _ _ => False)
    (h : w.Saving rj main) : w'.Saving rj main := by
  cases hs with
  | invoke => exact hl.elim
  | @exec t call pc pc' m' ht he =>
    obtain rfl := h.eq_main ht
    refine ⟨h.alone_update _, fun c pc₁ hpc => ?_, fun hidle => ?_⟩
    · have hnext : Thread.running call pc' = .running c pc₁ := (Function.update_self ..).symm.trans hpc
      cases hnext
      exact he.storing (h.storing _ _ ht)
    · have hnext : Thread.running call pc' = .idle := (Function.update_self ..).symm.trans hidle
      cases hnext
  | @ret t call op result ht =>
    obtain rfl := h.eq_main ht
    refine ⟨h.alone_update _, fun c pc₁ hpc => ?_, fun _ => ?_⟩
    · have hnext : Thread.idle = .running c pc₁ := (Function.update_self ..).symm.trans hpc
      cases hnext
    · -- what has returned is `store_data`, and it has written the file
      obtain ⟨order, ho, hsaving⟩ := h.storing _ _ ht
      cases op with
      | storeData =>
        cases result with
        | stored n => exact ⟨order, ho, hsaving.2⟩
        | _ => exact hsaving.elim
      | _ => exact hsaving.elim

/-- The final `store_data` is called when every thread is idle. -/
theorem Step.saving_invoke {main : T} {w' : World T} {c : Nat} (hs : Step rj w (.invoke main c .storeData) w')
    (hidle : ∀ t, w.thread t = .idle) : w'.Saving rj main := by
  cases hs with
  | invoke op ht =>
    refine ⟨fun t' hne => ?_, fun c pc hpc => ?_, fun h => ?_⟩
    · show Function.update w.thread main _ t' = _
      rw [Function.update_of_ne hne]
      exact hidle t'
    · have hnext : Thread.running w.calls (Op.start .storeData) = .running c pc :=
        (Function.update_self ..).symm.trans hpc
      cases hnext
      rfl
    · have hnext : Thread.running w.calls (Op.start .storeData) = .idle := (Function.update_self ..).symm.trans h
      cases hnext

end Session

/-! ### All sessions -/

section Sessions

variable {T : Type} [DecidableEq T] [Allocator]

/-- The session is a run from a file that holds what was loaded at first and set in the sessions before. -/
structure System.Durable (rj : RapidJson) (roles : Roles T) (records : List (Bytes × Bytes)) (ls : List (MainLabel T))
    (s : System T) : Prop where
  session : ∃ file, (∀ name, lastValue name (loadedRecords rj file) = lastValue name (records ++ earlierSets ls)) ∧
    Run (SessionStep rj) (World.start T (.load (loadedRecords rj file)) file) (currentSession ls) s.world
  saving : s.phase = .saving → s.world.Saving rj roles.main

omit [DecidableEq T] [Allocator] in
theorem Roles.Serve.allowed {roles : Roles T} {t : T} {op : Op} (h : roles.Serve t op) :
    op.AfterLoading ∧ op.Short := by
  obtain ⟨hshort, hop⟩ := h
  cases op with
  | initialSet name value => exact hop.elim
  | _ => exact ⟨trivial, hshort⟩

omit [DecidableEq T] [Allocator] in
theorem Roles.Work.allowed {roles : Roles T} {t : T} {op : Op} (h : roles.Work t op) :
    op.AfterLoading ∧ op.Short := by
  rcases h.2 with rfl | rfl
  · exact ⟨trivial, trivial⟩
  · exact ⟨trivial, trivial⟩

/-- A step of the engine goes on with the session. -/
theorem System.Durable.call {rj : RapidJson} {roles : Roles T} {records : List (Bytes × Bytes)}
    {ls : List (MainLabel T)} {s : System T} (h : s.Durable rj roles records ls) {w : World T} {l : Label T}
    (hs : Step rj s.world l w) (hl : l.Calls fun _ op => op.AfterLoading ∧ op.Short) {phase : Phase}
    (hsaving : phase = .saving → w.Saving rj roles.main) :
    System.Durable rj roles records (ls ++ [.call l]) ⟨phase, w⟩ := by
  obtain ⟨file, hfile, hrun⟩ := h.session
  obtain ⟨hearlier, hcurrent⟩ := earlierSets_call ls l
  refine ⟨⟨file, ?_, ?_⟩, hsaving⟩
  · rw [hearlier]
    exact hfile
  · rw [hcurrent]
    exact hrun.snoc ⟨hs, hl⟩

theorem MainStep.durable {rj : RapidJson} (hp : rj.ParsesOwnText) {roles : Roles T} {records : List (Bytes × Bytes)}
    {ls : List (MainLabel T)} {s s' : System T} {l : MainLabel T} (hs : MainStep rj roles s l s')
    (h : s.Durable rj roles records ls) : s'.Durable rj roles records (ls ++ [l]) := by
  cases hs with
  | serve hstep hl => exact h.call hstep (hl.mono fun t op hop => hop.allowed) nofun
  | serverReturned hidle =>
    obtain ⟨hearlier, hcurrent⟩ := earlierSets_serverReturned ls
    refine ⟨?_, nofun⟩
    rw [hearlier, hcurrent]
    exact h.session
  | work hstep hl => exact h.call hstep (hl.mono fun t op hop => hop.allowed) nofun
  | finalStore hidle hstep => exact h.call hstep ⟨trivial, trivial⟩ fun _ => hstep.saving_invoke hidle
  | save hstep hl =>
    exact h.call hstep (hl.mono fun t op hop => hop.elim) fun _ => hstep.saving hl (h.saving rfl)
  | @restart w hidle =>
    obtain ⟨file, hfile, hrun⟩ := h.session
    obtain ⟨hearlier, hcurrent⟩ := earlierSets_restart ls
    obtain ⟨order, ho, hwritten⟩ := (h.saving rfl).stored (hidle _)
    -- the file holds the records that the session ended with
    have hshort := Run.short (fun r => length_of_loadedRecords) hrun hidle
    have hsnapshot := snapshot_documentRecords rj ho hshort
    rw [← hwritten] at hsnapshot
    refine ⟨⟨w.memory.file, fun name => ?_, ?_⟩, nofun⟩
    · have hvalue := Run.valueOf (Run.afterLoading hrun) (World.sequential_of_idle hidle) name
      rw [(hsnapshot.loadedRecords hp).2.2, hvalue, hearlier, ← List.append_assoc, lastValue_append,
        lastValue_append _ (records ++ _), hfile]
    · rw [hcurrent, System.start, BackgroundWorker.loadedEngine_eq]
      exact .nil

/-- In every session, also while the worker saves beside the server, a `get` finds what was set last in this session
or an earlier one, or else what the file held at first; the statistics are those of this session alone. -/
theorem sessions_durable [Fintype T] {rj : RapidJson} (hp : rj.ParsesOwnText) (roles : Roles T) {file : Option Bytes}
    (hfile : file = none ∨ (BackgroundWorker.initialLoadData rj file .empty).1 = .ok ()) {ls : List (MainLabel T)}
    {s : System T} (h : Run (MainStep rj roles) (System.start T rj file) ls s) :
    (∃ lin, Linearizes (history (currentSession ls)) lin ∧
      setsIn lin = (currentSession ls).filterMap Label.setPlaced ∧
      ∀ pre x post, lin = pre ++ x :: post →
        EntryAgrees (fileRecords rj file ++ earlierSets ls) pre x.op x.res) ∧
    ((∀ t, s.world.thread t = .idle) →
      (∀ name, RecordHistory (s.world.memory.data.lookup name)
        (lastValue name (fileRecords rj file ++ earlierSets ls)) (valuesUnder name (lockedSets (currentSession ls)))
        (increments name (currentSession ls)).length) ∧
      s.world.memory.engine.reads = .ofNat ((currentSession ls).countP Label.isGetCall) ∧
      s.world.memory.engine.writes = .ofNat ((currentSession ls).countP Label.isSetCall)) := by
  have hrecords : loadedRecords rj file = fileRecords rj file := by
    rcases hfile with rfl | hok
    · rfl
    · exact loadedRecords_of_load hok
  have hdurable : s.Durable rj roles (fileRecords rj file) ls := by
    refine Run.invariant (fun ls s => s.Durable rj roles (fileRecords rj file) ls) ?_ (fun hi hs => hs.durable hp hi) h
    refine ⟨⟨file, fun name => ?_, ?_⟩, nofun⟩
    · rw [hrecords]
      exact congrArg _ (List.append_nil _).symm
    · rw [System.start, BackgroundWorker.loadedEngine_eq]
      exact .nil
  obtain ⟨file', hlast, hrun⟩ := hdurable.session
  have hafter := Run.afterLoading hrun
  constructor
  · obtain ⟨lin, hlin⟩ := Run.linearized hafter
    refine ⟨lin, hlin.linearizes, hlin.sets, fun pre x post he => ?_⟩
    exact (Replay.entryAgrees hlin.replay he).congr hlast
  · intro hidle
    have hbalanced := Run.balanced hafter.unrestrict
    have hreads := hbalanced.gets
    have hwrites := hbalanced.sets
    rw [World.count_of_idle hidle] at hreads hwrites
    refine ⟨fun name => ?_, (UInt64.add_zero _).symm.trans hreads, (UInt64.add_zero _).symm.trans hwrites⟩
    rw [← hlast]
    exact Run.recordHistory hafter (World.sequential_of_idle hidle) name

end Sessions

section Runs

attribute [local instance] Allocator.exact

private def threeThreads : Roles (Fin 3) where
  worker := 1
  main := 2
  distinct := by decide

private def savedText : Bytes := JsonText.write (.ofStrings [(.ref (ascii "a"), .ref (ascii "1"))])

private theorem start_savedText : System.start (Fin 3) JsonText.library (some savedText) =
    ⟨.serving, World.start (Fin 3) (.load [(ascii "a", ascii "1")]) (some savedText)⟩ := by
  have hrecords : loadedRecords JsonText.library (some savedText) = [(ascii "a", ascii "1")] := by
    rw [savedText]
    exact loadedRecords_ofStrings JsonText.parsesOwnText _
  rw [System.start, BackgroundWorker.loadedEngine_eq, hrecords]

/-- A record is set in a first session without a file, and read in a second one. -/
theorem get_in_second_session : ∃ (ls : List (MainLabel (Fin 3))) (s : System (Fin 3)),
    Run (MainStep JsonText.library threeThreads) (System.start (Fin 3) JsonText.library none) ls s ∧
    earlierSets ls = [(ascii "a", ascii "1")] ∧
    history (currentSession ls) = [.invoke 0 (.get (ascii "a")), .ret 0 (.found (some ⟨ascii "1", ⟨1, 0⟩⟩))] ∧
    ∃ lin, Linearizes (history (currentSession ls)) lin ∧
      ∀ pre x post, lin = pre ++ x :: post → EntryAgrees [(ascii "a", ascii "1")] pre x.op x.res := by
  have h₀ : Run (MainStep JsonText.library threeThreads) (System.start (Fin 3) JsonText.library none) [] _ := .nil
  have h₁ := h₀.snoc (.serve (.invoke (t := 0) (.set (ascii "a") (ascii "1")) rfl)
    ⟨⟨by decide, by decide⟩, by decide, by decide⟩)
  have h₂ := h₁.snoc (.serve (.exec (t := 0) rfl (.setLock (SharedMutex.lock_free 0))) trivial)
  have h₃ := h₂.snoc (.serve (.exec (t := 0) rfl (.setFindMiss rfl)) trivial)
  have h₄ := h₃.snoc (.serve (.exec (t := 0) rfl .setEmplace) trivial)
  have h₅ := h₄.snoc (.serve (.exec (t := 0) rfl .setGlobal) trivial)
  have h₆ := h₅.snoc (.serve (.exec (t := 0) rfl .setUnlock) trivial)
  have h₇ := h₆.snoc (.serve (.ret (t := 0) rfl) trivial)
  have h₈ := h₇.snoc (.serverReturned (by decide))
  have horder : (DataEngine.empty.set (ascii "a") (ascii "1")).data.IterationOrder [ascii "a"] :=
    DataCollection.iterationOrder_iff.2 (by decide)
  have h₉ := h₈.snoc (.finalStore (by decide) (.invoke (t := 2) .storeData rfl))
  have h₁₀ := h₉.snoc (.save (.exec (t := 2) rfl (.enumerateLock rfl)) trivial)
  have h₁₁ := h₁₀.snoc (.save (.exec (t := 2) rfl (.enumerateBegin horder)) trivial)
  have h₁₂ := h₁₁.snoc (.save (.exec (t := 2) rfl (.enumerateNext rfl)) trivial)
  have h₁₃ := h₁₂.snoc (.save (.exec (t := 2) rfl .enumerateEnd) trivial)
  have h₁₄ := h₁₃.snoc (.save (.exec (t := 2) rfl .enumerateStore) trivial)
  have h₁₅ := h₁₄.snoc (.save (.exec (t := 2) rfl .saveOpen) trivial)
  have h₁₆ := h₁₅.snoc (.save (.exec (t := 2) rfl (.saveMember fun v hv =>
    Option.some.inj (show some (.ref (ascii "1")) = some v from hv))) trivial)
  have h₁₇ := h₁₆.snoc (.save (.exec (t := 2) rfl .saveClose) trivial)
  have h₁₈ := h₁₇.snoc (.save (.ret (t := 2) rfl) trivial)
  have h₁₉ : Run (MainStep JsonText.library threeThreads) (System.start (Fin 3) JsonText.library none) _
      (System.start (Fin 3) JsonText.library (some savedText)) := h₁₈.snoc (.restart (by decide))
  rw [start_savedText] at h₁₉
  have h₂₀ := h₁₉.snoc (.serve (.invoke (t := 0) (.get (ascii "a")) rfl)
    ⟨show (ascii "a").length < sizeTypeRange by decide, by decide, by decide⟩)
  have h₂₁ := h₂₀.snoc (.serve (.exec (t := 0) rfl (.getLock rfl)) trivial)
  have h₂₂ := h₂₁.snoc (.serve (.exec (t := 0) rfl (.getFindHit rfl)) trivial)
  have h₂₃ := h₂₂.snoc (.serve (.exec (t := 0) rfl (.getReads rfl)) trivial)
  have h₂₄ := h₂₃.snoc (.serve (.exec (t := 0) rfl (.getWrites rfl)) trivial)
  have h₂₅ := h₂₄.snoc (.serve (.exec (t := 0) rfl .getGlobal) trivial)
  have h₂₆ := h₂₅.snoc (.serve (.exec (t := 0) rfl (.getCopy rfl)) trivial)
  have h₂₇ := h₂₆.snoc (.serve (.exec (t := 0) rfl .getUnlock) trivial)
  have h₂₈ := h₂₇.snoc (.serve (.ret (t := 0) rfl) trivial)
  obtain ⟨lin, hlin, -, hentry⟩ := (sessions_durable JsonText.parsesOwnText threeThreads (Or.inl rfl) h₂₈).1
  exact ⟨_, _, h₂₈, rfl, rfl, lin, hlin, hentry⟩

end Runs

end KeyValueServer
