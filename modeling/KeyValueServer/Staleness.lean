import KeyValueServer.SaveTimes

/-!
# How old the saved file can be

When no `set` overlaps a save (`SetsApart`), the worker writes the records as the sets before the save have left them
(`SavedFrom`), and the file stays as it is until the next save.  Together with the times of the saves this bounds how
long a `set` is missing in the file (`staleness_bounded`).
-/

namespace KeyValueServer

open Concurrency DataSerializer BackgroundWorker

/-- The file was written from an engine that held the last value of each name in `records`. -/
def SavedFrom (rj : RapidJson) (records : List (Bytes × Bytes)) (file : Option Bytes) : Prop :=
  ∃ data order, data.IterationOrder order ∧ (∀ name, data.valueOf name = lastValue name records) ∧
    file = some (rj.write (.ofStrings (documentRecords data order)))

/-- Short records are found again by the next start on the file. -/
theorem SavedFrom.lastValue_loadedRecords {rj : RapidJson} (hp : rj.ParsesOwnText) {records : List (Bytes × Bytes)}
    {file : Option Bytes} (h : SavedFrom rj records file)
    (hshort : ∀ r ∈ records, r.1.length < sizeTypeRange ∧ r.2.length < sizeTypeRange) (name : Bytes) :
    lastValue name (loadedRecords rj file) = lastValue name records := by
  obtain ⟨data, order, ho, hvalue, rfl⟩ := h
  have hdata : data.Short := by
    intro name record hr
    have hheld := DataCollection.valueOf_of_lookup hr
    rw [hvalue] at hheld
    rw [← StdString.length_value]
    exact hshort _ (mem_of_lastValue hheld)
  have hsnapshot := snapshot_documentRecords rj ho hdata
  rw [(hsnapshot.loadedRecords hp).2.2, hvalue]

/-! ### Records and references that only reads have changed -/

theorem SameValues.iterationOrder {data data' : DataCollection} (h : SameValues data data') {order : List Bytes}
    (ho : data.IterationOrder order) : data'.IterationOrder order := by
  refine ⟨ho.1, fun name => ?_⟩
  have hvalue := congrArg Option.isSome (h name)
  rw [Option.isSome_map, Option.isSome_map] at hvalue
  rw [ho.2, ← Finmap.lookup_isSome, ← Finmap.lookup_isSome, hvalue]

theorem SameValues.documentRecords_eq {data data' : DataCollection} (h : SameValues data data') (names : List Bytes) :
    documentRecords data' names = documentRecords data names := by
  simp only [documentRecords, h.valueOf]

theorem Pc.Saving.of_sameValues {rj : RapidJson} {data data' : DataCollection} {order : List Bytes}
    {file : Option Bytes} {pc : Pc} (h : pc.Saving rj data order data file) (hs : SameValues data data') :
    pc.Saving rj data' order data' file := by
  unfold Pc.Saving at h ⊢
  split at h
  · obtain ⟨visited, ho, hn, hd, -⟩ := h
    refine ⟨visited, ho, hn, ?_, fun _ => rfl⟩
    rw [hs.documentRecords_eq]
    exact Document.resolve_sameValues hs hd
  · rw [hs.documentRecords_eq]
    exact ⟨h.1, Document.resolve_sameValues hs h.2⟩
  · rw [hs.documentRecords_eq]
    exact ⟨h.1, Document.resolve_sameValues hs h.2⟩
  · obtain ⟨hn, records, hd, hw⟩ := h
    rw [hs.documentRecords_eq]
    exact ⟨hn, records, Document.resolve_sameValues hs hd, hw⟩
  · rw [hs.documentRecords_eq]
    exact h
  · exact h.elim

theorem Pc.Storing.of_sameValues {rj : RapidJson} {data data' : DataCollection} {file : Option Bytes} {pc : Pc}
    (h : pc.Storing rj data file) (hs : SameValues data data') : pc.Storing rj data' file := by
  unfold Pc.Storing at h ⊢
  split at h
  · exact h
  · exact h
  · obtain ⟨order, ho, hsaving⟩ := h
    exact ⟨order, hs.iterationOrder ho, hsaving.of_sameValues hs⟩

theorem Pc.Storing.op_eq {rj : RapidJson} {data : DataCollection} {file : Option Bytes} {pc : Pc}
    (h : pc.Storing rj data file) : pc.op = .storeData := by
  unfold Pc.Storing at h
  split at h
  · rw [h]
    rfl
  · rw [h]
    rfl
  · obtain ⟨order, -, hsaving⟩ := h
    exact hsaving.op_eq

section Engine

variable {T : Type} [DecidableEq T] [Allocator] {rj : RapidJson} {records : List (Bytes × Bytes)}
  {file : Option Bytes} {ls : List (Label T)} {w w' : World T} {l : Label T}

/-! ### Sets that have returned -/

/-- What returns was invoked. -/
theorem Run.invoked_of_ret {engine : DataEngine} (h : Run (Step rj) (World.start T engine file) ls w) {t : T} {c : Nat}
    {op : Op} {result : Result} (hret : .ret t c op result ∈ ls) : Event.invoke c op ∈ history ls := by
  induction h with
  | nil => cases hret
  | snoc h hl ih =>
    rw [mem_history_append]
    rcases List.mem_append.1 hret with hret | hret
    · exact Or.inl (ih hret)
    · obtain rfl := List.mem_singleton.1 hret
      exact Or.inl ((Run.accounts h).invoked _ _ _ hl.returning)

/-- A set that has returned has taken its place among the sets. -/
theorem Run.setPlaced_of_ret {engine : DataEngine} (h : Run (StepAfterLoading rj) (World.start T engine file) ls w)
    {t : T} {c : Nat} {name value : Bytes} {result : Result} (hret : .ret t c (.set name value) result ∈ ls) :
    (c, name, value) ∈ ls.filterMap Label.setPlaced := by
  obtain ⟨lin, hlin⟩ := Run.linearized h
  have hinvoked := Run.invoked_of_ret h.unrestrict hret
  have hreturned : Event.ret c result ∈ history ls := List.mem_filterMap.2 ⟨_, hret, rfl⟩
  have hmem := hlin.linearizes.mem_of_returned
    (fun op hop => (Run.accounts h.unrestrict).once c op _ hop hinvoked) hreturned
  rw [← hlin.sets]
  exact List.mem_filterMap.2 ⟨_, hmem, rfl⟩

/-! ### Saves without sets beside them -/

omit [DecidableEq T] [Allocator] in
theorem Pc.exists_set_of_exclusive {pc : Pc} (h : pc.hold = .exclusive) : ∃ name value, pc.op = .set name value := by
  cases pc <;> first | exact ⟨_, _, rfl⟩ | cases h

/-- No call of `set` is in progress. -/
def World.NoSet (w : World T) : Prop := ∀ t name value, (w.thread t).op ≠ some (.set name value)

omit [DecidableEq T] [Allocator] in
theorem World.noSet_of_idle (h : ∀ t, w.thread t = .idle) : w.NoSet := by
  intro t name value
  rw [h]
  nofun

theorem World.NoSet.sequential_eq (h : w.NoSet) (hl : w.LockAgrees) : w.sequential = w.memory.data := by
  unfold World.sequential
  split
  · rfl
  · rename_i t ht
    have hhold : (w.thread t).hold = .exclusive := by
      rw [← hl.hold_eq]
      exact SharedMutex.hold_exclusive_iff.2 ht
    cases hthread : w.thread t with
    | idle => rfl
    | running call pc =>
      rw [hthread] at hhold
      obtain ⟨name, value, hop⟩ := Pc.exists_set_of_exclusive hhold
      exact absurd (by rw [hthread]; exact congrArg some hop) (h t name value)

theorem World.NoSet.step (h : w.NoSet) (hs : Step rj w l w')
    (hl : l.Calls fun _ op => ∀ name value, op ≠ .set name value) : w'.NoSet := by
  intro t name value
  by_cases ht : t = l.thread
  · subst ht
    rw [hs.op_thread]
    cases l with
    | invoke t call op => exact fun he => hl name value (Option.some.inj he)
    | exec t call pc => exact h t name value
    | ret => nofun
  · rw [hs.thread_of_ne ht]
    exact h t name value

/-- The thread `worker` saves the records, which hold the last value of each name in `records`. -/
structure World.Storing (rj : RapidJson) (worker : T) (records : List (Bytes × Bytes)) (w : World T) : Prop where
  apart : w.NoSet
  values : ∀ name, w.memory.data.valueOf name = lastValue name records
  storing : ∀ call pc, w.thread worker = .running call pc → pc.Storing rj w.memory.data w.memory.file

variable {worker : T}

/-- A save begins. -/
theorem World.NoSet.storing (h : w.NoSet) (hvalue : ∀ name, w.memory.data.valueOf name = lastValue name records)
    {call : Nat} (hs : Step rj w (.invoke worker call .storeData) w') : w'.Storing rj worker records := by
  refine ⟨h.step hs nofun, ?_, fun c pc hpc => ?_⟩
  · cases hs with
    | invoke => exact hvalue
  · have hnext : Thread.running call (Op.start .storeData) = .running c pc := hs.invoked.symm.trans hpc
    cases hnext
    rfl

theorem World.Storing.step (h : w.Storing rj worker records) (hs : Step rj w l w')
    (hrunning : (w.thread worker).op = some .storeData) (hothers : ∀ t ≠ worker, (w.thread t).op ≠ some .storeData)
    (hcalls : w.Calls fun _ op => op.AfterLoading) (hl : l.Calls fun _ op => ∀ name value, op ≠ .set name value) :
    w'.Storing rj worker records := by
  have happart' := h.apart.step hs hl
  cases hs with
  | @invoke t op ht =>
    refine ⟨happart', h.values, fun call pc hpc => ?_⟩
    rcases update_eq_running hpc with ⟨rfl, -⟩ | ⟨-, hpc⟩
    · rw [ht] at hrunning
      cases hrunning
    · exact h.storing call pc hpc
  | @exec t call pc pc' m' ht he =>
    have hop : (w.thread t).op = some pc.op := by
      rw [ht]
      rfl
    have hsame : SameValues w.memory.data m'.data := by
      refine he.sameValues (hcalls t call pc ht) fun hx => ?_
      obtain ⟨name, value, heq⟩ := Pc.exists_set_of_exclusive hx
      exact h.apart t name value (hop.trans (congrArg some heq))
    refine ⟨happart', fun name => (hsame.valueOf name).trans (h.values name), fun call' pc₁ hpc => ?_⟩
    rcases update_eq_running hpc with ⟨rfl, hnext⟩ | ⟨hne, hpc⟩
    · cases hnext
      exact he.storing (h.storing call pc ht)
    · have hstore : pc.op ≠ .storeData := fun heq => hothers t (Ne.symm hne) (hop.trans (congrArg some heq))
      show pc₁.Storing rj m'.data m'.file
      rw [he.file_of_ne hstore]
      exact (h.storing call' pc₁ hpc).of_sameValues hsame
  | @ret t call op result ht =>
    refine ⟨happart', h.values, fun call' pc hpc => ?_⟩
    rcases update_eq_running hpc with ⟨-, hnext⟩ | ⟨-, hpc⟩
    · cases hnext
    · exact h.storing call' pc hpc

/-- When the save returns, the file holds the records. -/
theorem World.Storing.stored {call : Nat} {result : Result} (h : w.Storing rj worker records)
    (hs : Step rj w (.ret worker call .storeData result) w') : SavedFrom rj records w'.memory.file := by
  obtain ⟨order, ho, hsaving⟩ := h.storing _ _ hs.returning
  cases hs with
  | ret ht =>
    cases result with
    | stored n => exact ⟨w.memory.data, order, ho, h.values, hsaving.2⟩
    | _ => exact hsaving.elim

/-- Only a save changes the file. -/
theorem Step.file_eq (hs : Step rj w l w') (h : ∀ t, (w.thread t).op ≠ some .storeData) :
    w'.memory.file = w.memory.file := by
  cases hs with
  | invoke | ret => rfl
  | @exec t call pc pc' m' ht he =>
    refine he.file_of_ne fun hop => h t ?_
    rw [ht]
    exact congrArg some hop

end Engine

section Program

variable {T : Type} [DecidableEq T] [Allocator] {rj : RapidJson} {roles : Roles T} {p p' : Program T}

/-! ### Before the final save -/

/-- `main` has not begun the final save. -/
def Program.Unfinished (p : Program T) : Prop := p.control.main.phase ≠ .saving

theorem RequestStep.unfinished {l : ProgramLabel T} (h : RequestStep rj roles p l p') (hq : p.Quiet roles)
    (hunfinished : p'.Unfinished) : p.Unfinished := by
  intro hsaving
  apply hunfinished
  cases h with
  | program hp =>
    cases hp with
    | control hc hbegins hends _ =>
      rcases (control_silent hc hbegins hends).2 with hsame | ⟨-, hserving, -⟩
      · exact hsame.trans hsaving
      · rw [hserving] at hsaving
        cases hsaving
    | begins hc hbegins _ =>
      rcases control_begins hc hq.coherent hbegins with ⟨-, -, -, -, hphase⟩ | ⟨-, -, -, -, -, hphase⟩
      · exact absurd hsaving hphase
      · exact hphase
    | ends hc hends _ => exact (control_ends hc hends).1.trans hsaving
    | exec | server => exact hsaving
  | request => exact hsaving

/-- `main` makes no call before the final save. -/
theorem RequestStep.main_idle {l : ProgramLabel T} (h : RequestStep rj roles p l p') (hq : p.Quiet roles)
    (hidle : p.Unfinished → p.world.thread roles.main = .idle) (hunfinished : p'.Unfinished) :
    p'.world.thread roles.main = .idle := by
  have hmain := hidle (h.unfinished hq hunfinished)
  cases h with
  | program hp =>
    cases hp with
    | control => exact hmain
    | begins hc hbegins hs =>
      rcases control_begins hc hq.coherent hbegins with ⟨rfl, -⟩ | ⟨-, -, -, -, -, hphase⟩
      · exact hs.idle hmain roles.distinct
      · exact absurd hphase hunfinished
    | ends _ _ hs | exec hs => exact hs.idle hmain trivial
    | server _ _ hne hs _ =>
      rw [hs.thread_of_ne (Ne.symm hne)]
      exact hmain
  | request _ _ hne hs _ =>
    rw [hs.thread_of_ne (Ne.symm hne)]
    exact hmain

variable {file : Option Bytes} {clock : Int} {ls : List (Int × TimedLabel T)} {s s' : TimedProgram T}
  {l : Int × TimedLabel T} {records : List (Bytes × Bytes)}

theorem TimedStep.unfinished (h : TimedStep rj roles s l s') (hq : s.program.Quiet roles)
    (hunfinished : s'.program.Unfinished) : s.program.Unfinished := by
  rcases h.cases_program with ⟨-, hsame⟩ | ⟨pl, -, hstep⟩
  · rwa [hsame] at hunfinished
  · exact hstep.unfinished hq hunfinished

theorem Run.main_idle (h : Run (TimedStep rj roles) (.start T rj file clock) ls s)
    (hunfinished : s.program.Unfinished) : s.program.world.thread roles.main = .idle := by
  induction h with
  | nil => rfl
  | snoc hrun hs ih =>
    rcases hs.cases_program with ⟨-, hsame⟩ | ⟨pl, -, hstep⟩
    · rw [hsame] at hunfinished ⊢
      exact ih hunfinished
    · exact hstep.main_idle (Run.quiet hrun) ih hunfinished

omit [DecidableEq T] [Allocator] in
theorem Roles.Calls.afterLoading {t : T} {op : Op} (h : roles.Calls t op) : op.AfterLoading := by
  cases op with
  | initialSet => exact h.elim
  | _ => exact trivial

theorem Run.calls_afterLoading (h : Run (TimedStep rj roles) (.start T rj file clock) ls s) :
    Run (StepAfterLoading rj) (World.start T (.load (loadedRecords rj file)) file) (callsOf roles ls)
      s.program.world := by
  have hworlds := Run.worlds h
  rw [loadedEngine_eq] at hworlds
  exact hworlds.mono fun _ _ _ hl => ⟨hl.1, hl.2.mono fun _ _ => Roles.Calls.afterLoading⟩

omit [DecidableEq T] [Allocator] in
/-- Before the final save it is the worker that saves. -/
theorem World.Calls.eq_worker {w : World T} (h : w.Calls roles.Calls) (hmain : w.thread roles.main = .idle) {t : T}
    (ht : (w.thread t).op = some .storeData) : t = roles.worker := by
  rcases h.thread_op ht with hworker | rfl
  · exact hworker
  · rw [hmain] at ht
    cases ht

/-! ### The file between the saves -/

/-- No set overlaps a save of the worker: none is in progress when a save begins, and none begins while it lasts. -/
def SetsApart (s : TimedProgram T) : Int × TimedLabel T → Prop
  | (_, .startStore _ _) => s.program.world.NoSet
  | (_, .program (.call (.invoke _ _ (.set _ _)))) => ∀ printTime saveTime, s.locals.point ≠ .storing printTime saveTime
  | _ => True

/-- The worker is on its way to write the records, or has written them. -/
def TimedProgram.Saved (rj : RapidJson) (roles : Roles T) (records : List (Bytes × Bytes)) (s : TimedProgram T) :
    Prop :=
  match s.locals.point with
  | .storing _ _ => s.program.world.Storing rj roles.worker records
  | _ => SavedFrom rj records s.program.world.memory.file

/-- When a save begins, the records are what was loaded and set so far. -/
theorem TimedStep.saved_startStore (h : Run (TimedStep rj roles) (.start T rj file clock) ls s) {τ saveTime : Int}
    {call : Nat} (hs : TimedStep rj roles s (τ, .startStore saveTime call) s')
    (hapart : SetsApart s (τ, .startStore saveTime call)) :
    s'.Saved rj roles (loadedRecords rj file ++ lockedSets (callsOf roles ls)) := by
  have hcalls := Run.calls_afterLoading h
  have hsame := World.NoSet.sequential_eq hapart (Run.lockAgrees hcalls.unrestrict)
  have hlocals := hs.locals
  obtain ⟨p', r', clock'⟩ := s'
  cases hlocals with
  | startStore hp hlate =>
    exact World.NoSet.storing hapart (Run.valueOf hcalls hsame) (RequestStep.call hs.program)

/-- Out of its save, the worker leaves the file as it is. -/
theorem TimedProgram.Tied.file_eq (htied : s.Tied roles) (hcalls : s.program.world.Calls roles.Calls)
    (hmain : s.program.world.thread roles.main = .idle) (hop : s.locals.point.op ≠ some .storeData) {w' : World T}
    {cl : Label T} (hs : Step rj s.program.world cl w') : w'.memory.file = s.program.world.memory.file := by
  refine hs.file_eq fun t ht => hop ?_
  obtain rfl := hcalls.eq_worker hmain ht
  exact htied.symm.trans ht

/-- A step that does not begin a save. -/
theorem TimedStep.saved (hs : TimedStep rj roles s l s') (hapart : SetsApart s l) (htied : s.Tied roles)
    (hcalls : s.program.world.Calls roles.Calls) (hmain : s.program.world.thread roles.main = .idle)
    (hnext : saveStart l = none) (h : s.Saved rj roles records) : s'.Saved rj roles records := by
  have hprogram := hs.program
  have hlocals := hs.locals
  obtain ⟨τ, l⟩ := l
  obtain ⟨p', r', clock'⟩ := s'
  unfold TimedProgram.Saved at h
  cases hlocals with
  | startStore => cases hnext
  | enterLoop hp | readPrintTime hp | print hp _ | readSaveTime hp =>
    rw [hp] at h
    show SavedFrom rj records p'.world.memory.file
    rw [show p' = s.program from hprogram]
    exact h
  | getStatistics hp | gotStatistics hp =>
    rw [hp] at h
    show SavedFrom rj records p'.world.memory.file
    rw [htied.file_eq hcalls hmain (by rw [hp]; nofun) (RequestStep.call hprogram)]
    exact h
  | skipStore hp _ | unlock hp =>
    rw [hp] at h
    show SavedFrom rj records p'.world.memory.file
    rw [show p'.world = s.program.world from (RequestStep.control hprogram).1]
    exact h
  | finishStore hp =>
    rw [hp] at h
    exact h.stored (RequestStep.call hprogram)
  | timeOut hp _ =>
    unfold TimedProgram.Saved
    rw [show p'.world = s.program.world from (RequestStep.control hprogram).1]
    exact h
  | @elsewhere pl helse =>
    unfold TimedProgram.Saved
    cases pl with
    | control e =>
      rw [show p'.world = s.program.world from (RequestStep.control hprogram).1]
      exact h
    | call cl =>
      have hstep := RequestStep.call hprogram
      cases hp : s.locals.point with
      | storing printTime saveTime =>
        rw [hp] at h
        refine h.step hstep (htied.trans (by rw [hp]; rfl)) (fun t hne ht => hne (hcalls.eq_worker hmain ht))
          (fun t c pc ht => (hcalls t c pc ht).afterLoading) ?_
        cases cl with
        | invoke t call op =>
          rintro name value rfl
          exact hapart _ _ hp
        | exec | ret => exact trivial
      | _ =>
        rw [hp] at h
        show SavedFrom rj records p'.world.memory.file
        rw [htied.file_eq hcalls hmain (by rw [hp]; nofun) hstep]
        exact h

/-- In a run in which no set overlaps a save, the file holds what was loaded and set before the last save. -/
theorem Run.saved (h : Run (Restrict (TimedStep rj roles) SetsApart) (.start T rj file clock) ls s)
    (hunfinished : s.program.Unfinished) {before after : List (Int × TimedLabel T)} {τ saveTime : Int} {call : Nat}
    (hls : ls = before ++ (τ, .startStore saveTime call) :: after) (hafter : saveStarts after = []) :
    s.Saved rj roles (loadedRecords rj file ++ lockedSets (callsOf roles before)) := by
  induction h generalizing after with
  | nil => simp at hls
  | @snoc ls s s' l h hl ih =>
    obtain ⟨hs, hapart⟩ := hl
    have hrun := h.unrestrict
    rcases List.eq_nil_or_concat after with rfl | ⟨after, l', rfl⟩
    · obtain ⟨rfl, hlast⟩ := List.append_inj' hls rfl
      obtain rfl := List.singleton_inj.1 hlast
      exact hs.saved_startStore hrun hapart
    · rw [List.concat_eq_append, ← List.cons_append, ← List.append_assoc] at hls
      obtain ⟨hshorter, hlast⟩ := List.append_inj' hls rfl
      obtain rfl := List.singleton_inj.1 hlast
      rw [List.concat_eq_append, saveStarts_concat, List.append_eq_nil_iff, Option.toList_eq_nil_iff] at hafter
      have hbefore := hs.unfinished (Run.quiet hrun) hunfinished
      exact hs.saved hapart (Run.tied hrun) (Run.calls (fun _ _ hg => hg) (Run.worlds hrun))
        (Run.main_idle hrun hbefore) hafter.2 (ih hbefore hshorter hafter.1)

/-! ### The last save -/

omit [DecidableEq T] [Allocator] in
theorem exists_startStore_of_getLast? {saveTime : Int} (h : (saveStarts ls).getLast? = some saveTime) :
    ∃ before τ call after, ls = before ++ (τ, .startStore saveTime call) :: after ∧ saveStarts after = [] := by
  obtain ⟨init, hinit⟩ := List.getLast?_eq_some_iff.1 h
  obtain ⟨before, rest, rfl, -, hrest⟩ := List.filterMap_eq_append_iff.1 hinit
  obtain ⟨skipped, ⟨τ, l⟩, after, rfl, -, hl, hafter⟩ := List.filterMap_eq_cons_iff.1 hrest
  cases l with
  | startStore saveTime' call =>
    obtain rfl : saveTime' = saveTime := Option.some.inj hl
    exact ⟨before ++ skipped, τ, call, after, (List.append_assoc ..).symm, hafter⟩
  | _ => cases hl

/-- The worker has read the clock before it begins to save. -/
theorem Run.saveTime_le {before after : List (Int × TimedLabel T)} {τ saveTime : Int} {call : Nat}
    (h : Run (TimedStep rj roles) (.start T rj file clock) (before ++ (τ, .startStore saveTime call) :: after) s) :
    saveTime ≤ τ := by
  rw [List.append_cons] at h
  obtain ⟨s₂, h₂, -⟩ := h.exists_of_append
  obtain ⟨s₁, h₁, hs⟩ := h₂.of_concat
  have hlocals := hs.locals
  generalize s₂.locals = r at hlocals
  cases hlocals with
  | startStore hp hlate =>
    obtain ⟨loopTime, -, hfrom⟩ := (Run.follows h₁).entered (by rw [hp]; nofun)
    rw [RunLocals.FollowsFrom, hp] at hfrom
    obtain ⟨decided, hreadings, -⟩ := hfrom
    have hmem : saveTime ∈ saveReadings before := by
      rw [hreadings]
      simp
    obtain ⟨⟨τ₁, l⟩, hl, hreading⟩ := List.mem_filterMap.1 hmem
    have hclock := (Run.ordered h₁).2 _ hl
    cases l with
    | readSaveTime =>
      obtain rfl : τ₁ = saveTime := Option.some.inj hreading
      exact hclock.trans hs.monotone
    | _ => cases hreading

/-- A set that returned a period before the reading with which the worker decided last returned before the last save
began. -/
theorem Run.returned_before_save (h : Run (TimedStep rj roles) (.start T rj file clock) ls s) {printTime saveTime : Int}
    (hpoint : s.locals.point = .waiting printTime saveTime) {pre post : List (Int × TimedLabel T)} {loopTime τ : Int}
    (hls : ls = pre ++ (loopTime, .enterLoop) :: post) {l : ProgramLabel T} (hl : (τ, .program l) ∈ post)
    (hτ : τ + timeBetweenDataSaves ≤ saveTime) :
    ∃ before τ₀ lastSave call after, ls = before ++ (τ₀, .startStore lastSave call) :: after ∧ saveStarts after = [] ∧
      (τ, .program l) ∈ before := by
  have hlast := (Run.follows h).waiting_lt hpoint
  obtain ⟨hordered, -⟩ := Run.ordered h
  cases hsaves : (saveStarts ls).getLast? with
  | none =>
    -- without a save, the reading is less than a period after the loop was entered
    obtain ⟨entered, hentered, -⟩ := (Run.follows h).entered (by rw [hpoint]; nofun)
    have hloop : loopTime ∈ loopStarts ls := by
      rw [hls]
      exact List.mem_filterMap.2 ⟨_, List.mem_append_right _ List.mem_cons_self, rfl⟩
    rw [hentered, List.mem_singleton] at hloop
    have hlt := hlast entered (by rw [lastSaved, List.getLast?_append, hsaves, hentered]; rfl)
    rw [hls, List.pairwise_append, List.pairwise_cons] at hordered
    have hle : loopTime ≤ τ := hordered.2.1.1 _ hl
    omega
  | some lastSave =>
    obtain ⟨before, τ₀, call, after, hcut, hafter⟩ := exists_startStore_of_getLast? hsaves
    refine ⟨before, τ₀, lastSave, call, after, hcut, hafter, ?_⟩
    have hlt := hlast lastSave (by rw [lastSaved, List.getLast?_append, hsaves]; rfl)
    have hmem : (τ, .program l) ∈ ls := by
      rw [hls]
      exact List.mem_append_right _ (List.mem_cons_of_mem _ hl)
    rw [hcut] at hmem hordered h
    have hstarted := Run.saveTime_le h
    rw [List.pairwise_append, List.pairwise_cons] at hordered
    rcases List.mem_append.1 hmem with hmem | hmem
    · exact hmem
    · rcases List.mem_cons.1 hmem with he | hmem
      · cases he
      · -- what is done behind the beginning of the save is done later
        have hle : τ₀ ≤ τ := hordered.2.1.1 _ hmem
        omega

/-- Whatever the clock and however long the steps take, saves begin at least 14 seconds apart, and when the loop reads
the clock often enough, not much later.  So when no set overlaps a save, at the end of each iteration the file has every
set that returned 14 seconds before the iteration decided whether to save. -/
theorem staleness_bounded (h : Run (TimedStep rj roles) (.start T rj file clock) ls s) :
    ((loopStarts ls ++ saveStarts ls).IsChain fun a b => a + timeBetweenDataSaves ≤ b) ∧
    (∀ bound, ((loopStarts ls ++ saveReadings ls).IsChain fun a b => b ≤ a + bound) →
      ((loopStarts ls ++ saveStarts ls).IsChain fun a b => b < a + (timeBetweenDataSaves + bound)) ∧
      ∀ printTime saveTime, s.locals.point = .deciding printTime saveTime →
        ∀ last ∈ lastSaved ls, saveTime < last + (timeBetweenDataSaves + bound)) ∧
    ∀ printTime saveTime, s.locals.point = .waiting printTime saveTime →
      (∀ last ∈ lastSaved ls, saveTime < last + timeBetweenDataSaves) ∧
      (Run (Restrict (TimedStep rj roles) SetsApart) (.start T rj file clock) ls s → s.program.Unfinished →
        ∀ pre loopTime post, ls = pre ++ (loopTime, .enterLoop) :: post →
          ∀ τ t c name value result, (τ, .program (.call (.ret t c (.set name value) result))) ∈ post →
            τ + timeBetweenDataSaves ≤ saveTime →
            ∃ before τ₀ lastSave call after, ls = before ++ (τ₀, .startStore lastSave call) :: after ∧
              saveStarts after = [] ∧ (c, name, value) ∈ (callsOf roles before).filterMap Label.setPlaced ∧
              SavedFrom rj (loadedRecords rj file ++ lockedSets (callsOf roles before))
                s.program.world.memory.file) := by
  have hfollows := Run.follows h
  refine ⟨hfollows.isChain, fun bound hreadings => ⟨hfollows.isChain_of_isChain hreadings, fun _ _ hpoint =>
    hfollows.deciding_lt hpoint hreadings⟩, fun printTime saveTime hpoint => ⟨hfollows.waiting_lt hpoint, ?_⟩⟩
  intro hapart hunfinished pre loopTime post hls τ t c name value result hret hτ
  obtain ⟨before, τ₀, lastSave, call, after, hcut, hafter, hbefore⟩ :=
    Run.returned_before_save h hpoint hls hret hτ
  refine ⟨before, τ₀, lastSave, call, after, hcut, hafter, ?_, ?_⟩
  · rw [hcut] at h
    obtain ⟨s₁, h₁, -⟩ := h.exists_of_append
    exact Run.setPlaced_of_ret (Run.calls_afterLoading h₁) (List.mem_filterMap.2 ⟨_, hbefore, rfl⟩)
  · have hsaved := Run.saved hapart hunfinished hcut hafter
    rw [TimedProgram.Saved, hpoint] at hsaved
    exact hsaved

end Program

section Runs

open SmallThread

attribute [local instance] Allocator.exact

/-- A record is set when the loop has been entered, and saved 14 seconds later. -/
theorem set_saved_in_time : ∃ (ls : List (Int × TimedLabel SmallThread)) (s : TimedProgram SmallThread),
    Run (Restrict (TimedStep JsonText.library roles) SetsApart) (.start SmallThread JsonText.library none 0) ls s ∧
    loopStarts ls = [0] ∧ saveStarts ls = [seconds 14] ∧
    ∃ before, (0, ascii "a", ascii "1") ∈ (callsOf roles before).filterMap Label.setPlaced ∧
      SavedFrom JsonText.library (lockedSets (callsOf roles before)) s.program.world.memory.file := by
  have h₀ : Run (Restrict (TimedStep JsonText.library roles) SetsApart)
      (.start SmallThread JsonText.library none 0) [] _ := .nil
  have h₁ := h₀.snoc ⟨.silent (τ := 0) (by decide) (.enterLoop rfl) rfl, trivial⟩
  have h₂ := h₁.snoc ⟨.server (τ := 0) (by decide) rfl (by decide) (by decide)
    (.invoke (t := server) (.set (ascii "a") (ascii "1")) rfl) ⟨by decide, by decide⟩, nofun⟩
  have h₃ := h₂.snoc ⟨.exec (τ := 0) (by decide) (.exec (t := server) rfl (.setLock (SharedMutex.lock_free server))),
    trivial⟩
  have h₄ := h₃.snoc ⟨.exec (τ := 0) (by decide) (.exec (t := server) rfl (.setFindMiss rfl)), trivial⟩
  have h₅ := h₄.snoc ⟨.exec (τ := 0) (by decide) (.exec (t := server) rfl .setEmplace), trivial⟩
  have h₆ := h₅.snoc ⟨.exec (τ := 0) (by decide) (.exec (t := server) rfl .setGlobal), trivial⟩
  have h₇ := h₆.snoc ⟨.exec (τ := 0) (by decide) (.exec (t := server) rfl .setUnlock), trivial⟩
  have h₈ := h₇.snoc ⟨.server (τ := 0) (by decide) rfl (by decide) (by decide) (.ret (t := server) rfl) trivial,
    trivial⟩
  have h₉ := h₈.snoc ⟨.silent (τ := seconds 14) (by decide) (.readPrintTime rfl) rfl, trivial⟩
  have h₁₀ := h₉.snoc ⟨.seen (τ := seconds 14) (by decide) (.getStatistics rfl) rfl
    (.begins (.move .startBody) rfl (.invoke .getGlobalStatistics rfl)), trivial⟩
  have h₁₁ := h₁₀.snoc ⟨.exec (τ := seconds 14) (by decide) (.exec (t := worker) rfl .statisticsReads), trivial⟩
  have h₁₂ := h₁₁.snoc ⟨.exec (τ := seconds 14) (by decide) (.exec (t := worker) rfl .statisticsWrites), trivial⟩
  have h₁₃ := h₁₂.snoc ⟨.seen (τ := seconds 14) (by decide) (.gotStatistics rfl) rfl
    (.ends (.move .printStatistics) rfl (.ret (t := worker) rfl)), trivial⟩
  have h₁₄ := h₁₃.snoc ⟨.silent (τ := seconds 14) (by decide) (.print rfl rfl) rfl, trivial⟩
  have h₁₅ := h₁₄.snoc ⟨.silent (τ := seconds 14) (by decide) (.readSaveTime rfl) rfl, trivial⟩
  have h₁₆ := h₁₅.snoc ⟨.seen (τ := seconds 14) (by decide) (.startStore rfl (by decide)) rfl
    (.begins (.move .startStore) rfl (.invoke .storeData rfl)), World.noSet_of_idle fun t => by cases t <;> rfl⟩
  have horder : (DataEngine.empty.set (ascii "a") (ascii "1")).data.IterationOrder [ascii "a"] :=
    DataCollection.iterationOrder_iff.2 (by decide)
  have h₁₇ := h₁₆.snoc ⟨.exec (τ := seconds 14) (by decide) (.exec (t := worker) rfl (.enumerateLock rfl)), trivial⟩
  have h₁₈ := h₁₇.snoc ⟨.exec (τ := seconds 14) (by decide) (.exec (t := worker) rfl (.enumerateBegin horder)), trivial⟩
  have h₁₉ := h₁₈.snoc ⟨.exec (τ := seconds 14) (by decide) (.exec (t := worker) rfl (.enumerateNext rfl)), trivial⟩
  have h₂₀ := h₁₉.snoc ⟨.exec (τ := seconds 14) (by decide) (.exec (t := worker) rfl .enumerateEnd), trivial⟩
  have h₂₁ := h₂₀.snoc ⟨.exec (τ := seconds 14) (by decide) (.exec (t := worker) rfl .enumerateStore), trivial⟩
  have h₂₂ := h₂₁.snoc ⟨.exec (τ := seconds 14) (by decide) (.exec (t := worker) rfl .saveOpen), trivial⟩
  have h₂₃ := h₂₂.snoc ⟨.exec (τ := seconds 14) (by decide) (.exec (t := worker) rfl (.saveMember fun v hv =>
    Option.some.inj (show some (.ref (ascii "1")) = some v from hv))), trivial⟩
  have h₂₄ := h₂₃.snoc ⟨.exec (τ := seconds 14) (by decide) (.exec (t := worker) rfl .saveClose), trivial⟩
  have h₂₅ := h₂₄.snoc ⟨.seen (τ := seconds 14) (by decide) (.finishStore rfl) rfl
    (.ends (.move .finishStore) rfl (.ret (t := worker) rfl)), trivial⟩
  have hend := ((staleness_bounded h₂₅.unrestrict).2.2 _ _ rfl).2 h₂₅ nofun [] 0 _ rfl
  obtain ⟨before, τ₀, lastSave, call, after, -, -, hplaced, hfile⟩ := hend 0 server 0 (ascii "a") (ascii "1") .done
    (.tail _ (.tail _ (.tail _ (.tail _ (.tail _ (.tail _ (.head _))))))) (by decide)
  exact ⟨_, _, h₂₅, rfl, rfl, before, hplaced, hfile⟩

end Runs

end KeyValueServer
