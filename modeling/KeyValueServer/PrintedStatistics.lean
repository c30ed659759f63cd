import KeyValueServer.Concurrency.Batches
import KeyValueServer.TimedProgram
import Mathlib.Data.UInt

/-!
# What the worker prints

`get_global_statistics` loads the two global counters one after the other while requests go on to increment them, and
the printer subtracts what it printed before.  For each of the counters alone (`GlobalCounter`) the loads cut the
increments into batches, and the differences that are printed are these batches: each increment is in the difference
of the first print whose load follows it (`statistics_printed_once`).
-/

namespace KeyValueServer

open Concurrency BackgroundWorker

/-! ### The two counters -/

/-- One of the global counters: its value, the points that increment and load it, what a call has loaded of it, and
where it is found in the statistics, in the printer and in a line, as its total and its difference. -/
structure GlobalCounter where
  value : DataEngine → IntegerCounter
  increments : Pc → Bool
  loads : Pc → Bool
  loaded : Pc → Option IntegerCounter
  ofStats : AccessStatistics → IntegerCounter
  previous : StatisticsPrinter → IntegerCounter
  printed : StatisticsLine → IntegerCounter × IntegerCounter

namespace GlobalCounter

def reads : GlobalCounter where
  value e := e.reads
  increments
    | .getMiss _ | .getGlobal _ _ => true
    | _ => false
  loads
    | .statisticsReads => true
    | _ => false
  loaded
    | .statisticsWrites reads => some reads
    | .returning .getGlobalStatistics (.statistics stats) => some stats.reads
    | _ => none
  ofStats stats := stats.reads
  previous printer := printer.previousReads
  printed line := (line.reads, line.readsDelta)

def writes : GlobalCounter where
  value e := e.writes
  increments
    | .setGlobal _ _ => true
    | _ => false
  loads
    | .statisticsWrites _ => true
    | _ => false
  loaded
    | .returning .getGlobalStatistics (.statistics stats) => some stats.writes
    | _ => none
  ofStats stats := stats.writes
  previous printer := printer.previousWrites
  printed line := (line.writes, line.writesDelta)

variable [Allocator]

/-- What the source makes of a counter. -/
structure Lawful (g : GlobalCounter) : Prop where
  value_load : ∀ records, g.value (.load records) = 0
  loaded_start : ∀ op : Op, g.loaded op.start = none
  loaded_op : ∀ pc, g.loaded pc ≠ none → pc.op = .getGlobalStatistics
  loaded_returning : ∀ stats, g.loaded (.returning .getGlobalStatistics (.statistics stats)) = some (g.ofStats stats)
  loads_op : ∀ pc, g.loads pc = true → pc.op = .getGlobalStatistics
  exec : ∀ {T : Type} [DecidableEq T] {rj : RapidJson} {t : T} {m m' : Memory T} {pc pc' : Pc},
    Exec rj t m pc m' pc' → g.loads pc = false →
      g.value m'.engine = (if g.increments pc then g.value m.engine + 1 else g.value m.engine) ∧
        g.loaded pc' = g.loaded pc
  load : ∀ {T : Type} [DecidableEq T] {rj : RapidJson} {t : T} {m m' : Memory T} {pc pc' : Pc},
    Exec rj t m pc m' pc' → g.loads pc = true →
      g.value m'.engine = g.value m.engine ∧ g.increments pc = false ∧ g.loaded pc = none ∧
        g.loaded pc' = some (g.value m.engine)
  previous_start : g.previous {} = 0
  print : ∀ printer stats secondsElapsed,
    g.printed (printer.printStatistics stats.reads stats.writes secondsElapsed).1 =
        (g.ofStats stats, g.ofStats stats - g.previous printer) ∧
      g.previous (printer.printStatistics stats.reads stats.writes secondsElapsed).2 = g.ofStats stats

theorem lawful_reads : reads.Lawful where
  value_load records := (DataEngine.load_statistics records).1
  loaded_start op := by cases op <;> rfl
  loaded_op pc h := by
    cases pc with
    | statisticsWrites => rfl
    | returning op result =>
      cases op with
      | getGlobalStatistics => rfl
      | _ => exact absurd rfl h
    | _ => exact absurd rfl h
  loaded_returning _ := rfl
  loads_op pc h := by
    cases pc with
    | statisticsReads => rfl
    | _ => cases h
  exec he hl := by
    cases he with
    | statisticsReads => cases hl
    | _ => exact ⟨rfl, rfl⟩
  load he hl := by
    cases he with
    | statisticsReads => exact ⟨rfl, rfl, rfl, rfl⟩
    | _ => cases hl
  previous_start := rfl
  print _ _ _ := ⟨rfl, rfl⟩

theorem lawful_writes : writes.Lawful where
  value_load records := (DataEngine.load_statistics records).2.1
  loaded_start op := by cases op <;> rfl
  loaded_op pc h := by
    cases pc with
    | returning op result =>
      cases op with
      | getGlobalStatistics => rfl
      | _ => exact absurd rfl h
    | _ => exact absurd rfl h
  loaded_returning _ := rfl
  loads_op pc h := by
    cases pc with
    | statisticsWrites => rfl
    | _ => cases h
  exec he hl := by
    cases he with
    | statisticsWrites => cases hl
    | _ => exact ⟨rfl, rfl⟩
  load he hl := by
    cases he with
    | statisticsWrites => exact ⟨rfl, rfl, rfl, rfl⟩
    | _ => cases hl
  previous_start := rfl
  print _ _ _ := ⟨rfl, rfl⟩

end GlobalCounter

/-! ### Loads and increments of a run -/

namespace GlobalCounter

variable {T : Type} (g : GlobalCounter)

def incrementsAt : Label T → Bool
  | .exec _ _ pc => g.increments pc
  | _ => false

def loadsAt : Label T → Bool
  | .exec _ _ pc => g.loads pc
  | _ => false

def loadedBy : Thread → Option IntegerCounter
  | .idle => none
  | .running _ pc => g.loaded pc

/-- What `run` has been given and has not printed. -/
def given : RunPoint → Option IntegerCounter
  | .loaded _ stats => some (g.ofStats stats)
  | _ => none

/-- What was loaded and is not printed yet. -/
def unprinted (roles : Roles T) (s : TimedProgram T) : Option IntegerCounter :=
  (g.given s.locals.point).or (g.loadedBy (s.program.world.thread roles.worker))

end GlobalCounter

def printedLine {T : Type} : Int × TimedLabel T → Option StatisticsLine
  | (_, .print line) => some line
  | _ => none

/-- The lines that were printed. -/
def printedLines {T : Type} (ls : List (Int × TimedLabel T)) : List StatisticsLine := ls.filterMap printedLine

section Steps

variable {T : Type} [DecidableEq T] [Allocator] {rj : RapidJson} {roles : Roles T} {g : GlobalCounter}

/-- The totals and the differences of a counter, as the trace shows them. -/
def TimedProgram.Tallied (g : GlobalCounter) (roles : Roles T) (ls : List (Int × TimedLabel T)) (s : TimedProgram T) :
    Prop :=
  Tally g.loadsAt g.incrementsAt (callsOf roles ls) 1 (g.value s.program.world.memory.engine)
    (g.previous s.locals.printer) (g.unprinted roles s) ((printedLines ls).map g.printed)

omit [DecidableEq T] [Allocator] in
theorem printedLines_concat (ls : List (Int × TimedLabel T)) (l : Int × TimedLabel T) :
    printedLines (ls ++ [l]) = printedLines ls ++ (printedLine l).toList :=
  filterMap_concat _ ls l

omit [DecidableEq T] [Allocator] in
theorem printedLines_concat_of_ne {ls : List (Int × TimedLabel T)} {l : Int × TimedLabel T}
    (h : ∀ line, l.2 ≠ .print line) : printedLines (ls ++ [l]) = printedLines ls := by
  obtain ⟨τ, l⟩ := l
  rw [printedLines_concat]
  cases l with
  | print line => exact absurd rfl (h line)
  | _ => exact List.append_nil _

namespace GlobalCounter.Lawful

/-- A step of the engine that does not load the counter. -/
theorem step (hg : g.Lawful) {w w' : World T} {l : Label T} (hs : Step rj w l w') (hl : g.loadsAt l = false) :
    g.value w'.memory.engine = g.value w.memory.engine + (g.incrementsAt l).toNat • 1 := by
  cases hs with
  | invoke | ret => exact (add_zero _).symm
  | exec ht he =>
    rw [(hg.exec he hl).1]
    show _ = _ + (g.increments _).toNat • 1
    cases g.increments _ with
    | true => rw [if_pos rfl, Bool.toNat_true, one_nsmul]
    | false => rw [if_neg Bool.false_ne_true, Bool.toNat_false, zero_nsmul, add_zero]

/-- What a thread has loaded changes when it loads or returns. -/
theorem loadedBy_exec (hg : g.Lawful) {w w' : World T} {t : T} {call : Nat} {pc : Pc}
    (hs : Step rj w (.exec t call pc) w') (hl : g.loads pc = false) :
    g.loadedBy (w'.thread t) = g.loadedBy (w.thread t) := by
  cases hs with
  | exec ht he =>
    rw [ht]
    simp only [Function.update_self]
    exact (hg.exec he hl).2

theorem load_step (hg : g.Lawful) {w w' : World T} {t : T} {call : Nat} {pc : Pc}
    (hs : Step rj w (.exec t call pc) w') (hl : g.loads pc = true) :
    g.value w'.memory.engine = g.value w.memory.engine ∧ g.increments pc = false ∧
      g.loadedBy (w.thread t) = none ∧ g.loadedBy (w'.thread t) = some (g.value w.memory.engine) := by
  cases hs with
  | exec ht he =>
    rw [ht]
    simp only [Function.update_self]
    exact hg.load he hl

/-- A thread that is in no call of `get_global_statistics` has loaded nothing. -/
theorem loadedBy_of_op (hg : g.Lawful) {th : Thread} (h : th.op ≠ some .getGlobalStatistics) :
    g.loadedBy th = none := by
  cases th with
  | idle => rfl
  | running call pc =>
    by_contra hloaded
    exact h (congrArg some (hg.loaded_op pc hloaded))

end GlobalCounter.Lawful

omit [DecidableEq T] [Allocator] in
/-- A step that is not seen in the engine, and does not print. -/
theorem TimedProgram.Tallied.silent {s s' : TimedProgram T} {ls : List (Int × TimedLabel T)} {l : Int × TimedLabel T}
    (h : s.Tallied g roles ls) (hcalls : callsOf roles (ls ++ [l]) = callsOf roles ls)
    (hlines : printedLines (ls ++ [l]) = printedLines ls) (hworld : s'.program.world = s.program.world)
    (hprinter : s'.locals.printer = s.locals.printer) (hgiven : g.given s'.locals.point = g.given s.locals.point) :
    s'.Tallied g roles (ls ++ [l]) := by
  unfold TimedProgram.Tallied GlobalCounter.unprinted at h ⊢
  rw [hcalls, hlines, hworld, hprinter, hgiven]
  exact h

/-- A step of the engine that does not load the counter. -/
theorem TimedProgram.Tallied.call (hg : g.Lawful) {s s' : TimedProgram T} {ls : List (Int × TimedLabel T)}
    {l : Int × TimedLabel T} (h : s.Tallied g roles ls) {cl : Label T}
    (hcalls : callsOf roles (ls ++ [l]) = callsOf roles ls ++ [cl])
    (hlines : printedLines (ls ++ [l]) = printedLines ls) (hs : Step rj s.program.world cl s'.program.world)
    (hl : g.loadsAt cl = false) (hprinter : s'.locals.printer = s.locals.printer)
    (hunprinted : g.unprinted roles s' = g.unprinted roles s) : s'.Tallied g roles (ls ++ [l]) := by
  unfold TimedProgram.Tallied at h ⊢
  rw [hcalls, hlines, hprinter, hunprinted]
  exact h.concat hl (hg.step hs hl)

/-- A point of a call executes. -/
theorem TimedStep.tallied_exec (hg : g.Lawful) {s s' : TimedProgram T} {ls : List (Int × TimedLabel T)} {τ : Int}
    {t : T} {call : Nat} {pc : Pc} (hs : Step rj s.program.world (.exec t call pc) s'.program.world)
    (hlocals : s'.locals = s.locals) (htied : s.Tied roles) (hcalls : s.program.world.Calls roles.Calls)
    (h : s.Tallied g roles ls) : s'.Tallied g roles (ls ++ [(τ, .program (.call (.exec t call pc)))]) := by
  have htrace : callsOf roles (ls ++ [(τ, .program (.call (.exec t call pc)))]) =
      callsOf roles ls ++ [.exec t call pc] := callsOf_concat_call rfl
  have hlines : printedLines (ls ++ [(τ, .program (.call (.exec t call pc)))]) = printedLines ls :=
    printedLines_concat_of_ne nofun
  have hrunning : (s.program.world.thread t).op = some pc.op := by
    rw [hs.running]
    rfl
  cases hl : g.loads pc with
  | false =>
    refine h.call hg htrace hlines hs hl (by rw [hlocals]) ?_
    rw [GlobalCounter.unprinted, GlobalCounter.unprinted, hlocals]
    by_cases ht : roles.worker = t
    · rw [ht, hg.loadedBy_exec hs hl]
    · rw [hs.thread_of_ne ht]
  | true =>
    -- it is the worker that loads, and it is in its call
    have hop : pc.op = .getGlobalStatistics := hg.loads_op pc hl
    rw [hop] at hrunning
    obtain rfl : t = roles.worker := hcalls.thread_op hrunning
    have hgiven : g.given s.locals.point = none := by
      have hpoint : s.locals.point.op = some .getGlobalStatistics := htied.symm.trans hrunning
      cases hp : s.locals.point with
      | loaded =>
        rw [hp] at hpoint
        cases hpoint
      | _ => rfl
    obtain ⟨hvalue, hnoincrement, hbefore, hafter⟩ := hg.load_step hs hl
    unfold TimedProgram.Tallied GlobalCounter.unprinted at h ⊢
    rw [hgiven, hbefore] at h
    rw [htrace, hlines, hlocals, hgiven, hafter, hvalue]
    exact h.load_concat hl hnoincrement

omit [DecidableEq T] in
/-- The worker has loaded nothing when it is in no call, or in another one. -/
theorem unprinted_eq_none (hg : g.Lawful) {s : TimedProgram T} (htied : s.Tied roles)
    (hgiven : g.given s.locals.point = none) (hop : s.locals.point.op ≠ some .getGlobalStatistics) :
    g.unprinted roles s = none := by
  unfold TimedProgram.Tied at htied
  rw [GlobalCounter.unprinted, hgiven, hg.loadedBy_of_op (by rwa [htied])]
  rfl

theorem TimedStep.tallied (hg : g.Lawful) {s s' : TimedProgram T} {ls : List (Int × TimedLabel T)}
    {l : Int × TimedLabel T} (hs : TimedStep rj roles s l s') (htied : s.Tied roles)
    (hcalls : s.program.world.Calls roles.Calls) (h : s.Tallied g roles ls) : s'.Tallied g roles (ls ++ [l]) := by
  have htied' := hs.tied htied
  have hprogram := hs.program
  have hlocals := hs.locals
  obtain ⟨τ, l⟩ := l
  obtain ⟨p', r', clock'⟩ := s'
  cases hlocals with
  | enterLoop hp | readPrintTime hp | readSaveTime hp =>
    refine h.silent (callsOf_concat_of_ne nofun) (printedLines_concat_of_ne nofun) ?_ rfl ?_
    · rw [show p' = s.program from hprogram]
    · rw [hp]
      rfl
  | skipStore hp _ | unlock hp =>
    refine h.silent (callsOf_concat_of_ne nofun) (printedLines_concat_of_ne nofun) (RequestStep.control hprogram).1 rfl
      ?_
    rw [hp]
    rfl
  | timeOut hp _ =>
    exact h.silent (callsOf_concat_of_ne nofun) (printedLines_concat_of_ne nofun) (RequestStep.control hprogram).1 rfl
      rfl
  | @getStatistics printTime call hp =>
    have hstep := RequestStep.call hprogram
    refine h.call hg (callsOf_concat_call rfl) (printedLines_concat_of_ne nofun) hstep rfl rfl ?_
    rw [unprinted_eq_none hg htied (by rw [hp]; rfl) (by rw [hp]; nofun), GlobalCounter.unprinted, hstep.invoked]
    exact hg.loaded_start _
  | startStore hp _ =>
    refine h.call hg (callsOf_concat_call rfl) (printedLines_concat_of_ne nofun) (RequestStep.call hprogram) rfl rfl ?_
    rw [unprinted_eq_none hg htied (by rw [hp]; rfl) (by rw [hp]; nofun)]
    exact unprinted_eq_none hg htied' rfl nofun
  | finishStore hp =>
    refine h.call hg (callsOf_concat_call rfl) (printedLines_concat_of_ne nofun) (RequestStep.call hprogram) rfl rfl ?_
    rw [unprinted_eq_none hg htied (by rw [hp]; rfl) (by rw [hp]; nofun)]
    exact unprinted_eq_none hg htied' rfl nofun
  | @gotStatistics printTime call stats hp =>
    -- what was loaded is what the call returns
    have hstep := RequestStep.call hprogram
    refine h.call hg (callsOf_concat_call rfl) (printedLines_concat_of_ne nofun) hstep rfl rfl ?_
    rw [GlobalCounter.unprinted, GlobalCounter.unprinted, hp, hstep.returning]
    exact (hg.loaded_returning stats).symm
  | @print printTime stats line printer hp hprint =>
    obtain ⟨hprinted, hprevious⟩ := hg.print s.locals.printer stats
      (printSecondsElapsed (printTime - s.locals.lastPrintTime))
    rw [hprint] at hprinted hprevious
    have hbefore : g.unprinted roles s = some (g.ofStats stats) := by
      rw [GlobalCounter.unprinted, hp]
      rfl
    have hafter := unprinted_eq_none hg htied' rfl nofun
    have hsilent : callsOf roles (ls ++ [(τ, .print line)]) = callsOf roles ls := callsOf_concat_of_ne nofun
    unfold TimedProgram.Tallied at h ⊢
    rw [hbefore] at h
    rw [hsilent, printedLines_concat, hafter, List.map_append, show p' = s.program from hprogram]
    show Tally _ _ _ _ _ (g.previous printer) _ (_ ++ [g.printed line])
    rw [hprinted, hprevious]
    exact h.report
  | @elsewhere pl helse =>
    cases pl with
    | control e =>
      exact h.silent (callsOf_concat_of_ne nofun) (printedLines_concat_of_ne nofun) (RequestStep.control hprogram).1 rfl
        rfl
    | call cl =>
      have hstep := RequestStep.call hprogram
      cases cl with
      | exec t call pc => exact TimedStep.tallied_exec hg hstep rfl htied hcalls h
      | invoke t call op =>
        refine h.call hg (callsOf_concat_call rfl) (printedLines_concat_of_ne nofun) hstep rfl rfl ?_
        rw [GlobalCounter.unprinted, GlobalCounter.unprinted, hstep.thread_of_ne (Ne.symm helse)]
      | ret t call op result =>
        refine h.call hg (callsOf_concat_call rfl) (printedLines_concat_of_ne nofun) hstep rfl rfl ?_
        rw [GlobalCounter.unprinted, GlobalCounter.unprinted, hstep.thread_of_ne (Ne.symm helse)]

variable {file : Option Bytes} {clock : Int} {ls : List (Int × TimedLabel T)} {s : TimedProgram T}

theorem Run.tallied (hg : g.Lawful) (h : Run (TimedStep rj roles) (.start T rj file clock) ls s) :
    s.Tallied g roles ls := by
  induction h with
  | nil =>
    have hvalue : g.value (loadedEngine rj file) = 0 := by
      rw [loadedEngine_eq]
      exact hg.value_load _
    show Tally _ _ _ _ (g.value (loadedEngine rj file)) (g.previous {}) _ _
    rw [hvalue, hg.previous_start]
    exact .nil
  | snoc hrun hs ih => exact hs.tallied hg (Run.tied hrun) (Run.calls (fun _ _ hl => hl) (Run.worlds hrun)) ih

/-! ### What is printed -/

omit [DecidableEq T] [Allocator] in
theorem nsmul_one_eq_ofNat (n : Nat) : n • (1 : IntegerCounter) = .ofNat n := by
  induction n with
  | zero => rfl
  | succ n ih =>
    rw [succ_nsmul, ih, UInt64.ofNat_add]
    rfl

/-- Each increment of the counter is printed once: the `k`-th line (from zero) has the increments with `k` loads before
them, so the first load behind them is its own.  Those with as many loads before them as lines were printed, or more,
are not printed yet. -/
structure PrintedOnce (g : GlobalCounter) (calls : List (Label T)) (lines : List StatisticsLine) : Prop where
  sum : ∀ line, lines.getLast? = some line → (lines.map fun line => (g.printed line).2).sum = (g.printed line).1
  loads : lines.length ≤ calls.countP g.loadsAt ∧ calls.countP g.loadsAt ≤ lines.length + 1
  once : ∀ k line, lines[k]? = some line → (g.printed line).2 = .ofNat (batch g.loadsAt g.incrementsAt calls k)
  all : ∑ k ∈ Finset.range (calls.countP g.loadsAt + 1), batch g.loadsAt g.incrementsAt calls k =
    calls.countP g.incrementsAt
  exact : calls.countP g.incrementsAt < 2 ^ 64 → ∀ k line, lines[k]? = some line →
    (g.printed line).2.toNat = batch g.loadsAt g.incrementsAt calls k
  growing : calls.countP g.incrementsAt < 2 ^ 64 → ∀ k line next, lines[k]? = some line → lines[k + 1]? = some next →
    (g.printed next).1.toNat = (g.printed line).1.toNat + (g.printed next).2.toNat

/-- The lines as natural numbers. -/
theorem Run.reported (hg : g.Lawful) (h : Run (TimedStep rj roles) (.start T rj file clock) ls s) {k : Nat}
    {line : StatisticsLine} (hk : (printedLines ls)[k]? = some line) :
    (g.printed line).1 = .ofNat (batches g.loadsAt g.incrementsAt (callsOf roles ls) (k + 1)) ∧
      (g.printed line).2 = .ofNat (batch g.loadsAt g.incrementsAt (callsOf roles ls) k) ∧
      batches g.loadsAt g.incrementsAt (callsOf roles ls) (k + 1) ≤ (callsOf roles ls).countP g.incrementsAt := by
  have htally := Run.tallied hg h
  unfold TimedProgram.Tallied at htally
  have hk' : ((printedLines ls).map g.printed)[k]? = some (g.printed line) := by
    rw [List.getElem?_map, hk]
    rfl
  obtain ⟨htotal, hdelta⟩ := htally.reported k _ _ hk'
  rw [nsmul_one_eq_ofNat] at htotal hdelta
  have hload : k < (callsOf roles ls).countP g.loadsAt :=
    (List.getElem?_eq_some_iff.1 hk').1.trans_le htally.loads_le.1
  exact ⟨htotal, hdelta, batches_le (Nat.succ_le_succ hload.le)⟩

theorem Run.printedOnce (hg : g.Lawful) (h : Run (TimedStep rj roles) (.start T rj file clock) ls s) :
    PrintedOnce g (callsOf roles ls) (printedLines ls) := by
  have htally := Run.tallied hg h
  unfold TimedProgram.Tallied at htally
  constructor
  · intro line hline
    have hlast : ((printedLines ls).map g.printed).getLast? = some (g.printed line) := by
      rw [List.getLast?_map, hline]
      rfl
    have hsum := htally.sum_eq
    rw [List.map_map] at hsum
    rw [htally.last_eq _ hlast]
    exact hsum
  · have hloads := htally.loads_le
    rw [List.length_map] at hloads
    exact hloads
  · intro k line hk
    exact (Run.reported hg h hk).2.1
  · exact batches_all _ _ _
  · intro hlt k line hk
    obtain ⟨-, hdelta, hle⟩ := Run.reported hg h hk
    rw [batches_succ] at hle
    rw [hdelta]
    exact UInt64.toNat_ofNat_of_lt' (lt_of_le_of_lt (by omega) hlt)
  · intro hlt k line next hk hnext
    obtain ⟨htotal, -, hle⟩ := Run.reported hg h hk
    obtain ⟨htotal', hdelta', hle'⟩ := Run.reported hg h hnext
    rw [htotal, htotal', hdelta', UInt64.toNat_ofNat_of_lt' (hle.trans_lt hlt),
      UInt64.toNat_ofNat_of_lt' (hle'.trans_lt hlt)]
    rw [batches_succ] at hle' ⊢
    rw [UInt64.toNat_ofNat_of_lt' (lt_of_le_of_lt (by omega) hlt)]

/-- In every run, with the requests and the two loads of each print interleaved in any way, the differences that were
printed sum up to the totals printed last, each increment of `m_reads` and `m_writes` is in the difference of the first
print whose load follows it, and no difference wraps around while the counters do not. -/
theorem statistics_printed_once (h : Run (TimedStep rj roles) (.start T rj file clock) ls s) :
    PrintedOnce .reads (callsOf roles ls) (printedLines ls) ∧
      PrintedOnce .writes (callsOf roles ls) (printedLines ls) :=
  ⟨Run.printedOnce GlobalCounter.lawful_reads h, Run.printedOnce GlobalCounter.lawful_writes h⟩

end Steps

section Runs

open SmallThread

attribute [local instance] Allocator.exact

/-- A `get` is counted between the two loads of the first print, and printed with the second one. -/
theorem printed_with_next_load : ∃ (ls : List (Int × TimedLabel SmallThread)) (s : TimedProgram SmallThread),
    Run (TimedStep JsonText.library roles) (.start SmallThread JsonText.library none 0) ls s ∧
    printedLines ls = [⟨0, 0, 0, 0, 0⟩, ⟨1, 0, 5, 1, 0⟩] ∧
    batch GlobalCounter.reads.loadsAt GlobalCounter.reads.incrementsAt (callsOf roles ls) 0 = 0 ∧
    batch GlobalCounter.reads.loadsAt GlobalCounter.reads.incrementsAt (callsOf roles ls) 1 = 1 := by
  have h₀ : Run (TimedStep JsonText.library roles) (.start SmallThread JsonText.library none 0) [] _ := .nil
  have h₁ := h₀.snoc (.silent (τ := 0) (by decide) (.enterLoop rfl) rfl)
  have h₂ := h₁.snoc (.silent (τ := 0) (by decide) (.readPrintTime rfl) rfl)
  have h₃ := h₂.snoc (.seen (τ := 0) (by decide) (.getStatistics rfl) rfl
    (.begins (.move .startBody) rfl (.invoke .getGlobalStatistics rfl)))
  have h₄ := h₃.snoc (.exec (τ := 0) (by decide) (.exec (t := worker) rfl .statisticsReads))
  have h₅ := h₄.snoc (.server (τ := 0) (by decide) rfl (by decide) (by decide)
    (.invoke (t := server) (.get (ascii "a")) rfl) ⟨by decide, by decide⟩)
  have h₆ := h₅.snoc (.exec (τ := 0) (by decide) (.exec (t := server) rfl (.getLock rfl)))
  have h₇ := h₆.snoc (.exec (τ := 0) (by decide) (.exec (t := server) rfl (.getFindMiss rfl)))
  have h₈ := h₇.snoc (.exec (τ := 0) (by decide) (.exec (t := server) rfl .getMiss))
  have h₉ := h₈.snoc (.exec (τ := 0) (by decide) (.exec (t := worker) rfl .statisticsWrites))
  have h₁₀ := h₉.snoc (.seen (τ := 0) (by decide) (.gotStatistics rfl) rfl
    (.ends (.move .printStatistics) rfl (.ret (t := worker) rfl)))
  have h₁₁ := h₁₀.snoc (.silent (τ := 0) (by decide) (.print rfl rfl) rfl)
  have h₁₂ := h₁₁.snoc (.silent (τ := 0) (by decide) (.readSaveTime rfl) rfl)
  have h₁₃ := h₁₂.snoc (.seen (τ := 0) (by decide) (.skipStore rfl (by decide)) rfl
    (.control (.move .skipStore) rfl rfl nofun))
  have h₁₄ := h₁₃.snoc (.control (τ := 0) (by decide) .lock rfl rfl nofun trivial)
  have h₁₅ := h₁₄.snoc (.control (τ := 0) (by decide) .sleep rfl rfl nofun trivial)
  have h₁₆ := h₁₅.snoc (.seen (τ := seconds 5) (by decide) (.timeOut rfl (by decide)) rfl
    (.control (.move .timeOut) rfl rfl nofun))
  have h₁₇ := h₁₆.snoc (.control (τ := seconds 5) (by decide) .relock rfl rfl nofun trivial)
  have h₁₈ := h₁₇.snoc (.control (τ := seconds 5) (by decide) .recheck rfl rfl nofun trivial)
  have h₁₉ := h₁₈.snoc (.seen (τ := seconds 5) (by decide) (.unlock rfl) rfl (.control .unlock rfl rfl nofun))
  have h₂₀ := h₁₉.snoc (.silent (τ := seconds 5) (by decide) (.readPrintTime rfl) rfl)
  have h₂₁ := h₂₀.snoc (.seen (τ := seconds 5) (by decide) (.getStatistics rfl) rfl
    (.begins (.move .startBody) rfl (.invoke .getGlobalStatistics rfl)))
  have h₂₂ := h₂₁.snoc (.exec (τ := seconds 5) (by decide) (.exec (t := worker) rfl .statisticsReads))
  have h₂₃ := h₂₂.snoc (.exec (τ := seconds 5) (by decide) (.exec (t := worker) rfl .statisticsWrites))
  have h₂₄ := h₂₃.snoc (.seen (τ := seconds 5) (by decide) (.gotStatistics rfl) rfl
    (.ends (.move .printStatistics) rfl (.ret (t := worker) rfl)))
  have h₂₅ := h₂₄.snoc (.silent (τ := seconds 5) (by decide) (.print rfl rfl) rfl)
  have hexact := (statistics_printed_once h₂₅).1.exact (by decide)
  exact ⟨_, _, h₂₅, rfl, (hexact 0 _ rfl).symm, (hexact 1 _ rfl).symm⟩

end Runs

end KeyValueServer
