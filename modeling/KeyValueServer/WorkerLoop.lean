import KeyValueServer.MainProgram

/-!
# The loop of the worker with its clock

`run` of the background worker reads the clock before the loop and twice in each iteration: before it prints the
statistics, and before it decides whether the data are to be saved.  The two timers are advanced separately, to the
reading that the decision was made with (`RunLocals`).  `RunStep` is what a step of the program does to the local
variables of `run`; the control of the loop is the one of `WorkerShutdown`.

Clock readings are integers that count nanoseconds.
-/

namespace KeyValueServer

/-! ### The printer -/

structure StatisticsPrinter where
  previousReads : IntegerCounter := 0
  previousWrites : IntegerCounter := 0
  deriving DecidableEq

/-- What a line of statistics says. -/
structure StatisticsLine where
  reads : IntegerCounter
  writes : IntegerCounter
  secondsElapsed : UInt32
  readsDelta : IntegerCounter
  writesDelta : IntegerCounter
  deriving DecidableEq

/-- `print_statistics`: the line that is logged, and the printer after it. -/
def StatisticsPrinter.printStatistics (printer : StatisticsPrinter) (reads writes : IntegerCounter)
    (secondsElapsed : UInt32) : StatisticsLine × StatisticsPrinter :=
  (⟨reads, writes, secondsElapsed, reads - printer.previousReads, writes - printer.previousWrites⟩, ⟨reads, writes⟩)

namespace BackgroundWorker

/-! ### The local variables of `run` -/

def seconds (n : Int) : Int := n * 1000000000

def timeBetweenStatsPrints : Int := seconds 5

def timeBetweenDataSaves : Int := seconds 14

example : timeBetweenStatsPrints ≤ timeBetweenDataSaves := by decide

/-- `duration_cast` to seconds rounds towards zero; the count is cast to `unsigned`. -/
def printSecondsElapsed (duration : Int) : UInt32 := .ofInt (duration.tdiv (seconds 1))

/-- Where `run` is, with the variables of its iteration. -/
inductive RunPoint
  | entering
  | loopHead
  | timed (printTime : Int)
  | printing (printTime : Int)
  | loaded (printTime : Int) (stats : AccessStatistics)
  | printed (printTime : Int)
  | deciding (printTime saveTime : Int)
  | storing (printTime saveTime : Int)
  | waiting (printTime saveTime : Int)
  deriving DecidableEq

/-- The call of the engine that the worker is in. -/
def RunPoint.op : RunPoint → Option Op
  | .printing _ => some .getGlobalStatistics
  | .storing _ _ => some .storeData
  | _ => none

structure RunLocals where
  point : RunPoint
  printer : StatisticsPrinter
  lastPrintTime : Int
  lastSaveTime : Int
  deriving DecidableEq

/-- `run` has been called and has not read the clock; the two times do not matter yet. -/
def RunLocals.start : RunLocals where
  point := .entering
  printer := {}
  lastPrintTime := 0
  lastSaveTime := 0

end BackgroundWorker

/-- What happens at one moment: the statements of `run` between its calls, a save that begins, or any other step of the
program. -/
inductive TimedLabel (T : Type)
  | enterLoop
  | readPrintTime
  | print (line : StatisticsLine)
  | readSaveTime
  | startStore (saveTime : Int) (call : Nat)
  | program (l : ProgramLabel T)

/-- A step that is no step of `run`, or one inside of its calls or its wait. -/
def ProgramLabel.Elsewhere {T : Type} (roles : Roles T) : ProgramLabel T → Prop
  | .control (.worker .skipStore) | .control (.worker .timeOut) | .control (.worker .unlock) => False
  | .control _ => True
  | .call (.exec _ _ _) => True
  | .call (.invoke t _ _) | .call (.ret t _ _ _) => t ≠ roles.worker

namespace BackgroundWorker

variable {T : Type}

/-- The step with this label, taken at the time `now`. -/
inductive RunStep (roles : Roles T) (now : Int) : RunLocals → TimedLabel T → RunLocals → Prop
  | enterLoop {r : RunLocals} :
      r.point = .entering →
      RunStep roles now r .enterLoop { r with point := .loopHead, lastPrintTime := now, lastSaveTime := now }
  | readPrintTime {r : RunLocals} :
      r.point = .loopHead → RunStep roles now r .readPrintTime { r with point := .timed now }
  | getStatistics {r : RunLocals} {printTime : Int} {call : Nat} :
      r.point = .timed printTime →
      RunStep roles now r (.program (.call (.invoke roles.worker call .getGlobalStatistics)))
        { r with point := .printing printTime }
  | gotStatistics {r : RunLocals} {printTime : Int} {call : Nat} {stats : AccessStatistics} :
      r.point = .printing printTime →
      RunStep roles now r (.program (.call (.ret roles.worker call .getGlobalStatistics (.statistics stats))))
        { r with point := .loaded printTime stats }
  | print {r : RunLocals} {printTime : Int} {stats : AccessStatistics} {line : StatisticsLine}
      {printer : StatisticsPrinter} :
      r.point = .loaded printTime stats →
      r.printer.printStatistics stats.reads stats.writes (printSecondsElapsed (printTime - r.lastPrintTime)) =
        (line, printer) →
      RunStep roles now r (.print line)
        { r with point := .printed printTime, printer := printer, lastPrintTime := printTime }
  | readSaveTime {r : RunLocals} {printTime : Int} :
      r.point = .printed printTime → RunStep roles now r .readSaveTime { r with point := .deciding printTime now }
  | startStore {r : RunLocals} {printTime saveTime : Int} {call : Nat} :
      r.point = .deciding printTime saveTime → timeBetweenDataSaves ≤ saveTime - r.lastSaveTime →
      RunStep roles now r (.startStore saveTime call) { r with point := .storing printTime saveTime }
  | finishStore {r : RunLocals} {printTime saveTime : Int} {call : Nat} {result : Result} :
      r.point = .storing printTime saveTime →
      RunStep roles now r (.program (.call (.ret roles.worker call .storeData result)))
        { r with point := .waiting printTime saveTime, lastSaveTime := saveTime }
  | skipStore {r : RunLocals} {printTime saveTime : Int} :
      r.point = .deciding printTime saveTime → saveTime - r.lastSaveTime < timeBetweenDataSaves →
      RunStep roles now r (.program (.control (.worker .skipStore))) { r with point := .waiting printTime saveTime }
  -- `wait_until` times out when its deadline is reached
  | timeOut {r : RunLocals} {printTime saveTime : Int} :
      r.point = .waiting printTime saveTime → printTime + timeBetweenStatsPrints ≤ now →
      RunStep roles now r (.program (.control (.worker .timeOut))) r
  -- the end of the iteration
  | unlock {r : RunLocals} {printTime saveTime : Int} :
      r.point = .waiting printTime saveTime →
      RunStep roles now r (.program (.control (.worker .unlock))) { r with point := .loopHead }
  | elsewhere {r : RunLocals} {l : ProgramLabel T} :
      l.Elsewhere roles → RunStep roles now r (.program l) r

end BackgroundWorker

end KeyValueServer
