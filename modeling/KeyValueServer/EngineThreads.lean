import KeyValueServer.Concurrency.Run
import KeyValueServer.Concurrency.SharedMutex
import KeyValueServer.DataSerializer

/-!
# Threads on one engine

Any number of threads call the operations of one engine, each thread one call after the other.  A call in progress
is at a point of its operation's source (`Pc`, with the local variables that are live there), and `Exec` is what
executing that point does: it takes or gives back `m_protectData`, makes one access to the engine, or follows one
branch.  `Step` interleaves the points of all threads in every order, together with invocations and returns; its
labels say what was done, so that a trace shows every call and every access.

`store_data` is the worker's and main's operation: it enumerates with a visitor that fills a document, gives the
lock back, and then writes the members one by one, following the references only now.  Here files open, and are written
and closed without an error, and nothing throws.
-/

namespace KeyValueServer

open Concurrency

inductive Op
  | get (name : Bytes)
  | set (name value : Bytes)
  | initialSet (name value : Bytes)
  | enumerate
  | getGlobalStatistics
  | storeData
  deriving DecidableEq

inductive Result
  | found (value : Option ExtendedValue)
  | done
  | visited (items : List (Bytes × Bytes))
  | statistics (stats : AccessStatistics)
  | stored (recordCount : Nat)
  deriving DecidableEq

/-- The state of the visitor of an enumeration: a list of what it was shown, or the visitor of `store_data`. -/
inductive Visitor
  | collect (items : List (Bytes × Bytes))
  | addToDocument (recordCount : Nat) (document : Document)
  deriving DecidableEq

def Visitor.visit (name : Bytes) (value : StdString) : Visitor → Visitor
  | .collect items => .collect (items ++ [(name, value.value)])
  | .addToDocument recordCount document => .addToDocument (recordCount + 1) (document.add name value)

/-- The operation that enumerates with this visitor. -/
def Visitor.op : Visitor → Op
  | .collect _ => .enumerate
  | .addToDocument _ _ => .storeData

/-- Where a call is in the source, with its local variables. -/
inductive Pc
  | getLock (name : Bytes)
  | getFind (name : Bytes)
  | getMiss (name : Bytes)
  | getReads (name : Bytes)
  | getWrites (name : Bytes) (reads : IntegerCounter)
  | getGlobal (name : Bytes) (stats : AccessStatistics)
  | getCopy (name : Bytes) (stats : AccessStatistics)
  | getUnlock (name : Bytes) (value : Option ExtendedValue)
  | initialSetLock (name value : Bytes)
  | initialSetFind (name value : Bytes)
  | initialSetEmplace (name value : Bytes)
  | initialSetAssign (name value : Bytes)
  | initialSetUnlock (name value : Bytes)
  | setLock (name value : Bytes)
  | setFind (name value : Bytes)
  | setEmplace (name value : Bytes)
  | setWrites (name value : Bytes)
  | setAssign (name value : Bytes)
  | setGlobal (name value : Bytes)
  | setUnlock (name value : Bytes)
  | enumerateLock (visitor : Visitor)
  | enumerateBegin (visitor : Visitor)
  | enumerateNext (visitor : Visitor) (rest : List Bytes)
  | enumerateUnlock (visitor : Visitor)
  | statisticsReads
  | statisticsWrites (reads : IntegerCounter)
  | saveOpen (recordCount : Nat) (document : Document)
  | saveMembers (recordCount : Nat) (rest : Document) (written : List (JString × JString))
  | returning (op : Op) (result : Result)
  deriving DecidableEq

/-- The first point of an operation. -/
def Op.start : Op → Pc
  | .get name => .getLock name
  | .set name value => .setLock name value
  | .initialSet name value => .initialSetLock name value
  | .enumerate => .enumerateLock (.collect [])
  | .getGlobalStatistics => .statisticsReads
  | .storeData => .enumerateLock (.addToDocument 0 [])

/-- The operation that a point belongs to. -/
def Pc.op : Pc → Op
  | .getLock name | .getFind name | .getMiss name | .getReads name | .getWrites name _ | .getGlobal name _
  | .getCopy name _ | .getUnlock name _ => .get name
  | .initialSetLock name value | .initialSetFind name value | .initialSetEmplace name value
  | .initialSetAssign name value | .initialSetUnlock name value => .initialSet name value
  | .setLock name value | .setFind name value | .setEmplace name value | .setWrites name value
  | .setAssign name value | .setGlobal name value | .setUnlock name value => .set name value
  | .enumerateLock visitor | .enumerateBegin visitor | .enumerateNext visitor _ | .enumerateUnlock visitor =>
    visitor.op
  | .statisticsReads | .statisticsWrites _ => .getGlobalStatistics
  | .saveOpen _ _ | .saveMembers _ _ _ => .storeData
  | .returning op _ => op

/-- What all threads share: the engine with its lock, and the database file. -/
structure Memory (T : Type) where
  protectData : SharedMutex T
  engine : DataEngine
  file : Option Bytes

namespace Memory

variable {T : Type}

def data (m : Memory T) : DataCollection := m.engine.data

def setData (m : Memory T) (data : DataCollection) : Memory T := { m with engine := { m.engine with data := data } }

/-- `m_reads.fetch_add(1)` on the global counter. -/
def fetchAddReads (m : Memory T) : Memory T :=
  { m with engine := { m.engine with reads := m.engine.reads + 1 } }

/-- `m_writes.fetch_add(1)` on the global counter. -/
def fetchAddWrites (m : Memory T) : Memory T :=
  { m with engine := { m.engine with writes := m.engine.writes + 1 } }

end Memory

variable {T : Type} [DecidableEq T]

/-- Thread `t` executes one point of its call. -/
inductive Exec [Allocator] (rj : RapidJson) (t : T) : Memory T → Pc → Memory T → Pc → Prop
  | getLock {m : Memory T} {name : Bytes} {l : SharedMutex T} :
      m.protectData.lockShared t = some l →
      Exec rj t m (.getLock name) { m with protectData := l } (.getFind name)
  | getFindMiss {m : Memory T} {name : Bytes} :
      m.data.lookup name = none → Exec rj t m (.getFind name) m (.getMiss name)
  | getFindHit {m : Memory T} {name : Bytes} {record : ExtendedValueInternal} :
      m.data.lookup name = some record → Exec rj t m (.getFind name) m (.getReads name)
  | getMiss {m : Memory T} {name : Bytes} :
      Exec rj t m (.getMiss name) m.fetchAddReads (.getUnlock name none)
  | getReads {m : Memory T} {name : Bytes} {record : ExtendedValueInternal} :
      m.data.lookup name = some record →
      Exec rj t m (.getReads name) (m.setData (m.data.fetchAddReads name)) (.getWrites name (record.reads + 1))
  | getWrites {m : Memory T} {name : Bytes} {reads : IntegerCounter} {record : ExtendedValueInternal} :
      m.data.lookup name = some record →
      Exec rj t m (.getWrites name reads) m (.getGlobal name ⟨reads, record.writes⟩)
  | getGlobal {m : Memory T} {name : Bytes} {stats : AccessStatistics} :
      Exec rj t m (.getGlobal name stats) m.fetchAddReads (.getCopy name stats)
  | getCopy {m : Memory T} {name : Bytes} {stats : AccessStatistics} {record : ExtendedValueInternal} :
      m.data.lookup name = some record →
      Exec rj t m (.getCopy name stats) m (.getUnlock name (some ⟨record.value.value, stats⟩))
  | getUnlock {m : Memory T} {name : Bytes} {value : Option ExtendedValue} :
      Exec rj t m (.getUnlock name value) { m with protectData := m.protectData.unlock t }
        (.returning (.get name) (.found value))
  -- `initial_set` takes the lock in shared mode although it changes the records
  | initialSetLock {m : Memory T} {name value : Bytes} {l : SharedMutex T} :
      m.protectData.lockShared t = some l →
      Exec rj t m (.initialSetLock name value) { m with protectData := l } (.initialSetFind name value)
  | initialSetFindMiss {m : Memory T} {name value : Bytes} :
      m.data.lookup name = none → Exec rj t m (.initialSetFind name value) m (.initialSetEmplace name value)
  | initialSetFindHit {m : Memory T} {name value : Bytes} {record : ExtendedValueInternal} :
      m.data.lookup name = some record →
      Exec rj t m (.initialSetFind name value) m (.initialSetAssign name value)
  | initialSetEmplace {m : Memory T} {name value : Bytes} :
      Exec rj t m (.initialSetEmplace name value) (m.setData (m.data.emplace name ⟨.ofBytes value, 0, 0⟩))
        (.initialSetUnlock name value)
  | initialSetAssign {m : Memory T} {name value : Bytes} :
      Exec rj t m (.initialSetAssign name value) (m.setData (m.data.assignValue name value))
        (.initialSetUnlock name value)
  | initialSetUnlock {m : Memory T} {name value : Bytes} :
      Exec rj t m (.initialSetUnlock name value) { m with protectData := m.protectData.unlock t }
        (.returning (.initialSet name value) .done)
  | setLock {m : Memory T} {name value : Bytes} {l : SharedMutex T} :
      m.protectData.lock t = some l →
      Exec rj t m (.setLock name value) { m with protectData := l } (.setFind name value)
  | setFindMiss {m : Memory T} {name value : Bytes} :
      m.data.lookup name = none → Exec rj t m (.setFind name value) m (.setEmplace name value)
  | setFindHit {m : Memory T} {name value : Bytes} {record : ExtendedValueInternal} :
      m.data.lookup name = some record → Exec rj t m (.setFind name value) m (.setWrites name value)
  | setEmplace {m : Memory T} {name value : Bytes} :
      Exec rj t m (.setEmplace name value) (m.setData (m.data.emplace name ⟨.ofBytes value, 0, 1⟩))
        (.setGlobal name value)
  | setWrites {m : Memory T} {name value : Bytes} :
      Exec rj t m (.setWrites name value) (m.setData (m.data.fetchAddWrites name)) (.setAssign name value)
  | setAssign {m : Memory T} {name value : Bytes} :
      Exec rj t m (.setAssign name value) (m.setData (m.data.assignValue name value)) (.setGlobal name value)
  | setGlobal {m : Memory T} {name value : Bytes} :
      Exec rj t m (.setGlobal name value) m.fetchAddWrites (.setUnlock name value)
  | setUnlock {m : Memory T} {name value : Bytes} :
      Exec rj t m (.setUnlock name value) { m with protectData := m.protectData.unlock t }
        (.returning (.set name value) .done)
  | enumerateLock {m : Memory T} {visitor : Visitor} {l : SharedMutex T} :
      m.protectData.lockShared t = some l →
      Exec rj t m (.enumerateLock visitor) { m with protectData := l } (.enumerateBegin visitor)
  | enumerateBegin {m : Memory T} {visitor : Visitor} {order : List Bytes} :
      m.data.IterationOrder order →
      Exec rj t m (.enumerateBegin visitor) m (.enumerateNext visitor order)
  | enumerateNext {m : Memory T} {visitor : Visitor} {name : Bytes} {rest : List Bytes}
      {record : ExtendedValueInternal} :
      m.data.lookup name = some record →
      Exec rj t m (.enumerateNext visitor (name :: rest)) m
        (.enumerateNext (visitor.visit name record.value) rest)
  | enumerateEnd {m : Memory T} {visitor : Visitor} :
      Exec rj t m (.enumerateNext visitor []) m (.enumerateUnlock visitor)
  | enumerateReturn {m : Memory T} {items : List (Bytes × Bytes)} :
      Exec rj t m (.enumerateUnlock (.collect items)) { m with protectData := m.protectData.unlock t }
        (.returning .enumerate (.visited items))
  | enumerateStore {m : Memory T} {recordCount : Nat} {document : Document} :
      Exec rj t m (.enumerateUnlock (.addToDocument recordCount document))
        { m with protectData := m.protectData.unlock t } (.saveOpen recordCount document)
  | statisticsReads {m : Memory T} :
      Exec rj t m .statisticsReads m (.statisticsWrites m.engine.reads)
  | statisticsWrites {m : Memory T} {reads : IntegerCounter} :
      Exec rj t m (.statisticsWrites reads) m
        (.returning .getGlobalStatistics (.statistics ⟨reads, m.engine.writes⟩))
  -- opening the file for writing truncates it
  | saveOpen {m : Memory T} {recordCount : Nat} {document : Document} :
      Exec rj t m (.saveOpen recordCount document) { m with file := some [] }
        (.saveMembers recordCount document [])
  -- a dangling reference may show anything
  | saveMember {m : Memory T} {recordCount : Nat} {member : DocumentMember} {rest : Document}
      {written : List (JString × JString)} {value : JString} :
      (∀ v, member.read m.data = some v → value = v) →
      Exec rj t m (.saveMembers recordCount (member :: rest) written) m
        (.saveMembers recordCount rest (written ++ [(member.name, value)]))
  | saveClose {m : Memory T} {recordCount : Nat} {written : List (JString × JString)} :
      Exec rj t m (.saveMembers recordCount [] written)
        { m with file := some (rj.write (.ofStrings written)) }
        (.returning .storeData (.stored recordCount))

inductive Thread
  | idle
  | running (call : Nat) (pc : Pc)
  deriving DecidableEq

/-- The whole system; calls are numbered in the order of their invocations. -/
structure World (T : Type) where
  memory : Memory T
  calls : Nat
  thread : T → Thread

inductive Label (T : Type)
  | invoke (t : T) (call : Nat) (op : Op)
  | exec (t : T) (call : Nat) (pc : Pc)
  | ret (t : T) (call : Nat) (op : Op) (result : Result)
  deriving DecidableEq

inductive Step [Allocator] (rj : RapidJson) : World T → Label T → World T → Prop
  | invoke {w : World T} {t : T} (op : Op) :
      w.thread t = .idle →
      Step rj w (.invoke t w.calls op)
        { w with calls := w.calls + 1, thread := Function.update w.thread t (.running w.calls op.start) }
  | exec {w : World T} {t : T} {call : Nat} {pc pc' : Pc} {m' : Memory T} :
      w.thread t = .running call pc → Exec rj t w.memory pc m' pc' →
      Step rj w (.exec t call pc)
        { w with memory := m', thread := Function.update w.thread t (.running call pc') }
  | ret {w : World T} {t : T} {call : Nat} {op : Op} {result : Result} :
      w.thread t = .running call (.returning op result) →
      Step rj w (.ret t call op result) { w with thread := Function.update w.thread t .idle }

/-- Only calls that are allowed to their thread are invoked. -/
def Label.Calls (allowed : T → Op → Prop) : Label T → Prop
  | .invoke t _ op => allowed t op
  | _ => True

/-- The thread that takes the step. -/
def Label.thread : Label T → T
  | .invoke t _ _ | .exec t _ _ | .ret t _ _ _ => t

theorem Step.thread_of_ne [Allocator] {rj : RapidJson} {w w' : World T} {l : Label T} (hs : Step rj w l w')
    {t : T} (h : t ≠ l.thread) : w'.thread t = w.thread t := by
  cases hs <;> exact Function.update_of_ne h _ _

theorem Step.thread_eq [Allocator] {rj : RapidJson} {w w' : World T} {l : Label T} (hs : Step rj w l w') :
    w'.thread = Function.update w.thread l.thread (w'.thread l.thread) := by
  cases hs <;> simp [Label.thread]

theorem Step.running [Allocator] {rj : RapidJson} {w w' : World T} {t : T} {call : Nat} {pc : Pc}
    (h : Step rj w (.exec t call pc) w') : w.thread t = .running call pc := by
  cases h with
  | exec ht _ => exact ht

theorem Step.invoked [Allocator] {rj : RapidJson} {w w' : World T} {t : T} {call : Nat} {op : Op}
    (h : Step rj w (.invoke t call op) w') : w'.thread t = .running call op.start := by
  cases h with
  | invoke _ _ => exact Function.update_self ..

theorem Step.returning [Allocator] {rj : RapidJson} {w w' : World T} {t : T} {call : Nat} {op : Op} {result : Result}
    (h : Step rj w (.ret t call op result) w') : w.thread t = .running call (.returning op result) := by
  cases h with
  | ret ht => exact ht

/-- A thread that is in no call stays so, unless it begins one. -/
theorem Step.idle [Allocator] {rj : RapidJson} {w w' : World T} {l : Label T} (h : Step rj w l w') {t : T}
    (ht : w.thread t = .idle) (hl : l.Calls fun t' _ => t' ≠ t) : w'.thread t = .idle := by
  have hne : t ≠ l.thread := by
    rintro rfl
    cases h with
    | invoke => exact hl rfl
    | exec hrunning | ret hrunning =>
      rw [Label.thread, hrunning] at ht
      cases ht
  rw [h.thread_of_ne hne]
  exact ht

/-- A call in progress after one thread has moved. -/
theorem update_eq_running {thread : T → Thread} {t t' : T} {th : Thread} {c : Nat} {pc : Pc}
    (h : Function.update thread t th t' = .running c pc) :
    (t' = t ∧ th = .running c pc) ∨ (t' ≠ t ∧ thread t' = .running c pc) := by
  by_cases hne : t' = t
  · subst hne
    rw [Function.update_self] at h
    exact Or.inl ⟨rfl, h⟩
  · rw [Function.update_of_ne hne] at h
    exact Or.inr ⟨hne, h⟩

/-- An engine that no call is using: every thread is idle and the lock is free. -/
def World.start (T : Type) (engine : DataEngine) (file : Option Bytes) : World T where
  memory := { protectData := .free, engine := engine, file := file }
  calls := 0
  thread _ := .idle

theorem Exec.op_eq [Allocator] {rj : RapidJson} {t : T} {m m' : Memory T} {pc pc' : Pc}
    (h : Exec rj t m pc m' pc') : pc'.op = pc.op := by
  cases h with
  | @enumerateNext visitor name rest record hr => cases visitor <;> rfl
  | _ => rfl

@[simp] theorem Op.op_start (op : Op) : op.start.op = op := by cases op <;> rfl

/-- Every call in progress is allowed to its thread. -/
def World.Calls (allowed : T → Op → Prop) (w : World T) : Prop :=
  ∀ t c pc, w.thread t = .running c pc → allowed t pc.op

theorem Step.calls [Allocator] {rj : RapidJson} {w w' : World T} {l : Label T} {allowed : T → Op → Prop}
    (hs : Step rj w l w') (hl : l.Calls allowed) (h : w.Calls allowed) : w'.Calls allowed := by
  intro t c pc hpc
  by_cases ht : t = l.thread
  · subst ht
    cases hs with
    | invoke op _ =>
      simp only [Label.thread, Function.update_self, Thread.running.injEq] at hpc
      obtain ⟨-, rfl⟩ := hpc
      rwa [Op.op_start]
    | exec hrun he =>
      simp only [Label.thread, Function.update_self, Thread.running.injEq] at hpc
      obtain ⟨-, rfl⟩ := hpc
      rw [he.op_eq]
      exact h _ _ _ hrun
    | ret _ => simp [Label.thread] at hpc
  · rw [hs.thread_of_ne ht] at hpc
    exact h t c pc hpc

theorem Run.calls [Allocator] {rj : RapidJson} {good : World T → Label T → Prop} {allowed : T → Op → Prop}
    {engine : DataEngine} {file : Option Bytes} {ls : List (Label T)} {w : World T}
    (hgood : ∀ w l, good w l → l.Calls allowed)
    (h : Run (Restrict (Step rj) good) (World.start T engine file) ls w) : w.Calls allowed := by
  refine Run.invariant (fun _ w => w.Calls allowed) ?_ ?_ h
  · intro t c pc ht
    cases ht
  · rintro _ w l _ hi ⟨hs, hg⟩
    exact hs.calls (hgood w l hg) hi

/-- The operations that run once the file is loaded. -/
def Op.AfterLoading : Op → Prop
  | .initialSet _ _ => False
  | _ => True

/-! ### The lock -/

/-- The mode in which a call holds `m_protectData` at a point. -/
def Pc.hold : Pc → Hold
  | .getFind _ | .getMiss _ | .getReads _ | .getWrites _ _ | .getGlobal _ _ | .getCopy _ _ | .getUnlock _ _
  | .initialSetFind _ _ | .initialSetEmplace _ _ | .initialSetAssign _ _ | .initialSetUnlock _ _
  | .enumerateBegin _ | .enumerateNext _ _ | .enumerateUnlock _ => .shared
  | .setFind _ _ | .setEmplace _ _ | .setWrites _ _ | .setAssign _ _ | .setGlobal _ _ | .setUnlock _ _ =>
    .exclusive
  | _ => .none

def Thread.hold : Thread → Hold
  | .idle => .none
  | .running _ pc => pc.hold

@[simp] theorem Op.hold_start (op : Op) : op.start.hold = .none := by cases op <;> rfl

theorem hold_update (thread : T → Thread) (t : T) (th : Thread) :
    (fun t' => (Function.update thread t th t').hold) =
      Function.update (fun t' => (thread t').hold) t th.hold := by
  funext t'
  by_cases h : t' = t
  · subst h; simp
  · simp [h]

/-- A point changes what its thread holds exactly as it should. -/
theorem Exec.agrees [Allocator] {rj : RapidJson} {t : T} {m m' : Memory T} {pc pc' : Pc} (h : Exec rj t m pc m' pc')
    {mode : T → Hold} (hm : m.protectData.Agrees mode) (ht : mode t = pc.hold) :
    m'.protectData.Agrees (Function.update mode t pc'.hold) := by
  cases h with
  | getLock hl | initialSetLock hl | enumerateLock hl => exact hm.lockShared hl
  | setLock hl => exact hm.lock hl
  | getUnlock | initialSetUnlock | setUnlock | enumerateReturn | enumerateStore =>
    exact hm.unlock (by rw [ht]; simp [Pc.hold])
  | _ => exact hm.update_same ht.symm

/-- In every reachable state the lock is held by the calls that are between taking it and giving it back. -/
def World.LockAgrees (w : World T) : Prop := w.memory.protectData.Agrees fun t => (w.thread t).hold

theorem World.lockAgrees_start (engine : DataEngine) (file : Option Bytes) :
    (World.start T engine file).LockAgrees := SharedMutex.Agrees.free

theorem Step.lockAgrees [Allocator] {rj : RapidJson} {w w' : World T} {l : Label T} (hs : Step rj w l w')
    (h : w.LockAgrees) : w'.LockAgrees := by
  unfold World.LockAgrees at h ⊢
  cases hs with
  | @invoke t op ht =>
    rw [hold_update]
    exact h.update_same (by simp [Thread.hold, ht])
  | @exec t call pc pc' m' ht he =>
    rw [hold_update]
    exact he.agrees h (by simp [Thread.hold, ht])
  | @ret t call op result ht =>
    rw [hold_update]
    exact h.update_same (by simp [Thread.hold, Pc.hold, ht])

/-- The lock is held as it should be in every state of a run from an idle engine. -/
theorem Run.lockAgrees [Allocator] {rj : RapidJson} {engine : DataEngine} {file : Option Bytes}
    {ls : List (Label T)} {w : World T} (h : Run (Step rj) (World.start T engine file) ls w) : w.LockAgrees :=
  Run.invariant (fun _ w => w.LockAgrees) (World.lockAgrees_start engine file) (fun hi hs => hs.lockAgrees hi) h

theorem World.LockAgrees.hold_eq {w : World T} (h : w.LockAgrees) (t : T) :
    w.memory.protectData.hold t = (w.thread t).hold := h t

/-- Where a call holds the lock exclusively, every other thread holds nothing. -/
theorem World.LockAgrees.alone {w : World T} (h : w.LockAgrees) {t t' : T}
    (ht : (w.thread t).hold = .exclusive) (hne : t' ≠ t) : (w.thread t').hold = .none :=
  SharedMutex.Agrees.exclusive_alone h ht hne

/-! ### What a call changes -/

/-- Two states of the records that differ in read counters only. -/
def SameValues (data data' : DataCollection) : Prop :=
  ∀ name, (data'.lookup name).map (fun record => (record.value, record.writes)) =
    (data.lookup name).map fun record => (record.value, record.writes)

theorem SameValues.value {data data' : DataCollection} (h : SameValues data data') (name : Bytes) :
    (data'.lookup name).map (fun record => record.value) = (data.lookup name).map fun record => record.value := by
  have := congrArg (Option.map Prod.fst) (h name)
  simpa [Function.comp_def] using this

theorem SameValues.valueOf {data data' : DataCollection} (h : SameValues data data') (name : Bytes) :
    data'.valueOf name = data.valueOf name := by
  have := congrArg (Option.map StdString.value) (h.value name)
  simpa [DataCollection.valueOf, Function.comp_def] using this

theorem sameValues_fetchAddReads (data : DataCollection) (name : Bytes) :
    SameValues data (data.fetchAddReads name) := by
  intro k
  rw [DataCollection.lookup_fetchAddReads]
  split
  · cases data.lookup k <;> rfl
  · rfl

/-- A call that does not hold the lock exclusively changes read counters only. -/
theorem Exec.sameValues [Allocator] {rj : RapidJson} {t : T} {m m' : Memory T} {pc pc' : Pc}
    (h : Exec rj t m pc m' pc') (hop : pc.op.AfterLoading) (hx : pc.hold ≠ .exclusive) :
    SameValues m.data m'.data := by
  cases h with
  | getReads _ => exact sameValues_fetchAddReads _ _
  | initialSetEmplace | initialSetAssign => exact hop.elim
  | setEmplace | setWrites | setAssign => exact absurd rfl hx
  | _ => exact fun _ => rfl

/-! ### What a call knows of the records -/

/-- The visitor has not been called yet. -/
def Visitor.Unused : Visitor → Prop
  | .collect items => items = []
  | .addToDocument recordCount document => recordCount = 0 ∧ document = []

/-- What the search of a call found holds until the call has used it; an enumeration begins with a visitor that has
seen nothing. -/
def Pc.Knows (data : DataCollection) : Pc → Prop
  | .getReads name | .getWrites name _ | .getGlobal name _ | .getCopy name _ | .setWrites name _
  | .setAssign name _ => name ∈ data
  | .setEmplace name _ => name ∉ data
  | .enumerateLock visitor | .enumerateBegin visitor => visitor.Unused
  | _ => True

/-- No operation removes a record. -/
theorem Exec.mem_data [Allocator] {rj : RapidJson} {t : T} {m m' : Memory T} {pc pc' : Pc}
    (h : Exec rj t m pc m' pc') (name : Bytes) (hn : name ∈ m.data) : name ∈ m'.data := by
  rw [← Finmap.lookup_isSome] at hn ⊢
  cases h with
  | @getReads n record hr =>
    show ((m.data.fetchAddReads n).lookup name).isSome
    rw [DataCollection.lookup_fetchAddReads]
    split <;> simp [hn]
  | @setWrites n =>
    show ((m.data.fetchAddWrites n).lookup name).isSome
    rw [DataCollection.lookup_fetchAddWrites]
    split <;> simp [hn]
  | @setAssign n v | @initialSetAssign n v =>
    show ((m.data.assignValue n v).lookup name).isSome
    rw [DataCollection.lookup_assignValue]
    split <;> simp [hn]
  | @setEmplace n v | @initialSetEmplace n v =>
    show ((m.data.emplace n _).lookup name).isSome
    rw [DataCollection.lookup_emplace]
    split
    · rfl
    · exact hn
  | _ => exact hn

/-- Outside the lock a call does not change the records. -/
theorem Exec.data_of_hold_none [Allocator] {rj : RapidJson} {t : T} {m m' : Memory T} {pc pc' : Pc}
    (h : Exec rj t m pc m' pc') (hh : pc.hold = .none) : m'.data = m.data := by
  cases h <;> first | rfl | cases hh

theorem Exec.knows [Allocator] {rj : RapidJson} {t : T} {m m' : Memory T} {pc pc' : Pc}
    (h : Exec rj t m pc m' pc') (hk : pc.Knows m.data) : pc'.Knows m'.data := by
  have hmem := h.mem_data
  cases h with
  | getFindMiss hn | initialSetFindMiss hn | setFindMiss hn =>
    first | exact trivial | exact Finmap.lookup_eq_none.1 hn
  | getFindHit hn | initialSetFindHit hn | setFindHit hn =>
    first | exact trivial | exact Finmap.mem_of_lookup_eq_some hn
  | getReads hn | getWrites hn => exact hmem _ hk
  | getGlobal | setWrites => exact hmem _ hk
  | enumerateLock => exact hk
  | _ => exact trivial

def World.Knows (w : World T) : Prop := ∀ t c pc, w.thread t = .running c pc → pc.Knows w.memory.data

theorem Step.knows [Allocator] {rj : RapidJson} {w w' : World T} {l : Label T} (hs : Step rj w l w')
    (hl : w.LockAgrees) (h : w.Knows) : w'.Knows := by
  intro t c pc hpc
  by_cases ht : t = l.thread
  · subst ht
    cases hs with
    | invoke op _ =>
      simp only [Label.thread, Function.update_self, Thread.running.injEq] at hpc
      obtain ⟨-, rfl⟩ := hpc
      cases op with
      | enumerate => exact rfl
      | storeData => exact ⟨rfl, rfl⟩
      | _ => exact trivial
    | ret _ => simp [Label.thread] at hpc
    | exec hrun he =>
      simp only [Label.thread, Function.update_self, Thread.running.injEq] at hpc
      obtain ⟨-, rfl⟩ := hpc
      exact he.knows (h _ _ _ hrun)
  · rw [hs.thread_of_ne ht] at hpc
    have hkn := h t c pc hpc
    cases hs with
    | invoke | ret => exact hkn
    | @exec t₁ c₁ pc₁ pc₁' m' hrun he =>
      have hmem := he.mem_data
      cases pc with
      | setEmplace name value =>
        -- its thread holds the lock exclusively, so the moving one is outside
        have hhold : (w.thread t).hold = .exclusive := by rw [hpc]; rfl
        have hout : (w.thread t₁).hold = .none := hl.alone hhold (Ne.symm ht)
        rw [hrun] at hout
        show name ∉ m'.data
        rw [he.data_of_hold_none hout]
        exact hkn
      | getReads | getWrites | getGlobal | getCopy | setWrites | setAssign => exact hmem _ hkn
      | enumerateLock | enumerateBegin => exact hkn
      | _ => exact trivial

omit [DecidableEq T] in
theorem World.knows_start (engine : DataEngine) (file : Option Bytes) : (World.start T engine file).Knows := by
  intro t c pc ht
  cases ht

theorem Run.knows [Allocator] {rj : RapidJson} {engine : DataEngine} {file : Option Bytes}
    {ls : List (Label T)} {w : World T} (h : Run (Step rj) (World.start T engine file) ls w) : w.Knows := by
  have hinv : w.LockAgrees ∧ w.Knows := by
    refine Run.invariant (fun _ w => w.LockAgrees ∧ w.Knows) ?_ ?_ h
    · exact ⟨World.lockAgrees_start engine file, World.knows_start engine file⟩
    · intro _ _ _ _ hi hs
      exact ⟨hs.lockAgrees hi.1, hs.knows hi.1 hi.2⟩
  exact hinv.2

end KeyValueServer
