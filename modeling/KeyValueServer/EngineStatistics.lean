import KeyValueServer.EngineThreads
import KeyValueServer.JsonText
import KeyValueServer.Concurrency.Counting

/-!
# Conservation of the statistics

Every access is counted twice, in the counter of its record and in the global counter, by two separate atomic
steps.  Between the two the call owes the global counter one (`Pc.owesWrite`, `Pc.owesRead`), and with what is
owed added the global counters always agree with the counters of the records (`statistics_conserved`).  A `get`
that finds nothing counts globally only.  All sums are modulo 2^64.
-/

namespace KeyValueServer

open Concurrency

/-- The write is counted in its record (or with the record it inserted), but not globally yet. -/
def Pc.owesWrite : Pc → Bool
  | .setAssign _ _ | .setGlobal _ _ => true
  | _ => false

/-- The read is counted in its record, but not globally yet. -/
def Pc.owesRead : Pc → Bool
  | .getWrites _ _ | .getGlobal _ _ => true
  | _ => false

/-- A `get` that is not counted globally yet. -/
def Pc.uncountedGet : Pc → Bool
  | .getLock _ | .getFind _ | .getMiss _ | .getReads _ | .getWrites _ _ | .getGlobal _ _ => true
  | _ => false

/-- A `set` that is not counted globally yet. -/
def Pc.uncountedSet : Pc → Bool
  | .setLock _ _ | .setFind _ _ | .setEmplace _ _ | .setWrites _ _ | .setAssign _ _ | .setGlobal _ _ => true
  | _ => false

def Thread.is (p : Pc → Bool) : Thread → Bool
  | .idle => false
  | .running _ pc => p pc

/-- The global count of a `get` that found nothing. -/
def Label.isMiss {T : Type} : Label T → Bool
  | .exec _ _ (.getMiss _) => true
  | _ => false

def Label.isGetCall {T : Type} : Label T → Bool
  | .invoke _ _ (.get _) => true
  | _ => false

def Label.isSetCall {T : Type} : Label T → Bool
  | .invoke _ _ (.set _ _) => true
  | _ => false

namespace DataCollection

/-- The sum of the `m_reads` of all records. -/
def totalReads (data : DataCollection) : IntegerCounter := total (fun record => record.reads) data

/-- The sum of the `m_writes` of all records. -/
def totalWrites (data : DataCollection) : IntegerCounter := total (fun record => record.writes) data

variable {data : DataCollection} {name : Bytes} {f : ExtendedValueInternal → IntegerCounter}
  {g : ExtendedValueInternal → ExtendedValueInternal}

theorem total_modify_same (hg : ∀ record, f (g record) = f record) :
    total f (data.modify name g) = total f data := by
  unfold modify
  cases h : data.lookup name with
  | none => rfl
  | some record =>
    show total f (data.insert name (g record)) = total f data
    rw [total_insert_of_lookup f h, hg record]
    abel

theorem total_modify_succ (hn : name ∈ data) (hg : ∀ record, f (g record) = f record + 1) :
    total f (data.modify name g) = total f data + 1 := by
  obtain ⟨record, h⟩ := Finmap.mem_iff.1 hn
  unfold modify
  rw [h]
  show total f (data.insert name (g record)) = total f data + 1
  rw [total_insert_of_lookup f h, hg record]
  abel

theorem total_emplace (hn : name ∉ data) (extended : ExtendedValueInternal) :
    total f (data.emplace name extended) = total f data + f extended := by
  unfold emplace
  rw [Finmap.lookup_eq_none.2 hn]
  exact total_insert_of_notMem f hn

/-- A record that counts nothing does not change the total, whether it is inserted or not. -/
theorem total_emplace_zero {extended : ExtendedValueInternal} (hf : f extended = 0) :
    total f (data.emplace name extended) = total f data := by
  by_cases hn : name ∈ data
  · obtain ⟨record, h⟩ := Finmap.mem_iff.1 hn
    simp [emplace, h]
  · rw [total_emplace hn, hf]
    abel

end DataCollection

open DataCollection

section Balance

variable {T : Type} [DecidableEq T] [Allocator]

/-- Every point keeps the balance of the write counters: what it adds to the records, the global counter and its
own debt agree. -/
theorem Exec.writes_balance {rj : RapidJson} {t : T} {m m' : Memory T} {pc pc' : Pc} (h : Exec rj t m pc m' pc')
    (hk : pc.Knows m.data) :
    m'.engine.writes + .ofNat pc'.owesWrite.toNat + m.data.totalWrites =
      m.engine.writes + .ofNat pc.owesWrite.toNat + m'.data.totalWrites := by
  cases h with
  | @getReads name record hr =>
    have : (m.data.fetchAddReads name).totalWrites = m.data.totalWrites := total_modify_same fun _ => rfl
    show m.engine.writes + 0 + m.data.totalWrites = m.engine.writes + 0 + (m.data.fetchAddReads name).totalWrites
    rw [this]
  | @initialSetEmplace name value =>
    have : (m.data.emplace name ⟨.ofBytes value, 0, 0⟩).totalWrites = m.data.totalWrites := total_emplace_zero rfl
    show m.engine.writes + 0 + m.data.totalWrites = m.engine.writes + 0 + (m.data.emplace name _).totalWrites
    rw [this]
  | @initialSetAssign name value =>
    have : (m.data.assignValue name value).totalWrites = m.data.totalWrites := total_modify_same fun _ => rfl
    show m.engine.writes + 0 + m.data.totalWrites = m.engine.writes + 0 + (m.data.assignValue name value).totalWrites
    rw [this]
  | @setEmplace name value =>
    have : (m.data.emplace name ⟨.ofBytes value, 0, 1⟩).totalWrites = m.data.totalWrites + 1 := total_emplace hk _
    show m.engine.writes + 1 + m.data.totalWrites = m.engine.writes + 0 + (m.data.emplace name _).totalWrites
    rw [this]
    grind
  | @setWrites name value =>
    have : (m.data.fetchAddWrites name).totalWrites = m.data.totalWrites + 1 := total_modify_succ hk fun _ => rfl
    show m.engine.writes + 1 + m.data.totalWrites = m.engine.writes + 0 + (m.data.fetchAddWrites name).totalWrites
    rw [this]
    grind
  | @setAssign name value =>
    have : (m.data.assignValue name value).totalWrites = m.data.totalWrites := total_modify_same fun _ => rfl
    show m.engine.writes + 1 + m.data.totalWrites = m.engine.writes + 1 + (m.data.assignValue name value).totalWrites
    rw [this]
  | @setGlobal name value =>
    show m.engine.writes + 1 + 0 + m.data.totalWrites = m.engine.writes + 1 + m.data.totalWrites
    grind
  | _ => rfl

/-- The same for the read counters; a miss adds to the global counter only. -/
theorem Exec.reads_balance {rj : RapidJson} {t : T} {m m' : Memory T} {pc pc' : Pc} (h : Exec rj t m pc m' pc')
    (hk : pc.Knows m.data) (c : Nat) :
    m'.engine.reads + .ofNat pc'.owesRead.toNat + m.data.totalReads =
      m.engine.reads + .ofNat pc.owesRead.toNat + m'.data.totalReads +
        .ofNat (Label.exec t c pc).isMiss.toNat := by
  cases h with
  | @getMiss name =>
    show m.engine.reads + 1 + 0 + m.data.totalReads = m.engine.reads + 0 + m.data.totalReads + 1
    grind
  | @getReads name record hr =>
    have : (m.data.fetchAddReads name).totalReads = m.data.totalReads + 1 := total_modify_succ hk fun _ => rfl
    show m.engine.reads + 1 + m.data.totalReads = m.engine.reads + 0 + (m.data.fetchAddReads name).totalReads + 0
    rw [this]
    grind
  | @getGlobal name stats =>
    show m.engine.reads + 1 + 0 + m.data.totalReads = m.engine.reads + 1 + m.data.totalReads + 0
    grind
  | @initialSetEmplace name value =>
    have : (m.data.emplace name ⟨.ofBytes value, 0, 0⟩).totalReads = m.data.totalReads := total_emplace_zero rfl
    show m.engine.reads + 0 + m.data.totalReads = m.engine.reads + 0 + (m.data.emplace name _).totalReads + 0
    rw [this]
    grind
  | @setEmplace name value =>
    have : (m.data.emplace name ⟨.ofBytes value, 0, 1⟩).totalReads = m.data.totalReads := total_emplace_zero rfl
    show m.engine.reads + 0 + m.data.totalReads = m.engine.reads + 0 + (m.data.emplace name _).totalReads + 0
    rw [this]
    grind
  | @setWrites name value =>
    have : (m.data.fetchAddWrites name).totalReads = m.data.totalReads := total_modify_same fun _ => rfl
    show m.engine.reads + 0 + m.data.totalReads = m.engine.reads + 0 + (m.data.fetchAddWrites name).totalReads + 0
    rw [this]
    grind
  | @setAssign name value | @initialSetAssign name value =>
    have : (m.data.assignValue name value).totalReads = m.data.totalReads := total_modify_same fun _ => rfl
    show m.engine.reads + 0 + m.data.totalReads = m.engine.reads + 0 + (m.data.assignValue name value).totalReads + 0
    rw [this]
    grind
  | _ => exact (UInt64.add_zero _).symm

/-- A point counts globally exactly when its `get` stops being uncounted. -/
theorem Exec.gets_balance {rj : RapidJson} {t : T} {m m' : Memory T} {pc pc' : Pc} (h : Exec rj t m pc m' pc') :
    m'.engine.reads + .ofNat pc'.uncountedGet.toNat = m.engine.reads + .ofNat pc.uncountedGet.toNat := by
  cases h with
  | getMiss | getGlobal =>
    show m.engine.reads + 1 + 0 = m.engine.reads + 1
    grind
  | _ => rfl

theorem Exec.sets_balance {rj : RapidJson} {t : T} {m m' : Memory T} {pc pc' : Pc} (h : Exec rj t m pc m' pc') :
    m'.engine.writes + .ofNat pc'.uncountedSet.toNat = m.engine.writes + .ofNat pc.uncountedSet.toNat := by
  cases h with
  | setGlobal =>
    show m.engine.writes + 1 + 0 = m.engine.writes + 1
    grind
  | _ => rfl

/-! ### Runs -/

theorem Step.writes_balance {rj : RapidJson} {w w' : World T} {l : Label T} (hs : Step rj w l w')
    (hk : w.Knows) :
    w'.memory.engine.writes + .ofNat ((w'.thread l.thread).is Pc.owesWrite).toNat + w.memory.data.totalWrites =
      w.memory.engine.writes + .ofNat ((w.thread l.thread).is Pc.owesWrite).toNat +
        w'.memory.data.totalWrites := by
  cases hs with
  | invoke op ht =>
    have hstart : op.start.owesWrite = false := by cases op <;> rfl
    simp [Label.thread, Thread.is, ht, hstart]
  | ret ht => simp [Label.thread, Thread.is, ht, Pc.owesWrite]
  | exec ht he => simpa [Label.thread, Thread.is, ht] using he.writes_balance (hk _ _ _ ht)

theorem Step.reads_balance {rj : RapidJson} {w w' : World T} {l : Label T} (hs : Step rj w l w')
    (hk : w.Knows) :
    w'.memory.engine.reads + .ofNat ((w'.thread l.thread).is Pc.owesRead).toNat + w.memory.data.totalReads =
      w.memory.engine.reads + .ofNat ((w.thread l.thread).is Pc.owesRead).toNat + w'.memory.data.totalReads +
        .ofNat l.isMiss.toNat := by
  cases hs with
  | invoke op ht =>
    have hstart : op.start.owesRead = false := by cases op <;> rfl
    simp [Label.thread, Thread.is, ht, hstart, Label.isMiss]
  | ret ht => simp [Label.thread, Thread.is, ht, Pc.owesRead, Label.isMiss]
  | exec ht he => simpa [Label.thread, Thread.is, ht] using he.reads_balance (hk _ _ _ ht) _

theorem Step.gets_balance {rj : RapidJson} {w w' : World T} {l : Label T} (hs : Step rj w l w') :
    w'.memory.engine.reads + .ofNat ((w'.thread l.thread).is Pc.uncountedGet).toNat =
      w.memory.engine.reads + .ofNat ((w.thread l.thread).is Pc.uncountedGet).toNat +
        .ofNat l.isGetCall.toNat := by
  cases hs with
  | @invoke t op ht =>
    have hstart : op.start.uncountedGet = (Label.invoke t w.calls op).isGetCall := by cases op <;> rfl
    simp [Label.thread, Thread.is, ht, hstart]
  | ret ht => simp [Label.thread, Thread.is, ht, Pc.uncountedGet, Label.isGetCall]
  | exec ht he => simpa [Label.thread, Thread.is, ht, Label.isGetCall] using he.gets_balance

theorem Step.sets_balance {rj : RapidJson} {w w' : World T} {l : Label T} (hs : Step rj w l w') :
    w'.memory.engine.writes + .ofNat ((w'.thread l.thread).is Pc.uncountedSet).toNat =
      w.memory.engine.writes + .ofNat ((w.thread l.thread).is Pc.uncountedSet).toNat +
        .ofNat l.isSetCall.toNat := by
  cases hs with
  | @invoke t op ht =>
    have hstart : op.start.uncountedSet = (Label.invoke t w.calls op).isSetCall := by cases op <;> rfl
    simp [Label.thread, Thread.is, ht, hstart]
  | ret ht => simp [Label.thread, Thread.is, ht, Pc.uncountedSet, Label.isSetCall]
  | exec ht he => simpa [Label.thread, Thread.is, ht, Label.isSetCall] using he.sets_balance

omit [DecidableEq T] [Allocator] in
theorem countP_concat (ls : List (Label T)) (l : Label T) (p : Label T → Bool) :
    UInt64.ofNat ((ls ++ [l]).countP p) = .ofNat (ls.countP p) + .ofNat (p l).toNat := by
  rw [List.countP_append, UInt64.ofNat_add]
  cases h : p l <;> simp [h]

variable [Fintype T]

/-- How many threads are at a point with the property `p`. -/
def World.count (w : World T) (p : Pc → Bool) : Nat := countThreads w.thread (Thread.is p)

/-- The balances of the counters, after the steps of `ls`. -/
structure World.Balanced (ls : List (Label T)) (w : World T) : Prop where
  writes : w.memory.engine.writes + .ofNat (w.count Pc.owesWrite) = w.memory.data.totalWrites
  reads : w.memory.engine.reads + .ofNat (w.count Pc.owesRead) =
    w.memory.data.totalReads + .ofNat (ls.countP Label.isMiss)
  gets : w.memory.engine.reads + .ofNat (w.count Pc.uncountedGet) = .ofNat (ls.countP Label.isGetCall)
  sets : w.memory.engine.writes + .ofNat (w.count Pc.uncountedSet) = .ofNat (ls.countP Label.isSetCall)

theorem Step.count {rj : RapidJson} {w w' : World T} {l : Label T} (hs : Step rj w l w') (p : Pc → Bool) :
    UInt64.ofNat (w'.count p) + .ofNat ((w.thread l.thread).is p).toNat =
      .ofNat (w.count p) + .ofNat ((w'.thread l.thread).is p).toNat := by
  rw [← UInt64.ofNat_add, ← UInt64.ofNat_add, World.count, hs.thread_eq, countThreads_update, World.count,
    Function.update_self]

theorem Step.balanced {rj : RapidJson} {w w' : World T} {l : Label T} {ls : List (Label T)}
    (hs : Step rj w l w') (hk : w.Knows) (h : w.Balanced ls) : w'.Balanced (ls ++ [l]) := by
  obtain ⟨hw, hr, hg, hset⟩ := h
  constructor
  · have hc := hs.count Pc.owesWrite
    have hb := hs.writes_balance hk
    grind
  · have hc := hs.count Pc.owesRead
    have hb := hs.reads_balance hk
    rw [countP_concat]
    grind
  · have hc := hs.count Pc.uncountedGet
    have hb := hs.gets_balance
    rw [countP_concat]
    grind
  · have hc := hs.count Pc.uncountedSet
    have hb := hs.sets_balance
    rw [countP_concat]
    grind

omit [DecidableEq T] in
theorem balanced_start (records : List (Bytes × Bytes)) (file : Option Bytes) :
    (World.start T (.load records) file).Balanced [] := by
  obtain ⟨hr, hw, hrec⟩ := DataEngine.load_statistics records
  have hzero : ∀ p, (World.start T (.load records) file).count p = 0 := fun p =>
    countThreads_eq_zero fun _ => rfl
  have hdata : (World.start T (.load records) file).memory.data = (DataEngine.load records).data := rfl
  have hengine : (World.start T (.load records) file).memory.engine = .load records := rfl
  refine ⟨?_, ?_, ?_, ?_⟩
  · rw [hzero, hengine, hw, hdata, totalWrites, total_eq_zero _ fun k b hb => (hrec k b hb).2]
    rfl
  · rw [hzero, hengine, hr, hdata, totalReads, total_eq_zero _ fun k b hb => (hrec k b hb).1]
    rfl
  · rw [hzero, hengine, hr]
    rfl
  · rw [hzero, hengine, hw]
    rfl

theorem Run.balanced {rj : RapidJson} {records : List (Bytes × Bytes)} {file : Option Bytes} {ls : List (Label T)}
    {w : World T} (h : Run (Step rj) (World.start T (.load records) file) ls w) : w.Balanced ls := by
  have hinv : w.LockAgrees ∧ w.Knows ∧ w.Balanced ls := by
    refine Run.invariant (fun ls w => w.LockAgrees ∧ w.Knows ∧ w.Balanced ls) ?_ ?_ h
    · exact ⟨World.lockAgrees_start _ file, World.knows_start _ file, balanced_start records file⟩
    · intro _ _ _ _ hi hs
      exact ⟨hs.lockAgrees hi.1, hs.knows hi.1 hi.2.1, hs.balanced hi.2.1 hi.2.2⟩
  exact hinv.2.2

omit [DecidableEq T] [Allocator] in
theorem World.count_of_idle {w : World T} (h : ∀ t, w.thread t = .idle) (p : Pc → Bool) : w.count p = 0 :=
  countThreads_eq_zero fun t => by rw [h t]; rfl

/-- In every reachable state the global counters, with what the calls in flight still owe them, agree with the
counters of the records and the misses; when no call is in flight, the global writes are the sum of the records'
writes and the global reads are the calls of `get`. -/
theorem statistics_conserved {rj : RapidJson} {records : List (Bytes × Bytes)} {file : Option Bytes}
    {ls : List (Label T)} {w : World T} (h : Run (Step rj) (World.start T (.load records) file) ls w) :
    w.memory.engine.writes + .ofNat (w.count Pc.owesWrite) = w.memory.data.totalWrites ∧
    w.memory.engine.reads + .ofNat (w.count Pc.owesRead) =
      w.memory.data.totalReads + .ofNat (ls.countP Label.isMiss) ∧
    ((∀ t, w.thread t = .idle) → w.memory.engine.writes = w.memory.data.totalWrites ∧
      w.memory.engine.reads = .ofNat (ls.countP Label.isGetCall)) := by
  obtain ⟨hw, hr, hg, -⟩ := Run.balanced h
  refine ⟨hw, hr, fun hidle => ?_⟩
  rw [w.count_of_idle hidle] at hw hg
  exact ⟨(UInt64.add_zero _).symm.trans hw, (UInt64.add_zero _).symm.trans hg⟩

end Balance

section Runs

attribute [local instance] Allocator.exact

/-- A `get` of a loaded record that is counted in the record and not yet globally, beside an idle thread. -/
theorem statistics_conserved_in_flight : ∃ (ls : List (Label Bool)) (w : World Bool),
    Run (Step JsonText.library) (World.start Bool (.load [(ascii "a", ascii "1")]) none) ls w ∧
      w.count Pc.owesRead = 1 ∧ w.memory.data.totalReads = 1 ∧ w.memory.engine.reads = 0 ∧
      w.memory.engine.reads + .ofNat (w.count Pc.owesRead) =
        w.memory.data.totalReads + .ofNat (ls.countP Label.isMiss) := by
  have h₀ : Run (Step JsonText.library) (World.start Bool (.load [(ascii "a", ascii "1")]) none) [] _ := .nil
  have h₁ := h₀.snoc (.invoke (t := false) (.get (ascii "a")) rfl)
  have h₂ := h₁.snoc (.exec (t := false) rfl (.getLock rfl))
  have h₃ := h₂.snoc (.exec (t := false) rfl (.getFindHit rfl))
  have h₄ := h₃.snoc (.exec (t := false) rfl (.getReads rfl))
  exact ⟨_, _, h₄, by decide, by decide, rfl, (statistics_conserved h₄).2.1⟩

end Runs

end KeyValueServer
