import KeyValueServer.Concurrency.Linearizability
import KeyValueServer.EngineThreads
import KeyValueServer.RecordHistory

/-!
# The engine is linearizable

Once the file is loaded (no more `initial_set`), the calls of all threads can be ordered in one sequence that
respects real time and in which every result is the one the operations give when they run one after the other
(`Spec`).  The order is built along the run: a `set` takes its place when it takes the lock, a `get` when it counts
its read (or finds nothing), and an enumeration when it fixes its order (`Pc.committed`).  Between taking the lock
and giving it back a `set` may have changed the records in part only; the sequential state is then the one in which
it is finished (`Pc.finish`).
-/

namespace KeyValueServer

open Concurrency

/-- The names and values of the records, in the given order. -/
def visitAll (data : DataCollection) (names : List Bytes) : List (Bytes × Bytes) :=
  names.filterMap fun name => (data.valueOf name).map (name, ·)

section Spec

variable [Allocator]

/-- One operation run alone on the records. -/
def Spec (data : DataCollection) : Op → Result → DataCollection → Prop
  | .get name, .found value, data' => data.get name = (value, data')
  | .set name value, .done, data' => data' = data.set name value
  | .enumerate, .visited items, data' =>
    data' = data ∧ ∃ order, data.IterationOrder order ∧ items = visitAll data order
  | .getGlobalStatistics, .statistics _, data' => data' = data
  | .storeData, .stored _, data' => data' = data
  | _, _, _ => False

/-- What remains to be done to the records by a call that holds the lock. -/
def Pc.finish (data : DataCollection) : Pc → DataCollection
  | .setFind name value | .setEmplace name value | .setWrites name value => data.set name value
  | .setAssign name value => data.assignValue name value
  | _ => data

end Spec

/-- The result that a call is going to return, from the point on where it has taken its place in the order. -/
def Pc.committed (data : DataCollection) : Pc → Option Result
  | .getMiss _ => some (.found none)
  | .getWrites name reads =>
    (data.lookup name).map fun record => .found (some ⟨record.value.value, ⟨reads, record.writes⟩⟩)
  | .getGlobal name stats | .getCopy name stats =>
    (data.lookup name).map fun record => .found (some ⟨record.value.value, stats⟩)
  | .getUnlock _ value => some (.found value)
  | .setFind _ _ | .setEmplace _ _ | .setWrites _ _ | .setAssign _ _ | .setGlobal _ _ | .setUnlock _ _ => some .done
  | .enumerateNext (.collect items) rest => some (.visited (items ++ visitAll data rest))
  | .enumerateUnlock (.collect items) => some (.visited items)
  | .returning _ result => some result
  | _ => none

/-! ### What one point does -/

theorem Pc.committed_congr {data data' : DataCollection} (h : SameValues data data') (pc : Pc) :
    pc.committed data' = pc.committed data := by
  cases pc with
  | getWrites name reads =>
    have := congrArg (Option.map fun p : StdString × IntegerCounter =>
      Result.found (some ⟨p.1.value, ⟨reads, p.2⟩⟩)) (h name)
    simpa [committed, Function.comp_def] using this
  | getGlobal name stats | getCopy name stats =>
    have := congrArg (Option.map fun p : StdString × IntegerCounter => Result.found (some ⟨p.1.value, stats⟩)) (h name)
    simpa [committed, Function.comp_def] using this
  | enumerateNext visitor rest =>
    cases visitor with
    | collect items => simp only [committed, visitAll, h.valueOf]
    | addToDocument n document => rfl
  | enumerateUnlock visitor => cases visitor <;> rfl
  | _ => rfl

/-- Outside the lock, what is committed does not depend on the records. -/
theorem Pc.committed_of_hold_none {pc : Pc} (h : pc.hold = .none) (data data' : DataCollection) :
    pc.committed data' = pc.committed data := by
  cases pc <;> first | rfl | cases h

variable {T : Type} [DecidableEq T] [Allocator]

theorem Pc.finish_of_not_exclusive {pc : Pc} (h : pc.hold ≠ .exclusive) (data : DataCollection) :
    pc.finish data = data := by
  cases pc <;> first | rfl | exact absurd rfl h

/-- The write that takes its place at a point. -/
def Pc.setPlaced : Pc → Option (Bytes × Bytes)
  | .setLock name value => some (name, value)
  | _ => none

/-- The record whose read is counted at a point. -/
def Pc.hitPlaced : Pc → Option Bytes
  | .getReads name => some name
  | _ => none

def setOf : Op → Option (Bytes × Bytes)
  | .set name value => some (name, value)
  | _ => none

def hitOf : Op → Result → Option Bytes
  | .get name, .found (some _) => some name
  | _, _ => none

/-- The sequential state and what is committed stay as they are. -/
structure Stays (data data' : DataCollection) (pc pc' : Pc) : Prop where
  committed : pc'.committed data' = pc.committed data
  finish : pc'.finish data' = pc.finish data
  set : pc.setPlaced = none
  hit : pc.hitPlaced = none

/-- The call takes its place in the order at this point, with its result. -/
structure Commits (data data' : DataCollection) (pc pc' : Pc) (result : Result) : Prop where
  before : pc.committed data = none
  after : pc'.committed data' = some result
  spec : Spec (pc.finish data) pc.op result (pc'.finish data')
  set : setOf pc.op = pc.setPlaced
  hit : hitOf pc.op result = pc.hitPlaced

theorem Exec.commits {rj : RapidJson} {t : T} {m m' : Memory T} {pc pc' : Pc} (h : Exec rj t m pc m' pc')
    (hop : pc.op.AfterLoading) (hk : pc.Knows m.data) :
    Stays m.data m'.data pc pc' ∨ ∃ result, Commits m.data m'.data pc pc' result := by
  cases h with
  | @getFindMiss name hn =>
    right
    exact ⟨_, rfl, rfl, by simp [Spec, Pc.op, Pc.finish, DataCollection.get, hn], rfl, rfl⟩
  | @getReads name record hr =>
    right
    refine ⟨.found (some ⟨record.value.value, ⟨record.reads + 1, record.writes⟩⟩), rfl, ?_, ?_, rfl, rfl⟩
    · show ((m.data.fetchAddReads name).lookup name).map _ = _
      rw [DataCollection.lookup_fetchAddReads, if_pos rfl, hr]
      rfl
    · show m.data.get name = (_, m.data.fetchAddReads name)
      simp [DataCollection.get, hr]
  | @getWrites name reads record hr =>
    left
    exact ⟨by simp [Pc.committed, hr], rfl, rfl, rfl⟩
  | @getCopy name stats record hr =>
    left
    exact ⟨by simp [Pc.committed, hr], rfl, rfl, rfl⟩
  | initialSetLock | initialSetFindMiss | initialSetFindHit | initialSetEmplace | initialSetAssign |
    initialSetUnlock => exact hop.elim
  | setLock _ => exact Or.inr ⟨.done, rfl, rfl, rfl, rfl, rfl⟩
  | @setEmplace name value =>
    left
    refine ⟨rfl, ?_, rfl, rfl⟩
    exact (DataCollection.set_of_none (Finmap.lookup_eq_none.2 hk) value).symm
  | @setWrites name value =>
    left
    refine ⟨rfl, ?_, rfl, rfl⟩
    obtain ⟨record, hr⟩ := Finmap.mem_iff.1 hk
    exact (DataCollection.set_of_some hr value).symm
  | @enumerateBegin visitor order ho =>
    cases visitor with
    | collect items =>
      obtain rfl : items = [] := hk
      exact Or.inr ⟨_, rfl, rfl, ⟨rfl, order, ho, rfl⟩, rfl, rfl⟩
    | addToDocument n document => exact Or.inl ⟨rfl, rfl, rfl, rfl⟩
  | @enumerateNext visitor name rest record hr =>
    left
    cases visitor with
    | collect items =>
      exact ⟨by simp [Pc.committed, Visitor.visit, visitAll, DataCollection.valueOf, hr], rfl, rfl, rfl⟩
    | addToDocument n document => exact ⟨rfl, rfl, rfl, rfl⟩
  | @enumerateEnd visitor =>
    left
    cases visitor with
    | collect items => exact ⟨by simp [Pc.committed, visitAll], rfl, rfl, rfl⟩
    | addToDocument n document => exact ⟨rfl, rfl, rfl, rfl⟩
  | statisticsWrites | saveClose => exact Or.inr ⟨_, rfl, rfl, rfl, rfl, rfl⟩
  | _ => exact Or.inl ⟨rfl, rfl, rfl, rfl⟩

/-- What commits outside the lock does not depend on the records. -/
theorem Commits.spec_outside {rj : RapidJson} {t : T} {m m' : Memory T} {pc pc' : Pc} {result : Result}
    (h : Commits m.data m'.data pc pc' result) (he : Exec rj t m pc m' pc') (hpc : pc.hold = .none)
    (hpc' : pc'.hold = .none) (data : DataCollection) : Spec data pc.op result data := by
  have hafter := h.after
  cases he with
  | statisticsWrites | saveClose =>
    simp only [Pc.committed, Option.some.injEq] at hafter
    subst hafter
    exact rfl
  | getLock | setLock | initialSetLock | enumerateLock => cases hpc'
  | statisticsReads | saveOpen | saveMember => cases hafter
  | _ => cases hpc

/-! ### The sequential state -/

def Thread.finish (data : DataCollection) : Thread → DataCollection
  | .idle => data
  | .running _ pc => pc.finish data

/-- The records as they are when the call that holds the lock exclusively, if any, is finished. -/
def World.sequential (w : World T) : DataCollection :=
  match w.memory.protectData with
  | .shared _ => w.memory.data
  | .exclusive t => (w.thread t).finish w.memory.data

theorem World.sequential_of_exclusive {w : World T} (hl : w.LockAgrees) {t : T}
    (ht : (w.thread t).hold = .exclusive) : w.sequential = (w.thread t).finish w.memory.data := by
  have := SharedMutex.hold_exclusive_iff.1 ((hl.hold_eq t).trans ht)
  rw [World.sequential, this]

theorem World.sequential_of_alone {w : World T} (hl : w.LockAgrees) {t : T}
    (ht : ∀ t' ≠ t, (w.thread t').hold ≠ .exclusive) : w.sequential = (w.thread t).finish w.memory.data := by
  by_cases hx : (w.thread t).hold = .exclusive
  · exact w.sequential_of_exclusive hl hx
  · have hfinish : (w.thread t).finish w.memory.data = w.memory.data := by
      cases hth : w.thread t with
      | idle => rfl
      | running c pc => exact Pc.finish_of_not_exclusive (by rwa [hth] at hx) _
    rw [hfinish, World.sequential]
    cases hlock : w.memory.protectData with
    | shared _ => rfl
    | exclusive t' =>
      have hex := SharedMutex.hold_exclusive_iff.2 hlock
      rw [hl.hold_eq] at hex
      by_cases he : t' = t
      · exact absurd (he ▸ hex) hx
      · exact absurd hex (ht t' he)

/-- A step is taken beside a call that holds the lock exclusively, and then changes nothing; or the sequential
state is the one of the thread that moves. -/
theorem Step.sequential {rj : RapidJson} {w w' : World T} {l : Label T} (hs : Step rj w l w') (hl : w.LockAgrees) :
    ((w.thread l.thread).hold = .none ∧ (w'.thread l.thread).hold = .none ∧ w'.sequential = w.sequential) ∨
    (w.sequential = (w.thread l.thread).finish w.memory.data ∧
      w'.sequential = (w'.thread l.thread).finish w'.memory.data) := by
  have hl' := hs.lockAgrees hl
  by_cases hother : ∃ t' ≠ l.thread, (w.thread t').hold = .exclusive
  · left
    obtain ⟨t', hne, hx⟩ := hother
    have hsame := hs.thread_of_ne hne
    have hx' : (w'.thread t').hold = .exclusive := by rw [hsame]; exact hx
    have hout := hl.alone hx (Ne.symm hne)
    refine ⟨hout, hl'.alone hx' (Ne.symm hne), ?_⟩
    rw [w.sequential_of_exclusive hl hx, w'.sequential_of_exclusive hl' hx', hsame]
    congr 1
    cases hs with
    | invoke | ret => rfl
    | exec ht he =>
      simp only [Label.thread, ht] at hout
      exact he.data_of_hold_none hout
  · right
    push Not at hother
    refine ⟨w.sequential_of_alone hl hother, w'.sequential_of_alone hl' fun t' hne => ?_⟩
    rw [hs.thread_of_ne hne]
    exact hother t' hne

/-! ### The order along a run -/

/-- What is seen of a step from outside. -/
def Label.event : Label T → Option (Event Op Result)
  | .invoke _ c op => some (.invoke c op)
  | .exec _ _ _ => none
  | .ret _ c _ result => some (.ret c result)

/-- The history of a trace. -/
def history (ls : List (Label T)) : List (Event Op Result) := ls.filterMap Label.event

omit [DecidableEq T] [Allocator] in
theorem history_append (ls : List (Label T)) (l : Label T) :
    history (ls ++ [l]) = history ls ++ l.event.toList := by
  rw [history, List.filterMap_append, history]
  cases h : l.event <;> simp [h]

omit [DecidableEq T] [Allocator] in
theorem mem_history_append {ls : List (Label T)} {l : Label T} {e : Event Op Result} :
    e ∈ history (ls ++ [l]) ↔ e ∈ history ls ∨ l.event = some e := by
  rw [history_append, List.mem_append, Option.mem_toList]

/-- The calls in progress are the ones that the trace shows as invoked and not returned. -/
structure World.Accounts (ls : List (Label T)) (w : World T) : Prop where
  call_lt : ∀ e ∈ history ls, e.call < w.calls
  once : ∀ c op op', Event.invoke c op ∈ history ls → Event.invoke c op' ∈ history ls → op = op'
  invoked : ∀ t c pc, w.thread t = .running c pc → Event.invoke c pc.op ∈ history ls
  pending : ∀ t c pc, w.thread t = .running c pc → ∀ r, Event.ret c r ∉ history ls
  distinct : ∀ t t' c pc pc', w.thread t = .running c pc → w.thread t' = .running c pc' → t = t'
  accounted : ∀ c op, Event.invoke c op ∈ history ls →
    (∃ r, Event.ret c r ∈ history ls) ∨ ∃ t pc, w.thread t = .running c pc

omit [DecidableEq T] [Allocator] in
theorem World.accounts_start (engine : DataEngine) (file : Option Bytes) : (World.start T engine file).Accounts [] where
  call_lt e h := by simp [history] at h
  once c op op' h := by simp [history] at h
  invoked t c pc h := by cases h
  pending t c pc h := by cases h
  distinct t t' c pc pc' h := by cases h
  accounted c op h := by simp [history] at h

omit [DecidableEq T] [Allocator] in
@[simp] theorem history_exec (ls : List (Label T)) (t : T) (c : Nat) (pc : Pc) :
    history (ls ++ [.exec t c pc]) = history ls := by
  rw [history_append]
  exact List.append_nil _

omit [DecidableEq T] [Allocator] in
/-- The number of the next call is not in the history. -/
theorem World.Accounts.fresh {ls : List (Label T)} {w : World T} (h : w.Accounts ls) :
    ∀ e ∈ history ls, e.call ≠ w.calls :=
  fun e he => Nat.ne_of_lt (h.call_lt e he)

omit [Allocator] in
theorem World.Accounts.invoke {ls : List (Label T)} {w : World T} (h : w.Accounts ls) {t : T} (op : Op)
    (ht : w.thread t = .idle) :
    World.Accounts (ls ++ [.invoke t w.calls op])
      { w with calls := w.calls + 1, thread := Function.update w.thread t (.running w.calls op.start) } where
  call_lt e he := by
    rcases mem_history_append.1 he with he | he
    · exact Nat.lt_succ_of_lt (h.call_lt e he)
    · cases he
      exact Nat.lt_succ_self _
  once c o o' ho ho' := by
    rcases mem_history_append.1 ho with ho | ho <;> rcases mem_history_append.1 ho' with ho' | ho'
    · exact h.once c o o' ho ho'
    · cases ho'
      exact absurd rfl (h.fresh _ ho)
    · cases ho
      exact absurd rfl (h.fresh _ ho')
    · cases ho
      cases ho'
      rfl
  invoked t' c pc hp := by
    rw [mem_history_append]
    rcases update_eq_running hp with ⟨-, he⟩ | ⟨-, hp⟩
    · cases he
      right
      rw [Op.op_start]
      rfl
    · exact Or.inl (h.invoked t' c pc hp)
  pending t' c pc hp r hr := by
    rcases mem_history_append.1 hr with hr | hr
    · rcases update_eq_running hp with ⟨-, he⟩ | ⟨-, hp⟩
      · cases he
        exact h.fresh _ hr rfl
      · exact h.pending t' c pc hp r hr
    · cases hr
  distinct t₁ t₂ c pc pc' h₁ h₂ := by
    rcases update_eq_running h₁ with ⟨rfl, he₁⟩ | ⟨-, hr₁⟩ <;> rcases update_eq_running h₂ with ⟨rfl, he₂⟩ | ⟨-, hr₂⟩
    · rfl
    · cases he₁
      exact absurd rfl (h.fresh _ (h.invoked _ _ _ hr₂))
    · cases he₂
      exact absurd rfl (h.fresh _ (h.invoked _ _ _ hr₁))
    · exact h.distinct _ _ _ _ _ hr₁ hr₂
  accounted c o ho := by
    rcases mem_history_append.1 ho with ho | ho
    · rcases h.accounted c o ho with ⟨r, hr⟩ | ⟨t', pc, hp⟩
      · exact Or.inl ⟨r, mem_history_append.2 (Or.inl hr)⟩
      · have hne : t' ≠ t := fun he => by rw [he, ht] at hp; cases hp
        exact Or.inr ⟨t', pc, (Function.update_of_ne hne ..).trans hp⟩
    · cases ho
      exact Or.inr ⟨t, op.start, Function.update_self ..⟩

omit [Allocator] in
/-- A point of a call: the same calls are in progress. -/
theorem World.Accounts.exec {ls : List (Label T)} {w : World T} (h : w.Accounts ls) {t : T} {c₀ : Nat} {pc₀ pc₁ : Pc}
    (ht : w.thread t = .running c₀ pc₀) (hop : pc₁.op = pc₀.op) (m : Memory T) :
    World.Accounts (ls ++ [.exec t c₀ pc₀])
      { w with memory := m, thread := Function.update w.thread t (.running c₀ pc₁) } := by
  have hrun : ∀ t' c pc, Function.update w.thread t (.running c₀ pc₁) t' = .running c pc →
      ∃ pc', w.thread t' = .running c pc' ∧ pc.op = pc'.op := by
    intro t' c pc hp
    rcases update_eq_running hp with ⟨rfl, hc⟩ | ⟨-, hp⟩
    · cases hc
      exact ⟨pc₀, ht, hop⟩
    · exact ⟨pc, hp, rfl⟩
  constructor
  · rw [history_exec]
    exact h.call_lt
  · rw [history_exec]
    exact h.once
  · intro t' c pc hp
    obtain ⟨pc', h', hop'⟩ := hrun t' c pc hp
    rw [history_exec, hop']
    exact h.invoked _ _ _ h'
  · intro t' c pc hp
    obtain ⟨pc', h', -⟩ := hrun t' c pc hp
    rw [history_exec]
    exact h.pending _ _ _ h'
  · intro t₁ t₂ c pc pc' h₁ h₂
    obtain ⟨_, h₁, -⟩ := hrun t₁ c pc h₁
    obtain ⟨_, h₂, -⟩ := hrun t₂ c pc' h₂
    exact h.distinct _ _ _ _ _ h₁ h₂
  · intro c o ho
    rw [history_exec] at ho ⊢
    rcases h.accounted c o ho with hr | ⟨t', pc, hp⟩
    · exact Or.inl hr
    · right
      by_cases hne : t' = t
      · subst hne
        rw [ht] at hp
        cases hp
        exact ⟨t', pc₁, Function.update_self ..⟩
      · exact ⟨t', pc, (Function.update_of_ne hne ..).trans hp⟩

omit [Allocator] in
theorem World.Accounts.ret {ls : List (Label T)} {w : World T} (h : w.Accounts ls) {t : T} {c₀ : Nat} {op : Op}
    {result : Result} (ht : w.thread t = .running c₀ (.returning op result)) :
    World.Accounts (ls ++ [.ret t c₀ op result]) { w with thread := Function.update w.thread t .idle } := by
  have hrun : ∀ t' c pc, Function.update w.thread t .idle t' = .running c pc →
      t' ≠ t ∧ w.thread t' = .running c pc := by
    intro t' c pc hp
    rcases update_eq_running hp with ⟨-, hc⟩ | hp
    · cases hc
    · exact hp
  have hinvoke : ∀ c o, Event.invoke c o ∈ history (ls ++ [.ret t c₀ op result]) → Event.invoke c o ∈ history ls := by
    intro c o ho
    rcases mem_history_append.1 ho with ho | ho
    · exact ho
    · cases ho
  constructor
  · intro e he
    rcases mem_history_append.1 he with he | he
    · exact h.call_lt e he
    · cases he
      exact h.call_lt (.invoke c₀ op) (h.invoked _ _ _ ht)
  · intro c o o' ho ho'
    exact h.once c o o' (hinvoke c o ho) (hinvoke c o' ho')
  · intro t' c pc hp
    rw [mem_history_append]
    exact Or.inl (h.invoked _ _ _ (hrun t' c pc hp).2)
  · intro t' c pc hp r hr
    obtain ⟨hne, hp⟩ := hrun t' c pc hp
    rcases mem_history_append.1 hr with hr | hr
    · exact h.pending _ _ _ hp r hr
    · cases hr
      exact hne (h.distinct _ _ _ _ _ hp ht)
  · intro t₁ t₂ c pc pc' h₁ h₂
    exact h.distinct _ _ _ _ _ (hrun _ _ _ h₁).2 (hrun _ _ _ h₂).2
  · intro c o ho
    rcases h.accounted c o (hinvoke c o ho) with ⟨r, hr⟩ | ⟨t', pc, hp⟩
    · exact Or.inl ⟨r, mem_history_append.2 (Or.inl hr)⟩
    · by_cases hne : t' = t
      · subst hne
        rw [ht] at hp
        cases hp
        exact Or.inl ⟨result, mem_history_append.2 (Or.inr rfl)⟩
      · exact Or.inr ⟨t', pc, (Function.update_of_ne hne ..).trans hp⟩

theorem Step.accounts {rj : RapidJson} {ls : List (Label T)} {w w' : World T} {l : Label T} (hs : Step rj w l w')
    (h : w.Accounts ls) : w'.Accounts (ls ++ [l]) := by
  cases hs with
  | invoke op ht => exact h.invoke op ht
  | exec ht he => exact h.exec ht he.op_eq _
  | ret ht => exact h.ret ht

theorem Run.accounts {rj : RapidJson} {engine : DataEngine} {file : Option Bytes} {ls : List (Label T)} {w : World T}
    (h : Run (Step rj) (World.start T engine file) ls w) : w.Accounts ls :=
  Run.invariant (fun ls w => w.Accounts ls) (World.accounts_start engine file) (fun hi hs => hs.accounts hi) h

def Label.setPlaced : Label T → Option (Nat × Bytes × Bytes)
  | .exec _ c pc => pc.setPlaced.map (c, ·)
  | _ => none

omit [DecidableEq T] [Allocator] in
/-- A set takes its place with the step that takes the lock. -/
theorem Label.eq_of_setPlaced {l : Label T} {p : Nat × Bytes × Bytes} (h : l.setPlaced = some p) :
    ∃ t, l = .exec t p.1 (.setLock p.2.1 p.2.2) := by
  cases l with
  | exec t c pc =>
    obtain ⟨r, hr, rfl⟩ := Option.map_eq_some_iff.1 h
    unfold Pc.setPlaced at hr
    split at hr
    · cases hr
      exact ⟨t, rfl⟩
    · cases hr
  | invoke | ret => cases h

def Label.hitPlaced : Label T → Option (Nat × Bytes)
  | .exec _ c pc => pc.hitPlaced.map (c, ·)
  | _ => none

/-- The writes of a linearization, in its order. -/
def setsIn (lin : List (Entry Op Result)) : List (Nat × Bytes × Bytes) :=
  lin.filterMap fun x => (setOf x.op).map (x.call, ·)

/-- The reads of a linearization that found their record, in its order. -/
def hitsIn (lin : List (Entry Op Result)) : List (Nat × Bytes) :=
  lin.filterMap fun x => (hitOf x.op x.res).map (x.call, ·)

/-- `lin` is a linearization of what happened so far, built as described above. -/
structure World.Linearized (data₀ : DataCollection) (ls : List (Label T)) (w : World T)
    (lin : List (Entry Op Result)) : Prop where
  linearizes : Linearizes (history ls) lin
  replay : Replay Spec data₀ lin w.sequential
  placed : ∀ t c pc result, w.thread t = .running c pc → pc.committed w.memory.data = some result →
    ⟨c, pc.op, result⟩ ∈ lin
  unplaced : ∀ t c pc, w.thread t = .running c pc → pc.committed w.memory.data = none → c ∉ lin.map Entry.call
  sets : setsIn lin = ls.filterMap Label.setPlaced
  hits : hitsIn lin = ls.filterMap Label.hitPlaced

omit [DecidableEq T] in
theorem World.linearized_start (engine : DataEngine) (file : Option Bytes) :
    (World.start T engine file).Linearized engine.data [] [] where
  linearizes := .nil
  replay := .nil
  placed t c pc result h := by cases h
  unplaced t c pc h := by cases h
  sets := rfl
  hits := rfl

theorem Step.linearized_invoke {rj : RapidJson} {data₀ : DataCollection} {ls : List (Label T)} {w w' : World T}
    {lin : List (Entry Op Result)} {t : T} {c₀ : Nat} {op : Op} (hs : Step rj w (.invoke t c₀ op) w')
    (hl : w.LockAgrees) (ha : w.Accounts ls) (h : w.Linearized data₀ ls lin) :
    w'.Linearized data₀ (ls ++ [.invoke t c₀ op]) lin := by
  have hsame : w'.sequential = w.sequential := by
    rcases hs.sequential hl with ⟨-, -, he⟩ | ⟨he, he'⟩
    · exact he
    · rw [he', he]
      cases hs with
      | invoke _ ht =>
        simp only [Label.thread, Function.update_self, ht]
        exact Pc.finish_of_not_exclusive (by rw [Op.hold_start]; decide) _
  cases hs with
  | invoke _ ht =>
    have hfresh := ha.fresh
    have hstart : op.start.committed w.memory.data = none := by cases op <;> rfl
    constructor
    · rw [history_append]
      exact h.linearizes.invoke (fun op' hm => hfresh _ hm rfl) op
    · rw [hsame]
      exact h.replay
    · intro t' c pc result hp hc
      rcases update_eq_running hp with ⟨-, he⟩ | ⟨-, hp⟩
      · cases he
        rw [hstart] at hc
        cases hc
      · exact h.placed t' c pc result hp hc
    · intro t' c pc hp hc
      rcases update_eq_running hp with ⟨-, he⟩ | ⟨-, hp⟩
      · cases he
        intro hm
        obtain ⟨x, hx, hxc⟩ := List.mem_map.1 hm
        exact hfresh _ (h.linearizes.invoked x hx) hxc
      · exact h.unplaced t' c pc hp hc
    · rw [h.sets, List.filterMap_append]
      simp [Label.setPlaced]
    · rw [h.hits, List.filterMap_append]
      simp [Label.hitPlaced]

theorem Step.linearized_ret {rj : RapidJson} {data₀ : DataCollection} {ls : List (Label T)} {w w' : World T}
    {lin : List (Entry Op Result)} {t : T} {c₀ : Nat} {op : Op} {result : Result}
    (hs : Step rj w (.ret t c₀ op result) w') (hl : w.LockAgrees) (h : w.Linearized data₀ ls lin) :
    w'.Linearized data₀ (ls ++ [.ret t c₀ op result]) lin := by
  have hsame : w'.sequential = w.sequential := by
    rcases hs.sequential hl with ⟨-, -, he⟩ | ⟨he, he'⟩
    · exact he
    · rw [he', he]
      cases hs with
      | ret ht =>
        simp only [Label.thread, Function.update_self, ht]
        rfl
  cases hs with
  | ret ht =>
    constructor
    · rw [history_append]
      exact h.linearizes.ret (h.placed t c₀ _ result ht rfl)
    · rw [hsame]
      exact h.replay
    · intro t' c pc r hp hc
      rcases update_eq_running hp with ⟨-, he⟩ | ⟨-, hp⟩
      · cases he
      · exact h.placed t' c pc r hp hc
    · intro t' c pc hp hc
      rcases update_eq_running hp with ⟨-, he⟩ | ⟨-, hp⟩
      · cases he
      · exact h.unplaced t' c pc hp hc
    · rw [h.sets, List.filterMap_append]
      simp [Label.setPlaced]
    · rw [h.hits, List.filterMap_append]
      simp [Label.hitPlaced]

/-- What the other calls are committed to is not changed by a point. -/
theorem Exec.committed_other {rj : RapidJson} {w : World T} {t t' : T} {c c' : Nat} {pc pc₁ pc' : Pc}
    {m' : Memory T} (he : Exec rj t w.memory pc m' pc₁) (hl : w.LockAgrees) (ht : w.thread t = .running c pc)
    (hop : pc.op.AfterLoading) (hne : t' ≠ t) (ht' : w.thread t' = .running c' pc') :
    pc'.committed m'.data = pc'.committed w.memory.data := by
  by_cases hx : pc.hold = .exclusive
  · have hhold : (w.thread t).hold = .exclusive := by rw [ht]; exact hx
    have hnone := hl.alone hhold hne
    rw [ht'] at hnone
    exact Pc.committed_of_hold_none hnone _ _
  · exact Pc.committed_congr (he.sameValues hop hx) pc'

/-- A point at which the order stays as it is. -/
theorem World.Linearized.stays {data₀ : DataCollection} {ls : List (Label T)} {w : World T}
    {lin : List (Entry Op Result)} (h : w.Linearized data₀ ls lin) {t : T} {c₀ : Nat} {pc pc₁ : Pc} {m' : Memory T}
    (ht : w.thread t = .running c₀ pc) (hop : pc₁.op = pc.op)
    (hother : ∀ t' c pc', t' ≠ t → w.thread t' = .running c pc' →
      pc'.committed m'.data = pc'.committed w.memory.data)
    (hst : Stays w.memory.data m'.data pc pc₁) {w' : World T}
    (hw' : w' = { w with memory := m', thread := Function.update w.thread t (.running c₀ pc₁) })
    (hseq : w'.sequential = w.sequential) : w'.Linearized data₀ (ls ++ [.exec t c₀ pc]) lin where
  linearizes := by
    rw [history_exec]
    exact h.linearizes
  replay := by
    rw [hseq]
    exact h.replay
  placed t' c pc' r hp hr := by
    subst hw'
    rcases update_eq_running hp with ⟨rfl, hr'⟩ | ⟨hne, hp⟩
    · cases hr'
      rw [hop]
      exact h.placed _ _ _ _ ht (hst.committed ▸ hr)
    · exact h.placed _ _ _ _ hp (hother _ _ _ hne hp ▸ hr)
  unplaced t' c pc' hp hr := by
    subst hw'
    rcases update_eq_running hp with ⟨rfl, hr'⟩ | ⟨hne, hp⟩
    · cases hr'
      exact h.unplaced _ _ _ ht (hst.committed ▸ hr)
    · exact h.unplaced _ _ _ hp (hother _ _ _ hne hp ▸ hr)
  sets := by
    rw [h.sets, List.filterMap_append]
    simp [Label.setPlaced, hst.set]
  hits := by
    rw [h.hits, List.filterMap_append]
    simp [Label.hitPlaced, hst.hit]

/-- A point at which the call takes its place at the end of the order. -/
theorem World.Linearized.commits {data₀ : DataCollection} {ls : List (Label T)} {w : World T}
    {lin : List (Entry Op Result)} (h : w.Linearized data₀ ls lin) (ha : w.Accounts ls) {t : T} {c₀ : Nat}
    {pc pc₁ : Pc} {m' : Memory T} (ht : w.thread t = .running c₀ pc) (hop : pc₁.op = pc.op)
    (hother : ∀ t' c pc', t' ≠ t → w.thread t' = .running c pc' →
      pc'.committed m'.data = pc'.committed w.memory.data)
    {result : Result} (hc : Commits w.memory.data m'.data pc pc₁ result) {w' : World T}
    (hw' : w' = { w with memory := m', thread := Function.update w.thread t (.running c₀ pc₁) })
    (hspec : Spec w.sequential pc.op result w'.sequential) :
    w'.Linearized data₀ (ls ++ [.exec t c₀ pc]) (lin ++ [⟨c₀, pc.op, result⟩]) where
  linearizes := by
    rw [history_exec]
    exact h.linearizes.commit (ha.invoked _ _ _ ht) (ha.pending _ _ _ ht) (h.unplaced _ _ _ ht hc.before) result
  replay := .snoc h.replay hspec
  placed t' c pc' r hp hr := by
    subst hw'
    rcases update_eq_running hp with ⟨rfl, hr'⟩ | ⟨hne, hp⟩
    · cases hr'
      have hres : result = r := Option.some.inj (hc.after.symm.trans hr)
      rw [hop, hres]
      exact List.mem_append_right _ (List.mem_singleton_self _)
    · exact List.mem_append_left _ (h.placed _ _ _ _ hp (hother _ _ _ hne hp ▸ hr))
  unplaced t' c pc' hp hr := by
    subst hw'
    rcases update_eq_running hp with ⟨rfl, hr'⟩ | ⟨hne, hrun⟩
    · cases hr'
      rw [hc.after] at hr
      cases hr
    · rw [List.map_append, List.mem_append]
      rintro (hm | hm)
      · exact h.unplaced _ _ _ hrun (hother _ _ _ hne hrun ▸ hr) hm
      · obtain rfl := List.mem_singleton.1 hm
        exact hne (ha.distinct _ _ _ _ _ hrun ht)
  sets := by
    rw [setsIn, List.filterMap_append, ← setsIn, h.sets, List.filterMap_append]
    simp [Label.setPlaced, hc.set, List.filterMap_cons]
  hits := by
    rw [hitsIn, List.filterMap_append, ← hitsIn, h.hits, List.filterMap_append]
    simp [Label.hitPlaced, hc.hit, List.filterMap_cons]

/-- The step that executes one point: the order stays as it is, or the call takes its place at the end. -/
theorem Step.linearized_exec {rj : RapidJson} {data₀ : DataCollection} {ls : List (Label T)} {w w' : World T}
    {lin : List (Entry Op Result)} {t : T} {c₀ : Nat} {pc : Pc} (hs : Step rj w (.exec t c₀ pc) w')
    (hl : w.LockAgrees) (hk : w.Knows) (ha : w.Accounts ls) (hop : pc.op.AfterLoading)
    (h : w.Linearized data₀ ls lin) : ∃ lin', w'.Linearized data₀ (ls ++ [.exec t c₀ pc]) lin' := by
  have hseq := hs.sequential hl
  cases hs with
  | @exec _ _ _ pc₁ m' ht he =>
    have hother : ∀ t' c pc', t' ≠ t → w.thread t' = .running c pc' →
        pc'.committed m'.data = pc'.committed w.memory.data := fun t' c pc' hne ht' =>
      he.committed_other hl ht hop hne ht'
    simp only [Label.thread, Function.update_self, ht] at hseq
    rcases he.commits hop (hk t c₀ pc ht) with hst | ⟨result, hc⟩
    · refine ⟨lin, h.stays ht he.op_eq hother hst rfl ?_⟩
      rcases hseq with ⟨-, -, he'⟩ | ⟨he₁, he₂⟩
      · exact he'
      · exact he₂.trans (hst.finish.trans he₁.symm)
    · refine ⟨_, h.commits ha ht he.op_eq hother hc rfl ?_⟩
      rcases hseq with ⟨hout, hout', he'⟩ | ⟨he₁, he₂⟩
      · rw [he']
        exact hc.spec_outside he hout hout' _
      · rw [he₂, he₁]
        exact hc.spec

theorem Step.linearized {rj : RapidJson} {data₀ : DataCollection} {ls : List (Label T)} {w w' : World T} {l : Label T}
    {lin : List (Entry Op Result)} (hs : Step rj w l w') (hl : w.LockAgrees) (hk : w.Knows) (ha : w.Accounts ls)
    (hop : w.Calls fun _ op => op.AfterLoading) (h : w.Linearized data₀ ls lin) :
    ∃ lin', w'.Linearized data₀ (ls ++ [l]) lin' := by
  have hs' := hs
  cases hs with
  | invoke op _ => exact ⟨lin, hs'.linearized_invoke hl ha h⟩
  | ret _ => exact ⟨lin, hs'.linearized_ret hl h⟩
  | exec ht _ => exact hs'.linearized_exec hl hk ha (hop _ _ _ ht) h

/-- The runs in which nothing is loaded any more. -/
abbrev StepAfterLoading (rj : RapidJson) : World T → Label T → World T → Prop :=
  Restrict (Step rj) fun _ l => l.Calls fun _ op => op.AfterLoading

theorem Run.linearized {rj : RapidJson} {engine : DataEngine} {file : Option Bytes} {ls : List (Label T)} {w : World T}
    (h : Run (StepAfterLoading rj) (World.start T engine file) ls w) : ∃ lin, w.Linearized engine.data ls lin := by
  have hinv : w.LockAgrees ∧ w.Knows ∧ (w.Calls fun _ op => op.AfterLoading) ∧ w.Accounts ls ∧
      ∃ lin, w.Linearized engine.data ls lin := by
    refine Run.invariant (fun ls w => w.LockAgrees ∧ w.Knows ∧ (w.Calls fun _ op => op.AfterLoading) ∧ w.Accounts ls ∧
      ∃ lin, w.Linearized engine.data ls lin) ?_ ?_ h
    · exact ⟨World.lockAgrees_start engine file, World.knows_start engine file, fun _ _ _ h => (by cases h),
        World.accounts_start engine file, [], World.linearized_start engine file⟩
    · rintro ls w l w' ⟨hl, hk, hop, ha, lin, hlin⟩ ⟨hs, hg⟩
      exact ⟨hs.lockAgrees hl, hs.knows hl hk, hs.calls hg hop, hs.accounts ha,
        hs.linearized hl hk ha hop hlin⟩
  exact hinv.2.2.2.2

end KeyValueServer
