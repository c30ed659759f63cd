import KeyValueServer.BackgroundWorker
import KeyValueServer.EngineThreads

/-!
# A call that runs alone

When no other call is in progress, the points of a call add up to the operation that `DataEngine` and
`BackgroundWorker` define: same result, same engine, same file (`Op.Alone`).
-/

namespace KeyValueServer

open Concurrency

variable {T : Type} [DecidableEq T] [Allocator]

/-- One call executes the point it is at. -/
def CallStep (rj : RapidJson) (t : T) (s : Memory T × Pc) (pc : Pc) (s' : Memory T × Pc) : Prop :=
  s.2 = pc ∧ Exec rj t s.1 s.2 s'.1 s'.2

/-- A call of `op` that finds the lock free can run through, with the result and the effects given. -/
def Op.Alone (rj : RapidJson) (op : Op) (e : DataEngine) (file : Option Bytes) (result : Result) (e' : DataEngine)
    (file' : Option Bytes) : Prop :=
  ∀ {T : Type} [DecidableEq T] (t : T), ∃ pcs, Run (CallStep rj t) (⟨.free, e, file⟩, op.start) pcs
    (⟨.free, e', file'⟩, .returning op result)

/-- The points of a call, taken by its thread in the system. -/
private theorem CallStep.lift {rj : RapidJson} {w : World T} {t : T} {c : Nat} {pcs : List Pc} {s : Memory T × Pc}
    {pc : Pc} (ht : w.thread t = .running c pc) (h : Run (CallStep rj t) (w.memory, pc) pcs s) :
    Run (Step rj) w (pcs.map (.exec t c))
      { w with memory := s.1, thread := Function.update w.thread t (.running c s.2) } := by
  induction h with
  | nil =>
    have hsame : Function.update w.thread t (.running c pc) = w.thread := by
      rw [← ht, Function.update_eq_self]
    rw [hsame]
    exact .nil
  | @snoc ls s₁ s₂ l _ hl ih =>
    obtain ⟨rfl, he⟩ := hl
    rw [List.map_append]
    refine .snoc ih ?_
    have hrun : Function.update w.thread t (.running c s₁.2) t = .running c s₁.2 := Function.update_self ..
    have hstep := Step.exec (w := { w with memory := s₁.1, thread := Function.update w.thread t (.running c s₁.2) })
      hrun he
    simpa only [Function.update_idem] using hstep

/-- A call made while no other is in progress. -/
theorem Op.Alone.run {rj : RapidJson} {op : Op} {e e' : DataEngine} {file file' : Option Bytes} {result : Result}
    (h : op.Alone rj e file result e' file') {w : World T} {t : T} (ht : w.thread t = .idle)
    (hm : w.memory = ⟨.free, e, file⟩) :
    ∃ pcs : List Pc, Run (Step rj) w
      (.invoke t w.calls op :: (pcs.map (.exec t w.calls) ++ [.ret t w.calls op result]))
      { w with memory := ⟨.free, e', file'⟩, calls := w.calls + 1 } := by
  obtain ⟨pcs, hrun⟩ := h t
  refine ⟨pcs, Run.cons (.invoke op ht) ?_⟩
  rw [← hm] at hrun
  refine .snoc (CallStep.lift (Function.update_self ..) hrun) ?_
  let w₁ : World T := { w with
    memory := ⟨.free, e', file'⟩, calls := w.calls + 1
    thread := Function.update w.thread t (.running w.calls (.returning op result)) }
  have hw₁ : w₁.thread t = .running w.calls (.returning op result) := Function.update_self ..
  have hret : Step rj w₁ _ _ := .ret hw₁
  have hsame : Function.update w.thread t Thread.idle = w.thread := by rw [← ht, Function.update_eq_self]
  simpa only [w₁, Function.update_idem, hsame] using hret

/-- A call made while no other is in progress is a run of every system that allows its operation. -/
theorem Op.Alone.run_calls {rj : RapidJson} {op : Op} {e e' : DataEngine} {file file' : Option Bytes} {result : Result}
    (h : op.Alone rj e file result e' file') {allowed : T → Op → Prop} {w : World T} {t : T} (hop : allowed t op)
    (ht : w.thread t = .idle) (hm : w.memory = ⟨.free, e, file⟩) :
    ∃ pcs : List Pc, Run (Restrict (Step rj) fun _ l => l.Calls allowed) w
      (.invoke t w.calls op :: (pcs.map (.exec t w.calls) ++ [.ret t w.calls op result]))
      { w with memory := ⟨.free, e', file'⟩, calls := w.calls + 1 } := by
  obtain ⟨pcs, hrun⟩ := h.run ht hm
  refine ⟨pcs, hrun.restrict fun l hl => ?_⟩
  rw [List.mem_cons, List.mem_append, List.mem_map, List.mem_singleton] at hl
  rcases hl with rfl | ⟨pc, -, rfl⟩ | rfl
  · exact hop
  · exact trivial
  · exact trivial

private theorem CallStep.cons {rj : RapidJson} {t : T} {m m₁ : Memory T} {pc pc₁ : Pc} {s : Memory T × Pc}
    (he : Exec rj t m pc m₁ pc₁) (h : ∃ pcs, Run (CallStep rj t) (m₁, pc₁) pcs s) :
    ∃ pcs, Run (CallStep rj t) (m, pc) pcs s := by
  obtain ⟨pcs, h⟩ := h
  exact ⟨pc :: pcs, h.cons ⟨rfl, he⟩⟩

private theorem CallStep.last {rj : RapidJson} {t : T} {m m₁ m' : Memory T} {pc pc₁ : Pc}
    (he : Exec rj t m pc m₁ pc₁) (hm : m₁ = m') : ∃ pcs, Run (CallStep rj t) (m, pc) pcs (m', pc₁) := by
  subst hm
  exact CallStep.cons he ⟨[], .nil⟩

theorem get_alone (rj : RapidJson) (e : DataEngine) (file : Option Bytes) (name : Bytes) :
    (Op.get name).Alone rj e file (.found (e.get name).1) (e.get name).2 file := by
  intro T _ t
  obtain ⟨l, hl, hu⟩ := SharedMutex.lockShared_free t
  refine CallStep.cons (.getLock hl) ?_
  cases hr : e.data.lookup name with
  | none =>
    have hget : e.get name = (none, { e with reads := e.reads + 1 }) := by
      simp [DataEngine.get, DataCollection.get, hr]
    rw [hget]
    refine CallStep.cons (.getFindMiss hr) (CallStep.cons .getMiss ?_)
    exact CallStep.last .getUnlock (by simp [Memory.fetchAddReads, hu])
  | some record =>
    have hget : e.get name = (some ⟨record.value.value, record.reads + 1, record.writes⟩,
        { e with data := e.data.fetchAddReads name, reads := e.reads + 1 }) := by
      simp [DataEngine.get, DataCollection.get, hr]
    -- the record as the points behind the increment find it
    have hr' : (e.data.fetchAddReads name).lookup name = some { record with reads := record.reads + 1 } := by
      rw [DataCollection.lookup_fetchAddReads, if_pos rfl, hr]
      rfl
    rw [hget]
    refine CallStep.cons (.getFindHit hr) (CallStep.cons (.getReads hr) (CallStep.cons (.getWrites hr') ?_))
    refine CallStep.cons .getGlobal (CallStep.cons (.getCopy hr') ?_)
    exact CallStep.last .getUnlock (by simp [Memory.fetchAddReads, Memory.setData, Memory.data, hu])

theorem set_alone (rj : RapidJson) (e : DataEngine) (file : Option Bytes) (name value : Bytes) :
    (Op.set name value).Alone rj e file .done (e.set name value) file := by
  intro T _ t
  refine CallStep.cons (.setLock (SharedMutex.lock_free t)) ?_
  cases hr : e.data.lookup name with
  | none =>
    have hset : e.set name value =
        { e with data := e.data.emplace name ⟨.ofBytes value, 0, 1⟩, writes := e.writes + 1 } := by
      rw [DataEngine.set, DataCollection.set_of_none hr]
    rw [hset]
    refine CallStep.cons (.setFindMiss hr) (CallStep.cons .setEmplace (CallStep.cons .setGlobal ?_))
    exact CallStep.last .setUnlock rfl
  | some record =>
    have hset : e.set name value =
        { e with data := (e.data.fetchAddWrites name).assignValue name value, writes := e.writes + 1 } := by
      rw [DataEngine.set, DataCollection.set_of_some hr]
    rw [hset]
    refine CallStep.cons (.setFindHit hr) (CallStep.cons .setWrites (CallStep.cons .setAssign ?_))
    exact CallStep.cons .setGlobal (CallStep.last .setUnlock rfl)

theorem initialSet_alone (rj : RapidJson) (e : DataEngine) (file : Option Bytes) (name value : Bytes) :
    (Op.initialSet name value).Alone rj e file .done (e.initialSet name value) file := by
  intro T _ t
  obtain ⟨l, hl, hu⟩ := SharedMutex.lockShared_free t
  refine CallStep.cons (.initialSetLock hl) ?_
  cases hr : e.data.lookup name with
  | none =>
    have hset : e.initialSet name value = { e with data := e.data.emplace name ⟨.ofBytes value, 0, 0⟩ } := by
      simp [DataEngine.initialSet, DataCollection.initialSet, hr]
    rw [hset]
    refine CallStep.cons (.initialSetFindMiss hr) (CallStep.cons .initialSetEmplace ?_)
    exact CallStep.last .initialSetUnlock (by simp [Memory.setData, Memory.data, hu])
  | some record =>
    have hset : e.initialSet name value = { e with data := e.data.assignValue name value } := by
      simp [DataEngine.initialSet, DataCollection.initialSet, hr]
    rw [hset]
    refine CallStep.cons (.initialSetFindHit hr) (CallStep.cons .initialSetAssign ?_)
    exact CallStep.last .initialSetUnlock (by simp [Memory.setData, Memory.data, hu])

theorem getGlobalStatistics_alone (rj : RapidJson) (e : DataEngine) (file : Option Bytes) :
    Op.getGlobalStatistics.Alone rj e file (.statistics e.getGlobalStatistics) e file := by
  intro T _ t
  exact CallStep.cons .statisticsReads (CallStep.last .statisticsWrites rfl)

/-! ### Enumerations -/

/-- The loop of an enumeration shows the records to the visitor one by one. -/
private theorem enumerateNext_alone {rj : RapidJson} {t : T} {m : Memory T} {s : Memory T × Pc} {names : List Bytes}
    (hn : ∀ name ∈ names, name ∈ m.data) (visitor : Visitor)
    (h : ∃ pcs, Run (CallStep rj t) (m, .enumerateUnlock
      (m.engine.enumerate names (fun v name value => v.visit name value) visitor)) pcs s) :
    ∃ pcs, Run (CallStep rj t) (m, .enumerateNext visitor names) pcs s := by
  induction names generalizing visitor with
  | nil => exact CallStep.cons .enumerateEnd h
  | cons name names ih =>
    obtain ⟨record, hr⟩ := Finmap.mem_iff.1 (hn name List.mem_cons_self)
    refine CallStep.cons (.enumerateNext hr) (ih (fun n hm => hn n (List.mem_cons_of_mem _ hm)) _ ?_)
    rwa [DataEngine.enumerate_cons hr] at h

omit [Allocator] in
private theorem enumerate_collect {e : DataEngine} {names : List Bytes} (hn : ∀ name ∈ names, name ∈ e.data)
    (items : List (Bytes × Bytes)) :
    e.enumerate names (fun v name value => v.visit name value) (Visitor.collect items) =
      .collect (items ++ names.filterMap fun name => (e.data.valueOf name).map (name, ·)) := by
  induction names generalizing items with
  | nil => simp
  | cons name names ih =>
    obtain ⟨record, hr⟩ := Finmap.mem_iff.1 (hn name List.mem_cons_self)
    have ih' := fun items => ih (fun n hm => hn n (List.mem_cons_of_mem _ hm)) items
    rw [DataEngine.enumerate_cons hr, Visitor.visit, ih']
    simp [DataCollection.valueOf_of_lookup hr]

omit [Allocator] in
private theorem enumerate_addToDocument {e : DataEngine} {names : List Bytes} (hn : ∀ name ∈ names, name ∈ e.data)
    (s : Nat × Document) :
    e.enumerate names (fun v name value => v.visit name value) (Visitor.addToDocument s.1 s.2) =
      .addToDocument (e.enumerate names BackgroundWorker.visitRecord s).1
        (e.enumerate names BackgroundWorker.visitRecord s).2 := by
  induction names generalizing s with
  | nil => rfl
  | cons name names ih =>
    obtain ⟨record, hr⟩ := Finmap.mem_iff.1 (hn name List.mem_cons_self)
    rw [DataEngine.enumerate_cons hr, DataEngine.enumerate_cons hr]
    exact ih (fun n hm => hn n (List.mem_cons_of_mem _ hm)) (BackgroundWorker.visitRecord s name record.value)

theorem enumerate_alone (rj : RapidJson) (e : DataEngine) (file : Option Bytes) {order : List Bytes}
    (h : e.data.IterationOrder order) :
    Op.enumerate.Alone rj e file (.visited (order.filterMap fun name => (e.data.valueOf name).map (name, ·))) e
      file := by
  intro T _ t
  obtain ⟨l, hl, hu⟩ := SharedMutex.lockShared_free t
  refine CallStep.cons (.enumerateLock hl) (CallStep.cons (.enumerateBegin h) ?_)
  have hn : ∀ name ∈ order, name ∈ e.data := fun name hn => (h.2 name).1 hn
  refine enumerateNext_alone hn _ ?_
  rw [enumerate_collect hn, List.nil_append]
  exact CallStep.last .enumerateReturn (by simp [hu])

/-- The loop of `save` follows the references one by one. -/
private theorem saveMembers_alone {rj : RapidJson} {t : T} {m : Memory T} {recordCount : Nat} {document : Document}
    {records : List (JString × JString)} (h : document.resolve m.data = some records)
    (written : List (JString × JString)) :
    ∃ pcs, Run (CallStep rj t) (m, .saveMembers recordCount document written) pcs
      ({ m with file := some (rj.write (.ofStrings (written ++ records))) },
        .returning .storeData (.stored recordCount)) := by
  induction document generalizing written records with
  | nil =>
    obtain rfl : records = [] := by simpa [Document.resolve] using h.symm
    rw [List.append_nil]
    exact CallStep.last .saveClose rfl
  | cons member document ih =>
    obtain ⟨value, rest, hv, hd, rfl⟩ := Document.resolve_cons.1 h
    have hshown : ∀ v, member.read m.data = some v → value = v := fun v hm => Option.some.inj (hv.symm.trans hm)
    refine CallStep.cons (.saveMember hshown) ?_
    have := ih hd (written ++ [(member.name, value)])
    rwa [List.append_assoc, List.singleton_append] at this

theorem storeData_alone (rj : RapidJson) (e : DataEngine) (file : Option Bytes) {order : List Bytes}
    (h : e.data.IterationOrder order) :
    Op.storeData.Alone rj e file (.stored (BackgroundWorker.storeData rj e order).1) e
      (BackgroundWorker.storeData rj e order).2 := by
  intro T _ t
  obtain ⟨l, hl, hu⟩ := SharedMutex.lockShared_free t
  refine CallStep.cons (.enumerateLock hl) (CallStep.cons (.enumerateBegin h) ?_)
  have hn : ∀ name ∈ order, name ∈ e.data := fun name hn => (h.2 name).1 hn
  refine enumerateNext_alone hn _ ?_
  rw [enumerate_addToDocument hn (0, [])]
  refine CallStep.cons .enumerateStore (CallStep.cons .saveOpen ?_)
  have hstore := BackgroundWorker.storeData_eq rj h
  rw [BackgroundWorker.storeData, DataSerializer.save, Prod.mk.injEq] at hstore
  obtain ⟨records, hrecords, -⟩ := Option.map_eq_some_iff.1 hstore.2
  have hfile : (BackgroundWorker.storeData rj e order).2 = some (rj.write (.ofStrings ([] ++ records))) := by
    simp [BackgroundWorker.storeData, DataSerializer.save, hrecords]
  rw [hfile]
  simp only [hu]
  exact saveMembers_alone (m := ⟨.free, e, some []⟩) hrecords []

end KeyValueServer
