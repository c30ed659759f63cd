import KeyValueServer.StdString
import Mathlib.Data.Finmap
import Mathlib.Algebra.BigOperators.Group.Finset.Basic
import Mathlib.Tactic.Abel

/-!
# The data engine

`DataEngine` holds the records in an `unordered_map` (`DataCollection`, a finite map without an order) together
with the global access statistics.  The functions below are the engine's operations run alone, from the first line
to the last; what several threads do to the engine at once is the subject of `EngineThreads`.

The counters are 64-bit and wrap around.  An operation is assembled from the single accesses of the source
(`fetchAddReads`, `assignValue`, ...), which the threads take one by one.
-/

namespace KeyValueServer

abbrev IntegerCounter := UInt64

structure AccessStatistics where
  reads : IntegerCounter
  writes : IntegerCounter
  deriving DecidableEq

/-- What `get` returns of a record. -/
structure ExtendedValue where
  value : Bytes
  stats : AccessStatistics
  deriving DecidableEq

/-- What the engine keeps of a record. -/
structure ExtendedValueInternal where
  value : StdString
  reads : IntegerCounter
  writes : IntegerCounter
  deriving DecidableEq

abbrev DataCollection := Finmap fun _ : Bytes => ExtendedValueInternal

@[ext] structure DataEngine where
  data : DataCollection
  reads : IntegerCounter
  writes : IntegerCounter

/-- An engine as its constructor leaves it. -/
def DataEngine.empty : DataEngine where
  data := ∅
  reads := 0
  writes := 0

namespace DataCollection

/-- Change the record `name`, if there is one. -/
def modify (data : DataCollection) (name : Bytes) (f : ExtendedValueInternal → ExtendedValueInternal) :
    DataCollection :=
  match data.lookup name with
  | none => data
  | some record => data.insert name (f record)

theorem lookup_modify (data : DataCollection) (name k : Bytes)
    (f : ExtendedValueInternal → ExtendedValueInternal) :
    (data.modify name f).lookup k = if k = name then (data.lookup k).map f else data.lookup k := by
  unfold modify
  by_cases hk : k = name
  · subst hk
    cases h : data.lookup k <;> simp [h]
  · cases h : data.lookup name <;> simp [hk, Finmap.lookup_insert_of_ne]

/-- `m_data.emplace(name, extended)`: nothing happens when the name is there already. -/
def emplace (data : DataCollection) (name : Bytes) (extended : ExtendedValueInternal) : DataCollection :=
  match data.lookup name with
  | none => data.insert name extended
  | some _ => data

theorem lookup_emplace (data : DataCollection) (name k : Bytes) (extended : ExtendedValueInternal) :
    (data.emplace name extended).lookup k =
      if k = name ∧ data.lookup name = none then some extended else data.lookup k := by
  unfold emplace
  by_cases hk : k = name
  · subst hk
    cases h : data.lookup k <;> simp [h]
  · cases h : data.lookup name <;> simp [hk, Finmap.lookup_insert_of_ne]

/-- `iter->second.m_reads.fetch_add(1)`. -/
def fetchAddReads (data : DataCollection) (name : Bytes) : DataCollection :=
  data.modify name fun record => { record with reads := record.reads + 1 }

/-- `iter->second.m_writes.fetch_add(1)`. -/
def fetchAddWrites (data : DataCollection) (name : Bytes) : DataCollection :=
  data.modify name fun record => { record with writes := record.writes + 1 }

theorem lookup_fetchAddReads (data : DataCollection) (name k : Bytes) :
    (data.fetchAddReads name).lookup k =
      if k = name then (data.lookup k).map fun record => { record with reads := record.reads + 1 }
      else data.lookup k :=
  lookup_modify data name k _

theorem lookup_fetchAddWrites (data : DataCollection) (name k : Bytes) :
    (data.fetchAddWrites name).lookup k =
      if k = name then (data.lookup k).map fun record => { record with writes := record.writes + 1 }
      else data.lookup k :=
  lookup_modify data name k _

variable [Allocator]

/-- `iter->second.m_value = value`. -/
def assignValue (data : DataCollection) (name value : Bytes) : DataCollection :=
  data.modify name fun record => { record with value := record.value.assign value }

/-- `get` on the records: the global statistics apart. -/
def get (data : DataCollection) (name : Bytes) : Option ExtendedValue × DataCollection :=
  match data.lookup name with
  | none => (none, data)
  | some record => (some ⟨record.value.value, record.reads + 1, record.writes⟩, data.fetchAddReads name)

/-- `set` on the records: the global statistics apart. -/
def set (data : DataCollection) (name value : Bytes) : DataCollection :=
  match data.lookup name with
  | none => data.emplace name ⟨.ofBytes value, 0, 1⟩
  | some _ => (data.fetchAddWrites name).assignValue name value

/-- `initial_set`, which leaves the statistics alone. -/
def initialSet (data : DataCollection) (name value : Bytes) : DataCollection :=
  match data.lookup name with
  | none => data.emplace name ⟨.ofBytes value, 0, 0⟩
  | some _ => data.assignValue name value

theorem set_of_none {data : DataCollection} {name : Bytes} (h : data.lookup name = none) (value : Bytes) :
    data.set name value = data.emplace name ⟨.ofBytes value, 0, 1⟩ := by
  rw [set, h]

theorem set_of_some {data : DataCollection} {name : Bytes} {record : ExtendedValueInternal}
    (h : data.lookup name = some record) (value : Bytes) :
    data.set name value = (data.fetchAddWrites name).assignValue name value := by
  rw [set, h]

theorem lookup_assignValue (data : DataCollection) (name value k : Bytes) :
    (data.assignValue name value).lookup k =
      if k = name then (data.lookup k).map fun record => { record with value := record.value.assign value }
      else data.lookup k :=
  lookup_modify data name k _

/-- The record that `set` leaves under its name. -/
def written (value : Bytes) : Option ExtendedValueInternal → ExtendedValueInternal
  | none => ⟨.ofBytes value, 0, 1⟩
  | some record => { record with value := record.value.assign value, writes := record.writes + 1 }

/-- The record that `initial_set` leaves under its name. -/
def loaded (value : Bytes) : Option ExtendedValueInternal → ExtendedValueInternal
  | none => ⟨.ofBytes value, 0, 0⟩
  | some record => { record with value := record.value.assign value }

theorem lookup_set (data : DataCollection) (name value k : Bytes) :
    (data.set name value).lookup k =
      if k = name then some (written value (data.lookup name)) else data.lookup k := by
  unfold set
  cases h : data.lookup name with
  | none =>
    rw [lookup_emplace]
    simp [h, written]
  | some record =>
    rw [lookup_assignValue, lookup_fetchAddWrites]
    by_cases hk : k = name
    · subst hk; simp [h, written]
    · simp [hk]

theorem lookup_initialSet (data : DataCollection) (name value k : Bytes) :
    (data.initialSet name value).lookup k =
      if k = name then some (loaded value (data.lookup name)) else data.lookup k := by
  unfold initialSet
  cases h : data.lookup name with
  | none =>
    rw [lookup_emplace]
    simp [h, loaded]
  | some record =>
    rw [lookup_assignValue]
    by_cases hk : k = name
    · subst hk; simp [h, loaded]
    · simp [hk]

omit [Allocator] in
theorem lookup_get (data : DataCollection) (name k : Bytes) :
    (data.get name).2.lookup k =
      if k = name then (data.lookup k).map fun record => { record with reads := record.reads + 1 }
      else data.lookup k := by
  unfold get
  cases h : data.lookup name with
  | none =>
    by_cases hk : k = name
    · subst hk; simp [h]
    · simp [hk]
  | some record => exact lookup_fetchAddReads data name k

@[simp] theorem value_written (value : Bytes) (o : Option ExtendedValueInternal) :
    (written value o).value.value = value := by
  cases o <;> simp [written]

@[simp] theorem value_loaded (value : Bytes) (o : Option ExtendedValueInternal) :
    (loaded value o).value.value = value := by
  cases o <;> simp [loaded]

/-- The order in which an iteration visits the names: each name once. -/
def IterationOrder (data : DataCollection) (order : List Bytes) : Prop :=
  order.Nodup ∧ ∀ name, name ∈ order ↔ name ∈ data

omit [Allocator] in
theorem iterationOrder_iff {data : DataCollection} {order : List Bytes} :
    data.IterationOrder order ↔ order.Nodup ∧ order.toFinset = data.keys := by
  rw [IterationOrder, Finset.ext_iff]
  simp only [List.mem_toFinset, Finmap.mem_keys]

/-- The value of a record. -/
def valueOf (data : DataCollection) (name : Bytes) : Option Bytes :=
  (data.lookup name).map fun record => record.value.value

omit [Allocator] in
theorem valueOf_of_lookup {data : DataCollection} {name : Bytes} {record : ExtendedValueInternal}
    (h : data.lookup name = some record) : data.valueOf name = some record.value.value := by
  rw [valueOf, h, Option.map_some]

omit [Allocator] in
theorem mem_of_valueOf {data : DataCollection} {name value : Bytes} (h : data.valueOf name = some value) :
    name ∈ data := by
  obtain ⟨record, hr, -⟩ := Option.map_eq_some_iff.1 h
  exact Finmap.mem_of_lookup_eq_some hr

theorem valueOf_set (data : DataCollection) (name value k : Bytes) :
    (data.set name value).valueOf k = if k = name then some value else data.valueOf k := by
  rw [valueOf, lookup_set]
  split
  · rw [Option.map_some, value_written]
  · rfl

theorem valueOf_initialSet (data : DataCollection) (name value k : Bytes) :
    (data.initialSet name value).valueOf k = if k = name then some value else data.valueOf k := by
  rw [valueOf, lookup_initialSet]
  split
  · rw [Option.map_some, value_loaded]
  · rfl

omit [Allocator] in
theorem valueOf_get (data : DataCollection) (name k : Bytes) : (data.get name).2.valueOf k = data.valueOf k := by
  rw [valueOf, lookup_get, valueOf]
  split
  · cases data.lookup k <;> rfl
  · rfl

end DataCollection

namespace DataEngine

variable [Allocator]

def get (e : DataEngine) (name : Bytes) : Option ExtendedValue × DataEngine :=
  ((e.data.get name).1, { e with data := (e.data.get name).2, reads := e.reads + 1 })

def initialSet (e : DataEngine) (name value : Bytes) : DataEngine :=
  { e with data := e.data.initialSet name value }

def set (e : DataEngine) (name value : Bytes) : DataEngine :=
  { e with data := e.data.set name value, writes := e.writes + 1 }

/-- `enumerate` calls the visitor on each name and value, in some order of the names. -/
def enumerate {σ : Type} (e : DataEngine) (order : List Bytes) (visitor : σ → Bytes → StdString → σ) (s : σ) : σ :=
  order.foldl (fun s name => (e.data.lookup name).elim s fun record => visitor s name record.value) s

omit [Allocator] in
@[simp] theorem enumerate_nil {σ : Type} (e : DataEngine) (visitor : σ → Bytes → StdString → σ) (s : σ) :
    e.enumerate [] visitor s = s := rfl

omit [Allocator] in
theorem enumerate_cons {σ : Type} {e : DataEngine} {name : Bytes} {record : ExtendedValueInternal}
    (h : e.data.lookup name = some record) (order : List Bytes) (visitor : σ → Bytes → StdString → σ) (s : σ) :
    e.enumerate (name :: order) visitor s = e.enumerate order visitor (visitor s name record.value) := by
  rw [enumerate, List.foldl_cons, h]
  rfl

def getGlobalStatistics (e : DataEngine) : AccessStatistics where
  reads := e.reads
  writes := e.writes

/-- A fresh engine after `initial_set` of the records, one after the other. -/
def load (records : List (Bytes × Bytes)) : DataEngine :=
  records.foldl (fun e record => e.initialSet record.1 record.2) .empty

theorem load_append (records : List (Bytes × Bytes)) (name value : Bytes) :
    load (records ++ [(name, value)]) = (load records).initialSet name value := by
  simp [load]

theorem load_statistics (records : List (Bytes × Bytes)) :
    (load records).reads = 0 ∧ (load records).writes = 0 ∧
      ∀ name record, (load records).data.lookup name = some record → record.reads = 0 ∧ record.writes = 0 := by
  induction records using List.reverseRecOn with
  | nil => exact ⟨rfl, rfl, fun name record h => by simp [load, DataEngine.empty] at h⟩
  | append_singleton records r ih =>
    obtain ⟨name, value⟩ := r
    rw [load_append]
    refine ⟨ih.1, ih.2.1, fun k record h => ?_⟩
    rw [initialSet, DataCollection.lookup_initialSet] at h
    split at h
    · rw [Option.some.injEq] at h
      subst h
      cases ho : (load records).data.lookup name with
      | none => exact ⟨rfl, rfl⟩
      | some old => exact ih.2.2 name old ho
    · exact ih.2.2 k record h

end DataEngine

end KeyValueServer
