import KeyValueServer.DataSerializer
import KeyValueServer.RecordHistory

/-!
# Storing and loading, run alone

`initial_load_data` and `store_data` of the background worker, when no other thread touches the engine: the engine
is filled from the file, and written to the file in the order in which it enumerates its records.
-/

namespace KeyValueServer

/-- The records of an engine as `store_data` puts them into the document. -/
def documentRecords (data : DataCollection) (order : List Bytes) : List (JString × JString) :=
  order.filterMap fun name => (data.valueOf name).map fun value => (.ref name, .ref value)

namespace BackgroundWorker

variable [Allocator]

/-- `initial_load_data`: the visitor counts the records and sets them in the engine.  The result of `load` only
decides what is logged. -/
def initialLoadData (rj : RapidJson) (file : Option Bytes) (e : DataEngine) :
    Except DataSerializer.LoadError Unit × Nat × DataEngine :=
  DataSerializer.load rj file (fun s name value => (s.1 + 1, s.2.initialSet name value)) (0, e)

/-- The engine of `main` after the initial load. -/
def loadedEngine (rj : RapidJson) (file : Option Bytes) : DataEngine := (initialLoadData rj file .empty).2.2

/-- A fresh engine holds the records that were loaded, also when `load` failed on its way. -/
theorem initialLoadData_state (rj : RapidJson) (file : Option Bytes) :
    (initialLoadData rj file .empty).2 =
      ((DataSerializer.loadedRecords rj file).length, .load (DataSerializer.loadedRecords rj file)) := by
  have hfold : ∀ (records : List (Bytes × Bytes)) (n : Nat) (e : DataEngine),
      records.foldl (fun s r => (s.1 + 1, s.2.initialSet r.1 r.2)) (n, e) =
        (n + records.length, records.foldl (fun e r => e.initialSet r.1 r.2) e) := by
    intro records
    induction records with
    | nil => exact fun n e => rfl
    | cons r records ih =>
      intro n e
      rw [List.foldl_cons, ih, List.foldl_cons, List.length_cons, Nat.add_assoc, Nat.add_comm 1]
  rw [initialLoadData, DataSerializer.load_state, hfold, Nat.zero_add]
  rfl

theorem loadedEngine_eq (rj : RapidJson) (file : Option Bytes) :
    loadedEngine rj file = .load (DataSerializer.loadedRecords rj file) := by
  rw [loadedEngine, initialLoadData_state]

/-- The visitor of `store_data`. -/
def visitRecord (s : Nat × Document) (name : Bytes) (value : StdString) : Nat × Document :=
  (s.1 + 1, s.2.add name value)

/-- `store_data`, when the file can be opened and written: the number of records and the new content of the file. -/
def storeData (rj : RapidJson) (e : DataEngine) (order : List Bytes) : Nat × Option Bytes :=
  let s := e.enumerate order visitRecord (0, [])
  (s.1, DataSerializer.save rj e.data s.2)

omit [Allocator] in
private theorem enumerate_visitRecord {e : DataEngine} {order : List Bytes} (h : ∀ name ∈ order, name ∈ e.data)
    (s : Nat × Document) : ∃ document : Document,
      e.enumerate order visitRecord s = (s.1 + order.length, s.2 ++ document) ∧
      document.resolve e.data = some (documentRecords e.data order) := by
  induction order generalizing s with
  | nil => exact ⟨[], by simp, rfl⟩
  | cons name order ih =>
    obtain ⟨record, hr⟩ := Finmap.mem_iff.1 (h name List.mem_cons_self)
    obtain ⟨document, he, hd⟩ := ih (fun n hn => h n (List.mem_cons_of_mem _ hn)) (visitRecord s name record.value)
    refine ⟨.ref name record.value :: document, ?_, ?_⟩
    · rw [DataEngine.enumerate_cons hr, he]
      simp only [visitRecord, Document.add, List.length_cons, List.append_assoc, List.singleton_append]
      rw [Nat.add_assoc, Nat.add_comm 1]
    · refine Document.resolve_cons.2 ⟨_, _, DocumentMember.read_ref hr, hd, ?_⟩
      simp [documentRecords, DataCollection.valueOf, hr, DocumentMember.ref]

omit [Allocator] in
/-- `store_data` run alone writes every record once, in the order of the enumeration. -/
theorem storeData_eq (rj : RapidJson) {e : DataEngine} {order : List Bytes} (h : e.data.IterationOrder order) :
    storeData rj e order = (order.length, some (rj.write (.ofStrings (documentRecords e.data order)))) := by
  obtain ⟨document, he, hd⟩ := enumerate_visitRecord (fun name hn => (h.2 name).1 hn) ((0, []) : Nat × Document)
  rw [storeData, he]
  simp only [List.nil_append, Nat.zero_add, DataSerializer.save]
  rw [hd]
  rfl

end BackgroundWorker

/-- The document has a record of this name and value, after both are cut to 32 bits of length. -/
theorem mem_documentRecords {data : DataCollection} {order : List Bytes} (h : data.IterationOrder order)
    {n v : JString} :
    (n, v) ∈ documentRecords data order ↔
      ∃ name value, data.valueOf name = some value ∧ .ref name = n ∧ .ref value = v := by
  rw [documentRecords, List.mem_filterMap]
  constructor
  · rintro ⟨name, -, hr⟩
    obtain ⟨value, hv, he⟩ := Option.map_eq_some_iff.1 hr
    rw [Prod.mk.injEq] at he
    exact ⟨name, value, hv, he⟩
  · rintro ⟨name, value, hv, rfl, rfl⟩
    exact ⟨name, (h.2 name).2 (DataCollection.mem_of_valueOf hv), by rw [hv]; rfl⟩

end KeyValueServer
