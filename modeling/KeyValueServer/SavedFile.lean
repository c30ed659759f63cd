import KeyValueServer.BackgroundWorker

/-!
# A saved file

What a file says about an engine (`Snapshot`), that a save run alone writes such a file, and that loading it gives
the same values back, with all counters at zero: whatever the order in which the records were enumerated, the loaded
engine is the same.
-/

namespace KeyValueServer

open DataSerializer

/-- The file holds the records of `data`, each once, and nothing else. -/
def Snapshot (rj : RapidJson) (data : DataCollection) (file : Option Bytes) (recordCount : Nat) : Prop :=
  ∃ records : List (JString × JString), file = some (rj.write (.ofStrings records)) ∧ recordCount = records.length ∧
    (records.map fun r => r.1.bytes).Nodup ∧
    ∀ name value, (∃ r ∈ records, r.1.bytes = name ∧ r.2.bytes = value) ↔ data.valueOf name = some value

/-- Names and values are short enough for the 32-bit lengths of a document. -/
def DataCollection.Short (data : DataCollection) : Prop :=
  ∀ name record, data.lookup name = some record → name.length < sizeTypeRange ∧ record.value.size < sizeTypeRange

theorem DataCollection.short_iff {data : DataCollection} :
    data.Short ↔ ∀ name ∈ data.keys, name.length < sizeTypeRange ∧
      ∀ record ∈ data.lookup name, record.value.size < sizeTypeRange := by
  constructor
  · intro h name hn
    obtain ⟨record, hr⟩ := Finmap.mem_iff.1 (Finmap.mem_keys.1 hn)
    exact ⟨(h name record hr).1, fun record' hr' => (h name record' hr').2⟩
  · intro h name record hr
    have := h name (Finmap.mem_keys.2 (Finmap.mem_of_lookup_eq_some hr))
    exact ⟨this.1, this.2 record hr⟩

instance (data : DataCollection) : Decidable data.Short := decidable_of_iff _ DataCollection.short_iff.symm

theorem documentRecords_concat {data : DataCollection} {name : Bytes} {record : ExtendedValueInternal}
    (h : data.lookup name = some record) (names : List Bytes) :
    documentRecords data (names ++ [name]) = documentRecords data names ++ [(.ref name, .ref record.value.value)] := by
  simp [documentRecords, List.filterMap_append, DataCollection.valueOf, h]

/-- A short name and its value are put into a document uncut. -/
theorem DataCollection.Short.ref_bytes {data : DataCollection} (hs : data.Short) {name value : Bytes}
    (hv : data.valueOf name = some value) : (JString.ref name).bytes = name ∧ (JString.ref value).bytes = value := by
  obtain ⟨record, hr, rfl⟩ := Option.map_eq_some_iff.1 hv
  obtain ⟨hn, hlen⟩ := hs name record hr
  exact ⟨JString.ref_bytes hn, JString.ref_bytes (by rwa [StdString.length_value])⟩

theorem names_documentRecords {data : DataCollection} (hs : data.Short) {names : List Bytes}
    (hn : ∀ name ∈ names, name ∈ data) : (documentRecords data names).map (fun r => r.1.bytes) = names := by
  induction names with
  | nil => rfl
  | cons name names ih =>
    obtain ⟨record, hr⟩ := Finmap.mem_iff.1 (hn name List.mem_cons_self)
    have hv := DataCollection.valueOf_of_lookup hr
    have hrest := ih fun n hm => hn n (List.mem_cons_of_mem _ hm)
    rw [documentRecords] at hrest
    rw [documentRecords, List.filterMap_cons_some (by rw [hv]; rfl), List.map_cons, hrest, (hs.ref_bytes hv).1]

theorem snapshot_documentRecords (rj : RapidJson) {data : DataCollection} {order : List Bytes}
    (ho : data.IterationOrder order) (hs : data.Short) :
    Snapshot rj data (some (rj.write (.ofStrings (documentRecords data order)))) order.length := by
  have hnames := names_documentRecords hs fun name hn => (ho.2 name).1 hn
  refine ⟨documentRecords data order, rfl, ?_, ?_, ?_⟩
  · have := congrArg List.length hnames
    rw [List.length_map] at this
    exact this.symm
  · rw [hnames]
    exact ho.1
  · intro name value
    constructor
    · rintro ⟨r, hr, rfl, rfl⟩
      obtain ⟨n, hn, hr⟩ := List.mem_filterMap.1 hr
      obtain ⟨v, hv, rfl⟩ := Option.map_eq_some_iff.1 hr
      obtain ⟨hname, hvalue⟩ := hs.ref_bytes hv
      rw [hname, hvalue]
      exact hv
    · intro hv
      refine ⟨(.ref name, .ref value), List.mem_filterMap.2 ⟨name, ?_, by rw [hv]; rfl⟩, hs.ref_bytes hv⟩
      exact (ho.2 name).2 (DataCollection.mem_of_valueOf hv)

/-- The records of a snapshot, as they are loaded. -/
theorem Snapshot.loadedRecords {rj : RapidJson} (hp : rj.ParsesOwnText) {data : DataCollection} {file : Option Bytes}
    {n : Nat} (h : Snapshot rj data file n) :
    ((loadedRecords rj file).map Prod.fst).Nodup ∧ (DataSerializer.loadedRecords rj file).length = n ∧
      ∀ name, lastValue name (DataSerializer.loadedRecords rj file) = data.valueOf name := by
  obtain ⟨records, rfl, rfl, hnodup, hrecords⟩ := h
  rw [loadedRecords_ofStrings hp]
  have hnodup' : ((records.map fun r => (r.1.bytes, r.2.bytes)).map Prod.fst).Nodup := by
    rwa [List.map_map]
  refine ⟨hnodup', by rw [List.length_map], fun name => ?_⟩
  apply Option.ext
  intro value
  rw [lastValue_eq_some_iff hnodup', ← hrecords, List.mem_map]
  constructor
  · rintro ⟨r, hr, he⟩
    rw [Prod.mk.injEq] at he
    exact ⟨r, hr, he⟩
  · rintro ⟨r, hr, rfl, rfl⟩
    exact ⟨r, hr, rfl⟩

variable [Allocator]

/-- A snapshot is loaded completely, into an engine that holds its values. -/
theorem Snapshot.loads {rj : RapidJson} (hp : rj.ParsesOwnText) {data : DataCollection} {file : Option Bytes} {n : Nat}
    (h : Snapshot rj data file n) :
    (BackgroundWorker.initialLoadData rj file .empty).1 = .ok () ∧
      (BackgroundWorker.initialLoadData rj file .empty).2.1 = n ∧
      ∀ name, (BackgroundWorker.initialLoadData rj file .empty).2.2.data.valueOf name = data.valueOf name := by
  obtain ⟨-, hlen, hvalue⟩ := h.loadedRecords hp
  obtain ⟨records, hfile, -, -, -⟩ := h
  rw [BackgroundWorker.initialLoadData_state]
  refine ⟨?_, hlen, fun name => (valueOf_load _ name).trans (hvalue name)⟩
  rw [hfile]
  exact load_ofStrings hp records _ _

/-- Two snapshots of the same values are loaded into equal engines. -/
theorem Snapshot.load_congr {rj : RapidJson} (hp : rj.ParsesOwnText) {data data' : DataCollection}
    {file file' : Option Bytes} {n n' : Nat} (h : Snapshot rj data file n) (h' : Snapshot rj data' file' n')
    (hv : ∀ name, data.valueOf name = data'.valueOf name) :
    (BackgroundWorker.initialLoadData rj file .empty).2.2 = (BackgroundWorker.initialLoadData rj file' .empty).2.2 := by
  obtain ⟨hnodup, -, hvalue⟩ := h.loadedRecords hp
  obtain ⟨hnodup', -, hvalue'⟩ := h'.loadedRecords hp
  rw [BackgroundWorker.initialLoadData_state, BackgroundWorker.initialLoadData_state]
  exact KeyValueServer.load_congr hnodup hnodup' fun name => by rw [hvalue, hvalue', hv]

end KeyValueServer
