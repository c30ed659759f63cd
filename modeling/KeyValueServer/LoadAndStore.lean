import KeyValueServer.RequestOrder

/-!
# Loading a file and storing it again

A file that `load` accepts may name a record several times: `initial_set` overwrites, so the last member of each name
stays, while the count that is logged counts all of them.  The following `store_data` writes each name once, in the
order of the iteration, and from then on loading and storing change nothing (`load_store_normalises`).
-/

namespace KeyValueServer

open DataSerializer

/-- The members of a file as names and values. -/
def recordsOf (members : List (JString × JString)) : List (Bytes × Bytes) :=
  members.map fun m => (m.1.bytes, m.2.bytes)

theorem visitMembers_ok {σ : Type} {visitor : σ → Bytes → Bytes → σ} {members : List (JString × Json)} {s : σ}
    (h : (visitMembers visitor members s).1 = .ok ()) :
    ∃ records : List (JString × JString), members = records.map fun m => (m.1, .string m.2) := by
  induction members generalizing s with
  | nil => exact ⟨[], rfl⟩
  | cons m members ih =>
    obtain ⟨name, value⟩ := m
    cases value with
    | string v =>
      obtain ⟨records, rfl⟩ := ih h
      exact ⟨(name, v) :: records, rfl⟩
    | _ => simp [visitMembers] at h

/-- What `load` accepts: an object of strings. -/
theorem load_ok_iff {σ : Type} {rj : RapidJson} {file : Option Bytes} {visitor : σ → Bytes → Bytes → σ} {s : σ} :
    (load rj file visitor s).1 = .ok () ↔ ∃ members, file.bind rj.parse = some (.ofStrings members) := by
  cases file with
  | none => simp [load]
  | some content =>
    rw [load, Option.bind_some]
    constructor
    · intro h
      cases hparse : rj.parse content with
      | none => simp [hparse] at h
      | some root =>
        rw [hparse] at h
        cases root with
        | object members =>
          obtain ⟨records, rfl⟩ := visitMembers_ok h
          exact ⟨records, rfl⟩
        | _ => simp at h
    · rintro ⟨members, hparse⟩
      rw [hparse]
      exact visitMembers_strings visitor members s

theorem loadedRecords_of_parse {rj : RapidJson} {file : Option Bytes} {members : List (JString × JString)}
    (h : file.bind rj.parse = some (.ofStrings members)) : loadedRecords rj file = recordsOf members := by
  rw [loadedRecords, h]
  exact leadingStrings_ofStrings members

/-- The distinct names of a list of records. -/
def distinctNames (records : List (Bytes × Bytes)) : List Bytes := (records.map Prod.fst).dedup

theorem length_eq_distinctNames_iff {records : List (Bytes × Bytes)} :
    records.length = (distinctNames records).length ↔ (records.map Prod.fst).Nodup := by
  have hsub : (distinctNames records).Sublist (records.map Prod.fst) := List.dedup_sublist _
  rw [← List.length_map (f := Prod.fst)]
  constructor
  · intro hlen
    have hself : distinctNames records = records.map Prod.fst := hsub.eq_of_length hlen.symm
    exact List.dedup_eq_self.1 hself
  · intro hnodup
    have hself : distinctNames records = records.map Prod.fst := hnodup.dedup
    rw [hself]

section Engines

variable [Allocator]

/-- The engine holds the last value of each name, and has counted nothing. -/
structure HoldsLast (records : List (Bytes × Bytes)) (e : DataEngine) : Prop where
  view : ∀ name, e.view name = (lastValue name records).map fun value => ⟨value, ⟨0, 0⟩⟩
  statistics : e.getGlobalStatistics = ⟨0, 0⟩

theorem holdsLast_load (records : List (Bytes × Bytes)) : HoldsLast records (.load records) := by
  obtain ⟨hreads, hwrites, hrecords⟩ := DataEngine.load_statistics records
  refine ⟨fun name => ?_, ?_⟩
  · rw [← valueOf_load, DataEngine.view, DataCollection.valueOf]
    cases hr : (DataEngine.load records).data.lookup name with
    | none => rfl
    | some record =>
      obtain ⟨hrecordReads, hrecordWrites⟩ := hrecords name record hr
      rw [Option.map_some, Option.map_some, Option.map_some, hrecordReads, hrecordWrites]
  · rw [DataEngine.getGlobalStatistics, hreads, hwrites]

theorem mem_load {records : List (Bytes × Bytes)} {name : Bytes} :
    name ∈ (DataEngine.load records).data ↔ name ∈ records.map Prod.fst := by
  have hvalue := valueOf_load records name
  have hnone : lastValue name records = none ↔ name ∉ records.map Prod.fst := lastValue_eq_none
  rw [← hvalue, DataCollection.valueOf, Option.map_eq_none_iff] at hnone
  rw [← not_iff_not, ← hnone, Finmap.lookup_eq_none]

/-- An iteration of a loaded engine visits the distinct names. -/
theorem length_order {records : List (Bytes × Bytes)} {order : List Bytes}
    (ho : (DataEngine.load records).data.IterationOrder order) : order.length = (distinctNames records).length := by
  have hperm : order.Perm (distinctNames records) := by
    refine (List.perm_ext_iff_of_nodup ho.1 (List.nodup_dedup _)).2 fun name => ?_
    rw [ho.2, mem_load]
    exact List.mem_dedup.symm
  exact hperm.length_eq

/-- What becomes of a file with these members when it is loaded, stored and loaded again. -/
structure Normalised (rj : RapidJson) (members : List (JString × JString)) (loaded : Nat × DataEngine)
    (order : List Bytes) : Prop where
  holdsLast : HoldsLast (recordsOf members) loaded.2
  stored : ∃ written : List (JString × JString),
    (BackgroundWorker.storeData rj loaded.2 order).2 = some (rj.write (.ofStrings written)) ∧
    (written.map fun m => m.1.bytes).Nodup ∧
    ∀ name value, (∃ m ∈ written, m.1.bytes = name ∧ m.2.bytes = value) ↔
      lastValue name (recordsOf members) = some value
  storedCount : (BackgroundWorker.storeData rj loaded.2 order).1 = (distinctNames (recordsOf members)).length
  reloads : (BackgroundWorker.initialLoadData rj (BackgroundWorker.storeData rj loaded.2 order).2 .empty).1 = .ok ()
  reloadedView : ∀ name,
    (BackgroundWorker.loadedEngine rj (BackgroundWorker.storeData rj loaded.2 order).2).view name = loaded.2.view name
  reloadedStatistics :
    (BackgroundWorker.loadedEngine rj (BackgroundWorker.storeData rj loaded.2 order).2).getGlobalStatistics =
      loaded.2.getGlobalStatistics
  counts : loaded.1 = (BackgroundWorker.storeData rj loaded.2 order).1 ↔
    ((recordsOf members).map Prod.fst).Nodup

/-- Loading and storing normalises every file that is accepted, whatever the order of the iteration. -/
theorem load_store_normalises {rj : RapidJson} (hp : rj.ParsesOwnText) {file : Option Bytes} {order : List Bytes}
    (hload : (BackgroundWorker.initialLoadData rj file .empty).1 = .ok ())
    (horder : (BackgroundWorker.loadedEngine rj file).data.IterationOrder order) :
    ∃ members, file.bind rj.parse = some (.ofStrings members) ∧
      Normalised rj members (BackgroundWorker.initialLoadData rj file .empty).2 order := by
  obtain ⟨members, hparse⟩ := load_ok_iff.1 hload
  have hrecords := loadedRecords_of_parse hparse
  have hshort := HttpServer.short_loadedEngine rj file
  rw [BackgroundWorker.loadedEngine_eq, hrecords] at horder hshort
  rw [BackgroundWorker.initialLoadData_state, hrecords]
  have hstore := BackgroundWorker.storeData_eq rj horder
  have hsnapshot := snapshot_documentRecords rj horder hshort
  obtain ⟨hok, -, -⟩ := hsnapshot.loads hp
  obtain ⟨-, -, hlast⟩ := hsnapshot.loadedRecords hp
  have hcount := length_order horder
  have hholds := holdsLast_load (recordsOf members)
  -- the second load finds the same last values
  have hagain := holdsLast_load
    (loadedRecords rj (some (rj.write (.ofStrings (documentRecords (DataEngine.load (recordsOf members)).data order)))))
  refine ⟨members, hparse, hholds, ?_, ?_, ?_, ?_, ?_, ?_⟩
  · obtain ⟨written, hfile, -, hnodup, hwritten⟩ := hsnapshot
    rw [hstore]
    refine ⟨written, hfile, hnodup, fun name value => ?_⟩
    rw [hwritten, valueOf_load]
  · rw [hstore, hcount]
  · rw [hstore]
    exact hok
  · intro name
    rw [hstore, BackgroundWorker.loadedEngine_eq, hagain.view, hholds.view, hlast, valueOf_load]
  · rw [hstore, BackgroundWorker.loadedEngine_eq, hagain.statistics, hholds.statistics]
  · rw [hstore, hcount]
    exact length_eq_distinctNames_iff

end Engines

section Runs

attribute [local instance] Allocator.exact

private def repeated : List (JString × JString) :=
  [(.ref (ascii "a"), .ref (ascii "1")), (.ref [], .ref (ascii "2")), (.ref (ascii "a"), .ref (ascii "3"))]

/-- A file with an empty name, and a name that is repeated. -/
theorem repeated_name_normalised : ∃ members,
    Option.bind (some (JsonText.write (.ofStrings repeated))) JsonText.library.parse = some (.ofStrings members) ∧
    Normalised JsonText.library members
      (BackgroundWorker.initialLoadData JsonText.library (some (JsonText.write (.ofStrings repeated))) .empty).2
      [[], ascii "a"] := by
  have hparse : Option.bind (some (JsonText.write (.ofStrings repeated))) JsonText.library.parse =
      some (.ofStrings repeated) := JsonText.parsesOwnText repeated
  have horder : (BackgroundWorker.loadedEngine JsonText.library
      (some (JsonText.write (.ofStrings repeated)))).data.IterationOrder [[], ascii "a"] := by
    rw [BackgroundWorker.loadedEngine_eq, loadedRecords_of_parse hparse]
    exact DataCollection.iterationOrder_iff.2 (by decide)
  exact load_store_normalises JsonText.parsesOwnText (load_ok_iff.2 ⟨repeated, hparse⟩) horder

end Runs

end KeyValueServer
