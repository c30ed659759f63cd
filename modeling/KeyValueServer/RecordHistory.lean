import KeyValueServer.DataEngine

/-!
# The history of one record

What the engine is for, told for one name: after a record was loaded or not, after `sets` were the values written
to it in this order and `hits` reads found it, the engine holds the last value written, or else the loaded one,
and counts the writes and the reads modulo 2^64; the record is there as soon as it was loaded or written.
-/

namespace KeyValueServer

/-- `o` is what the engine holds under a name with this history. -/
structure RecordHistory (o : Option ExtendedValueInternal) (initial : Option Bytes) (sets : List Bytes)
    (hits : Nat) : Prop where
  none_iff : o = none ↔ initial = none ∧ sets = []
  found : ∀ record, o = some record → some record.value.value = sets.getLast?.or initial ∧
    record.writes = .ofNat sets.length ∧ record.reads = .ofNat hits
  unread : o = none → hits = 0

namespace RecordHistory

variable {o : Option ExtendedValueInternal} {initial : Option Bytes} {sets : List Bytes} {hits : Nat}

theorem value_eq (h : RecordHistory o initial sets hits) :
    (o.map fun record => record.value.value) = sets.getLast?.or initial := by
  cases o with
  | none =>
    obtain ⟨rfl, rfl⟩ := h.none_iff.1 rfl
    rfl
  | some record => exact (h.found record rfl).1

/-- A record that was loaded, and neither read nor written yet. -/
theorem loaded (ho : ∀ record, o = some record → record.reads = 0 ∧ record.writes = 0) :
    RecordHistory o (o.map fun record => record.value.value) [] 0 where
  none_iff := by simp
  found record hr := by
    subst hr
    exact ⟨rfl, (ho record rfl).2, (ho record rfl).1⟩
  unread _ := rfl

theorem read {record : ExtendedValueInternal} (h : RecordHistory (some record) initial sets hits) :
    RecordHistory (some { record with reads := record.reads + 1 }) initial sets (hits + 1) where
  none_iff := by
    have := h.none_iff
    simp only [reduceCtorEq, false_iff] at this ⊢
    exact this
  found r hr := by
    rw [Option.some.injEq] at hr
    subst hr
    obtain ⟨hv, hw, hr⟩ := h.found record rfl
    exact ⟨hv, hw, by rw [UInt64.ofNat_add, ← hr]; rfl⟩
  unread hn := by cases hn

theorem write [Allocator] (h : RecordHistory o initial sets hits) (value : Bytes) :
    RecordHistory (some (DataCollection.written value o)) initial (sets ++ [value]) hits where
  none_iff := by simp
  found r hr := by
    rw [Option.some.injEq] at hr
    subst hr
    refine ⟨by simp, ?_, ?_⟩
    · rw [List.length_append, UInt64.ofNat_add]
      cases o with
      | none =>
        obtain ⟨-, rfl⟩ := h.none_iff.1 rfl
        rfl
      | some record => rw [← (h.found record rfl).2.1]; rfl
    · cases o with
      | none => rw [h.unread rfl]; rfl
      | some record => exact (h.found record rfl).2.2
  unread hn := by cases hn

end RecordHistory

/-- The values under a name in a list of records, in order. -/
def valuesUnder (name : Bytes) (records : List (Bytes × Bytes)) : List Bytes :=
  records.filterMap fun r => if r.1 = name then some r.2 else none

/-- The last value under a name in a list of records. -/
def lastValue (name : Bytes) (records : List (Bytes × Bytes)) : Option Bytes := (valuesUnder name records).getLast?

theorem valuesUnder_append (name : Bytes) (records records' : List (Bytes × Bytes)) :
    valuesUnder name (records ++ records') = valuesUnder name records ++ valuesUnder name records' :=
  List.filterMap_append

theorem valuesUnder_singleton (name n v : Bytes) :
    valuesUnder name [(n, v)] = if n = name then [v] else [] := by
  by_cases h : n = name <;> simp [valuesUnder, h]

theorem lastValue_append (name : Bytes) (records records' : List (Bytes × Bytes)) :
    lastValue name (records ++ records') = (lastValue name records').or (lastValue name records) := by
  rw [lastValue, valuesUnder_append, List.getLast?_append]
  rfl

theorem lastValue_concat (name n v : Bytes) (records : List (Bytes × Bytes)) :
    lastValue name (records ++ [(n, v)]) = if n = name then some v else lastValue name records := by
  rw [lastValue_append, lastValue, valuesUnder_singleton]
  by_cases h : n = name <;> simp [h]

theorem valuesUnder_eq_nil {name : Bytes} {records : List (Bytes × Bytes)} :
    valuesUnder name records = [] ↔ name ∉ records.map Prod.fst := by
  rw [valuesUnder, List.filterMap_eq_nil_iff]
  constructor
  · intro h hm
    obtain ⟨r, hr, rfl⟩ := List.mem_map.1 hm
    have := h r hr
    simp at this
  · intro h r hr
    split
    · rename_i he
      exact absurd (List.mem_map.2 ⟨r, hr, he⟩) h
    · rfl

theorem lastValue_eq_none {name : Bytes} {records : List (Bytes × Bytes)} :
    lastValue name records = none ↔ name ∉ records.map Prod.fst := by
  rw [lastValue, List.getLast?_eq_none_iff, valuesUnder_eq_nil]

theorem mem_of_lastValue {name value : Bytes} {records : List (Bytes × Bytes)}
    (h : lastValue name records = some value) : (name, value) ∈ records := by
  obtain ⟨r, hr, he⟩ := List.mem_filterMap.1 (List.mem_of_getLast? h)
  split at he
  · rename_i hn
    rw [Option.some.injEq] at he
    rwa [← hn, ← he]
  · cases he

/-- Where the names are distinct, the last value of a name is its only one. -/
theorem lastValue_eq_some_iff {records : List (Bytes × Bytes)} (h : (records.map Prod.fst).Nodup) {name value : Bytes} :
    lastValue name records = some value ↔ (name, value) ∈ records := by
  refine ⟨mem_of_lastValue, fun hm => ?_⟩
  cases hv : lastValue name records with
  | none => exact absurd (List.mem_map_of_mem hm) (lastValue_eq_none.1 hv)
  | some v =>
    have hsame := List.inj_on_of_nodup_map h (mem_of_lastValue hv) hm rfl
    rw [Prod.mk.injEq] at hsame
    rw [hsame.2]

variable [Allocator]

/-- The records of a loaded engine are the last values of the list that was loaded. -/
theorem valueOf_load (records : List (Bytes × Bytes)) (name : Bytes) :
    (DataEngine.load records).data.valueOf name = lastValue name records := by
  induction records using List.reverseRecOn with
  | nil => simp [DataEngine.load, DataEngine.empty, DataCollection.valueOf, lastValue, valuesUnder]
  | append_singleton records r ih =>
    obtain ⟨n, v⟩ := r
    rw [DataEngine.load_append, lastValue_concat, ← ih]
    rw [DataEngine.initialSet, DataCollection.valueOf_initialSet]
    by_cases h : n = name
    · rw [if_pos h, if_pos h.symm]
    · rw [if_neg h, if_neg (Ne.symm h)]

/-- Records of distinct names are loaded into fresh strings. -/
theorem lookup_load {records : List (Bytes × Bytes)} (h : (records.map Prod.fst).Nodup) (name : Bytes) :
    (DataEngine.load records).data.lookup name = (lastValue name records).map fun value => ⟨.ofBytes value, 0, 0⟩ := by
  induction records using List.reverseRecOn with
  | nil => simp [DataEngine.load, DataEngine.empty, lastValue, valuesUnder]
  | append_singleton records r ih =>
    obtain ⟨n, v⟩ := r
    rw [List.map_append, List.nodup_append] at h
    have hn : lastValue n records = none :=
      lastValue_eq_none.2 fun hm => h.2.2 n hm n (List.mem_singleton_self n) rfl
    have hrest := ih h.1
    rw [DataEngine.load_append, lastValue_concat, DataEngine.initialSet, DataCollection.lookup_initialSet]
    by_cases he : n = name
    · subst he
      rw [if_pos rfl, if_pos rfl, hrest, hn]
      rfl
    · rw [if_neg he, if_neg (Ne.symm he), hrest]

/-- Loaded engines of distinct names are equal when they hold the same values. -/
theorem load_congr {records records' : List (Bytes × Bytes)} (h : (records.map Prod.fst).Nodup)
    (h' : (records'.map Prod.fst).Nodup) (hv : ∀ name, lastValue name records = lastValue name records') :
    DataEngine.load records = DataEngine.load records' := by
  have hdata : (DataEngine.load records).data = (DataEngine.load records').data := by
    apply Finmap.ext_lookup
    intro name
    rw [lookup_load h, lookup_load h', hv]
  have hs := DataEngine.load_statistics records
  have hs' := DataEngine.load_statistics records'
  exact DataEngine.ext hdata (hs.1.trans hs'.1.symm) (hs.2.1.trans hs'.2.1.symm)

theorem recordHistory_load (records : List (Bytes × Bytes)) (name : Bytes) :
    RecordHistory ((DataEngine.load records).data.lookup name) (lastValue name records) [] 0 := by
  rw [← valueOf_load]
  exact RecordHistory.loaded fun record hr => (DataEngine.load_statistics records).2.2 name record hr

end KeyValueServer
