import KeyValueServer.BackgroundWorker
import KeyValueServer.JsonText
import KeyValueServer.RecordHistory

/-!
# What becomes of a file that cannot be loaded

`initial_load_data` logs that `load` failed and returns as after a success; `main` goes on with the records that
were visited before the failure, and the next `store_data` writes the file anew from the engine.  Here `main` runs
its operations one after the other (`Process`).  The records of the file survive a save exactly as far as they were
loaded or set again (`keepsDatabase_iff`).
-/

namespace KeyValueServer

open DataSerializer

/-- What happens in a run after the initial load; a save goes through the records in some order. -/
inductive Action
  | get (name : Bytes)
  | set (name value : Bytes)
  | storeData (order : List Bytes)
  deriving DecidableEq

/-- The running program: its engine, and the database file. -/
structure Process where
  engine : DataEngine
  file : Option Bytes

/-- The names and values that are set, in order. -/
def setRecords (actions : List Action) : List (Bytes × Bytes) :=
  actions.filterMap fun
    | .set name value => some (name, value)
    | _ => none

/-- The file parses to an object with this member. -/
def FileHolds (rj : RapidJson) (file : Option Bytes) (n v : JString) : Prop :=
  ∃ members, file.bind rj.parse = some (.object members) ∧ (n, .string v) ∈ members

namespace Process

variable [Allocator]

/-- `main` up to the end of `initial_load_data`, on a file with this content. -/
def start (rj : RapidJson) (content : Bytes) : Process where
  engine := (BackgroundWorker.initialLoadData rj (some content) .empty).2.2
  file := some content

def act (rj : RapidJson) (p : Process) : Action → Process
  | .get name => { p with engine := (p.engine.get name).2 }
  | .set name value => { p with engine := p.engine.set name value }
  | .storeData order => { p with file := (BackgroundWorker.storeData rj p.engine order).2 }

def run (rj : RapidJson) (p : Process) (actions : List Action) : Process := actions.foldl (act rj) p

/-- Every save goes through the records of its engine. -/
def Orders (rj : RapidJson) (p : Process) (actions : List Action) : Prop :=
  ∀ before order after, actions = before ++ .storeData order :: after →
    (p.run rj before).engine.data.IterationOrder order

variable {rj : RapidJson}

theorem run_concat (p : Process) (actions : List Action) (a : Action) :
    p.run rj (actions ++ [a]) = (p.run rj actions).act rj a := by
  simp [run]

theorem Orders.of_concat {p : Process} {actions : List Action} {a : Action} (h : p.Orders rj (actions ++ [a])) :
    p.Orders rj actions := by
  rintro before order after rfl
  exact h before order (after ++ [a]) (by simp)

/-- One save that goes through the records of the engine. -/
theorem Orders.single {p : Process} {order : List Bytes} (h : p.engine.data.IterationOrder order) :
    p.Orders rj [.storeData order] := by
  intro before o after he
  cases before with
  | nil =>
    obtain ⟨ho, -⟩ := List.cons.inj he
    cases ho
    exact h
  | cons a before => simp at he

theorem valueOf_run (content : Bytes) (actions : List Action) (name : Bytes) :
    ((start rj content).run rj actions).engine.data.valueOf name =
      lastValue name (loadedRecords rj (some content) ++ setRecords actions) := by
  induction actions using List.reverseRecOn with
  | nil =>
    have hload := BackgroundWorker.initialLoadData_state rj (some content)
    show (start rj content).engine.data.valueOf name = _
    rw [start, hload, setRecords, List.filterMap_nil, List.append_nil]
    exact valueOf_load _ name
  | append_singleton actions a ih =>
    rw [run_concat]
    cases a with
    | get n =>
      show ((_ : DataCollection).get n).2.valueOf name = _
      rw [DataCollection.valueOf_get]
      simpa [setRecords, List.filterMap_append] using ih
    | set n v =>
      have hsets : setRecords (actions ++ [.set n v]) = setRecords actions ++ [(n, v)] := by
        simp [setRecords, List.filterMap_append]
      show ((_ : DataCollection).set n v).valueOf name = _
      rw [DataCollection.valueOf_set, hsets, ← List.append_assoc, lastValue_concat, ← ih]
      by_cases h : n = name
      · rw [if_pos h, if_pos h.symm]
      · rw [if_neg h, if_neg (Ne.symm h)]
    | storeData order =>
      simpa [setRecords, List.filterMap_append, act] using ih

theorem file_storeData {p : Process} {order : List Bytes} (h : p.engine.data.IterationOrder order) :
    (p.act rj (.storeData order)).file = some (rj.write (.ofStrings (documentRecords p.engine.data order))) := by
  rw [act, BackgroundWorker.storeData_eq rj h]

/-- The file is left alone until the first save, and is the text of an object of strings from then on. -/
theorem file_run {p : Process} {actions : List Action} (h : p.Orders rj actions) :
    ((∀ order, .storeData order ∉ actions) → (p.run rj actions).file = p.file) ∧
    ∀ order, .storeData order ∈ actions →
      ∃ records, (p.run rj actions).file = some (rj.write (.ofStrings records)) := by
  induction actions using List.reverseRecOn with
  | nil => exact ⟨fun _ => rfl, fun _ hm => by simp at hm⟩
  | append_singleton actions a ih =>
    obtain ⟨hkeep, hstored⟩ := ih h.of_concat
    rw [run_concat]
    cases a with
    | get n =>
      refine ⟨fun hn => hkeep fun order hm => hn order (by simp [hm]), fun order hm => ?_⟩
      exact hstored order (by simpa using hm)
    | set n v =>
      refine ⟨fun hn => hkeep fun order hm => hn order (by simp [hm]), fun order hm => ?_⟩
      exact hstored order (by simpa using hm)
    | storeData order =>
      have ho := h actions order [] rfl
      exact ⟨fun hn => absurd (List.mem_append_right _ (List.mem_singleton_self _)) (hn order),
        fun _ _ => ⟨_, file_storeData ho⟩⟩

end Process

section Database

variable [Allocator] {rj : RapidJson}

/-- What a failed load should not cost: a file that does not parse keeps its bytes, and after each save every string
member that the root object of the file had is still in the file, unless its name has been set. -/
def KeepsDatabase (rj : RapidJson) (content : Bytes) (actions : List Action) : Prop :=
  (rj.parse content = none → ((Process.start rj content).run rj actions).file = some content) ∧
  ∀ before order after, actions = before ++ .storeData order :: after →
    ∀ members n v, rj.parse content = some (.object members) → (n, .string v) ∈ members →
      n.bytes ∈ (setRecords before).map Prod.fst ∨
      FileHolds rj ((Process.start rj content).run rj (before ++ [.storeData order])).file n v

omit [Allocator] in
/-- A name too long for a document was set, which is cut to `n` when it is written. -/
def SetsCutName (records : List (Bytes × Bytes)) (n v : JString) : Prop :=
  ∃ name value, lastValue name records = some value ∧ sizeTypeRange ≤ name.length ∧ .ref name = n ∧ .ref value = v

/-- A file that does not parse is never saved over, and each string member of one that does was loaded, with the
last value of its name, before the load failed. -/
def SavesLoadedOnly (rj : RapidJson) (content : Bytes) (actions : List Action) : Prop :=
  (rj.parse content = none → ∀ order, .storeData order ∉ actions) ∧
  ∀ before order after, actions = before ++ .storeData order :: after →
    ∀ members n v, rj.parse content = some (.object members) → (n, .string v) ∈ members →
      n.bytes ∈ (setRecords before).map Prod.fst ∨ lastValue n.bytes (leadingStrings members) = some v.bytes ∨
      SetsCutName (setRecords before) n v

omit [Allocator] in
theorem fileHolds_save (hp : rj.ParsesOwnText) {data : DataCollection} {order : List Bytes}
    (ho : data.IterationOrder order) {n v : JString} :
    FileHolds rj (some (rj.write (.ofStrings (documentRecords data order)))) n v ↔
      ∃ name value, data.valueOf name = some value ∧ .ref name = n ∧ .ref value = v := by
  rw [← mem_documentRecords ho, FileHolds, Option.bind_some, hp]
  constructor
  · rintro ⟨members, hm, hmem⟩
    rw [Json.ofStrings, Option.some.injEq, Json.object.injEq] at hm
    subst hm
    obtain ⟨r, hr, he⟩ := List.mem_map.1 hmem
    rw [Prod.mk.injEq, Json.string.injEq] at he
    rwa [← he.1, ← he.2]
  · intro hmem
    exact ⟨_, rfl, List.mem_map_of_mem hmem⟩

/-- A member whose name was not set is in the file after a save exactly when it was loaded, or a cut name is
written in its place. -/
theorem fileHolds_iff (hp : rj.ParsesOwnText) {content : Bytes} {before : List Action} {order : List Bytes}
    (ho : ((Process.start rj content).run rj before).engine.data.IterationOrder order)
    {members : List (JString × Json)} (hparse : rj.parse content = some (.object members)) {n v : JString}
    (hn : n.bytes ∉ (setRecords before).map Prod.fst) :
    FileHolds rj ((Process.start rj content).run rj (before ++ [.storeData order])).file n v ↔
      lastValue n.bytes (leadingStrings members) = some v.bytes ∨ SetsCutName (setRecords before) n v := by
  have hloaded : loadedRecords rj (some content) = leadingStrings members := by
    rw [loadedRecords, Option.bind_some, hparse]
  have hvalue : ∀ name, ((Process.start rj content).run rj before).engine.data.valueOf name =
      lastValue name (loadedRecords rj (some content) ++ setRecords before) :=
    fun name => Process.valueOf_run content before name
  rw [hloaded] at hvalue
  rw [Process.run_concat, Process.file_storeData ho, fileHolds_save hp ho]
  constructor
  · rintro ⟨name, value, hv, rfl, rfl⟩
    rw [hvalue, lastValue_append] at hv
    cases hset : lastValue name (setRecords before) with
    | none =>
      left
      rw [hset, Option.none_or] at hv
      obtain ⟨hnlen, hvlen⟩ := length_of_leadingStrings (mem_of_lastValue hv)
      rwa [JString.ref_bytes hnlen, JString.ref_bytes hvlen]
    | some last =>
      right
      rw [hset, Option.some_or, Option.some.injEq] at hv
      subst hv
      refine ⟨name, last, hset, ?_, rfl, rfl⟩
      by_contra hshort
      rw [JString.ref_bytes (Nat.lt_of_not_le hshort)] at hn
      exact hn (List.mem_map_of_mem (f := Prod.fst) (mem_of_lastValue hset))
  · rintro (hv | ⟨name, value, hset, -, rfl, rfl⟩)
    · refine ⟨n.bytes, v.bytes, ?_, JString.ref_self n, JString.ref_self v⟩
      rw [hvalue, lastValue_append, lastValue_eq_none.2 hn, Option.none_or, hv]
    · refine ⟨name, value, ?_, rfl, rfl⟩
      rw [hvalue, lastValue_append, hset, Option.some_or]

/-- Saves keep the database that could not be loaded if and only if there is nothing in it but what was loaded. -/
theorem keepsDatabase_iff (hp : rj.ParsesOwnText) (content : Bytes) {actions : List Action}
    (ho : (Process.start rj content).Orders rj actions) :
    KeepsDatabase rj content actions ↔ SavesLoadedOnly rj content actions := by
  have hfile := Process.file_run ho
  refine and_congr (forall_congr' fun hparse => ?_) ?_
  · constructor
    · intro hkept order hm
      obtain ⟨records, hr⟩ := hfile.2 order hm
      -- what was written does parse
      rw [hkept, Option.some.injEq] at hr
      rw [hr, hp] at hparse
      cases hparse
    · exact fun hnone => hfile.1 hnone
  · refine forall_congr' fun before => forall_congr' fun order => forall_congr' fun after => forall_congr' fun he => ?_
    refine forall_congr' fun members => forall_congr' fun n => forall_congr' fun v => forall_congr' fun hparse => ?_
    refine forall_congr' fun _ => ?_
    by_cases hn : n.bytes ∈ (setRecords before).map Prod.fst
    · simp only [hn, true_or]
    · simp only [hn, false_or]
      exact fileHolds_iff hp (ho before order after he) hparse hn

end Database

section Runs

attribute [local instance] Allocator.exact

private def mixedMembers : List (JString × Json) :=
  [(.ref (ascii "a"), .string (.ref (ascii "1"))), (.ref (ascii "b"), .null),
    (.ref (ascii "c"), .string (.ref (ascii "3")))]

private theorem parse_mixedMembers :
    JsonText.library.parse (JsonText.write (.object mixedMembers)) = some (.object mixedMembers) :=
  JsonText.parse_write (by simp [mixedMembers, JsonText.IsLeaf])

private theorem start_mixedMembers : Process.start JsonText.library (JsonText.write (.object mixedMembers)) =
    ⟨.load [(ascii "a", ascii "1")], some (JsonText.write (.object mixedMembers))⟩ := by
  have hrecords : loadedRecords JsonText.library (some (JsonText.write (.object mixedMembers))) =
      [(ascii "a", ascii "1")] := by
    rw [loadedRecords, Option.bind_some, parse_mixedMembers]
    rfl
  rw [Process.start, BackgroundWorker.initialLoadData_state, hrecords]

/-- A member that is no string hides the members behind it from `load`, and the next save drops them. -/
theorem save_drops_members : ∃ content : Bytes,
    content = ascii "\x7b\"a\":\"1\",\"b\":null,\"c\":\"3\"\x7d" ∧
    (BackgroundWorker.initialLoadData JsonText.library (some content) .empty).1 =
      .error (.valueNotString 0 (ascii "b")) ∧
    (Process.start JsonText.library content).Orders JsonText.library [.storeData [ascii "a"]] ∧
    ((Process.start JsonText.library content).run JsonText.library [.storeData [ascii "a"]]).file =
      some (ascii "\x7b\"a\":\"1\"\x7d") ∧
    ¬ KeepsDatabase JsonText.library content [.storeData [ascii "a"]] := by
  have horder : (DataEngine.load [(ascii "a", ascii "1")]).data.IterationOrder [ascii "a"] :=
    DataCollection.iterationOrder_iff.2 (by decide)
  refine ⟨JsonText.write (.object mixedMembers), by decide, ?_, ?_, ?_, fun hkeeps => ?_⟩
  · rw [BackgroundWorker.initialLoadData, load, parse_mixedMembers]
    rfl
  · apply Process.Orders.single
    rw [start_mixedMembers]
    exact horder
  · rw [start_mixedMembers]
    decide
  · have hlost := hkeeps.2 [] [ascii "a"] [] rfl mixedMembers (.ref (ascii "c")) (.ref (ascii "3")) parse_mixedMembers
      (by simp [mixedMembers])
    rw [fileHolds_iff JsonText.parsesOwnText (by rw [start_mixedMembers]; exact horder) parse_mixedMembers
      (by decide)] at hlost
    rcases hlost with hset | hloaded | ⟨name, value, hcut, -⟩
    · exact absurd hset (by decide)
    · exact absurd hloaded (by decide)
    · exact absurd hcut (by simp [setRecords, lastValue, valuesUnder])

/-- A file whose only string member stands in front of the one that is no string. -/
theorem save_keeps_leading_member : ∃ content : Bytes,
    content = ascii "\x7b\"a\":\"1\",\"b\":null\x7d" ∧
    (BackgroundWorker.initialLoadData JsonText.library (some content) .empty).1 =
      .error (.valueNotString 0 (ascii "b")) ∧
    KeepsDatabase JsonText.library content [.storeData [ascii "a"]] := by
  have hparse : JsonText.library.parse (JsonText.write (.object (mixedMembers.take 2))) =
      some (.object (mixedMembers.take 2)) :=
    JsonText.parse_write (by simp [mixedMembers, JsonText.IsLeaf])
  have hrecords : loadedRecords JsonText.library (some (JsonText.write (.object (mixedMembers.take 2)))) =
      [(ascii "a", ascii "1")] := by
    rw [loadedRecords, Option.bind_some, hparse]
    rfl
  have horder : (DataEngine.load [(ascii "a", ascii "1")]).data.IterationOrder [ascii "a"] :=
    DataCollection.iterationOrder_iff.2 (by decide)
  refine ⟨JsonText.write (.object (mixedMembers.take 2)), by decide, ?_,
    (keepsDatabase_iff JsonText.parsesOwnText _ ?_).2 ⟨?_, ?_⟩⟩
  · rw [BackgroundWorker.initialLoadData, load, hparse]
    rfl
  · apply Process.Orders.single
    rw [Process.start, BackgroundWorker.initialLoadData_state, hrecords]
    exact horder
  · intro hnone
    rw [hparse] at hnone
    cases hnone
  · intro before order after _ ms n v hms hm
    right; left
    rw [hparse, Option.some.injEq, Json.object.injEq] at hms
    subst hms
    simp only [mixedMembers, List.take, List.mem_cons, Prod.mk.injEq, Json.string.injEq, reduceCtorEq, and_false,
      List.not_mem_nil, or_false] at hm
    obtain ⟨rfl, rfl⟩ := hm
    decide

end Runs

end KeyValueServer
