import KeyValueServer.DataEngine

/-!
# Loading and saving the database file

A `Document` holds references: `Document::add` stores a pointer to the characters it is shown, and their number cut
to 32 bits.  The name of a record is constant, so a pointer to it always shows the name; the value is engine
storage, and `DocumentMember.read` shows what is there at the time of reading.

A file is its bytes, or `none` when there is no file.
-/

namespace KeyValueServer

/-- A member of a document: the name, and a pointer into the storage of the value of a record. -/
structure DocumentMember where
  name : JString
  record : Bytes
  epoch : Nat
  length : Nat
  length_lt : length < sizeTypeRange
  deriving DecidableEq

abbrev Document := List DocumentMember

/-- The pointer that `Document::add` takes of the value of the record `name`. -/
def DocumentMember.ref (name : Bytes) (value : StdString) : DocumentMember where
  name := .ref name
  record := name
  epoch := value.epoch
  length := toSizeType value.size
  length_lt := toSizeType_lt _

def Document.add (document : Document) (name : Bytes) (value : StdString) : Document :=
  document ++ [.ref name value]

/-- The characters a member refers to, as they are in `data`; `none` when the storage is gone. -/
def DocumentMember.read (data : DataCollection) (member : DocumentMember) : Option JString :=
  (data.lookup member.record).bind fun record =>
    (record.value.read member.epoch member.length).map fun b =>
      ⟨b.take member.length, Nat.lt_of_le_of_lt (List.length_take_le _ _) member.length_lt⟩

/-- A member just added shows the value of its record, cut to 32 bits of length. -/
theorem DocumentMember.read_ref {data : DataCollection} {name : Bytes} {record : ExtendedValueInternal}
    (h : data.lookup name = some record) :
    (DocumentMember.ref name record.value).read data = some (.ref record.value.value) := by
  have hle := toSizeType_le record.value.size
  simp only [read, ref, h, Option.bind_some, StdString.read, ↓reduceIte, Option.map_some, Option.some.injEq,
    JString.ref, StdString.length_value]
  apply JString.ext
  simp [StdString.value, List.take_take, Nat.min_eq_left hle]

/-- What a member shows depends on the string of its record alone. -/
theorem DocumentMember.read_congr {data data' : DataCollection} {member : DocumentMember}
    (h : (data'.lookup member.record).map (fun record => record.value) =
      (data.lookup member.record).map fun record => record.value) : member.read data' = member.read data := by
  unfold read
  cases h₁ : data.lookup member.record with
  | none =>
    cases h₂ : data'.lookup member.record with
    | none => rfl
    | some record => simp [h₁, h₂] at h
  | some record =>
    cases h₂ : data'.lookup member.record with
    | none => simp [h₁, h₂] at h
    | some record' =>
      simp only [h₁, h₂, Option.map_some, Option.some.injEq] at h
      simp only [Option.bind_some, h]

/-- The names and strings that a document shows in `data`; `none` when a reference is dangling. -/
def Document.resolve (data : DataCollection) (document : Document) : Option (List (JString × JString)) :=
  document.mapM fun member : DocumentMember => (member.read data).map (member.name, ·)

@[simp] theorem Document.resolve_nil (data : DataCollection) : Document.resolve data [] = some [] := rfl

theorem Document.resolve_cons {data : DataCollection} {member : DocumentMember} {document : Document}
    {records : List (JString × JString)} :
    Document.resolve data (member :: document) = some records ↔ ∃ value rest, member.read data = some value ∧
      Document.resolve data document = some rest ∧ records = (member.name, value) :: rest := by
  rw [resolve, List.mapM_cons]
  simp only [Option.bind_eq_bind, Option.pure_def, Option.bind_eq_some_iff, Option.map_eq_some_iff,
    Option.some.injEq]
  constructor
  · rintro ⟨_, ⟨value, hv, rfl⟩, rest, hr, rfl⟩
    exact ⟨value, rest, hv, hr, rfl⟩
  · rintro ⟨value, rest, hv, hr, rfl⟩
    exact ⟨_, ⟨value, hv, rfl⟩, rest, hr, rfl⟩

theorem Document.resolve_concat {data : DataCollection} {document : Document} {member : DocumentMember}
    {records : List (JString × JString)} {value : JString} (h : document.resolve data = some records)
    (hv : member.read data = some value) :
    Document.resolve data (document ++ [member]) = some (records ++ [(member.name, value)]) := by
  induction document generalizing records with
  | nil =>
    obtain rfl : [] = records := by simpa using h
    exact Document.resolve_cons.2 ⟨value, [], hv, rfl, rfl⟩
  | cons first document ih =>
    obtain ⟨v, rest, hf, hr, rfl⟩ := Document.resolve_cons.1 h
    exact Document.resolve_cons.2 ⟨v, _, hf, ih hr, rfl⟩

/-- A document goes on showing what it shows as long as each of its members does. -/
theorem Document.resolve_mono {data data' : DataCollection} {document : Document} {records : List (JString × JString)}
    (hm : ∀ member ∈ document, ∀ v, member.read data = some v → member.read data' = some v)
    (h : document.resolve data = some records) : document.resolve data' = some records := by
  induction document generalizing records with
  | nil => exact h
  | cons first document ih =>
    obtain ⟨v, rest, hf, hr, rfl⟩ := Document.resolve_cons.1 h
    refine Document.resolve_cons.2 ⟨v, rest, hm first List.mem_cons_self v hf, ih ?_ hr, rfl⟩
    exact fun member hmem => hm member (List.mem_cons_of_mem _ hmem)

namespace DataSerializer

/-- Why `load` returned false, with the data that its log line shows. -/
inductive LoadError
  | opening
  | parsing
  | rootNotObject (type : Nat)
  | valueNotString (type : Nat) (name : Bytes)
  deriving DecidableEq

end DataSerializer

/-- `GetType()` as an integer. -/
def Json.getType : Json → Nat
  | .null => 0
  | .bool false => 1
  | .bool true => 2
  | .object _ => 3
  | .array _ => 4
  | .string _ => 5
  | .number _ => 6

namespace DataSerializer

/-- The log line of an error; a name is printed as a C string. -/
def LoadError.message (filename : Bytes) : LoadError → Bytes
  | .opening => ascii "Failed opening the file for reading: " ++ filename
  | .parsing => ascii "File parsing failed: " ++ filename
  | .rootNotObject type => ascii s!"JSON root element is not an object. Type: {type}"
  | .valueNotString type name =>
    ascii s!"JSON object element value is not a string. Type: {type}; name: " ++ name.takeWhile (· ≠ 0)

/-- The loop of `load` over the members of the root object, which ends at the first value that is no string. -/
def visitMembers {σ : Type} (visitor : σ → Bytes → Bytes → σ) : List (JString × Json) → σ → Except LoadError Unit × σ
  | [], s => (.ok (), s)
  | (name, .string value) :: members, s => visitMembers visitor members (visitor s name.bytes value.bytes)
  | (name, value) :: _, s => (.error (.valueNotString value.getType name.bytes), s)

def load {σ : Type} (rj : RapidJson) (file : Option Bytes) (visitor : σ → Bytes → Bytes → σ) (s : σ) :
    Except LoadError Unit × σ :=
  match file with
  | none => (.error .opening, s)
  | some content =>
    match rj.parse content with
    | none => (.error .parsing, s)
    | some (.object members) => visitMembers visitor members s
    | some root => (.error (.rootNotObject root.getType), s)

/-- The members of an object up to the first one whose value is no string. -/
def leadingStrings : List (JString × Json) → List (Bytes × Bytes)
  | (name, .string value) :: members => (name.bytes, value.bytes) :: leadingStrings members
  | _ => []

theorem leadingStrings_ofStrings (records : List (JString × JString)) :
    leadingStrings (records.map fun m => (m.1, .string m.2)) = records.map fun r => (r.1.bytes, r.2.bytes) := by
  induction records with
  | nil => rfl
  | cons r records ih => rw [List.map_cons, leadingStrings, ih, List.map_cons]

theorem length_of_leadingStrings {members : List (JString × Json)} {r : Bytes × Bytes}
    (h : r ∈ leadingStrings members) : r.1.length < sizeTypeRange ∧ r.2.length < sizeTypeRange := by
  induction members with
  | nil => simp [leadingStrings] at h
  | cons m members ih =>
    obtain ⟨name, value⟩ := m
    cases value with
    | string v =>
      rcases List.mem_cons.1 h with rfl | h
      · exact ⟨name.length_lt, v.length_lt⟩
      · exact ih h
    | _ => simp [leadingStrings] at h

/-- The records that `load` shows its visitor. -/
def loadedRecords (rj : RapidJson) (file : Option Bytes) : List (Bytes × Bytes) :=
  match file.bind rj.parse with
  | some (.object members) => leadingStrings members
  | _ => []

theorem length_of_loadedRecords {rj : RapidJson} {file : Option Bytes} {r : Bytes × Bytes}
    (h : r ∈ loadedRecords rj file) : r.1.length < sizeTypeRange ∧ r.2.length < sizeTypeRange := by
  unfold loadedRecords at h
  split at h
  · exact length_of_leadingStrings h
  · simp at h

theorem visitMembers_state {σ : Type} (visitor : σ → Bytes → Bytes → σ) (members : List (JString × Json)) (s : σ) :
    (visitMembers visitor members s).2 = (leadingStrings members).foldl (fun s r => visitor s r.1 r.2) s := by
  induction members generalizing s with
  | nil => rfl
  | cons m members ih =>
    obtain ⟨name, value⟩ := m
    cases value with
    | string v => exact ih (visitor s name.bytes v.bytes)
    | _ => rfl

/-- Whatever its result, `load` has called the visitor on the same records in the same order. -/
theorem load_state {σ : Type} (rj : RapidJson) (file : Option Bytes) (visitor : σ → Bytes → Bytes → σ) (s : σ) :
    (load rj file visitor s).2 = (loadedRecords rj file).foldl (fun s r => visitor s r.1 r.2) s := by
  unfold load loadedRecords
  cases file with
  | none => rfl
  | some content =>
    dsimp only [Option.bind_some]
    cases rj.parse content with
    | none => rfl
    | some root =>
      cases root with
      | object members => exact visitMembers_state visitor members s
      | _ => rfl

theorem loadedRecords_ofStrings {rj : RapidJson} (hp : rj.ParsesOwnText) (records : List (JString × JString)) :
    loadedRecords rj (some (rj.write (.ofStrings records))) = records.map fun r => (r.1.bytes, r.2.bytes) := by
  rw [loadedRecords, Option.bind_some, hp]
  exact leadingStrings_ofStrings records

/-- The members of the root object of a file whose values are strings. -/
def fileRecords (rj : RapidJson) (file : Option Bytes) : List (Bytes × Bytes) :=
  match file.bind rj.parse with
  | some (.object members) => members.filterMap fun
    | (name, .string value) => some (name.bytes, value.bytes)
    | _ => none
  | _ => []

/-- A file that is accepted has shown the visitor all of its members. -/
theorem loadedRecords_of_load {σ : Type} {rj : RapidJson} {file : Option Bytes} {visitor : σ → Bytes → Bytes → σ}
    {s : σ} (h : (load rj file visitor s).1 = .ok ()) : loadedRecords rj file = fileRecords rj file := by
  cases file with
  | none => rfl
  | some content =>
    rw [load] at h
    rw [loadedRecords, fileRecords, Option.bind_some]
    cases hparse : rj.parse content with
    | none => rfl
    | some root =>
      rw [hparse] at h
      cases root with
      | object members =>
        dsimp only at h ⊢
        clear hparse
        induction members generalizing s with
        | nil => rfl
        | cons m members ih =>
          obtain ⟨name, value⟩ := m
          cases value with
          | string v =>
            rw [visitMembers] at h
            rw [leadingStrings, ih h]
            rfl
          | _ => simp [visitMembers] at h
      | _ => rfl

theorem visitMembers_strings {σ : Type} (visitor : σ → Bytes → Bytes → σ) (records : List (JString × JString)) (s : σ) :
    (visitMembers visitor (records.map fun m => (m.1, .string m.2)) s).1 = .ok () := by
  induction records generalizing s with
  | nil => rfl
  | cons r records ih => exact ih _

/-- An object of strings is loaded completely. -/
theorem load_ofStrings {σ : Type} {rj : RapidJson} (hp : rj.ParsesOwnText) (records : List (JString × JString))
    (visitor : σ → Bytes → Bytes → σ) (s : σ) :
    (load rj (some (rj.write (.ofStrings records))) visitor s).1 = .ok () := by
  rw [load, hp]
  exact visitMembers_strings visitor records s

/-- `save`, when the file can be opened and written: the new content of the file.  The references are followed
here. -/
def save (rj : RapidJson) (data : DataCollection) (document : Document) : Option Bytes :=
  (document.resolve data).map fun records => rj.write (.ofStrings records)

end DataSerializer

end KeyValueServer
