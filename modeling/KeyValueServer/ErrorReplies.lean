import KeyValueServer.HttpServer
import KeyValueServer.JsonText
import KeyValueServer.SetAllocations

/-!
# The replies of the catch blocks

The body of a reply is declared outside of the `try` block, and its members are references: `JsonBody::add` keeps a
pointer to the characters of a string.  When something throws, the catch block adds an error to the members that are
there already and sends the body, but the strings `name` and `value` of the `try` block are gone by then.  What is found
at their addresses is not defined: any bytes may be there (`Storage`).

So a reply of a catch block is in order exactly when it was thrown before the name was added, or when the name is empty
and the error could not be added (`caught_wellFormed_iff`).
-/

namespace KeyValueServer

open HttpServerHelpers

namespace HttpServer

/-- The strings of the `try` block that the body refers to. -/
inductive Local
  | name
  | value
  deriving DecidableEq

/-- The characters at the addresses of these strings. -/
abbrev Storage := Local → Nat → UInt8

/-- The storage while the strings are alive. -/
def holding (name value : Bytes) : Storage
  | .name, i => name.getD i 0
  | .value, i => value.getD i 0

/-- The value of a member of the body. -/
inductive MemberRef
  | literal (text : Bytes)
  | ref (l : Local) (size : Nat)
  | counter (n : UInt64)
  deriving DecidableEq

/-- The body of a reply before it is dumped. -/
abbrev RefBody := List (Bytes × MemberRef)

/-- What a reference shows, as many characters as its 32-bit length says. -/
def MemberRef.read (storage : Storage) : MemberRef → Json
  | .literal text => .string (.ref text)
  | .ref l size => .string (.ref ((List.range (toSizeType size)).map (storage l)))
  | .counter n => .number (.uint64 n)

def RefBody.object (storage : Storage) (body : RefBody) : JsonBody :=
  body.map fun m => (.ref m.1, m.2.read storage)

/-- What outlives the `try` block. -/
structure Frame where
  body : RefBody
  engine : DataEngine

/-- The places of a `try` block where an exception may be thrown. -/
inductive ThrowPoint
  | decode
  | addName
  | addError
  | addValue
  | addReads
  | addWrites
  | parse
  | lock
  | copyValue
  | respond
  deriving DecidableEq

/-- A part of a `try` block: its result, if it does not throw, and the frame that it leaves in either case. -/
abbrev Try := OptionT (StateM Frame)

def mayThrow (throws : ThrowPoint → Bool) (point : ThrowPoint) : Try Unit := do
  if throws point then failure

def addMember (throws : ThrowPoint → Bool) (point : ThrowPoint) (name : Bytes) (value : MemberRef) : Try Unit := do
  mayThrow throws point
  modify fun s => { s with body := s.body ++ [(name, value)] }

/-- The reply is built, and the body dumped, while the strings are alive. -/
def respond (rj : RapidJson) (throws : ThrowPoint → Bool) (status : Status) (storage : Storage) : Try Response := do
  mayThrow throws .respond
  return response rj status ((← get).body.object storage)

/-- A reply with an error, from the `try` block. -/
def refuse (rj : RapidJson) (throws : ThrowPoint → Bool) (status : Status) (error name : Bytes) : Try Response := do
  addMember throws .addError (ascii "error") (.literal error)
  respond rj throws status (holding name [])

section Blocks

variable [Allocator]

/-- `engine.get`: the name is copied and the lock taken before anything changes, the value is copied after the
counters. -/
def engineGet (throws : ThrowPoint → Bool) (name : Bytes) : Try (Option ExtendedValue) := do
  mayThrow throws .lock
  let e := (← get).engine
  modify fun s => { s with engine := (e.get name).2 }
  if (e.get name).1.isSome then mayThrow throws .copyValue
  return (e.get name).1

/-- `engine.set`, whose allocations may fail. -/
def engineSet (throws : ThrowPoint → Bool) (fails : AllocationPoint → Bool) (name value : Bytes) : Try Unit := do
  mayThrow throws .lock
  let e := (← get).engine
  modify fun s => { s with engine := (e.trySet fails name value).2 }
  match (e.trySet fails name value).1 with
  | .ok () => return ()
  | .error .badAlloc => failure

/-- How the `try` blocks of both handlers begin. -/
def named (rj : RapidJson) (throws : ThrowPoint → Bool) (nameRaw : Bytes) (rest : Bytes → Try Response) :
    Try Response := do
  mayThrow throws .decode
  let name := urlDecode nameRaw
  addMember throws .addName (ascii "name") (.ref .name name.length)
  if name = [] then refuse rj throws .badRequest emptyName name else rest name

/-- The `try` block of the GET handler. -/
def getTry (rj : RapidJson) (throws : ThrowPoint → Bool) (nameRaw : Bytes) : Try Response :=
  named rj throws nameRaw fun name => do
    match ← engineGet throws name with
    | none => refuse rj throws .notFound (ascii "Item not found") name
    | some value =>
      addMember throws .addValue (ascii "value") (.ref .value value.value.length)
      addMember throws .addReads (ascii "stats.reads") (.counter value.stats.reads)
      addMember throws .addWrites (ascii "stats.writes") (.counter value.stats.writes)
      respond rj throws .ok (holding name value.value)

/-- The `try` block of the POST handler. -/
def postTry (rj : RapidJson) (throws : ThrowPoint → Bool) (fails : AllocationPoint → Bool) (nameRaw body : Bytes) :
    Try Response :=
  named rj throws nameRaw fun name => do
    mayThrow throws .parse
    match requestValue rj body with
    | .error error => refuse rj throws .badRequest error name
    | .ok value =>
      engineSet throws fails name value.bytes
      respond rj throws .ok (holding name [])

def tryBlock (rj : RapidJson) (throws : ThrowPoint → Bool) (fails : AllocationPoint → Bool) (req : Request) :
    Try Response :=
  match req.method with
  | .get => getTry rj throws req.nameRaw
  | .post => postTry rj throws fails req.nameRaw req.body

/-- The members that the catch block sends. -/
def caughtObject (storage : Storage) (body : RefBody) : JsonBody :=
  RefBody.object storage (body ++ [(ascii "error", .literal (ascii "Server internal error"))])

/-- A handler with its catch block; `storage` is what is found at the addresses of the strings that are gone. -/
def handleCatching (rj : RapidJson) (throws : ThrowPoint → Bool) (fails : AllocationPoint → Bool) (storage : Storage)
    (e : DataEngine) (req : Request) : Response × DataEngine :=
  match (tryBlock rj throws fails req).run ⟨[], e⟩ with
  | (some reply, s) => (reply, s.engine)
  | (none, s) => (response rj .internalServerError (caughtObject storage s.body), s.engine)

end Blocks

/-! ### Running a block -/

theorem Try.run_bind {α β : Type} (x : Try α) (f : α → Try β) (s : Frame) :
    (x >>= f).run s = match x.run s with
      | (some a, s) => (f a).run s
      | (none, s) => (none, s) := by
  rw [OptionT.run_bind]
  show (match x.run s with | (o, s) => (o.elim (pure none) fun a => (f a).run : StateM Frame (Option β)) s) = _
  rcases x.run s with ⟨_ | a, s⟩ <;> rfl

@[simp] theorem Try.run_get (s : Frame) : (get : Try Frame).run s = (some s, s) := rfl

@[simp] theorem Try.run_modify (f : Frame → Frame) (s : Frame) : (modify f : Try Unit).run s = (some (), f s) := rfl

def Frame.add (s : Frame) (name : Bytes) (value : MemberRef) : Frame := { s with body := s.body ++ [(name, value)] }

theorem run_mayThrow (throws : ThrowPoint → Bool) (point : ThrowPoint) (s : Frame) :
    (mayThrow throws point).run s = (if throws point then none else some (), s) := by
  unfold mayThrow
  cases throws point <;> rfl

theorem run_addMember (throws : ThrowPoint → Bool) (point : ThrowPoint) (name : Bytes) (value : MemberRef)
    (s : Frame) :
    (addMember throws point name value).run s = if throws point then (none, s) else (some (), s.add name value) := by
  rw [addMember, Try.run_bind, run_mayThrow]
  cases throws point <;> rfl

theorem run_respond (rj : RapidJson) (throws : ThrowPoint → Bool) (status : Status) (storage : Storage) (s : Frame) :
    (respond rj throws status storage).run s =
      (if throws .respond then none else some (response rj status (s.body.object storage)), s) := by
  rw [respond, Try.run_bind, run_mayThrow]
  cases throws .respond <;> rfl

theorem run_refuse (rj : RapidJson) (throws : ThrowPoint → Bool) (status : Status) (error name : Bytes) (s : Frame) :
    (refuse rj throws status error name).run s =
      if throws .addError then (none, s)
      else (respond rj throws status (holding name [])).run (s.add (ascii "error") (.literal error)) := by
  rw [refuse, Try.run_bind, run_addMember]
  cases throws .addError <;> rfl

/-- The member that refers to the name. -/
def nameMember (name : Bytes) : Bytes × MemberRef := (ascii "name", .ref .name name.length)

theorem run_named (rj : RapidJson) (throws : ThrowPoint → Bool) (nameRaw : Bytes) (rest : Bytes → Try Response)
    (e : DataEngine) :
    (named rj throws nameRaw rest).run ⟨[], e⟩ =
      if throws .decode ∨ throws .addName then (none, ⟨[], e⟩)
      else if urlDecode nameRaw = [] then
        (refuse rj throws .badRequest emptyName (urlDecode nameRaw)).run ⟨[nameMember (urlDecode nameRaw)], e⟩
      else (rest (urlDecode nameRaw)).run ⟨[nameMember (urlDecode nameRaw)], e⟩ := by
  rw [named, Try.run_bind, run_mayThrow]
  cases throws .decode with
  | true => rfl
  | false =>
    simp only [Bool.false_eq_true, ↓reduceIte, Try.run_bind, run_addMember, false_or]
    cases throws .addName with
    | true => rfl
    | false =>
      simp only [Bool.false_eq_true, ↓reduceIte]
      split <;> rfl

/-! ### The members that are there stay -/

/-- A block adds members behind the ones that are there. -/
def Try.Extends {α : Type} (x : Try α) : Prop := ∀ s, s.body <+: (x.run s).2.body

theorem Try.Extends.bind {α β : Type} {x : Try α} {f : α → Try β} (hx : x.Extends) (hf : ∀ a, (f a).Extends) :
    (x >>= f).Extends := by
  intro s
  have hfirst := hx s
  rw [Try.run_bind]
  generalize x.run s = r at hfirst ⊢
  obtain ⟨_ | a, s₁⟩ := r
  · exact hfirst
  · exact hfirst.trans (hf a s₁)

theorem extends_mayThrow (throws : ThrowPoint → Bool) (point : ThrowPoint) : (mayThrow throws point).Extends := by
  intro s
  rw [run_mayThrow]

theorem extends_addMember (throws : ThrowPoint → Bool) (point : ThrowPoint) (name : Bytes) (value : MemberRef) :
    (addMember throws point name value).Extends := by
  intro s
  rw [run_addMember]
  split
  · exact List.prefix_refl _
  · exact List.prefix_append _ _

theorem extends_respond (rj : RapidJson) (throws : ThrowPoint → Bool) (status : Status) (storage : Storage) :
    (respond rj throws status storage).Extends := by
  intro s
  rw [run_respond]

theorem extends_refuse (rj : RapidJson) (throws : ThrowPoint → Bool) (status : Status) (error name : Bytes) :
    (refuse rj throws status error name).Extends :=
  (extends_addMember throws .addError _ _).bind fun _ => extends_respond rj throws status _

section Handlers

variable [Allocator]

omit [Allocator] in
theorem extends_engineGet (throws : ThrowPoint → Bool) (name : Bytes) : (engineGet throws name).Extends := by
  refine (extends_mayThrow throws .lock).bind fun _ => ?_
  intro s
  simp only [Try.run_bind, Try.run_get, Try.run_modify]
  split
  · rw [Try.run_bind, run_mayThrow]
    cases throws .copyValue <;> exact List.prefix_refl _
  · exact List.prefix_refl _

theorem extends_engineSet (throws : ThrowPoint → Bool) (fails : AllocationPoint → Bool) (name value : Bytes) :
    (engineSet throws fails name value).Extends := by
  refine (extends_mayThrow throws .lock).bind fun _ => ?_
  intro s
  simp only [Try.run_bind, Try.run_get, Try.run_modify]
  rcases (s.engine.trySet fails name value).1 with ⟨⟨⟩⟩ | _ <;> exact List.prefix_refl _

/-- Both handlers begin alike, and go on adding members. -/
theorem tryBlock_eq_named (rj : RapidJson) (throws : ThrowPoint → Bool) (fails : AllocationPoint → Bool)
    (req : Request) :
    ∃ rest : Bytes → Try Response, tryBlock rj throws fails req = named rj throws req.nameRaw rest ∧
      ∀ name, (rest name).Extends := by
  unfold tryBlock
  cases req.method with
  | get =>
    refine ⟨_, rfl, fun name => (extends_engineGet throws name).bind fun o => ?_⟩
    cases o with
    | none => exact extends_refuse rj throws _ _ _
    | some value =>
      exact (extends_addMember throws _ _ _).bind fun _ => (extends_addMember throws _ _ _).bind fun _ =>
        (extends_addMember throws _ _ _).bind fun _ => extends_respond rj throws _ _
  | post =>
    refine ⟨_, rfl, fun name => (extends_mayThrow throws .parse).bind fun _ => ?_⟩
    cases requestValue rj req.body with
    | error error => exact extends_refuse rj throws _ _ _
    | ok value => exact (extends_engineSet throws fails name _).bind fun _ => extends_respond rj throws _ _

/-- How far a block has come when it throws. -/
inductive ThrownWith (throws : ThrowPoint → Bool) (name : Bytes) : RefBody → Prop
  | unnamed : throws .decode = true ∨ throws .addName = true → ThrownWith throws name []
  | empty : throws .decode = false → throws .addName = false → name = [] → throws .addError = true →
      ThrownWith throws name [nameMember name]
  | emptyRefused : throws .decode = false → throws .addName = false → name = [] → throws .addError = false →
      ThrownWith throws name [nameMember name, (ascii "error", .literal emptyName)]
  | named (rest : RefBody) : throws .decode = false → throws .addName = false → name ≠ [] →
      ThrownWith throws name (nameMember name :: rest)

theorem tryBlock_thrownWith {rj : RapidJson} {throws : ThrowPoint → Bool} {fails : AllocationPoint → Bool}
    {req : Request} {e : DataEngine} {s : Frame} (h : (tryBlock rj throws fails req).run ⟨[], e⟩ = (none, s)) :
    ThrownWith throws req.name s.body := by
  obtain ⟨rest, hblock, hextends⟩ := tryBlock_eq_named rj throws fails req
  have hname : urlDecode req.nameRaw = req.name := rfl
  rw [hblock, run_named, hname] at h
  split at h
  · rename_i hthrows
    cases h
    exact .unnamed (by simpa using hthrows)
  · rename_i hthrows
    obtain ⟨hdecode, haddName⟩ : throws .decode = false ∧ throws .addName = false := by simpa using hthrows
    split at h
    · rename_i hempty
      rw [run_refuse] at h
      cases herror : throws .addError with
      | true =>
        rw [herror] at h
        cases h
        exact .empty hdecode haddName hempty herror
      | false =>
        rw [herror, if_neg Bool.false_ne_true, run_respond] at h
        obtain rfl := congrArg Prod.snd h
        exact .emptyRefused hdecode haddName hempty herror
    · rename_i hne
      obtain ⟨added, hadded⟩ := hextends req.name ⟨[nameMember req.name], e⟩
      rw [h] at hadded
      rw [← hadded]
      exact .named added hdecode haddName hne

end Handlers

/-! ### The object of the catch block -/

/-- What an error reply is to be. -/
structure WellFormedError (name : Bytes) (object : JsonBody) : Prop where
  distinct : (object.map fun m => m.1.bytes).Nodup
  error : (object.map fun m => m.1.bytes).count (ascii "error") = 1
  name : ∀ m ∈ object, m.1.bytes = ascii "name" → ∃ s : JString, m.2 = .string s ∧ s.bytes = name

theorem wellFormed_unnamed (storage : Storage) (name : Bytes) : WellFormedError name (caughtObject storage []) where
  distinct := by
    show [(JString.ref (ascii "error")).bytes].Nodup
    decide
  error := by
    show [(JString.ref (ascii "error")).bytes].count (ascii "error") = 1
    decide
  name m hm hname := by
    obtain rfl := List.mem_singleton.1 hm
    exact absurd hname (show (JString.ref (ascii "error")).bytes ≠ ascii "name" by decide)

/-- Of an empty name nothing is read. -/
theorem wellFormed_empty (storage : Storage) : WellFormedError [] (caughtObject storage [nameMember []]) where
  distinct := by
    show [(JString.ref (ascii "name")).bytes, (JString.ref (ascii "error")).bytes].Nodup
    decide
  error := by
    show [(JString.ref (ascii "name")).bytes, (JString.ref (ascii "error")).bytes].count (ascii "error") = 1
    decide
  name m hm hname := by
    rcases List.mem_pair.1 hm with rfl | rfl
    · exact ⟨.ref [], rfl, rfl⟩
    · exact absurd hname (show (JString.ref (ascii "error")).bytes ≠ ascii "name" by decide)

/-- The error of the `try` block is there already. -/
theorem not_wellFormed_refused (storage : Storage) (name error : Bytes) (rest : RefBody) :
    ¬ WellFormedError name (caughtObject storage (rest ++ [(ascii "error", .literal error)])) := by
  intro h
  have hcount := h.error
  have hkey : (JString.ref (ascii "error")).bytes = ascii "error" := by decide
  simp only [caughtObject, RefBody.object, List.map_append, List.map_cons, List.map_nil, hkey, List.count_append,
    List.count_singleton_self] at hcount
  omega

/-- Another byte may be found where the name has been. -/
theorem not_wellFormed_named {name : Bytes} (hne : name ≠ []) (rest : RefBody) :
    ∃ storage, ¬ WellFormedError name (caughtObject storage (nameMember name :: rest)) := by
  obtain ⟨c, t, rfl⟩ := List.exists_cons_of_ne_nil hne
  refine ⟨fun _ _ => c + 1, fun h => ?_⟩
  have hkey : (JString.ref (ascii "name")).bytes = ascii "name" := by decide
  obtain ⟨s, hs, hbytes⟩ := h.name _ List.mem_cons_self hkey
  obtain rfl := Json.string.inj hs
  have hmem : c ∈ (JString.ref ((List.range (toSizeType (c :: t).length)).map fun _ => c + 1)).bytes := by
    rw [hbytes]
    exact List.mem_cons_self
  obtain ⟨-, -, hc⟩ := List.mem_map.1 (List.mem_of_mem_take hmem)
  have hadd : c + 1 ≠ c := by simp
  exact hadd hc

section Caught

variable [Allocator]

/-- Whatever is found where the strings have been, the reply of the catch block is in order exactly when the exception
was thrown before the name was added, or by the error that was to be added to an empty name. -/
theorem caught_wellFormed_iff {rj : RapidJson} {throws : ThrowPoint → Bool} {fails : AllocationPoint → Bool}
    {req : Request} {e : DataEngine} {s : Frame} (h : (tryBlock rj throws fails req).run ⟨[], e⟩ = (none, s)) :
    (∀ storage, WellFormedError req.name (caughtObject storage s.body)) ↔
      throws .decode = true ∨ throws .addName = true ∨ (req.name = [] ∧ throws .addError = true) := by
  have hthrown := tryBlock_thrownWith h
  generalize s.body = body at hthrown
  cases hthrown with
  | unnamed hthrows =>
    constructor
    · intro _
      exact hthrows.imp_right Or.inl
    · intro _ storage
      exact wellFormed_unnamed storage req.name
  | empty hdecode haddName hempty herror =>
    rw [hempty]
    constructor
    · intro _
      exact Or.inr (Or.inr ⟨rfl, herror⟩)
    · intro _ storage
      exact wellFormed_empty storage
  | emptyRefused hdecode haddName hempty herror =>
    constructor
    · intro hall
      exact absurd (hall fun _ _ => 0) (not_wellFormed_refused _ _ _ [nameMember req.name])
    · rintro (hthrows | hthrows | ⟨-, hthrows⟩)
      · simp [hdecode] at hthrows
      · simp [haddName] at hthrows
      · simp [herror] at hthrows
  | named rest hdecode haddName hne =>
    constructor
    · intro hall
      obtain ⟨storage, hnot⟩ := not_wellFormed_named hne rest
      exact absurd (hall storage) hnot
    · rintro (hthrows | hthrows | ⟨hempty, -⟩)
      · simp [hdecode] at hthrows
      · simp [haddName] at hthrows
      · exact absurd hempty hne

/-! ### Without exceptions -/

omit [Allocator] in
/-- While the strings are alive, a reference shows its string, cut to 32 bits of length. -/
theorem map_range_getD (b : Bytes) :
    JString.ref ((List.range (toSizeType b.length)).map fun i => b.getD i 0) = .ref b := by
  have hbytes : ((List.range (toSizeType b.length)).map fun i => b.getD i 0) = (JString.ref b).bytes := by
    apply List.ext_getElem?
    intro i
    have hle := toSizeType_le b.length
    by_cases hi : i < toSizeType b.length
    · have hin : i < b.length := Nat.lt_of_lt_of_le hi hle
      simp [JString.ref, hi, List.getD_eq_getElem?_getD, List.getElem?_eq_getElem hin]
    · simp [JString.ref, hi]
  rw [hbytes, JString.ref_self]

omit [Allocator] in
theorem read_name (name value : Bytes) :
    (MemberRef.ref .name name.length).read (holding name value) = .string (.ref name) :=
  congrArg Json.string (map_range_getD name)

omit [Allocator] in
theorem read_value (name value : Bytes) :
    (MemberRef.ref .value value.length).read (holding name value) = .string (.ref value) :=
  congrArg Json.string (map_range_getD value)

omit [Allocator] in
theorem refuse_of_not_throws {throws : ThrowPoint → Bool} (hthrows : ∀ point, throws point = false) (rj : RapidJson)
    (status : Status) (error name : Bytes) (e : DataEngine) :
    (refuse rj throws status error name).run ⟨[nameMember name], e⟩ =
      (some (response rj status (errorBody name error)),
        ⟨[nameMember name, (ascii "error", .literal error)], e⟩) := by
  have hobject : RefBody.object (holding name []) [nameMember name, (ascii "error", .literal error)] =
      errorBody name error := by
    simp only [RefBody.object, List.map_cons, List.map_nil, nameMember, read_name]
    rfl
  rw [run_refuse, run_respond, hthrows, hthrows]
  simp only [Bool.false_eq_true, ↓reduceIte, Frame.add, List.singleton_append, hobject]

omit [Allocator] in
/-- The handlers begin by adding the name, or end there. -/
theorem named_of_not_throws {throws : ThrowPoint → Bool} (hthrows : ∀ point, throws point = false) (rj : RapidJson)
    (nameRaw : Bytes) (rest : Bytes → Try Response) (e : DataEngine) :
    (named rj throws nameRaw rest).run ⟨[], e⟩ =
      if urlDecode nameRaw = [] then
        (some (response rj .badRequest (errorBody (urlDecode nameRaw) emptyName)),
          ⟨[nameMember (urlDecode nameRaw), (ascii "error", .literal emptyName)], e⟩)
      else (rest (urlDecode nameRaw)).run ⟨[nameMember (urlDecode nameRaw)], e⟩ := by
  have hbegin : ¬(throws .decode = true ∨ throws .addName = true) := by simp [hthrows]
  rw [run_named, if_neg hbegin, refuse_of_not_throws hthrows]

omit [Allocator] in
theorem engineGet_of_not_throws {throws : ThrowPoint → Bool} (hthrows : ∀ point, throws point = false) (name : Bytes)
    (s : Frame) :
    (engineGet throws name).run s = (some (s.engine.get name).1, { s with engine := (s.engine.get name).2 }) := by
  rw [engineGet, Try.run_bind, run_mayThrow, hthrows]
  simp only [Bool.false_eq_true, ↓reduceIte, Try.run_bind, Try.run_get, Try.run_modify]
  split
  · rw [Try.run_bind, run_mayThrow, hthrows]
    rfl
  · rfl

theorem engineSet_of_not_throws {throws : ThrowPoint → Bool} (hthrows : ∀ point, throws point = false)
    (fails : AllocationPoint → Bool) (name value : Bytes) (s : Frame) :
    (engineSet throws fails name value).run s =
      match s.engine.trySet fails name value with
      | (.ok (), e) => (some (), { s with engine := e })
      | (.error .badAlloc, e) => (none, { s with engine := e }) := by
  rw [engineSet, Try.run_bind, run_mayThrow, hthrows]
  simp only [Bool.false_eq_true, ↓reduceIte, Try.run_bind, Try.run_get, Try.run_modify]
  obtain ⟨⟨⟨⟩⟩ | _, e⟩ := s.engine.trySet fails name value <;> rfl

omit [Allocator] in
theorem respond_of_not_throws {throws : ThrowPoint → Bool} (hthrows : ∀ point, throws point = false) (rj : RapidJson)
    (status : Status) (storage : Storage) (s : Frame) :
    (respond rj throws status storage).run s = (some (response rj status (s.body.object storage)), s) := by
  rw [run_respond, hthrows]
  rfl

omit [Allocator] in
theorem object_nameMember (name : Bytes) : RefBody.object (holding name []) [nameMember name] = nameBody name := by
  simp only [RefBody.object, List.map_cons, List.map_nil, nameMember, read_name]
  rfl

omit [Allocator] in
theorem object_record (name : Bytes) (value : ExtendedValue) :
    RefBody.object (holding name value.value)
      [nameMember name, (ascii "value", .ref .value value.value.length),
        (ascii "stats.reads", .counter value.stats.reads), (ascii "stats.writes", .counter value.stats.writes)] =
    recordBody name value := by
  simp only [RefBody.object, List.map_cons, List.map_nil, nameMember, read_name, read_value]
  rfl

/-- A POST whose value is accepted fails only with `set`, and keeps of `set` what was done before it threw. -/
theorem handleCatching_set {throws : ThrowPoint → Bool} (hthrows : ∀ point, throws point = false) {rj : RapidJson}
    (fails : AllocationPoint → Bool) (storage : Storage) (e : DataEngine) {req : Request} (hm : req.method = .post)
    (hn : req.name ≠ []) {value : JString} (hv : requestValue rj req.body = .ok value) :
    handleCatching rj throws fails storage e req =
      match e.trySet fails req.name value.bytes with
      | (.ok (), e) => (response rj .ok (nameBody req.name), e)
      | (.error .badAlloc, e) =>
        (response rj .internalServerError (caughtObject storage [nameMember req.name]), e) := by
  have hname : urlDecode req.nameRaw = req.name := rfl
  simp only [handleCatching, tryBlock, hm, postTry, named_of_not_throws hthrows, hname, if_neg hn]
  rw [Try.run_bind, run_mayThrow, hthrows]
  simp only [Bool.false_eq_true, ↓reduceIte, hv]
  rw [Try.run_bind, engineSet_of_not_throws hthrows]
  obtain ⟨⟨⟨⟩⟩ | ⟨⟨⟩⟩, e'⟩ := e.trySet fails req.name value.bytes
  · rfl
  · simp only [respond_of_not_throws hthrows, object_nameMember]

/-- When nothing throws, the handler with its catch block is the handler. -/
theorem handleCatching_of_not_throws {throws : ThrowPoint → Bool} {fails : AllocationPoint → Bool}
    (hthrows : ∀ point, throws point = false) (hfails : ∀ point, fails point = false) (rj : RapidJson)
    (storage : Storage) (e : DataEngine) (req : Request) :
    handleCatching rj throws fails storage e req = handle rj e req := by
  have hname : urlDecode req.nameRaw = req.name := rfl
  cases hm : req.method with
  | get =>
    simp only [handleCatching, tryBlock, handle, hm, getTry, named_of_not_throws hthrows, getHandler, hname]
    by_cases hn : req.name = []
    · rw [if_pos hn, if_pos hn]
    · rw [if_neg hn, if_neg hn, Try.run_bind, engineGet_of_not_throws hthrows]
      dsimp only
      obtain ⟨o, e'⟩ := e.get req.name
      cases o with
      | none =>
        dsimp only
        rw [refuse_of_not_throws hthrows]
      | some value =>
        simp only [Try.run_bind, run_addMember, hthrows, Bool.false_eq_true, ↓reduceIte, Frame.add,
          respond_of_not_throws hthrows, List.cons_append, List.nil_append, object_record]
  | post =>
    by_cases hn : req.name = []
    · simp only [handleCatching, tryBlock, handle, hm, postTry, named_of_not_throws hthrows, postHandler, hname,
        if_pos hn]
    · cases hv : requestValue rj req.body with
      | ok value =>
        rw [handleCatching_set hthrows fails storage e hm hn hv, e.trySet_of_not_fails hfails]
        simp only [handle, hm, postHandler, hname, if_neg hn, hv]
      | error error =>
        simp only [handleCatching, tryBlock, handle, hm, postTry, named_of_not_throws hthrows, postHandler, hname,
          if_neg hn]
        rw [Try.run_bind, run_mayThrow, hthrows]
        simp only [Bool.false_eq_true, ↓reduceIte, hv, refuse_of_not_throws hthrows]

end Caught

section Runs

attribute [local instance] Allocator.exact

/-- A GET for a record that is not there, whose reply cannot be built. -/
theorem caught_with_two_errors :
    ∃ s, (tryBlock JsonText.library (fun point => point = .respond) (fun _ => false) ⟨.get, ascii "a", []⟩).run
        ⟨[], .load []⟩ = (none, s) ∧
      ∀ storage, ¬ WellFormedError (ascii "a") (caughtObject storage s.body) :=
  ⟨_, rfl, fun storage => not_wellFormed_refused storage _ _ [nameMember (ascii "a")]⟩

/-- The same request, whose name cannot be decoded. -/
theorem caught_without_name :
    ∃ s, (tryBlock JsonText.library (fun point => point = .decode) (fun _ => false) ⟨.get, ascii "a", []⟩).run
        ⟨[], .load []⟩ = (none, s) ∧
      ∀ storage, WellFormedError (ascii "a") (caughtObject storage s.body) := by
  have hblock : (tryBlock JsonText.library (fun point => point = .decode) (fun _ => false) ⟨.get, ascii "a", []⟩).run
      ⟨[], .load []⟩ = (none, ⟨[], .load []⟩) := rfl
  exact ⟨_, hblock, (caught_wellFormed_iff hblock).2 (Or.inl rfl)⟩

end Runs

end HttpServer

end KeyValueServer
