import KeyValueServer.DataEngine
import KeyValueServer.HttpServerHelpers

/-!
# The handlers of `/api/records/<string>`

The two handlers of the route run alone, on the engine they are given.  What a handler answers and does to the engine
concerns the record of the decoded name alone, and of that record the value and the statistics: the server is a family
of small machines, one for each name (`answer`), side by side.
-/

namespace KeyValueServer

open HttpServerHelpers

/-! ### What requests see of a record -/

/-- A read is counted before it is reported. -/
def ExtendedValue.read (value : ExtendedValue) : ExtendedValue :=
  { value with stats := { value.stats with reads := value.stats.reads + 1 } }

/-- The record after a write. -/
def ExtendedValue.write (value : Bytes) : Option ExtendedValue → ExtendedValue
  | none => ⟨value, ⟨0, 1⟩⟩
  | some old => ⟨value, { old.stats with writes := old.stats.writes + 1 }⟩

namespace DataEngine

/-- The value and the statistics under a name, without the storage behind them. -/
def view (e : DataEngine) (name : Bytes) : Option ExtendedValue :=
  (e.data.lookup name).map fun record => ⟨record.value.value, ⟨record.reads, record.writes⟩⟩

theorem get_view [Allocator] (e : DataEngine) (name : Bytes) :
    (e.get name).1 = (e.view name).map ExtendedValue.read := by
  rw [get, DataCollection.get, view]
  cases e.data.lookup name <;> rfl

theorem view_get [Allocator] (e : DataEngine) (name k : Bytes) :
    (e.get name).2.view k = if k = name then (e.view name).map ExtendedValue.read else e.view k := by
  rw [view, get, DataCollection.lookup_get]
  split
  · rename_i hk
    subst hk
    rw [view]
    cases e.data.lookup k <;> rfl
  · rfl

theorem view_set [Allocator] (e : DataEngine) (name value k : Bytes) :
    (e.set name value).view k = if k = name then some (ExtendedValue.write value (e.view name)) else e.view k := by
  rw [view, set, DataCollection.lookup_set]
  split
  · rw [Option.map_some, DataCollection.value_written, view]
    cases e.data.lookup name <;> rfl
  · rfl

end DataEngine

namespace HttpServer

inductive Status
  | ok
  | badRequest
  | notFound
  | internalServerError
  deriving DecidableEq

def Status.code : Status → Nat
  | .ok => 200
  | .badRequest => 400
  | .notFound => 404
  | .internalServerError => 500

structure Response where
  code : Nat
  contentType : Bytes
  body : Bytes
  deriving DecidableEq

/-- `crow::response(status, body)`, which dumps the body at once. -/
def response (rj : RapidJson) (status : Status) (body : JsonBody) : Response where
  code := status.code
  contentType := ascii "application/json; charset=utf-8"
  body := body.dump rj

/-- The body with which every reply begins. -/
def nameBody (name : Bytes) : JsonBody := JsonBody.add [] (ascii "name") name

def errorBody (name error : Bytes) : JsonBody := (nameBody name).add (ascii "error") error

/-- The reply to a GET of a record that is there. -/
def recordBody (name : Bytes) (value : ExtendedValue) : JsonBody :=
  (((nameBody name).add (ascii "value") value.value).addNumber (ascii "stats.reads") value.stats.reads).addNumber
    (ascii "stats.writes") value.stats.writes

def emptyName : Bytes := ascii "Item name cannot be empty"

/-- The GET handler, when nothing throws. -/
def getHandler (rj : RapidJson) (e : DataEngine) (nameRaw : Bytes) : Response × DataEngine :=
  let name := urlDecode nameRaw
  if name = [] then (response rj .badRequest (errorBody name emptyName), e)
  else
    match e.get name with
    | (none, e) => (response rj .notFound (errorBody name (ascii "Item not found")), e)
    | (some value, e) => (response rj .ok (recordBody name value), e)

/-- The string under `value` in the body of a request, or the text of the error.  The body is read as a C string. -/
def requestValue (rj : RapidJson) (body : Bytes) : Except Bytes JString :=
  match rj.parse (body.takeWhile (· ≠ 0)) with
  | none => .error (ascii "Invalid JSON syntax in request body")
  | some (.object members) =>
    match findMember (ascii "value") members with
    | none => .error (ascii "Request JSON format: root object must have 'value' member")
    | some (.string value) => .ok value
    | some _ =>
      .error (ascii "Request JSON format: root object's 'value' member must have value of type string")
  | some _ => .error (ascii "Request JSON format: root element must be an Object")

theorem requestValue_ok_iff {rj : RapidJson} {body : Bytes} {v : JString} :
    requestValue rj body = .ok v ↔ ∃ members, rj.parse (body.takeWhile (· ≠ 0)) = some (.object members) ∧
      findMember (ascii "value") members = some (.string v) := by
  unfold requestValue
  constructor
  · intro h
    split at h
    · cases h
    · rename_i members hparse
      split at h
      · cases h
      · rename_i value hfind
        cases h
        exact ⟨members, hparse, hfind⟩
      · cases h
    · cases h
  · rintro ⟨members, hparse, hfind⟩
    rw [hparse]
    dsimp only
    rw [hfind]

section Handlers

variable [Allocator]

/-- The POST handler, when nothing throws. -/
def postHandler (rj : RapidJson) (e : DataEngine) (nameRaw body : Bytes) : Response × DataEngine :=
  let name := urlDecode nameRaw
  if name = [] then (response rj .badRequest (errorBody name emptyName), e)
  else
    match requestValue rj body with
    | .error error => (response rj .badRequest (errorBody name error), e)
    | .ok value => (response rj .ok (nameBody name), e.set name value.bytes)

inductive Method
  | get
  | post
  deriving DecidableEq

structure Request where
  method : Method
  nameRaw : Bytes
  body : Bytes
  deriving DecidableEq

omit [Allocator] in
def Request.name (req : Request) : Bytes := urlDecode req.nameRaw

/-- A request handled without an exception. -/
def handle (rj : RapidJson) (e : DataEngine) (req : Request) : Response × DataEngine :=
  match req.method with
  | .get => getHandler rj e req.nameRaw
  | .post => postHandler rj e req.nameRaw req.body

/-- The five ways in which a request ends. -/
inductive Outcome (rj : RapidJson) (e : DataEngine) (req : Request) : Response × DataEngine → Prop
  | unnamed : req.name = [] → Outcome rj e req (response rj .badRequest (errorBody req.name emptyName), e)
  | missing : req.name ≠ [] → req.method = .get → e.view req.name = none →
      Outcome rj e req
        (response rj .notFound (errorBody req.name (ascii "Item not found")), (e.get req.name).2)
  | found (value : ExtendedValue) : req.name ≠ [] → req.method = .get → e.view req.name = some value →
      Outcome rj e req (response rj .ok (recordBody req.name value.read), (e.get req.name).2)
  | refused (error : Bytes) : req.name ≠ [] → req.method = .post → requestValue rj req.body = .error error →
      Outcome rj e req (response rj .badRequest (errorBody req.name error), e)
  | accepted (value : JString) : req.name ≠ [] → req.method = .post → requestValue rj req.body = .ok value →
      Outcome rj e req (response rj .ok (nameBody req.name), e.set req.name value.bytes)

theorem handle_outcome (rj : RapidJson) (e : DataEngine) (req : Request) : Outcome rj e req (handle rj e req) := by
  have hname : urlDecode req.nameRaw = req.name := rfl
  unfold handle
  cases hm : req.method with
  | get =>
    simp only [getHandler, hname]
    by_cases hn : req.name = []
    · rw [if_pos hn]
      exact .unnamed hn
    · rw [if_neg hn]
      have hget := e.get_view req.name
      cases hv : e.view req.name with
      | none =>
        rw [hv, Option.map_none] at hget
        rw [show e.get req.name = (none, (e.get req.name).2) from Prod.ext hget rfl]
        exact .missing hn hm hv
      | some value =>
        rw [hv, Option.map_some] at hget
        rw [show e.get req.name = (some value.read, (e.get req.name).2) from Prod.ext hget rfl]
        exact .found value hn hm hv
  | post =>
    simp only [postHandler, hname]
    by_cases hn : req.name = []
    · rw [if_pos hn]
      exact .unnamed hn
    · rw [if_neg hn]
      cases hv : requestValue rj req.body with
      | error error => exact .refused error hn hm hv
      | ok value => exact .accepted value hn hm hv

/-! ### One record -/

/-- What the server does for a single name. -/
def answer (rj : RapidJson) (o : Option ExtendedValue) (req : Request) : Response × Option ExtendedValue :=
  if req.name = [] then (response rj .badRequest (errorBody req.name emptyName), o)
  else
    match req.method with
    | .get =>
      match o with
      | none => (response rj .notFound (errorBody req.name (ascii "Item not found")), none)
      | some value => (response rj .ok (recordBody req.name value.read), some value.read)
    | .post =>
      match requestValue rj req.body with
      | .error error => (response rj .badRequest (errorBody req.name error), o)
      | .ok value => (response rj .ok (nameBody req.name), some (ExtendedValue.write value.bytes o))

/-- The answer and the record of the name are those of the machine of that name; every other record stays as it
is. -/
theorem handle_answer (rj : RapidJson) (e : DataEngine) (req : Request) :
    (handle rj e req).1 = (answer rj (e.view req.name) req).1 ∧
      ∀ k, (handle rj e req).2.view k = if k = req.name then (answer rj (e.view req.name) req).2 else e.view k := by
  have h := handle_outcome rj e req
  generalize handle rj e req = result at h ⊢
  have hsame : ∀ k, e.view k = if k = req.name then e.view req.name else e.view k := by
    intro k
    split
    · rename_i hk
      rw [hk]
    · rfl
  cases h with
  | unnamed hn =>
    simp only [answer, if_pos hn, true_and]
    exact hsame
  | missing hn hm hv =>
    simp only [answer, if_neg hn, hm, hv, true_and]
    intro k
    rw [DataEngine.view_get, hv, Option.map_none]
  | found value hn hm hv =>
    simp only [answer, if_neg hn, hm, hv, true_and]
    intro k
    rw [DataEngine.view_get, hv, Option.map_some]
  | refused error hn hm hv =>
    simp only [answer, if_neg hn, hm, hv, true_and]
    exact hsame
  | accepted value hn hm hv =>
    simp only [answer, if_neg hn, hm, hv, true_and]
    exact e.view_set req.name value.bytes

end Handlers

end HttpServer

end KeyValueServer
