import KeyValueServer.Crow.Conversation
import KeyValueServer.Crow.SanitizeFilename
import KeyValueServer.ServerRouting

/-!
# The server behind its connections

The application of a connection is the router with the handlers behind it (`application`).  A client that waits for its
replies and sends no HEAD reads back the replies that the engine gives to its requests on records, one after the other,
if and only if the static files that it asks for consist of whole blocks (`conversation_served`).  Behind a HEAD it
reads no reply to another request on a record (`heads_read_back_iff`).  Whatever a client sends, the server does not
depend on files outside of the directory of static files (`only_static_files`).
-/

namespace KeyValueServer

namespace HttpServer

open Crow HttpServerHelpers
open Crow.Connection (converse handleAll)
open Text (httpHead httpBodyLength)

/-! ### The application -/

/-- The path that the route of static files opens. -/
def staticFile (path : Bytes) : Bytes := ascii "static/" ++ sanitizeFilename path

/-- Where a redirected request should go. -/
def location (req : Crow.Request) : Bytes :=
  let host := req.headers.value (ascii "Host")
  if host = [] then req.url ++ ascii "/" else ascii "http://" ++ host ++ req.url ++ ascii "/"

def Answer.reply : Answer → Reply
  | .response r => .response r.code [(ascii "Content-Type", r.contentType)] r.body
  | .file path => .file (staticFile path)

/-- What the router reads of a request. -/
def messageOf (req : Crow.Request) : Message := ⟨req.method, req.url, req.body⟩

/-- The request on a record that the engine gets to see; a refused one does not come that far. -/
def recordRequest (a : Arrival) : Option Request :=
  if a.request.isInvalid then none else (messageOf a.request).recordRequest

section Application

variable [Allocator] [Strtod] (rj : RapidJson)

/-- What becomes of a request when the router has found what to do with it. -/
def react (e : DataEngine) (req : Crow.Request) : Reaction Route → Reply × DataEngine
  | .handler rule params =>
    let (answer, e) := callHandler rj e rule.handler params req.body
    (answer.reply, e)
  | .redirect => (.response 301 [(ascii "Location", location req)] [], e)
  | .allow methods => (.response 204 [(ascii "Allow", methods)] [], e)
  | .methodNotAllowed => (.error 405, e)
  | .notFound => (if req.method = .options then .response 404 [] [] else .error 404, e)
  | .corrupted => (.thrown, e)

/-- `Router::handle`, with the handlers. -/
def application (router : Router Route) (e : DataEngine) (req : Crow.Request) : Reply × DataEngine :=
  react rj e req (router.handle req.method req.url)

/-! ### Its replies -/

omit [Strtod] in
/-- The status and the type of what the handlers of records return. -/
theorem fields_handle (e : DataEngine) (req : Request) :
    (handle rj e req).1.code ∈ [200, 400, 404] ∧
      (handle rj e req).1.contentType = ascii "application/json; charset=utf-8" := by
  have ho := handle_outcome rj e req
  generalize handle rj e req = result at ho ⊢
  cases ho with
  | unnamed | missing | found | refused | accepted => exact ⟨by simp [response, Status.code], rfl⟩

variable {rj} {router : Router Route}

/-- The engine does not see more of a request than the router does. -/
theorem engine_application (router : Router Route) (e : DataEngine) (req : Crow.Request) :
    (application rj router e req).2 = (routeMessage rj router e (messageOf req)).2 := by
  rw [application, routeMessage, messageOf]
  cases router.handle req.method req.url <;> rfl

theorem application_record (hrouter : Router.validate routes = some router) (e : DataEngine) {req : Crow.Request}
    {record : Request} (h : (messageOf req).recordRequest = some record) :
    application rj router e req = ((Answer.response (handle rj e record).1).reply, (handle rj e record).2) := by
  have hroute : routeMessage rj router e (messageOf req) = _ := routeMessage_record hrouter e h
  rw [routeMessage, messageOf] at hroute
  rw [application]
  cases hreaction : router.handle req.method req.url with
  | handler rule params =>
    rw [hreaction] at hroute
    dsimp only [react] at hroute ⊢
    generalize callHandler rj e rule.handler params req.body = result at hroute ⊢
    obtain ⟨hanswer, hengine⟩ := Prod.mk.inj hroute
    rw [Option.some.inj hanswer, hengine]
  | _ =>
    rw [hreaction] at hroute
    cases (Prod.mk.inj hroute).1

omit [Strtod] in
/-- Every handler returns a response with its type, or names a file. -/
theorem wellFormed_callHandler (e : DataEngine) (route : Route) (params : RoutingParams) (body : Bytes) :
    (callHandler rj e route params body).1.reply.WellFormed := by
  have hresponse : ∀ r : Response, 10 ∉ r.contentType → bodiless r.code = false →
      (Answer.response r).reply.WellFormed := fun r htype hcode =>
    ⟨.single (by decide) htype, rfl, fun hbodiless => absurd (hcode.symm.trans hbodiless) Bool.false_ne_true⟩
  have hrecord : ∀ req, (Answer.response (handle rj e req).1).reply.WellFormed := by
    intro req
    obtain ⟨hcode, htype⟩ := fields_handle rj e req
    have hcodes : ∀ code ∈ [200, 400, 404], bodiless code = false := by decide
    exact hresponse _ (htype ▸ by decide) (hcodes _ hcode)
  cases route with
  | getRecord => exact hrecord ⟨.get, _, body⟩
  | postRecord => exact hrecord ⟨.post, _, body⟩
  | listRecords => exact hresponse _ (by decide) (by decide)
  | greeting => exact hresponse _ (by decide) (by decide)
  | staticFile => trivial

omit [Allocator] in
/-- What the router may do; it redirects the directory alone. -/
theorem handle_cases (hrouter : Router.validate routes = some router) (method : HTTPMethod) (url : Bytes) :
    router.handle method url = .notFound ∨ router.handle method url = .methodNotAllowed ∨
      (router.handle method url = .redirect ∧ target url = .directory) ∨
      (∃ methods, router.handle method url = .allow methods ∧ 10 ∉ methods) ∨
      ∃ rule params, router.handle method url = .handler rule params := by
  have hboth : 10 ∉ Router.allowText [.get, .post] := by decide
  have hget : 10 ∉ Router.allowText [.get] := by decide
  rw [handle_routes hrouter]
  split_ifs
  · simp [hboth]
  · generalize target url = target
    cases method <;> cases target <;> simp [targetReaction, hboth, hget]

theorem wellFormed_application (hrouter : Router.validate routes = some router) (e : DataEngine) (req : Crow.Request) :
    (application rj router e req).1.WellFormed := by
  rw [application]
  rcases handle_cases hrouter req.method req.url with h | h | ⟨h, hdirectory⟩ | ⟨methods, h, hmethods⟩ |
    ⟨rule, params, h⟩
  all_goals rw [h, react]
  · split_ifs
    · exact ⟨.nil, rfl, fun _ => rfl⟩
    · trivial
  · trivial
  · -- the directory and the name of the host are text of one line
    have hurl : 10 ∉ req.url ++ ascii "/" := by
      rw [(target_eq_iff _).1.1 hdirectory]
      decide
    have hlocation : 10 ∉ location req := by
      rw [location]
      split_ifs
      · exact hurl
      · have hhost : 10 ∉ req.headers.value (ascii "Host") := Crow.Response.oneLine_value (ascii "Host")
        have hscheme : 10 ∉ ascii "http://" := by decide
        simp only [List.mem_append, not_or] at hurl ⊢
        exact ⟨⟨⟨hscheme, hhost⟩, hurl.1⟩, hurl.2⟩
    exact ⟨.single (by decide) hlocation, rfl, fun _ => rfl⟩
  · exact ⟨.single (by decide) hmethods, rfl, fun _ => rfl⟩
  · exact wellFormed_callHandler ..

/-- The reply is a file for a GET or a HEAD of one, and for nothing else. -/
theorem application_eq_file_iff (hrouter : Router.validate routes = some router) (e : DataEngine) (req : Crow.Request)
    (path : Bytes) :
    (application rj router e req).1 = .file path ↔
      (req.method = .get ∨ req.method = .head) ∧ ∃ rest, target req.url = .file rest ∧ path = staticFile rest := by
  rw [application, handle_routes hrouter]
  split_ifs with hoptions
  · rw [hoptions.1]
    simp [react]
  · have hmissing : ¬ (if req.method = .options then .response 404 [] [] else .error 404) = Reply.file path := by
      split_ifs <;> simp
    generalize target req.url = target
    generalize req.method = method
    cases target with
    | file rest => cases method <;> simp [targetReaction, react, callHandler, Answer.reply, staticRule, eq_comm]
    | nothing => cases method <;> simp [targetReaction, react, hmissing]
    | _ =>
      cases method <;> simp [targetReaction, react, callHandler, Answer.reply, recordRule, listRule, greetingRule]

/-! ### What a conversation does to the engine -/

theorem stateAfter_record (hrouter : Router.validate routes = some router) (e : DataEngine) {a : Arrival}
    {req : Request} (h : recordRequest a = some req) :
    a.stateAfter (application rj router) e = (handle rj e req).2 := by
  rw [recordRequest] at h
  split_ifs at h with hvalid
  rw [Arrival.stateAfter, if_neg hvalid, application_record hrouter e h]

theorem stateAfter_other (hrouter : Router.validate routes = some router) (e : DataEngine) {a : Arrival}
    (h : recordRequest a = none) : a.stateAfter (application rj router) e = e := by
  rw [recordRequest] at h
  rw [Arrival.stateAfter]
  split_ifs at h ⊢
  · rfl
  · rw [engine_application, routeMessage_other hrouter e h]

theorem engine_arrivals (hrouter : Router.validate routes = some router) (e : DataEngine) (as : List Arrival) :
    as.foldl (fun e a => a.stateAfter (application rj router) e) e = (serve rj e (as.filterMap recordRequest)).2 := by
  induction as generalizing e with
  | nil => rfl
  | cons a as ih =>
    rw [List.foldl_cons, ih]
    cases hreq : recordRequest a with
    | none => rw [List.filterMap_cons_none hreq, stateAfter_other hrouter e hreq]
    | some req => rw [List.filterMap_cons_some hreq, serve_cons, stateAfter_record hrouter e hreq]

/-! ### What a client without HEAD sees -/

/-- A response as it is seen. -/
def Response.shown (r : Response) : Bytes × Bytes := (statusLine r.code, sentBody r.code r.body)

/-- The messages that are replies to requests on records, as they are seen. -/
def recordsSeen (as : List Arrival) (seen : List (Bytes × Bytes)) : List (Request × Bytes × Bytes) :=
  (as.zip seen).filterMap fun x => (recordRequest x.1).map (·, x.2)

/-- The file that a request asks for, if it is there, consists of whole blocks, as far as its announced size goes. -/
def AsksWholeBlocks (files : Bytes → Option File) (a : Arrival) : Prop :=
  a.request.isInvalid = false → a.request.method = .get → ∀ path found, target a.request.url = .file path →
    files (staticFile path) = some found → wholeBlocks found.content.length = found.size

omit [Allocator] [Strtod] in
theorem skipAfter_plain {a : Arrival} (h : a.isHead = false) : a.skipAfter false = false := by
  rw [Arrival.skipAfter, h]
  simp

theorem shown_record (hrouter : Router.validate routes = some router) (files : Bytes → Option File) (e : DataEngine)
    {a : Arrival} (hhead : a.isHead = false) {req : Request} (h : recordRequest a = some req) :
    a.shown (application rj router) files false e = (handle rj e req).1.shown := by
  rw [recordRequest] at h
  split_ifs at h with hvalid
  rw [Arrival.shown, if_neg hvalid, application_record hrouter e h, hhead]
  rfl

omit [Allocator] [Strtod] in
/-- Without `skip_body`, only the blocks of a file may go beyond what is announced. -/
theorem framed_reply_iff (files : Bytes → Option File) {reply : Reply} (h : reply.WellFormed) :
    reply.Framed files false false ↔
      ∀ path found, reply = .file path → files path = some found → wholeBlocks found.content.length = found.size := by
  cases reply with
  | response code headers body => simp [Reply.Framed]
  | error code => simp [Reply.Framed]
  | file path =>
    have hpath : (∀ path' found, Reply.file path = .file path' → files path' = some found →
        wholeBlocks found.content.length = found.size) ↔
          ∀ found, files path = some found → wholeBlocks found.content.length = found.size :=
      ⟨fun h found => h path found rfl, fun h path' found he => Reply.file.inj he ▸ h found⟩
    rw [hpath, Reply.Framed]
    cases files path <;> simp
  | thrown => exact h.elim

theorem framed_plain_iff (hrouter : Router.validate routes = some router) (files : Bytes → Option File) (e : DataEngine)
    {a : Arrival} (hhead : a.isHead = false) :
    a.Framed (application rj router) files false e ↔ AsksWholeBlocks files a := by
  have hne : ¬ a.request.method = .head := by simpa [Arrival.isHead] using hhead
  rw [Arrival.Framed, AsksWholeBlocks, hhead]
  split_ifs with hinvalid
  · simp [hinvalid]
  · have hiff : ∀ path, (application rj router e a.request).1 = .file path ↔ _ :=
      application_eq_file_iff hrouter e a.request
    refine (framed_reply_iff files (wellFormed_application hrouter e a.request)).trans ⟨fun h => ?_, fun h => ?_⟩
    · intro _ hget path found htarget
      exact h _ found ((hiff _).2 ⟨Or.inl hget, path, htarget, rfl⟩)
    · intro path found hreply hfile
      obtain ⟨hmethod, rest, htarget, rfl⟩ := (hiff path).1 hreply
      exact h (Bool.eq_false_iff.2 hinvalid) (hmethod.resolve_right hne) rest found htarget hfile

theorem allFramed_plain_iff (hrouter : Router.validate routes = some router) (files : Bytes → Option File)
    (e : DataEngine) {as : List Arrival} (hhead : ∀ a ∈ as, a.isHead = false) :
    Arrival.AllFramed (application rj router) files false e as ↔ ∀ a ∈ as, AsksWholeBlocks files a := by
  induction as generalizing e with
  | nil => exact iff_of_true trivial (List.forall_mem_nil _)
  | cons a as ih =>
    obtain ⟨ha, has⟩ := List.forall_mem_cons.1 hhead
    rw [Arrival.AllFramed, framed_plain_iff hrouter files e ha, skipAfter_plain ha, ih _ has, List.forall_mem_cons]

theorem recordsSeen_allShown (hrouter : Router.validate routes = some router) (files : Bytes → Option File)
    (e : DataEngine) {as : List Arrival} (hhead : ∀ a ∈ as, a.isHead = false) :
    recordsSeen as (Arrival.allShown (application rj router) files false e as) =
      (serve rj e (as.filterMap recordRequest)).1.map fun x => (x.request, x.response.shown) := by
  induction as generalizing e with
  | nil => rfl
  | cons a as ih =>
    obtain ⟨ha, has⟩ := List.forall_mem_cons.1 hhead
    unfold recordsSeen at ih ⊢
    rw [Arrival.allShown, skipAfter_plain ha, List.zip_cons_cons]
    cases hreq : recordRequest a with
    | none =>
      rw [List.filterMap_cons_none (by rw [hreq]; rfl), List.filterMap_cons_none hreq, stateAfter_other hrouter e hreq]
      exact ih e has
    | some req =>
      rw [List.filterMap_cons_some (by rw [hreq]; rfl), List.filterMap_cons_some hreq, serve_cons, List.map_cons,
        stateAfter_record hrouter e hreq, shown_record hrouter files e ha hreq]
      exact congrArg _ (ih _ has)

end Application

open Crow.Connection in
/-- Over a connection, the engine ends in the state that the requests on records have brought it to.  A client that
waits and sends no HEAD reads all replies back if and only if the files that it asks for consist of whole blocks, and
those to its requests on records show what the engine replies to them, one after the other. -/
theorem conversation_served [Allocator] [Strtod] (rj : RapidJson) {router : Router Route}
    (hrouter : Router.validate routes = some router) (files : Bytes → Option File) (e : DataEngine)
    (as : List Arrival) :
    (converse (application rj router) files {} e as).2 =
      (serve rj e ((Arrival.answered as).filterMap recordRequest)).2 ∧
    ((∀ a ∈ Arrival.answered as, a.isHead = false) →
      (httpHead.readAll httpBodyLength ((Arrival.answered as).map Arrival.isHead)
          (converse (application rj router) files {} e as).1.stream =
            some (converse (application rj router) files {} e as).1.written ↔
        ∀ a ∈ Arrival.answered as, AsksWholeBlocks files a) ∧
      recordsSeen (Arrival.answered as) ((converse (application rj router) files {} e as).1.written.map seen) =
        (serve rj e ((Arrival.answered as).filterMap recordRequest)).1.map
          fun x => (x.request, x.response.shown)) := by
  have happ : ∀ e req, (application rj router e req).1.WellFormed := wellFormed_application hrouter
  refine ⟨?_, fun hhead => ⟨?_, ?_⟩⟩
  · rw [state_converse (application rj router) files happ, engine_arrivals hrouter]
  · rw [readAll_converse_iff (application rj router) files happ, allFramed_plain_iff hrouter files e hhead]
  · rw [seen_converse (application rj router) files happ, recordsSeen_allShown hrouter files e hhead]

section Runs

attribute [local instance] Allocator.exact Strtod.none

private def arrivalOf (url : Bytes) (method : HTTPMethod) (h : method ≠ .connect := by decide) : Arrival where
  request := ⟨method, url, [(ascii "Host", ascii "localhost")], [], (1, 1), false, false, by decide, h, by decide⟩
  date := ascii "Fri, 02 Jan 1970 00:00:00 GMT"
  buf := List.replicate blockSize 32
  oneLine := by decide
  bufSize := List.length_replicate

private def recordArrival (method : HTTPMethod) (h : method ≠ .connect := by decide) : Arrival :=
  arrivalOf (ascii "/api/records/a") method h

/-- Two GETs of a record over one connection. -/
theorem two_gets_over_connection : ∃ router, Router.validate routes = some router ∧
    (converse (application JsonText.library router) (fun _ => none) {} (.load [(ascii "a", ascii "1")])
      [recordArrival .get, recordArrival .get]).2.view (ascii "a") = some ⟨ascii "1", ⟨2, 0⟩⟩ ∧
    httpHead.readAll httpBodyLength [false, false]
      (converse (application JsonText.library router) (fun _ => none) {} (.load [(ascii "a", ascii "1")])
        [recordArrival .get, recordArrival .get]).1.stream =
      some (converse (application JsonText.library router) (fun _ => none) {} (.load [(ascii "a", ascii "1")])
        [recordArrival .get, recordArrival .get]).1.written := by
  obtain ⟨router, hrouter⟩ := exists_router
  obtain ⟨hengine, hseen⟩ := conversation_served JsonText.library hrouter (fun _ => none)
    (.load [(ascii "a", ascii "1")]) [recordArrival .get, recordArrival .get]
  have hplain : ∀ a ∈ Arrival.answered [recordArrival .get, recordArrival .get], a.isHead = false := by decide
  refine ⟨router, hrouter, ?_, (hseen hplain).1.2 ?_⟩
  · rw [hengine]
    rfl
  · intro a _ _ _ path found _ hfile
    cases hfile

end Runs

/-! ### HEAD -/

/-- The bytes of a value that is a string. -/
def stringBytes : Json → Nat
  | .string s => s.bytes.length
  | _ => 0

/-- The text of an object is not shorter than its names and strings. -/
def WritesStrings (rj : RapidJson) : Prop :=
  ∀ members : List (JString × Json),
    (members.map fun m => m.1.bytes.length + stringBytes m.2).sum ≤ (rj.write (.object members)).length

section Heads

variable [Allocator] {rj : RapidJson}

omit [Allocator] in
theorem length_requestValue {body error : Bytes} (h : requestValue rj body = .error error) :
    9 ≤ error.length ∧ error.length < sizeTypeRange := by
  unfold requestValue at h
  split at h
  · cases h
    decide
  · split at h
    · cases h
      decide
    · cases h
    · cases h
      decide
  · cases h
    decide

omit [Allocator] in
theorem length_errorBody (hrj : WritesStrings rj) (name error : Bytes) (h : error.length < sizeTypeRange) :
    9 + error.length ≤ ((errorBody name error).dump rj).length := by
  have hsum := hrj (errorBody name error)
  have herror : stringBytes (.string (.ref error)) = error.length := by
    rw [stringBytes, JString.ref_bytes h]
  have hname : (JString.ref (ascii "name")).bytes.length = 4 := by decide
  have hkey : (JString.ref (ascii "error")).bytes.length = 5 := by decide
  simp only [errorBody, nameBody, JsonBody.add, List.nil_append, List.cons_append, List.map_cons, List.map_nil,
    List.sum_cons, List.sum_nil, herror, hname, hkey] at hsum
  rw [JsonBody.dump, errorBody, nameBody, JsonBody.add, JsonBody.add]
  simp only [List.nil_append, List.cons_append]
  omega

omit [Allocator] in
/-- Every reply begins with the name. -/
theorem dump_ne_nil (hrj : WritesStrings rj) (name : Bytes) (rest : JsonBody) :
    (nameBody name ++ rest).dump rj ≠ [] := by
  intro hnil
  have hsum := hrj (nameBody name ++ rest)
  have hname : (JString.ref (ascii "name")).bytes.length = 4 := by decide
  rw [JsonBody.dump] at hnil
  rw [hnil, nameBody, JsonBody.add, List.nil_append, List.map_append, List.sum_append, List.map_singleton,
    List.sum_singleton, hname] at hsum
  simp at hsum

/-- A reply on a record has a body, and an error has a longer one than the text of its code. -/
theorem length_handle (hrj : WritesStrings rj) (e : DataEngine) (req : Request) :
    (handle rj e req).1.body ≠ [] ∧
      ((handle rj e req).1.code ≠ 200 →
        400 ≤ sentCode (handle rj e req).1.code ∧
          (handle rj e req).1.body.length ≠ (codeText (handle rj e req).1.code).length) := by
  obtain ⟨rest, hbody, -⟩ := Client.body_handle rj e req
  refine ⟨hbody ▸ dump_ne_nil hrj req.name rest, ?_⟩
  clear hbody rest
  have hbad : (codeText 400).length = 17 := by decide
  have hmissing : (codeText 404).length = 15 := by decide
  have hhigh : 400 ≤ sentCode 400 ∧ 400 ≤ sentCode 404 := by decide
  have ho := handle_outcome rj e req
  generalize handle rj e req = result at ho ⊢
  cases ho with
  | unnamed =>
    have hlong := length_errorBody hrj req.name emptyName (by decide)
    have hlength : emptyName.length = 25 := by decide
    refine fun _ => ⟨hhigh.1, ?_⟩
    show ((errorBody req.name emptyName).dump rj).length ≠ (codeText 400).length
    omega
  | missing =>
    have hlong := length_errorBody hrj req.name (ascii "Item not found") (by decide)
    have hlength : (ascii "Item not found").length = 14 := by decide
    refine fun _ => ⟨hhigh.2, ?_⟩
    show ((errorBody req.name (ascii "Item not found")).dump rj).length ≠ (codeText 404).length
    omega
  | found => exact fun hcode => absurd rfl hcode
  | refused error _ _ hv =>
    obtain ⟨hlength, hshort⟩ := length_requestValue hv
    have hlong := length_errorBody hrj req.name error hshort
    refine fun _ => ⟨hhigh.1, ?_⟩
    show ((errorBody req.name error).dump rj).length ≠ (codeText 400).length
    omega
  | accepted => exact fun hcode => absurd rfl hcode

variable [Strtod] {router : Router Route}

/-- Where the connection leaves out the body, the reply is framed for a HEAD of a record that is there alone. -/
theorem framed_record_iff (hrouter : Router.validate routes = some router) (hrj : WritesStrings rj)
    (files : Bytes → Option File) (skip : Bool) (e : DataEngine) {a : Arrival} {req : Request}
    (h : recordRequest a = some req) :
    a.Framed (application rj router) files skip e ↔
      ((skip || a.isHead) = true → a.isHead = true ∧ (handle rj e req).1.code = 200) := by
  rw [recordRequest] at h
  split_ifs at h with hvalid
  obtain ⟨hne, hlength⟩ := length_handle hrj e req
  have hlow : ¬ 400 ≤ sentCode 200 := by decide
  rw [Arrival.Framed, if_neg hvalid, application_record hrouter e h, Answer.reply, Reply.Framed]
  refine imp_congr_right fun _ => ?_
  by_cases hcode : (handle rj e req).1.code = 200
  · rw [hcode, if_neg hlow]
    simp [hne]
  · obtain ⟨hhigh, hdiffers⟩ := hlength hcode
    rw [if_pos hhigh]
    exact iff_of_false (fun hand => hdiffers hand.2) fun hand => hcode hand.2

theorem allFramed_records_iff (hrouter : Router.validate routes = some router) (hrj : WritesStrings rj)
    (files : Bytes → Option File) (skip : Bool) (e : DataEngine) {as : List Arrival}
    (hrecords : ∀ a ∈ as, (recordRequest a).isSome = true) :
    Arrival.AllFramed (application rj router) files skip e as ↔
      (skip = true → ∀ a ∈ as, a.isHead = true) ∧
        as.Pairwise (fun a b => a.isHead = true → b.isHead = true) ∧
        ∀ x ∈ as.zip (serve rj e (as.filterMap recordRequest)).1, x.1.isHead = true → x.2.response.code = 200 := by
  induction as generalizing skip e with
  | nil => exact iff_of_true trivial ⟨fun _ => List.forall_mem_nil _, .nil, List.forall_mem_nil _⟩
  | cons a as ih =>
    obtain ⟨ha, has⟩ := List.forall_mem_cons.1 hrecords
    obtain ⟨req, hreq⟩ := Option.isSome_iff_exists.1 ha
    have hskip : a.skipAfter skip = (skip || a.isHead) := by
      rw [recordRequest] at hreq
      split_ifs at hreq with hvalid
      rw [Arrival.skipAfter, Bool.eq_false_iff.2 hvalid]
      rfl
    rw [Arrival.AllFramed, framed_record_iff hrouter hrj files skip e hreq, hskip, stateAfter_record hrouter e hreq,
      ih _ _ has, List.filterMap_cons_some hreq, serve_cons, List.zip_cons_cons, List.forall_mem_cons,
      List.forall_mem_cons, List.pairwise_cons]
    dsimp only
    cases skip with
    | true =>
      simp only [Bool.true_or, forall_const]
      tauto
    | false =>
      cases hhead : a.isHead with
      | true =>
        simp only [Bool.or_true, forall_const, Bool.false_eq_true, false_implies]
        tauto
      | false => simp

end Heads

open Crow.Connection in
/-- A client that waits, and only asks for records: it reads all replies back if and only if behind a HEAD it sends
nothing but HEADs, and finds the records of all of them. -/
theorem heads_read_back_iff [Allocator] [Strtod] {rj : RapidJson} (hrj : WritesStrings rj) {router : Router Route}
    (hrouter : Router.validate routes = some router) (files : Bytes → Option File) (e : DataEngine) {as : List Arrival}
    (hrecords : ∀ a ∈ Arrival.answered as, (recordRequest a).isSome = true) :
    httpHead.readAll httpBodyLength ((Arrival.answered as).map Arrival.isHead)
        (converse (application rj router) files {} e as).1.stream =
          some (converse (application rj router) files {} e as).1.written ↔
      (Arrival.answered as).Pairwise (fun a b => a.isHead = true → b.isHead = true) ∧
        ∀ x ∈ (Arrival.answered as).zip (serve rj e ((Arrival.answered as).filterMap recordRequest)).1,
          x.1.isHead = true → x.2.response.code = 200 := by
  have happ : ∀ e req, (application rj router e req).1.WellFormed := wellFormed_application hrouter
  rw [readAll_converse_iff (application rj router) files happ, allFramed_records_iff hrouter hrj files false e hrecords]
  exact and_iff_right fun h => absurd h Bool.false_ne_true

/-- The writer writes names and strings in full. -/
theorem writesStrings : WritesStrings JsonText.library := by
  have hvalue : ∀ v : Json, stringBytes v ≤ (JsonText.write v).length := by
    intro v
    cases v with
    | string s =>
      have hlength := JsonText.length_stringText s.bytes
      rw [stringBytes, JsonText.write, List.length_cons]
      omega
    | _ => exact Nat.zero_le _
  have hmembers : ∀ members : List (JString × Json),
      (members.map fun m => m.1.bytes.length + stringBytes m.2).sum ≤ (JsonText.writeMembers members).length := by
    intro members
    induction members with
    | nil => exact Nat.zero_le _
    | cons m members ih =>
      obtain ⟨n, v⟩ := m
      have hname := JsonText.length_stringText n.bytes
      have hv := hvalue v
      cases members with
      | nil =>
        simp only [JsonText.writeMembers, List.map_cons, List.map_nil, List.sum_cons, List.sum_nil, List.length_cons,
          List.length_append]
        omega
      | cons m' members =>
        rw [JsonText.writeMembers, List.map_cons, List.sum_cons]
        simp only [List.length_cons, List.length_append]
        omega
  intro members
  have hlength := hmembers members
  show _ ≤ (JsonText.write (.object members)).length
  rw [JsonText.write, List.length_cons, List.length_append]
  omega

section Runs

attribute [local instance] Allocator.exact Strtod.none

/-- The reply to a GET behind a HEAD is not read back. -/
theorem get_behind_head : ∃ router, Router.validate routes = some router ∧
    httpHead.readAll httpBodyLength [true, false]
      (converse (application JsonText.library router) (fun _ => none) {} (.load [(ascii "a", ascii "1")])
        [recordArrival .head, recordArrival .get]).1.stream ≠
      some (converse (application JsonText.library router) (fun _ => none) {} (.load [(ascii "a", ascii "1")])
        [recordArrival .head, recordArrival .get]).1.written := by
  obtain ⟨router, hrouter⟩ := exists_router
  have hrecords : ∀ a ∈ Arrival.answered [recordArrival .head, recordArrival .get],
      (recordRequest a).isSome = true := by decide
  refine ⟨router, hrouter, fun hread => ?_⟩
  obtain ⟨hpairwise, -⟩ :=
    (heads_read_back_iff writesStrings hrouter (fun _ => none) (.load [(ascii "a", ascii "1")]) hrecords).1 hread
  have hget : (recordArrival .get).isHead = true := (List.pairwise_cons.1 hpairwise).1 _ (List.mem_singleton.2 rfl) rfl
  exact absurd hget (by decide)

end Runs

/-! ### Static files -/

/-- A path of the server stays in its directory of static files. -/
theorem resolve_staticFile (path : Bytes) (directory : List Bytes) :
    ascii "static" :: directory <:+ resolve directory ((staticFile path).splitOn 47) := by
  have hsplit : (staticFile path).splitOn 47 = ascii "static" :: (sanitizeFilename path).splitOn 47 := by
    have hslash : staticFile path = ascii "static" ++ 47 :: sanitizeFilename path := by
      rw [staticFile, List.append_cons]
      rfl
    have hall : (ascii "static").all (fun c => !(c == 47)) = true := by decide
    have hplain : ∀ c ∈ ascii "static", (c == 47) = false := fun c hc => by
      simpa using List.all_eq_true.1 hall c hc
    rw [hslash, List.splitOn_eq_splitOnP, List.splitOnP_append_cons_of_forall_mem hplain 47 (by decide),
      ← List.splitOn_eq_splitOnP]
  rw [hsplit, resolve, if_neg (by decide), if_neg (by decide)]
  exact resolve_safeName (safeName_sanitizeFilename path) _

/-- Whatever a client sends, and whenever its replies are written: the server does what it would do if there were only
the files in its directory of static files. -/
theorem only_static_files [Allocator] [Strtod] (rj : RapidJson) (router : Router Route)
    {files files' : Bytes → Option File} (directory : List Bytes)
    (h : ∀ path, ascii "static" :: directory <:+ resolve directory (path.splitOn 47) → files path = files' path)
    (c : Crow.Connection) (e : DataEngine) (events : List Crow.Event) :
    c.run (application rj router) files e events = c.run (application rj router) files' e events := by
  refine Connection.run_congr (fun e req path hreply => h path ?_) c e events
  have hfile : ∃ rest, path = staticFile rest := by
    rw [application] at hreply
    generalize router.handle req.method req.url = reaction at hreply
    cases reaction with
    | handler rule params =>
      rw [react] at hreply
      cases hroute : rule.handler with
      | staticFile =>
        rw [hroute] at hreply
        exact ⟨_, (Reply.file.inj hreply).symm⟩
      | _ =>
        rw [hroute] at hreply
        cases hreply
    | notFound =>
      rw [react] at hreply
      dsimp only at hreply
      split_ifs at hreply
    | _ => cases hreply
  obtain ⟨rest, rfl⟩ := hfile
  exact resolve_staticFile rest directory

section Runs

attribute [local instance] Allocator.exact Strtod.none

/-- A file beside the directory of static files. -/
private def besideStatic (path : Bytes) : Option File := if path = ascii "secret" then some ⟨1, [115]⟩ else none

/-- A request for the file beside the directory goes as if there were no such file. -/
theorem beside_not_read : ∃ router, Router.validate routes = some router ∧
    Connection.run (application JsonText.library router) besideStatic {} (.load [])
        [.request (arrivalOf (ascii "/static/../secret") .get)] =
      Connection.run (application JsonText.library router) (fun _ => none) {} (.load [])
        [.request (arrivalOf (ascii "/static/../secret") .get)] := by
  obtain ⟨router, hrouter⟩ := exists_router
  refine ⟨router, hrouter, only_static_files JsonText.library router [] (fun path hpath => ?_) {} (.load []) _⟩
  refine if_neg fun he => ?_
  rw [he] at hpath
  exact absurd (List.isSuffixOf_iff_suffix.2 hpath) (by decide)

end Runs

end HttpServer

end KeyValueServer
