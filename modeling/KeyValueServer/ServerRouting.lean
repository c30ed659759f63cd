import KeyValueServer.Client
import KeyValueServer.Crow.RouterRules

/-!
# The routes of the server

`setup_routing` registers four routes, and Crow one for static files.  The router takes them, and answers every method
and every URL by what the URL is (`Target`): the name of a record, the directory of the records with or without its
slash, the greeting, a static file, or nothing (`router_reaction`).  The engine behind the router sees, of all the
requests, those on records, in their order, each with a name that is not empty and has no slash, and those of the
client as the client means them (`records_served`).
-/

namespace KeyValueServer

namespace HttpServer

open Crow HttpServerHelpers

/-- The handlers of `setup_routing`, and the one for static files. -/
inductive Route
  | getRecord
  | postRecord
  | listRecords
  | greeting
  | staticFile
  deriving DecidableEq

def recordsUrl : Bytes := ascii "/api/records/"

def staticUrl : Bytes := ascii "/static/"

/-- `CROW_ROUTE(app, "/api/records/<string>").methods(...)`. -/
def recordRule (method : HTTPMethod) (route : Route) : Rule Route where
  url := ascii "/api/records/<string>"
  methods := method.bit
  handler := route
  pattern := recordsUrl.map .char ++ [.param .string]
  tagged := by decide
  noNul := by decide

def listRule : Rule Route where
  url := recordsUrl
  methods := HTTPMethod.get.bit
  handler := .listRecords
  pattern := recordsUrl.map .char
  tagged := by decide
  noNul := by decide

def greetingRule : Rule Route where
  url := ascii "/"
  methods := HTTPMethod.get.bit
  handler := .greeting
  pattern := (ascii "/").map .char
  tagged := by decide
  noNul := by decide

/-- The route that `Crow::validate` adds, `CROW_STATIC_ENDPOINT`. -/
def staticRule : Rule Route where
  url := ascii "/static/<path>"
  methods := HTTPMethod.get.bit
  handler := .staticFile
  pattern := staticUrl.map .char ++ [.param .path]
  tagged := by decide
  noNul := by decide

def routes : List (Rule Route) :=
  [recordRule .get .getRecord, recordRule .post .postRecord, listRule, greetingRule, staticRule]

/-! ### What a URL stands for -/

inductive Target
  | record (nameRaw : Bytes)
  | directory
  | listing
  | greeting
  | file (path : Bytes)
  | nothing
  deriving DecidableEq

def target (url : Bytes) : Target :=
  if recordsUrl.isPrefixOf url then
    let nameRaw := url.drop recordsUrl.length
    if nameRaw = [] then .listing else if 47 ∈ nameRaw then .nothing else .record nameRaw
  else if staticUrl.isPrefixOf url then
    let path := url.drop staticUrl.length
    if path = [] then .nothing else .file path
  else if url = ascii "/api/records" then .directory
  else if url = ascii "/" then .greeting
  else .nothing

/-- What the router does with a target. -/
def targetReaction (method : HTTPMethod) (target : Target) : Reaction Route :=
  match method, target with
  | _, .nothing => .notFound
  | .options, .record _ => .allow (Router.allowText [.get, .post])
  | .options, _ => .allow (Router.allowText [.get])
  | .get, .record nameRaw | .head, .record nameRaw =>
    .handler (recordRule .get .getRecord) { stringParams := [nameRaw] }
  | .get, .directory | .head, .directory => .redirect
  | .get, .listing | .head, .listing => .handler listRule {}
  | .get, .greeting | .head, .greeting => .handler greetingRule {}
  | .get, .file path | .head, .file path => .handler staticRule { stringParams := [path] }
  | .post, .record nameRaw => .handler (recordRule .post .postRecord) { stringParams := [nameRaw] }
  | _, _ => .methodNotAllowed

/-! ### Patterns that begin with a text -/

theorem matched_text [Strtod] (text : Bytes) (q : Pattern) (url : Bytes) :
    matched (text.map .char ++ q) ({}, url) =
      if text.isPrefixOf url then matched q ({}, url.drop text.length) else none := by
  rw [matched_append, readAll_chars]
  split <;> rfl

theorem matched_nil [Strtod] (url : Bytes) : matched [] ({}, url) = if url = [] then some {} else none := by
  cases url with
  | nil => rfl
  | cons c url => rfl

/-- A `<string>` at the end takes all that is left, unless there is a slash or nothing. -/
theorem matched_string [Strtod] (url : Bytes) :
    matched [.param .string] ({}, url) = if url = [] ∨ 47 ∈ url then none else some { stringParams := [url] } := by
  cases url with
  | nil => rfl
  | cons c rest =>
    by_cases hslash : 47 ∈ c :: rest
    · rw [if_pos (Or.inr hslash)]
      by_cases hc : isSlash c = true
      · simp [matched, readAll, Piece.read, ParamType.read, hc]
      · -- what is left begins with the slash
        have hdrop : (c :: rest).dropWhile (!isSlash ·) ≠ [] := by
          rw [Ne, List.dropWhile_eq_nil_iff]
          intro hall
          exact absurd (hall 47 hslash) (by decide)
        obtain ⟨d, left, hleft⟩ := List.exists_cons_of_ne_nil hdrop
        simp [matched, readAll, Piece.read, ParamType.read, hc, hleft]
    · have hall : ∀ d ∈ c :: rest, (!isSlash d) = true := by
        intro d hd
        have hne : d ≠ 47 := fun he => hslash (he ▸ hd)
        simp [isSlash, hne]
      have hc : isSlash c = false := by simpa using hall c List.mem_cons_self
      have hdrop : (c :: rest).dropWhile (!isSlash ·) = [] := List.dropWhile_eq_nil_iff.2 hall
      have htake : (c :: rest).takeWhile (!isSlash ·) = c :: rest := List.takeWhile_eq_self_iff.2 hall
      rw [if_neg (by simp [hslash])]
      simp [matched, readAll, Piece.read, ParamType.read, hc, hdrop, htake]

theorem matched_path [Strtod] (url : Bytes) :
    matched [.param .path] ({}, url) = if url = [] then none else some { stringParams := [url] } := by
  cases url with
  | nil => rfl
  | cons c url => rfl

/-! ### The rules of each method -/

theorem routes_for (method : HTTPMethod) :
    routes.filter (·.allows method) =
      match method with
      | .get => [recordRule .get .getRecord, listRule, greetingRule, staticRule]
      | .post => [recordRule .post .postRecord]
      | _ => [] := by
  cases method <;> rfl

/-- Of these texts, a URL begins with one at most. -/
theorem not_static_of_records {url : Bytes} (h : recordsUrl.isPrefixOf url = true) :
    staticUrl.isPrefixOf url = false := by
  rw [Bool.eq_false_iff]
  intro hs
  have hprefix := List.prefix_of_prefix_length_le (List.isPrefixOf_iff_prefix.1 hs) (List.isPrefixOf_iff_prefix.1 h)
    (by decide)
  exact absurd (List.isPrefixOf_iff_prefix.2 hprefix) (by decide)

/-- The rules of the server match what the target of the URL says. -/
theorem matched_recordRule [Strtod] (method : HTTPMethod) (route : Route) (url : Bytes) :
    matched (recordRule method route).pattern ({}, url) =
      match target url with
      | .record nameRaw => some { stringParams := [nameRaw] }
      | _ => none := by
  have hmatched : matched (recordRule method route).pattern ({}, url) = _ := matched_text recordsUrl _ url
  rw [hmatched, matched_string, target]
  by_cases hrecords : recordsUrl.isPrefixOf url = true
  · rw [if_pos hrecords, if_pos hrecords]
    dsimp only
    generalize url.drop recordsUrl.length = nameRaw
    by_cases hname : nameRaw = []
    · simp [hname]
    · by_cases hslash : 47 ∈ nameRaw <;> simp [hname, hslash]
  · rw [if_neg hrecords, if_neg hrecords]
    dsimp only
    split_ifs <;> rfl

theorem matched_staticRule [Strtod] (url : Bytes) :
    matched staticRule.pattern ({}, url) =
      match target url with
      | .file path => some { stringParams := [path] }
      | _ => none := by
  have hmatched : matched staticRule.pattern ({}, url) = _ := matched_text staticUrl _ url
  rw [hmatched, matched_path, target]
  by_cases hrecords : recordsUrl.isPrefixOf url = true
  · have hstatic := not_static_of_records hrecords
    rw [if_pos hrecords, if_neg (by simp [hstatic])]
    dsimp only
    split_ifs <;> rfl
  · rw [if_neg hrecords]
    by_cases hstatic : staticUrl.isPrefixOf url = true
    · rw [if_pos hstatic, if_pos hstatic]
      dsimp only
      split_ifs <;> rfl
    · rw [if_neg hstatic, if_neg hstatic]
      split_ifs <;> rfl

/-- A text without a parameter matches itself. -/
theorem matched_text_only [Strtod] (text url : Bytes) :
    matched (text.map .char) ({}, url) = if url = text then some {} else none := by
  have hmatched := matched_text text [] url
  rw [List.append_nil] at hmatched
  rw [hmatched, matched_nil]
  by_cases hurl : url = text
  · subst hurl
    simp
  · rw [if_neg hurl]
    by_cases hprefix : text.isPrefixOf url = true
    · obtain ⟨rest, rfl⟩ := List.isPrefixOf_iff_prefix.1 hprefix
      have hrest : rest ≠ [] := fun he => hurl (by rw [he, List.append_nil])
      simp [hrest]
    · rw [if_neg hprefix]

theorem target_eq_listing_iff (url : Bytes) : target url = .listing ↔ url = recordsUrl := by
  constructor
  · intro h
    unfold target at h
    by_cases hrecords : recordsUrl.isPrefixOf url = true
    · obtain ⟨rest, rfl⟩ := List.isPrefixOf_iff_prefix.1 hrecords
      rw [if_pos hrecords, List.drop_left] at h
      dsimp only at h
      split_ifs at h with hrest
      rw [hrest, List.append_nil]
    · rw [if_neg hrecords] at h
      dsimp only at h
      split_ifs at h
  · rintro rfl
    decide

/-- Two more URLs that stand for themselves. -/
theorem target_eq_iff (url : Bytes) :
    (target url = .directory ↔ url = ascii "/api/records") ∧ (target url = .greeting ↔ url = ascii "/") := by
  constructor
  all_goals
    constructor
    · intro h
      unfold target at h
      dsimp only at h
      split_ifs at h
      assumption
    · rintro rfl
      decide

theorem redirects_eq [Strtod] (url : Bytes) :
    (recordRule .get .getRecord).redirects url = false ∧ (recordRule .post .postRecord).redirects url = false ∧
      greetingRule.redirects url = false ∧ staticRule.redirects url = false ∧
      listRule.redirects url = decide (target url = .directory) := by
  refine ⟨rfl, rfl, rfl, rfl, ?_⟩
  have hslashless : listRule.slashless = some ((ascii "/api/records").map .char) := by decide
  rw [Rule.redirects, hslashless, Option.any_some, matched_text_only, Bool.eq_iff_iff, decide_eq_true_eq,
    (target_eq_iff url).1]
  split_ifs with hurl <;> simp [hurl]

/-- What the rules say about a target. -/
def targetLookup (method : HTTPMethod) (target : Target) : Lookup Route :=
  match method, target with
  | .get, .record nameRaw => .rule (recordRule .get .getRecord) { stringParams := [nameRaw] }
  | .get, .directory => .redirect
  | .get, .listing => .rule listRule {}
  | .get, .greeting => .rule greetingRule {}
  | .get, .file path => .rule staticRule { stringParams := [path] }
  | .post, .record nameRaw => .rule (recordRule .post .postRecord) { stringParams := [nameRaw] }
  | _, _ => .none

theorem lookup_routes [Strtod] (url : Bytes) (method : HTTPMethod) :
    lookup routes url method = targetLookup method (target url) := by
  obtain ⟨hget, hpost, hgreeting, hstatic, hlist⟩ := redirects_eq url
  have hlistRule : matched listRule.pattern ({}, url) = if target url = .listing then some {} else none :=
    (matched_text_only recordsUrl url).trans (by simp only [target_eq_listing_iff])
  have hgreetingRule : matched greetingRule.pattern ({}, url) = if target url = .greeting then some {} else none :=
    (matched_text_only (ascii "/") url).trans (by simp only [target_eq_iff])
  rw [lookup, routes_for]
  cases method with
  | get =>
    simp only [scan, List.any_cons, List.any_nil, hget, hgreeting, hstatic, hlist, List.findSome?_cons,
      matched_recordRule, matched_staticRule, hlistRule, hgreetingRule]
    cases target url <;> rfl
  | post =>
    simp only [scan, List.any_cons, List.any_nil, hpost, List.findSome?_cons, matched_recordRule]
    cases target url <;> rfl
  | _ => cases target url <;> rfl

/-! ### The router of the server -/

theorem fits_routes : Router.Fits routes := Router.fits_of_length_le (by decide)

/-- `Crow::validate` does not throw. -/
theorem exists_router : ∃ router, Router.validate routes = some router := by
  have hdistinct : Router.Distinct routes := fun method => by cases method <;> decide
  exact Option.isSome_iff_exists.1
    ((Router.validate_isSome_iff fits_routes).2 ⟨hdistinct, Router.oneHead_of_forall (c := 47) (by decide)⟩)

/-- The methods that serve a target. -/
def servingMethods : Target → List HTTPMethod
  | .nothing => []
  | .record _ => [.get, .post]
  | _ => [.get]

theorem serving_routes [Strtod] (url : Bytes) :
    (HTTPMethod.all.filter fun method => !(lookup routes url method).isNone) = servingMethods (target url) := by
  simp only [lookup_routes]
  cases target url <;> rfl

theorem handle_routes [Strtod] {router : Router Route} (hrouter : Router.validate routes = some router)
    (method : HTTPMethod) (url : Bytes) :
    router.handle method url =
      if method = .options ∧ url = ascii "/*" then .allow (Router.allowText [.get, .post])
      else targetReaction method (target url) := by
  rw [Router.handle_eq_reaction fits_routes hrouter, reaction]
  rw [serving_routes, lookup_routes]
  have hall : (HTTPMethod.all.filter fun method => routes.any (·.allows method)) = [.get, .post] := by decide
  by_cases hoptions : method = .options
  · subst hoptions
    rw [if_pos rfl]
    by_cases hurl : url = ascii "/*"
    · have hboth : HTTPMethod.options = .options ∧ url = ascii "/*" := ⟨rfl, hurl⟩
      rw [if_pos hurl, if_pos hboth, hall]
    · have hother : ¬ (HTTPMethod.options = .options ∧ url = ascii "/*") := fun h => hurl h.2
      rw [if_neg hurl, if_neg hother]
      cases target url <;> rfl
  · have hother : ¬ (method = .options ∧ url = ascii "/*") := fun h => hoptions h.1
    rw [if_neg hoptions, if_neg hother]
    cases method with
    | options => exact absurd rfl hoptions
    | _ => cases target url <;> rfl

/-- The server starts, and its router answers every method and every URL by the target of the URL; only `OPTIONS` of
`/*` asks for no target. -/
theorem router_reaction [Strtod] :
    ∃ router, Router.validate routes = some router ∧ ∀ method url,
      router.handle method url =
        if method = .options ∧ url = ascii "/*" then .allow (Router.allowText [.get, .post])
        else targetReaction method (target url) := by
  obtain ⟨router, hrouter⟩ := exists_router
  exact ⟨router, hrouter, handle_routes hrouter⟩

/-! ### The engine behind the routes -/

/-- What a handler returns: a response, or a static file to be sent. -/
inductive Answer
  | response (r : Response)
  | file (path : Bytes)
  deriving DecidableEq

/-- A request as Crow has parsed it. -/
structure Message where
  method : HTTPMethod
  url : Bytes
  body : Bytes
  deriving DecidableEq

/-- The request on a record that a message is, if it is one. -/
def Message.recordRequest (message : Message) : Option Request :=
  match message.method, target message.url with
  | .get, .record nameRaw | .head, .record nameRaw => some ⟨.get, nameRaw, message.body⟩
  | .post, .record nameRaw => some ⟨.post, nameRaw, message.body⟩
  | _, _ => none

section Engine

variable [Allocator] [Strtod] (rj : RapidJson)

/-- The handlers.  The argument of the name is the first of the strings. -/
def callHandler (e : DataEngine) (route : Route) (params : RoutingParams) (body : Bytes) : Answer × DataEngine :=
  let argument := params.stringParams.headD []
  match route with
  | .getRecord =>
    let (reply, e) := handle rj e ⟨.get, argument, body⟩
    (.response reply, e)
  | .postRecord =>
    let (reply, e) := handle rj e ⟨.post, argument, body⟩
    (.response reply, e)
  | .listRecords => (.response ⟨501, ascii "text/plain", ascii "Item listing is not supported"⟩, e)
  | .greeting => (.response ⟨200, ascii "text/plain", ascii "Hello, World!\n"⟩, e)
  | .staticFile => (.file argument, e)

/-- A message goes through the router; `none` when the router answers it without a handler. -/
def routeMessage (router : Router Route) (e : DataEngine) (message : Message) : Option Answer × DataEngine :=
  match router.handle message.method message.url with
  | .handler rule params =>
    let (answer, e) := callHandler rj e rule.handler params message.body
    (some answer, e)
  | _ => (none, e)

/-- Messages one after the other: each with its answer, and the engine afterwards. -/
def routeMessages (router : Router Route) (e : DataEngine) : List Message → List (Message × Option Answer) × DataEngine
  | [] => ([], e)
  | message :: messages =>
    let (answer, e) := routeMessage rj router e message
    let (answers, e) := routeMessages router e messages
    ((message, answer) :: answers, e)

variable {rj}

theorem routeMessage_record {router : Router Route} (hrouter : Router.validate routes = some router) (e : DataEngine)
    {message : Message} {req : Request} (h : message.recordRequest = some req) :
    routeMessage rj router e message = (some (.response (handle rj e req).1), (handle rj e req).2) := by
  obtain ⟨method, url, body⟩ := message
  rw [routeMessage, handle_routes hrouter]
  rw [Message.recordRequest] at h
  cases method with
  | get | head | post =>
    cases htarget : target url with
    | record nameRaw =>
      rw [htarget] at h
      obtain rfl := Option.some.inj h
      rfl
    | _ =>
      rw [htarget] at h
      cases h
  | _ => cases h

/-- The other messages do not reach the engine. -/
theorem routeMessage_other {router : Router Route} (hrouter : Router.validate routes = some router) (e : DataEngine)
    {message : Message} (h : message.recordRequest = none) : (routeMessage rj router e message).2 = e := by
  obtain ⟨method, url, body⟩ := message
  rw [routeMessage, handle_routes hrouter]
  rw [Message.recordRequest] at h
  cases method with
  | options =>
    dsimp only
    split_ifs
    · rfl
    · cases target url <;> rfl
  | get | head | post =>
    cases htarget : target url with
    | record nameRaw =>
      rw [htarget] at h
      cases h
    | _ => rfl
  | _ => cases target url <;> rfl

end Engine

/-! ### The requests on records -/

theorem target_eq_record_iff {url nameRaw : Bytes} :
    target url = .record nameRaw ↔ url = recordsUrl ++ nameRaw ∧ nameRaw ≠ [] ∧ 47 ∉ nameRaw := by
  constructor
  · intro h
    unfold target at h
    by_cases hrecords : recordsUrl.isPrefixOf url = true
    · obtain ⟨rest, rfl⟩ := List.isPrefixOf_iff_prefix.1 hrecords
      rw [if_pos hrecords, List.drop_left] at h
      dsimp only at h
      split_ifs at h with hne hslash
      cases h
      exact ⟨rfl, hne, hslash⟩
    · rw [if_neg hrecords] at h
      dsimp only at h
      split_ifs at h
  · rintro ⟨rfl, hne, hslash⟩
    have hrecords : recordsUrl.isPrefixOf (recordsUrl ++ nameRaw) = true :=
      List.isPrefixOf_iff_prefix.2 (List.prefix_append ..)
    rw [target, if_pos hrecords, List.drop_left]
    dsimp only
    rw [if_neg hne, if_neg hslash]

theorem nameRaw_recordRequest {message : Message} {req : Request} (h : message.recordRequest = some req) :
    req.nameRaw ≠ [] ∧ 47 ∉ req.nameRaw := by
  obtain ⟨method, url, body⟩ := message
  rw [Message.recordRequest] at h
  cases method with
  | get | head | post =>
    cases htarget : target url with
    | record nameRaw =>
      rw [htarget] at h
      obtain rfl := Option.some.inj h
      exact (target_eq_record_iff.1 htarget).2
    | _ =>
      rw [htarget] at h
      cases h
  | _ => cases h

/-- A quoted character is not quoted as nothing, nor with a slash. -/
theorem quoteByte_ne (c : UInt8) : Text.quoteByte c ≠ [] ∧ 47 ∉ Text.quoteByte c :=
  Text.forall_byte (P := fun c => Text.quoteByte c ≠ [] ∧ 47 ∉ Text.quoteByte c) (by decide +kernel) c

/-- The message that the client sends for the request of an attempt. -/
def clientMessage (op : Client.Operation) (draw : Client.Draw) : Message where
  method := if op.writing then .post else .get
  url := recordsUrl ++ Text.quotePlus op.name
  body := (op.request draw).body

theorem recordRequest_clientMessage (op : Client.Operation) (draw : Client.Draw) :
    (clientMessage op draw).recordRequest = some (op.request draw) := by
  have hne : Text.quotePlus op.name ≠ [] := by
    obtain ⟨c, rest, hname⟩ := List.exists_cons_of_ne_nil op.name_ne
    rw [hname, Text.quotePlus, List.flatMap_cons]
    exact fun h => (quoteByte_ne c).1 (List.append_eq_nil_iff.1 h).1
  have hslash : 47 ∉ Text.quotePlus op.name := by
    intro h
    obtain ⟨c, -, hc⟩ := List.mem_flatMap.1 h
    exact (quoteByte_ne c).2 hc
  have htarget : target (recordsUrl ++ Text.quotePlus op.name) = .record (Text.quotePlus op.name) :=
    target_eq_record_iff.2 ⟨rfl, hne, hslash⟩
  rw [Message.recordRequest, clientMessage, Client.Operation.request]
  dsimp only
  rw [htarget]
  cases op.writing <;> rfl

section Engine

variable [Allocator] [Strtod] {rj : RapidJson} {router : Router Route}

theorem engine_routeMessages (hrouter : Router.validate routes = some router) (e : DataEngine)
    (messages : List Message) :
    (routeMessages rj router e messages).2 = (serve rj e (messages.filterMap Message.recordRequest)).2 := by
  induction messages generalizing e with
  | nil => rfl
  | cons message messages ih =>
    rw [routeMessages]
    dsimp only
    rw [ih]
    cases hreq : message.recordRequest with
    | none => rw [List.filterMap_cons_none hreq, routeMessage_other hrouter e hreq]
    | some req => rw [List.filterMap_cons_some hreq, serve_cons, routeMessage_record hrouter e hreq]

/-- The messages that are requests on records, with their answers. -/
def recordAnswers (answers : List (Message × Option Answer)) : List (Request × Option Answer) :=
  answers.filterMap fun x => x.1.recordRequest.map (·, x.2)

theorem answers_routeMessages (hrouter : Router.validate routes = some router) (e : DataEngine)
    (messages : List Message) :
    recordAnswers (routeMessages rj router e messages).1 =
      (serve rj e (messages.filterMap Message.recordRequest)).1.map
        fun x => (x.request, some (Answer.response x.response)) := by
  induction messages generalizing e with
  | nil => rfl
  | cons message messages ih =>
    unfold recordAnswers at ih ⊢
    rw [routeMessages]
    dsimp only
    cases hreq : message.recordRequest with
    | none =>
      have hrest := ih e
      rw [List.filterMap_cons_none hreq, List.filterMap_cons_none (by rw [hreq]; rfl),
        routeMessage_other hrouter e hreq]
      exact hrest
    | some req =>
      have hrest := ih (handle rj e req).2
      rw [List.filterMap_cons_some hreq, routeMessage_record hrouter e hreq, serve_cons, List.map_cons]
      rw [List.filterMap_cons_some (by rw [hreq]; rfl)]
      exact congrArg _ hrest

end Engine

/-- The engine behind the router is in the state that the requests on records have brought it to, and answers these in
their order; they have a name without slashes, and a message of the client is the request that the client means. -/
theorem records_served [Allocator] [Strtod] (rj : RapidJson) {router : Router Route}
    (hrouter : Router.validate routes = some router) (e : DataEngine) (messages : List Message) :
    (routeMessages rj router e messages).2 = (serve rj e (messages.filterMap Message.recordRequest)).2 ∧
    recordAnswers (routeMessages rj router e messages).1 =
      ((serve rj e (messages.filterMap Message.recordRequest)).1.map
        fun x => (x.request, some (Answer.response x.response))) ∧
    (∀ req ∈ messages.filterMap Message.recordRequest, req.nameRaw ≠ [] ∧ 47 ∉ req.nameRaw) ∧
    ∀ op draw, (clientMessage op draw).recordRequest = some (op.request draw) := by
  refine ⟨engine_routeMessages hrouter e messages, answers_routeMessages hrouter e messages, ?_,
    recordRequest_clientMessage⟩
  intro req hreq
  obtain ⟨message, -, hmessage⟩ := List.mem_filterMap.1 hreq
  exact nameRaw_recordRequest hmessage

section Runs

attribute [local instance] Allocator.exact Strtod.none

/-- A HEAD of a record, and a GET of the directory. -/
private def headThenDirectory : List Message :=
  [⟨.head, ascii "/api/records/a", []⟩, ⟨.get, ascii "/api/records", []⟩]

/-- A HEAD counts as a read of the record; the directory does not concern the engine. -/
theorem head_counts_on : ∃ router, Router.validate routes = some router ∧
    (routeMessages JsonText.library router (.load [(ascii "a", ascii "1")]) headThenDirectory).2.view (ascii "a") =
      some ⟨ascii "1", ⟨1, 0⟩⟩ ∧
    (recordAnswers
      (routeMessages JsonText.library router (.load [(ascii "a", ascii "1")]) headThenDirectory).1).length = 1 := by
  obtain ⟨router, hrouter⟩ := exists_router
  obtain ⟨hengine, hanswers, -⟩ :=
    records_served JsonText.library hrouter (.load [(ascii "a", ascii "1")]) headThenDirectory
  refine ⟨router, hrouter, ?_, ?_⟩
  · rw [hengine]
    rfl
  · rw [hanswers]
    rfl

end Runs

end HttpServer

end KeyValueServer
