import KeyValueServer.Crow.ConnectionRules

/-!
# Conversations

A client that waits sends a request when the reply to the one before is there.  Then every request is handled, in the
order of the requests, and what the connection sends is read back as its replies if and only if all of them are framed
(`replies_read_back_iff`).

A client that does not wait may find the response still completed by the request before.  Then its request is not
handled: it gets a reply with the status of that response (`burst_handles_first`).  In every order of requests and
writes, the connection reads no other files than those that the application names (`run_congr`).
-/

namespace KeyValueServer

namespace Crow

open Text (HttpHead httpHead httpBodyLength)

namespace Connection

section Waiting

variable {S : Type} (app : S → Request → Reply × S) (files : Bytes → Option File)

/-- A request and its reply, until the reply is written. -/
def exchange (c : Connection) (s : S) (a : Arrival) : Connection × S :=
  let (c, s) := c.handle app files s a
  (c.settle, s)

/-- The requests of a client that waits; there are no more when the connection is closed. -/
def converse (c : Connection) (s : S) : List Arrival → Connection × S
  | [] => (c, s)
  | a :: as =>
    let (c, s) := c.exchange app files s a
    if c.isOpen then converse c s as else (c, s)

end Waiting

end Connection

/-- A reply that is written asynchronously. -/
def Reply.Small (files : Bytes → Option File) : Reply → Prop
  | .response _ _ body => body.length < streamThreshold
  | .error _ => True
  | .file path => files path = none
  | .thrown => False

/-! ### What a client sees -/

def statusLine (code : Nat) : Bytes := (statusCodes.lookup (sentCode code)).getD []

/-- A body as it is sent. -/
def sentBody (code : Nat) (body : Bytes) : Bytes := if 400 ≤ sentCode code ∧ body = [] then codeText code else body

/-- The status line and the body of a message. -/
def seen (m : HttpHead × Bytes) : Bytes × Bytes := (m.1.statusLine, m.2)

/-- What is seen of a reply. -/
def Reply.shown (files : Bytes → Option File) (skip : Bool) (buf : Bytes) : Reply → Bytes × Bytes
  | .response code _ body => (statusLine code, sentBody code (if skip then [] else body))
  | .error code => (statusLine code, sentBody code [])
  | .file path =>
    match files path with
    | none => (statusLine 404, codeText 404)
    | some found => (statusLine 200, (fileBlocks found.content.length found.content buf).flatten)
  | .thrown => (statusLine 200, [])

/-! ### The history of a conversation -/

namespace Arrival

def isHead (a : Arrival) : Bool := a.request.method = .head

/-- Whether the connection still takes replies for ones to HEAD, behind this request. -/
def skipAfter (skip : Bool) (a : Arrival) : Bool := skip || (!a.request.isInvalid && a.isHead)

section Application

variable {S : Type} (app : S → Request → Reply × S) (files : Bytes → Option File)

def stateAfter (s : S) (a : Arrival) : S := if a.request.isInvalid then s else (app s a.request).2

/-- The reply is framed: a refused request has a body in its reply, and an announcement unless `skip_body` is set. -/
def Framed (skip : Bool) (s : S) (a : Arrival) : Prop :=
  if a.request.isInvalid then skip = false ∧ a.isHead = false
  else (app s a.request).1.Framed files (skip || a.isHead) a.isHead

/-- The requests that are answered: those up to the first that closes the connection. -/
def answered : List Arrival → List Arrival
  | [] => []
  | a :: as => a :: if a.request.closeConnection then [] else answered as

/-- All replies of a conversation are framed. -/
def AllFramed : Bool → S → List Arrival → Prop
  | _, _, [] => True
  | skip, s, a :: as => a.Framed app files skip s ∧ AllFramed (a.skipAfter skip) (a.stateAfter app s) as

def shown (skip : Bool) (s : S) (a : Arrival) : Bytes × Bytes :=
  if a.request.isInvalid then (statusLine 400, codeText 400)
  else (app s a.request).1.shown files (skip || a.isHead) a.buf

/-- What is seen of a conversation. -/
def allShown : Bool → S → List Arrival → List (Bytes × Bytes)
  | _, _, [] => []
  | skip, s, a :: as => a.shown app files skip s :: allShown (a.skipAfter skip) (a.stateAfter app s) as

end Application

end Arrival

namespace Connection

variable {S : Type} (app : S → Request → Reply × S) (files : Bytes → Option File)

/-- The connection with what the request says about it. -/
def received (c : Connection) (req : Request) : Connection :=
  { c with addKeepAlive := req.keepAlive, closeConnection := req.closeConnection }

/-- A request without its host is refused. -/
def refused (c : Connection) : Connection := { c with res := c.res.assign { code := 400 } }

theorem handle_eq (c : Connection) (s : S) (a : Arrival) :
    c.handle app files s a =
      if a.request.isInvalid then ((c.received a.request).refused.completeRequest a, s)
      else if c.res.completed then ((c.received a.request).completeRequest a, s)
      else (c.received a.request).handleValid app files s a :=
  rfl

theorem handleValid_eq {c : Connection} {skip : Bool} (h : c.Idle skip) {s : S} {a : Arrival}
    (hreply : (app s a.request).1.WellFormed) :
    c.handleValid app files s a =
      (((c.ended files (skip || a.isHead) (app s a.request).1).completeRequest a).marked, (app s a.request).2) := by
  have hres : (if a.request.method = .head then { c.res with skipBody := true } else c.res) =
      { c.res with skipBody := skip || a.isHead } := by
    rw [Arrival.isHead, ← h.skipBody]
    split
    · rename_i hhead
      simp [hhead]
    · rename_i hhead
      simp [hhead]
  rw [handleValid, hres]
  generalize app s a.request = result at hreply ⊢
  obtain ⟨reply, s⟩ := result
  cases reply with
  | thrown => exact hreply.elim
  | _ => rfl

theorem Idle.received {c : Connection} {skip : Bool} (h : c.Idle skip) (req : Request) : (c.received req).Idle skip :=
  ⟨h.body, h.headers, h.completed, h.file, h.skipBody, h.manualLengthHeader, h.resBodyCopy, h.writing⟩

theorem framed_refused_iff {c : Connection} {skip : Bool} (h : c.Idle skip) (isHead : Bool) (a : Arrival) :
    Text.HeadFormat.Framed httpBodyLength isHead (c.refused.message a) ↔ skip = false ∧ isHead = false := by
  have hbodiless : bodiless (sentCode 400) = false := by decide
  have hcode : 400 ≤ sentCode 400 := by decide
  have hpayload : (c.refused.message a).2 = codeText 400 := by
    rw [message_payload]
    exact if_pos ⟨hcode, rfl⟩
  have hbody : (c.refused.outgoing a.request).body = codeText 400 := by
    rw [outgoing_body]
    exact if_pos ⟨hcode, rfl⟩
  have hannounced : (c.refused.outgoing a.request).announced =
      if skip = true then none else some (codeText 400).length := by
    rw [announced_outgoing, hbody, ← h.manualLengthHeader]
    rfl
  have hsent : sentCode c.refused.res.code = sentCode 400 := rfl
  rw [framed_message_iff, hpayload, hannounced, hsent, hbodiless]
  cases isHead <;> cases skip <;> simp [codeText_ne_nil]

theorem seen_message (c : Connection) (a : Arrival) :
    seen (c.message a) =
      (statusLine c.res.code,
        match c.res.file with
        | some content => (fileBlocks content.length content a.buf).flatten
        | none => sentBody c.res.code c.res.body) := by
  have hline : (c.message a).1.statusLine = statusLine c.res.code := by
    show (statusCodes.lookup (c.outgoing a.request).code).getD [] = statusLine c.res.code
    rw [outgoing_code, statusLine]
  rw [seen, hline, message_payload]
  cases c.res.file <;> rfl

/-- A reply is seen as it is, but for the body that the connection leaves out. -/
theorem seen_ended {c : Connection} {skip₀ : Bool} (h : c.Idle skip₀) (skip : Bool) {reply : Reply}
    (hreply : reply.WellFormed) (a : Arrival) :
    seen ((c.ended files skip reply).message a) = reply.shown files skip a.buf := by
  obtain ⟨hcompleted, hskipBody, -⟩ := Response.fill_fields h skip files hreply
  have hended : (c.ended files skip reply).res.code = ({ c.res with skipBody := skip }.fill files reply).code ∧
      (c.ended files skip reply).res.file = ({ c.res with skipBody := skip }.fill files reply).file ∧
      (c.ended files skip reply).res.body =
        if skip = true then [] else ({ c.res with skipBody := skip }.fill files reply).body := by
    cases skip with
    | false =>
      rw [ended, Response.finish_plain hcompleted hskipBody]
      exact ⟨rfl, rfl, rfl⟩
    | true =>
      rw [ended, Response.finish_skip hcompleted hskipBody]
      exact ⟨rfl, rfl, rfl⟩
  obtain ⟨hcode, hfile, hbody⟩ := hended
  rw [seen_message, hcode, hfile, hbody]
  cases reply with
  | response code headers body => rfl
  | error code =>
    simp only [Response.fill, h.file, h.body, ite_self]
    rfl
  | file path =>
    rw [Response.fill, Reply.shown]
    cases files path with
    | none =>
      simp only [Response.setStaticFileInfo, h.body, ite_self]
      rfl
    | some found =>
      obtain ⟨types, -, hset⟩ := Response.setStaticFileInfo_some { c.res with skipBody := skip } path found
      rw [hset]
  | thrown => exact hreply.elim

/-- What one request adds to a conversation. -/
structure Exchanged (c c' : Connection) (a : Arrival) (skip : Bool) (framed : Prop) (shown : Bytes × Bytes)
    (m : HttpHead × Bytes) : Prop where
  idle : c'.Idle (a.skipAfter skip)
  written : c'.written = c.written ++ [m]
  isOpen : c'.isOpen = (c.isOpen && !a.request.closeConnection)
  valid : m.1.Valid
  framed_iff : Text.HeadFormat.Framed httpBodyLength a.isHead m ↔ framed
  seen_eq : seen m = shown

theorem exchange_spec (happ : ∀ s req, (app s req).1.WellFormed) {c : Connection} {skip : Bool} (h : c.Idle skip)
    (s : S) (a : Arrival) :
    (c.exchange app files s a).2 = a.stateAfter app s ∧
      ∃ m, Exchanged c (c.exchange app files s a).1 a skip (a.Framed app files skip s) (a.shown app files skip s)
        m := by
  have h₀ := h.received a.request
  rw [exchange, handle_eq]
  by_cases hinvalid : a.request.isInvalid = true
  · have hskip : a.skipAfter skip = skip := by
      rw [Arrival.skipAfter, hinvalid]
      simp
    have hsent := (sent_completeRequest (c := (c.received a.request).refused) (a := a) h₀.resBodyCopy h₀.writing
      h₀.skipBody h₀.manualLengthHeader).1
    have hframed := framed_refused_iff h₀ a.isHead a
    have hseen : seen ((c.received a.request).refused.message a) = (statusLine 400, codeText 400) := seen_message ..
    rw [if_pos hinvalid, Arrival.stateAfter, if_pos hinvalid, Arrival.Framed, if_pos hinvalid, Arrival.shown,
      if_pos hinvalid]
    dsimp only
    refine ⟨rfl, _, ⟨?_, hsent.written, hsent.isOpen, valid_message Headers.OneLine.nil a, hframed, hseen⟩⟩
    rw [hskip]
    exact hsent.idle
  · have hreply := happ s a.request
    have hskip : a.skipAfter skip = (skip || a.isHead) := by
      rw [Arrival.skipAfter, Bool.eq_false_iff.2 hinvalid]
      rfl
    have hkeeps : skip = true → (skip || a.isHead) = true := fun h => by rw [h]; rfl
    obtain ⟨hskipBody, hmanual, hheaders⟩ := ended_flags files h₀ hkeeps hreply
    have hsent := (sent_completeRequest (c := (c.received a.request).ended files (skip || a.isHead) (app s a.request).1)
      (a := a) h₀.resBodyCopy h₀.writing hskipBody hmanual).2
    have hframed := framed_ended_iff files h₀ a.isHead hreply a
    have hseen := seen_ended files h₀ (skip || a.isHead) hreply a
    rw [if_neg hinvalid, h.completed, if_neg Bool.false_ne_true, handleValid_eq app files h₀ hreply, Arrival.stateAfter,
      if_neg hinvalid, Arrival.Framed, if_neg hinvalid, Arrival.shown, if_neg hinvalid]
    dsimp only
    refine ⟨rfl, _, ⟨?_, hsent.written, hsent.isOpen, valid_message hheaders a, hframed, hseen⟩⟩
    rw [hskip]
    exact hsent.idle

theorem converse_spec (happ : ∀ s req, (app s req).1.WellFormed) {c : Connection} {skip : Bool} (h : c.Idle skip)
    (hopen : c.isOpen = true) (s : S) (as : List Arrival) :
    (c.converse app files s as).2 = (Arrival.answered as).foldl (fun s a => a.stateAfter app s) s ∧
      ∃ messages, (c.converse app files s as).1.written = c.written ++ messages ∧ (∀ m ∈ messages, m.1.Valid) ∧
        (List.Forall₂ (Text.HeadFormat.Framed httpBodyLength) ((Arrival.answered as).map Arrival.isHead) messages ↔
          Arrival.AllFramed app files skip s (Arrival.answered as)) ∧
        messages.map seen = Arrival.allShown app files skip s (Arrival.answered as) := by
  induction as generalizing c skip s with
  | nil =>
    refine ⟨rfl, [], ?_, List.forall_mem_nil _, iff_of_true .nil trivial, rfl⟩
    rw [converse, List.append_nil]
  | cons a as ih =>
    obtain ⟨hstate, m, hm⟩ := exchange_spec app files happ h s a
    rw [converse, Arrival.answered]
    generalize c.exchange app files s a = result at hstate hm ⊢
    obtain ⟨c', s'⟩ := result
    dsimp only at hstate hm ⊢
    rw [hstate]
    have hopen' : c'.isOpen = !a.request.closeConnection := by
      rw [hm.isOpen, hopen, Bool.true_and]
    cases hclose : a.request.closeConnection with
    | true =>
      rw [hopen', hclose]
      refine ⟨rfl, [m], hm.written, List.forall_mem_singleton.2 hm.valid, ?_, congrArg ([·]) hm.seen_eq⟩
      show List.Forall₂ _ [a.isHead] [m] ↔ a.Framed app files skip s ∧ True
      rw [List.forall₂_cons, hm.framed_iff]
      exact and_congr_right fun _ => iff_of_true .nil trivial
    | false =>
      rw [hclose] at hopen'
      obtain ⟨hfinal, messages, hwritten, hvalid, hiff, hseen⟩ := ih hm.idle hopen' (a.stateAfter app s)
      rw [hopen']
      refine ⟨hfinal, m :: messages, ?_, List.forall_mem_cons.2 ⟨hm.valid, hvalid⟩, ?_,
        congrArg₂ List.cons hm.seen_eq hseen⟩
      · show (c'.converse app files (a.stateAfter app s) as).1.written = _
        rw [hwritten, hm.written, List.append_assoc]
        rfl
      · show List.Forall₂ _ (a.isHead :: (Arrival.answered as).map Arrival.isHead) (m :: messages) ↔ _ ∧ _
        rw [List.forall₂_cons, hm.framed_iff, hiff]
        exact Iff.rfl

/-- What a connection has given to the socket. -/
def stream (c : Connection) : Bytes := httpHead.writeAll c.written

private theorem idle_start : Idle {} false := ⟨rfl, Or.inl rfl, rfl, rfl, rfl, rfl, rfl, rfl⟩

theorem state_converse (happ : ∀ s req, (app s req).1.WellFormed) (s : S) (as : List Arrival) :
    (converse app files {} s as).2 = (Arrival.answered as).foldl (fun s a => a.stateAfter app s) s :=
  (converse_spec app files happ idle_start rfl s as).1

theorem readAll_converse_iff (happ : ∀ s req, (app s req).1.WellFormed) (s : S) (as : List Arrival) :
    httpHead.readAll httpBodyLength ((Arrival.answered as).map Arrival.isHead) (converse app files {} s as).1.stream =
        some (converse app files {} s as).1.written ↔
      Arrival.AllFramed app files false s (Arrival.answered as) := by
  obtain ⟨-, messages, hwritten, hvalid, hiff, -⟩ := converse_spec app files happ idle_start rfl s as
  have hmessages : (converse app files {} s as).1.written = messages := hwritten
  rw [stream, hmessages, Text.HeadFormat.readAll_writeAll_iff hvalid]
  exact hiff

/-- What the messages of a conversation show. -/
theorem seen_converse (happ : ∀ s req, (app s req).1.WellFormed) (s : S) (as : List Arrival) :
    (converse app files {} s as).1.written.map seen = Arrival.allShown app files false s (Arrival.answered as) := by
  obtain ⟨-, messages, hwritten, -, -, hseen⟩ := converse_spec app files happ idle_start rfl s as
  have hmessages : (converse app files {} s as).1.written = messages := hwritten
  rw [hmessages, hseen]

/-- An application that counts what it handles. -/
private def counter (n : Nat) (_ : Request) : Reply × Nat := (.response 200 [] (JsonText.decimal n), n + 1)

private theorem counter_wellFormed (n : Nat) (req : Request) : (counter n req).1.WellFormed :=
  ⟨Headers.OneLine.nil, rfl, fun h => absurd h (by decide)⟩

private def arrival (method : HTTPMethod) (h : method ≠ .connect := by decide) : Arrival where
  request := ⟨method, ascii "/", [(ascii "Host", ascii "h")], [], (1, 1), false, false, by decide, h, by decide⟩
  date := ascii "Thu, 01 Jan 1970 00:00:00 GMT"
  buf := List.replicate blockSize 0
  oneLine := by decide
  bufSize := List.length_replicate

/-- Requests that arrive before a write is done. -/
def handleAll (c : Connection) (s : S) : List Arrival → Connection × S
  | [] => (c, s)
  | a :: as =>
    let (c, s) := c.handle app files s a
    handleAll c s as

/-- A small reply is being written: its response is still there, with its status line. -/
structure Busy (c : Connection) (line : Bytes) : Prop where
  completed : c.res.completed = true
  file : c.res.file = none
  body : c.res.body.length < streamThreshold
  resBodyCopy : c.resBodyCopy.length < streamThreshold
  statusLine : statusCodes.lookup c.res.code = some line

theorem length_codeText_lt (code : Nat) : (codeText code).length < streamThreshold := by
  obtain ⟨line, hline⟩ := Option.isSome_iff_exists.1 (isSome_sentCode code)
  obtain ⟨before, behind, hcodes, -⟩ := List.lookup_eq_some_iff.1 hline
  have hmem : (sentCode code, line) ∈ statusCodes := hcodes ▸ List.mem_append_right _ List.mem_cons_self
  have hle : line.length ≤ 64 := (Response.statusCodes_lines _ hmem).1
  rw [codeText, hline, streamThreshold, List.length_append, Option.getD_some, List.length_drop]
  have hend : HttpHead.lineEnd.length = 2 := rfl
  omega

/-- What a small response becomes when it is sent. -/
theorem busy_completeRequest {c : Connection} {a : Arrival} (hcompleted : c.res.completed = true)
    (hfile : c.res.file = none) (hbody : c.res.body.length < streamThreshold)
    (hcopy : c.resBodyCopy.length < streamThreshold) :
    (c.completeRequest a).Busy (c.message a).1.statusLine := by
  have hsmall : (c.outgoing a.request).body.length < streamThreshold := by
    rw [outgoing_body]
    split
    · exact length_codeText_lt _
    · exact hbody
  have hfile' := (c.outgoing_file a.request).trans hfile
  obtain ⟨line, hline, -⟩ := (c.outgoing_prepared a.request).exists_line
  have hmessage : (c.message a).1.statusLine = line := by
    rw [message, Response.head, hline]
    rfl
  rw [completeRequest_small hfile' hsmall, hmessage]
  exact ⟨(c.outgoing_flags a.request).2.2.trans hcompleted, hfile', hcopy, hsmall, hline⟩

theorem Busy.marked {c : Connection} {line : Bytes} (h : c.Busy line) : c.marked.Busy line := by
  rw [Connection.marked]
  split
  · exact ⟨h.completed, h.file, h.body, h.resBodyCopy, h.statusLine⟩
  · exact h

/-- A request that finds a response completed makes the connection send its status again, and is not handled. -/
theorem Busy.handle {c : Connection} {line : Bytes} (h : c.Busy line) (s : S) {a : Arrival}
    (ha : a.request.isInvalid = false) :
    ∃ m : HttpHead × Bytes, m.1.statusLine = line ∧ (c.handle app files s a).2 = s ∧
      (c.handle app files s a).1.written = c.written ++ [m] ∧ (c.handle app files s a).1.Busy line := by
  have hline : sentCode c.res.code = c.res.code := by
    rw [sentCode, h.statusLine]
    rfl
  have hmessage : ((c.received a.request).message a).1.statusLine = line := by
    show (statusCodes.lookup ((c.received a.request).outgoing a.request).code).getD [] = line
    rw [outgoing_code]
    show (statusCodes.lookup (sentCode c.res.code)).getD [] = line
    rw [hline, h.statusLine]
    rfl
  have hbusy := busy_completeRequest (c := c.received a.request) (a := a) h.completed h.file h.body h.resBodyCopy
  rw [hmessage] at hbusy
  rw [handle_eq, ha, if_neg Bool.false_ne_true, h.completed, if_pos rfl]
  exact ⟨_, hmessage, rfl, completeRequest_written .., hbusy⟩

/-- None of several such requests is handled. -/
theorem Busy.handleAll {c : Connection} {line : Bytes} (h : c.Busy line) (s : S) {as : List Arrival}
    (hvalid : ∀ a ∈ as, a.request.isInvalid = false) :
    (c.handleAll app files s as).2 = s ∧ ∃ ms : List (HttpHead × Bytes), ms.length = as.length ∧
      (c.handleAll app files s as).1.written = c.written ++ ms ∧ ∀ m ∈ ms, m.1.statusLine = line := by
  induction as generalizing c with
  | nil => exact ⟨rfl, [], rfl, (List.append_nil _).symm, List.forall_mem_nil _⟩
  | cons a as ih =>
    obtain ⟨m, hm, hstate, hwritten, hbusy⟩ := h.handle app files s (hvalid a List.mem_cons_self)
    rw [Connection.handleAll]
    generalize c.handle app files s a = result at hstate hwritten hbusy ⊢
    obtain ⟨c', s'⟩ := result
    dsimp only at hstate hwritten hbusy ⊢
    subst hstate
    obtain ⟨hrest, ms, hlength, hall, hlines⟩ := ih hbusy fun a' ha' => hvalid a' (List.mem_cons_of_mem _ ha')
    refine ⟨hrest, m :: ms, congrArg (· + 1) hlength, ?_, List.forall_mem_cons.2 ⟨hm, hlines⟩⟩
    rw [hall, hwritten, List.append_assoc]
    rfl

/-- A small reply leaves a small response. -/
theorem ended_small {c : Connection} {skip₀ : Bool} (h : c.Idle skip₀) (skip : Bool) {reply : Reply}
    (hreply : reply.WellFormed) (hsmall : reply.Small files) :
    (c.ended files skip reply).res.completed = true ∧ (c.ended files skip reply).res.file = none ∧
      (c.ended files skip reply).res.body.length < streamThreshold := by
  obtain ⟨hcompleted, hskipBody, -, -⟩ := Response.fill_fields h skip files hreply
  have hzero : ([] : Bytes).length < streamThreshold := by decide
  have hfields : ({ c.res with skipBody := skip }.fill files reply).file = none ∧
      ({ c.res with skipBody := skip }.fill files reply).body.length < streamThreshold := by
    cases reply with
    | response code headers body => exact ⟨rfl, hsmall⟩
    | error code => exact ⟨h.file, h.body ▸ hzero⟩
    | file path =>
      have hfile : files path = none := hsmall
      rw [Response.fill, hfile]
      exact ⟨rfl, h.body ▸ hzero⟩
    | thrown => exact hreply.elim
  cases skip with
  | false =>
    rw [ended, Response.finish_plain hcompleted hskipBody]
    exact ⟨rfl, hfields.1, hfields.2⟩
  | true =>
    rw [ended, Response.finish_skip hcompleted hskipBody]
    exact ⟨rfl, hfields.1, hzero⟩

/-- Of the requests that arrive before the first reply is written, only the first is handled.  The others get a reply
with its status. -/
theorem burst_handles_first {c : Connection} {skip : Bool} (h : c.Idle skip) {s : S} {a : Arrival}
    (hreply : (app s a.request).1.WellFormed) (hsmall : (app s a.request).1.Small files) (as : List Arrival)
    (hvalid : ∀ a' ∈ a :: as, a'.request.isInvalid = false) :
    (c.handleAll app files s (a :: as)).2 = (app s a.request).2 ∧
      ∃ m ms, (c.handleAll app files s (a :: as)).1.written = c.written ++ m :: ms ∧ ms.length = as.length ∧
        ∀ m' ∈ ms, m'.1.statusLine = m.1.statusLine := by
  have h₀ := h.received a.request
  obtain ⟨hcompleted, hfile, hbody⟩ := ended_small files h₀ (skip || a.isHead) hreply hsmall
  have hcopy : (c.received a.request).resBodyCopy.length < streamThreshold := by
    rw [h₀.resBodyCopy]
    decide
  have hbusy := (busy_completeRequest (a := a) hcompleted hfile hbody hcopy).marked
  have hhandle : c.handle app files s a =
      ((((c.received a.request).ended files (skip || a.isHead) (app s a.request).1).completeRequest a).marked,
        (app s a.request).2) := by
    rw [handle_eq, hvalid a List.mem_cons_self, if_neg Bool.false_ne_true, h.completed, if_neg Bool.false_ne_true,
      handleValid_eq app files h₀ hreply]
  obtain ⟨hstate, ms, hlength, hwritten, hlines⟩ := hbusy.handleAll app files (app s a.request).2
    fun a' ha' => hvalid a' (List.mem_cons_of_mem _ ha')
  rw [handleAll, hhandle]
  refine ⟨hstate, _, ms, ?_, hlength, hlines⟩
  refine hwritten.trans ?_
  rw [(marked_fields _).2.2.2.1, completeRequest_written, List.append_assoc]
  rfl

/-- Three requests in one packet, of which one is counted. -/
theorem packet_counts_once :
    (handleAll counter (fun _ => none) {} 0 [arrival .get, arrival .post, arrival .post]).2 = 1 :=
  (burst_handles_first counter (fun _ => none) (c := {}) idle_start (counter_wellFormed 0 _)
    (show (JsonText.decimal 0).length < streamThreshold by decide) [arrival .post, arrival .post] (by decide)).1

/-! ### Every order of requests and writes -/

end Connection

/-- A request arrives, or a write is done. -/
inductive Event
  | request (a : Arrival)
  | written

namespace Connection

variable {S : Type} (app : S → Request → Reply × S) (files : Bytes → Option File)

def run (c : Connection) (s : S) : List Event → Connection × S
  | [] => (c, s)
  | .request a :: events =>
    let (c, s) := c.handle app files s a
    run c s events
  | .written :: events => run c.settle s events

variable {app} {files} in
/-- A connection reads no other files than those that the application names. -/
theorem run_congr {files' : Bytes → Option File}
    (h : ∀ s req path, (app s req).1 = .file path → files path = files' path) (c : Connection) (s : S)
    (events : List Event) : c.run app files s events = c.run app files' s events := by
  have hfill : ∀ s req (res : Response), res.fill files (app s req).1 = res.fill files' (app s req).1 := by
    intro s req res
    have hfile := h s req
    generalize (app s req).1 = reply at hfile ⊢
    cases reply with
    | file path => rw [Response.fill, Response.fill, hfile path rfl]
    | _ => rfl
  have hhandle : ∀ (c : Connection) s a, c.handle app files s a = c.handle app files' s a := by
    intro c s a
    have hreply := hfill s a.request
    rw [handle_eq, handle_eq, handleValid, handleValid]
    generalize app s a.request = result at hreply ⊢
    obtain ⟨reply, s'⟩ := result
    dsimp only at hreply ⊢
    rw [hreply]
  induction events generalizing c s with
  | nil => rfl
  | cons event events ih =>
    cases event with
    | request a =>
      rw [run, run, hhandle]
      exact ih _ _
    | written => exact ih _ _

end Connection

end Crow

end KeyValueServer
