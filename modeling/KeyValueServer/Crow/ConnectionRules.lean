import KeyValueServer.Crow.Connection
import Mathlib.Data.List.Find

/-!
# What a connection sends

Every request that a connection takes makes it send one head and what is behind it (`completeRequest_written`).  A
reader knows where the message ends if and only if the reply is framed (`framed_ended_iff`): its body has the length
that its head announces, or none for HEAD.  Which replies are framed depends on the history: once a HEAD has been
handled, the connection takes every later reply for one to HEAD (`Reply.Framed`).
-/

namespace KeyValueServer

namespace Crow

open Text (HttpHead httpHead httpBodyLength)

/-! ### Large bodies and files -/

/-- The pieces of a large body are the body. -/
theorem flatten_bodyPieces (fuel : Nat) (body : Bytes) : (bodyPieces fuel body).flatten = body := by
  induction fuel generalizing body with
  | zero => simp [bodyPieces]
  | succ fuel ih =>
    rw [bodyPieces]
    split
    · rw [List.flatten_cons, ih, List.take_append_drop]
    · simp

/-- What is sent for a file with so many bytes: whole blocks. -/
def wholeBlocks (n : Nat) : Nat := (n + (blockSize - 1)) / blockSize * blockSize

theorem wholeBlocks_eq_zero_iff {n : Nat} : wholeBlocks n = 0 ↔ n = 0 := by
  rw [wholeBlocks, blockSize]
  omega

theorem length_fileBlocks {fuel : Nat} {content buf : Bytes} (hfuel : content.length ≤ fuel)
    (hbuf : buf.length = blockSize) : (fileBlocks fuel content buf).flatten.length = wholeBlocks content.length := by
  induction fuel generalizing content buf with
  | zero =>
    obtain rfl := List.length_eq_zero_iff.1 (Nat.le_zero.1 hfuel)
    rfl
  | succ fuel ih =>
    rw [fileBlocks]
    split
    · rename_i hnil
      subst hnil
      rfl
    · rename_i hne
      have hpos := List.length_pos_iff.2 hne
      have hblock : (content.take blockSize ++ buf.drop (content.take blockSize).length).length = blockSize := by
        rw [List.length_append, List.length_drop, List.length_take, hbuf]
        omega
      have hrest : (content.drop blockSize).length ≤ fuel := by
        rw [List.length_drop, blockSize]
        omega
      dsimp only
      rw [List.flatten_cons, List.length_append, hblock, ih hrest hblock, List.length_drop, wholeBlocks, wholeBlocks]
      simp only [blockSize]
      omega

/-! ### Headers -/

theorem iequals_trans {l m r : Bytes} (h : iequals l m = true) : iequals l r = iequals m r := by
  rw [iequals, decide_eq_true_eq] at h
  rw [iequals, iequals, h]

theorem iequals_congr {r r' : Bytes} (h : r.map Text.toLower = r'.map Text.toLower) (l : Bytes) :
    iequals l r = iequals l r' := by
  rw [iequals, iequals, h]

namespace Headers

theorem find_setHeader_ne {headers : Headers} {key value name : Bytes} (h : iequals key name = false) :
    ((headers.erase key).emplace key value).find? (iequals ·.1 name) = headers.find? (iequals ·.1 name) := by
  have herase : (headers.erase key).find? (iequals ·.1 name) = headers.find? (iequals ·.1 name) := by
    rw [erase, List.find?_filter]
    refine List.find?_congr fun field _ => ?_
    by_cases hkey : iequals field.1 key = true
    · simp [hkey, iequals_trans hkey, h]
    · simp [hkey]
  rw [emplace, List.find?_append, herase, List.find?_cons_of_neg (by simp [h]), List.find?_nil, Option.or_none]

theorem find_setHeader_self (headers : Headers) (key value : Bytes) :
    ((headers.erase key).emplace key value).find? (iequals ·.1 key) = some (key, value) := by
  have herase : (headers.erase key).find? (iequals ·.1 key) = none := by
    rw [List.find?_eq_none]
    intro field hfield
    simpa using (List.mem_filter.1 hfield).2
  rw [emplace, List.find?_append, herase, Option.none_or]
  exact List.find?_cons_of_pos (decide_eq_true rfl)

/-- Names and values that can stand in a line. -/
def OneLine (headers : Headers) : Prop :=
  (∀ field ∈ headers, 10 ∉ field.1 ∧ 58 ∉ field.1) ∧ ∀ field ∈ headers, 10 ∉ field.2

theorem OneLine.nil : OneLine [] := ⟨List.forall_mem_nil _, List.forall_mem_nil _⟩

theorem OneLine.append {h₁ h₂ : Headers} (h₁' : h₁.OneLine) (h₂' : h₂.OneLine) : OneLine (h₁ ++ h₂) :=
  ⟨List.forall_mem_append.2 ⟨h₁'.1, h₂'.1⟩, List.forall_mem_append.2 ⟨h₁'.2, h₂'.2⟩⟩

theorem OneLine.single {key value : Bytes} (hkey : 10 ∉ key ∧ 58 ∉ key) (hvalue : 10 ∉ value) :
    OneLine [(key, value)] :=
  ⟨List.forall_mem_singleton.2 hkey, List.forall_mem_singleton.2 hvalue⟩

theorem OneLine.setHeader {headers : Headers} (h : headers.OneLine) {key value : Bytes} (hkey : 10 ∉ key ∧ 58 ∉ key)
    (hvalue : 10 ∉ value) : OneLine ((headers.erase key).emplace key value) :=
  have hsub := List.filter_sublist (p := fun field : Bytes × Bytes => !iequals field.1 key) (l := headers)
  OneLine.append ⟨fun f hf => h.1 f (hsub.mem hf), fun f hf => h.2 f (hsub.mem hf)⟩ (.single hkey hvalue)

end Headers

/-! ### Heads -/

/-- A reply that never has a body. -/
def bodiless (code : Nat) : Bool := code = 204 || code = 304

namespace Response

/-- The length that the head announces. -/
def announced (res : Response) : Option Nat :=
  match res.headers.find? (iequals ·.1 (ascii "Content-Length")) with
  | some field => Text.readDecimal field.2
  | none => if res.manualLengthHeader then none else some res.body.length

theorem count_length_eq_zero_iff (headers : Headers) :
    headers.count (ascii "content-length") = 0 ↔ headers.find? (iequals ·.1 (ascii "Content-Length")) = none := by
  have hname : (ascii "content-length").map Text.toLower = (ascii "Content-Length").map Text.toLower := by
    decide
  rw [Headers.count, List.countP_eq_zero, List.find?_eq_none]
  simp only [iequals_congr hname]

/-- The other fields of the connection have other names. -/
theorem find_optional {name value : Bytes} (hname : iequals name (ascii "Content-Length") = false) (p : Prop)
    [Decidable p] : (if p then [(name, value)] else []).find? (iequals ·.1 (ascii "Content-Length")) = none := by
  split
  · exact List.find?_cons_of_neg (by simp [hname])
  · rfl

theorem fieldValue_head (res : Response) (addKeepAlive : Bool) (date : Bytes) :
    ((res.head addKeepAlive date).fieldValue (Text.bytesOf "Content-Length")).bind Text.readDecimal =
      res.announced := by
  have hbytes : Text.bytesOf "Content-Length" = ascii "Content-Length" := rfl
  have hserver : iequals (ascii "Server") (ascii "Content-Length") = false := by decide
  have hdate : iequals (ascii "Date") (ascii "Content-Length") = false := by decide
  have hconnection : iequals (ascii "Connection") (ascii "Content-Length") = false := by decide
  have hself : iequals (ascii "Content-Length") (ascii "Content-Length") = true := decide_eq_true rfl
  rw [HttpHead.fieldValue, hbytes, announced, head]
  simp only [← iequals.eq_1]
  rw [List.find?_append, List.find?_append, List.find?_append, List.find?_append, find_optional hserver,
    find_optional hdate, find_optional hconnection]
  simp only [Option.or_none]
  cases hlength : res.headers.find? (iequals ·.1 (ascii "Content-Length")) with
  | some field => rfl
  | none =>
    rw [(count_length_eq_zero_iff res.headers).2 hlength, Option.none_or]
    cases res.manualLengthHeader with
    | true => rfl
    | false =>
      have hfind : (if !false && decide (0 = 0) then
          [(ascii "Content-Length", JsonText.decimal res.body.length)] else []).find?
            (iequals ·.1 (ascii "Content-Length")) =
          some (ascii "Content-Length", JsonText.decimal res.body.length) :=
        List.find?_cons_of_pos hself
      rw [hfind]
      exact Text.readDecimal_decimalDigits _

/-- The response has a code with a line, as `prepare` leaves it. -/
def Prepared (res : Response) : Prop := (statusCodes.lookup res.code).isSome = true

theorem Prepared.exists_line {res : Response} (h : res.Prepared) :
    ∃ line, statusCodes.lookup res.code = some line ∧ (res.code, line) ∈ statusCodes := by
  obtain ⟨line, hline⟩ := Option.isSome_iff_exists.1 h
  obtain ⟨before, behind, hcodes, -⟩ := List.lookup_eq_some_iff.1 hline
  exact ⟨line, hline, hcodes ▸ List.mem_append_right _ List.mem_cons_self⟩

theorem statusCodes_lines : ∀ x ∈ statusCodes,
    x.2.length ≤ 64 ∧ 10 ∉ x.2 ∧ ((x.2.drop 9).take 3 = Text.bytesOf "204" ↔ x.1 = 204) ∧
      ((x.2.drop 9).take 3 = Text.bytesOf "304" ↔ x.1 = 304) := by
  decide +kernel

theorem httpBodyLength_head {res : Response} (h : res.Prepared) (isHead addKeepAlive : Bool) (date : Bytes) :
    httpBodyLength isHead (res.head addKeepAlive date) =
      if isHead ∨ bodiless res.code then some 0 else res.announced := by
  obtain ⟨line, hline, hmem⟩ := h.exists_line
  obtain ⟨-, -, h204, h304⟩ := statusCodes_lines _ hmem
  have hstatus : (res.head addKeepAlive date).status = (line.drop 9).take 3 := by
    rw [HttpHead.status, head, hline]
    rfl
  simp only [httpBodyLength, fieldValue_head, hstatus, h204, h304, bodiless, Bool.or_eq_true, decide_eq_true_eq]

theorem valid_head {res : Response} (h : res.Prepared) (hheaders : res.headers.OneLine) (addKeepAlive : Bool)
    {date : Bytes} (hdate : 10 ∉ date) : (res.head addKeepAlive date).Valid := by
  obtain ⟨line, hline, hmem⟩ := h.exists_line
  have hoptional : ∀ (p : Prop) [Decidable p] {headers : Headers}, headers.OneLine →
      Headers.OneLine (if p then headers else []) := by
    intro p _ headers hp
    split
    · exact hp
    · exact .nil
  have hlength : 10 ∉ JsonText.decimal res.body.length := fun h =>
    absurd (JsonText.isDigit_of_mem_decimal h) (by decide)
  have hfields : Headers.OneLine (res.head addKeepAlive date).fields :=
    (((hheaders.append (hoptional _ (.single (by decide) hlength))).append
      (hoptional _ (.single (by decide) (by decide)))).append (hoptional _ (.single (by decide) hdate))).append
        (hoptional _ (.single (by decide) (by decide)))
  refine ⟨?_, hfields.1, hfields.2⟩
  rw [head, hline]
  exact (statusCodes_lines _ hmem).2.1

/-- What is sent behind the head. -/
def payload (res : Response) (buf : Bytes) : Bytes :=
  match res.file with
  | some content => (fileBlocks content.length content buf).flatten
  | none => res.body

/-- What a response keeps when it is ended and cleared. -/
def flags (res : Response) : Response where
  skipBody := res.skipBody
  manualLengthHeader := res.manualLengthHeader || (!res.completed && res.skipBody)

theorem finish_clear (res : Response) : res.finish.clear = res.flags := by
  obtain ⟨code, body, headers, skipBody, manualLengthHeader, completed, file⟩ := res
  cases completed <;> cases skipBody <;> cases manualLengthHeader <;> rfl

end Response

/-! ### One request -/

namespace Connection

/-- The response as it is sent. -/
def outgoing (c : Connection) (req : Request) : Response := (c.res.fixLocation req).prepare

theorem outgoing_flags (c : Connection) (req : Request) :
    (c.outgoing req).skipBody = c.res.skipBody ∧ (c.outgoing req).manualLengthHeader = c.res.manualLengthHeader ∧
      (c.outgoing req).completed = c.res.completed := by
  rw [outgoing, Response.fixLocation]
  split <;> exact ⟨rfl, rfl, rfl⟩

/-- The head and the payload that a request makes the connection send. -/
def message (c : Connection) (a : Arrival) : HttpHead × Bytes :=
  ((c.outgoing a.request).head c.addKeepAlive a.date, (c.outgoing a.request).payload a.buf)

theorem completeRequest_eq (c : Connection) (a : Arrival) :
    c.completeRequest a =
      match (c.outgoing a.request).file with
      | some content => { c with res := c.outgoing a.request }.doWriteStatic (c.message a).1 content a.buf
      | none => { c with res := c.outgoing a.request }.doWriteGeneral (c.message a).1 :=
  rfl

/-- A small body is written asynchronously. -/
theorem completeRequest_small {c : Connection} {a : Arrival} (hfile : (c.outgoing a.request).file = none)
    (hsmall : (c.outgoing a.request).body.length < streamThreshold) :
    c.completeRequest a =
      { c with
        res := { c.outgoing a.request with body := c.resBodyCopy }
        resBodyCopy := (c.outgoing a.request).body
        writing := c.writing + 1
        written := c.written ++ [c.message a] } := by
  have hpayload : (c.outgoing a.request).payload a.buf = (c.outgoing a.request).body := by
    rw [Response.payload, hfile]
  rw [completeRequest_eq, hfile]
  dsimp only
  rw [doWriteGeneral, if_pos hsmall, message, hpayload]

/-- Anything else is written at once. -/
theorem completeRequest_large {c : Connection} {a : Arrival}
    (h : (c.outgoing a.request).file = none → streamThreshold ≤ (c.outgoing a.request).body.length) :
    c.completeRequest a =
      { c with
        res := c.res.flags
        isOpen := c.isOpen && !c.closeConnection
        written := c.written ++ [c.message a] } := by
  obtain ⟨hskip, hmanual, hcompleted⟩ := c.outgoing_flags a.request
  have hflags : (c.outgoing a.request).flags = c.res.flags := by
    rw [Response.flags, Response.flags, hskip, hmanual, hcompleted]
  rw [completeRequest_eq]
  cases hfile : (c.outgoing a.request).file with
  | some content =>
    have hpayload : (c.outgoing a.request).payload a.buf = (fileBlocks content.length content a.buf).flatten := by
      rw [Response.payload, hfile]
    dsimp only
    rw [doWriteStatic, finishWrite, message, hpayload]
    dsimp only
    rw [Response.finish_clear, hflags]
  | none =>
    have hpayload : (c.outgoing a.request).payload a.buf = (c.outgoing a.request).body := by
      rw [Response.payload, hfile]
    dsimp only
    rw [doWriteGeneral, if_neg (Nat.not_lt.2 (h hfile)), finishWrite, flatten_bodyPieces, message, hpayload]
    dsimp only
    rw [Response.finish_clear, ← hflags]
    rfl

/-- Every request makes the connection send one message. -/
theorem completeRequest_written (c : Connection) (a : Arrival) :
    (c.completeRequest a).written = c.written ++ [c.message a] := by
  by_cases h : (c.outgoing a.request).file = none ∧ (c.outgoing a.request).body.length < streamThreshold
  · rw [completeRequest_small h.1 h.2]
  · rw [completeRequest_large fun hfile => Nat.not_lt.1 fun hlt => h ⟨hfile, hlt⟩]

/-- The write that is going on, if there is one, is done. -/
def settle (c : Connection) : Connection := if c.writing = 0 then c else c.writeDone

/-- The header that `handle` sets behind the reply. -/
def keepAliveHeader : Headers := [(ascii "connection", ascii "Keep-Alive")]

/-- Between two requests of a client that waits.  After a HEAD, `skip_body` stays set. -/
structure Idle (c : Connection) (skip : Bool) : Prop where
  body : c.res.body = []
  headers : c.res.headers = [] ∨ c.res.headers = keepAliveHeader
  completed : c.res.completed = false
  file : c.res.file = none
  skipBody : c.res.skipBody = skip
  manualLengthHeader : c.res.manualLengthHeader = skip
  resBodyCopy : c.resBodyCopy = []
  writing : c.writing = 0

/-- `handle` sets a header of the response behind the reply, perhaps. -/
def marked (c : Connection) : Connection :=
  if c.addKeepAlive then { c with res := c.res.setHeader (ascii "connection") (ascii "Keep-Alive") } else c

/-- What is left of a reply when it is sent. -/
structure Sent (c c' : Connection) (a : Arrival) (skip : Bool) : Prop where
  idle : Idle c' skip
  written : c'.written = c.written ++ [c.message a]
  isOpen : c'.isOpen = (c.isOpen && !c.closeConnection)

/-- The header behind the reply changes nothing else. -/
theorem marked_fields (c : Connection) :
    c.marked.writing = c.writing ∧ c.marked.res.skipBody = c.res.skipBody ∧
      c.marked.res.manualLengthHeader = c.res.manualLengthHeader ∧ c.marked.written = c.written ∧
      c.marked.isOpen = c.isOpen ∧ c.marked.closeConnection = c.closeConnection := by
  rw [marked]
  split <;> exact ⟨rfl, rfl, rfl, rfl, rfl, rfl⟩

/-- When the write is done, the response is cleared. -/
theorem sent_of_writing {c c' : Connection} {a : Arrival} {skip : Bool} (hwriting : c'.writing = 1)
    (hskip : c'.res.skipBody = skip) (hmanual : c'.res.manualLengthHeader = skip)
    (hwritten : c'.written = c.written ++ [c.message a]) (hopen : c'.isOpen = c.isOpen)
    (hclose : c'.closeConnection = c.closeConnection) : Sent c c'.settle a skip := by
  have hne : c'.writing ≠ 0 := by omega
  have hzero : c'.writeDone.writing = 0 := by
    rw [writeDone, hwriting]
  rw [settle, if_neg hne]
  refine ⟨⟨rfl, Or.inl rfl, rfl, rfl, hskip, hmanual, rfl, hzero⟩, hwritten, ?_⟩
  rw [← hopen, ← hclose]
  rfl

theorem sent_completeRequest {c : Connection} {a : Arrival} {skip : Bool} (hcopy : c.resBodyCopy = [])
    (hwriting : c.writing = 0) (hskip : c.res.skipBody = skip) (hmanual : c.res.manualLengthHeader = skip) :
    Sent c (c.completeRequest a).settle a skip ∧ Sent c (c.completeRequest a).marked.settle a skip := by
  obtain ⟨hskip', hmanual', -⟩ := c.outgoing_flags a.request
  rw [hskip] at hskip'
  rw [hmanual] at hmanual'
  by_cases h : (c.outgoing a.request).file = none ∧ (c.outgoing a.request).body.length < streamThreshold
  · -- the response is cleared when the write is done
    have hsmall := completeRequest_small h.1 h.2
    have hone : (c.completeRequest a).writing = 1 := by
      rw [hsmall, hwriting]
    have hsent : (c.completeRequest a).res.skipBody = skip ∧ (c.completeRequest a).res.manualLengthHeader = skip ∧
        (c.completeRequest a).isOpen = c.isOpen ∧ (c.completeRequest a).closeConnection = c.closeConnection := by
      rw [hsmall]
      exact ⟨hskip', hmanual', rfl, rfl⟩
    obtain ⟨hskip₁, hmanual₁, hopen, hclose⟩ := hsent
    have hwritten := c.completeRequest_written a
    obtain ⟨hw, hs, hm, hwr, ho, hc⟩ := (c.completeRequest a).marked_fields
    exact ⟨sent_of_writing hone hskip₁ hmanual₁ hwritten hopen hclose,
      sent_of_writing (hw.trans hone) (hs.trans hskip₁) (hm.trans hmanual₁) (hwr.trans hwritten) (ho.trans hopen)
        (hc.trans hclose)⟩
  · -- the response is cleared at once, and may get the header behind the reply
    have hflags : c.res.flags.manualLengthHeader = skip := by
      rw [Response.flags, hskip, hmanual]
      cases skip <;> simp
    rw [completeRequest_large fun hfile => Nat.not_lt.1 fun hlt => h ⟨hfile, hlt⟩, marked]
    constructor
    · rw [settle, if_pos hwriting]
      exact ⟨⟨rfl, Or.inl rfl, rfl, rfl, hskip, hflags, hcopy, hwriting⟩, rfl, rfl⟩
    · dsimp only
      split
      · rw [settle, if_pos hwriting]
        exact ⟨⟨rfl, Or.inr rfl, rfl, rfl, hskip, hflags, hcopy, hwriting⟩, rfl, rfl⟩
      · rw [settle, if_pos hwriting]
        exact ⟨⟨rfl, Or.inl rfl, rfl, rfl, hskip, hflags, hcopy, hwriting⟩, rfl, rfl⟩

end Connection

/-! ### Which replies are framed -/

/-- The code that is sent: codes without a line become 500. -/
def sentCode (code : Nat) : Nat := if (statusCodes.lookup code).isSome then code else 500

/-- The body of an error that has none. -/
def codeText (code : Nat) : Bytes := ((statusCodes.lookup (sentCode code)).getD []).drop 9 ++ HttpHead.lineEnd

theorem isSome_sentCode (code : Nat) : (statusCodes.lookup (sentCode code)).isSome = true := by
  rw [sentCode]
  split
  · assumption
  · decide

theorem codeText_ne_nil (code : Nat) : codeText code ≠ [] := by
  rw [codeText]
  exact List.append_ne_nil_of_right_ne_nil _ (by decide)

theorem bodiless_of_sentCode {code : Nat} (h : bodiless (sentCode code) = true) :
    bodiless code = true ∧ sentCode code < 400 := by
  rw [sentCode] at h ⊢
  split at h
  · rename_i hcode
    rw [if_pos hcode]
    refine ⟨h, ?_⟩
    simp only [bodiless, Bool.or_eq_true, decide_eq_true_eq] at h
    omega
  · cases h

namespace Response

theorem prepare_body (res : Response) :
    res.prepare.body = if 400 ≤ sentCode res.code ∧ res.body = [] then codeText res.code else res.body := rfl

theorem fixLocation_fields (res : Response) (req : Request) :
    (res.fixLocation req).code = res.code ∧ (res.fixLocation req).body = res.body ∧
      (res.fixLocation req).file = res.file := by
  rw [fixLocation]
  split <;> exact ⟨rfl, rfl, rfl⟩

theorem find_fixLocation (res : Response) (req : Request) :
    (res.fixLocation req).headers.find? (iequals ·.1 (ascii "Content-Length")) =
      res.headers.find? (iequals ·.1 (ascii "Content-Length")) := by
  rw [fixLocation]
  split
  · exact Headers.find_setHeader_ne (by decide)
  · rfl

theorem oneLine_value {req : Request} (name : Bytes) : 10 ∉ req.headers.value name := by
  rw [Headers.value]
  cases hfind : req.headers.find? (iequals ·.1 name) with
  | none => exact List.not_mem_nil
  | some field => exact req.oneLine field (List.mem_of_find?_eq_some hfind)

theorem OneLine.fixLocation {res : Response} (h : res.headers.OneLine) (req : Request) :
    (res.fixLocation req).headers.OneLine := by
  rw [Response.fixLocation]
  split
  · refine h.setHeader (by decide) ?_
    have hlocation : 10 ∉ res.headers.value (ascii "Location") := by
      rw [Headers.value]
      cases hfind : res.headers.find? (iequals ·.1 (ascii "Location")) with
      | none => exact List.not_mem_nil
      | some field => exact h.2 field (List.mem_of_find?_eq_some hfind)
    simp only [List.mem_append, not_or]
    exact ⟨⟨by decide, oneLine_value _⟩, hlocation⟩
  · exact h

end Response

namespace Connection

theorem outgoing_prepared (c : Connection) (req : Request) : (c.outgoing req).Prepared :=
  isSome_sentCode _

theorem outgoing_code (c : Connection) (req : Request) : (c.outgoing req).code = sentCode c.res.code := by
  show sentCode (c.res.fixLocation req).code = _
  rw [(c.res.fixLocation_fields req).1]

theorem outgoing_body (c : Connection) (req : Request) :
    (c.outgoing req).body =
      if 400 ≤ sentCode c.res.code ∧ c.res.body = [] then codeText c.res.code else c.res.body := by
  obtain ⟨hcode, hbody, -⟩ := c.res.fixLocation_fields req
  rw [outgoing, Response.prepare_body, hcode, hbody]

theorem outgoing_file (c : Connection) (req : Request) : (c.outgoing req).file = c.res.file :=
  (c.res.fixLocation_fields req).2.2

theorem outgoing_find (c : Connection) (req : Request) :
    (c.outgoing req).headers.find? (iequals ·.1 (ascii "Content-Length")) =
      c.res.headers.find? (iequals ·.1 (ascii "Content-Length")) :=
  c.res.find_fixLocation req

theorem valid_message {c : Connection} (h : c.res.headers.OneLine) (a : Arrival) : (c.message a).1.Valid :=
  Response.valid_head (c.outgoing_prepared a.request) (Response.OneLine.fixLocation h a.request) _ a.oneLine

/-- A reader frames a message by what the head announces. -/
theorem framed_message_iff (c : Connection) (a : Arrival) (isHead : Bool) :
    Text.HeadFormat.Framed httpBodyLength isHead (c.message a) ↔
      if isHead ∨ bodiless (sentCode c.res.code) then (c.message a).2 = []
      else (c.outgoing a.request).announced = some (c.message a).2.length := by
  rw [Text.HeadFormat.Framed, message]
  dsimp only
  rw [Response.httpBodyLength_head (c.outgoing_prepared _), outgoing_code]
  split
  · rw [Option.some_inj, eq_comm, List.length_eq_zero_iff]
  · exact Iff.rfl

end Connection

/-- What is known of replies: headers are lines of text and announce no length, and a code without a body has none. -/
def Reply.WellFormed : Reply → Prop
  | .response code headers body =>
    headers.OneLine ∧ headers.find? (iequals ·.1 (ascii "Content-Length")) = none ∧ (bodiless code = true → body = [])
  | .thrown => False
  | _ => True

/-- When a client can tell the end of a reply, which may be one to HEAD or one that the connection takes for one.  It
announces the body that it would have, and sends none, but the text of an error; files are sent in whole blocks. -/
def Reply.Framed (files : Bytes → Option File) (skip isHead : Bool) : Reply → Prop
  | .response code _ body =>
    skip = true →
      if 400 ≤ sentCode code then isHead = false ∧ body.length = (codeText code).length else isHead = true ∨ body = []
  | .error code => skip = true → sentCode code < 400
  | .file path =>
    match files path with
    | none => skip = false
    | some found => if skip = true then found.content = [] else wholeBlocks found.content.length = found.size
  | .thrown => False

namespace Response

theorem finish_plain {res : Response} (hcompleted : res.completed = false) (hskip : res.skipBody = false) :
    res.finish = { res with completed := true } := by
  rw [finish, hcompleted, hskip]
  rfl

/-- The response to HEAD announces its body and gives it up. -/
theorem finish_skip {res : Response} (hcompleted : res.completed = false) (hskip : res.skipBody = true) :
    res.finish = { res.setHeader (ascii "Content-Length") (JsonText.decimal res.body.length) with
      completed := true, body := [], manualLengthHeader := true } := by
  rw [finish, hcompleted, hskip]
  rfl

theorem find_keepAliveHeader {headers : Headers} (h : headers = [] ∨ headers = Connection.keepAliveHeader) :
    headers.find? (iequals ·.1 (ascii "Content-Length")) = none := by
  rcases h with rfl | rfl
  · rfl
  · decide

theorem oneLine_keepAliveHeader {headers : Headers} (h : headers = [] ∨ headers = Connection.keepAliveHeader) :
    headers.OneLine := by
  rcases h with rfl | rfl
  · exact .nil
  · exact .single (by decide) (by decide)

end Response

namespace Connection

theorem message_payload (c : Connection) (a : Arrival) :
    (c.message a).2 =
      match c.res.file with
      | some content => (fileBlocks content.length content a.buf).flatten
      | none => if 400 ≤ sentCode c.res.code ∧ c.res.body = [] then codeText c.res.code else c.res.body := by
  rw [message, Response.payload, outgoing_file, outgoing_body]

theorem announced_outgoing (c : Connection) (req : Request) :
    (c.outgoing req).announced =
      match c.res.headers.find? (iequals ·.1 (ascii "Content-Length")) with
      | some field => Text.readDecimal field.2
      | none => if c.res.manualLengthHeader then none else some (c.outgoing req).body.length := by
  rw [Response.announced, outgoing_find, (c.outgoing_flags req).2.1]

/-- Without `skip_body`, and without a header for the length, the connection announces what it sends. -/
theorem framed_plain {c : Connection} {a : Arrival}
    (hfind : c.res.headers.find? (iequals ·.1 (ascii "Content-Length")) = none)
    (hmanual : c.res.manualLengthHeader = false) (hfile : c.res.file = none)
    (hbody : bodiless (sentCode c.res.code) = true → c.res.body = []) :
    Text.HeadFormat.Framed httpBodyLength false (c.message a) := by
  rw [framed_message_iff, announced_outgoing, message_payload, hfind, hmanual, hfile, outgoing_body]
  by_cases hcode : bodiless (sentCode c.res.code) = true
  · have hlow := (bodiless_of_sentCode hcode).2
    rw [if_pos (Or.inr hcode), if_neg (by omega), hbody hcode]
  · rw [if_neg (by simpa using hcode)]
    rfl

/-- With `skip_body`, the connection announces `n` and sends nothing, or the text of the error. -/
theorem framed_skip_iff {c : Connection} {a : Arrival} {isHead : Bool} {n : Nat} {key : Bytes}
    (hfind : c.res.headers.find? (iequals ·.1 (ascii "Content-Length")) = some (key, JsonText.decimal n))
    (hfile : c.res.file = none) (hbody : c.res.body = []) (hn : bodiless (sentCode c.res.code) = true → n = 0) :
    Text.HeadFormat.Framed httpBodyLength isHead (c.message a) ↔
      if 400 ≤ sentCode c.res.code then isHead = false ∧ n = (codeText c.res.code).length
      else isHead = true ∨ n = 0 := by
  have hread : Text.readDecimal (JsonText.decimal n) = some n := Text.readDecimal_decimalDigits n
  rw [framed_message_iff, announced_outgoing, message_payload, hfind, hfile, hbody]
  dsimp only
  rw [hread]
  by_cases hcode : 400 ≤ sentCode c.res.code
  · have hbodiless : bodiless (sentCode c.res.code) = false := by
      by_contra h
      have hlow := (bodiless_of_sentCode (by simpa using h)).2
      omega
    cases isHead <;> simp [hcode, hbodiless, codeText_ne_nil]
  · cases isHead with
    | true => simp [hcode]
    | false =>
      cases hbodiless : bodiless (sentCode c.res.code) with
      | true => simp [hcode, hn hbodiless]
      | false => simp [hcode]

/-- A file is sent in whole blocks, whatever is announced. -/
theorem framed_file_iff {c : Connection} {a : Arrival} {isHead : Bool} {content key : Bytes} {n : Nat}
    (hfile : c.res.file = some content) (hcode : c.res.code = 200)
    (hfind : c.res.headers.find? (iequals ·.1 (ascii "Content-Length")) = some (key, JsonText.decimal n)) :
    Text.HeadFormat.Framed httpBodyLength isHead (c.message a) ↔
      if isHead then content = [] else n = wholeBlocks content.length := by
  have hread : Text.readDecimal (JsonText.decimal n) = some n := Text.readDecimal_decimalDigits n
  have hsent : bodiless (sentCode 200) = false := by decide
  have hlength := length_fileBlocks (Nat.le_refl content.length) a.bufSize
  rw [framed_message_iff, announced_outgoing, message_payload, hfind, hfile, hcode, hsent]
  dsimp only
  rw [hread]
  cases isHead with
  | true =>
    rw [if_pos (Or.inl rfl), if_pos rfl, ← List.length_eq_zero_iff, hlength, wholeBlocks_eq_zero_iff,
      List.length_eq_zero_iff]
  | false => simp [hlength]

end Connection

/-! ### What a handler has filled -/

namespace Response

theorem setStaticFileInfo_some (res : Response) (path : Bytes) (file : File) :
    ∃ types : Headers, types.OneLine ∧
      res.setStaticFileInfo path (some file) =
        { res with
          file := some file.content
          code := 200
          headers := res.headers ++ [(ascii "Content-Length", JsonText.decimal file.size)] ++ types } := by
  have hmime : ∀ x ∈ mimeTypes, 10 ∉ x.2 := by decide +kernel
  rw [setStaticFileInfo]
  split
  · exact ⟨[], .nil, by rw [List.append_nil]; rfl⟩
  · split
    · rename_i mimeType hlookup
      obtain ⟨before, behind, htypes, -⟩ := List.lookup_eq_some_iff.1 hlookup
      have hmem : (extension path, mimeType) ∈ mimeTypes := htypes ▸ List.mem_append_right _ List.mem_cons_self
      exact ⟨[(ascii "Content-Type", mimeType)], .single (by decide) (hmime _ hmem), rfl⟩
    · exact ⟨[(ascii "Content-Type", ascii "text/plain")], .single (by decide) (by decide), rfl⟩

/-- What every handler leaves as it is. -/
theorem fill_fields {c : Connection} {skip₀ : Bool} (h : c.Idle skip₀) (skip : Bool) (files : Bytes → Option File)
    {reply : Reply} (hreply : reply.WellFormed) :
    ({ c.res with skipBody := skip }.fill files reply).completed = false ∧
      ({ c.res with skipBody := skip }.fill files reply).skipBody = skip ∧
      ({ c.res with skipBody := skip }.fill files reply).manualLengthHeader = skip₀ ∧
      ({ c.res with skipBody := skip }.fill files reply).headers.OneLine := by
  have hheaders := oneLine_keepAliveHeader h.headers
  have hdecimal : ∀ n, 10 ∉ JsonText.decimal n := fun n hn =>
    absurd (JsonText.isDigit_of_mem_decimal hn) (by decide)
  cases reply with
  | response code headers body => exact ⟨rfl, rfl, h.manualLengthHeader, hreply.1⟩
  | error code => exact ⟨h.completed, rfl, h.manualLengthHeader, hheaders⟩
  | file path =>
    rw [fill]
    cases files path with
    | none => exact ⟨h.completed, rfl, h.manualLengthHeader, hheaders⟩
    | some file =>
      obtain ⟨types, htypes, hset⟩ := setStaticFileInfo_some { c.res with skipBody := skip } path file
      rw [hset]
      exact ⟨h.completed, rfl, h.manualLengthHeader,
        (hheaders.append (.single (by decide) (hdecimal _))).append htypes⟩
  | thrown => exact hreply.elim

end Response

namespace Connection

variable (files : Bytes → Option File)

/-- The connection when the handler has ended the response. -/
def ended (c : Connection) (skip : Bool) (reply : Reply) : Connection :=
  { c with res := ({ c.res with skipBody := skip }.fill files reply).finish }

theorem ended_flags {c : Connection} {skip₀ : Bool} (h : c.Idle skip₀) {skip : Bool}
    (hskip : skip₀ = true → skip = true) {reply : Reply} (hreply : reply.WellFormed) :
    (c.ended files skip reply).res.skipBody = skip ∧ (c.ended files skip reply).res.manualLengthHeader = skip ∧
      (c.ended files skip reply).res.headers.OneLine := by
  obtain ⟨hcompleted, hskipBody, hmanual, hheaders⟩ := Response.fill_fields h skip files hreply
  cases skip with
  | false =>
    have hskip₀ : skip₀ = false := by
      cases skip₀
      · rfl
      · exact (hskip rfl).symm
    rw [ended, Response.finish_plain hcompleted hskipBody]
    exact ⟨hskipBody, hmanual.trans hskip₀, hheaders⟩
  | true =>
    rw [ended, Response.finish_skip hcompleted hskipBody]
    refine ⟨hskipBody, rfl, hheaders.setHeader (by decide) fun hn => ?_⟩
    exact absurd (JsonText.isDigit_of_mem_decimal hn) (by decide)

/-- With `skip_body` there is always an announcement, of the body that the handler left. -/
theorem framed_ended_skip_iff {c : Connection} {skip₀ : Bool} (h : c.Idle skip₀) (isHead : Bool) {reply : Reply}
    (hreply : reply.WellFormed) (a : Arrival) :
    Text.HeadFormat.Framed httpBodyLength isHead ((c.ended files true reply).message a) ↔
      reply.Framed files true isHead := by
  obtain ⟨hcompleted, hskipBody, -⟩ := Response.fill_fields h true files hreply
  have hfind := Headers.find_setHeader_self ({ c.res with skipBody := true }.fill files reply).headers
    (ascii "Content-Length") (JsonText.decimal ({ c.res with skipBody := true }.fill files reply).body.length)
  rw [ended, Response.finish_skip hcompleted hskipBody]
  cases reply with
  | response code headers body =>
    rw [framed_skip_iff hfind rfl rfl fun hcode => by rw [hreply.2.2 (bodiless_of_sentCode hcode).1]; rfl]
    simp only [Reply.Framed, forall_const]
    rw [List.length_eq_zero_iff]
    exact Iff.rfl
  | error code =>
    have hbody : ({ c.res with skipBody := true }.fill files (.error code)).body.length = 0 := by
      rw [Response.fill, h.body]
      rfl
    have htext : 0 ≠ (codeText code).length := fun hzero =>
      codeText_ne_nil code (List.length_eq_zero_iff.1 hzero.symm)
    refine Iff.trans (framed_skip_iff hfind h.file rfl fun _ => hbody) ?_
    rw [hbody]
    show (if 400 ≤ sentCode code then isHead = false ∧ 0 = (codeText code).length else isHead = true ∨ 0 = 0) ↔
      (true = true → sentCode code < 400)
    split
    · rename_i hcode
      exact iff_of_false (fun hand => htext hand.2) fun hlt => absurd (hlt rfl) (Nat.not_lt.2 hcode)
    · rename_i hcode
      exact iff_of_true (Or.inr rfl) fun _ => Nat.lt_of_not_le hcode
  | file path =>
    simp only [Response.fill, Reply.Framed] at hfind ⊢
    cases hfile : files path with
    | none =>
      rw [hfile] at hfind
      have hbody : ({ c.res with skipBody := true }.setStaticFileInfo path none).body.length = 0 := by
        rw [Response.setStaticFileInfo, h.body]
        rfl
      rw [framed_skip_iff hfind rfl rfl fun _ => hbody, hbody]
      have htext : 0 ≠ (codeText 404).length := by decide
      exact iff_of_false (fun hand => htext hand.2) fun hfalse => Bool.false_ne_true hfalse.symm
    | some file =>
      rw [hfile] at hfind
      obtain ⟨types, -, hset⟩ := Response.setStaticFileInfo_some { c.res with skipBody := true } path file
      rw [hset] at hfind ⊢
      rw [framed_file_iff rfl rfl hfind, h.body]
      simp only [if_true]
      split
      · exact Iff.rfl
      · rw [List.length_nil, eq_comm, wholeBlocks_eq_zero_iff, List.length_eq_zero_iff]
  | thrown => exact hreply.elim

/-- A reply is framed if and only if its message is. -/
theorem framed_ended_iff {c : Connection} {skip₀ : Bool} (h : c.Idle skip₀) (isHead : Bool) {reply : Reply}
    (hreply : reply.WellFormed) (a : Arrival) :
    Text.HeadFormat.Framed httpBodyLength isHead ((c.ended files (skip₀ || isHead) reply).message a) ↔
      reply.Framed files (skip₀ || isHead) isHead := by
  cases hskip : skip₀ || isHead with
  | true => exact framed_ended_skip_iff files h isHead hreply a
  | false =>
    obtain ⟨rfl, rfl⟩ := Bool.or_eq_false_iff.1 hskip
    obtain ⟨hcompleted, hskipBody, hmanual, -⟩ := Response.fill_fields h false files hreply
    have hfind := Response.find_keepAliveHeader h.headers
    rw [ended, Response.finish_plain hcompleted hskipBody]
    cases reply with
    | response code headers body =>
      refine iff_of_true (framed_plain hreply.2.1 hmanual rfl fun hcode => hreply.2.2 (bodiless_of_sentCode hcode).1) ?_
      exact fun h => absurd h Bool.false_ne_true
    | error code =>
      refine iff_of_true (framed_plain hfind hmanual h.file fun _ => h.body) ?_
      exact fun h => absurd h Bool.false_ne_true
    | file path =>
      simp only [Response.fill, Reply.Framed] at hmanual ⊢
      cases hfile : files path with
      | none =>
        rw [hfile] at hmanual
        exact iff_of_true (framed_plain hfind hmanual rfl fun _ => h.body) trivial
      | some file =>
        obtain ⟨types, -, hset⟩ := Response.setStaticFileInfo_some { c.res with skipBody := false } path file
        have hlength : (c.res.headers ++ [(ascii "Content-Length", JsonText.decimal file.size)] ++ types).find?
            (iequals ·.1 (ascii "Content-Length")) = some (ascii "Content-Length", JsonText.decimal file.size) := by
          rw [List.append_assoc, List.find?_append, hfind, Option.none_or]
          exact List.find?_cons_of_pos (decide_eq_true rfl)
        rw [hset, framed_file_iff rfl rfl hlength]
        simp only [Bool.false_eq_true, if_false]
        exact eq_comm
    | thrown => exact hreply.elim

end Connection

end Crow

end KeyValueServer
