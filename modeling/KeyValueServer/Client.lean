import KeyValueServer.HttpHistory
import KeyValueServer.RequestOrder
import KeyValueServer.SetAllocations
import KeyValueServer.UrlDecode
import Mathlib.Data.Nat.Digits.Defs

/-!
# The client

`one_request` of the client draws an operation and a name, and then tries until it has a reply.  When the connection
fails it cannot know whether the server has executed the request; it tries again, a write with a newly drawn value.

The name in the URL is quoted, and the server decodes what was quoted (`names_round_trip`).  What the failed attempts
have done to a record is overwritten by the attempt that is acknowledged, down to the count of writes, which they have
moved: a client alone finds what it would find without failures (`retries_harmless`).
-/

namespace KeyValueServer

open HttpServer HttpServerHelpers Text

namespace DataCollection

variable [Allocator]

theorem writesOf_set (data : DataCollection) (name value k : Bytes) :
    (data.set name value).writesOf k = data.writesOf k + if k = name then 1 else 0 := by
  rw [writesOf, lookup_set, writesOf]
  split
  · rename_i hk
    subst hk
    cases data.lookup k <;> rfl
  · rw [UInt64.add_zero]

omit [Allocator] in
theorem writesOf_get (data : DataCollection) (name k : Bytes) : (data.get name).2.writesOf k = data.writesOf k := by
  rw [writesOf, lookup_get, writesOf]
  split
  · cases data.lookup k <;> rfl
  · rfl

end DataCollection

namespace Client

/-- `random.randint(1000, 1000_000_000)`. -/
abbrev Draw := { n : Nat // 1000 ≤ n ∧ n ≤ 1000000000 }

/-- `f'val_{...}'`. -/
def newValue (draw : Draw) : Bytes := ascii "val_" ++ JsonText.decimal draw

/-- `json.dumps(data, indent=2, sort_keys=True)`. -/
def requestBody (value : Bytes) : Bytes := ascii "\x7b\n  \"value\": \"" ++ value ++ ascii "\"\n\x7d"

/-- What `one_request` draws once: a name is never empty. -/
structure Operation where
  writing : Bool
  name : Bytes
  name_ne : name ≠ []

/-- The request of one attempt; only a write has a body. -/
def Operation.request (op : Operation) (draw : Draw) : Request where
  method := if op.writing then .post else .get
  nameRaw := quotePlus op.name
  body := if op.writing then requestBody (newValue draw) else []

/-- The assertions on the status of the reply. -/
def Operation.Asserts (op : Operation) (reply : Response) : Prop :=
  if op.writing then reply.code = 200 else reply.code = 200 ∨ reply.code = 404

/-- What becomes of an attempt. -/
inductive Fate
  | lost
  | replyLost
  | received
  deriving DecidableEq

structure Attempt where
  fate : Fate
  draw : Draw

section Run

variable [Allocator]

/-- The retry loop of `one_request`, on the attempts as they turn out; `none` when it is still trying. -/
def oneRequest (rj : RapidJson) (e : DataEngine) (op : Operation) : List Attempt → Option (Response × DataEngine)
  | [] => none
  | attempt :: attempts =>
    match attempt.fate with
    | .lost => oneRequest rj e op attempts
    | .replyLost => oneRequest rj (handle rj e (op.request attempt.draw)).2 op attempts
    | .received => some (handle rj e (op.request attempt.draw))

/-- The calls of `one_request` one after the other: the replies, and the engine afterwards. -/
def main (rj : RapidJson) (e : DataEngine) : List (Operation × List Attempt) → Option (List Response × DataEngine)
  | [] => some ([], e)
  | (op, attempts) :: sequence => do
    let (reply, e) ← oneRequest rj e op attempts
    let (replies, e) ← main rj e sequence
    return (reply :: replies, e)

end Run

/-- The attempt that ends the loop. -/
def acknowledgedAttempt (attempts : List Attempt) : Option Attempt := attempts.find? (·.fate = .received)

/-- The requests that are acknowledged, each once. -/
def acknowledged (sequence : List (Operation × List Attempt)) : List Request :=
  sequence.filterMap fun (op, attempts) => (acknowledgedAttempt attempts).map fun a => op.request a.draw

/-- The attempts before the acknowledged one that were executed with their reply lost. -/
def repliesLost (attempts : List Attempt) : Nat :=
  (attempts.takeWhile (·.fate ≠ .received)).countP (·.fate = .replyLost)

/-- The write attempts on a name that were executed with their reply lost. -/
def writesLost (name : Bytes) (sequence : List (Operation × List Attempt)) : Nat :=
  (sequence.map fun (op, attempts) => if op.writing ∧ name = op.name then repliesLost attempts else 0).sum

/-! ### Names -/

theorem Operation.name_request (op : Operation) (draw : Draw) : (op.request draw).name = op.name :=
  urlDecode_quotePlus op.name

/-- Every reply begins with the name. -/
theorem body_handle [Allocator] (rj : RapidJson) (e : DataEngine) (req : Request) :
    ∃ rest : JsonBody, (handle rj e req).1.body = JsonBody.dump rj (nameBody req.name ++ rest) ∧
      ∀ m ∈ rest, m.1.bytes ≠ ascii "name" := by
  have herror : ∀ error : Bytes, ∀ m ∈ JsonBody.add [] (ascii "error") error, m.1.bytes ≠ ascii "name" := by
    intro error m hm
    obtain rfl := List.mem_singleton.1 hm
    show (JString.ref (ascii "error")).bytes ≠ ascii "name"
    decide
  have ho := handle_outcome rj e req
  generalize handle rj e req = result at ho ⊢
  cases ho with
  | unnamed hn => exact ⟨.add [] (ascii "error") emptyName, rfl, herror _⟩
  | missing hn hm hv => exact ⟨.add [] (ascii "error") (ascii "Item not found"), rfl, herror _⟩
  | found value hn hm hv =>
    refine ⟨((JsonBody.add [] (ascii "value") value.read.value).addNumber (ascii "stats.reads")
      value.read.stats.reads).addNumber (ascii "stats.writes") value.read.stats.writes, rfl, ?_⟩
    simp only [JsonBody.add, JsonBody.addNumber, List.nil_append, List.cons_append, List.forall_mem_cons]
    exact ⟨by decide, by decide, by decide, List.forall_mem_nil _⟩
  | refused error hn hm hv => exact ⟨.add [] (ascii "error") error, rfl, herror _⟩
  | accepted value hn hm hv => exact ⟨[], by rw [List.append_nil]; rfl, List.forall_mem_nil _⟩

/-- The names of the client and of the server: what is quoted is decoded, so a request concerns the record of the name
that was drawn and no other one, and its reply has this name. -/
theorem names_round_trip [Allocator] (rj : RapidJson) (e : DataEngine) :
    (∀ s, urlDecode (quotePlus s) = s) ∧
    (∀ (op op' : Operation) (draw draw' : Draw),
      (op.request draw).name = (op'.request draw').name ↔ op.name = op'.name) ∧
    (∀ (op : Operation) (draw : Draw) (k : Bytes), k ≠ op.name →
      (handle rj e (op.request draw)).2.view k = e.view k) ∧
    ∀ (op : Operation) (draw : Draw), (op.request draw).Routed →
      ∃ (v : JString) (rest : JsonBody), v.bytes = op.name ∧
        (handle rj e (op.request draw)).1.body = JsonBody.dump rj ((.ref (ascii "name"), .string v) :: rest) ∧
        ∀ m ∈ rest, m.1.bytes ≠ ascii "name" := by
  refine ⟨urlDecode_quotePlus, fun op op' draw draw' => by rw [op.name_request, op'.name_request], ?_, ?_⟩
  · intro op draw k hk
    rw [(handle_answer rj e _).2, if_neg (by rwa [op.name_request])]
  · intro op draw hroute
    obtain ⟨rest, hbody, hrest⟩ := body_handle rj e (op.request draw)
    have hlen := hroute.length_name_lt
    rw [op.name_request] at hbody hlen
    exact ⟨.ref op.name, rest, JString.ref_bytes hlen, hbody, hrest⟩

/-! ### Retries -/

/-- The library reads the bodies that the client writes. -/
def ParsesRequests (rj : RapidJson) : Prop :=
  ∀ draw, rj.parse (requestBody (newValue draw)) = some (.ofStrings [(.ref (ascii "value"), .ref (newValue draw))])

theorem length_newValue_lt (draw : Draw) : (newValue draw).length < sizeTypeRange := by
  have hdigits : (Nat.toDigits 10 draw).length ≤ 10 :=
    Nat.toDigits_length 10 draw 10 (by decide) (Nat.lt_of_le_of_lt draw.2.2 (by decide))
  have hprefix : (ascii "val_").length = 4 := by decide
  have hrange : 14 < sizeTypeRange := by decide
  rw [newValue, List.length_append, JsonText.decimal, List.length_map]
  omega

theorem mem_newValue {draw : Draw} {c : UInt8} (h : c ∈ newValue draw) : c ∈ ascii "val_" ∨ JsonText.isDigit c :=
  (List.mem_append.1 h).imp_right JsonText.isDigit_of_mem_decimal

/-- The client's body holds no NUL, so the server reads all of it. -/
theorem takeWhile_requestBody (draw : Draw) :
    (requestBody (newValue draw)).takeWhile (· ≠ 0) = requestBody (newValue draw) := by
  apply takeWhile_of_ne_zero
  rintro c hc rfl
  rw [requestBody, List.mem_append, List.mem_append] at hc
  rcases hc with (hc | hc) | hc
  · exact absurd hc (by decide)
  · rcases mem_newValue hc with hc | hc
    · exact absurd hc (by decide)
    · exact absurd hc (by decide)
  · exact absurd hc (by decide)

section Library

open JsonText

/-- The digits need no escapes. -/
theorem escapeByte_newValue {draw : Draw} : ∀ c ∈ newValue draw, escapeByte c = [c] := by
  intro c hc
  have hval : (ascii "val_").all fun c => escapeByte c = [c] := by decide
  rcases mem_newValue hc with hc | hc
  · exact of_decide_eq_true (List.all_eq_true.1 hval c hc)
  · exact forall_byte (P := fun c => isDigit c → escapeByte c = [c]) (by decide +kernel) c hc

theorem requestBody_eq (draw : Draw) :
    requestBody (newValue draw) = openBrace :: 10 :: 32 :: 32 :: quote :: (stringText (ascii "value") ++
      colon :: 32 :: quote :: (stringText (newValue draw) ++ [10, closeBrace])) := by
  have hplain : stringText (newValue draw) = newValue draw ++ [quote] := by
    rw [stringText, List.flatMap_congr escapeByte_newValue, List.flatMap_singleton']
  rw [hplain, List.append_assoc]
  rfl

/-- The parser of `JsonText` skips the white space that the client writes. -/
theorem parsesRequests : ParsesRequests library := by
  intro draw
  show parse _ = _
  rw [parse, takeWhile_requestBody]
  have hlen : 2 ≤ (requestBody (newValue draw)).length := by simp [requestBody, ascii]
  obtain ⟨fuel, hfuel⟩ := Nat.exists_eq_add_of_le' hlen
  have hname := parseString_stringText (.ref (ascii "value"))
  have hvalue := parseString_stringText (.ref (newValue draw))
  rw [JString.ref_bytes (by decide)] at hname
  rw [JString.ref_bytes (length_newValue_lt draw)] at hvalue
  have hquote : ∀ b, expect quote (10 :: 32 :: 32 :: quote :: b) = some b := fun _ => rfl
  have hskip : ∀ b, skipWhitespace (32 :: quote :: b) = quote :: b := fun _ => rfl
  have hbrace : ∀ b, expect closeBrace (10 :: 32 :: 32 :: quote :: b) = none := fun _ => rfl
  have hmember : parseMembers (fuel + 2) (10 :: 32 :: 32 :: quote :: (stringText (ascii "value") ++
      colon :: 32 :: quote :: (stringText (newValue draw) ++ [10, closeBrace]))) =
      some ([(.ref (ascii "value"), .string (.ref (newValue draw)))], []) := by
    rw [parseMembers, hquote]
    have hcolon : isWhitespace colon = false := by decide
    simp only [Option.bind_eq_bind, Option.bind_some, hname, expect_self hcolon, parseValue, hskip, hvalue]
    rfl
  rw [hfuel, requestBody_eq, parseValue, skipWhitespace_cons (by decide)]
  simp only [hbrace, hmember]
  rfl

end Library

theorem requestValue_request {rj : RapidJson} (hp : ParsesRequests rj) {op : Operation} (hw : op.writing = true)
    (draw : Draw) : requestValue rj (op.request draw).body = .ok (.ref (newValue draw)) := by
  have hbody : (op.request draw).body = requestBody (newValue draw) := by
    simp [Operation.request, hw]
  rw [requestValue_ok_iff, hbody, takeWhile_requestBody, hp]
  exact ⟨_, rfl, rfl⟩

section Retries

variable [Allocator]

theorem handle_write {rj : RapidJson} (hp : ParsesRequests rj) (e : DataEngine) {op : Operation}
    (hw : op.writing = true) (draw : Draw) :
    handle rj e (op.request draw) = (response rj .ok (nameBody op.name), e.set op.name (newValue draw)) := by
  have hmethod : (op.request draw).method = .post := by simp [Operation.request, hw]
  have hdecode : urlDecode (op.request draw).nameRaw = op.name := op.name_request draw
  rw [handle, hmethod]
  dsimp only [postHandler]
  rw [hdecode, if_neg op.name_ne, requestValue_request hp hw]
  dsimp only
  rw [JString.ref_bytes (length_newValue_lt draw)]

/-- The reply to a read. -/
def readReply (rj : RapidJson) (name : Bytes) : Option ExtendedValue → Response
  | none => response rj .notFound (errorBody name (ascii "Item not found"))
  | some value => response rj .ok (recordBody name value)

theorem handle_read (rj : RapidJson) (e : DataEngine) {op : Operation} (hw : op.writing = false) (draw : Draw) :
    handle rj e (op.request draw) = (readReply rj op.name (e.get op.name).1, (e.get op.name).2) := by
  have hmethod : (op.request draw).method = .get := by simp [Operation.request, hw]
  have hdecode : urlDecode (op.request draw).nameRaw = op.name := op.name_request draw
  rw [handle, hmethod]
  dsimp only [getHandler]
  rw [hdecode, if_neg op.name_ne]
  obtain ⟨value, e'⟩ := e.get op.name
  cases value <;> rfl

/-- The replies differ at most in the counters that a read reports. -/
inductive SameAnswer (rj : RapidJson) : Response → Response → Prop
  | refl (reply : Response) : SameAnswer rj reply reply
  | found (name value : Bytes) (stats stats' : AccessStatistics) :
      SameAnswer rj (response rj .ok (recordBody name ⟨value, stats⟩))
        (response rj .ok (recordBody name ⟨value, stats'⟩))

/-- `n` executions of the operation, with whatever values, lead from `e` to `e'`: only the value that a write replaces
is open. -/
structure Executed (op : Operation) (n : Nat) (e e' : DataEngine) : Prop where
  values : ∀ k, (op.writing → k ≠ op.name) → e'.data.valueOf k = e.data.valueOf k
  writes : ∀ k, e'.data.writesOf k = e.data.writesOf k + if op.writing ∧ k = op.name then .ofNat n else 0

omit [Allocator] in
theorem Executed.refl (op : Operation) (e : DataEngine) : Executed op 0 e e where
  values _ _ := rfl
  writes k := by
    have hzero : UInt64.ofNat 0 = 0 := rfl
    rw [hzero, ite_self, UInt64.add_zero]

omit [Allocator] in
theorem Executed.trans {op : Operation} {m n : Nat} {e₁ e₂ e₃ : DataEngine} (h : Executed op m e₁ e₂)
    (h' : Executed op n e₂ e₃) : Executed op (m + n) e₁ e₃ where
  values k hk := (h'.values k hk).trans (h.values k hk)
  writes k := by
    rw [h'.writes, h.writes, UInt64.add_assoc]
    split
    · rw [UInt64.ofNat_add]
    · rfl

theorem executed_handle {rj : RapidJson} (hp : ParsesRequests rj) (e : DataEngine) (op : Operation) (draw : Draw) :
    Executed op 1 e (handle rj e (op.request draw)).2 := by
  cases hw : op.writing with
  | true =>
    rw [handle_write hp e hw]
    refine ⟨fun k hk => ?_, fun k => ?_⟩
    · rw [DataEngine.set, DataCollection.valueOf_set, if_neg (hk hw)]
    · simp only [DataEngine.set, DataCollection.writesOf_set, hw, true_and]
      rfl
  | false =>
    rw [handle_read rj e hw]
    refine ⟨fun k hk => ?_, fun k => ?_⟩
    · rw [DataEngine.get, DataCollection.valueOf_get]
    · simp [DataEngine.get, DataCollection.writesOf_get, hw]

/-- The loop ends with the first attempt that is acknowledged, executed on what the attempts before it have left. -/
theorem oneRequest_eq_some {rj : RapidJson} (hp : ParsesRequests rj) {e : DataEngine} {op : Operation}
    {attempts : List Attempt} {r : Response × DataEngine} (h : oneRequest rj e op attempts = some r) :
    ∃ a e', acknowledgedAttempt attempts = some a ∧ Executed op (repliesLost attempts) e e' ∧
      r = handle rj e' (op.request a.draw) := by
  induction attempts generalizing e with
  | nil => simp [oneRequest] at h
  | cons attempt attempts ih =>
    rw [oneRequest] at h
    cases hf : attempt.fate with
    | lost =>
      rw [hf] at h
      obtain ⟨a, e', hfind, hexec, hr⟩ := ih h
      refine ⟨a, e', ?_, ?_, hr⟩
      · simpa [acknowledgedAttempt, hf] using hfind
      · simpa [repliesLost, hf] using hexec
    | replyLost =>
      rw [hf] at h
      obtain ⟨a, e', hfind, hexec, hr⟩ := ih h
      have hlost : repliesLost (attempt :: attempts) = 1 + repliesLost attempts := by
        simp [repliesLost, hf, Nat.add_comm]
      refine ⟨a, e', ?_, ?_, hr⟩
      · simpa [acknowledgedAttempt, hf] using hfind
      · rw [hlost]
        exact (executed_handle hp e op attempt.draw).trans hexec
    | received =>
      rw [hf] at h
      refine ⟨attempt, e, ?_, ?_, (Option.some.inj h).symm⟩
      · simp [acknowledgedAttempt, hf]
      · simpa [repliesLost, hf] using Executed.refl op e

/-- The loop ends exactly when an attempt is acknowledged. -/
theorem oneRequest_isSome (rj : RapidJson) (e : DataEngine) (op : Operation) (attempts : List Attempt) :
    (oneRequest rj e op attempts).isSome = (acknowledgedAttempt attempts).isSome := by
  induction attempts generalizing e with
  | nil => rfl
  | cons attempt attempts ih =>
    rw [oneRequest, acknowledgedAttempt]
    cases hf : attempt.fate <;> simp [hf, ih, acknowledgedAttempt]

/-- The calls come to an end when every operation is acknowledged. -/
theorem main_isSome (rj : RapidJson) (e : DataEngine) (sequence : List (Operation × List Attempt)) :
    (main rj e sequence).isSome = sequence.all fun call => (acknowledgedAttempt call.2).isSome := by
  induction sequence generalizing e with
  | nil => rfl
  | cons call sequence ih =>
    obtain ⟨op, attempts⟩ := call
    have hone := oneRequest_isSome rj e op attempts
    rw [main, List.all_cons, ← hone]
    cases oneRequest rj e op attempts with
    | none => rfl
    | some r =>
      have hrest := ih r.2
      rw [Option.isSome_some, Bool.true_and, ← hrest]
      show ((main rj r.2 sequence).bind _).isSome = _
      cases main rj r.2 sequence <;> rfl

/-- The assertions of the client hold. -/
theorem oneRequest_asserts {rj : RapidJson} (hp : ParsesRequests rj) {e : DataEngine} {op : Operation}
    {attempts : List Attempt} {r : Response × DataEngine} (h : oneRequest rj e op attempts = some r) :
    op.Asserts r.1 := by
  obtain ⟨a, e', -, -, rfl⟩ := oneRequest_eq_some hp h
  unfold Operation.Asserts
  cases hw : op.writing with
  | true =>
    rw [handle_write hp e' hw]
    rfl
  | false =>
    rw [handle_read rj e' hw, if_neg (by decide)]
    cases (e'.get op.name).1 with
    | none => exact Or.inr rfl
    | some value => exact Or.inl rfl

/-- The engine `e` agrees with `e₀` up to the writes that were executed in vain. -/
structure Simulates (lost : Bytes → Nat) (e e₀ : DataEngine) : Prop where
  values : ∀ name, e.data.valueOf name = e₀.data.valueOf name
  writes : ∀ name, e.data.writesOf name = e₀.data.writesOf name + .ofNat (lost name)

omit [Allocator] in
theorem Simulates.refl (e : DataEngine) : Simulates (fun _ => 0) e e where
  values _ := rfl
  writes _ := (UInt64.add_zero _).symm

omit [Allocator] in
theorem Simulates.congr {lost lost' : Bytes → Nat} {e e₀ : DataEngine} (h : Simulates lost e e₀)
    (heq : ∀ name, lost name = lost' name) : Simulates lost' e e₀ := by
  obtain rfl : lost = lost' := funext heq
  exact h

/-- A read has the same answer where the values agree. -/
theorem sameAnswer_read (rj : RapidJson) (name : Bytes) {e e₀ : DataEngine}
    (h : e.data.valueOf name = e₀.data.valueOf name) :
    SameAnswer rj (readReply rj name (e.get name).1) (readReply rj name (e₀.get name).1) := by
  rw [e.get_view, e₀.get_view, DataEngine.view, DataEngine.view]
  unfold DataCollection.valueOf at h
  cases hr : e.data.lookup name with
  | none =>
    rw [hr, Option.map_none] at h
    rw [Option.map_eq_none_iff.1 h.symm]
    exact .refl _
  | some record =>
    rw [hr, Option.map_some] at h
    obtain ⟨record₀, hr₀, hvalue⟩ := Option.map_eq_some_iff.1 h.symm
    rw [hr₀]
    simp only [Option.map_some, readReply, ExtendedValue.read, hvalue]
    exact .found _ _ _ _

/-- One call of `one_request` against the same operation without failures. -/
theorem Simulates.oneRequest {rj : RapidJson} (hp : ParsesRequests rj) {lost : Bytes → Nat} {e e₀ : DataEngine}
    (hs : Simulates lost e e₀) {op : Operation} {attempts : List Attempt} {r : Response × DataEngine}
    (h : Client.oneRequest rj e op attempts = some r) :
    ∃ a, acknowledgedAttempt attempts = some a ∧ SameAnswer rj r.1 (handle rj e₀ (op.request a.draw)).1 ∧
      Simulates (fun name => lost name + if op.writing ∧ name = op.name then repliesLost attempts else 0) r.2
        (handle rj e₀ (op.request a.draw)).2 := by
  obtain ⟨a, e', hfind, hexec, rfl⟩ := oneRequest_eq_some hp h
  refine ⟨a, hfind, ?_, ?_, fun name => ?_⟩
  · cases hw : op.writing with
    | true =>
      rw [handle_write hp e' hw, handle_write hp e₀ hw]
      exact .refl _
    | false =>
      rw [handle_read rj e' hw, handle_read rj e₀ hw]
      apply sameAnswer_read
      rw [hexec.values _ (by simp [hw]), hs.values]
  · intro name
    cases hw : op.writing with
    | true =>
      rw [handle_write hp e' hw, handle_write hp e₀ hw]
      simp only [DataEngine.set, DataCollection.valueOf_set]
      split
      · rfl
      · rename_i hne
        rw [hexec.values name fun _ => hne, hs.values]
    | false =>
      rw [handle_read rj e' hw, handle_read rj e₀ hw]
      simp only [DataEngine.get, DataCollection.valueOf_get]
      rw [hexec.values name (by simp [hw]), hs.values]
  · rw [(executed_handle hp e' op a.draw).writes, (executed_handle hp e₀ op a.draw).writes, hexec.writes, hs.writes]
    split
    · rw [UInt64.ofNat_add]
      ac_rfl
    · simp

/-- A run of the client against the same run without failures. -/
theorem Simulates.main {rj : RapidJson} (hp : ParsesRequests rj) {lost : Bytes → Nat} {e e₀ : DataEngine}
    (hs : Simulates lost e e₀) {sequence : List (Operation × List Attempt)} {replies : List Response} {e' : DataEngine}
    (h : Client.main rj e sequence = some (replies, e')) :
    List.Forall₂ (SameAnswer rj) replies ((serve rj e₀ (acknowledged sequence)).1.map Exchange.response) ∧
      Simulates (fun name => lost name + writesLost name sequence) e' (serve rj e₀ (acknowledged sequence)).2 := by
  induction sequence generalizing lost e e₀ replies with
  | nil =>
    obtain ⟨rfl, rfl⟩ : [] = replies ∧ e = e' := by simpa [Client.main] using h
    exact ⟨.nil, hs.congr fun name => rfl⟩
  | cons call sequence ih =>
    obtain ⟨op, attempts⟩ := call
    rw [Client.main, Option.bind_eq_bind, Option.bind_eq_some_iff] at h
    obtain ⟨⟨reply, e₁⟩, hone, h⟩ := h
    rw [Option.bind_eq_bind, Option.bind_eq_some_iff] at h
    obtain ⟨⟨rest, e₂⟩, hrest, h⟩ := h
    obtain ⟨rfl, rfl⟩ : reply :: rest = replies ∧ e₂ = e' := by simpa using h
    obtain ⟨a, hfind, hanswer, hstep⟩ := hs.oneRequest hp hone
    have hack : acknowledged ((op, attempts) :: sequence) = op.request a.draw :: acknowledged sequence := by
      simp [acknowledged, hfind]
    obtain ⟨hanswers, hrun⟩ := ih hstep hrest
    rw [hack, serve_cons, List.map_cons]
    refine ⟨.cons hanswer hanswers, hrun.congr fun name => ?_⟩
    rw [writesLost, writesLost, List.map_cons, List.sum_cons, Nat.add_assoc]

/-- Retries are harmless: the values and the answers are those of the run in which each operation is executed once, as
the attempt that was acknowledged. -/
theorem retries_harmless {rj : RapidJson} (hp : ParsesRequests rj) (e : DataEngine)
    (sequence : List (Operation × List Attempt)) {replies : List Response} {e' : DataEngine}
    (h : main rj e sequence = some (replies, e')) :
    let faultFree := serve rj e (acknowledged sequence)
    (acknowledged sequence).length = sequence.length ∧
      List.Forall₂ (SameAnswer rj) replies (faultFree.1.map Exchange.response) ∧
      (∀ name, e'.data.valueOf name = faultFree.2.data.valueOf name) ∧
      ∀ name, e'.data.writesOf name = faultFree.2.data.writesOf name + .ofNat (writesLost name sequence) := by
  obtain ⟨hanswers, hs⟩ := (Simulates.refl e).main hp h
  have hall := main_isSome rj e sequence
  rw [h, Option.isSome_some] at hall
  refine ⟨?_, hanswers, hs.values, fun name => ?_⟩
  · rw [acknowledged, List.length_filterMap_eq_countP, List.countP_eq_length]
    intro call hcall
    rw [Option.isSome_map]
    exact List.all_eq_true.1 hall.symm call hcall
  · rw [hs.writes, Nat.zero_add]

end Retries

section Runs

attribute [local instance] Allocator.exact

private def low : Draw := ⟨1000, by decide⟩

private def high : Draw := ⟨1001, by decide⟩

private def named (writing : Bool) : Operation where
  writing := writing
  name := ascii "name #4"
  name_ne := by decide

/-- A write whose first attempt is executed in vain, and a read. -/
private def calls : List (Operation × List Attempt) :=
  [(named true, [⟨.replyLost, low⟩, ⟨.lost, low⟩, ⟨.received, high⟩]), (named false, [⟨.received, low⟩])]

theorem retried_write_harmless : ∃ replies e', main JsonText.library (.load []) calls = some (replies, e') ∧
    e'.data.valueOf (ascii "name #4") =
      (serve JsonText.library (.load []) (acknowledged calls)).2.data.valueOf (ascii "name #4") ∧
    e'.data.writesOf (ascii "name #4") =
      (serve JsonText.library (.load []) (acknowledged calls)).2.data.writesOf (ascii "name #4") + 1 := by
  have hsome : (main JsonText.library (.load []) calls).isSome := by
    rw [main_isSome]
    decide
  obtain ⟨⟨replies, e'⟩, h⟩ := Option.isSome_iff_exists.1 hsome
  obtain ⟨-, -, hvalues, hwrites⟩ := retries_harmless parsesRequests (.load []) calls h
  exact ⟨replies, e', h, hvalues _, hwrites _⟩

/-- The reply to a read of a name with a blank and a sign that is quoted. -/
theorem quoted_name_replied : ∃ (v : JString) (rest : JsonBody), v.bytes = ascii "name #4" ∧
    (handle JsonText.library (.load []) ((named false).request low)).1.body =
      JsonBody.dump JsonText.library ((.ref (ascii "name"), .string v) :: rest) ∧
    ∀ m ∈ rest, m.1.bytes ≠ ascii "name" :=
  (names_round_trip JsonText.library (.load [])).2.2.2 (named false) low ⟨by decide, by decide, by decide⟩

end Runs

end Client

end KeyValueServer
