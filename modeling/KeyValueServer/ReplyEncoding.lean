import KeyValueServer.HttpHistory
import KeyValueServer.Text.FormEncoding
import KeyValueServer.Text.Utf8

/-!
# The encoding of the replies

A reply is sent as `application/json; charset=utf-8`.  The writer escapes quotes, backslashes and control characters,
and copies every byte from `0x80` up; nothing between the URL, the body of a POST or the file and the reply looks at
the encoding.  So a reply is well-formed UTF-8 exactly when the strings in it are: the decoded name, and the value that
a GET has found (`reply_isUtf8_iff`).
-/

namespace KeyValueServer

open Text HttpServerHelpers

namespace JsonText

theorem isEscape_escapeByte : IsEscape escapeByte where
  ne_nil c _ := escapeByte_ne_nil c
  ascii c hc := by
    have hall : ∀ c, c < 128 → (escapeByte c).all (· < 128) := forall_byte (by decide +kernel)
    intro d hd
    exact of_decide_eq_true (List.all_eq_true.1 (hall c hc) d hd)
  high c hc := forall_byte (P := fun c => ¬ c < 128 → escapeByte c = [c]) (by decide +kernel) c hc

theorem isUtf8_stringText (s : Bytes) : IsUtf8 (stringText s) ↔ IsUtf8 s := by
  rw [stringText, isUtf8_append_cons (by decide), isEscape_escapeByte.isUtf8_flatMap]
  exact ⟨fun h => h.1, fun h => ⟨h, isUtf8_nil⟩⟩

theorem isUtf8_decimal (n : Nat) : IsUtf8 (decimal n) := by
  apply isUtf8_of_ascii
  intro c hc
  have hdigit : ∀ c, isDigit c → c < 128 := forall_byte (by decide +kernel)
  exact hdigit c (isDigit_of_mem_decimal hc)

end JsonText

/-- What a reply is made of: strings and counters. -/
def Json.InReply : Json → Prop
  | .string _ | .number (.uint64 _) => True
  | _ => False

/-- The strings among the values. -/
def Json.Encoded : Json → Prop
  | .string s => IsUtf8 s.bytes
  | _ => True

/-- The writer of the library shows the members of a reply as `JsonText` does. -/
def RapidJson.WritesReplies (rj : RapidJson) : Prop :=
  ∀ members : List (JString × Json), (∀ m ∈ members, m.2.InReply) →
    rj.write (.object members) = JsonText.write (.object members)

namespace JsonText

theorem isUtf8_value {v : Json} (h : v.InReply) : IsUtf8 (write v) ↔ v.Encoded := by
  cases v with
  | string s =>
    rw [write, isUtf8_cons (by decide), isUtf8_stringText]
    rfl
  | number n =>
    cases n with
    | uint64 n =>
      rw [write]
      exact ⟨fun _ => trivial, fun _ => isUtf8_decimal _⟩
    | other text => exact h.elim
  | null | bool | array | object => exact h.elim

theorem isUtf8_member {n : JString} {v : Json} (h : v.InReply) :
    IsUtf8 (quote :: (stringText n.bytes ++ colon :: write v)) ↔ IsUtf8 n.bytes ∧ v.Encoded := by
  rw [isUtf8_cons (by decide), isUtf8_append_cons (by decide), isUtf8_stringText, isUtf8_value h]

theorem isUtf8_writeMembers {members : List (JString × Json)} (h : ∀ m ∈ members, m.2.InReply) :
    IsUtf8 (writeMembers members) ↔ ∀ m ∈ members, IsUtf8 m.1.bytes ∧ m.2.Encoded := by
  induction members with
  | nil => exact ⟨fun _ => List.forall_mem_nil _, fun _ => isUtf8_nil⟩
  | cons m members ih =>
    obtain ⟨n, v⟩ := m
    obtain ⟨hv, hrest⟩ := List.forall_mem_cons.1 h
    have hmember : IsUtf8 (quote :: stringText n.bytes ++ colon :: write v) ↔ IsUtf8 n.bytes ∧ v.Encoded :=
      isUtf8_member hv
    rw [List.forall_mem_cons]
    cases members with
    | nil =>
      rw [writeMembers]
      exact hmember.trans ⟨fun h => ⟨h, List.forall_mem_nil _⟩, fun h => h.1⟩
    | cons m' members =>
      rw [writeMembers, ← List.cons_append, isUtf8_append_cons (by decide), hmember, ih hrest]

theorem isUtf8_object {members : List (JString × Json)} (h : ∀ m ∈ members, m.2.InReply) :
    IsUtf8 (write (.object members)) ↔ ∀ m ∈ members, IsUtf8 m.1.bytes ∧ m.2.Encoded := by
  rw [write, isUtf8_cons (by decide), isUtf8_append_cons (by decide), isUtf8_writeMembers h]
  exact ⟨fun h => h.1, fun h => ⟨h, isUtf8_nil⟩⟩

end JsonText

theorem JsonBody.isUtf8_dump {rj : RapidJson} (hw : rj.WritesReplies) {body : JsonBody}
    (h : ∀ m ∈ body, m.2.InReply) :
    IsUtf8 (body.dump rj) ↔ ∀ m ∈ body, IsUtf8 m.1.bytes ∧ m.2.Encoded := by
  rw [JsonBody.dump, hw body h, JsonText.isUtf8_object h]

namespace HttpServer

/-- The bytes of a byte string that are written to a reply. -/
def ShownUtf8 (b : Bytes) : Prop := IsUtf8 (JString.ref b).bytes

theorem shownUtf8_of_ascii {b : Bytes} (h : b.all (· < 128)) : ShownUtf8 b :=
  isUtf8_of_ascii fun c hc => of_decide_eq_true (List.all_eq_true.1 h c (List.mem_of_mem_take hc))

/-- The texts of the errors are ASCII. -/
theorem shownUtf8_requestValue_error {rj : RapidJson} {body error : Bytes} (h : requestValue rj body = .error error) :
    ShownUtf8 error := by
  apply shownUtf8_of_ascii
  unfold requestValue at h
  split at h
  · cases h
    decide
  · split at h
    · cases h
      decide
    · cases h
    · cases h
      decide
  · cases h
    decide

theorem isUtf8_nameBody {rj : RapidJson} (hw : rj.WritesReplies) (name : Bytes) :
    IsUtf8 ((nameBody name).dump rj) ↔ ShownUtf8 name := by
  have hreply : ∀ m ∈ nameBody name, m.2.InReply := by simp [nameBody, JsonBody.add, Json.InReply]
  have hkey : IsUtf8 (JString.ref (ascii "name")).bytes := by decide
  rw [JsonBody.isUtf8_dump hw hreply]
  simp [nameBody, JsonBody.add, Json.Encoded, ShownUtf8, hkey]

theorem isUtf8_errorBody {rj : RapidJson} (hw : rj.WritesReplies) {error : Bytes} (herror : ShownUtf8 error)
    (name : Bytes) : IsUtf8 ((errorBody name error).dump rj) ↔ ShownUtf8 name := by
  have hreply : ∀ m ∈ errorBody name error, m.2.InReply := by
    simp [errorBody, nameBody, JsonBody.add, Json.InReply]
  have hkey : IsUtf8 (JString.ref (ascii "name")).bytes ∧ IsUtf8 (JString.ref (ascii "error")).bytes := by decide
  have htext : IsUtf8 (JString.ref error).bytes := herror
  rw [JsonBody.isUtf8_dump hw hreply]
  simp [errorBody, nameBody, JsonBody.add, Json.Encoded, ShownUtf8, hkey, htext]

theorem isUtf8_recordBody {rj : RapidJson} (hw : rj.WritesReplies) (name : Bytes) (value : ExtendedValue) :
    IsUtf8 ((recordBody name value).dump rj) ↔ ShownUtf8 name ∧ ShownUtf8 value.value := by
  have hreply : ∀ m ∈ recordBody name value, m.2.InReply := by
    simp [recordBody, nameBody, JsonBody.add, JsonBody.addNumber, Json.InReply]
  have hname : IsUtf8 (JString.ref (ascii "name")).bytes ∧ IsUtf8 (JString.ref (ascii "value")).bytes := by decide
  have hstats : IsUtf8 (JString.ref (ascii "stats.reads")).bytes ∧
      IsUtf8 (JString.ref (ascii "stats.writes")).bytes := by decide
  rw [JsonBody.isUtf8_dump hw hreply]
  simp [recordBody, nameBody, JsonBody.add, JsonBody.addNumber, Json.Encoded, ShownUtf8, hname, hstats]

section Replies

variable [Allocator]

theorem Outcome.isUtf8_body_iff {rj : RapidJson} (hw : rj.WritesReplies) {e : DataEngine} {req : Request}
    {result : Response × DataEngine} (ho : Outcome rj e req result) :
    IsUtf8 result.1.body ↔ ShownUtf8 req.name ∧
      ∀ value, req.method = .get → req.name ≠ [] → e.view req.name = some value → ShownUtf8 value.value := by
  cases ho with
  | unnamed hn =>
    have hbody := isUtf8_errorBody hw (shownUtf8_of_ascii (b := emptyName) (by decide)) req.name
    exact hbody.trans ⟨fun h => ⟨h, fun _ _ hne => absurd hn hne⟩, fun h => h.1⟩
  | missing hn hm hv =>
    have hbody := isUtf8_errorBody hw (shownUtf8_of_ascii (b := ascii "Item not found") (by decide)) req.name
    refine hbody.trans ⟨fun h => ⟨h, fun value _ _ hsome => ?_⟩, fun h => h.1⟩
    rw [hv] at hsome
    cases hsome
  | found value hn hm hv =>
    have hbody := isUtf8_recordBody hw req.name value.read
    refine hbody.trans ⟨fun h => ⟨h.1, fun value' _ _ hsome => ?_⟩, fun h => ⟨h.1, h.2 value hm hn hv⟩⟩
    rw [hv] at hsome
    cases hsome
    exact h.2
  | refused error hn hm hv =>
    have hbody := isUtf8_errorBody hw (shownUtf8_requestValue_error hv) req.name
    exact hbody.trans ⟨fun h => ⟨h, fun _ hget => by rw [hm] at hget; cases hget⟩, fun h => h.1⟩
  | accepted value hn hm hv =>
    have hbody := isUtf8_nameBody hw req.name
    exact hbody.trans ⟨fun h => ⟨h, fun _ hget => by rw [hm] at hget; cases hget⟩, fun h => h.1⟩

/-- A reply is well-formed UTF-8 exactly when the decoded name is, and the value that a GET finds. -/
theorem reply_isUtf8_iff {rj : RapidJson} (hw : rj.WritesReplies) (e : DataEngine) (req : Request) :
    IsUtf8 (handle rj e req).1.body ↔ ShownUtf8 req.name ∧
      ∀ value, req.method = .get → req.name ≠ [] → e.view req.name = some value → ShownUtf8 value.value :=
  (handle_outcome rj e req).isUtf8_body_iff hw

/-- The values that an engine holds are well-formed. -/
def HoldsUtf8 (e : DataEngine) : Prop := ∀ name value, e.view name = some value → ShownUtf8 value.value

/-- A request whose name is well-formed, and its value if it is accepted. -/
structure Request.SendsUtf8 (rj : RapidJson) (req : Request) : Prop where
  name : ShownUtf8 req.name
  value : ∀ v, req.method = .post → requestValue rj req.body = .ok v → IsUtf8 v.bytes

theorem HoldsUtf8.handle {rj : RapidJson} {e : DataEngine} (h : HoldsUtf8 e) {req : Request}
    (hreq : req.SendsUtf8 rj) : HoldsUtf8 (handle rj e req).2 := by
  have ho := handle_outcome rj e req
  generalize HttpServer.handle rj e req = result at ho ⊢
  have hget : HoldsUtf8 (e.get req.name).2 := by
    intro name value hv
    rw [DataEngine.view_get] at hv
    split at hv
    · obtain ⟨old, hold, rfl⟩ := Option.map_eq_some_iff.1 hv
      exact h req.name old hold
    · exact h name value hv
  cases ho with
  | unnamed hn => exact h
  | missing hn hm hv => exact hget
  | found value hn hm hv => exact hget
  | refused error hn hm hv => exact h
  | accepted value hn hm hv =>
    intro name value' hview
    rw [DataEngine.view_set] at hview
    split at hview
    · cases hview
      have hvalue := hreq.value value hm hv
      rw [← JString.ref_self value] at hvalue
      cases e.view req.name <;> exact hvalue
    · exact h name value' hview

/-- Where all that is loaded and sent is well-formed, so are all the replies. -/
theorem replies_isUtf8 {rj : RapidJson} (hw : rj.WritesReplies) {e : DataEngine} (he : HoldsUtf8 e)
    {requests : List Request} (hrequests : ∀ req ∈ requests, req.SendsUtf8 rj) :
    ∀ x ∈ (serve rj e requests).1, IsUtf8 x.response.body := by
  have hrun : HoldsUtf8 (serve rj e requests).2 ∧ ∀ x ∈ (serve rj e requests).1, IsUtf8 x.response.body := by
    induction requests using List.reverseRecOn with
    | nil => exact ⟨he, List.forall_mem_nil _⟩
    | append_singleton requests req ih =>
      obtain ⟨hholds, hreplies⟩ := ih fun r hr => hrequests r (List.mem_append_left _ hr)
      have hreq := hrequests req (by simp)
      rw [serve_concat]
      refine ⟨hholds.handle hreq, List.forall_mem_append.2 ⟨hreplies, ?_⟩⟩
      rw [List.forall_mem_singleton]
      exact ((handle_outcome rj _ req).isUtf8_body_iff hw).2 ⟨hreq.name, fun value _ _ hv => hholds req.name value hv⟩
  exact hrun.2

end Replies

section Runs

attribute [local instance] Allocator.exact

private theorem writesReplies : JsonText.library.WritesReplies := fun _ _ => rfl

/-- A GET whose name is the byte `0xff`. -/
theorem reply_not_utf8 :
    ¬ IsUtf8 (handle JsonText.library (.load []) ⟨.get, ascii "%ff", []⟩).1.body := by
  intro h
  have hname := (((handle_outcome _ _ _).isUtf8_body_iff writesReplies).1 h).1
  exact absurd hname (by unfold ShownUtf8; decide)

/-- The same with the two bytes of a letter. -/
theorem reply_utf8 : IsUtf8 (handle JsonText.library (.load []) ⟨.get, ascii "%C3%A4", []⟩).1.body := by
  refine (reply_isUtf8_iff writesReplies _ _).2 ⟨by unfold ShownUtf8; decide, fun value _ _ hv => ?_⟩
  cases hv

end Runs

end HttpServer

end KeyValueServer
