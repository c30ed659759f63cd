import KeyValueServer.HttpServer
import KeyValueServer.JsonText
import KeyValueServer.RecordHistory

/-!
# The API against its history

Requests are answered one after the other.  What a request is answered, and what it does to the engine, is a function
of the records that were loaded and of the requests answered before it (`ApiMeets`): a record is found when it was
loaded or a POST on its name was answered 200, its value is that of the latest such POST, and its statistics count the
GETs and the POSTs on it that were answered 200.
-/

namespace KeyValueServer

open HttpServerHelpers

namespace HttpServer

/-- A request with its answer. -/
structure Exchange where
  request : Request
  response : Response
  deriving DecidableEq

namespace Exchange

/-- A GET of the name that is answered 200. -/
def reads (x : Exchange) (name : Bytes) : Bool :=
  x.request.method = .get && x.request.name = name && x.response.code = 200

/-- A POST on the name that is answered 200. -/
def writes (x : Exchange) (name : Bytes) : Bool :=
  x.request.method = .post && x.request.name = name && x.response.code = 200

/-- A GET that is answered 200 or 404. -/
def countsRead (x : Exchange) : Bool := x.request.method = .get && (x.response.code = 200 || x.response.code = 404)

/-- A POST that is answered 200. -/
def countsWrite (x : Exchange) : Bool := x.request.method = .post && x.response.code = 200

end Exchange

/-- The values of the POSTs on the name that were answered 200, in order. -/
def writtenValues (rj : RapidJson) (name : Bytes) (xs : List Exchange) : List Bytes :=
  xs.filterMap fun x =>
    if x.writes name then (requestValue rj x.request.body).toOption.map JString.bytes else none

section History

variable [Allocator]

/-- The requests handled one after the other: the exchanges, and the engine afterwards. -/
def serve (rj : RapidJson) (e : DataEngine) (requests : List Request) : List Exchange × DataEngine :=
  requests.foldl (fun s req => (s.1 ++ [⟨req, (handle rj s.2 req).1⟩], (handle rj s.2 req).2)) ([], e)

@[simp] theorem serve_nil (rj : RapidJson) (e : DataEngine) : serve rj e [] = ([], e) := rfl

theorem serve_concat (rj : RapidJson) (e : DataEngine) (requests : List Request) (req : Request) :
    serve rj e (requests ++ [req]) =
      ((serve rj e requests).1 ++ [⟨req, (handle rj (serve rj e requests).2 req).1⟩],
        (handle rj (serve rj e requests).2 req).2) := by
  simp [serve]

theorem serve_cons (rj : RapidJson) (e : DataEngine) (req : Request) (requests : List Request) :
    serve rj e (req :: requests) =
      (⟨req, (handle rj e req).1⟩ :: (serve rj (handle rj e req).2 requests).1,
        (serve rj (handle rj e req).2 requests).2) := by
  induction requests using List.reverseRecOn with
  | nil => rfl
  | append_singleton requests last ih => rw [← List.cons_append, serve_concat, ih, serve_concat, List.cons_append]

theorem serve_requests (rj : RapidJson) (e : DataEngine) (requests : List Request) :
    (serve rj e requests).1.map Exchange.request = requests := by
  induction requests using List.reverseRecOn with
  | nil => rfl
  | append_singleton requests req ih => rw [serve_concat, List.map_append, ih, List.map_singleton]

/-- What the engine holds after a history. -/
structure Served (rj : RapidJson) (records : List (Bytes × Bytes)) (xs : List Exchange) (e : DataEngine) : Prop where
  record : ∀ name, RecordHistory (e.data.lookup name) (lastValue name records) (writtenValues rj name xs)
    (xs.countP (·.reads name))
  accepted : ∀ x ∈ xs, x.countsWrite → ∃ value, requestValue rj x.request.body = .ok value
  reads : e.reads = .ofNat (xs.countP Exchange.countsRead)
  writes : e.writes = .ofNat (xs.countP Exchange.countsWrite)

theorem served_load (rj : RapidJson) (records : List (Bytes × Bytes)) : Served rj records [] (.load records) where
  record name := recordHistory_load records name
  accepted x hx := by simp at hx
  reads := (DataEngine.load_statistics records).1
  writes := (DataEngine.load_statistics records).2.1

omit [Allocator] in
/-- One more exchange, told by what it adds to the history. -/
private theorem Served.snoc {rj : RapidJson} {records : List (Bytes × Bytes)} {xs : List Exchange} {e e' : DataEngine}
    (h : Served rj records xs e) {x : Exchange}
    (hrecord : ∀ name, RecordHistory (e'.data.lookup name) (lastValue name records)
      (writtenValues rj name xs ++ writtenValues rj name [x])
      (xs.countP (·.reads name) + if x.reads name then 1 else 0))
    (haccepted : x.countsWrite → ∃ value, requestValue rj x.request.body = .ok value)
    (hreads : e'.reads = e.reads + if x.countsRead then 1 else 0)
    (hwrites : e'.writes = e.writes + if x.countsWrite then 1 else 0) : Served rj records (xs ++ [x]) e' where
  record name := by
    rw [writtenValues, List.filterMap_append, List.countP_append, List.countP_singleton]
    exact hrecord name
  accepted y hy := by
    rcases List.mem_append.1 hy with hy | hy
    · exact h.accepted y hy
    · rw [List.mem_singleton.1 hy]
      exact haccepted
  reads := by
    rw [hreads, h.reads, List.countP_append, List.countP_singleton, UInt64.ofNat_add]
    split <;> rfl
  writes := by
    rw [hwrites, h.writes, List.countP_append, List.countP_singleton, UInt64.ofNat_add]
    split <;> rfl

omit [Allocator] in
/-- A request that is answered 400 leaves no trace. -/
private theorem Served.rejected {rj : RapidJson} {records : List (Bytes × Bytes)} {xs : List Exchange} {e : DataEngine}
    (h : Served rj records xs e) {x : Exchange} (hx : x.response.code = 400) : Served rj records (xs ++ [x]) e := by
  apply h.snoc
  · intro k
    simpa [writtenValues, Exchange.writes, Exchange.reads, hx] using h.record k
  all_goals simp [Exchange.countsWrite, Exchange.countsRead, hx]

/-- One more request. -/
theorem Served.handle {rj : RapidJson} {records : List (Bytes × Bytes)} {xs : List Exchange} {e : DataEngine}
    (h : Served rj records xs e) (req : Request) :
    Served rj records (xs ++ [⟨req, (HttpServer.handle rj e req).1⟩]) (HttpServer.handle rj e req).2 := by
  have ho := handle_outcome rj e req
  generalize HttpServer.handle rj e req = result at ho ⊢
  cases ho with
  | unnamed hn => exact h.rejected rfl
  | missing hn hm hv =>
    have hlookup : e.data.lookup req.name = none := by simpa [DataEngine.view] using hv
    apply h.snoc
    · intro k
      rw [DataEngine.get, DataCollection.lookup_get]
      have hk := h.record k
      split
      · rename_i hkd
        subst hkd
        rw [hlookup] at hk ⊢
        simpa [writtenValues, Exchange.writes, Exchange.reads, response, Status.code] using hk
      · simpa [writtenValues, Exchange.writes, Exchange.reads, response, Status.code] using hk
    all_goals simp [Exchange.countsWrite, Exchange.countsRead, response, Status.code, hm, DataEngine.get]
  | found value hn hm hv =>
    obtain ⟨record, hlookup, -⟩ := Option.map_eq_some_iff.1 hv
    apply h.snoc
    · intro k
      rw [DataEngine.get, DataCollection.lookup_get]
      have hk := h.record k
      split
      · rename_i hkd
        subst hkd
        rw [hlookup] at hk ⊢
        simpa [writtenValues, Exchange.writes, Exchange.reads, response, Status.code, hm] using hk.read
      · rename_i hkd
        simpa [writtenValues, Exchange.writes, Exchange.reads, response, Status.code, hm, Ne.symm hkd] using hk
    all_goals simp [Exchange.countsWrite, Exchange.countsRead, response, Status.code, hm, DataEngine.get]
  | refused error hn hm hv => exact h.rejected rfl
  | accepted value hn hm hv =>
    apply h.snoc
    · intro k
      rw [DataEngine.set, DataCollection.lookup_set]
      have hk := h.record k
      split
      · rename_i hkd
        subst hkd
        simpa [writtenValues, Exchange.writes, Exchange.reads, response, Status.code, hm, hv, Except.toOption]
          using hk.write value.bytes
      · rename_i hkd
        simpa [writtenValues, Exchange.writes, Exchange.reads, response, Status.code, hm, Ne.symm hkd] using hk
    all_goals simp [Exchange.countsWrite, Exchange.countsRead, response, Status.code, hm, hv, DataEngine.set]

/-- The run lemma. -/
theorem served (rj : RapidJson) (records : List (Bytes × Bytes)) (requests : List Request) :
    Served rj records (serve rj (.load records) requests).1 (serve rj (.load records) requests).2 := by
  induction requests using List.reverseRecOn with
  | nil => exact served_load rj records
  | append_singleton requests req ih =>
    rw [serve_concat]
    exact ih.handle req

omit [Allocator] in
/-- Each POST that was answered 200 has written one value. -/
theorem Served.length_writtenValues {rj : RapidJson} {records : List (Bytes × Bytes)} {xs : List Exchange}
    {e : DataEngine} (h : Served rj records xs e) (name : Bytes) :
    (writtenValues rj name xs).length = xs.countP (·.writes name) := by
  have haccepted := h.accepted
  clear h
  induction xs with
  | nil => rfl
  | cons x xs ih =>
    have hcons : writtenValues rj name (x :: xs) = writtenValues rj name [x] ++ writtenValues rj name xs :=
      List.filterMap_append (l := [x])
    have hrest := ih fun y hy => haccepted y (List.mem_cons_of_mem _ hy)
    rw [hcons, List.length_append, hrest, List.countP_cons, Nat.add_comm]
    by_cases hw : x.writes name
    · have hcounts : x.countsWrite := by
        simp only [Exchange.writes, Exchange.countsWrite, Bool.and_eq_true] at hw ⊢
        exact ⟨hw.1.1, hw.2⟩
      obtain ⟨value, hv⟩ := haccepted x List.mem_cons_self hcounts
      simp [writtenValues, hw, hv, Except.toOption]
    · simp [writtenValues, hw]

/-- The name was loaded, or a POST on it was answered 200. -/
def Known (records : List (Bytes × Bytes)) (xs : List Exchange) (name : Bytes) : Prop :=
  name ∈ records.map Prod.fst ∨ ∃ x ∈ xs, x.writes name

omit [Allocator] in
theorem Served.view_eq_none_iff {rj : RapidJson} {records : List (Bytes × Bytes)} {xs : List Exchange}
    {e : DataEngine} (h : Served rj records xs e) (name : Bytes) :
    e.view name = none ↔ ¬ Known records xs name := by
  have hwritten : writtenValues rj name xs = [] ↔ ∀ x ∈ xs, ¬ x.writes name := by
    rw [← List.length_eq_zero_iff, h.length_writtenValues, List.countP_eq_zero]
  rw [DataEngine.view, Option.map_eq_none_iff, (h.record name).none_iff, lastValue_eq_none, hwritten, Known, not_or]
  simp

/-- What the API promises of a request that is answered after the exchanges `xs`, by an engine that becomes `e'`. -/
structure MeetsApi (rj : RapidJson) (records : List (Bytes × Bytes)) (xs : List Exchange) (e : DataEngine)
    (req : Request) (reply : Response) (e' : DataEngine) : Prop where
  rejected : reply.code = 400 → e' = e
  posted : req.method = .post → reply.code = 200 → ∃ members value,
    rj.parse (req.body.takeWhile (· ≠ 0)) = some (.object members) ∧
    findMember (ascii "value") members = some (.string value) ∧ e' = e.set req.name value.bytes
  notPosted : req.method = .post → reply.code ≠ 200 → e' = e
  found : req.method = .get → (reply.code = 200 ↔ Known records xs req.name)
  notFound : req.method = .get → (reply.code = 404 ↔ ¬ Known records xs req.name)
  reported : req.method = .get → reply.code = 200 → ∃ value,
    (writtenValues rj req.name xs).getLast?.or (lastValue req.name records) = some value ∧
    reply = response rj .ok (recordBody req.name ⟨value,
      ⟨.ofNat (1 + xs.countP (·.reads req.name)), .ofNat (xs.countP (·.writes req.name))⟩⟩)
  keepsValues : req.method = .get → ∀ name, e'.data.valueOf name = e.data.valueOf name
  reads : e'.reads = .ofNat ((xs ++ [Exchange.mk req reply]).countP Exchange.countsRead)
  writes : e'.writes = .ofNat ((xs ++ [Exchange.mk req reply]).countP Exchange.countsWrite)

/-- Each request of a sequence meets the API. -/
theorem requests_meet_api (rj : RapidJson) (records : List (Bytes × Bytes)) (before : List Request) (req : Request)
    (hraw : req.nameRaw ≠ []) :
    MeetsApi rj records (serve rj (.load records) before).1 (serve rj (.load records) before).2 req
      (handle rj (serve rj (.load records) before).2 req).1 (handle rj (serve rj (.load records) before).2 req).2 := by
  have h := served rj records before
  generalize serve rj (.load records) before = s at h ⊢
  obtain ⟨xs, e⟩ := s
  have hafter := h.handle req
  have hknown := h.view_eq_none_iff req.name
  have ho := handle_outcome rj e req
  have hname : req.name ≠ [] := urlDecode_ne_nil hraw
  dsimp only at *
  generalize handle rj e req = result at ho hafter ⊢
  cases ho with
  | unnamed hn => exact absurd hn hname
  | missing hn hm hv =>
    have hn := hknown.1 hv
    refine ⟨?_, ?_, ?_, ?_, ?_, ?_, fun _ name => DataCollection.valueOf_get _ _ _, hafter.reads, hafter.writes⟩
    all_goals simp [response, Status.code, hm, hn]
  | found value hn hm hv =>
    have hk : Known records xs req.name := by
      by_contra hk
      rw [hknown.2 hk] at hv
      cases hv
    refine ⟨?_, ?_, ?_, ?_, ?_, fun _ _ => ?_, fun _ name => DataCollection.valueOf_get _ _ _, hafter.reads,
      hafter.writes⟩
    case refine_6 =>
      obtain ⟨record, hr, rfl⟩ := Option.map_eq_some_iff.1 hv
      obtain ⟨hvalue, hwrites, hreads⟩ := (h.record req.name).found record hr
      refine ⟨record.value.value, hvalue.symm, ?_⟩
      rw [← h.length_writtenValues, ← hwrites, UInt64.ofNat_add, ← hreads, UInt64.add_comm]
      rfl
    all_goals simp [response, Status.code, hm, hk]
  | refused error hn hm hv =>
    refine ⟨fun _ => rfl, ?_, fun _ _ => rfl, ?_, ?_, ?_, ?_, hafter.reads, hafter.writes⟩
    all_goals simp [response, Status.code, hm]
  | accepted value hn hm hv =>
    obtain ⟨members, hparse, hfind⟩ := requestValue_ok_iff.1 hv
    refine ⟨?_, fun _ _ => ⟨members, value, hparse, hfind, rfl⟩, ?_, ?_, ?_, ?_, ?_, hafter.reads, hafter.writes⟩
    all_goals simp [response, Status.code, hm]

end History

section Runs

attribute [local instance] Allocator.exact

private def postBody : Bytes := JsonText.write (.ofStrings [(.ref (ascii "value"), .ref (ascii "2"))])

private theorem requestValue_postBody : requestValue JsonText.library postBody = .ok (.ref (ascii "2")) := by
  have hstring : postBody.takeWhile (· ≠ 0) = postBody := by decide
  rw [requestValue_ok_iff, hstring]
  exact ⟨_, JsonText.parsesOwnText _, rfl⟩

/-- A record that was loaded is written under one spelling of its name and read under two. -/
theorem get_after_post : ∃ xs e,
    serve JsonText.library (.load [(ascii "a b", ascii "1")])
      [⟨.post, ascii "a%20b", postBody⟩, ⟨.get, ascii "a%20b", []⟩] = (xs, e) ∧
    (handle JsonText.library e ⟨.get, ascii "a+b", []⟩).1 =
      response JsonText.library .ok (recordBody (ascii "a b") ⟨ascii "2", ⟨2, 1⟩⟩) := by
  have hpost : handle JsonText.library (.load [(ascii "a b", ascii "1")]) ⟨.post, ascii "a%20b", postBody⟩ =
      (response JsonText.library .ok (nameBody (ascii "a b")),
        (DataEngine.load [(ascii "a b", ascii "1")]).set (ascii "a b") (ascii "2")) := by
    unfold handle postHandler
    rw [requestValue_postBody]
    rfl
  have hserve : serve JsonText.library (.load [(ascii "a b", ascii "1")])
      [⟨.post, ascii "a%20b", postBody⟩, ⟨.get, ascii "a%20b", []⟩] =
        ([⟨⟨.post, ascii "a%20b", postBody⟩, response JsonText.library .ok (nameBody (ascii "a b"))⟩,
          ⟨⟨.get, ascii "a%20b", []⟩,
            response JsonText.library .ok (recordBody (ascii "a b") ⟨ascii "2", ⟨1, 1⟩⟩)⟩],
        (((DataEngine.load [(ascii "a b", ascii "1")]).set (ascii "a b") (ascii "2")).get (ascii "a b")).2) := by
    rw [serve, List.foldl_cons, hpost]
    rfl
  have hmeets := requests_meet_api JsonText.library [(ascii "a b", ascii "1")]
    [⟨.post, ascii "a%20b", postBody⟩, ⟨.get, ascii "a%20b", []⟩] ⟨.get, ascii "a+b", []⟩ (by decide)
  rw [hserve] at hmeets
  refine ⟨_, _, hserve, ?_⟩
  obtain ⟨value, hvalue, hreply⟩ := hmeets.reported rfl (by decide)
  simp only [writtenValues, List.filterMap, requestValue_postBody] at hvalue
  obtain rfl : ascii "2" = value := Option.some.inj hvalue
  exact hreply

end Runs

end HttpServer

end KeyValueServer
