import KeyValueServer.Concurrency.Reordering
import KeyValueServer.HttpHistory
import KeyValueServer.SavedFile

/-!
# Requests on different names commute

Each name has its own record, and a request looks at and changes the record of its name alone (`handle_answer`).  So
the reply to a request depends on the requests on the same name in front of it, and two sequences that agree on each
name, whatever the order of requests on different names, have the same replies, the same records and the same
counters (`requests_commute`).  The records may be enumerated in different orders when they are saved; the files are
loaded into equal engines all the same.
-/

namespace KeyValueServer

open Concurrency DataSerializer

namespace HttpServer

/-- `CROW_HTTP_MAX_HEADER_SIZE`: Crow rejects a longer header, and with it a longer URL. -/
def maxHeaderSize : Nat := 80 * 1024

/-- What the route `/api/records/<string>` admits. -/
structure Request.Routed (req : Request) : Prop where
  nonempty : req.nameRaw ≠ []
  noSlash : 47 ∉ req.nameRaw
  length_le : req.nameRaw.length ≤ maxHeaderSize

theorem Request.Routed.length_name_lt {req : Request} (h : req.Routed) : req.name.length < sizeTypeRange := by
  have hdecoded := HttpServerHelpers.length_urlDecode_le req.nameRaw
  have hraw := h.length_le
  have hsize : maxHeaderSize < sizeTypeRange := by decide
  rw [Request.name]
  omega

/-- The record of a name after the requests on it. -/
def recordAfter (rj : RapidJson) (o : Option ExtendedValue) (requests : List Request) : Option ExtendedValue :=
  requests.foldl (fun o req => (answer rj o req).2) o

/-- A GET that reaches the engine. -/
def Request.readsEngine (req : Request) : Bool := req.method = .get && req.name ≠ []

/-- A POST that reaches the engine. -/
def Request.writesEngine (rj : RapidJson) (req : Request) : Bool :=
  req.method = .post && req.name ≠ [] && (requestValue rj req.body).toOption.isSome

section Order

variable [Allocator] (rj : RapidJson)

/-- The record of a name depends on the requests on this name alone. -/
theorem view_serve (e : DataEngine) (requests : List Request) (name : Bytes) :
    (serve rj e requests).2.view name = recordAfter rj (e.view name) (requests.filter fun req => req.name = name) := by
  induction requests using List.reverseRecOn with
  | nil => rfl
  | append_singleton requests req ih =>
    rw [serve_concat, (handle_answer rj _ req).2, List.filter_append]
    by_cases h : name = req.name
    · subst h
      rw [if_pos rfl, ih, List.filter_singleton]
      simp [recordAfter]
    · rw [if_neg h, ih]
      simp [Ne.symm h]

theorem length_serve (e : DataEngine) (requests : List Request) : (serve rj e requests).1.length = requests.length := by
  rw [← List.length_map (f := Exchange.request), serve_requests]

/-- The reply to the request at place `i` is the one that the record of its name gives. -/
theorem getElem?_serve (e : DataEngine) (requests : List Request) (i : Fin requests.length) :
    (serve rj e requests).1[i.1]? = some ⟨requests.get i,
      (answer rj ((serve rj e (requests.take i)).2.view (requests.get i).name) (requests.get i)).1⟩ := by
  induction requests using List.reverseRecOn with
  | nil => exact i.elim0
  | append_singleton requests req ih =>
    obtain ⟨i, hi⟩ := i
    rw [serve_concat]
    by_cases hlast : i < requests.length
    · rw [List.getElem?_append_left (by rwa [length_serve]), ih ⟨i, hlast⟩]
      simp [List.take_append_of_le_length (Nat.le_of_lt hlast), List.getElem_append_left hlast]
    · have hlen : i = requests.length := by
        rw [List.length_append, List.length_singleton] at hi
        omega
      subst hlen
      have hlength := length_serve rj e requests
      simp [← hlength, handle_answer]

theorem counters_handle (e : DataEngine) (req : Request) :
    (handle rj e req).2.reads = e.reads + (if req.readsEngine then 1 else 0) ∧
      (handle rj e req).2.writes = e.writes + if req.writesEngine rj then 1 else 0 := by
  have ho := handle_outcome rj e req
  generalize handle rj e req = result at ho ⊢
  cases ho with
  | unnamed hn => simp [Request.readsEngine, Request.writesEngine, hn]
  | missing hn hm hv => simp [Request.readsEngine, Request.writesEngine, hn, hm, DataEngine.get]
  | found value hn hm hv => simp [Request.readsEngine, Request.writesEngine, hn, hm, DataEngine.get]
  | refused error hn hm hv => simp [Request.readsEngine, Request.writesEngine, hm, hv, Except.toOption]
  | accepted value hn hm hv =>
    simp [Request.readsEngine, Request.writesEngine, hn, hm, hv, Except.toOption, DataEngine.set]

theorem counters_serve (e : DataEngine) (requests : List Request) :
    (serve rj e requests).2.reads = e.reads + .ofNat (requests.countP Request.readsEngine) ∧
      (serve rj e requests).2.writes = e.writes + .ofNat (requests.countP (Request.writesEngine rj)) := by
  induction requests using List.reverseRecOn with
  | nil => exact ⟨(UInt64.add_zero _).symm, (UInt64.add_zero _).symm⟩
  | append_singleton requests req ih =>
    obtain ⟨hreads, hwrites⟩ := counters_handle rj (serve rj e requests).2 req
    rw [serve_concat, hreads, hwrites, ih.1, ih.2, List.countP_append, List.countP_append, List.countP_singleton,
      List.countP_singleton, UInt64.ofNat_add, UInt64.ofNat_add, UInt64.add_assoc, UInt64.add_assoc]
    constructor
    · split <;> rfl
    · split <;> rfl

omit [Allocator] in
theorem short_iff_view {e : DataEngine} : e.data.Short ↔ ∀ name value, e.view name = some value →
    name.length < sizeTypeRange ∧ value.value.length < sizeTypeRange := by
  constructor
  · intro h name value hv
    obtain ⟨record, hr, rfl⟩ := Option.map_eq_some_iff.1 hv
    have hrecord := h name record hr
    rw [← StdString.length_value] at hrecord
    exact hrecord
  · intro h name record hr
    have hrecord := h name ⟨record.value.value, ⟨record.reads, record.writes⟩⟩ (by simp [DataEngine.view, hr])
    rw [← StdString.length_value]
    exact hrecord

private theorem short_get {e : DataEngine} (h : e.data.Short) (name : Bytes) : (e.get name).2.data.Short := by
  rw [short_iff_view] at h ⊢
  intro k value hv
  rw [DataEngine.view_get] at hv
  split at hv
  · rename_i hk
    obtain ⟨old, hold, rfl⟩ := Option.map_eq_some_iff.1 hv
    rw [hk]
    exact h name old hold
  · exact h k value hv

/-- Requests through the route keep all names and values short. -/
theorem short_handle {e : DataEngine} (h : e.data.Short) {req : Request} (hreq : req.Routed) :
    (handle rj e req).2.data.Short := by
  have ho := handle_outcome rj e req
  generalize handle rj e req = result at ho ⊢
  cases ho with
  | unnamed hn => exact h
  | missing hn hm hv => exact short_get h req.name
  | found value hn hm hv => exact short_get h req.name
  | refused error hn hm hv => exact h
  | accepted value hn hm hv =>
    rw [short_iff_view] at h ⊢
    intro k v hview
    rw [DataEngine.view_set] at hview
    split at hview
    · rename_i hk
      obtain rfl := Option.some.inj hview
      refine ⟨by rw [hk]; exact hreq.length_name_lt, ?_⟩
      cases e.view req.name <;> exact value.length_lt
    · exact h k v hview

theorem short_serve {e : DataEngine} (h : e.data.Short) {requests : List Request}
    (hroute : ∀ req ∈ requests, req.Routed) : (serve rj e requests).2.data.Short := by
  induction requests using List.reverseRecOn with
  | nil => exact h
  | append_singleton requests req ih =>
    rw [serve_concat]
    exact short_handle rj (ih fun r hr => hroute r (List.mem_append_left _ hr)) (hroute req (by simp))

/-- The engine that the program starts with, whatever the file holds, has short names and values. -/
theorem short_loadedEngine (file : Option Bytes) : (BackgroundWorker.loadedEngine rj file).data.Short := by
  rw [BackgroundWorker.loadedEngine_eq, short_iff_view]
  intro name value hv
  have hvalue : (DataEngine.load (loadedRecords rj file)).data.valueOf name = some value.value := by
    obtain ⟨record, hr, rfl⟩ := Option.map_eq_some_iff.1 hv
    exact DataCollection.valueOf_of_lookup hr
  rw [valueOf_load] at hvalue
  exact length_of_loadedRecords (mem_of_lastValue hvalue)

/-- Two orders of requests that agree on each name: every request has the same reply, every record the same value and
statistics, the global statistics are the same, and the files that are saved in the end are loaded into equal
engines. -/
theorem requests_commute (hp : rj.ParsesOwnText) (file : Option Bytes) {xs ys : List Request}
    (r : Reordering Request.name xs ys) (hroute : ∀ req ∈ xs, req.Routed) :
    let sx := serve rj (BackgroundWorker.loadedEngine rj file) xs
    let sy := serve rj (BackgroundWorker.loadedEngine rj file) ys
    (∀ i, ∃ x : Exchange, x.request = xs.get i ∧ sx.1[i.1]? = some x ∧ sy.1[(r.place i).1]? = some x) ∧
    (∀ name, sx.2.view name = sy.2.view name) ∧
    sx.2.getGlobalStatistics = sy.2.getGlobalStatistics ∧
    ∀ xOrder yOrder, sx.2.data.IterationOrder xOrder → sy.2.data.IterationOrder yOrder →
      BackgroundWorker.loadedEngine rj (BackgroundWorker.storeData rj sx.2 xOrder).2 =
        BackgroundWorker.loadedEngine rj (BackgroundWorker.storeData rj sy.2 yOrder).2 := by
  have hshort := short_loadedEngine rj file
  generalize BackgroundWorker.loadedEngine rj file = e at hshort ⊢
  intro sx sy
  have hview : ∀ name, (serve rj e xs).2.view name = (serve rj e ys).2.view name := by
    intro name
    rw [view_serve, view_serve, r.filter_eq]
  refine ⟨fun i => ?_, hview, ?_, fun xOrder yOrder hx hy => ?_⟩
  · refine ⟨_, rfl, getElem?_serve rj e xs i, ?_⟩
    rw [getElem?_serve, r.same, view_serve, view_serve, r.filter_take_eq]
  · obtain ⟨hxReads, hxWrites⟩ := counters_serve rj e xs
    obtain ⟨hyReads, hyWrites⟩ := counters_serve rj e ys
    rw [DataEngine.getGlobalStatistics, DataEngine.getGlobalStatistics, hxReads, hxWrites, hyReads, hyWrites,
      r.perm.countP_eq, r.perm.countP_eq]
  · have hyRoute : ∀ req ∈ ys, req.Routed := fun req hreq => hroute req (r.perm.mem_iff.2 hreq)
    rw [BackgroundWorker.storeData_eq rj hx, BackgroundWorker.storeData_eq rj hy]
    apply (snapshot_documentRecords rj hx (short_serve rj hshort hroute)).load_congr hp
      (snapshot_documentRecords rj hy (short_serve rj hshort hyRoute))
    intro name
    have hv := congrArg (Option.map ExtendedValue.value) (hview name)
    simpa [DataEngine.view, DataCollection.valueOf, Function.comp_def] using hv

end Order

section Runs

attribute [local instance] Allocator.exact

private def postA : Request where
  method := .post
  nameRaw := ascii "a"
  body := JsonText.write (.ofStrings [(.ref (ascii "value"), .ref (ascii "1"))])

private def getB : Request where
  method := .get
  nameRaw := ascii "%62"
  body := []

private def exchanged : Reordering Request.name [postA, getB] [getB, postA] where
  place := Equiv.swap (0 : Fin 2) 1
  same := by decide
  ordered := by decide

/-- A write of one record and a read of another, in both orders. -/
theorem post_get_exchanged : ∃ x : Exchange, x.request = postA ∧
    (serve JsonText.library (BackgroundWorker.loadedEngine JsonText.library none) [postA, getB]).1[0]? = some x ∧
    (serve JsonText.library (BackgroundWorker.loadedEngine JsonText.library none) [getB, postA]).1[1]? = some x := by
  have hroute : ∀ req ∈ [postA, getB], req.Routed := by
    intro req hreq
    rcases List.mem_cons.1 hreq with rfl | hreq
    · exact ⟨by decide, by decide, by decide⟩
    · rw [List.mem_singleton.1 hreq]
      exact ⟨by decide, by decide, by decide⟩
  exact (requests_commute JsonText.library JsonText.parsesOwnText none exchanged hroute).1 (0 : Fin 2)

end Runs

end HttpServer

end KeyValueServer
