import KeyValueServer.Concurrency.AtomicObject
import KeyValueServer.FinishedEngine
import KeyValueServer.HttpHistory

/-!
# The server under concurrent requests

Crow runs the handlers on several threads.  A thread takes a request, decodes its name and reads its body, calls the
engine or refuses the request, and replies when the call has returned (`HandlerPc`), unless the connection is closed
before that; the points of the calls of all threads are interleaved as the engine allows it, beside the calls of the
worker.  Seen from the clients this is one engine that handles whole requests, each at one moment
(`http_linearizable`): a request that is refused takes its place when it is refused, and every other request where its
call takes its place in the engine.
-/

namespace KeyValueServer

open Concurrency HttpServerHelpers

/-- The calls of the threads that are not handling requests. -/
def Op.Background : Op → Prop
  | .enumerate | .getGlobalStatistics | .storeData => True
  | _ => False

theorem EngineSpec.eq_of_background [Allocator] {e e' : DataEngine} {op : Op} {res : Result}
    (h : EngineSpec e op res e') (hop : op.Background) : e' = e := by
  obtain ⟨data, reads, writes⟩ := e
  obtain ⟨data', reads', writes'⟩ := e'
  obtain ⟨hdata, hreads, hwrites⟩ := h
  have hsame : data' = data ∧ reads' = reads + 0 ∧ writes' = writes + 0 := by
    cases op with
    | get | set | initialSet => exact hop.elim
    | enumerate =>
      cases res with
      | visited => exact ⟨hdata.1, hreads, hwrites⟩
      | _ => exact hdata.elim
    | getGlobalStatistics =>
      cases res with
      | statistics => exact ⟨hdata, hreads, hwrites⟩
      | _ => exact hdata.elim
    | storeData =>
      cases res with
      | stored => exact ⟨hdata, hreads, hwrites⟩
      | _ => exact hdata.elim
  rw [hsame.1, hsame.2.1, hsame.2.2, UInt64.add_zero, UInt64.add_zero]

namespace HttpServer

/-! ### A handler before and after its call -/

/-- What a handler does before it calls the engine: it refuses the request, or knows its call. -/
def Request.call (rj : RapidJson) (req : Request) : Except Response Op :=
  if req.name = [] then .error (response rj .badRequest (errorBody req.name emptyName))
  else
    match req.method with
    | .get => .ok (.get req.name)
    | .post =>
      match requestValue rj req.body with
      | .error error => .error (response rj .badRequest (errorBody req.name error))
      | .ok value => .ok (.set req.name value.bytes)

/-- The reply to a request whose call has returned. -/
def Request.replyTo (rj : RapidJson) (req : Request) : Result → Response
  | .found none => response rj .notFound (errorBody req.name (ascii "Item not found"))
  | .found (some value) => response rj .ok (recordBody req.name value)
  | _ => response rj .ok (nameBody req.name)

theorem Request.call_ok {rj : RapidJson} {req : Request} {op : Op} (h : req.call rj = .ok op) :
    req.name ≠ [] ∧ ((req.method = .get ∧ op = .get req.name) ∨
      ∃ value, req.method = .post ∧ requestValue rj req.body = .ok value ∧ op = .set req.name value.bytes) := by
  unfold Request.call at h
  split at h
  · cases h
  · rename_i hname
    refine ⟨hname, ?_⟩
    split at h
    · rename_i hm
      cases h
      exact Or.inl ⟨hm, rfl⟩
    · rename_i hm
      split at h
      · cases h
      · rename_i value hvalue
        cases h
        exact Or.inr ⟨value, hm, hvalue, rfl⟩

section Handlers

variable [Allocator]

/-- A request that is refused does not touch the engine. -/
theorem handle_of_refused {rj : RapidJson} {req : Request} {reply : Response} (h : req.call rj = .error reply)
    (e : DataEngine) : handle rj e req = (reply, e) := by
  have ho := handle_outcome rj e req
  generalize handle rj e req = result at ho ⊢
  have hrefused : ∀ {o : Op}, req.call rj ≠ .ok o := by
    intro o hop
    rw [h] at hop
    cases hop
  cases ho with
  | unnamed hn =>
    rw [Request.call, if_pos hn] at h
    cases h
    rfl
  | missing hn hm | found value hn hm =>
    exact absurd (by rw [Request.call, if_neg hn, hm]) (hrefused (o := .get req.name))
  | refused error hn hm hv =>
    rw [Request.call, if_neg hn, hm] at h
    simp only [hv] at h
    cases h
    rfl
  | accepted value hn hm hv =>
    refine absurd ?_ (hrefused (o := .set req.name value.bytes))
    rw [Request.call, if_neg hn, hm]
    simp only [hv]

/-- A request is handled by its call. -/
theorem handle_of_called {rj : RapidJson} {req : Request} {op : Op} (h : req.call rj = .ok op) {e e' : DataEngine}
    {res : Result} (hs : EngineSpec e op res e') : handle rj e req = (req.replyTo rj res, e') := by
  obtain ⟨hname, ⟨hm, rfl⟩ | ⟨value, hm, hvalue, rfl⟩⟩ := req.call_ok h
  · have hdecode : urlDecode req.nameRaw ≠ [] := hname
    obtain ⟨hdata, hreads, hwrites⟩ := hs
    cases res with
    | found value =>
      have hdata : e.data.get req.name = (value, e'.data) := hdata
      have hget : e.get req.name = (value, e') := by
        rw [DataEngine.get, hdata]
        obtain ⟨data, reads, writes⟩ := e'
        simp only [Op.isGet, Op.isSet, Bool.toNat_true, Bool.toNat_false] at hreads hwrites
        rw [hreads, hwrites]
        exact congrArg _ (congrArg _ (UInt64.add_zero _).symm)
      have hget' : e.get (urlDecode req.nameRaw) = (value, e') := hget
      rw [handle, hm]
      simp only [getHandler, if_neg hdecode, hget']
      cases value <;> rfl
    | _ => exact hdata.elim
  · have hdecode : urlDecode req.nameRaw ≠ [] := hname
    obtain ⟨hdata, hreads, hwrites⟩ := hs
    cases res with
    | done =>
      have hset : e.set req.name value.bytes = e' := by
        obtain ⟨data, reads, writes⟩ := e'
        have hdata : data = e.data.set req.name value.bytes := hdata
        simp only [Op.isGet, Op.isSet, Bool.toNat_true, Bool.toNat_false] at hreads hwrites
        rw [hdata, hreads, hwrites, DataEngine.set]
        congr 1
        exact (UInt64.add_zero _).symm
      have hset' : e.set (urlDecode req.nameRaw) value.bytes = e' := hset
      rw [handle, hm]
      simp only [postHandler, if_neg hdecode, hvalue, hset']
      rfl
    | _ => exact hdata.elim

end Handlers

/-! ### The threads -/

/-- Where a thread of the server is with its request. -/
inductive HandlerPc
  | idle
  | received (number : Nat) (req : Request)
  | calling (number : Nat) (req : Request)
  | replying (number : Nat) (req : Request) (reply : Response)

/-- The engine with its threads, and the requests that the threads are handling; requests are numbered in the order in
which they are received. -/
structure Server (T : Type) where
  requests : Nat
  handler : T → HandlerPc
  world : World T

inductive ServerLabel (T : Type)
  | receive (t : T) (number : Nat) (req : Request)
  | refuse (t : T) (number : Nat)
  | engine (l : Label T)
  | reply (t : T) (number : Nat) (reply : Response)
  | lose (t : T) (number : Nat)

section Threads

variable {T : Type} [DecidableEq T] [Allocator]

def Server.setHandler (s : Server T) (t : T) (pc : HandlerPc) : Server T :=
  { s with handler := Function.update s.handler t pc }

inductive ServerStep (rj : RapidJson) : Server T → ServerLabel T → Server T → Prop
  | receive {s : Server T} {t : T} (req : Request) :
      s.handler t = .idle → s.world.thread t = .idle →
      ServerStep rj s (.receive t s.requests req)
        { s with requests := s.requests + 1, handler := Function.update s.handler t (.received s.requests req) }
  | refuse {s : Server T} {t : T} {number : Nat} {req : Request} {reply : Response} :
      s.handler t = .received number req → req.call rj = .error reply →
      ServerStep rj s (.refuse t number) (s.setHandler t (.replying number req reply))
  | call {s : Server T} {t : T} {number c : Nat} {req : Request} {op : Op} {w : World T} :
      s.handler t = .received number req → req.call rj = .ok op → Step rj s.world (.invoke t c op) w →
      ServerStep rj s (.engine (.invoke t c op)) { s.setHandler t (.calling number req) with world := w }
  | exec {s : Server T} {t : T} {c : Nat} {pc : Pc} {w : World T} :
      Step rj s.world (.exec t c pc) w → ServerStep rj s (.engine (.exec t c pc)) { s with world := w }
  | finish {s : Server T} {t : T} {number c : Nat} {req : Request} {op : Op} {result : Result} {w : World T} :
      s.handler t = .calling number req → Step rj s.world (.ret t c op result) w →
      ServerStep rj s (.engine (.ret t c op result))
        { s.setHandler t (.replying number req (req.replyTo rj result)) with world := w }
  | reply {s : Server T} {t : T} {number : Nat} {req : Request} {reply : Response} :
      s.handler t = .replying number req reply →
      ServerStep rj s (.reply t number reply) (s.setHandler t .idle)
  -- the connection is closed before the reply is written
  | lose {s : Server T} {t : T} {number : Nat} {req : Request} {reply : Response} :
      s.handler t = .replying number req reply → ServerStep rj s (.lose t number) (s.setHandler t .idle)
  -- a thread that handles no request calls the engine
  | background {s : Server T} {l : Label T} {w : World T} :
      s.handler l.thread = .idle → (∀ t c pc, l ≠ .exec t c pc) → l.Calls (fun _ op => op.Background) →
      Step rj s.world l w → ServerStep rj s (.engine l) { s with world := w }

def Server.start (T : Type) (engine : DataEngine) (file : Option Bytes) : Server T where
  requests := 0
  handler _ := .idle
  world := World.start T engine file

/-- A step of the server is a step of the engine, or leaves it alone. -/
theorem ServerStep.world {rj : RapidJson} {s s' : Server T} {l : ServerLabel T} (h : ServerStep rj s l s') :
    s'.world = s.world ∨ ∃ l', StepAfterLoading rj s.world l' s'.world := by
  cases h with
  | receive | refuse | reply | lose => exact Or.inl rfl
  | @call t number c req op w hh hop hs =>
    refine Or.inr ⟨_, hs, ?_⟩
    obtain ⟨-, ⟨-, rfl⟩ | ⟨value, -, -, rfl⟩⟩ := req.call_ok hop <;> exact trivial
  | exec hs => exact Or.inr ⟨_, hs, trivial⟩
  | finish hh hs => exact Or.inr ⟨_, hs, trivial⟩
  | @background l w hh hne hl hs =>
    refine Or.inr ⟨l, hs, hl.mono fun t op hop => ?_⟩
    cases op with
    | initialSet => exact hop.elim
    | _ => exact trivial

/-- Seen from the engine, a run of the server is a run of calls. -/
theorem Run.world {rj : RapidJson} {engine : DataEngine} {file : Option Bytes} {ls : List (ServerLabel T)}
    {s : Server T} (h : Run (ServerStep rj) (.start T engine file) ls s) :
    ∃ ls', Run (StepAfterLoading rj) (World.start T engine file) ls' s.world := by
  refine Run.invariant (fun _ s => ∃ ls', Run (StepAfterLoading rj) (World.start T engine file) ls' s.world)
    ⟨[], .nil⟩ ?_ h
  rintro _ s l s' ⟨ls', hrun⟩ hs
  rcases hs.world with he | ⟨l', hl'⟩
  · exact ⟨ls', he ▸ hrun⟩
  · exact ⟨_, hrun.snoc hl'⟩

/-- What a thread does in the engine fits what it does with its request. -/
def HandlerPc.Fits (rj : RapidJson) (th : Thread) : HandlerPc → Prop
  | .idle => ∀ c pc, th = .running c pc → pc.op.Background
  | .received _ _ | .replying _ _ _ => th = .idle
  | .calling _ req => ∃ c pc, th = .running c pc ∧ req.call rj = .ok pc.op

def Server.Coherent (rj : RapidJson) (s : Server T) : Prop := ∀ t, (s.handler t).Fits rj (s.world.thread t)

omit [DecidableEq T] [Allocator] in
theorem Server.coherent_start (rj : RapidJson) (engine : DataEngine) (file : Option Bytes) :
    (Server.start T engine file).Coherent rj := by
  intro t c pc h
  cases h

theorem ServerStep.coherent {rj : RapidJson} {s s' : Server T} {l : ServerLabel T} (h : ServerStep rj s l s')
    (hc : s.Coherent rj) : s'.Coherent rj := by
  intro t'
  have hfits := hc t'
  cases h with
  | @receive t req hh ht =>
    by_cases hne : t' = t
    · subst hne
      simpa [HandlerPc.Fits] using ht
    · simpa [hne] using hfits
  | @refuse t number req reply hh hr =>
    by_cases hne : t' = t
    · subst hne
      rw [hh] at hfits
      simpa [Server.setHandler, HandlerPc.Fits] using hfits
    · simpa [Server.setHandler, hne] using hfits
  | @call t number c req op w hh hop hs =>
    by_cases hne : t' = t
    · subst hne
      show HandlerPc.Fits rj _ (Function.update s.handler t' _ t')
      rw [Function.update_self]
      exact ⟨c, op.start, hs.invoked, by rw [hop, Op.op_start]⟩
    · have hsame := hs.thread_of_ne hne
      show HandlerPc.Fits rj (w.thread t') (Function.update s.handler t _ t')
      rw [Function.update_of_ne hne, hsame]
      exact hfits
  | @exec t c pc w hs =>
    show (s.handler t').Fits rj (w.thread t')
    by_cases hne : t' = t
    · subst hne
      have hrunning := hs.running
      cases hs with
      | @exec _ _ _ pc' m' ht he =>
        show (s.handler t').Fits rj (Function.update s.world.thread t' _ t')
        rw [Function.update_self]
        rw [hrunning] at hfits
        cases hh : s.handler t' with
        | idle =>
          rw [hh] at hfits
          intro c₁ pc₁ hpc
          cases hpc
          rw [he.op_eq]
          exact hfits _ _ rfl
        | calling number req =>
          rw [hh] at hfits
          obtain ⟨c₁, pc₁, hpc, hop⟩ := hfits
          cases hpc
          exact ⟨_, _, rfl, he.op_eq ▸ hop⟩
        | received number req =>
          rw [hh] at hfits
          cases hfits
        | replying number req reply =>
          rw [hh] at hfits
          cases hfits
    · have hsame : w.thread t' = s.world.thread t' := hs.thread_of_ne hne
      rw [hsame]
      exact hfits
  | @finish t number c req op result w hh hs =>
    by_cases hne : t' = t
    · subst hne
      show HandlerPc.Fits rj _ (Function.update s.handler t' _ t')
      rw [Function.update_self]
      cases hs with
      | ret ht => exact Function.update_self ..
    · have hsame := hs.thread_of_ne hne
      show HandlerPc.Fits rj (w.thread t') (Function.update s.handler t _ t')
      rw [Function.update_of_ne hne, hsame]
      exact hfits
  | @reply t number req reply hh | @lose t number req reply hh =>
    by_cases hne : t' = t
    · subst hne
      rw [hh] at hfits
      have hidle : s.world.thread t' = .idle := hfits
      simp [Server.setHandler, HandlerPc.Fits, hidle]
    · simpa [Server.setHandler, hne] using hfits
  | @background l w hh hne hl hs =>
    show (s.handler t').Fits rj (w.thread t')
    by_cases hthread : t' = l.thread
    · subst hthread
      rw [hh]
      intro c pc hpc
      cases hs with
      | invoke op ht =>
        rw [Label.thread] at hpc
        cases (Function.update_self ..).symm.trans hpc
        rw [Op.op_start]
        exact hl
      | exec => exact absurd rfl (hne _ _ _)
      | ret ht =>
        rw [Label.thread] at hpc
        cases (Function.update_self ..).symm.trans hpc
    · have hsame : w.thread t' = s.world.thread t' := hs.thread_of_ne hthread
      rw [hsame]
      exact hfits

/-! ### Whole requests -/

/-- What is seen of a step from the clients. -/
def ServerLabel.event : ServerLabel T → Option (Event Request Response)
  | .receive _ number req => some (.invoke number req)
  | .reply _ number r => some (.ret number r)
  | _ => none

/-- The requests and replies of a trace. -/
def requestHistory (ls : List (ServerLabel T)) : List (Event Request Response) :=
  (ls.map ServerLabel.event).reduceOption

/-- Where a thread is with its request, as the clients could see it. -/
def HandlerPc.phase (rj : RapidJson) (committed : Option Result) : HandlerPc → CallPhase Request Response
  | .idle => .idle
  | .received number req => .pending number req
  | .calling number req => committed.elim (.pending number req) fun res => .committed number req (req.replyTo rj res)
  | .replying number req reply => .committed number req reply

variable [Fintype T]

/-- The server as an object that handles whole requests. -/
def Server.object (rj : RapidJson) (s : Server T) : AtomicObject T Request Response DataEngine where
  calls := s.requests
  thread t := (s.handler t).phase rj ((s.world.thread t).committed s.world.memory.data)
  object := s.world.finished

/-- A request is handled alone. -/
def Handles (rj : RapidJson) (e : DataEngine) (req : Request) (reply : Response) (e' : DataEngine) : Prop :=
  handle rj e req = (reply, e')

/-- Every step is seen as one step of the object, or not at all: a request takes its place where it is refused, or where
its call takes its place in the engine. -/
theorem ServerStep.atomic {rj : RapidJson} {s s' : Server T} {l : ServerLabel T} (h : ServerStep rj s l s')
    (hc : s.Coherent rj) (hl : s.world.LockAgrees) (hk : s.world.Knows)
    (hcalls : s.world.Calls fun _ op => op.AfterLoading) :
    AtomicStep (Handles rj) (s.object rj) l.event (s'.object rj) := by
  cases h with
  | @receive t req hh ht =>
    refine AtomicStep.of_invoke (t := t) ?_ ?_ ?_ ?_ ?_
    · rfl
    · simp [Server.object, hh, HandlerPc.phase]
    · simp [Server.object, HandlerPc.phase]
    · intro t' hne
      simp [Server.object, hne]
    · rfl
  | @refuse t number req reply hh hr =>
    refine AtomicStep.of_commit (t := t) (c := number) (o := req) (r := reply) ?_ ?_ ?_ ?_ ?_
    · rfl
    · simp [Server.object, hh, HandlerPc.phase]
    · simp [Server.object, Server.setHandler, HandlerPc.phase]
    · intro t' hne
      simp [Server.object, Server.setHandler, hne]
    · exact handle_of_refused hr _
  | @call t number c req op w hh hop hs =>
    refine AtomicStep.of_internal ?_ (fun t' => ?_) (hs.finished_of_event hl nofun)
    · rfl
    · by_cases hne : t' = t
      · subst hne
        have hnone : op.start.committed w.memory.data = none := by cases op <;> rfl
        simp [Server.object, Server.setHandler, hh, HandlerPc.phase, hs.invoked, Thread.committed, hnone]
      · have hsame := hs.committed_other hl hcalls hne
        simp [Server.object, Server.setHandler, hne, hsame]
  | @exec t c pc w hs =>
    have hrunning := hs.running
    obtain ⟨pc', hrunning', hop', hcases⟩ := hs.finished_of_exec hl hk (hcalls _ _ _ hrunning)
    have hother : ∀ t' ≠ t, (w.thread t').committed w.memory.data =
        (s.world.thread t').committed s.world.memory.data := fun t' hne => hs.committed_other hl hcalls hne
    rcases hcases with ⟨hsame, hfinished⟩ | ⟨result, hbefore, hafter, hspec⟩
    · refine AtomicStep.of_internal ?_ (fun t' => ?_) hfinished
      · rfl
      · by_cases hne : t' = t
        · subst hne
          simp [Server.object, hrunning, hrunning', Thread.committed, hsame]
        · simp [Server.object, hother t' hne]
    · have hfits := hc t
      cases hh : s.handler t with
      | calling number req =>
        rw [hh] at hfits
        obtain ⟨c', pc₁, hpc, hop⟩ := hfits
        cases hrunning.symm.trans hpc
        refine AtomicStep.of_commit (t := t) (c := number) (o := req) (r := req.replyTo rj result) ?_ ?_ ?_ ?_ ?_
        · rfl
        · simp [Server.object, hh, HandlerPc.phase, hrunning, Thread.committed, hbefore]
        · simp [Server.object, hh, HandlerPc.phase, hrunning', Thread.committed, hafter]
        · intro t' hne
          simp [Server.object, hother t' hne]
        · exact handle_of_called hop hspec
      | idle =>
        -- what the other threads call leaves the records as they are
        rw [hh] at hfits
        have hbackground : pc.op.Background := hfits _ _ hrunning
        refine AtomicStep.of_internal ?_ (fun t' => ?_) (hspec.eq_of_background hbackground)
        · rfl
        · by_cases hne : t' = t
          · subst hne
            simp [Server.object, hh, HandlerPc.phase]
          · simp [Server.object, hother t' hne]
      | _ =>
        rw [hh, hrunning] at hfits
        cases hfits
  | @finish t number c req op result w hh hs =>
    refine AtomicStep.of_internal ?_ (fun t' => ?_) (hs.finished_of_event hl nofun)
    · rfl
    · by_cases hne : t' = t
      · subst hne
        simp [Server.object, Server.setHandler, hh, HandlerPc.phase, hs.returning, Thread.committed, Pc.committed]
      · have hsame := hs.committed_other hl hcalls hne
        simp [Server.object, Server.setHandler, hne, hsame]
  | @reply t number req reply hh =>
    refine AtomicStep.of_ret (t := t) (o := req) ?_ ?_ ?_ ?_ ?_
    · rfl
    · simp [Server.object, hh, HandlerPc.phase]
    · simp [Server.object, Server.setHandler, HandlerPc.phase]
    · intro t' hne
      simp [Server.object, Server.setHandler, hne]
    · rfl
  | @lose t number req reply hh =>
    refine AtomicStep.of_lose (t := t) (c := number) (o := req) (r := reply) ?_ ?_ ?_ ?_ ?_
    · rfl
    · simp [Server.object, hh, HandlerPc.phase]
    · simp [Server.object, Server.setHandler, HandlerPc.phase]
    · intro t' hne
      simp [Server.object, Server.setHandler, hne]
    · rfl
  | @background l w hh hne hl' hs =>
    refine AtomicStep.of_internal ?_ (fun t' => ?_) (hs.finished_of_event hl hne)
    · rfl
    · by_cases hthread : t' = l.thread
      · subst hthread
        simp [Server.object, hh, HandlerPc.phase]
      · have hsame := hs.committed_other hl hcalls hthread
        simp [Server.object, hsame]

/-- A run of the server is a run of the object. -/
theorem Run.atomic {rj : RapidJson} {engine : DataEngine} {file : Option Bytes} {ls : List (ServerLabel T)}
    {s : Server T} (h : Run (ServerStep rj) (.start T engine file) ls s) :
    Run (AtomicStep (Handles rj)) (.start T Request Response engine) (ls.map ServerLabel.event) (s.object rj) := by
  have hstart : (Server.start T engine file).object rj = .start T Request Response engine := by
    have hfinished : (World.start T engine file).finished = engine := World.finished_of_idle fun _ => rfl
    show AtomicObject.mk 0 _ (World.start T engine file).finished = _
    rw [hfinished]
    rfl
  rw [← hstart]
  refine Run.simulates (Server.object rj) ServerLabel.event (fun {ls s l s'} hrun hs => ?_) h
  obtain ⟨ls', hworld⟩ := Run.world hrun
  have hcoherent : s.Coherent rj := Run.invariant (fun _ s => s.Coherent rj) (Server.coherent_start rj engine file)
    (fun hi hs => hs.coherent hi) hrun
  exact hs.atomic hcoherent (Run.lockAgrees hworld.unrestrict) (Run.knows hworld.unrestrict)
    (Run.calls (fun _ _ hl => hl) hworld)

/-- The requests of an order that is replayed are answered as if they were served one after the other. -/
theorem Replay.serve {rj : RapidJson} {engine e : DataEngine} {lin : List (Entry Request Response)}
    (h : Replay (Handles rj) engine lin e) :
    HttpServer.serve rj engine (lin.map Entry.op) = (lin.map fun x => ⟨x.op, x.res⟩, e) := by
  induction h with
  | nil => rfl
  | snoc _ hs ih =>
    rw [List.map_append, List.map_singleton, serve_concat, ih, hs, List.map_append, List.map_singleton]

/-- The server is linearizable: for every run of its threads there is an order of the requests, in accordance with real
time, in which the requests, served one after the other, get the replies that they got; and when no call is in progress
the engine, its counters included, is the one that this leaves behind. -/
theorem http_linearizable {rj : RapidJson} {engine : DataEngine} {file : Option Bytes} {ls : List (ServerLabel T)}
    {s : Server T} (h : Run (ServerStep rj) (.start T engine file) ls s) :
    ∃ lin, Linearizes (requestHistory ls) lin ∧
      (serve rj engine (lin.map Entry.op)).1 = lin.map (fun x => ⟨x.op, x.res⟩) ∧
      (serve rj engine (lin.map Entry.op)).2 = s.world.finished ∧
      ((∀ t, s.world.thread t = .idle) → (serve rj engine (lin.map Entry.op)).2 = s.world.memory.engine) := by
  obtain ⟨-, lin, hplaced⟩ := AtomicObject.exists_placed (Run.atomic h)
  have hserve := Replay.serve hplaced.replay
  refine ⟨lin, hplaced.linearizes, ?_, ?_, fun hidle => ?_⟩
  · rw [hserve]
  · rw [hserve]
    rfl
  · rw [hserve]
    exact World.finished_of_idle hidle

end Threads

section Runs

attribute [local instance] Allocator.exact

/-- A request in flight that has read its record, beside one that is refused and answered. -/
theorem http_linearizable_in_flight : ∃ (ls : List (ServerLabel Bool)) (s : Server Bool),
    Run (ServerStep JsonText.library) (.start Bool (.load [(ascii "a", ascii "1")]) none) ls s ∧
      requestHistory ls = [.invoke 0 ⟨.get, ascii "a", []⟩, .invoke 1 ⟨.post, [], []⟩,
        .ret 1 (response JsonText.library .badRequest (errorBody [] emptyName))] ∧
      ∃ lin, Linearizes (requestHistory ls) lin ∧
        (serve JsonText.library (.load [(ascii "a", ascii "1")]) (lin.map Entry.op)).1 =
          lin.map fun x => ⟨x.op, x.res⟩ := by
  have h₀ : Run (ServerStep JsonText.library) (.start Bool (.load [(ascii "a", ascii "1")]) none) [] _ := .nil
  have h₁ := h₀.snoc (.receive (t := false) ⟨.get, ascii "a", []⟩ rfl rfl)
  have h₂ := h₁.snoc (.call (t := false) rfl (show _ = Except.ok (Op.get (ascii "a")) by rfl) (.invoke _ rfl))
  have h₃ := h₂.snoc (.exec (.exec (t := false) rfl (.getLock rfl)))
  have h₄ := h₃.snoc (.receive (t := true) ⟨.post, [], []⟩ rfl rfl)
  have h₅ := h₄.snoc (.exec (.exec (t := false) rfl (.getFindHit rfl)))
  have h₆ := h₅.snoc (.refuse (t := true) rfl rfl)
  have h₇ := h₆.snoc (.exec (.exec (t := false) rfl (.getReads rfl)))
  have h₈ := h₇.snoc (.reply (t := true) rfl)
  obtain ⟨lin, hlin, hserve, -⟩ := http_linearizable h₈
  exact ⟨_, _, h₈, rfl, lin, hlin, hserve⟩

end Runs

end HttpServer

end KeyValueServer
