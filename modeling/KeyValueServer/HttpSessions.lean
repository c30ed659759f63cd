import KeyValueServer.ServerThreads
import KeyValueServer.SessionValues
import KeyValueServer.TimedProgram

/-!
# The service over its sessions

The program with its requests: the threads of the server run beside the worker while the server serves, then `main`
stores the data and exits, and the next start of the program serves from the file that was left (`ServiceStep`: every
step of an engine call is one of the server and one of the program).  Over all sessions there is one order of the
requests, in accordance with real time, in which they are answered as by one server that never stopped, but for the
statistics, which begin anew with each session (`requests_durable`).
-/

namespace KeyValueServer

open Concurrency HttpServerHelpers DataSerializer

namespace HttpServer

/-- What a request makes of the value of its record depends on that value alone. -/
theorem value_answer_congr {rj : RapidJson} {o o' : Option ExtendedValue}
    (h : o.map (fun value => value.value) = o'.map fun value => value.value) (req : Request) :
    (answer rj o req).2.map (fun value => value.value) = (answer rj o' req).2.map fun value => value.value := by
  have hwrite : ∀ (value : Bytes) (o : Option ExtendedValue), (ExtendedValue.write value o).value = value := by
    intro value o
    cases o <;> rfl
  unfold answer
  by_cases hname : req.name = []
  · rw [if_pos hname, if_pos hname]
    exact h
  · rw [if_neg hname, if_neg hname]
    cases req.method with
    | get =>
      cases o <;> cases o' <;> first | rfl | cases h | skip
      exact h
    | post =>
      cases requestValue rj req.body with
      | error error => exact h
      | ok value => simp [hwrite]

/-- What a request does to the values depends on the values alone. -/
theorem values_handle_congr [Allocator] {rj : RapidJson} {e e' : DataEngine} (h : e.values = e'.values)
    (req : Request) : (handle rj e req).2.values = (handle rj e' req).2.values := by
  have hview : ∀ (e : DataEngine) k, e.values k = (e.view k).map fun value => value.value := by
    intro e k
    rw [DataEngine.view, Option.map_map]
    rfl
  have hvalue : ∀ k, (e.view k).map (fun value => value.value) = (e'.view k).map fun value => value.value := by
    intro k
    rw [← hview, ← hview, h]
  funext k
  rw [hview, hview, (handle_answer rj e req).2, (handle_answer rj e' req).2]
  split
  · exact value_answer_congr (hvalue _) req
  · exact hvalue k

/-! ### The program with its requests -/

structure Service (T : Type) where
  phase : Phase
  server : Server T

def Service.system {T : Type} (s : Service T) : System T := ⟨s.phase, s.server.world⟩

inductive ServiceLabel (T : Type)
  | http (l : ServerLabel T)
  | call (l : Label T)
  | serverReturned
  | restart

/-- What an observer of the sessions sees of a step. -/
def ServiceLabel.toMain {T : Type} : ServiceLabel T → Option (MainLabel T)
  | .http _ => none
  | .call l => some (.call l)
  | .serverReturned => some .serverReturned
  | .restart => some .restart

/-- What the clients see of a step. -/
def ServiceLabel.event {T : Type} : ServiceLabel T → Option (Event Request Response)
  | .http l => l.event
  | _ => none

/-- The step is one of a thread with its request, outside the engine. -/
def ServerLabel.OutsideEngine {T : Type} (roles : Roles T) : ServerLabel T → Prop
  | .receive t _ _ | .refuse t _ | .reply t _ _ | .lose t _ => t ≠ roles.worker ∧ t ≠ roles.main
  | .engine _ => False

section Service

variable {T : Type} [DecidableEq T] [Allocator]

inductive ServiceStep (rj : RapidJson) (roles : Roles T) : Service T → ServiceLabel T → Service T → Prop
  | http {s s' : Server T} {l : ServerLabel T} :
      ServerStep rj s l s' → l.OutsideEngine roles → ServiceStep rj roles ⟨.serving, s⟩ (.http l) ⟨.serving, s'⟩
  | call {phase phase' : Phase} {s s' : Server T} {l : Label T} :
      ServerStep rj s (.engine l) s' → MainStep rj roles ⟨phase, s.world⟩ (.call l) ⟨phase', s'.world⟩ →
      ServiceStep rj roles ⟨phase, s⟩ (.call l) ⟨phase', s'⟩
  -- the threads of the server have ended
  | serverReturned {phase phase' : Phase} {s : Server T} :
      (∀ t, s.handler t = .idle) → MainStep rj roles ⟨phase, s.world⟩ .serverReturned ⟨phase', s.world⟩ →
      ServiceStep rj roles ⟨phase, s⟩ .serverReturned ⟨phase', s⟩
  | restart {phase phase' : Phase} {s : Server T} {w : World T} :
      MainStep rj roles ⟨phase, s.world⟩ .restart ⟨phase', w⟩ →
      ServiceStep rj roles ⟨phase, s⟩ .restart ⟨phase', { s with world := w }⟩

/-- The program as it is started on a file. -/
def Service.start (T : Type) (rj : RapidJson) (file : Option Bytes) : Service T where
  phase := .serving
  server := .start T (BackgroundWorker.loadedEngine rj file) file

variable {rj : RapidJson} {roles : Roles T} {file : Option Bytes} {ls : List (ServiceLabel T)} {s s' : Service T}

/-- A step of the service is one of the sessions, or not seen there. -/
theorem ServiceStep.main {l : ServiceLabel T} (h : ServiceStep rj roles s l s') :
    (l.toMain = none ∧ s'.system = s.system) ∨ ∃ l', l.toMain = some l' ∧ MainStep rj roles s.system l' s'.system := by
  cases h with
  | @http s s' l hs hl =>
    left
    refine ⟨rfl, ?_⟩
    cases hs with
    | receive | refuse | reply | lose => rfl
    | call | exec | finish | background => exact hl.elim
  | call hs hm => exact Or.inr ⟨_, rfl, hm⟩
  | serverReturned hidle hm => exact Or.inr ⟨_, rfl, hm⟩
  | restart hm => exact Or.inr ⟨_, rfl, hm⟩

/-- Seen without its requests, a run of the service is a run of the sessions. -/
theorem Run.main (h : Run (ServiceStep rj roles) (.start T rj file) ls s) :
    Run (MainStep rj roles) (System.start T rj file) (ls.filterMap ServiceLabel.toMain) s.system := by
  induction h with
  | nil => exact .nil
  | snoc _ hs ih =>
    rw [List.filterMap_append]
    rcases hs.main with ⟨hl, hsame⟩ | ⟨l', hl, hm⟩
    · simpa [hl, hsame] using ih
    · simpa [hl] using ih.snoc hm

/-- Requests are handled only while the server serves, and what a thread does in the engine fits its request. -/
structure Service.Coherent (rj : RapidJson) (s : Service T) : Prop where
  server : s.server.Coherent rj
  quiet : s.phase ≠ .serving → ∀ t, s.server.handler t = .idle

/-- A thread without a request takes no part in the calls of the server. -/
theorem ServerStep.idle {s s' : Server T} {l : Label T} (h : ServerStep rj s (.engine l) s')
    (hidle : ∀ t, s.handler t = .idle) : ∀ t, s'.handler t = .idle := by
  cases h with
  | call hh | finish hh =>
    rw [hidle] at hh
    cases hh
  | exec | background => exact hidle

theorem ServiceStep.coherent {l : ServiceLabel T} (h : ServiceStep rj roles s l s') (hc : s.Coherent rj) :
    s'.Coherent rj := by
  cases h with
  | http hs => exact ⟨hs.coherent hc.server, fun hne => absurd rfl hne⟩
  | @call phase phase' s s' l hs hm =>
    refine ⟨hs.coherent hc.server, fun hne => hs.idle (hc.quiet ?_)⟩
    cases hm with
    | serve => exact absurd rfl hne
    | work | finalStore | save => exact nofun
  | serverReturned hidle => exact ⟨hc.server, fun _ => hidle⟩
  | @restart phase phase' s w hm =>
    cases hm with
    | restart hidle =>
      refine ⟨fun t => ?_, fun hne => absurd rfl hne⟩
      have hhandler : s.handler t = .idle := hc.quiet nofun t
      show (s.handler t).Fits rj _
      rw [hhandler]
      exact nofun

omit [DecidableEq T] in
theorem Service.coherent_start : (Service.start T rj file).Coherent rj :=
  ⟨Server.coherent_start _ _ _, fun _ _ => rfl⟩

theorem Run.coherent (h : Run (ServiceStep rj roles) (.start T rj file) ls s) : s.Coherent rj :=
  Run.invariant (fun _ s => s.Coherent rj) Service.coherent_start (fun hi hs => hs.coherent hi) h

/-! ### Whole requests -/

/-- A request is handled by an engine with these values. -/
def HandlesValues (rj : RapidJson) (values : Values) (req : Request) (reply : Response) (values' : Values) : Prop :=
  ∃ e e' : DataEngine, e.values = values ∧ Handles rj e req reply e' ∧ e'.values = values'

variable [Fintype T]

/-- The service as an object that handles whole requests on the values. -/
def Service.object (rj : RapidJson) (s : Service T) : AtomicObject T Request Response Values :=
  (s.server.object rj).map DataEngine.values

/-- A step of the server is one step of the object, or not seen. -/
theorem ServerStep.values {server server' : Server T} {l : ServerLabel T} (h : ServerStep rj server l server')
    (hc : server.Coherent rj) {records : List (Bytes × Bytes)} {ms : List (MainLabel T)} {phase : Phase}
    (hd : System.Durable rj roles records ms ⟨phase, server.world⟩) :
    AtomicStep (HandlesValues rj) ((server.object rj).map DataEngine.values) l.event
      ((server'.object rj).map DataEngine.values) := by
  obtain ⟨file, -, hrun⟩ := hd.session
  have hafter := Run.afterLoading hrun
  have hatomic := h.atomic hc (Run.lockAgrees hafter.unrestrict) (Run.knows hafter.unrestrict)
    (Run.calls (fun _ _ hl => hl) hafter)
  exact hatomic.map fun e req reply e' hs => ⟨e, e', rfl, hs, rfl⟩

theorem ServiceStep.atomic {l : ServiceLabel T} (h : ServiceStep rj roles s l s') (hc : s.Coherent rj)
    {records : List (Bytes × Bytes)} {ms : List (MainLabel T)} (hd : s.system.Durable rj roles records ms)
    (hd' : s'.system.Durable rj roles records (ms ++ l.toMain.toList)) :
    AtomicStep (HandlesValues rj) (s.object rj) l.event (s'.object rj) := by
  cases h with
  | http hs => exact ServerStep.values hs hc.server hd
  | call hs hm => exact ServerStep.values hs hc.server hd
  | serverReturned => exact .internal
  | @restart phase phase' server w hm =>
    have hvalues := hd.values_restart hd'
    cases hm with
    | restart hidle =>
      refine AtomicStep.of_internal ?_ (fun t => ?_) hvalues
      · rfl
      · have hhandler : server.handler t = .idle := hc.quiet nofun t
        show HandlerPc.phase rj _ (server.handler t) = HandlerPc.phase rj _ (server.handler t)
        rw [hhandler]
        rfl

/-- A run of the service is a run of the object. -/
theorem Run.object (hp : rj.ParsesOwnText) (h : Run (ServiceStep rj roles) (.start T rj file) ls s) :
    Run (AtomicStep (HandlesValues rj))
      (.start T Request Response (BackgroundWorker.loadedEngine rj file).values) (ls.map ServiceLabel.event)
      (s.object rj) := by
  have hstart : (Service.start T rj file).object rj =
      .start T Request Response (BackgroundWorker.loadedEngine rj file).values := by
    have hfinished : (World.start T (BackgroundWorker.loadedEngine rj file) file).finished =
        BackgroundWorker.loadedEngine rj file := World.finished_of_idle fun _ => rfl
    show AtomicObject.mk 0 _ (World.start T (BackgroundWorker.loadedEngine rj file) file).finished.values = _
    rw [hfinished]
    rfl
  rw [← hstart]
  refine Run.simulates (Service.object rj) ServiceLabel.event (fun {ls s l s'} hrun hs => ?_) h
  have hmain := Run.main hrun
  have hmain' := Run.main (hrun.snoc hs)
  have hlabel : (ls ++ [l]).filterMap ServiceLabel.toMain = ls.filterMap ServiceLabel.toMain ++ l.toMain.toList := by
    rw [List.filterMap_append]
    cases hl : l.toMain <;> simp [hl]
  rw [hlabel] at hmain'
  exact hs.atomic (Run.coherent hrun) (Run.durable hp hmain) (Run.durable hp hmain')

omit [DecidableEq T] [Fintype T] in
theorem Replay.values {values values' : Values} {lin : List (Entry Request Response)}
    (h : Replay (HandlesValues rj) values lin values') {engine : DataEngine} (he : engine.values = values) :
    (HttpServer.serve rj engine (lin.map Entry.op)).2.values = values' := by
  induction h with
  | nil => exact he
  | snoc _ hs ih =>
    obtain ⟨e, e', hvalues, hhandles, rfl⟩ := hs
    have hsame : ∀ req, (handle rj _ req).2.values = (handle rj e req).2.values :=
      values_handle_congr (ih.trans hvalues.symm)
    rw [List.map_append, List.map_singleton, serve_concat]
    dsimp only
    rw [hsame, hhandles]

end Service

section Runs

attribute [local instance] Allocator.exact

open SmallThread

end Runs

end HttpServer

end KeyValueServer
