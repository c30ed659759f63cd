import KeyValueServer.Sessions
import KeyValueServer.WorkerShutdown

/-!
# The worker and `main` around their calls

The control of the worker and of `main` (`WorkerShutdown`) together with the threads that call the engine (`World`):
an event of the control that stands for a call begins it or waits for its end.  Seen from the engine, a run of the
program is a run of a session (`Run.sessions`), so what is known of sessions holds of it, whatever the order in which
the worker is woken.
-/

namespace KeyValueServer

open Concurrency

structure Program (T : Type) where
  control : WorkerShutdown.State
  world : World T

namespace WorkerShutdown

variable {T : Type}

/-- The call that an event begins. -/
def Event.begins (roles : Roles T) : Event → Option (T × Op)
  | .worker .startBody => some (roles.worker, .getGlobalStatistics)
  | .worker .startStore => some (roles.worker, .storeData)
  | .main .startStore => some (roles.main, .storeData)
  | _ => none

/-- The thread whose call ends with an event. -/
def Event.ends (roles : Roles T) : Event → Option T
  | .worker .printStatistics | .worker .finishStore => some roles.worker
  | .main .finishStore => some roles.main
  | _ => none

/-- The phase of a session. -/
def MainPc.phase : MainPc → Phase
  | .serving => .serving
  | .storing | .exited => .saving
  | _ => .stopping

/-- The worker is in a call of the engine. -/
def WorkerPc.calls : WorkerPc → Bool
  | .printing | .storing => true
  | _ => false

end WorkerShutdown

open WorkerShutdown (Event WorkerPc MainPc Coherent)

inductive ProgramLabel (T : Type)
  | control (e : Event)
  | call (l : Label T)

/-- What an observer of the session sees of a step. -/
def ProgramLabel.toMain {T : Type} : ProgramLabel T → Option (MainLabel T)
  | .control (.main .serverReturned) => some .serverReturned
  | .control _ => none
  | .call l => some (.call l)

def Program.system {T : Type} (p : Program T) : System T where
  phase := p.control.main.phase
  world := p.world

section Program

variable {T : Type} [DecidableEq T] [Allocator]

/-- The program when the initial load is done. -/
def Program.start (T : Type) (rj : RapidJson) (file : Option Bytes) : Program T where
  control := .start
  world := World.start T (BackgroundWorker.loadedEngine rj file) file

inductive ProgramStep (rj : RapidJson) (roles : Roles T) : Program T → ProgramLabel T → Program T → Prop
  | control {c c' : WorkerShutdown.State} {w : World T} {e : Event} :
      WorkerShutdown.Step c e c' → e.begins roles = none → e.ends roles = none →
      (e = .main .serverReturned → ∀ t ≠ roles.worker, w.thread t = .idle) →
      ProgramStep rj roles ⟨c, w⟩ (.control e) ⟨c', w⟩
  | begins {c c' : WorkerShutdown.State} {w w' : World T} {e : Event} {t : T} {op : Op} :
      WorkerShutdown.Step c e c' → e.begins roles = some (t, op) → Step rj w (.invoke t w.calls op) w' →
      ProgramStep rj roles ⟨c, w⟩ (.call (.invoke t w.calls op)) ⟨c', w'⟩
  | ends {c c' : WorkerShutdown.State} {w w' : World T} {e : Event} {t : T} {call : Nat} {op : Op} {result : Result} :
      WorkerShutdown.Step c e c' → e.ends roles = some t → Step rj w (.ret t call op result) w' →
      ProgramStep rj roles ⟨c, w⟩ (.call (.ret t call op result)) ⟨c', w'⟩
  | exec {c : WorkerShutdown.State} {w w' : World T} {t : T} {call : Nat} {pc : Pc} :
      Step rj w (.exec t call pc) w' → ProgramStep rj roles ⟨c, w⟩ (.call (.exec t call pc)) ⟨c, w'⟩
  -- a server thread begins or ends a call
  | server {c : WorkerShutdown.State} {w w' : World T} {l : Label T} :
      c.main = .serving → l.thread ≠ roles.worker → l.thread ≠ roles.main → Step rj w l w' → l.Calls roles.Serve →
      ProgramStep rj roles ⟨c, w⟩ (.call l) ⟨c, w'⟩

/-- The worker makes calls only where its program counter says so, and from the return of the server to the final save
no other thread makes any. -/
structure Program.Quiet (roles : Roles T) (p : Program T) : Prop where
  coherent : Coherent p.control
  worker : p.control.worker.calls = false → p.world.thread roles.worker = .idle
  others : p.control.main.phase = .stopping → ∀ t ≠ roles.worker, p.world.thread t = .idle

omit [DecidableEq T] in
theorem Program.quiet_start (rj : RapidJson) (roles : Roles T) (file : Option Bytes) :
    (Program.start T rj file).Quiet roles where
  coherent := WorkerShutdown.coherent_start
  worker _ := rfl
  others h := by cases h

omit [DecidableEq T] [Allocator] in
/-- An event that neither begins nor ends a call leaves the worker in its call or out of it, and does not move between
phases unless it is the return of the server. -/
theorem control_silent {roles : Roles T} {c c' : WorkerShutdown.State} {e : Event} (h : WorkerShutdown.Step c e c')
    (hbegins : e.begins roles = none) (hends : e.ends roles = none) :
    c'.worker.calls = c.worker.calls ∧
      (c'.main.phase = c.main.phase ∨
        e = .main .serverReturned ∧ c.main.phase = .serving ∧ c'.main.phase = .stopping) := by
  cases h with
  | move hm =>
    cases hm with
    | startBody | startStore => cases hbegins
    | printStatistics | finishStore => cases hends
    | skipStore | wakeNotified | wakeSpuriously | timeOut => exact ⟨rfl, Or.inl rfl⟩
  | relock =>
    refine ⟨?_, Or.inl rfl⟩
    dsimp only
    split <;> rfl
  | serverReturned => exact ⟨rfl, Or.inr ⟨rfl, rfl, rfl⟩⟩
  | @notifyAll pc owner flag =>
    refine ⟨?_, Or.inl rfl⟩
    cases pc <;> rfl
  | startStore => cases hbegins
  | finishStore => cases hends
  | lock | seeTerminating | sleep | recheck | unlock | leaveLoop | mainLock | setTerminating | mainUnlock =>
    exact ⟨rfl, Or.inl rfl⟩

omit [DecidableEq T] [Allocator] in
theorem control_begins {roles : Roles T} {c c' : WorkerShutdown.State} {e : Event} {t : T} {op : Op}
    (h : WorkerShutdown.Step c e c') (hc : Coherent c) (hbegins : e.begins roles = some (t, op)) :
    (t = roles.worker ∧ (op = .getGlobalStatistics ∨ op = .storeData) ∧ c'.worker.calls = true ∧ c'.main = c.main ∧
      c.main.phase ≠ .saving) ∨
    (t = roles.main ∧ op = .storeData ∧ c'.worker.calls = c.worker.calls ∧ c.worker.calls = false ∧
      c.main.phase = .stopping ∧ c'.main.phase = .saving) := by
  cases h with
  | @move pc pc' m owner flag e hm =>
    have hphase : m.phase ≠ .saving := by
      intro hsaving
      have hjoined : m.hasJoined = true := by cases m <;> first | rfl | cases hsaving
      exact hm.frame.2.2.1 (hc.joined hjoined)
    cases hm with
    | startBody =>
      cases hbegins
      exact Or.inl ⟨rfl, Or.inl rfl, rfl, rfl, hphase⟩
    | startStore =>
      cases hbegins
      exact Or.inl ⟨rfl, Or.inr rfl, rfl, rfl, hphase⟩
    | _ => cases hbegins
  | startStore =>
    cases hbegins
    exact Or.inr ⟨rfl, rfl, rfl, rfl, rfl, rfl⟩
  | _ => cases hbegins

omit [DecidableEq T] [Allocator] in
theorem control_ends {roles : Roles T} {c c' : WorkerShutdown.State} {e : Event} {t : T}
    (h : WorkerShutdown.Step c e c') (hends : e.ends roles = some t) :
    c'.main.phase = c.main.phase ∧
      ((t = roles.worker ∧ c'.worker.calls = false) ∨
        (t = roles.main ∧ c'.worker = c.worker ∧ c.main.phase = .saving)) := by
  cases h with
  | move hm =>
    cases hm with
    | printStatistics | finishStore =>
      cases hends
      exact ⟨rfl, Or.inl ⟨rfl, rfl⟩⟩
    | _ => cases hends
  | finishStore =>
    cases hends
    exact ⟨rfl, Or.inr ⟨rfl, rfl, rfl⟩⟩
  | _ => cases hends

/-- A step of a thread other than the worker, when the worker is out of its calls or the other threads are idle. -/
theorem Program.Quiet.call {roles : Roles T} {rj : RapidJson} {c : WorkerShutdown.State} {w w' : World T} {l : Label T}
    (hq : Program.Quiet roles ⟨c, w⟩) (hs : Step rj w l w')
    (hworker : c.worker.calls = false → l.thread ≠ roles.worker)
    (hothers : c.main.phase = .stopping → l.thread = roles.worker) : Program.Quiet roles ⟨c, w'⟩ where
  coherent := hq.coherent
  worker hcalls := by
    rw [hs.thread_of_ne (hworker hcalls).symm]
    exact hq.worker hcalls
  others hphase t ht := by
    rw [hs.thread_of_ne (by rw [hothers hphase]; exact ht)]
    exact hq.others hphase t ht

theorem ProgramStep.quiet {rj : RapidJson} {roles : Roles T} {p p' : Program T} {l : ProgramLabel T}
    (h : ProgramStep rj roles p l p') (hq : p.Quiet roles) : p'.Quiet roles := by
  cases h with
  | @control c c' w e hc hbegins hends hidle =>
    obtain ⟨hcalls, hphase⟩ := control_silent hc hbegins hends
    refine ⟨hc.coherent hq.coherent, fun hw => hq.worker (hcalls.symm.trans hw), fun hstop => ?_⟩
    rcases hphase with hsame | ⟨he, -, -⟩
    · exact hq.others (hsame.symm.trans hstop)
    · exact hidle he
  | @begins c c' w w' e t op hc hbegins hs =>
    have hother : ∀ t' ≠ t, w'.thread t' = w.thread t' := fun t' ht' => hs.thread_of_ne ht'
    rcases control_begins hc hq.coherent hbegins with ⟨rfl, -, hcalls, hmain, -⟩ | ⟨rfl, -, hsame, hcalls, -, hsaving⟩
    · refine ⟨hc.coherent hq.coherent, fun hw => ?_, fun hstop t ht => ?_⟩
      · rw [hcalls] at hw
        cases hw
      · rw [hother t ht]
        exact hq.others (by rwa [hmain] at hstop) t ht
    · refine ⟨hc.coherent hq.coherent, fun hw => ?_, fun hstop => ?_⟩
      · rw [hother _ roles.distinct]
        exact hq.worker hcalls
      · rw [hsaving] at hstop
        cases hstop
  | @ends c c' w w' e t call op result hc hends hs =>
    have hother : ∀ t' ≠ t, w'.thread t' = w.thread t' := fun t' ht' => hs.thread_of_ne ht'
    obtain ⟨hphase, ⟨rfl, hcalls⟩ | ⟨rfl, hworker, hsaving⟩⟩ := control_ends hc hends
    · refine ⟨hc.coherent hq.coherent, fun _ => ?_, fun hstop t ht => ?_⟩
      · cases hs with
        | ret ht => exact Function.update_self ..
      · rw [hother t ht]
        exact hq.others (hphase.symm.trans hstop) t ht
    · refine ⟨hc.coherent hq.coherent, fun hw => ?_, fun hstop => ?_⟩
      · rw [hother _ roles.distinct]
        exact hq.worker (by rwa [hworker] at hw)
      · rw [hphase, hsaving] at hstop
        cases hstop
  | exec hs =>
    refine ⟨hq.coherent, fun hcalls => ?_, fun hstop t ht => ?_⟩
    · exact hs.idle (hq.worker hcalls) trivial
    · exact hs.idle (hq.others hstop t ht) trivial
  | @server c w w' l hserving hworker hmain hs hallowed =>
    refine hq.call hs (fun _ => hworker) fun hstop => ?_
    rw [hserving] at hstop
    cases hstop

/-- A step without a new call is possible in every phase. -/
theorem MainStep.of_calls {rj : RapidJson} {roles : Roles T} {w w' : World T} {l : Label T} (phase : Phase)
    (hs : Step rj w l w') (hcalls : ∀ allowed, l.Calls allowed) :
    MainStep rj roles ⟨phase, w⟩ (.call l) ⟨phase, w'⟩ := by
  cases phase with
  | serving => exact .serve hs (hcalls _)
  | stopping => exact .work hs (hcalls _)
  | saving => exact .save hs (hcalls _)

omit [DecidableEq T] [Allocator] in
theorem toMain_control {e : Event} (he : e ≠ .main .serverReturned) :
    (ProgramLabel.control e : ProgramLabel T).toMain = none := by
  cases e with
  | worker e => rfl
  | main e => cases e <;> first | rfl | exact absurd rfl he

/-- A call that the worker or `main` begins is one that the phase allows. -/
theorem MainStep.of_begins {rj : RapidJson} {roles : Roles T} {c c' : WorkerShutdown.State} {w w' : World T}
    {e : Event} {t : T} {op : Op} (hc : WorkerShutdown.Step c e c') (hq : Program.Quiet roles ⟨c, w⟩)
    (hbegins : e.begins roles = some (t, op)) (hs : Step rj w (.invoke t w.calls op) w') :
    MainStep rj roles ⟨c.main.phase, w⟩ (.call (.invoke t w.calls op)) ⟨c'.main.phase, w'⟩ := by
  rcases control_begins hc hq.coherent hbegins with
    ⟨rfl, hop, -, hmain, hphase⟩ | ⟨rfl, rfl, -, hcalls, hstopping, hsaving⟩
  · rw [hmain]
    cases hp : c.main.phase with
    | serving =>
      refine .serve hs ?_
      rcases hop with rfl | rfl
      · exact ⟨trivial, rfl⟩
      · exact ⟨trivial, rfl⟩
    | stopping => exact .work hs ⟨rfl, hop⟩
    | saving => exact absurd hp hphase
  · have hidle : ∀ t, w.thread t = .idle := by
      intro t
      by_cases ht : t = roles.worker
      · rw [ht]
        exact hq.worker hcalls
      · exact hq.others hstopping t ht
    rw [hstopping, hsaving]
    exact .finalStore hidle hs

/-- A step of the program is a step of the session, or is not seen there. -/
theorem ProgramStep.session {rj : RapidJson} {roles : Roles T} {p p' : Program T} {l : ProgramLabel T}
    (h : ProgramStep rj roles p l p') (hq : p.Quiet roles) :
    (l.toMain = none ∧ p'.system = p.system) ∨
      ∃ l', l.toMain = some l' ∧ MainStep rj roles p.system l' p'.system := by
  cases h with
  | @control c c' w e hc hbegins hends hidle =>
    obtain ⟨-, hsame | ⟨rfl, hserving, hstopping⟩⟩ := control_silent hc hbegins hends
    · by_cases he : e = .main .serverReturned
      · subst he
        cases hc
        cases hsame
      · exact Or.inl ⟨toMain_control he, congrArg (System.mk · w) hsame⟩
    · right
      refine ⟨_, rfl, ?_⟩
      rw [Program.system, Program.system, hserving, hstopping]
      exact .serverReturned (hidle rfl)
  | begins hc hbegins hs => exact Or.inr ⟨_, rfl, .of_begins hc hq hbegins hs⟩
  | @ends c c' w w' e t call op result hc hends hs =>
    right
    obtain ⟨hphase, -⟩ := control_ends hc hends
    refine ⟨_, rfl, ?_⟩
    rw [Program.system, Program.system, hphase]
    exact .of_calls _ hs fun _ => trivial
  | exec hs => exact Or.inr ⟨_, rfl, .of_calls _ hs fun _ => trivial⟩
  | @server c w w' l hserving hworker hmain hs hallowed =>
    right
    refine ⟨_, rfl, ?_⟩
    rw [Program.system, Program.system, hserving]
    exact .serve hs hallowed

/-- The runs of the program are runs of a session. -/
theorem Run.sessions {rj : RapidJson} {roles : Roles T} {file : Option Bytes} {p : Program T}
    {ls : List (ProgramLabel T)} (h : Run (ProgramStep rj roles) (Program.start T rj file) ls p) :
    p.Quiet roles ∧
      Run (MainStep rj roles) (System.start T rj file) (ls.filterMap ProgramLabel.toMain) p.system := by
  refine Run.invariant (fun ls p => p.Quiet roles ∧
    Run (MainStep rj roles) (System.start T rj file) (ls.filterMap ProgramLabel.toMain) p.system)
    ⟨Program.quiet_start rj roles file, .nil⟩ (fun {ls p l p'} hi hs => ?_) h
  obtain ⟨hq, hrun⟩ := hi
  refine ⟨hs.quiet hq, ?_⟩
  rw [List.filterMap_append]
  rcases hs.session hq with ⟨hsilent, hsame⟩ | ⟨l', hl', hstep⟩
  · rw [List.filterMap_cons_none hsilent, List.filterMap_nil, List.append_nil, hsame]
    exact hrun
  · rw [List.filterMap_cons_some hl', List.filterMap_nil]
    exact hrun.snoc hstep

/-- When `main` stores the data at the end, the worker is in no call. -/
theorem Run.worker_idle {rj : RapidJson} {roles : Roles T} {file : Option Bytes} {p : Program T}
    {ls : List (ProgramLabel T)} (h : Run (ProgramStep rj roles) (Program.start T rj file) ls p)
    (hstoring : p.control.main = .storing) : p.world.thread roles.worker = .idle := by
  obtain ⟨hq, -⟩ := Run.sessions h
  have hreturned := hq.coherent.joined (by rw [hstoring]; rfl)
  exact hq.worker (by rw [hreturned]; rfl)

end Program

end KeyValueServer
