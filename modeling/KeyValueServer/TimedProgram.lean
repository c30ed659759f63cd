import KeyValueServer.WorkerLoop

/-!
# The program with a clock

The program (`MainProgram`) and the local variables of `run` take their steps together, each at a moment of a clock
that does not go back; how long a step takes, and what the other threads do in the meantime, is left open.  Names and
values of requests may have any length here: as far as they are short, a timed run is a run of the program
(`Run.programs`).
-/

namespace KeyValueServer

open Concurrency BackgroundWorker

/-- The calls of server threads. -/
def Roles.Requests {T : Type} (roles : Roles T) (t : T) : Op → Prop
  | .get _ | .set _ _ => t ≠ roles.worker ∧ t ≠ roles.main
  | _ => False

/-- The calls of each thread. -/
def Roles.Calls {T : Type} (roles : Roles T) (t : T) : Op → Prop
  | .get _ | .set _ _ => t ≠ roles.worker ∧ t ≠ roles.main
  | .getGlobalStatistics => t = roles.worker
  | .storeData => t = roles.worker ∨ t = roles.main
  | _ => False

/-- The call that a thread is in. -/
def Thread.op : Thread → Option Op
  | .idle => none
  | .running _ pc => some pc.op

structure TimedProgram (T : Type) where
  program : Program T
  locals : RunLocals
  clock : Int

/-- The step of the program that is seen. -/
def TimedLabel.toProgram {T : Type} (roles : Roles T) : TimedLabel T → Option (ProgramLabel T)
  | .startStore _ call => some (.call (.invoke roles.worker call .storeData))
  | .program l => some l
  | _ => none

def ProgramLabel.toCall {T : Type} : ProgramLabel T → Option (Label T)
  | .control _ => none
  | .call l => some l

/-- What a trace shows, when it goes on by a step. -/
theorem filterMap_concat {α β : Type} (f : α → Option β) (ls : List α) (l : α) :
    (ls ++ [l]).filterMap f = ls.filterMap f ++ (f l).toList := by
  rw [List.filterMap_append]
  cases h : f l <;> simp [h]

/-- The steps of the engine in a timed trace. -/
def callsOf {T : Type} (roles : Roles T) (ls : List (Int × TimedLabel T)) : List (Label T) :=
  ls.filterMap fun l => (l.2.toProgram roles).bind ProgramLabel.toCall

section Steps

variable {T : Type} [DecidableEq T] [Allocator]

/-- A step of the program, or of a request with strings of any length. -/
inductive RequestStep (rj : RapidJson) (roles : Roles T) : Program T → ProgramLabel T → Program T → Prop
  | program {p p' : Program T} {l : ProgramLabel T} : ProgramStep rj roles p l p' → RequestStep rj roles p l p'
  | request {c : WorkerShutdown.State} {w w' : World T} {l : Label T} :
      c.main = .serving → l.thread ≠ roles.worker → l.thread ≠ roles.main → Step rj w l w' → l.Calls roles.Requests →
      RequestStep rj roles ⟨c, w⟩ (.call l) ⟨c, w'⟩

/-- A step of the timed program; a statement of `run` alone does not touch the rest. -/
structure TimedStep (rj : RapidJson) (roles : Roles T) (s : TimedProgram T) (l : Int × TimedLabel T)
    (s' : TimedProgram T) : Prop where
  monotone : s.clock ≤ l.1
  now : s'.clock = l.1
  locals : RunStep roles l.1 s.locals l.2 s'.locals
  program : match l.2.toProgram roles with
    | none => s'.program = s.program
    | some pl => RequestStep rj roles s.program pl s'.program

/-- The program and its clock when the initial load is done. -/
def TimedProgram.start (T : Type) (rj : RapidJson) (file : Option Bytes) (clock : Int) : TimedProgram T where
  program := .start T rj file
  locals := .start
  clock := clock

variable {rj : RapidJson} {roles : Roles T} {p p' : Program T}

/-! ### Steps of the program -/

theorem RequestStep.control {e : WorkerShutdown.Event} (h : RequestStep rj roles p (.control e) p') :
    p'.world = p.world ∧ WorkerShutdown.Step p.control e p'.control := by
  cases h with
  | program hp =>
    cases hp with
    | control hc => exact ⟨rfl, hc⟩

theorem RequestStep.call {l : Label T} (h : RequestStep rj roles p (.call l) p') : Step rj p.world l p'.world := by
  cases h with
  | program hp =>
    cases hp with
    | begins _ _ hs | ends _ _ hs | exec hs | server _ _ _ hs => exact hs
  | request _ _ _ hs => exact hs

theorem RequestStep.calls {l : Label T} (h : RequestStep rj roles p (.call l) p') : l.Calls roles.Calls := by
  cases h with
  | program hp =>
    cases hp with
    | @begins c c' w w' e t op hc hbegins hs =>
      unfold WorkerShutdown.Event.begins at hbegins
      split at hbegins
      · cases hbegins
        exact rfl
      · cases hbegins
        exact Or.inl rfl
      · cases hbegins
        exact Or.inr rfl
      · cases hbegins
    | ends | exec => exact trivial
    | server _ hworker hmain hs hallowed =>
      refine hallowed.mono fun t op hop => ?_
      cases op with
      | get | set => exact hop.2
      | getGlobalStatistics => exact hop.2
      | storeData => exact Or.inl hop.2
      | _ => exact hop.2.elim
  | request _ _ _ hs hallowed =>
    refine hallowed.mono fun t op hop => ?_
    cases op with
    | get | set => exact hop
    | _ => exact hop.elim

theorem RequestStep.quiet {l : ProgramLabel T} (h : RequestStep rj roles p l p') (hq : p.Quiet roles) :
    p'.Quiet roles := by
  cases h with
  | program hp => exact hp.quiet hq
  | request hserving hworker hmain hs hallowed =>
    refine hq.call hs (fun _ => hworker) fun hstop => ?_
    rw [hserving] at hstop
    cases hstop

/-- The strings of a call that is begun are short. -/
def ProgramLabel.Short {T : Type} : ProgramLabel T → Prop
  | .control _ => True
  | .call l => l.Calls fun _ op => op.Short

theorem RequestStep.short {l : ProgramLabel T} (h : RequestStep rj roles p l p') (hl : l.Short) :
    ProgramStep rj roles p l p' := by
  cases h with
  | program hp => exact hp
  | @request c w w' l hserving hworker hmain hs hallowed =>
    refine .server hserving hworker hmain hs ?_
    cases l with
    | invoke t call op =>
      refine ⟨hl, ?_⟩
      cases op with
      | get | set => exact hallowed
      | _ => exact hallowed.elim
    | exec | ret => exact trivial

/-- A statement of `run` between its calls. -/
theorem TimedStep.silent {s : TimedProgram T} {τ : Int} {l : TimedLabel T} {r : RunLocals} (hτ : s.clock ≤ τ)
    (hr : RunStep roles τ s.locals l r) (hl : l.toProgram roles = none) :
    TimedStep rj roles s (τ, l) ⟨s.program, r, τ⟩ where
  monotone := hτ
  now := rfl
  locals := hr
  program := by
    rw [hl]

theorem TimedStep.seen {s : TimedProgram T} {τ : Int} {l : TimedLabel T} {r : RunLocals} {pl : ProgramLabel T}
    (hτ : s.clock ≤ τ) (hr : RunStep roles τ s.locals l r) (hl : l.toProgram roles = some pl)
    (hp : ProgramStep rj roles s.program pl p') : TimedStep rj roles s (τ, l) ⟨p', r, τ⟩ where
  monotone := hτ
  now := rfl
  locals := hr
  program := by
    rw [hl]
    exact .program hp

/-- A call executes a point. -/
theorem TimedStep.exec {s : TimedProgram T} {τ : Int} {t : T} {call : Nat} {pc : Pc} {w : World T} (hτ : s.clock ≤ τ)
    (hs : Step rj s.program.world (.exec t call pc) w) :
    TimedStep rj roles s (τ, .program (.call (.exec t call pc))) ⟨⟨s.program.control, w⟩, s.locals, τ⟩ :=
  .seen hτ (.elsewhere trivial) rfl (.exec hs)

/-- A server thread begins or ends a call. -/
theorem TimedStep.server {s : TimedProgram T} {τ : Int} {l : Label T} {w : World T} (hτ : s.clock ≤ τ)
    (hserving : s.program.control.main = .serving) (hworker : l.thread ≠ roles.worker) (hmain : l.thread ≠ roles.main)
    (hs : Step rj s.program.world l w) (hl : l.Calls roles.Requests) :
    TimedStep rj roles s (τ, .program (.call l)) ⟨⟨s.program.control, w⟩, s.locals, τ⟩ where
  monotone := hτ
  now := rfl
  locals := by
    cases l with
    | exec => exact .elsewhere trivial
    | invoke | ret => exact .elsewhere hworker
  program := .request hserving hworker hmain hs hl

/-- A step of the control that is no step of `run`, or one of its wait. -/
theorem TimedStep.control {s : TimedProgram T} {τ : Int} {e : WorkerShutdown.Event} {c : WorkerShutdown.State}
    (hτ : s.clock ≤ τ) (hc : WorkerShutdown.Step s.program.control e c) (hbegins : e.begins roles = none)
    (hends : e.ends roles = none) (hreturned : e ≠ .main .serverReturned)
    (helse : (ProgramLabel.control e : ProgramLabel T).Elsewhere roles) :
    TimedStep rj roles s (τ, .program (.control e)) ⟨⟨c, s.program.world⟩, s.locals, τ⟩ :=
  .seen hτ (.elsewhere helse) rfl (.control hc hbegins hends fun h => absurd h hreturned)

/-- A step of the timed program is a step of the program, or is not seen there. -/
theorem TimedStep.cases_program {s s' : TimedProgram T} {l : Int × TimedLabel T} (h : TimedStep rj roles s l s') :
    (l.2.toProgram roles = none ∧ s'.program = s.program) ∨
      ∃ pl, l.2.toProgram roles = some pl ∧ RequestStep rj roles s.program pl s'.program := by
  have hp := h.program
  cases hl : l.2.toProgram roles with
  | none =>
    rw [hl] at hp
    exact Or.inl ⟨rfl, hp⟩
  | some pl =>
    rw [hl] at hp
    exact Or.inr ⟨pl, rfl, hp⟩

omit [DecidableEq T] [Allocator] in
theorem callsOf_concat (ls : List (Int × TimedLabel T)) (l : Int × TimedLabel T) :
    callsOf roles (ls ++ [l]) = callsOf roles ls ++ ((l.2.toProgram roles).bind ProgramLabel.toCall).toList :=
  filterMap_concat _ ls l

omit [DecidableEq T] [Allocator] in
theorem callsOf_concat_call {ls : List (Int × TimedLabel T)} {l : Int × TimedLabel T} {cl : Label T}
    (h : l.2.toProgram roles = some (.call cl)) : callsOf roles (ls ++ [l]) = callsOf roles ls ++ [cl] := by
  rw [callsOf_concat, h]
  rfl

omit [DecidableEq T] [Allocator] in
theorem callsOf_concat_of_ne {ls : List (Int × TimedLabel T)} {l : Int × TimedLabel T}
    (h : ∀ cl, l.2.toProgram roles ≠ some (.call cl)) : callsOf roles (ls ++ [l]) = callsOf roles ls := by
  rw [callsOf_concat]
  cases hl : l.2.toProgram roles with
  | none => exact List.append_nil _
  | some pl =>
    cases pl with
    | control => exact List.append_nil _
    | call cl => exact absurd hl (h cl)

/-- What a step does to the engine and its threads. -/
theorem TimedStep.cases_world {s s' : TimedProgram T} {l : Int × TimedLabel T} (h : TimedStep rj roles s l s')
    (ls : List (Int × TimedLabel T)) :
    (callsOf roles (ls ++ [l]) = callsOf roles ls ∧ s'.program.world = s.program.world) ∨
      ∃ cl, l.2.toProgram roles = some (.call cl) ∧ callsOf roles (ls ++ [l]) = callsOf roles ls ++ [cl] ∧
        Step rj s.program.world cl s'.program.world ∧ cl.Calls roles.Calls := by
  rcases h.cases_program with ⟨hnone, hsame⟩ | ⟨pl, hpl, hstep⟩
  · rw [hsame]
    exact Or.inl ⟨callsOf_concat_of_ne fun cl => by rw [hnone]; nofun, rfl⟩
  · cases pl with
    | control e => exact Or.inl ⟨callsOf_concat_of_ne fun cl => by rw [hpl]; nofun, hstep.control.1⟩
    | call cl => exact Or.inr ⟨cl, hpl, callsOf_concat_call hpl, hstep.call, hstep.calls⟩

/-! ### Runs -/

variable {file : Option Bytes} {clock : Int} {ls : List (Int × TimedLabel T)} {s : TimedProgram T}

/-- As far as the requests are short, the runs of the timed program are runs of the program. -/
theorem Run.programs
    (h : Run (Restrict (TimedStep rj roles) fun _ l => ∀ pl, l.2.toProgram roles = some pl → pl.Short)
      (.start T rj file clock) ls s) :
    Run (ProgramStep rj roles) (.start T rj file) (ls.filterMap fun l => l.2.toProgram roles) s.program := by
  refine Run.invariant (fun ls s =>
    Run (ProgramStep rj roles) (.start T rj file) (ls.filterMap fun l => l.2.toProgram roles) s.program) .nil ?_ h
  rintro ls s l s' hrun ⟨hs, hshort⟩
  rw [List.filterMap_append]
  rcases hs.cases_program with ⟨hnone, hsame⟩ | ⟨pl, hpl, hstep⟩
  · simp only [List.filterMap_cons, hnone, List.filterMap_nil, List.append_nil, hsame]
    exact hrun
  · simp only [List.filterMap_cons, hpl, List.filterMap_nil]
    exact hrun.snoc (hstep.short (hshort pl hpl))

/-- Seen from the engine, each thread makes its calls. -/
theorem Run.worlds (h : Run (TimedStep rj roles) (.start T rj file clock) ls s) :
    Run (Restrict (Step rj) fun _ l => l.Calls roles.Calls) (World.start T (loadedEngine rj file) file)
      (callsOf roles ls) s.program.world := by
  refine Run.invariant (fun ls s => Run (Restrict (Step rj) fun _ l => l.Calls roles.Calls)
    (World.start T (loadedEngine rj file) file) (callsOf roles ls) s.program.world) .nil ?_ h
  intro ls s l s' hrun hs
  rcases hs.cases_world ls with ⟨hcalls, hworld⟩ | ⟨cl, -, hcalls, hstep, hallowed⟩
  · rw [hcalls, hworld]
    exact hrun
  · rw [hcalls]
    exact hrun.snoc ⟨hstep, hallowed⟩

theorem Run.quiet (h : Run (TimedStep rj roles) (.start T rj file clock) ls s) : s.program.Quiet roles := by
  refine Run.invariant (fun _ s => s.program.Quiet roles) (Program.quiet_start rj roles file) ?_ h
  intro ls s l s' hq hs
  rcases hs.cases_program with ⟨-, hsame⟩ | ⟨pl, -, hstep⟩
  · rw [hsame]
    exact hq
  · exact hstep.quiet hq

/-! ### The call that a thread is in -/

omit [DecidableEq T] [Allocator] in
theorem World.Calls.thread_op {w : World T} {allowed : T → Op → Prop} (h : w.Calls allowed) {t : T} {op : Op}
    (ht : (w.thread t).op = some op) : allowed t op := by
  cases hth : w.thread t with
  | idle =>
    rw [hth] at ht
    cases ht
  | running call pc =>
    rw [hth] at ht
    cases ht
    exact h t call pc hth

/-- The call that a thread is in after a step of its own. -/
theorem Step.op_thread {w w' : World T} {l : Label T} (h : Step rj w l w') :
    (w'.thread l.thread).op =
      match l with
      | .invoke _ _ op => some op
      | .exec t _ _ => (w.thread t).op
      | .ret _ _ _ _ => none := by
  cases h with
  | @invoke t op ht => simp [Label.thread, Thread.op]
  | @exec t call pc pc' m' ht he => simp [Label.thread, Thread.op, ht, he.op_eq]
  | ret ht => simp [Label.thread, Thread.op]

/-- The worker is in the call that `run` says. -/
def TimedProgram.Tied (roles : Roles T) (s : TimedProgram T) : Prop :=
  (s.program.world.thread roles.worker).op = s.locals.point.op

theorem TimedStep.tied {s s' : TimedProgram T} {l : Int × TimedLabel T} (h : TimedStep rj roles s l s')
    (ht : s.Tied roles) : s'.Tied roles := by
  unfold TimedProgram.Tied at ht ⊢
  have hprogram := h.program
  have hlocals := h.locals
  obtain ⟨τ, l⟩ := l
  obtain ⟨p', r', clock'⟩ := s'
  cases hlocals with
  | enterLoop hp | readPrintTime hp | print hp _ | readSaveTime hp =>
    rw [show p' = s.program from hprogram, ht, hp]
    rfl
  | getStatistics hp | startStore hp _ => exact (RequestStep.call hprogram).op_thread
  | gotStatistics hp | finishStore hp => exact (RequestStep.call hprogram).op_thread
  | skipStore hp _ | unlock hp =>
    rw [show p'.world = s.program.world from (RequestStep.control hprogram).1, ht, hp]
    rfl
  | timeOut hp _ =>
    rw [show p'.world = s.program.world from (RequestStep.control hprogram).1, ht]
  | @elsewhere pl helse =>
    rw [← ht]
    cases pl with
    | control e => rw [show p'.world = s.program.world from (RequestStep.control hprogram).1]
    | call cl =>
      have hstep := RequestStep.call hprogram
      by_cases hworker : roles.worker = cl.thread
      · have hop := hstep.op_thread
        rw [hworker]
        cases cl with
        | exec t call pc => exact hop
        | invoke | ret => exact absurd hworker.symm helse
      · rw [hstep.thread_of_ne hworker]

theorem Run.tied (h : Run (TimedStep rj roles) (.start T rj file clock) ls s) : s.Tied roles :=
  Run.invariant (fun _ s => s.Tied roles) rfl (fun ht hs => hs.tied ht) h

end Steps

/-! ### One thread of the server -/

/-- The threads of a program whose server has one thread. -/
inductive SmallThread
  | server
  | worker
  | main
  deriving DecidableEq

instance : Fintype SmallThread := ⟨{.server, .worker, .main}, fun t => by cases t <;> decide⟩

def SmallThread.roles : Roles SmallThread where
  worker := .worker
  main := .main
  distinct := by decide

end KeyValueServer
