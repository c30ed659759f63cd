import KeyValueServer.EngineProgress
import KeyValueServer.SessionValues
import KeyValueServer.TimedProgram

/-!
# The end of the program

From the moment `stop_notify` has set `m_terminating` the program comes to its end, whatever the order of the steps of
`main`, of the worker and of the calls that they have in progress: it takes no more than a number of steps that is known
by then (`Program.remaining`), it does not stop before `main` has exited, and then the file holds the values of the
records (`program_ends`).
-/

namespace KeyValueServer

open Concurrency

open WorkerShutdown (Event WorkerPc MainPc Coherent)

/-- How many steps `main` has left when the flag is set. -/
def WorkerShutdown.MainPc.measure : MainPc → Nat
  | .serving => 7
  | .locking => 6
  | .setting => 5
  | .unlocking => 4
  | .notifying => 3
  | .waiting => 2
  | .storing => 1
  | .exited => 0

/-- Every step takes the worker or `main` nearer to its end. -/
theorem WorkerShutdown.Step.control_lt {s s' : WorkerShutdown.State} {e : Event} (h : WorkerShutdown.Step s e s')
    (hs : Coherent s) (hflag : s.terminating = true) :
    s'.worker.measure + s'.main.measure < s.worker.measure + s.main.measure := by
  cases e with
  | worker e =>
    have hlt := h.measure_lt hs hflag
    rw [h.main_of_worker]
    omega
  | main e =>
    cases h with
    | @notifyAll pc owner flag =>
      have hsame : pc.notify.measure = pc.measure := by cases pc <;> rfl
      simp [hsame, MainPc.measure]
    | _ => simp [MainPc.measure]

section Program

variable {T : Type} [DecidableEq T] [Allocator] {rj : RapidJson} {roles : Roles T} {file : Option Bytes}

/-- The worker and `main` are in a call exactly where their program counters say so, and no other thread is, once the
server has returned. -/
structure Program.Matched (roles : Roles T) (p : Program T) : Prop where
  worker : p.control.worker.calls = true ↔ p.world.thread roles.worker ≠ .idle
  main : p.control.main = .storing ↔ p.world.thread roles.main ≠ .idle
  others : p.control.main ≠ .serving → ∀ t, t ≠ roles.worker → t ≠ roles.main → p.world.thread t = .idle

omit [DecidableEq T] [Allocator] in
theorem Program.matched_start (rj : RapidJson) [DecidableEq T] [Allocator] (roles : Roles T) (file : Option Bytes) :
    (Program.start T rj file).Matched roles where
  worker := by simp [Program.start, WorkerShutdown.State.start, WorkerPc.calls, World.start]
  main := by simp [Program.start, WorkerShutdown.State.start, World.start]
  others _ _ _ _ := rfl

omit [DecidableEq T] [Allocator] in
/-- An event that neither begins nor ends a call leaves `main` in its call or out of it. -/
theorem control_storing {c c' : WorkerShutdown.State} {e : Event} (h : WorkerShutdown.Step c e c')
    (hbegins : e.begins roles = none) (hends : e.ends roles = none) :
    (c'.main = .storing ↔ c.main = .storing) ∧
      (c'.main ≠ .serving → c.main ≠ .serving ∨ e = .main .serverReturned) := by
  cases h with
  | startStore => cases hbegins
  | finishStore => cases hends
  | serverReturned => exact ⟨by simp, fun _ => Or.inr rfl⟩
  | mainLock | setTerminating | mainUnlock | notifyAll => exact ⟨by simp, fun _ => Or.inl (by simp)⟩
  | _ => exact ⟨Iff.rfl, Or.inl⟩

theorem Step.running_iff_of_exec {w w' : World T} {t : T} {c : Nat} {pc : Pc} (hs : Step rj w (.exec t c pc) w')
    (t' : T) : w'.thread t' ≠ .idle ↔ w.thread t' ≠ .idle := by
  by_cases ht : t' = t
  · subst ht
    cases hs with
    | exec ht he =>
      rw [ht]
      simp
  · have hsame := hs.thread_of_ne (t := t') ht
    rw [hsame]

theorem ProgramStep.matched {p p' : Program T} {l : ProgramLabel T} (h : ProgramStep rj roles p l p')
    (hm : p.Matched roles) : p'.Matched roles := by
  obtain ⟨hworker, hmain, hothers⟩ := hm
  have hdistinct := roles.distinct
  cases h with
  | @control c c' w e hc hbegins hends hidle =>
    obtain ⟨hcalls, -⟩ := control_silent hc hbegins hends
    obtain ⟨hstoring, hserving⟩ := control_storing hc hbegins hends
    refine ⟨?_, ?_, fun hne t htw htm => ?_⟩
    · rw [hcalls]
      exact hworker
    · rw [hstoring]
      exact hmain
    · rcases hserving hne with hne | he
      · exact hothers hne t htw htm
      · exact hidle he t htw
  | @begins c c' w w' e t op hc hbegins hs =>
    have hrunning : w'.thread t ≠ .idle := by
      rw [hs.invoked]
      simp
    have hother : ∀ t' ≠ t, w'.thread t' = w.thread t' := fun t' ht' => hs.thread_of_ne ht'
    cases hc with
    | move hmove =>
      cases hmove with
      | startBody | startStore =>
        cases hbegins
        refine ⟨by simpa [WorkerPc.calls] using hrunning, ?_, fun hne t' htw htm => ?_⟩
        · dsimp only at hmain ⊢
          rw [hother _ hdistinct.symm]
          exact hmain
        · dsimp only
          rw [hother _ htw]
          exact hothers hne t' htw htm
      | _ => cases hbegins
    | startStore =>
      cases hbegins
      refine ⟨?_, by simpa using hrunning, fun hne t' htw htm => ?_⟩
      · dsimp only at hworker ⊢
        rw [hother _ hdistinct]
        exact hworker
      · dsimp only
        rw [hother _ htm]
        exact hothers (by simp) t' htw htm
    | _ => cases hbegins
  | @ends c c' w w' e t call op result hc hends hs =>
    have hidle : w'.thread t = .idle := by
      cases hs with
      | ret ht => exact Function.update_self ..
    have hother : ∀ t' ≠ t, w'.thread t' = w.thread t' := fun t' ht' => hs.thread_of_ne ht'
    cases hc with
    | move hmove =>
      cases hmove with
      | printStatistics | finishStore =>
        cases hends
        refine ⟨by simp [WorkerPc.calls, hidle], ?_, fun hne t' htw htm => ?_⟩
        · dsimp only at hmain ⊢
          rw [hother _ hdistinct.symm]
          exact hmain
        · dsimp only
          rw [hother _ htw]
          exact hothers hne t' htw htm
      | _ => cases hends
    | finishStore =>
      cases hends
      refine ⟨?_, by simp [hidle], fun hne t' htw htm => ?_⟩
      · dsimp only at hworker ⊢
        rw [hother _ hdistinct]
        exact hworker
      · dsimp only
        rw [hother _ htm]
        exact hothers (by simp) t' htw htm
    | _ => cases hends
  | @exec c w w' t call pc hs =>
    have hiff := hs.running_iff_of_exec
    refine ⟨?_, ?_, fun hne t' htw htm => ?_⟩
    · dsimp only at hworker ⊢
      rw [hiff]
      exact hworker
    · dsimp only at hmain ⊢
      rw [hiff]
      exact hmain
    · have hidle := hothers hne t' htw htm
      by_contra hrunning
      exact (hiff t').1 hrunning hidle
  | @server c w w' l hserving hworker' hmain' hs hallowed =>
    refine ⟨?_, ?_, fun hne => absurd hserving hne⟩
    · dsimp only at hworker ⊢
      rw [hs.thread_of_ne hworker'.symm]
      exact hworker
    · dsimp only at hmain ⊢
      rw [hs.thread_of_ne hmain'.symm]
      exact hmain

/-! ### How long it takes -/

variable [Fintype T]

/-- The call that is begun has this much to do. -/
theorem Step.remaining_of_invoke {w w' : World T} {t : T} {c : Nat} {op : Op} (hs : Step rj w (.invoke t c op) w')
    (hop : op.start.mayInsert = false) :
    w'.mayHold = w.mayHold ∧ w'.remaining = w.remaining + op.start.remaining w.mayHold := by
  have hhold : w'.mayHold = w.mayHold := by
    have hcount := hs.count_eq Pc.mayInsert
    cases hs with
    | invoke op ht =>
      simp only [Label.thread, ht, Thread.is, Function.update_self, hop, Bool.toNat_false] at hcount
      show w.memory.data.keys.card + _ = w.memory.data.keys.card + _
      omega
  refine ⟨hhold, ?_⟩
  have hsum := sum_update_eq w.thread (Thread.remaining w.mayHold) t (w'.thread t)
  have hthread : w'.thread = Function.update w.thread t (w'.thread t) := hs.thread_eq
  rw [← hthread, hs.invoked] at hsum
  have hidle : w.thread t = .idle := by
    cases hs with
    | invoke op ht => exact ht
  rw [hidle] at hsum
  unfold World.remaining
  rw [hhold]
  exact hsum

/-- How many steps the program has left when the flag is set: each step of the control may begin one call. -/
def Program.remaining (p : Program T) : Nat :=
  (p.control.worker.measure + p.control.main.measure) * (2 * p.world.mayHold + 8) + p.world.remaining

omit [DecidableEq T] [Allocator] in
/-- Where the control moves on, it may pay for a call. -/
theorem Program.remaining_lt_of_control {p p' : Program T}
    (hcontrol : p'.control.worker.measure + p'.control.main.measure < p.control.worker.measure + p.control.main.measure)
    (hhold : p'.world.mayHold ≤ p.world.mayHold)
    (hworld : p'.world.remaining < p.world.remaining + (2 * p.world.mayHold + 8)) : p'.remaining < p.remaining := by
  have hprice : (p'.control.worker.measure + p'.control.main.measure) * (2 * p'.world.mayHold + 8) ≤
      (p'.control.worker.measure + p'.control.main.measure) * (2 * p.world.mayHold + 8) :=
    Nat.mul_le_mul_left _ (by omega)
  have hpaid := Nat.mul_le_mul_right (2 * p.world.mayHold + 8) hcontrol
  rw [Nat.succ_mul] at hpaid
  unfold Program.remaining
  omega

theorem ProgramStep.remaining_lt {p p' : Program T} {l : ProgramLabel T} (h : ProgramStep rj roles p l p')
    (hc : Coherent p.control) (hflag : p.control.terminating = true) : p'.remaining < p.remaining := by
  cases h with
  | control hstep =>
    refine Program.remaining_lt_of_control (hstep.control_lt hc hflag) (Nat.le_refl _) ?_
    dsimp only
    omega
  | @begins c c' w w' e t op hstep hbegins hs =>
    have hop : op.start.mayInsert = false ∧ op.start.remaining w.mayHold < 2 * w.mayHold + 8 := by
      rcases control_begins hstep hc hbegins with ⟨-, rfl | rfl, -⟩ | ⟨-, rfl, -⟩
      · exact ⟨rfl, show 3 < _ by omega⟩
      · exact ⟨rfl, Nat.lt_succ_self _⟩
      · exact ⟨rfl, Nat.lt_succ_self _⟩
    obtain ⟨hhold, hremaining⟩ := hs.remaining_of_invoke hop.1
    refine Program.remaining_lt_of_control (hstep.control_lt hc hflag) hhold.le ?_
    dsimp only
    omega
  | ends hstep _ hs =>
    have hlt := hs.remaining_lt trivial
    refine Program.remaining_lt_of_control (hstep.control_lt hc hflag) (hs.mayHold_le trivial) ?_
    dsimp only
    omega
  | @exec c w w' t call pc hs =>
    have hlt := hs.remaining_lt trivial
    have hhold := hs.mayHold_le trivial
    have hprice : (c.worker.measure + c.main.measure) * (2 * w'.mayHold + 8) ≤
        (c.worker.measure + c.main.measure) * (2 * w.mayHold + 8) := Nat.mul_le_mul_left _ (by omega)
    unfold Program.remaining
    dsimp only
    omega
  | @server c w w' l hserving =>
    have hset := hc.flag
    rw [hflag, show c.main = .serving from hserving] at hset
    cases hset

/-! ### There is always a step -/

omit [Fintype T] in
/-- When no call is in progress, an event of the control can happen, with the call that it begins. -/
theorem ProgramStep.exists_of_control {c c' : WorkerShutdown.State} {w : World T} {e : Event}
    (hstep : WorkerShutdown.Step c e c') (hm : Program.Matched roles ⟨c, w⟩) (hidle : ∀ t, w.thread t = .idle) :
    ∃ l p', ProgramStep rj roles ⟨c, w⟩ l p' := by
  cases hends : e.ends roles with
  | some t =>
    -- there is no call that could end
    exfalso
    cases hstep with
    | move hmove =>
      cases hmove with
      | printStatistics | finishStore => exact hm.worker.1 rfl (hidle _)
      | _ => cases hends
    | finishStore => exact hm.main.1 rfl (hidle _)
    | _ => cases hends
  | none =>
    cases hbegins : e.begins roles with
    | none => exact ⟨_, _, .control hstep hbegins hends fun _ t _ => hidle t⟩
    | some call =>
      obtain ⟨t, op⟩ := call
      exact ⟨_, _, .begins hstep hbegins (.invoke op (hidle t))⟩

omit [Fintype T] in
/-- A call that is about to return does so when its thread goes on. -/
theorem ProgramStep.exists_of_ret {c : WorkerShutdown.State} {w w' : World T} {t : T} {call : Nat} {op : Op}
    {result : Result} (hs : Step rj w (.ret t call op result) w') (hm : Program.Matched roles ⟨c, w⟩)
    (hstopped : c.main ≠ .serving) : ∃ l p', ProgramStep rj roles ⟨c, w⟩ l p' := by
  obtain ⟨pc, m, owner, flag⟩ := c
  have hrunning : w.thread t ≠ .idle := by
    cases hs with
    | ret ht =>
      rw [ht]
      nofun
  by_cases hworker : t = roles.worker
  · subst hworker
    have hcalls := hm.worker.2 hrunning
    cases pc with
    | printing => exact ⟨_, _, .ends (.move .printStatistics) rfl hs⟩
    | storing => exact ⟨_, _, .ends (.move .finishStore) rfl hs⟩
    | _ => cases hcalls
  · by_cases hmain : t = roles.main
    · subst hmain
      obtain rfl : m = .storing := hm.main.2 hrunning
      exact ⟨_, _, .ends .finishStore rfl hs⟩
    · exact absurd (hm.others hstopped t hworker hmain) hrunning

/-- The worker has returned, `main` has exited, and no call is in progress. -/
structure Program.Ended (p : Program T) : Prop where
  main : p.control.main = .exited
  worker : p.control.worker = .returned
  idle : ∀ t, p.world.thread t = .idle

omit [Fintype T] in
/-- With the flag set, nothing but the end stops the program. -/
theorem Program.ended_of_stuck {p : Program T} (hc : Coherent p.control) (hflag : p.control.terminating = true)
    (hm : p.Matched roles) (hlock : p.world.LockAgrees) (hk : p.world.Knows) (hp : p.world.Lists)
    (hstuck : Stuck (ProgramStep rj roles) p) : p.Ended := by
  obtain ⟨⟨pc, m, owner, flag⟩, w⟩ := p
  obtain rfl : flag = true := hflag
  have hset : true = m.hasSet := hc.flag
  have hidle : ∀ t, w.thread t = .idle := by
    intro t
    cases ht : w.thread t with
    | idle => rfl
    | running call pc =>
      obtain ⟨l, w', hs, -, hcalls⟩ := Step.exists_of_running rj hlock hk hp ht
      cases l with
      | invoke => exact hcalls.elim
      | exec => exact absurd (.exec hs) (hstuck _ _)
      | ret =>
        obtain ⟨l, p', hstep⟩ := ProgramStep.exists_of_ret hs hm (by rintro rfl; cases hset)
        exact absurd hstep (hstuck l p')
  have hno : ∀ {e c'}, ¬ WorkerShutdown.Step ⟨pc, m, owner, true⟩ e c' := by
    intro e c' hstep
    obtain ⟨l, p', hs⟩ := ProgramStep.exists_of_control hstep hm hidle
    exact hstuck l p' hs
  have hworker : m.hasNotified = true → pc = .returned := by
    intro hnotified
    rcases hc.worker_progress hnotified with hreturned | ⟨e, c', hstep⟩
    · exact hreturned
    · exact absurd hstep hno
  cases m with
  | serving | locking | setting => cases hset
  | unlocking => exact absurd .mainUnlock hno
  | notifying => exact absurd .notifyAll hno
  | waiting =>
    obtain rfl := hworker rfl
    exact absurd .startStore hno
  | storing => exact absurd .finishStore hno
  | exited => exact ⟨rfl, hworker rfl, hidle⟩

/-! ### The end -/

omit [Fintype T] in
theorem Run.matched {p : Program T} {ls : List (ProgramLabel T)}
    (h : Run (ProgramStep rj roles) (Program.start T rj file) ls p) : p.Matched roles :=
  Run.invariant (fun _ p => p.Matched roles) (Program.matched_start rj roles file) (fun hm hs => hs.matched hm) h

omit [Fintype T] in
/-- The engine below a run of the program. -/
theorem Run.engine {p : Program T} {ls : List (ProgramLabel T)}
    (h : Run (ProgramStep rj roles) (Program.start T rj file) ls p) :
    ∃ ls', Run (Step rj) (World.start T (BackgroundWorker.loadedEngine rj file) file) ls' p.world := by
  refine Run.invariant (fun _ p => ∃ ls', Run (Step rj)
    (World.start T (BackgroundWorker.loadedEngine rj file) file) ls' p.world) ⟨[], .nil⟩ (fun hi hs => ?_) h
  obtain ⟨ls', hrun⟩ := hi
  cases hs with
  | control => exact ⟨ls', hrun⟩
  | begins _ _ hs | ends _ _ hs | exec hs | server _ _ _ hs => exact ⟨_, hrun.snoc hs⟩

omit [Fintype T] in
/-- When the program has ended, the file holds the values of the records. -/
theorem Run.values_at_end (hp : rj.ParsesOwnText) {p : Program T} {ls : List (ProgramLabel T)}
    (h : Run (ProgramStep rj roles) (Program.start T rj file) ls p) (hended : p.Ended) :
    (BackgroundWorker.loadedEngine rj p.world.memory.file).values = p.world.memory.engine.values := by
  obtain ⟨-, hsession⟩ := Run.sessions h
  have hphase : p.system.phase = .saving := by
    show p.control.main.phase = .saving
    rw [hended.main]
    rfl
  exact (Run.durable hp hsession).values_saved hp hphase hended.idle

/-- From every state of the program in which `stop_notify` has set the flag, in every order of the steps: the program
takes no more steps than it has left by then; it stops only when `main` has exited, after the worker and with no call
in progress; and then the values of the file are those of the records.  Such an end is always there. -/
theorem program_ends (hp : rj.ParsesOwnText) {p : Program T} {ls : List (ProgramLabel T)}
    (h : Run (ProgramStep rj roles) (Program.start T rj file) ls p) (hflag : p.control.terminating = true) :
    (∀ ls' p', Run (ProgramStep rj roles) p ls' p' →
      ls'.length + p'.remaining ≤ p.remaining ∧
        (Stuck (ProgramStep rj roles) p' → p'.Ended ∧
          (BackgroundWorker.loadedEngine rj p'.world.memory.file).values = p'.world.memory.engine.values)) ∧
    ∃ ls' p', Run (ProgramStep rj roles) p ls' p' ∧ p'.Ended := by
  have hconsumes : Consumes (ProgramStep rj roles)
      (fun p : Program T => p.Quiet roles ∧ p.control.terminating = true) Program.remaining := by
    refine ⟨fun ⟨hq, hset⟩ hs => ⟨hs.quiet hq, ?_⟩, fun ⟨hq, hset⟩ hs => hs.remaining_lt hq.coherent hset⟩
    cases hs with
    | control hc | begins hc | ends hc => exact hc.terminating_mono hset
    | exec | server => exact hset
  have hstart : p.Quiet roles ∧ p.control.terminating = true := ⟨(Run.sessions h).1, hflag⟩
  have hended : ∀ ls' p', Run (ProgramStep rj roles) p ls' p' → Stuck (ProgramStep rj roles) p' → p'.Ended := by
    intro ls' p' h' hstuck
    have hrun := h.append h'
    obtain ⟨⟨hq, hset⟩, -⟩ := Run.length_add_measure_le hconsumes hstart h'
    obtain ⟨_, hengine⟩ := Run.engine hrun
    exact Program.ended_of_stuck hq.coherent hset (Run.matched hrun) (Run.lockAgrees hengine) (Run.knows hengine)
      (Run.lists hengine) hstuck
  refine ⟨fun ls' p' h' => ⟨(Run.length_add_measure_le hconsumes hstart h').2, fun hstuck => ?_⟩, ?_⟩
  · have hend := hended ls' p' h' hstuck
    exact ⟨hend, Run.values_at_end hp (h.append h') hend⟩
  · obtain ⟨ls', p', h', hstuck⟩ := Run.exists_stuck hconsumes hstart
    exact ⟨ls', p', h', hended ls' p' h' hstuck⟩

end Program

section Runs

attribute [local instance] Allocator.exact

open SmallThread

/-- The flag is set while the worker reads the statistics. -/
theorem flag_set_while_printing : ∃ (ls : List (ProgramLabel SmallThread)) (p : Program SmallThread),
    Run (ProgramStep JsonText.library roles) (.start SmallThread JsonText.library none) ls p ∧
      p.control.terminating = true ∧ p.world.thread worker = .running 0 .statisticsReads ∧ p.remaining = 99 ∧
      ∃ ls' p', Run (ProgramStep JsonText.library roles) p ls' p' ∧ p'.Ended := by
  have h₀ : Run (ProgramStep JsonText.library roles) (.start SmallThread JsonText.library none) [] _ := .nil
  have h₁ := h₀.snoc (.begins (.move .startBody) rfl (.invoke .getGlobalStatistics rfl))
  have h₂ := h₁.snoc (.control .serverReturned rfl rfl fun _ t ht => Function.update_of_ne ht ..)
  have h₃ := h₂.snoc (.control .mainLock rfl rfl (by intro h; cases h))
  have h₄ := h₃.snoc (.control .setTerminating rfl rfl (by intro h; cases h))
  exact ⟨_, _, h₄, rfl, rfl, rfl, (program_ends JsonText.parsesOwnText h₄ rfl).2⟩

end Runs

end KeyValueServer
