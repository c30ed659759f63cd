import KeyValueServer.Concurrency.Run

/-!
# The shutdown of the worker

`run` of the background worker prints, saves when it is time to, and then sleeps on a condition variable until the
next round, or until `stop_notify` has set `m_terminating`.  `main` calls `stop_notify` once when the server has
returned, waits for the worker, and stores the data itself.

`wait_until` with a predicate is a loop: it checks the predicate, gives the mutex back and falls asleep in one step,
and takes the mutex again when it was notified, at the time-out, or for no reason; after a time-out it checks the
predicate once more.  No order of the steps loses the wake-up (`worker_shutdown`), and the worker returns within a few
steps of its own (`Run.worker_returns`).
-/

namespace KeyValueServer

open Concurrency

namespace WorkerShutdown

/-- Where `run` of the worker is. -/
inductive WorkerPc
  | loopHead
  | printing
  | printed
  | storing
  | locking
  | checking
  | asleep (notified : Bool)
  | waking (timedOut : Bool)
  | rechecking
  | unlocking (terminating : Bool)
  | returned
  deriving DecidableEq

/-- Where `main` is; from `locking` to `notifying` it is in `stop_notify`. -/
inductive MainPc
  | serving
  | locking
  | setting
  | unlocking
  | notifying
  | waiting
  | storing
  | exited
  deriving DecidableEq

inductive Party
  | worker
  | main
  deriving DecidableEq

/-- The worker, `main`, the owner of `m_protect`, and `m_terminating`. -/
structure State where
  worker : WorkerPc
  main : MainPc
  owner : Option Party
  terminating : Bool
  deriving DecidableEq

def State.start : State where
  worker := .loopHead
  main := .serving
  owner := none
  terminating := false

/-- The steps of the worker. -/
inductive WorkerEvent
  | startBody
  | printStatistics
  | startStore
  | finishStore
  | skipStore
  | lock
  | seeTerminating
  | sleep
  | wakeNotified
  | wakeSpuriously
  | timeOut
  | relock
  | recheck
  | unlock
  | leaveLoop
  deriving DecidableEq

/-- The steps of `main`. -/
inductive MainEvent
  | serverReturned
  | lock
  | setTerminating
  | unlock
  | notifyAll
  | startStore
  | finishStore
  deriving DecidableEq

inductive Event
  | worker (e : WorkerEvent)
  | main (e : MainEvent)
  deriving DecidableEq

/-- `notify_all`, as the worker sees it. -/
def WorkerPc.notify : WorkerPc → WorkerPc
  | .asleep _ => .asleep true
  | pc => pc

/-- What the worker does without the mutex. -/
inductive WorkerMove : WorkerPc → WorkerEvent → WorkerPc → Prop
  | startBody : WorkerMove .loopHead .startBody .printing
  | printStatistics : WorkerMove .printing .printStatistics .printed
  | startStore : WorkerMove .printed .startStore .storing
  | finishStore : WorkerMove .storing .finishStore .locking
  | skipStore : WorkerMove .printed .skipStore .locking
  | wakeNotified : WorkerMove (.asleep true) .wakeNotified (.waking false)
  | wakeSpuriously {notified : Bool} : WorkerMove (.asleep notified) .wakeSpuriously (.waking false)
  | timeOut {notified : Bool} : WorkerMove (.asleep notified) .timeOut (.waking true)

inductive Step : State → Event → State → Prop
  | move {pc pc' : WorkerPc} {m : MainPc} {owner : Option Party} {flag : Bool} {e : WorkerEvent} :
      WorkerMove pc e pc' → Step ⟨pc, m, owner, flag⟩ (.worker e) ⟨pc', m, owner, flag⟩
  | lock {m : MainPc} {flag : Bool} :
      Step ⟨.locking, m, none, flag⟩ (.worker .lock) ⟨.checking, m, some .worker, flag⟩
  | seeTerminating {m : MainPc} {owner : Option Party} :
      Step ⟨.checking, m, owner, true⟩ (.worker .seeTerminating) ⟨.unlocking true, m, owner, true⟩
  -- the mutex is released and the worker falls asleep in one step
  | sleep {m : MainPc} {owner : Option Party} :
      Step ⟨.checking, m, owner, false⟩ (.worker .sleep) ⟨.asleep false, m, none, false⟩
  | relock {m : MainPc} {flag timedOut : Bool} :
      Step ⟨.waking timedOut, m, none, flag⟩ (.worker .relock)
        ⟨if timedOut then .rechecking else .checking, m, some .worker, flag⟩
  -- `wait_until` returns what the predicate says after the time-out
  | recheck {m : MainPc} {owner : Option Party} {flag : Bool} :
      Step ⟨.rechecking, m, owner, flag⟩ (.worker .recheck) ⟨.unlocking flag, m, owner, flag⟩
  | unlock {m : MainPc} {owner : Option Party} {flag : Bool} :
      Step ⟨.unlocking false, m, owner, flag⟩ (.worker .unlock) ⟨.loopHead, m, none, flag⟩
  | leaveLoop {m : MainPc} {owner : Option Party} {flag : Bool} :
      Step ⟨.unlocking true, m, owner, flag⟩ (.worker .leaveLoop) ⟨.returned, m, none, flag⟩
  | serverReturned {pc : WorkerPc} {owner : Option Party} {flag : Bool} :
      Step ⟨pc, .serving, owner, flag⟩ (.main .serverReturned) ⟨pc, .locking, owner, flag⟩
  | mainLock {pc : WorkerPc} {flag : Bool} :
      Step ⟨pc, .locking, none, flag⟩ (.main .lock) ⟨pc, .setting, some .main, flag⟩
  | setTerminating {pc : WorkerPc} {owner : Option Party} {flag : Bool} :
      Step ⟨pc, .setting, owner, flag⟩ (.main .setTerminating) ⟨pc, .unlocking, owner, true⟩
  | mainUnlock {pc : WorkerPc} {owner : Option Party} {flag : Bool} :
      Step ⟨pc, .unlocking, owner, flag⟩ (.main .unlock) ⟨pc, .notifying, none, flag⟩
  | notifyAll {pc : WorkerPc} {owner : Option Party} {flag : Bool} :
      Step ⟨pc, .notifying, owner, flag⟩ (.main .notifyAll) ⟨pc.notify, .waiting, owner, flag⟩
  -- the future of the worker is ready
  | startStore {owner : Option Party} {flag : Bool} :
      Step ⟨.returned, .waiting, owner, flag⟩ (.main .startStore) ⟨.returned, .storing, owner, flag⟩
  | finishStore {pc : WorkerPc} {owner : Option Party} {flag : Bool} :
      Step ⟨pc, .storing, owner, flag⟩ (.main .finishStore) ⟨pc, .exited, owner, flag⟩

/-- The worker holds `m_protect`. -/
def WorkerPc.holds : WorkerPc → Bool
  | .checking | .rechecking | .unlocking _ => true
  | _ => false

def MainPc.holds : MainPc → Bool
  | .setting | .unlocking => true
  | _ => false

/-- `main` has set `m_terminating`. -/
def MainPc.hasSet : MainPc → Bool
  | .serving | .locking | .setting => false
  | _ => true

/-- `stop_notify` has returned. -/
def MainPc.hasNotified : MainPc → Bool
  | .waiting | .storing | .exited => true
  | _ => false

/-- `main` has seen that the worker has returned. -/
def MainPc.hasJoined : MainPc → Bool
  | .storing | .exited => true
  | _ => false

/-- The mutex has the owner that the two program counters say, the flag is what `stop_notify` has made it, and a worker
that sleeps with the flag set has its notification or is about to get it. -/
structure Coherent (s : State) : Prop where
  worker_owns : s.owner = some .worker ↔ s.worker.holds = true
  main_owns : s.owner = some .main ↔ s.main.holds = true
  flag : s.terminating = s.main.hasSet
  verdict : ∀ b, s.worker = .unlocking b → b = s.terminating
  asleep : s.worker = .asleep false → s.main.hasNotified = false
  joined : s.main.hasJoined = true → s.worker = .returned

theorem coherent_start : Coherent .start := by
  constructor <;> simp [State.start, WorkerPc.holds, MainPc.holds, MainPc.hasSet, MainPc.hasJoined]

theorem WorkerMove.frame {pc pc' : WorkerPc} {e : WorkerEvent} (h : WorkerMove pc e pc') :
    pc.holds = false ∧ pc'.holds = false ∧ pc ≠ .returned ∧ (∀ b, pc' ≠ .unlocking b) ∧ (∀ b, pc' ≠ .asleep b) := by
  cases h <;> simp [WorkerPc.holds]

@[simp] theorem WorkerPc.holds_notify (pc : WorkerPc) : pc.notify.holds = pc.holds := by
  cases pc <;> rfl

theorem WorkerPc.notify_eq_iff {pc pc' : WorkerPc} (h : ∀ b, pc' ≠ .asleep b) : pc.notify = pc' ↔ pc = pc' := by
  cases pc with
  | asleep b =>
    constructor
    · intro he
      exact absurd he.symm (h true)
    · intro he
      exact absurd he.symm (h b)
  | _ => exact Iff.rfl

/-- While the worker holds the mutex, or nobody does, `main` does not. -/
theorem Coherent.main_holds {s : State} (hs : Coherent s) (h : s.owner ≠ some .main) : s.main.holds = false :=
  eq_false_of_ne_true fun hm => h (hs.main_owns.2 hm)

/-- A step of the worker that takes the mutex or keeps it. -/
theorem Coherent.worker_holding {pc pc' : WorkerPc} {m : MainPc} {owner : Option Party} {flag : Bool}
    (hs : Coherent ⟨pc, m, owner, flag⟩) (howner : owner ≠ some .main) (hne : pc ≠ .returned)
    (hholds : pc'.holds = true) (hverdict : ∀ b, pc' = .unlocking b → b = flag) :
    Coherent ⟨pc', m, some .worker, flag⟩ where
  worker_owns := by simp [hholds]
  main_owns := by simp [hs.main_holds howner]
  flag := hs.flag
  verdict := hverdict
  asleep hpc := by
    simp only at hpc
    rw [hpc] at hholds
    cases hholds
  joined hj := absurd (hs.joined hj) hne

/-- A step of the worker that gives the mutex back. -/
theorem Coherent.worker_releasing {pc pc' : WorkerPc} {m : MainPc} {owner : Option Party} {flag : Bool}
    (hs : Coherent ⟨pc, m, owner, flag⟩) (hpc : pc.holds = true) (hne : pc ≠ .returned) (hfree : pc'.holds = false)
    (hasleep : pc' = .asleep false → m.hasNotified = false) : Coherent ⟨pc', m, none, flag⟩ where
  worker_owns := by simp [hfree]
  main_owns := by
    have howner : owner = some .worker := hs.worker_owns.2 hpc
    have hm := hs.main_holds (by simp [howner])
    simp [hm]
  flag := hs.flag
  verdict b hb := by
    simp only at hb
    rw [hb] at hfree
    cases hfree
  asleep := hasleep
  joined hj := absurd (hs.joined hj) hne

theorem MainPc.hasNotified_le {m : MainPc} (h : m.hasSet = false) : m.hasNotified = false := by
  cases m <;> first | rfl | cases h

/-- The steps of the worker. -/
theorem Step.coherent_worker {s s' : State} {e : WorkerEvent} (h : Step s (.worker e) s') (hs : Coherent s) :
    Coherent s' := by
  cases h with
  | move hm =>
    obtain ⟨hpc, hpc', hne, hunlocking, hsleeping⟩ := hm.frame
    obtain ⟨hworker, hmain, hflag, -, -, hjoined⟩ := hs
    refine ⟨?_, hmain, hflag, fun b hb => absurd hb (hunlocking b), fun hb => absurd hb (hsleeping false), ?_⟩
    · simpa [hpc, hpc'] using hworker
    · intro hj
      exact absurd (hjoined hj) hne
  | lock => exact hs.worker_holding (by simp) (by simp) rfl (by simp)
  | relock =>
    refine hs.worker_holding (by simp) (by simp) ?_ ?_
    · split <;> rfl
    · split <;> simp
  | @seeTerminating m owner =>
    have howner : owner = some .worker := hs.worker_owns.2 rfl
    subst howner
    exact hs.worker_holding (by simp) (by simp) rfl (by simp)
  | @recheck m owner flag =>
    have howner : owner = some .worker := hs.worker_owns.2 rfl
    subst howner
    exact hs.worker_holding (by simp) (by simp) rfl (by simp)
  | sleep => exact hs.worker_releasing rfl (by simp) rfl fun _ => MainPc.hasNotified_le hs.flag.symm
  | unlock => exact hs.worker_releasing rfl (by simp) rfl (by simp)
  | leaveLoop => exact hs.worker_releasing rfl (by simp) rfl (by simp)

/-- The steps of `main`. -/
theorem Step.coherent_main {s s' : State} {e : MainEvent} (h : Step s (.main e) s') (hs : Coherent s) :
    Coherent s' := by
  obtain ⟨hworker, hmain, hflag, hverdict, hasleep, hjoined⟩ := hs
  cases h with
  | serverReturned => exact ⟨hworker, hmain, hflag, hverdict, hasleep, nofun⟩
  | mainLock =>
    refine ⟨?_, by simp [MainPc.holds], hflag, hverdict, hasleep, nofun⟩
    simpa using hworker
  | @setTerminating pc owner flag =>
    have howner : owner = some .main := hmain.2 rfl
    subst howner
    refine ⟨hworker, hmain, rfl, fun b hb => ?_, hasleep, nofun⟩
    -- the worker does not hold the mutex, so it is not about to unlock it
    simp only at hb
    rw [hb] at hworker
    simp [WorkerPc.holds] at hworker
  | @mainUnlock pc owner flag =>
    have howner : owner = some .main := hmain.2 rfl
    subst howner
    refine ⟨?_, by simp [MainPc.holds], hflag, hverdict, hasleep, nofun⟩
    simpa using hworker
  | @notifyAll pc owner flag =>
    refine ⟨?_, hmain, hflag, fun b hb => ?_, fun hb => ?_, nofun⟩
    · rw [WorkerPc.holds_notify]
      exact hworker
    · exact hverdict b ((WorkerPc.notify_eq_iff (by simp)).1 hb)
    · cases pc <;> cases hb
  | startStore => exact ⟨hworker, hmain, hflag, hverdict, nofun, fun _ => rfl⟩
  | finishStore => exact ⟨hworker, hmain, hflag, hverdict, hasleep, hjoined⟩

theorem Step.coherent {s s' : State} {e : Event} (h : Step s e s') (hs : Coherent s) : Coherent s' := by
  cases e with
  | worker e => exact h.coherent_worker hs
  | main e => exact h.coherent_main hs

theorem Run.coherent {s : State} {ls : List Event} (h : Run Step .start ls s) : Coherent s :=
  Run.invariant (fun _ s => Coherent s) coherent_start (fun hs hl => hl.coherent hs) h

/-! ### The end of the worker -/

/-- How many steps the worker takes at most when the flag is set. -/
def WorkerPc.measure : WorkerPc → Nat
  | .loopHead => 9
  | .printing => 8
  | .printed => 7
  | .storing => 6
  | .locking => 5
  | .asleep _ => 4
  | .waking _ => 3
  | .checking | .rechecking => 2
  | .unlocking _ => 1
  | .returned => 0

/-- When the flag is set, every step of the worker brings it nearer to its end. -/
theorem Step.measure_lt {s s' : State} {e : WorkerEvent} (h : Step s (.worker e) s') (hs : Coherent s)
    (hflag : s.terminating = true) : s'.worker.measure < s.worker.measure := by
  cases h with
  | move hm => cases hm <;> simp [WorkerPc.measure]
  | lock | seeTerminating | recheck | leaveLoop => simp [WorkerPc.measure]
  | relock =>
    dsimp only
    split <;> simp [WorkerPc.measure]
  | sleep => cases hflag
  | unlock =>
    have hverdict := hs.verdict false rfl
    rw [hflag] at hverdict
    cases hverdict

/-- The mutex is free when neither of the two holds it. -/
theorem Coherent.owner_none {s : State} (hs : Coherent s) (hworker : s.worker.holds = false)
    (hmain : s.main.holds = false) : s.owner = none := by
  cases ho : s.owner with
  | none => rfl
  | some party =>
    cases party with
    | worker =>
      have hholds := hs.worker_owns.1 ho
      rw [hworker] at hholds
      cases hholds
    | main =>
      have hholds := hs.main_owns.1 ho
      rw [hmain] at hholds
      cases hholds

/-- When `stop_notify` has returned, the worker has returned too or can take a step. -/
theorem Coherent.worker_progress {s : State} (hs : Coherent s) (hnotified : s.main.hasNotified = true) :
    s.worker = .returned ∨ ∃ e s', Step s (.worker e) s' := by
  obtain ⟨pc, m, owner, flag⟩ := s
  have hmain : m.holds = false := by cases m <;> first | rfl | cases hnotified
  have hfree : pc.holds = false → owner = none := fun hpc => hs.owner_none hpc hmain
  cases pc with
  | loopHead => exact Or.inr ⟨_, _, .move .startBody⟩
  | printing => exact Or.inr ⟨_, _, .move .printStatistics⟩
  | printed => exact Or.inr ⟨_, _, .move .skipStore⟩
  | storing => exact Or.inr ⟨_, _, .move .finishStore⟩
  | locking =>
    obtain rfl := hfree rfl
    exact Or.inr ⟨_, _, .lock⟩
  | checking =>
    cases flag with
    | true => exact Or.inr ⟨_, _, .seeTerminating⟩
    | false => exact Or.inr ⟨_, _, .sleep⟩
  | asleep notified =>
    cases notified with
    | true => exact Or.inr ⟨_, _, .move .wakeNotified⟩
    | false =>
      -- asleep without a notification, which is the wake-up that would be lost
      have hlost := hs.asleep rfl
      rw [hnotified] at hlost
      cases hlost
  | waking timedOut =>
    obtain rfl := hfree rfl
    exact Or.inr ⟨_, _, .relock⟩
  | rechecking => exact Or.inr ⟨_, _, .recheck⟩
  | unlocking terminating =>
    cases terminating with
    | true => exact Or.inr ⟨_, _, .leaveLoop⟩
    | false => exact Or.inr ⟨_, _, .unlock⟩
  | returned => exact Or.inl rfl

theorem Step.main_of_worker {s s' : State} {e : WorkerEvent} (h : Step s (.worker e) s') : s'.main = s.main := by
  cases h <;> rfl

theorem Coherent.flag_of_notified {s : State} (hs : Coherent s) (hnotified : s.main.hasNotified = true) :
    s.terminating = true := by
  rw [hs.flag]
  cases hm : s.main <;> rw [hm] at hnotified <;> first | rfl | cases hnotified

/-- When `stop_notify` has returned, the worker can go on alone to its end, and has few steps left. -/
theorem Coherent.worker_returns {s : State} (hs : Coherent s) (hnotified : s.main.hasNotified = true) :
    ∃ (es : List WorkerEvent) (s' : State), Run Step s (es.map .worker) s' ∧ s'.worker = .returned ∧
      es.length ≤ s.worker.measure := by
  induction hn : s.worker.measure using Nat.strongRecOn generalizing s with
  | ind n ih =>
    rcases hs.worker_progress hnotified with hreturned | ⟨e, s₁, hstep⟩
    · exact ⟨[], s, .nil, hreturned, Nat.zero_le _⟩
    · have hlt := hstep.measure_lt hs (hs.flag_of_notified hnotified)
      have hnotified₁ : s₁.main.hasNotified = true := by rw [hstep.main_of_worker, hnotified]
      obtain ⟨es, s', hrun, hreturned, hlen⟩ := ih s₁.worker.measure (by omega) (hstep.coherent hs) hnotified₁ rfl
      refine ⟨e :: es, s', Run.cons hstep hrun, hreturned, ?_⟩
      rw [List.length_cons]
      omega

/-- The worker comes to its end after every `stop_notify`. -/
theorem Run.worker_returns {s : State} {ls : List Event} (h : Run Step .start ls s)
    (hnotified : s.main.hasNotified = true) :
    ∃ (es : List WorkerEvent) (s' : State), Run Step .start (ls ++ es.map .worker) s' ∧ s'.worker = .returned ∧
      es.length ≤ s.worker.measure := by
  obtain ⟨es, s', hrun, hreturned, hlen⟩ := (Run.coherent h).worker_returns hnotified
  exact ⟨es, s', Run.append h hrun, hreturned, hlen⟩

/-! ### Traces -/

theorem snoc_eq_append_cons {α : Type} {ls before after : List α} {l x : α} (h : ls ++ [l] = before ++ x :: after) :
    (after = [] ∧ l = x) ∨ ∃ after', after = after' ++ [l] ∧ ls = before ++ x :: after' := by
  rcases List.eq_nil_or_concat after with rfl | ⟨after', last, rfl⟩
  · left
    obtain ⟨-, hlast⟩ := List.append_inj' h rfl
    exact ⟨rfl, List.head_eq_of_cons_eq hlast⟩
  · right
    rw [List.concat_eq_append, ← List.cons_append, ← List.append_assoc] at h
    obtain ⟨hrest, hlast⟩ := List.append_inj' h rfl
    obtain rfl := List.head_eq_of_cons_eq hlast
    exact ⟨after', List.concat_eq_append, hrest⟩

/-- A body can start before the worker looks at the flag. -/
def WorkerPc.mayStart (pc : WorkerPc) : Nat := if pc = .loopHead then 1 else 0

/-- With the flag set, a body starts only when the worker is at the head of the loop, and it does not come back
there. -/
theorem Step.mayStart_le {s s' : State} {e : Event} (h : Step s e s') (hs : Coherent s)
    (hflag : s.terminating = true) :
    [e].count (.worker .startBody) + s'.worker.mayStart ≤ s.worker.mayStart := by
  cases h with
  | move hm => cases hm <;> simp [WorkerPc.mayStart]
  | sleep => cases hflag
  | unlock =>
    have hverdict := hs.verdict false rfl
    rw [hflag] at hverdict
    cases hverdict
  | relock =>
    dsimp only
    split <;> simp [WorkerPc.mayStart]
  | @notifyAll pc owner flag => cases pc <;> simp [WorkerPc.mayStart, WorkerPc.notify]
  | _ => simp [WorkerPc.mayStart]

/-- Nothing of the worker follows when it has returned. -/
theorem Step.returned {s s' : State} {e : Event} (h : Step s e s') (hs : s.worker = .returned) :
    s'.worker = .returned ∧ ∀ e', e ≠ .worker e' := by
  cases h with
  | move hm => cases hm <;> cases hs
  | lock | seeTerminating | sleep | relock | recheck | unlock | leaveLoop => cases hs
  | @notifyAll pc owner flag =>
    obtain rfl : pc = .returned := hs
    exact ⟨rfl, nofun⟩
  | startStore => exact ⟨rfl, nofun⟩
  | serverReturned | mainLock | setTerminating | mainUnlock | finishStore => exact ⟨hs, nofun⟩

/-- What a trace says about the state that it leads to. -/
structure Traced (ls : List Event) (s : State) : Prop where
  coherent : Coherent s
  set : ∀ before after, ls = before ++ .main .setTerminating :: after →
    s.terminating = true ∧ after.count (.worker .startBody) + s.worker.mayStart ≤ 1
  left : ∀ before after, ls = before ++ .worker .leaveLoop :: after →
    s.worker = .returned ∧ ∀ e, .worker e ∉ after

theorem Step.terminating_mono {s s' : State} {e : Event} (h : Step s e s') (hs : s.terminating = true) :
    s'.terminating = true := by
  cases h with
  | sleep => cases hs
  | seeTerminating | setTerminating => rfl
  | _ => exact hs

theorem Step.traced {ls : List Event} {s s' : State} {e : Event} (h : Step s e s') (hs : Traced ls s) :
    Traced (ls ++ [e]) s' where
  coherent := h.coherent hs.coherent
  set before after he := by
    rcases snoc_eq_append_cons he with ⟨rfl, rfl⟩ | ⟨after', rfl, hls⟩
    · cases h with
      | @setTerminating pc owner flag =>
        refine ⟨rfl, ?_⟩
        rw [List.count_nil, WorkerPc.mayStart]
        split <;> omega
    · obtain ⟨hflag, hcount⟩ := hs.set before after' hls
      have hstep := h.mayStart_le hs.coherent hflag
      refine ⟨h.terminating_mono hflag, ?_⟩
      rw [List.count_append]
      omega
  left before after he := by
    rcases snoc_eq_append_cons he with ⟨rfl, rfl⟩ | ⟨after', rfl, hls⟩
    · cases h with
      | move hm => cases hm
      | leaveLoop => exact ⟨rfl, fun e => List.not_mem_nil⟩
    · obtain ⟨hreturned, hnone⟩ := hs.left before after' hls
      obtain ⟨hstays, hworker⟩ := h.returned hreturned
      refine ⟨hstays, fun e' hmem => ?_⟩
      rcases List.mem_append.1 hmem with hmem | hmem
      · exact hnone e' hmem
      · exact hworker e' (List.mem_singleton.1 hmem).symm

theorem Run.traced {s : State} {ls : List Event} (h : Run Step .start ls s) : Traced ls s := by
  refine Run.invariant Traced ⟨coherent_start, ?_, ?_⟩ (fun hs hl => hl.traced hs) h
  · intro before after he
    simp at he
  · intro before after he
    simp at he

/-- In every order of the steps: when the flag is set and `stop_notify` has returned, the worker does not sleep without
a wake-up pending; at most one body starts after the flag is set; when the worker has left its loop it starts no
further save; and `main` begins the final save only then, so the two never overlap. -/
theorem worker_shutdown {s : State} {ls : List Event} (h : Run Step .start ls s) :
    (s.terminating = true → s.main.hasNotified = true → ∀ notified, s.worker = .asleep notified → notified = true) ∧
    (∀ before after, ls = before ++ .main .setTerminating :: after → after.count (.worker .startBody) ≤ 1) ∧
    (∀ before after, ls = before ++ .worker .leaveLoop :: after → .worker .startStore ∉ after) ∧
    (s.main = .storing → s.worker = .returned) := by
  have ht := Run.traced h
  refine ⟨fun _ hnotified notified hasleep => ?_, fun before after he => ?_, fun before after he => ?_, fun hm => ?_⟩
  · cases notified with
    | true => rfl
    | false =>
      have hlost := ht.coherent.asleep hasleep
      rw [hnotified] at hlost
      cases hlost
  · have hcount := (ht.set before after he).2
    omega
  · exact (ht.left before after he).2 _
  · exact ht.coherent.joined (by rw [hm]; rfl)

/-- The flag is set between the time-out and the next round: one more body starts, and the worker returns before the
final save. -/
theorem one_more_body : ∃ before after s, Run Step .start (before ++ .main .setTerminating :: after) s ∧
    s.main = .storing ∧ after.count (.worker .startBody) = 1 ∧ s.worker = .returned := by
  have h₀ : Run Step .start [] .start := .nil
  have h₁ := h₀.snoc (.move .startBody)
  have h₂ := h₁.snoc (.move .printStatistics)
  have h₃ := h₂.snoc (.move .skipStore)
  have h₄ := h₃.snoc .lock
  have h₅ := h₄.snoc .sleep
  have h₆ := h₅.snoc (.move .timeOut)
  have h₇ := h₆.snoc .relock
  have h₈ := h₇.snoc .recheck
  have h₉ := h₈.snoc .unlock
  have h₁₀ := h₉.snoc .serverReturned
  have h₁₁ := h₁₀.snoc .mainLock
  have h₁₂ := h₁₁.snoc .setTerminating
  have h₁₃ := h₁₂.snoc .mainUnlock
  have h₁₄ := h₁₃.snoc .notifyAll
  have h₁₅ := h₁₄.snoc (.move .startBody)
  have h₁₆ := h₁₅.snoc (.move .printStatistics)
  have h₁₇ := h₁₆.snoc (.move .startStore)
  have h₁₈ := h₁₇.snoc (.move .finishStore)
  have h₁₉ := h₁₈.snoc .lock
  have h₂₀ := h₁₉.snoc .seeTerminating
  have h₂₁ := h₂₀.snoc .leaveLoop
  have h₂₂ := h₂₁.snoc .startStore
  exact ⟨[.worker .startBody, .worker .printStatistics, .worker .skipStore, .worker .lock, .worker .sleep,
      .worker .timeOut, .worker .relock, .worker .recheck, .worker .unlock, .main .serverReturned, .main .lock],
    [.main .unlock, .main .notifyAll, .worker .startBody, .worker .printStatistics, .worker .startStore,
      .worker .finishStore, .worker .lock, .worker .seeTerminating, .worker .leaveLoop, .main .startStore],
    _, h₂₂, rfl, by decide, (worker_shutdown h₂₂).2.2.2 rfl⟩

end WorkerShutdown

end KeyValueServer
