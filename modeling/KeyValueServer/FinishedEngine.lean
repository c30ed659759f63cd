import KeyValueServer.Sessions

/-!
# The engine with the placed calls finished

A call takes its place in the order of the calls at one point, and counts itself globally at a later one.  What it owes
in between is added to the counters, so that the engine in which every placed call is finished (`World.finished`)
changes at the points where calls take their places, by the whole operation with its counters (`EngineSpec`), and
nowhere else.
-/

namespace KeyValueServer

open Concurrency

def Op.isGet : Op → Bool
  | .get _ => true
  | _ => false

def Op.isSet : Op → Bool
  | .set _ _ => true
  | _ => false

/-- A `get` that has its place in the order and is not counted globally yet. -/
def Pc.owesGet : Pc → Bool
  | .getMiss _ | .getWrites _ _ | .getGlobal _ _ => true
  | _ => false

/-- A `set` that has its place in the order and is not counted globally yet. -/
def Pc.owesSet : Pc → Bool
  | .setFind _ _ | .setEmplace _ _ | .setWrites _ _ | .setAssign _ _ | .setGlobal _ _ => true
  | _ => false

/-- The result that the call of a thread is going to return. -/
def Thread.committed (data : DataCollection) : Thread → Option Result
  | .idle => none
  | .running _ pc => pc.committed data

/-- The call is one of these and has its place in the order. -/
def Pc.placed (data : DataCollection) (p : Op → Bool) (pc : Pc) : Bool := p pc.op && (pc.committed data).isSome

section Engine

variable {T : Type} [DecidableEq T] [Allocator]

/-- What a `get` adds to the global counter, it owed since it took its place. -/
theorem Exec.owesGet_balance {rj : RapidJson} {t : T} {m m' : Memory T} {pc pc' : Pc} (h : Exec rj t m pc m' pc')
    (hk : pc.Knows m.data) :
    m'.engine.reads + .ofNat pc'.owesGet.toNat + .ofNat (pc.placed m.data Op.isGet).toNat =
      m.engine.reads + .ofNat pc.owesGet.toNat + .ofNat (pc'.placed m'.data Op.isGet).toNat := by
  cases h with
  | getFindMiss | getFindHit => simp [Pc.placed, Pc.op, Op.isGet, Pc.committed, Pc.owesGet]
  | getMiss =>
    show m.engine.reads + 1 + 0 + 1 = m.engine.reads + 1 + 1
    grind
  | @getReads name record hr =>
    show m.engine.reads + 1 + 0 = m.engine.reads + 0 + .ofNat (Pc.placed (m.data.fetchAddReads name) _ _).toNat
    simp [Pc.placed, Pc.op, Op.isGet, Pc.committed, DataCollection.lookup_fetchAddReads, hr]
  | getWrites hr => simp [Pc.placed, Pc.op, Op.isGet, Pc.committed, hr, Pc.owesGet]
  | @getGlobal name stats =>
    obtain ⟨record, hr⟩ := Finmap.mem_iff.1 hk
    have hplaced : (Pc.getGlobal name stats).placed m.data Op.isGet = true ∧
        (Pc.getCopy name stats).placed m.data Op.isGet = true := by
      simp [Pc.placed, Pc.op, Op.isGet, Pc.committed, hr]
    show m.engine.reads + 1 + 0 + .ofNat (Pc.placed m.data _ _).toNat =
      m.engine.reads + 1 + .ofNat (Pc.placed m.data _ _).toNat
    rw [hplaced.1, hplaced.2, UInt64.add_zero]
  | getCopy hr => simp [Pc.placed, Pc.op, Op.isGet, Pc.committed, hr, Pc.owesGet]
  | @enumerateBegin visitor | @enumerateNext visitor | @enumerateEnd visitor | @enumerateLock visitor =>
    cases visitor <;> rfl
  | _ => rfl

/-- The same for a `set`. -/
theorem Exec.owesSet_balance {rj : RapidJson} {t : T} {m m' : Memory T} {pc pc' : Pc} (h : Exec rj t m pc m' pc') :
    m'.engine.writes + .ofNat pc'.owesSet.toNat + .ofNat (pc.placed m.data Op.isSet).toNat =
      m.engine.writes + .ofNat pc.owesSet.toNat + .ofNat (pc'.placed m'.data Op.isSet).toNat := by
  cases h with
  | setLock => simp [Pc.placed, Pc.op, Op.isSet, Pc.committed, Pc.owesSet]
  | setGlobal =>
    show m.engine.writes + 1 + 0 + 1 = m.engine.writes + 1 + 1
    grind
  | @enumerateBegin visitor | @enumerateNext visitor | @enumerateEnd visitor | @enumerateLock visitor =>
    cases visitor <;> rfl
  | _ => rfl

/-- A step does not change what the calls of the other threads are committed to. -/
theorem Step.committed_other {rj : RapidJson} {w w' : World T} {l : Label T} (hs : Step rj w l w') (hl : w.LockAgrees)
    (hcalls : w.Calls fun _ op => op.AfterLoading) {t : T} (hne : t ≠ l.thread) :
    (w'.thread t).committed w'.memory.data = (w.thread t).committed w.memory.data := by
  rw [hs.thread_of_ne hne]
  cases hs with
  | invoke | ret => rfl
  | exec ht he =>
    cases hthread : w.thread t with
    | idle => rfl
    | running c pc => exact he.committed_other hl ht (hcalls _ _ _ ht) hne hthread

variable [Fintype T]

/-- The engine as it is when the calls that have their place in the order are finished. -/
def World.finished (w : World T) : DataEngine where
  data := w.sequential
  reads := w.memory.engine.reads + .ofNat (w.count Pc.owesGet)
  writes := w.memory.engine.writes + .ofNat (w.count Pc.owesSet)

omit [DecidableEq T] in
/-- When no call is in progress, this is the engine itself. -/
theorem World.finished_of_idle {w : World T} (h : ∀ t, w.thread t = .idle) : w.finished = w.memory.engine := by
  rw [World.finished, w.sequential_of_idle h, w.count_of_idle h, w.count_of_idle h]
  show DataEngine.mk _ (_ + 0) (_ + 0) = _
  rw [UInt64.add_zero, UInt64.add_zero]
  rfl

/-- One operation run alone on the engine, with its counters. -/
structure EngineSpec (e : DataEngine) (op : Op) (res : Result) (e' : DataEngine) : Prop where
  data : Spec e.data op res e'.data
  reads : e'.reads = e.reads + .ofNat op.isGet.toNat
  writes : e'.writes = e.writes + .ofNat op.isSet.toNat

/-- An invocation or a return leaves the finished engine as it is. -/
theorem Step.finished_of_event {rj : RapidJson} {w w' : World T} {l : Label T} (hs : Step rj w l w')
    (hl : w.LockAgrees) (hl' : ∀ t c pc, l ≠ .exec t c pc) : w'.finished = w.finished := by
  have hcount : ∀ p : Pc → Bool, (∀ op : Op, p op.start = false) → (∀ op res, p (.returning op res) = false) →
      UInt64.ofNat (w'.count p) = .ofNat (w.count p) := by
    intro p hstart hreturning
    have hc := hs.count p
    cases hs with
    | invoke op ht =>
      simp only [Label.thread, ht, Thread.is, Function.update_self, hstart] at hc
      simpa using hc
    | exec => exact absurd rfl (hl' _ _ _)
    | ret ht =>
      simp only [Label.thread, ht, Thread.is, Function.update_self, hreturning] at hc
      simpa using hc
  have hseq : w'.sequential = w.sequential := by
    rcases hs.sequential hl with ⟨-, -, he⟩ | ⟨he, he'⟩
    · exact he
    · rw [he', he]
      cases hs with
      | invoke op ht =>
        simp only [Label.thread, Function.update_self, ht]
        exact Pc.finish_of_not_exclusive (by rw [Op.hold_start]; decide) _
      | exec => exact absurd rfl (hl' _ _ _)
      | ret ht =>
        simp only [Label.thread, Function.update_self, ht]
        rfl
  have hengine : w'.memory = w.memory := by
    cases hs with
    | exec => exact absurd rfl (hl' _ _ _)
    | _ => rfl
  rw [World.finished, World.finished, hseq, hengine,
    hcount Pc.owesGet (fun op => by cases op <;> rfl) (fun _ _ => rfl),
    hcount Pc.owesSet (fun op => by cases op <;> rfl) (fun _ _ => rfl)]

omit [Allocator] in
theorem Pc.placed_eq {data data' : DataCollection} {pc pc' : Pc} (hop : pc'.op = pc.op)
    (h : pc'.committed data' = pc.committed data) (p : Op → Bool) : pc'.placed data' p = pc.placed data p := by
  rw [Pc.placed, Pc.placed, hop, h]

/-- What executing a point means for the finished engine: nothing, or the call is made on it. -/
theorem Step.finished_of_exec {rj : RapidJson} {w w' : World T} {t : T} {c : Nat} {pc : Pc}
    (hs : Step rj w (.exec t c pc) w') (hl : w.LockAgrees) (hk : w.Knows) (hop : pc.op.AfterLoading) :
    ∃ pc', w'.thread t = .running c pc' ∧ pc'.op = pc.op ∧
      ((pc'.committed w'.memory.data = pc.committed w.memory.data ∧ w'.finished = w.finished) ∨
        ∃ result, pc.committed w.memory.data = none ∧ pc'.committed w'.memory.data = some result ∧
          EngineSpec w.finished pc.op result w'.finished) := by
  have hseq := hs.sequential hl
  have hcountGet := hs.count Pc.owesGet
  have hcountSet := hs.count Pc.owesSet
  cases hs with
  | @exec _ _ _ pc' m' ht he =>
    have hgets := he.owesGet_balance (hk _ _ _ ht)
    have hsets := he.owesSet_balance
    simp only [Label.thread, Function.update_self, ht, Thread.is] at hseq hcountGet hcountSet
    refine ⟨pc', Function.update_self .., he.op_eq, ?_⟩
    rcases he.commits hop (hk _ _ _ ht) with hst | ⟨result, hc⟩
    · left
      refine ⟨hst.committed, ?_⟩
      rw [Pc.placed_eq he.op_eq hst.committed] at hgets hsets
      unfold World.finished
      congr 1
      · rcases hseq with ⟨-, -, he'⟩ | ⟨he₁, he₂⟩
        · exact he'
        · exact he₂.trans (hst.finish.trans he₁.symm)
      · grind
      · grind
    · right
      refine ⟨result, hc.before, hc.after, ?_, ?_, ?_⟩
      · rcases hseq with ⟨hout, hout', he'⟩ | ⟨he₁, he₂⟩
        · show Spec w.sequential _ _ (World.sequential _)
          rw [he']
          exact hc.spec_outside he hout hout' _
        · show Spec w.sequential _ _ (World.sequential _)
          rw [he₂, he₁]
          exact hc.spec
      · simp only [Pc.placed, hc.before, hc.after, he.op_eq] at hgets
        simp at hgets
        show m'.engine.reads + _ = w.memory.engine.reads + _ + _
        grind
      · simp only [Pc.placed, hc.before, hc.after, he.op_eq] at hsets
        simp at hsets
        show m'.engine.writes + _ = w.memory.engine.writes + _ + _
        grind

end Engine

end KeyValueServer
