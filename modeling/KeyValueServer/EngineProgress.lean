import KeyValueServer.Concurrency.Counting
import KeyValueServer.Concurrency.Progress
import KeyValueServer.EngineStatistics
import KeyValueServer.Snapshot
import KeyValueServer.WriterExclusion

/-!
# The engine does not hang

No call waits for ever, whatever the order of the steps.  While no further call is begun, every step uses up some of
what the calls in progress have left to do (`World.remaining`, a number that depends on the records and on the writes
that may still insert one), and as long as some call is in progress there is a step: a call that cannot take the lock
waits for one that holds it, and that one can go on (`engine_quiesces`).

The runs are those without data races (`RaceFree`): a call of `initial_set` is alone inside the lock, and no value is
assigned to a record that a call of `store_data` still has to write.  In these runs no reference dangles (`Run.live`).
-/

namespace KeyValueServer

open Concurrency

/-! ### What a call has left to do -/

/-- A write that has not inserted its record yet, and may do so. -/
def Pc.mayInsert : Pc → Bool
  | .setLock _ _ | .setFind _ _ | .setEmplace _ _ | .initialSetLock _ _ | .initialSetFind _ _
  | .initialSetEmplace _ _ => true
  | _ => false

/-- The points that an enumeration has left when it has visited all but `n` names. -/
def Visitor.remaining (n : Nat) : Visitor → Nat
  | .collect _ => n + 3
  | .addToDocument _ document => 2 * n + document.length + 5

/-- The points that a call has left, with its return, when there are going to be at most `n` records. -/
def Pc.remaining (n : Nat) : Pc → Nat
  | .getLock _ => 8
  | .getFind _ => 7
  | .getMiss _ => 3
  | .getReads _ => 6
  | .getWrites _ _ => 5
  | .getGlobal _ _ => 4
  | .getCopy _ _ => 3
  | .getUnlock _ _ => 2
  | .initialSetLock _ _ => 5
  | .initialSetFind _ _ => 4
  | .initialSetEmplace _ _ | .initialSetAssign _ _ => 3
  | .initialSetUnlock _ _ => 2
  | .setLock _ _ => 7
  | .setFind _ _ => 6
  | .setEmplace _ _ => 4
  | .setWrites _ _ => 5
  | .setAssign _ _ => 4
  | .setGlobal _ _ => 3
  | .setUnlock _ _ => 2
  | .enumerateLock visitor => visitor.remaining n + 2
  | .enumerateBegin visitor => visitor.remaining n + 1
  | .enumerateNext visitor rest => visitor.remaining rest.length
  | .enumerateUnlock (.collect _) => 2
  | .enumerateUnlock (.addToDocument _ document) => document.length + 4
  | .statisticsReads => 3
  | .statisticsWrites _ => 2
  | .saveOpen _ document => document.length + 3
  | .saveMembers _ rest _ => rest.length + 2
  | .returning _ _ => 1

def Thread.remaining (n : Nat) : Thread → Nat
  | .idle => 0
  | .running _ pc => pc.remaining n

theorem Pc.remaining_mono {n n' : Nat} (h : n ≤ n') (pc : Pc) : pc.remaining n ≤ pc.remaining n' := by
  cases pc with
  | enumerateLock visitor | enumerateBegin visitor =>
    cases visitor <;> simp only [remaining, Visitor.remaining] <;> omega
  | enumerateUnlock visitor => cases visitor <;> exact Nat.le_refl _
  | _ => exact Nat.le_refl _

namespace DataCollection

theorem length_of_iterationOrder {data : DataCollection} {order : List Bytes} (h : data.IterationOrder order) :
    order.length = data.keys.card := by
  obtain ⟨hnodup, hkeys⟩ := iterationOrder_iff.1 h
  rw [← hkeys, List.toFinset_card_of_nodup hnodup]

theorem exists_iterationOrder (data : DataCollection) : ∃ order, data.IterationOrder order :=
  ⟨data.keys.toList, iterationOrder_iff.2 ⟨data.keys.nodup_toList, data.keys.toList_toFinset⟩⟩

theorem keys_modify (data : DataCollection) (name : Bytes) (g : ExtendedValueInternal → ExtendedValueInternal) :
    (data.modify name g).keys = data.keys := by
  unfold modify
  cases h : data.lookup name with
  | none => rfl
  | some record =>
    have hmem : name ∈ data.keys := Finmap.mem_keys.2 (Finmap.mem_of_lookup_eq_some h)
    exact (keys_insert data name _).trans (Finset.insert_eq_of_mem hmem)

theorem card_keys_emplace (data : DataCollection) (name : Bytes) (record : ExtendedValueInternal) :
    (data.emplace name record).keys.card ≤ data.keys.card + 1 := by
  unfold emplace
  cases h : data.lookup name with
  | none =>
    have hkeys : Finmap.keys (data.insert name record) = insert name data.keys := keys_insert data name record
    rw [hkeys]
    exact Finset.card_insert_le _ _
  | some old => exact Nat.le_succ _

end DataCollection

section Engine

variable {T : Type} [DecidableEq T] [Allocator]

/-- A record is inserted only by a write that might. -/
theorem Exec.card_keys_le {rj : RapidJson} {t : T} {m m' : Memory T} {pc pc' : Pc} (h : Exec rj t m pc m' pc') :
    m'.data.keys.card + pc'.mayInsert.toNat ≤ m.data.keys.card + pc.mayInsert.toNat := by
  have hmodify : ∀ name g, (m.data.modify name g).keys.card = m.data.keys.card := fun name g => by
    rw [DataCollection.keys_modify]
  cases h with
  | @getReads name =>
    show (m.data.modify name _).keys.card + 0 ≤ m.data.keys.card + 0
    rw [hmodify]
  | @setWrites name value | @setAssign name value | @initialSetAssign name value =>
    show (m.data.modify name _).keys.card + 0 ≤ m.data.keys.card + 0
    rw [hmodify]
  | @setEmplace name value | @initialSetEmplace name value => exact m.data.card_keys_emplace name _
  | getLock | getFindMiss | getFindHit | getMiss | getWrites | getGlobal | getCopy | getUnlock | initialSetLock |
    initialSetFindMiss | setLock | setFindMiss => exact Nat.le_refl _
  | initialSetFindHit | setFindHit => exact Nat.le_succ _
  | _ => exact Nat.le_refl _

/-- Every point leaves less to do. -/
theorem Exec.remaining_lt {rj : RapidJson} {t : T} {m m' : Memory T} {pc pc' : Pc} (h : Exec rj t m pc m' pc')
    {n : Nat} (hn : m.data.keys.card ≤ n) : pc'.remaining n < pc.remaining n := by
  cases h with
  | @enumerateBegin visitor order ho =>
    have hlength := DataCollection.length_of_iterationOrder ho
    cases visitor <;> simp only [Pc.remaining, Visitor.remaining] <;> omega
  | @enumerateNext visitor name rest =>
    cases visitor <;>
      simp only [Pc.remaining, Visitor.remaining, Visitor.visit, Document.add, List.length_cons, List.length_append,
        List.length_nil] <;> omega
  | @enumerateEnd visitor =>
    cases visitor <;> simp only [Pc.remaining, Visitor.remaining, List.length_nil] <;> omega
  | saveMember =>
    simp only [Pc.remaining, List.length_cons]
    omega
  | _ => simp [Pc.remaining]

/-! ### There is always a step -/

/-- The names that an enumeration still has to visit are names of records. -/
def Pc.Lists (data : DataCollection) : Pc → Prop
  | .enumerateNext _ rest => ∀ name ∈ rest, name ∈ data
  | _ => True

def World.Lists (w : World T) : Prop := ∀ t c pc, w.thread t = .running c pc → pc.Lists w.memory.data

theorem Exec.lists {rj : RapidJson} {t : T} {m m' : Memory T} {pc pc' : Pc} (h : Exec rj t m pc m' pc')
    (hp : pc.Lists m.data) : pc'.Lists m'.data := by
  cases h with
  | enumerateBegin ho => exact fun name hname => (ho.2 name).1 hname
  | enumerateNext => exact fun name hname => hp name (List.mem_cons_of_mem _ hname)
  | _ => exact trivial

theorem Step.lists {rj : RapidJson} {w w' : World T} {l : Label T} (hs : Step rj w l w') (h : w.Lists) :
    w'.Lists := by
  intro t' c' pc₁ hpc
  cases hs with
  | invoke op ht =>
    rcases update_eq_running hpc with ⟨-, he⟩ | ⟨-, hpc⟩
    · cases he
      cases op <;> exact trivial
    · exact h _ _ _ hpc
  | exec ht he =>
    rcases update_eq_running hpc with ⟨-, heq⟩ | ⟨-, hpc⟩
    · cases heq
      exact he.lists (h _ _ _ ht)
    · have hlists := h _ _ _ hpc
      cases pc₁ with
      | enumerateNext => exact fun name hname => he.mem_data name (hlists name hname)
      | _ => exact trivial
  | ret ht =>
    rcases update_eq_running hpc with ⟨-, he⟩ | ⟨-, hpc⟩
    · cases he
    · exact h _ _ _ hpc

/-- A call takes the lock here. -/
def Pc.waits : Pc → Bool
  | .getLock _ | .initialSetLock _ _ | .setLock _ _ | .enumerateLock _ => true
  | _ => false

omit [Allocator] in
theorem Pc.waits_of_hold {pc : Pc} (h : pc.hold ≠ .none) : pc.waits = false := by
  cases pc <;> first | rfl | exact absurd rfl h

/-- A call that does not wait for the lock can go on. -/
theorem Exec.exists_of_not_waits (rj : RapidJson) (t : T) {m : Memory T} {pc : Pc} (hk : pc.Knows m.data)
    (hp : pc.Lists m.data) (hw : pc.waits = false) (hreturning : ∀ op res, pc ≠ .returning op res) :
    ∃ m' pc', Exec rj t m pc m' pc' := by
  have hfind : ∀ {name}, name ∈ m.data → ∃ record, m.data.lookup name = some record := Finmap.mem_iff.1
  cases pc with
  | getLock | initialSetLock | setLock | enumerateLock => cases hw
  | getFind name =>
    cases hr : m.data.lookup name with
    | none => exact ⟨_, _, .getFindMiss hr⟩
    | some record => exact ⟨_, _, .getFindHit hr⟩
  | getMiss => exact ⟨_, _, .getMiss⟩
  | getReads =>
    obtain ⟨record, hr⟩ := hfind hk
    exact ⟨_, _, .getReads hr⟩
  | getWrites =>
    obtain ⟨record, hr⟩ := hfind hk
    exact ⟨_, _, .getWrites hr⟩
  | getGlobal => exact ⟨_, _, .getGlobal⟩
  | getCopy =>
    obtain ⟨record, hr⟩ := hfind hk
    exact ⟨_, _, .getCopy hr⟩
  | getUnlock => exact ⟨_, _, .getUnlock⟩
  | initialSetFind name =>
    cases hr : m.data.lookup name with
    | none => exact ⟨_, _, .initialSetFindMiss hr⟩
    | some record => exact ⟨_, _, .initialSetFindHit hr⟩
  | initialSetEmplace => exact ⟨_, _, .initialSetEmplace⟩
  | initialSetAssign => exact ⟨_, _, .initialSetAssign⟩
  | initialSetUnlock => exact ⟨_, _, .initialSetUnlock⟩
  | setFind name =>
    cases hr : m.data.lookup name with
    | none => exact ⟨_, _, .setFindMiss hr⟩
    | some record => exact ⟨_, _, .setFindHit hr⟩
  | setEmplace => exact ⟨_, _, .setEmplace⟩
  | setWrites => exact ⟨_, _, .setWrites⟩
  | setAssign => exact ⟨_, _, .setAssign⟩
  | setGlobal => exact ⟨_, _, .setGlobal⟩
  | setUnlock => exact ⟨_, _, .setUnlock⟩
  | enumerateBegin =>
    obtain ⟨order, ho⟩ := m.data.exists_iterationOrder
    exact ⟨_, _, .enumerateBegin ho⟩
  | enumerateNext visitor rest =>
    cases rest with
    | nil => exact ⟨_, _, .enumerateEnd⟩
    | cons name rest =>
      obtain ⟨record, hr⟩ := hfind (hp name List.mem_cons_self)
      exact ⟨_, _, .enumerateNext hr⟩
  | enumerateUnlock visitor =>
    cases visitor with
    | collect => exact ⟨_, _, .enumerateReturn⟩
    | addToDocument => exact ⟨_, _, .enumerateStore⟩
  | statisticsReads => exact ⟨_, _, .statisticsReads⟩
  | statisticsWrites => exact ⟨_, _, .statisticsWrites⟩
  | saveOpen => exact ⟨_, _, .saveOpen⟩
  | saveMembers recordCount rest written =>
    cases rest with
    | nil => exact ⟨_, _, .saveClose⟩
    | cons member rest =>
      -- a dangling reference shows something, too
      obtain ⟨value, hvalue⟩ : ∃ value, ∀ v, member.read m.data = some v → value = v := by
        cases hread : member.read m.data with
        | none => exact ⟨.ref [], nofun⟩
        | some v => exact ⟨v, fun v' hv => Option.some.inj hv⟩
      exact ⟨_, _, .saveMember hvalue⟩
  | returning op res => exact absurd rfl (hreturning op res)

/-! ### Steps without data races -/

/-- No value is assigned to a record that a call still has to write. -/
def PendingKept (w : World T) : Label T → Prop
  | .exec _ _ (.setAssign name _) | .exec _ _ (.initialSetAssign name _) =>
    ∀ t, ∀ member ∈ (w.thread t).pending, member.record ≠ name
  | _ => True

def RaceFree (w : World T) (l : Label T) : Prop := InitialSetAlone w l ∧ PendingKept w l

omit [DecidableEq T] [Allocator] in
/-- A call that does not take the lock may go on when no call has anything left to write. -/
theorem RaceFree.of_not_waits {w : World T} {t : T} {c : Nat} {pc : Pc} (hw : pc.waits = false)
    (hpending : ∀ t, (w.thread t).pending = []) : RaceFree w (.exec t c pc) := by
  have hkept : ∀ {t : T} {member : DocumentMember}, member ∉ (w.thread t).pending := by
    intro t member
    rw [hpending t]
    exact List.not_mem_nil
  cases pc with
  | getLock | initialSetLock | setLock | enumerateLock => cases hw
  | setAssign | initialSetAssign => exact ⟨trivial, fun _ _ hmember => absurd hmember hkept⟩
  | _ => exact ⟨trivial, trivial⟩

omit [Allocator] in
/-- Every call may take the lock when it is free. -/
theorem RaceFree.of_free {w : World T} {t : T} {c : Nat} {pc : Pc} (hl : w.LockAgrees)
    (hfree : ∀ t, w.memory.protectData.hold t = .none) (hw : pc.waits = true) : RaceFree w (.exec t c pc) := by
  have houtside : ∀ t, ¬ (w.thread t).at Pc.inInitialSet := fun t =>
    not_inInitialSet_of_hold (hl.hold_eq t ▸ hfree t)
  cases pc with
  | getLock | enumerateLock => exact ⟨houtside, trivial⟩
  | initialSetLock => exact ⟨SharedMutex.eq_free_iff.2 hfree, trivial⟩
  | setLock => exact ⟨trivial, trivial⟩
  | _ => cases hw

/-- A step that begins no call is possible. -/
def World.GoesOn (rj : RapidJson) (w : World T) : Prop :=
  ∃ l w', Step rj w l w' ∧ RaceFree w l ∧ l.Calls fun _ _ => False

theorem Step.exists_of_not_waits (rj : RapidJson) {w : World T} (hk : w.Knows) (hp : w.Lists) {t : T} {c : Nat}
    {pc : Pc} (ht : w.thread t = .running c pc) (hw : pc.waits = false) (hd : RaceFree w (.exec t c pc)) :
    w.GoesOn rj := by
  by_cases hreturning : ∃ op res, pc = .returning op res
  · obtain ⟨op, res, rfl⟩ := hreturning
    exact ⟨_, _, .ret ht, ⟨trivial, trivial⟩, trivial⟩
  · push Not at hreturning
    obtain ⟨m', pc', he⟩ := Exec.exists_of_not_waits rj t (hk _ _ _ ht) (hp _ _ _ ht) hw hreturning
    exact ⟨_, _, .exec ht he, hd, trivial⟩

/-- A call that has something left to write can go on. -/
theorem Step.exists_of_pending (rj : RapidJson) {w : World T} (hk : w.Knows) (hp : w.Lists) {t : T}
    (hpending : (w.thread t).pending ≠ []) : w.GoesOn rj := by
  cases ht : w.thread t with
  | idle =>
    rw [ht] at hpending
    exact absurd rfl hpending
  | running c pc =>
    rw [ht] at hpending
    cases pc with
    | saveOpen | saveMembers => exact Step.exists_of_not_waits rj hk hp ht rfl ⟨trivial, trivial⟩
    | _ => exact absurd rfl hpending

/-- A call that waits can take the lock when it is free. -/
theorem Exec.exists_of_free (rj : RapidJson) (t : T) {m : Memory T} {pc : Pc} (hw : pc.waits = true)
    (hfree : ∀ t, m.protectData.hold t = .none) : ∃ m' pc', Exec rj t m pc m' pc' := by
  have hlock : m.protectData = .free := SharedMutex.eq_free_iff.2 hfree
  obtain ⟨l, hl, -⟩ := SharedMutex.lockShared_free t
  have hl' := SharedMutex.lock_free t
  rw [← hlock] at hl hl'
  cases pc with
  | getLock => exact ⟨_, _, .getLock hl⟩
  | initialSetLock => exact ⟨_, _, .initialSetLock hl⟩
  | setLock => exact ⟨_, _, .setLock hl'⟩
  | enumerateLock => exact ⟨_, _, .enumerateLock hl⟩
  | _ => cases hw

/-- As long as a call is in progress, there is a step. -/
theorem Step.exists_of_running (rj : RapidJson) {w : World T} (hl : w.LockAgrees) (hk : w.Knows) (hp : w.Lists) {t : T}
    {c : Nat} {pc : Pc} (ht : w.thread t = .running c pc) : w.GoesOn rj := by
  by_cases hpending : ∃ t, (w.thread t).pending ≠ []
  · -- it is written before anything is assigned
    obtain ⟨t, hpending⟩ := hpending
    exact Step.exists_of_pending rj hk hp hpending
  · push Not at hpending
    by_cases hw : pc.waits = true
    · by_cases hfree : ∃ t', w.memory.protectData.hold t' ≠ .none
      · -- the call that holds the lock goes on
        obtain ⟨t', hhold⟩ := hfree
        rw [hl.hold_eq] at hhold
        cases ht' : w.thread t' with
        | idle =>
          rw [ht'] at hhold
          exact absurd rfl hhold
        | running c' pc' =>
          rw [ht'] at hhold
          have hholds := Pc.waits_of_hold hhold
          exact Step.exists_of_not_waits rj hk hp ht' hholds (.of_not_waits hholds hpending)
      · push Not at hfree
        obtain ⟨m', pc', he⟩ := Exec.exists_of_free rj t hw hfree
        exact ⟨_, _, .exec ht he, .of_free hl hfree hw, trivial⟩
    · rw [Bool.not_eq_true] at hw
      exact Step.exists_of_not_waits rj hk hp ht hw (.of_not_waits hw hpending)

/-- The steps that begin no call. -/
abbrev StepWithoutCalls (rj : RapidJson) : World T → Label T → World T → Prop :=
  Restrict (Step rj) fun w l => RaceFree w l ∧ l.Calls fun _ _ => False

/-- Where no step is left, every call has returned. -/
theorem World.idle_of_stuck {rj : RapidJson} {w : World T} (hl : w.LockAgrees) (hk : w.Knows) (hp : w.Lists)
    (h : Stuck (StepWithoutCalls rj) w) (t : T) : w.thread t = .idle := by
  cases ht : w.thread t with
  | idle => rfl
  | running c pc =>
    obtain ⟨l, w', hs, hgood⟩ := Step.exists_of_running rj hl hk hp ht
    exact absurd ⟨hs, hgood⟩ (h l w')

theorem Run.lists {rj : RapidJson} {engine : DataEngine} {file : Option Bytes} {ls : List (Label T)} {w : World T}
    (h : Run (Step rj) (World.start T engine file) ls w) : w.Lists := by
  refine Run.invariant (fun _ w => w.Lists) ?_ (fun hi hs => hs.lists hi) h
  intro t c pc ht
  cases ht

/-! ### No reference dangles -/

/-- The references that a call has taken show characters. -/
def Pc.Live (data : DataCollection) : Pc → Prop
  | .enumerateNext (.addToDocument _ document) _ | .enumerateUnlock (.addToDocument _ document) | .saveOpen _ document
  | .saveMembers _ document _ => ∀ member ∈ document, (member.read data).isSome
  | _ => True

def World.Live (w : World T) : Prop := ∀ t c pc, w.thread t = .running c pc → pc.Live w.memory.data

omit [DecidableEq T] [Allocator] in
theorem World.Live.pending {w : World T} (h : w.Live) (t : T) :
    ∀ member ∈ (w.thread t).pending, (member.read w.memory.data).isSome := by
  intro member hmember
  cases ht : w.thread t with
  | idle =>
    rw [ht] at hmember
    cases hmember
  | running c pc =>
    rw [ht] at hmember
    have hlive := h t c pc ht
    cases pc with
    | saveOpen | saveMembers => exact hlive member hmember
    | _ => cases hmember

/-- The references that a call takes are good. -/
theorem Exec.live {rj : RapidJson} {t : T} {m m' : Memory T} {pc pc' : Pc} (h : Exec rj t m pc m' pc')
    (hk : pc.Knows m.data) (hp : pc.Live m.data) : pc'.Live m'.data := by
  cases h with
  | @enumerateBegin visitor =>
    cases visitor with
    | collect => exact trivial
    | addToDocument recordCount document =>
      obtain ⟨-, rfl⟩ := hk
      exact List.forall_mem_nil _
  | @enumerateNext visitor name rest record hr =>
    cases visitor with
    | collect => exact trivial
    | addToDocument recordCount document =>
      intro member hmember
      rcases List.mem_append.1 hmember with hold | hnew
      · exact hp member hold
      · rw [List.mem_singleton.1 hnew, DocumentMember.read_ref hr]
        rfl
  | @enumerateEnd visitor =>
    cases visitor with
    | collect => exact trivial
    | addToDocument => exact hp
  | enumerateStore | saveOpen => exact hp
  | saveMember => exact fun member hmember => hp member (List.mem_cons_of_mem _ hmember)
  | _ => exact trivial

/-- Another call leaves the references of a call good. -/
theorem Pc.Live.of_other {rj : RapidJson} {w : World T} {t t' : T} {c c' : Nat} {pc pc' pc₁ : Pc} {m' : Memory T}
    (he : Exec rj t w.memory pc m' pc') (ht : w.thread t = .running c pc) (ht' : w.thread t' = .running c' pc₁)
    (hne : t' ≠ t) (hl : w.LockAgrees) (hi : w.InitialSetsAlone) (hg : PendingKept w (.exec t c pc))
    (h : pc₁.Live w.memory.data) : pc₁.Live m'.data := by
  have hkept : ∀ document : Document, (∀ member ∈ document, (member.read w.memory.data).isSome) →
      (∀ member ∈ document, ∀ value, pc ≠ .setAssign member.record value ∧
        pc ≠ .initialSetAssign member.record value) →
      ∀ member ∈ document, (member.read m'.data).isSome := by
    intro document hlive hassign member hmember
    rw [he.read_of_not_assigned (hlive member hmember) (hassign member hmember)]
    exact hlive member hmember
  -- while the call holds the lock, nothing is assigned at all
  have hlocked : pc₁.hold ≠ .none → ∀ name value, pc ≠ .setAssign name value ∧ pc ≠ .initialSetAssign name value := by
    intro hhold name value
    have hno := World.not_mutates_of_hold hl hi hne (by rw [ht']; exact hhold)
    rw [ht] at hno
    constructor
    · rintro rfl
      exact hno trivial
    · rintro rfl
      exact hno trivial
  have hpending : ∀ member ∈ (w.thread t').pending, ∀ value, pc ≠ .setAssign member.record value ∧
      pc ≠ .initialSetAssign member.record value := by
    intro member hmember value
    constructor
    · rintro rfl
      exact hg t' member hmember rfl
    · rintro rfl
      exact hg t' member hmember rfl
  rw [ht'] at hpending
  cases pc₁ with
  | enumerateNext visitor | enumerateUnlock visitor =>
    cases visitor with
    | collect => exact trivial
    | addToDocument => exact hkept _ h fun member _ => hlocked (by simp [hold]) member.record
  | saveOpen | saveMembers => exact hkept _ h hpending
  | _ => exact trivial

theorem Step.live {rj : RapidJson} {w w' : World T} {l : Label T} (hs : Step rj w l w') (hg : RaceFree w l)
    (hl : w.LockAgrees) (hi : w.InitialSetsAlone) (hk : w.Knows) (h : w.Live) : w'.Live := by
  intro t' c' pc₁ hpc
  cases hs with
  | invoke op ht =>
    rcases update_eq_running hpc with ⟨-, he⟩ | ⟨-, hpc⟩
    · cases he
      cases op <;> exact trivial
    · exact h _ _ _ hpc
  | exec ht he =>
    rcases update_eq_running hpc with ⟨-, heq⟩ | ⟨hne, hpc⟩
    · cases heq
      exact he.live (hk _ _ _ ht) (h _ _ _ ht)
    · exact Pc.Live.of_other he ht hpc hne hl hi hg.2 (h _ _ _ hpc)
  | ret ht =>
    rcases update_eq_running hpc with ⟨-, he⟩ | ⟨-, hpc⟩
    · cases he
    · exact h _ _ _ hpc

/-- In a run without data races, no reference dangles. -/
theorem Run.live {rj : RapidJson} {engine : DataEngine} {file : Option Bytes} {ls : List (Label T)} {w : World T}
    (h : Run (Restrict (Step rj) RaceFree) (World.start T engine file) ls w) : w.Live := by
  have hinv : w.LockAgrees ∧ w.InitialSetsAlone ∧ w.Knows ∧ w.Live := by
    refine Run.invariant (fun _ w => w.LockAgrees ∧ w.InitialSetsAlone ∧ w.Knows ∧ w.Live) ?_ ?_ h
    · refine ⟨World.lockAgrees_start engine file, fun _ _ _ ha => ha.elim, ?_, ?_⟩
      · intro t c pc ht
        cases ht
      · intro t c pc ht
        cases ht
    · rintro ls w l w' ⟨hl, hi, hk, hlive⟩ ⟨hs, hg⟩
      exact ⟨hs.lockAgrees hl, hs.initialSetsAlone hg.1 hl hi, hs.knows hl hk, hs.live hg hl hi hk hlive⟩
  exact hinv.2.2.2

/-! ### How long it takes -/

variable [Fintype T]

/-- The number of records that there are, or may come to be by the writes in progress. -/
def World.mayHold (w : World T) : Nat := w.memory.data.keys.card + w.count Pc.mayInsert

/-- The points that all calls in progress have left. -/
def World.remaining (w : World T) : Nat := ∑ t, (w.thread t).remaining w.mayHold

theorem Step.count_eq {rj : RapidJson} {w w' : World T} {l : Label T} (hs : Step rj w l w') (p : Pc → Bool) :
    w'.count p + ((w.thread l.thread).is p).toNat = w.count p + ((w'.thread l.thread).is p).toNat := by
  rw [World.count, hs.thread_eq, countThreads_update, World.count, Function.update_self]

theorem Step.mayHold_le {rj : RapidJson} {w w' : World T} {l : Label T} (hs : Step rj w l w')
    (hl : l.Calls fun _ _ => False) : w'.mayHold ≤ w.mayHold := by
  have hcount := hs.count_eq Pc.mayInsert
  unfold World.mayHold
  cases hs with
  | invoke => exact hl.elim
  | @exec t c pc pc' m' ht he =>
    have hcard := he.card_keys_le
    simp only [Label.thread, ht, Thread.is, Function.update_self] at hcount
    show m'.data.keys.card + _ ≤ _
    omega
  | ret ht =>
    simp only [Label.thread, ht, Thread.is, Function.update_self, Pc.mayInsert, Bool.toNat_false] at hcount
    show w.memory.data.keys.card + _ ≤ _
    omega

/-- Every step that begins no call uses up something. -/
theorem Step.remaining_lt {rj : RapidJson} {w w' : World T} {l : Label T} (hs : Step rj w l w')
    (hl : l.Calls fun _ _ => False) : w'.remaining < w.remaining := by
  have hhold := hs.mayHold_le hl
  have hmono : w'.remaining ≤ ∑ t, (w'.thread t).remaining w.mayHold := by
    refine Finset.sum_le_sum fun t _ => ?_
    cases w'.thread t with
    | idle => exact Nat.le_refl _
    | running c pc => exact pc.remaining_mono hhold
  have hsum := sum_update_eq w.thread (Thread.remaining w.mayHold) l.thread (w'.thread l.thread)
  rw [← hs.thread_eq] at hsum
  have hmoved : (w'.thread l.thread).remaining w.mayHold < (w.thread l.thread).remaining w.mayHold := by
    cases hs with
    | invoke => exact hl.elim
    | exec ht he =>
      simp only [Label.thread, ht, Function.update_self, Thread.remaining]
      exact he.remaining_lt (Nat.le_add_right _ _)
    | ret ht => simp [Label.thread, ht, Thread.remaining, Pc.remaining]
  have htotal : w.remaining = ∑ t, (w.thread t).remaining w.mayHold := rfl
  omega

/-- From every state that the engine can reach without data races: if no further call is begun, no more of such steps
are taken than the calls in progress have left, whatever their order, and no reference that is still to be written
dangles; and when none is possible any more, every call has returned.  So the calls can always be brought to their
ends. -/
theorem engine_quiesces {rj : RapidJson} {engine : DataEngine} {file : Option Bytes} {ls : List (Label T)} {w : World T}
    (h : Run (Restrict (Step rj) RaceFree) (World.start T engine file) ls w) :
    (∀ ls' w', Run (StepWithoutCalls rj) w ls' w' →
      ls'.length + w'.remaining ≤ w.remaining ∧
        (∀ t, ∀ member ∈ (w'.thread t).pending, (member.read w'.memory.data).isSome) ∧
        (Stuck (StepWithoutCalls rj) w' → ∀ t, w'.thread t = .idle)) ∧
    ∃ ls' w', Run (StepWithoutCalls rj) w ls' w' ∧ ∀ t, w'.thread t = .idle := by
  have hconsumes : Consumes (StepWithoutCalls rj) (fun _ : World T => True) World.remaining :=
    ⟨fun _ _ => trivial, fun _ hs => hs.1.remaining_lt hs.2.2⟩
  have hidle : ∀ ls' w', Run (StepWithoutCalls rj) w ls' w' → Stuck (StepWithoutCalls rj) w' →
      ∀ t, w'.thread t = .idle := by
    intro ls' w' h' hstuck
    have hrun := h.unrestrict.append h'.unrestrict
    exact World.idle_of_stuck (Run.lockAgrees hrun) (Run.knows hrun) (Run.lists hrun) hstuck
  have hlive : ∀ ls' w', Run (StepWithoutCalls rj) w ls' w' → w'.Live := fun ls' w' h' =>
    Run.live (h.append (h'.mono fun _ _ _ hs => ⟨hs.1, hs.2.1⟩))
  refine ⟨fun ls' w' h' => ⟨(Run.length_add_measure_le hconsumes trivial h').2, (hlive ls' w' h').pending,
    hidle ls' w' h'⟩, ?_⟩
  obtain ⟨ls', w', h', hstuck⟩ : ∃ ls' w', Run (StepWithoutCalls rj) w ls' w' ∧ Stuck (StepWithoutCalls rj) w' :=
    Run.exists_stuck hconsumes trivial
  exact ⟨ls', w', h', hidle ls' w' h' hstuck⟩

end Engine

section Runs

attribute [local instance] Allocator.exact

/-- A `set` that holds the lock, and a `get` that waits for it. -/
theorem get_waits_for_set : ∃ (ls : List (Label Bool)) (w : World Bool),
    Run (Restrict (Step JsonText.library) RaceFree) (World.start Bool (.load [(ascii "a", ascii "1")]) none) ls w ∧
      w.thread false = .running 0 (.setFind (ascii "b") (ascii "2")) ∧
      w.thread true = .running 1 (.getLock (ascii "a")) ∧ w.remaining = 14 ∧
      ∃ ls' w', Run (StepWithoutCalls JsonText.library) w ls' w' ∧ ∀ t, w'.thread t = .idle := by
  have h₀ : Run (Restrict (Step JsonText.library) RaceFree)
      (World.start Bool (.load [(ascii "a", ascii "1")]) none) [] _ := .nil
  have h₁ := h₀.snoc ⟨.invoke (t := false) (.set (ascii "b") (ascii "2")) rfl, trivial, trivial⟩
  have h₂ := h₁.snoc ⟨.exec (t := false) rfl (.setLock (SharedMutex.lock_free false)), trivial, trivial⟩
  have h₃ := h₂.snoc ⟨.invoke (t := true) (.get (ascii "a")) rfl, trivial, trivial⟩
  exact ⟨_, _, h₃, rfl, rfl, rfl, (engine_quiesces h₃).2⟩

end Runs

end KeyValueServer
