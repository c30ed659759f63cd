import KeyValueServer.EngineLinearizable
import KeyValueServer.JsonText

/-!
# What the results say

The linearization of a run fixes every result of the engine in terms of the calls alone.  Along it the engine holds
under each name a record with the history of the writes and reads placed so far (`RecordHistory`); what a `get` and
an enumeration return is read off there (`EntryAgrees`).  The read counts that were handed out are those of the
increments made in the trace, in their order (`World.HasReads`).
-/

namespace KeyValueServer

open Concurrency

/-- The values written under a name by the calls of the order, in this order. -/
def setsOf (name : Bytes) (lin : List (Entry Op Result)) : List Bytes :=
  valuesUnder name ((setsIn lin).map Prod.snd)

/-- The calls of the order that read the record `name`, in this order. -/
def hitsOf (name : Bytes) (lin : List (Entry Op Result)) : List Nat :=
  (lin.filter fun x => hitOf x.op x.res = some name).map Entry.call

/-- What a call returns, given the records loaded and the calls placed before it. -/
def EntryAgrees (records : List (Bytes × Bytes)) (pre : List (Entry Op Result)) (op : Op) (res : Result) : Prop :=
  match op with
  | .get name => ∃ value, res = .found value ∧
      (value = none ↔ name ∉ records.map Prod.fst ∧ setsOf name pre = []) ∧
      ∀ v, value = some v → some v.value = (setsOf name pre).getLast?.or (lastValue name records) ∧
        v.stats.writes = .ofNat (setsOf name pre).length ∧ v.stats.reads = .ofNat ((hitsOf name pre).length + 1)
  | .enumerate => ∃ items, res = .visited items ∧ (items.map Prod.fst).Nodup ∧
      ∀ name value, (name, value) ∈ items ↔ (setsOf name pre).getLast?.or (lastValue name records) = some value
  | .set _ _ => res = .done
  | _ => True

/-- Of the records loaded, only the last value of each name matters. -/
theorem EntryAgrees.congr {records records' : List (Bytes × Bytes)} {pre : List (Entry Op Result)} {op : Op}
    {res : Result} (hr : ∀ name, lastValue name records = lastValue name records')
    (h : EntryAgrees records pre op res) : EntryAgrees records' pre op res := by
  cases op with
  | get name =>
    obtain ⟨value, rfl, hnone, hsome⟩ := h
    rw [← lastValue_eq_none, hr, lastValue_eq_none] at hnone
    rw [hr] at hsome
    exact ⟨value, rfl, hnone, hsome⟩
  | enumerate =>
    obtain ⟨items, rfl, hnodup, hitems⟩ := h
    exact ⟨items, rfl, hnodup, fun name value => by rw [hitems, hr]⟩
  | set name value => exact h
  | _ => exact trivial

private theorem setsOf_concat (name : Bytes) (lin : List (Entry Op Result)) (c : Nat) (op : Op) (res : Result) :
    setsOf name (lin ++ [⟨c, op, res⟩]) = setsOf name lin ++ valuesUnder name (setOf op).toList := by
  rw [setsOf, setsIn, List.filterMap_append, List.map_append, valuesUnder_append]
  congr 2
  cases h : setOf op <;> simp [h]

private theorem hitsOf_concat (name : Bytes) (lin : List (Entry Op Result)) (c : Nat) (op : Op) (res : Result) :
    hitsOf name (lin ++ [⟨c, op, res⟩]) = hitsOf name lin ++ if hitOf op res = some name then [c] else [] := by
  rw [hitsOf, List.filter_append, List.map_append]
  congr 1
  by_cases h : hitOf op res = some name <;> simp [h]

section Linearization

variable [Allocator]

/-- One operation extends the history of each record. -/
theorem Spec.recordHistory {data data' : DataCollection} {op : Op} {res : Result} (hs : Spec data op res data')
    {initial : Option Bytes} {lin : List (Entry Op Result)} {name : Bytes} (c : Nat)
    (h : RecordHistory (data.lookup name) initial (setsOf name lin) (hitsOf name lin).length) :
    RecordHistory (data'.lookup name) initial (setsOf name (lin ++ [⟨c, op, res⟩]))
      (hitsOf name (lin ++ [⟨c, op, res⟩])).length := by
  rw [setsOf_concat, hitsOf_concat]
  unfold Spec at hs
  split at hs
  · -- a read is counted where it finds the record
    rename_i n value
    have hlookup := DataCollection.lookup_get data n name
    rw [hs] at hlookup
    simp only [setOf, Option.toList_none, valuesUnder, List.filterMap_nil, List.append_nil]
    cases hv : data.lookup n with
    | none =>
      simp only [DataCollection.get, hv, Prod.mk.injEq] at hs
      obtain ⟨rfl, rfl⟩ := hs
      simpa [hitOf] using h
    | some record =>
      simp only [DataCollection.get, hv, Prod.mk.injEq] at hs
      obtain ⟨rfl, rfl⟩ := hs
      by_cases hn : n = name
      · subst hn
        rw [hv] at h
        simpa [hlookup, hv, hitOf] using h.read
      · simpa [hlookup, hitOf, hn, Ne.symm hn] using h
  · -- a write goes to its own record
    rename_i n value
    subst hs
    simp only [setOf, Option.toList_some, hitOf, reduceCtorEq, ↓reduceIte, List.append_nil,
      DataCollection.lookup_set, valuesUnder_singleton]
    by_cases hn : n = name
    · subst hn
      simpa using h.write value
    · simpa [hn, Ne.symm hn] using h
  · simpa [hs.1, setOf, hitOf, valuesUnder] using h
  · simpa [hs, setOf, hitOf, valuesUnder] using h
  · simpa [hs, setOf, hitOf, valuesUnder] using h
  · exact hs.elim

theorem Replay.recordHistory {records : List (Bytes × Bytes)} {data : DataCollection} {lin : List (Entry Op Result)}
    (h : Replay Spec (DataEngine.load records).data lin data) (name : Bytes) :
    RecordHistory (data.lookup name) (lastValue name records) (setsOf name lin) (hitsOf name lin).length := by
  refine Replay.invariant (fun lin (data : DataCollection) => RecordHistory (data.lookup name)
    (lastValue name records) (setsOf name lin) (hitsOf name lin).length) ?_ ?_ h
  · exact recordHistory_load records name
  · intro lin data c op res data' hi hs
    exact hs.recordHistory c hi

omit [Allocator] in
private theorem mem_visitAll {data : DataCollection} {names : List Bytes} {name value : Bytes} :
    (name, value) ∈ visitAll data names ↔ name ∈ names ∧ data.valueOf name = some value := by
  rw [visitAll, List.mem_filterMap]
  constructor
  · rintro ⟨n, hn, hv⟩
    rw [Option.map_eq_some_iff] at hv
    obtain ⟨v, hv, he⟩ := hv
    cases he
    exact ⟨hn, hv⟩
  · rintro ⟨hn, hv⟩
    exact ⟨name, hn, by rw [hv]; rfl⟩

omit [Allocator] in
private theorem nodup_visitAll {data : DataCollection} {names : List Bytes} (h : names.Nodup) :
    ((visitAll data names).map Prod.fst).Nodup := by
  have hsub : ((visitAll data names).map Prod.fst).Sublist names := by
    clear h
    induction names with
    | nil => exact List.Sublist.slnil
    | cons name names ih =>
      cases hv : data.valueOf name with
      | none => simpa [visitAll, List.filterMap_cons, hv] using ih.cons name
      | some v => simpa [visitAll, List.filterMap_cons, hv] using ih.cons_cons name
  exact hsub.nodup h

/-- Every call of a linearization returns what the calls before it determine. -/
theorem Replay.entryAgrees {records : List (Bytes × Bytes)} {data : DataCollection}
    {lin pre post : List (Entry Op Result)} {x : Entry Op Result}
    (h : Replay Spec (DataEngine.load records).data lin data) (he : lin = pre ++ x :: post) :
    EntryAgrees records pre x.op x.res := by
  obtain ⟨d₁, d₂, hr, hs⟩ := h.split he
  have hhist := fun name => Replay.recordHistory hr name
  obtain ⟨c, op, res⟩ := x
  show EntryAgrees records pre op res
  change Spec d₁ op res d₂ at hs
  unfold Spec at hs
  split at hs
  · rename_i name value
    have hh := hhist name
    refine ⟨value, rfl, ?_, ?_⟩
    · rw [← lastValue_eq_none, ← hh.none_iff]
      cases hv : d₁.lookup name <;> simp only [DataCollection.get, hv, Prod.mk.injEq] at hs <;> simp [← hs.1]
    · rintro v rfl
      cases hv : d₁.lookup name with
      | none => simp [DataCollection.get, hv] at hs
      | some record =>
        simp only [DataCollection.get, hv, Prod.mk.injEq, Option.some.injEq] at hs
        obtain ⟨rfl, -⟩ := hs
        obtain ⟨hval, hw, hreads⟩ := hh.found record hv
        refine ⟨hval, hw, ?_⟩
        rw [UInt64.ofNat_add, ← hreads]
        rfl
  · rfl
  · obtain ⟨-, order, ho, rfl⟩ := hs
    refine ⟨_, rfl, nodup_visitAll ho.1, fun name value => ?_⟩
    rw [mem_visitAll, ho.2, ← (hhist name).value_eq]
    constructor
    · exact fun h => h.2
    · intro hv
      obtain ⟨record, hl, -⟩ := Option.map_eq_some_iff.1 hv
      exact ⟨Finmap.mem_of_lookup_eq_some hl, hv⟩
  · exact trivial
  · exact trivial
  · exact hs.elim

/-! ### The read counts -/

/-- The read count that a `get` has taken, and its name. -/
def Pc.hasRead : Pc → Option (Bytes × IntegerCounter)
  | .getWrites name reads => some (name, reads)
  | .getGlobal name stats | .getCopy name stats => some (name, stats.reads)
  | .getUnlock name (some v) => some (name, v.stats.reads)
  | .returning (.get name) (.found (some v)) => some (name, v.stats.reads)
  | _ => none

variable {T : Type} [DecidableEq T]

/-- The calls that incremented the read counter of a record in a trace, in this order. -/
def increments (name : Bytes) (ls : List (Label T)) : List Nat :=
  ((ls.filterMap Label.hitPlaced).filter fun p => p.2 = name).map Prod.fst

/-- The call is a `get` of `name` that returned the read count `r`, or is in flight and holds it. -/
def World.HasReads (ls : List (Label T)) (w : World T) (name : Bytes) (call : Nat) (r : IntegerCounter) : Prop :=
  (∃ v, Event.ret call (.found (some v)) ∈ history ls ∧ Event.invoke call (.get name) ∈ history ls ∧
    v.stats.reads = r) ∨
  ∃ t pc, w.thread t = .running call pc ∧ pc.hasRead = some (name, r)

omit [Allocator] in
theorem Pc.hasRead_iff {data : DataCollection} {pc : Pc} (hk : pc.Knows data) {name : Bytes} {r : IntegerCounter} :
    pc.hasRead = some (name, r) ↔
      pc.op = .get name ∧ ∃ v, pc.committed data = some (.found (some v)) ∧ v.stats.reads = r := by
  cases pc with
  | getWrites n reads =>
    obtain ⟨record, hr⟩ := Finmap.mem_iff.1 hk
    simp [hasRead, Pc.op, committed, hr]
  | getGlobal n stats | getCopy n stats =>
    obtain ⟨record, hr⟩ := Finmap.mem_iff.1 hk
    simp [hasRead, Pc.op, committed, hr]
  | getUnlock n value => cases value <;> simp [hasRead, Pc.op, committed]
  | returning op result =>
    cases op with
    | get n =>
      cases result with
      | found value => cases value <;> simp [hasRead, Pc.op, committed]
      | _ => simp [hasRead, committed]
    | _ => simp [hasRead, Pc.op]
  | enumerateNext visitor rest => cases visitor <;> simp [hasRead, Pc.op, Visitor.op]
  | enumerateLock visitor | enumerateBegin visitor | enumerateUnlock visitor =>
    cases visitor <;> simp [hasRead, Pc.op, Visitor.op]
  | _ => simp [hasRead, Pc.op, committed]

omit [DecidableEq T] in
/-- The read counts handed out are those in the order. -/
theorem World.Linearized.hasReads_iff {data₀ : DataCollection} {ls : List (Label T)} {w : World T}
    {lin : List (Entry Op Result)} (h : w.Linearized data₀ ls lin) (ha : w.Accounts ls) (hk : w.Knows)
    {name : Bytes} {c : Nat} {r : IntegerCounter} :
    w.HasReads ls name c r ↔ ∃ v, (⟨c, .get name, .found (some v)⟩ : Entry Op Result) ∈ lin ∧ v.stats.reads = r := by
  constructor
  · rintro (⟨v, hret, hinv, rfl⟩ | ⟨t, pc, hpc, hr⟩)
    · exact ⟨v, h.linearizes.mem_of_returned (fun op' ho => ha.once c op' _ ho hinv) hret, rfl⟩
    · obtain ⟨hop, v, hc, hv⟩ := (Pc.hasRead_iff (hk t c pc hpc)).1 hr
      exact ⟨v, hop ▸ h.placed t c pc _ hpc hc, hv⟩
  · rintro ⟨v, hm, rfl⟩
    have hinv := h.linearizes.invoked _ hm
    rcases ha.accounted c _ hinv with ⟨res, hret⟩ | ⟨t, pc, hpc⟩
    · have hm' := h.linearizes.mem_of_returned (fun op' ho => ha.once c op' _ ho hinv) hret
      have hsame := h.linearizes.entry_unique hm hm' rfl
      cases hsame
      exact Or.inl ⟨v, hret, hinv, rfl⟩
    · have hop := ha.once c _ _ (ha.invoked t c pc hpc) hinv
      cases hc : pc.committed w.memory.data with
      | none => exact absurd (List.mem_map_of_mem hm) (h.unplaced t c pc hpc hc)
      | some res =>
        have hm' := h.placed t c pc res hpc hc
        rw [hop] at hm'
        have hsame := h.linearizes.entry_unique hm hm' rfl
        cases hsame
        exact Or.inr ⟨t, pc, hpc, (Pc.hasRead_iff (hk t c pc hpc)).2 ⟨hop, v, hc, rfl⟩⟩

omit [Allocator] [DecidableEq T] in
private theorem hitsOf_eq (name : Bytes) (lin : List (Entry Op Result)) :
    hitsOf name lin = ((hitsIn lin).filter fun p => p.2 = name).map Prod.fst := by
  induction lin with
  | nil => rfl
  | cons x lin ih =>
    rw [hitsOf, hitsIn] at ih
    rw [hitsOf, hitsIn, List.filterMap_cons]
    cases hx : hitOf x.op x.res with
    | none => simpa [hx] using ih
    | some n => by_cases hn : n = name <;> simpa [hx, hn] using ih

omit [DecidableEq T] in
theorem World.Linearized.hitsOf_eq_increments {data₀ : DataCollection} {ls : List (Label T)} {w : World T}
    {lin : List (Entry Op Result)} (h : w.Linearized data₀ ls lin) (name : Bytes) :
    hitsOf name lin = increments name ls := by
  rw [hitsOf_eq, h.hits]
  rfl

omit [Allocator] in
private theorem hitOf_eq_some {op : Op} {res : Result} {name : Bytes} (h : hitOf op res = some name) :
    op = .get name ∧ ∃ v, res = .found (some v) := by
  unfold hitOf at h
  split at h
  · cases h
    exact ⟨rfl, _, rfl⟩
  · cases h

/-- The engine is linearizable once the file is loaded: the calls of any number of threads can be ordered, in
accordance with real time, so that each returns what the calls before it determine; and the read counts of a record
that `get` calls returned or are about to return are `1, 2, ...` in the order of the increments. -/
theorem engine_linearizable (rj : RapidJson) (records : List (Bytes × Bytes)) (file : Option Bytes)
    {ls : List (Label T)} {w : World T}
    (h : Run (StepAfterLoading rj) (World.start T (.load records) file) ls w) :
    (∃ lin, Linearizes (history ls) lin ∧
      ∀ pre x post, lin = pre ++ x :: post → EntryAgrees records pre x.op x.res) ∧
    ∀ name, (increments name ls).Nodup ∧
      (∀ c r, w.HasReads ls name c r ↔ ∃ i, (increments name ls)[i]? = some c ∧ r = .ofNat (i + 1)) ∧
      ∀ c c', Precedes (history ls) c c' → c ∈ increments name ls → c' ∈ increments name ls →
        Before (increments name ls) c c' := by
  obtain ⟨lin, hlin⟩ := Run.linearized h
  have ha := Run.accounts h.unrestrict
  have hk := Run.knows h.unrestrict
  have hentry : ∀ pre x post, lin = pre ++ x :: post → EntryAgrees records pre x.op x.res :=
    fun pre x post he => Replay.entryAgrees hlin.replay he
  refine ⟨⟨lin, hlin.linearizes, hentry⟩, fun name => ?_⟩
  rw [← hlin.hitsOf_eq_increments name]
  refine ⟨(List.filter_sublist.map _).nodup hlin.linearizes.nodup, fun c r => ?_, ?_⟩
  · rw [hlin.hasReads_iff ha hk]
    constructor
    · rintro ⟨v, hm, rfl⟩
      obtain ⟨pre, post, he⟩ := List.append_of_mem hm
      obtain ⟨value, hv, -, hreads⟩ := hentry pre _ post he
      cases hv
      refine ⟨(hitsOf name pre).length, ?_, (hreads v rfl).2.2⟩
      simp [he, hitsOf, hitOf]
    · rintro ⟨i, hi, rfl⟩
      rw [hitsOf, List.getElem?_map, Option.map_eq_some_iff] at hi
      obtain ⟨x, hx, rfl⟩ := hi
      obtain ⟨pre, post, he, hp, rfl⟩ := exists_split_of_getElem?_filter hx
      obtain ⟨hop, v, hres⟩ := hitOf_eq_some (of_decide_eq_true hp)
      have hagrees := hentry pre x post he
      rw [hop, hres] at hagrees
      obtain ⟨value, hv, -, hreads⟩ := hagrees
      cases hv
      refine ⟨v, ?_, ?_⟩
      · rw [he, ← hop, ← hres]
        exact List.mem_append_right _ List.mem_cons_self
      · rw [(hreads v rfl).2.2, hitsOf, List.length_map]
  · intro c c' hp hc hc'
    obtain ⟨x, hx, rfl⟩ := List.mem_map.1 hc
    obtain ⟨y, hy, rfl⟩ := List.mem_map.1 hc'
    rw [List.mem_filter] at hx hy
    obtain ⟨l₁, l₂, he, h₁, h₂⟩ := hlin.linearizes.realTime x hx.1 y hy.1 hp
    refine ⟨hitsOf name l₁, hitsOf name l₂, by simp [he, hitsOf], ?_, ?_⟩
    · exact List.mem_map_of_mem (List.mem_filter.2 ⟨h₁, hx.2⟩)
    · exact List.mem_map_of_mem (List.mem_filter.2 ⟨h₂, hy.2⟩)

end Linearization

section Runs

attribute [local instance] Allocator.exact

/-- A `set` that has returned, and a `get` invoked while it ran, which has counted its read and is in flight. -/
theorem engine_linearizable_in_flight : ∃ (ls : List (Label Bool)) (w : World Bool),
    Run (StepAfterLoading JsonText.library) (World.start Bool (.load [(ascii "a", ascii "1")]) none) ls w ∧
      history ls = [.invoke 0 (.set (ascii "a") (ascii "2")), .invoke 1 (.get (ascii "a")), .ret 0 .done] ∧
      w.HasReads ls (ascii "a") 1 1 ∧
      ∃ lin, Linearizes (history ls) lin ∧
        ∀ pre x post, lin = pre ++ x :: post → EntryAgrees [(ascii "a", ascii "1")] pre x.op x.res := by
  have h₀ : Run (StepAfterLoading JsonText.library) (World.start Bool (.load [(ascii "a", ascii "1")]) none) [] _ :=
    .nil
  have h₁ := h₀.snoc ⟨.invoke (t := false) (.set (ascii "a") (ascii "2")) rfl, trivial⟩
  have h₂ := h₁.snoc ⟨.exec (t := false) rfl (.setLock (SharedMutex.lock_free false)), trivial⟩
  have h₃ := h₂.snoc ⟨.exec (t := false) rfl (.setFindHit rfl), trivial⟩
  have h₄ := h₃.snoc ⟨.invoke (t := true) (.get (ascii "a")) rfl, trivial⟩
  have h₅ := h₄.snoc ⟨.exec (t := false) rfl .setWrites, trivial⟩
  have h₆ := h₅.snoc ⟨.exec (t := false) rfl .setAssign, trivial⟩
  have h₇ := h₆.snoc ⟨.exec (t := false) rfl .setGlobal, trivial⟩
  have h₈ := h₇.snoc ⟨.exec (t := false) rfl .setUnlock, trivial⟩
  have h₉ := h₈.snoc ⟨.ret (t := false) rfl, trivial⟩
  have h₁₀ := h₉.snoc ⟨.exec (t := true) rfl (.getLock rfl), trivial⟩
  have h₁₁ := h₁₀.snoc ⟨.exec (t := true) rfl (.getFindHit rfl), trivial⟩
  have h₁₂ := h₁₁.snoc ⟨.exec (t := true) rfl (.getReads rfl), trivial⟩
  obtain ⟨hlin, hreads⟩ := engine_linearizable JsonText.library [(ascii "a", ascii "1")] none h₁₂
  refine ⟨_, _, h₁₂, rfl, ?_, hlin⟩
  exact ((hreads (ascii "a")).2.1 1 1).2 ⟨0, rfl, rfl⟩

end Runs

end KeyValueServer
