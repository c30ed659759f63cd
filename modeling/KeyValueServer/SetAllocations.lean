import KeyValueServer.DataEngine

/-!
# `set` when memory runs out

`set` allocates in up to four places, and any of these allocations may throw (`AllocationPoint`).  The standard
containers give the strong guarantee: what throws leaves its container as it was.  What `set` itself has done before
stays done.  The name and the entry to be inserted are complete before anything changes; only the assignment to an
existing record comes after a counter has moved.
-/

namespace KeyValueServer

/-- The allocations inside of `set`. -/
inductive AllocationPoint
  | copyName
  | copyValue
  | emplace
  | assign
  deriving DecidableEq

/-- The exception of a failed allocation. -/
inductive BadAlloc
  | badAlloc
  deriving DecidableEq

section Guarantee

variable [Allocator]

/-- `set`, where `fails` says which of its allocations throw if they are made; an assignment that fits the capacity
makes none. -/
def DataEngine.trySet (fails : AllocationPoint → Bool) (e : DataEngine) (name value : Bytes) :
    Except BadAlloc Unit × DataEngine :=
  if fails .copyName then (.error .badAlloc, e)
  else
    match e.data.lookup name with
    | none =>
      if fails .copyValue then (.error .badAlloc, e)
      else if fails .emplace then (.error .badAlloc, e)
      else (.ok (), { e with data := e.data.emplace name ⟨.ofBytes value, 0, 1⟩, writes := e.writes + 1 })
    | some record =>
      let counted := e.data.fetchAddWrites name
      if record.value.capacity < value.length ∧ fails .assign = true then (.error .badAlloc, { e with data := counted })
      else (.ok (), { e with data := counted.assignValue name value, writes := e.writes + 1 })

/-- The writes counted for a name. -/
def DataCollection.writesOf (data : DataCollection) (name : Bytes) : IntegerCounter :=
  ((data.lookup name).map fun record => record.writes).getD 0

/-- A call that throws leaves the engine as it was; one that returns has updated the value, the writes of the record
and the global writes. -/
def AllOrNothing (e : DataEngine) (name value : Bytes) : Except BadAlloc Unit × DataEngine → Prop
  | (.error _, e') => e' = e
  | (.ok _, e') => e'.data.valueOf name = some value ∧ e'.data.writesOf name = e.data.writesOf name + 1 ∧
      e'.writes = e.writes + 1

/-- The record is there already, the name could be copied, and the new value needs an allocation that fails. -/
def AssignmentThrows (fails : AllocationPoint → Bool) (e : DataEngine) (name value : Bytes) : Prop :=
  fails .copyName = false ∧ fails .assign = true ∧
    ∃ record, e.data.lookup name = some record ∧ record.value.capacity < value.length

/-- The three ways a call of `set` can end. -/
theorem DataEngine.trySet_cases (fails : AllocationPoint → Bool) (e : DataEngine) (name value : Bytes) :
    (¬ AssignmentThrows fails e name value ∧ e.trySet fails name value = (.error .badAlloc, e)) ∨
    (¬ AssignmentThrows fails e name value ∧ e.trySet fails name value = (.ok (), e.set name value)) ∨
    (AssignmentThrows fails e name value ∧
      e.trySet fails name value = (.error .badAlloc, { e with data := e.data.fetchAddWrites name })) := by
  unfold trySet
  split
  · rename_i hn
    left
    exact ⟨fun h => by simp [h.1] at hn, rfl⟩
  · rename_i hn
    cases hr : e.data.lookup name with
    | none =>
      have habsent : ¬ AssignmentThrows fails e name value := by
        rintro ⟨-, -, record, hl, -⟩
        rw [hr] at hl
        cases hl
      dsimp only
      split_ifs
      · exact Or.inl ⟨habsent, rfl⟩
      · exact Or.inl ⟨habsent, rfl⟩
      · exact Or.inr (Or.inl ⟨habsent, by rw [set, DataCollection.set_of_none hr]⟩)
    | some record =>
      have hthrows : AssignmentThrows fails e name value ↔
          record.value.capacity < value.length ∧ fails .assign = true := by
        constructor
        · rintro ⟨-, hf, r, hl, hc⟩
          rw [hr, Option.some.injEq] at hl
          exact ⟨by rwa [hl], hf⟩
        · rintro ⟨hc, hf⟩
          exact ⟨Bool.eq_false_iff.2 hn, hf, record, hr, hc⟩
      dsimp only
      split_ifs with hc
      · exact Or.inr (Or.inr ⟨hthrows.2 hc, rfl⟩)
      · exact Or.inr (Or.inl ⟨fun h => hc (hthrows.1 h), by rw [set, DataCollection.set_of_some hr]⟩)

/-- When every allocation succeeds, it is `set`. -/
theorem DataEngine.trySet_of_not_fails {fails : AllocationPoint → Bool} (h : ∀ point, fails point = false)
    (e : DataEngine) (name value : Bytes) : e.trySet fails name value = (.ok (), e.set name value) := by
  unfold trySet set DataCollection.set
  cases e.data.lookup name <;> simp [h]

theorem DataEngine.set_updates (e : DataEngine) (name value : Bytes) :
    (e.set name value).data.valueOf name = some value ∧
      (e.set name value).data.writesOf name = e.data.writesOf name + 1 ∧ (e.set name value).writes = e.writes + 1 := by
  have hlookup : (e.set name value).data.lookup name = some (DataCollection.written value (e.data.lookup name)) := by
    rw [set, DataCollection.lookup_set, if_pos rfl]
  refine ⟨?_, ?_, rfl⟩
  · rw [DataCollection.valueOf, hlookup, Option.map_some, DataCollection.value_written]
  · rw [DataCollection.writesOf, hlookup, DataCollection.writesOf]
    cases e.data.lookup name <;> rfl

omit [Allocator] in
/-- A write that is counted is a change. -/
theorem DataCollection.fetchAddWrites_ne {data : DataCollection} {name : Bytes} (h : name ∈ data) :
    data.fetchAddWrites name ≠ data := by
  intro he
  obtain ⟨record, hr⟩ := Finmap.mem_iff.1 h
  have hlookup := lookup_fetchAddWrites data name name
  rw [he, if_pos rfl, hr, Option.map_some, Option.some.injEq] at hlookup
  have hwrites := congrArg ExtendedValueInternal.writes hlookup
  simp at hwrites

/-- `set` is all or nothing except when it throws at the assignment to an existing record: then the write is
counted in the record, and neither the value nor the global counter has changed. -/
theorem set_allOrNothing_iff (fails : AllocationPoint → Bool) (e : DataEngine) (name value : Bytes) :
    AllOrNothing e name value (e.trySet fails name value) ↔ ¬ AssignmentThrows fails e name value := by
  rcases e.trySet_cases fails name value with ⟨hn, he⟩ | ⟨hn, he⟩ | ⟨ht, he⟩
  · rw [he]
    exact ⟨fun _ => hn, fun _ => rfl⟩
  · rw [he]
    exact ⟨fun _ => hn, fun _ => e.set_updates name value⟩
  · rw [he]
    refine ⟨fun hsame => ?_, fun hn => absurd ht hn⟩
    obtain ⟨-, -, record, hr, -⟩ := ht
    have hdata : e.data.fetchAddWrites name = e.data := congrArg DataEngine.data hsame
    exact absurd hdata (DataCollection.fetchAddWrites_ne (Finmap.mem_of_lookup_eq_some hr))

end Guarantee

section Runs

attribute [local instance] Allocator.exact

/-- The allocation for a longer value of a record throws: the write stays counted in the record. -/
theorem set_counts_and_throws : ∃ (e : DataEngine) (fails : AllocationPoint → Bool) (name value : Bytes),
    (e.trySet fails name value).1 = .error .badAlloc ∧
      (e.trySet fails name value).2.data.writesOf name = e.data.writesOf name + 1 ∧
      (e.trySet fails name value).2.data.valueOf name = e.data.valueOf name ∧
      ¬ AllOrNothing e name value (e.trySet fails name value) := by
  refine ⟨.load [(ascii "a", ascii "1")], fun point => point = .assign, ascii "a",
    ascii "a value of more than fifteen bytes", by decide, by decide, by decide, fun h => ?_⟩
  have hsame : (DataEngine.trySet (fun point => decide (point = .assign)) (.load [(ascii "a", ascii "1")]) (ascii "a")
      (ascii "a value of more than fifteen bytes")).2 = .load [(ascii "a", ascii "1")] := h
  have hwrites := congrArg (fun e : DataEngine => e.data.writesOf (ascii "a")) hsame
  exact absurd hwrites (by decide)

end Runs

end KeyValueServer
