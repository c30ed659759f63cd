import KeyValueServer.Concurrency.Linearizability
import Mathlib.Data.List.Perm.Subperm
import Mathlib.Data.List.ReduceOption

/-!
# Atomic objects

The abstract object behind a linearization: a thread invokes an operation, the operation takes effect at one moment
(`AtomicStep.commit`) and the thread returns with its result later.  Everything else that happens is a step that is not
seen (`AtomicStep.internal`).  Every run of an atomic object has a linearization, the operations in the order in which
they took effect (`AtomicObject.exists_placed`).  A system is therefore linearizable as soon as its runs are, seen
through an abstraction of its states, runs of an atomic object (`Run.simulates`).
-/

namespace Concurrency

section Simulation

variable {S S' L L' : Type} {step : S → L → S → Prop} {step' : S' → L' → S' → Prop}

/-- A run seen through an abstraction of its states and labels. -/
theorem Run.simulates (abs : S → S') (lab : L → L') {s₀ s : S} {ls : List L}
    (hs : ∀ {ls s l s'}, Run step s₀ ls s → step s l s' → step' (abs s) (lab l) (abs s'))
    (h : Run step s₀ ls s) : Run step' (abs s₀) (ls.map lab) (abs s) := by
  induction h with
  | nil => exact .nil
  | snoc hrun hl ih =>
    rw [List.map_append]
    exact .snoc ih (hs hrun hl)

end Simulation

variable {T Op Res σ : Type}

/-- Where a thread is with its call. -/
inductive CallPhase (Op Res : Type)
  | idle
  | pending (call : Nat) (op : Op)
  | committed (call : Nat) (op : Op) (res : Res)

/-- The call that a thread is in. -/
def CallPhase.call : CallPhase Op Res → Option (Nat × Op)
  | .idle => none
  | .pending c op | .committed c op _ => some (c, op)

/-- An object, its threads, and the number of the next call. -/
structure AtomicObject (T Op Res σ : Type) where
  calls : Nat
  thread : T → CallPhase Op Res
  object : σ

namespace AtomicObject

def start (T Op Res : Type) (s₀ : σ) : AtomicObject T Op Res σ where
  calls := 0
  thread _ := .idle
  object := s₀

/-- The calls in progress have been invoked, each by one thread, and have not returned. -/
structure Accounts (hist : List (Event Op Res)) (a : AtomicObject T Op Res σ) : Prop where
  call_lt : ∀ e ∈ hist, e.call < a.calls
  once : ∀ c op op', Event.invoke c op ∈ hist → Event.invoke c op' ∈ hist → op = op'
  invoked : ∀ t c op, (a.thread t).call = some (c, op) → Event.invoke c op ∈ hist
  unreturned : ∀ t c op, (a.thread t).call = some (c, op) → ∀ r, Event.ret c r ∉ hist
  distinct : ∀ t t' c op op', (a.thread t).call = some (c, op) → (a.thread t').call = some (c, op') → t = t'

/-- `lin` is the order in which the calls have taken effect. -/
structure Placed (spec : σ → Op → Res → σ → Prop) (s₀ : σ) (hist : List (Event Op Res)) (a : AtomicObject T Op Res σ)
    (lin : List (Entry Op Res)) : Prop where
  linearizes : Linearizes hist lin
  replay : Replay spec s₀ lin a.object
  committed : ∀ t c op res, a.thread t = .committed c op res → ⟨c, op, res⟩ ∈ lin
  pending : ∀ t c op, a.thread t = .pending c op → c ∉ lin.map Entry.call

variable {spec : σ → Op → Res → σ → Prop} {s₀ : σ} {hist : List (Event Op Res)} {a a' : AtomicObject T Op Res σ}
  {lin : List (Entry Op Res)} {t : T} {c : Nat} {op : Op} {res : Res}

theorem accounts_start : Accounts ([] : List (Event Op Res)) (start T Op Res s₀) where
  call_lt e h := by cases h
  once c op op' h := by cases h
  invoked t c op h := by cases h
  unreturned t c op h := by cases h
  distinct t t' c op op' h := by cases h

theorem placed_start : Placed spec s₀ [] (start T Op Res s₀) [] where
  linearizes := .nil
  replay := .nil
  committed t c op res h := by cases h
  pending t c op h := by cases h

/-- Only the calls in progress matter. -/
theorem Accounts.congr (h : a.Accounts hist) (hcalls : a'.calls = a.calls)
    (hthread : ∀ t, (a'.thread t).call = (a.thread t).call) : a'.Accounts hist where
  call_lt e he := by
    rw [hcalls]
    exact h.call_lt e he
  once := h.once
  invoked t c op ht := h.invoked t c op (hthread t ▸ ht)
  unreturned t c op ht := h.unreturned t c op (hthread t ▸ ht)
  distinct t t' c op op' ht ht' := h.distinct t t' c op op' (hthread t ▸ ht) (hthread t' ▸ ht')

/-- The number of the next call is not in the history. -/
theorem Accounts.fresh (h : a.Accounts hist) : ∀ e ∈ hist, e.call ≠ a.calls :=
  fun e he => Nat.ne_of_lt (h.call_lt e he)

/-- No more calls have taken effect than were made. -/
theorem Placed.length_le (h : a.Placed spec s₀ hist lin) (ha : a.Accounts hist) : lin.length ≤ a.calls := by
  have hsubset : lin.map Entry.call ⊆ List.range a.calls := by
    intro c hc
    obtain ⟨x, hx, rfl⟩ := List.mem_map.1 hc
    exact List.mem_range.2 (ha.call_lt _ (h.linearizes.invoked x hx))
  have hlength := (h.linearizes.nodup.subperm hsubset).length_le
  rwa [List.length_map, List.length_range] at hlength

variable [DecidableEq T]

/-- The call of a thread after one thread has moved. -/
private theorem call_update {f : T → CallPhase Op Res} {x : CallPhase Op Res} {t' : T} {p : Nat × Op}
    (h : (Function.update f t x t').call = some p) :
    (t' = t ∧ x.call = some p) ∨ (t' ≠ t ∧ (f t').call = some p) := by
  by_cases hne : t' = t
  · subst hne
    rw [Function.update_self] at h
    exact Or.inl ⟨rfl, h⟩
  · rw [Function.update_of_ne hne] at h
    exact Or.inr ⟨hne, h⟩

theorem Accounts.invoke (h : a.Accounts hist) (op : Op) :
    Accounts (hist ++ [.invoke a.calls op])
      { a with calls := a.calls + 1, thread := Function.update a.thread t (.pending a.calls op) } where
  call_lt e he := by
    rcases List.mem_append.1 he with he | he
    · exact Nat.lt_succ_of_lt (h.call_lt e he)
    · rw [List.mem_singleton.1 he]
      exact Nat.lt_succ_self _
  once c o o' ho ho' := by
    rw [List.mem_append, List.mem_singleton] at ho ho'
    rcases ho with ho | ho <;> rcases ho' with ho' | ho'
    · exact h.once c o o' ho ho'
    · cases ho'
      exact absurd rfl (h.fresh _ ho)
    · cases ho
      exact absurd rfl (h.fresh _ ho')
    · cases ho
      cases ho'
      rfl
  invoked t' c o hc := by
    rw [List.mem_append, List.mem_singleton]
    rcases call_update hc with ⟨-, hc⟩ | ⟨-, hc⟩
    · cases hc
      exact Or.inr rfl
    · exact Or.inl (h.invoked t' c o hc)
  unreturned t' c o hc r hr := by
    rw [List.mem_append, List.mem_singleton] at hr
    rcases hr with hr | hr
    · rcases call_update hc with ⟨-, hc⟩ | ⟨-, hc⟩
      · cases hc
        exact h.fresh _ hr rfl
      · exact h.unreturned t' c o hc r hr
    · cases hr
  distinct t₁ t₂ c o o' h₁ h₂ := by
    rcases call_update h₁ with ⟨he₁, h₁⟩ | ⟨-, h₁⟩ <;> rcases call_update h₂ with ⟨he₂, h₂⟩ | ⟨-, h₂⟩
    · rw [he₁, he₂]
    · cases h₁
      exact absurd rfl (h.fresh _ (h.invoked _ _ _ h₂))
    · cases h₂
      exact absurd rfl (h.fresh _ (h.invoked _ _ _ h₁))
    · exact h.distinct _ _ _ _ _ h₁ h₂

theorem Accounts.ret (h : a.Accounts hist) (ht : a.thread t = .committed c op res) :
    Accounts (hist ++ [.ret c res]) { a with thread := Function.update a.thread t .idle } := by
  have hcall : (a.thread t).call = some (c, op) := by rw [ht]; rfl
  have hother : ∀ {t' p}, (Function.update a.thread t .idle t').call = some p →
      t' ≠ t ∧ (a.thread t').call = some p := by
    intro t' p hp
    rcases call_update hp with ⟨-, hp⟩ | hp
    · cases hp
    · exact hp
  have hinvoke : ∀ {c' o}, Event.invoke c' o ∈ hist ++ [Event.ret c res] → Event.invoke c' o ∈ hist := by
    intro c' o ho
    simpa using ho
  constructor
  · intro e he
    rcases List.mem_append.1 he with he | he
    · exact h.call_lt e he
    · rw [List.mem_singleton.1 he]
      exact h.call_lt (.invoke c op) (h.invoked _ _ _ hcall)
  · intro c' o o' ho ho'
    exact h.once c' o o' (hinvoke ho) (hinvoke ho')
  · intro t' c' o hc
    exact List.mem_append_left _ (h.invoked _ _ _ (hother hc).2)
  · intro t' c' o hc r hr
    obtain ⟨hne, hc⟩ := hother hc
    rw [List.mem_append, List.mem_singleton] at hr
    rcases hr with hr | hr
    · exact h.unreturned _ _ _ hc r hr
    · cases hr
      exact hne (h.distinct _ _ _ _ _ hc hcall)
  · intro t₁ t₂ c' o o' h₁ h₂
    exact h.distinct _ _ _ _ _ (hother h₁).2 (hother h₂).2

/-- A call that is given up is in progress no more. -/
theorem Accounts.lose (h : a.Accounts hist) :
    Accounts hist { a with thread := Function.update a.thread t .idle } := by
  have hother : ∀ {t' p}, (Function.update a.thread t .idle t').call = some p →
      t' ≠ t ∧ (a.thread t').call = some p := by
    intro t' p hp
    rcases call_update hp with ⟨-, hp⟩ | hp
    · cases hp
    · exact hp
  constructor
  · exact h.call_lt
  · exact h.once
  · intro t' c' o hc
    exact h.invoked _ _ _ (hother hc).2
  · intro t' c' o hc
    exact h.unreturned _ _ _ (hother hc).2
  · intro t₁ t₂ c' o o' h₁ h₂
    exact h.distinct _ _ _ _ _ (hother h₁).2 (hother h₂).2

/-! ### The order in which the calls take effect -/

private theorem update_eq {f : T → CallPhase Op Res} {x y : CallPhase Op Res} {t' : T}
    (h : Function.update f t x t' = y) : (t' = t ∧ x = y) ∨ (t' ≠ t ∧ f t' = y) := by
  by_cases hne : t' = t
  · subst hne
    rw [Function.update_self] at h
    exact Or.inl ⟨rfl, h⟩
  · rw [Function.update_of_ne hne] at h
    exact Or.inr ⟨hne, h⟩

theorem Placed.invoke (h : a.Placed spec s₀ hist lin) (ha : a.Accounts hist) (op : Op) :
    Placed spec s₀ (hist ++ [.invoke a.calls op])
      { a with calls := a.calls + 1, thread := Function.update a.thread t (.pending a.calls op) } lin where
  linearizes := h.linearizes.invoke (fun _ hm => ha.fresh _ hm rfl) op
  replay := h.replay
  committed t' c o r hc := by
    rcases update_eq hc with ⟨-, hc⟩ | ⟨-, hc⟩
    · cases hc
    · exact h.committed t' c o r hc
  pending t' c o hc := by
    rcases update_eq hc with ⟨-, hc⟩ | ⟨-, hc⟩
    · cases hc
      intro hm
      obtain ⟨x, hx, hxc⟩ := List.mem_map.1 hm
      exact ha.fresh _ (h.linearizes.invoked x hx) hxc
    · exact h.pending t' c o hc

theorem Placed.commit (h : a.Placed spec s₀ hist lin) (ha : a.Accounts hist) (ht : a.thread t = .pending c op)
    {s' : σ} (hs : spec a.object op res s') :
    Placed spec s₀ hist { a with thread := Function.update a.thread t (.committed c op res), object := s' }
      (lin ++ [⟨c, op, res⟩]) where
  linearizes := by
    have hcall : (a.thread t).call = some (c, op) := by rw [ht]; rfl
    exact h.linearizes.commit (ha.invoked _ _ _ hcall) (ha.unreturned _ _ _ hcall) (h.pending _ _ _ ht) res
  replay := .snoc h.replay hs
  committed t' c' o r hc := by
    rcases update_eq hc with ⟨-, hc⟩ | ⟨-, hc⟩
    · cases hc
      exact List.mem_append_right _ (List.mem_singleton_self _)
    · exact List.mem_append_left _ (h.committed t' c' o r hc)
  pending t' c' o hc := by
    rcases update_eq hc with ⟨-, hc⟩ | ⟨hne, hc'⟩
    · cases hc
    · rw [List.map_append, List.mem_append]
      rintro (hm | hm)
      · exact h.pending t' c' o hc' hm
      · obtain rfl := List.mem_singleton.1 hm
        exact hne (ha.distinct t' t c' o op (by rw [hc']; rfl) (by rw [ht]; rfl))

theorem Placed.ret (h : a.Placed spec s₀ hist lin) (ht : a.thread t = .committed c op res) :
    Placed spec s₀ (hist ++ [.ret c res]) { a with thread := Function.update a.thread t .idle } lin where
  linearizes := h.linearizes.ret (h.committed _ _ _ _ ht)
  replay := h.replay
  committed t' c' o r hc := by
    rcases update_eq hc with ⟨-, hc⟩ | ⟨-, hc⟩
    · cases hc
    · exact h.committed t' c' o r hc
  pending t' c' o hc := by
    rcases update_eq hc with ⟨-, hc⟩ | ⟨-, hc⟩
    · cases hc
    · exact h.pending t' c' o hc

theorem Placed.lose (h : a.Placed spec s₀ hist lin) :
    Placed spec s₀ hist { a with thread := Function.update a.thread t .idle } lin where
  linearizes := h.linearizes
  replay := h.replay
  committed t' c' o r hc := by
    rcases update_eq hc with ⟨-, hc⟩ | ⟨-, hc⟩
    · cases hc
    · exact h.committed t' c' o r hc
  pending t' c' o hc := by
    rcases update_eq hc with ⟨-, hc⟩ | ⟨-, hc⟩
    · cases hc
    · exact h.pending t' c' o hc

end AtomicObject

section Runs

variable [DecidableEq T]

inductive AtomicStep (spec : σ → Op → Res → σ → Prop) :
    AtomicObject T Op Res σ → Option (Event Op Res) → AtomicObject T Op Res σ → Prop
  | invoke {a : AtomicObject T Op Res σ} {t : T} (op : Op) :
      a.thread t = .idle →
      AtomicStep spec a (some (.invoke a.calls op))
        { a with calls := a.calls + 1, thread := Function.update a.thread t (.pending a.calls op) }
  | commit {a : AtomicObject T Op Res σ} {t : T} {c : Nat} {op : Op} {res : Res} {s' : σ} :
      a.thread t = .pending c op → spec a.object op res s' →
      AtomicStep spec a none { a with thread := Function.update a.thread t (.committed c op res), object := s' }
  | ret {a : AtomicObject T Op Res σ} {t : T} {c : Nat} {op : Op} {res : Res} :
      a.thread t = .committed c op res →
      AtomicStep spec a (some (.ret c res)) { a with thread := Function.update a.thread t .idle }
  -- the result is lost, and the call never returns
  | lose {a : AtomicObject T Op Res σ} {t : T} {c : Nat} {op : Op} {res : Res} :
      a.thread t = .committed c op res →
      AtomicStep spec a none { a with thread := Function.update a.thread t .idle }
  | internal {a : AtomicObject T Op Res σ} : AtomicStep spec a none a

variable {spec : σ → Op → Res → σ → Prop} {s₀ : σ} {ls : List (Option (Event Op Res))} {a a' : AtomicObject T Op Res σ}

theorem AtomicStep.placed {l : Option (Event Op Res)} (h : AtomicStep spec a l a') {hist : List (Event Op Res)}
    (ha : a.Accounts hist) {lin : List (Entry Op Res)} (hp : a.Placed spec s₀ hist lin) :
    a'.Accounts (hist ++ l.toList) ∧ ∃ lin', a'.Placed spec s₀ (hist ++ l.toList) lin' := by
  cases h with
  | invoke op => exact ⟨ha.invoke op, lin, hp.invoke ha op⟩
  | @commit t c op res s' ht hs =>
    rw [Option.toList_none, List.append_nil]
    refine ⟨ha.congr rfl fun t' => ?_, _, hp.commit ha ht hs⟩
    dsimp only
    by_cases hne : t' = t
    · subst hne
      rw [Function.update_self, ht]
      rfl
    · rw [Function.update_of_ne hne]
  | ret ht => exact ⟨ha.ret ht, lin, hp.ret ht⟩
  | lose ht =>
    rw [Option.toList_none, List.append_nil]
    exact ⟨ha.lose, lin, hp.lose⟩
  | internal =>
    rw [Option.toList_none, List.append_nil]
    exact ⟨ha, lin, hp⟩

/-- What one thread's step makes of the threads, told by what it does to each of them. -/
private theorem thread_eq_update {f f' : T → CallPhase Op Res} {t : T} {x : CallPhase Op Res} (ht : f' t = x)
    (hother : ∀ t' ≠ t, f' t' = f t') : f' = Function.update f t x := by
  funext t'
  by_cases hne : t' = t
  · rw [hne, Function.update_self, ht]
  · rw [Function.update_of_ne hne, hother t' hne]

theorem AtomicStep.of_invoke {t : T} {op : Op} (hcalls : a'.calls = a.calls + 1) (ht : a.thread t = .idle)
    (ht' : a'.thread t = .pending a.calls op) (hother : ∀ t' ≠ t, a'.thread t' = a.thread t')
    (hobject : a'.object = a.object) : AtomicStep spec a (some (.invoke a.calls op)) a' := by
  obtain ⟨calls, thread, object⟩ := a'
  obtain rfl : calls = _ := hcalls
  obtain rfl : object = _ := hobject
  obtain rfl := thread_eq_update ht' hother
  exact .invoke op ht

theorem AtomicStep.of_commit {t : T} {c : Nat} {o : Op} {r : Res} (hcalls : a'.calls = a.calls)
    (ht : a.thread t = .pending c o) (ht' : a'.thread t = .committed c o r)
    (hother : ∀ t' ≠ t, a'.thread t' = a.thread t') (hspec : spec a.object o r a'.object) :
    AtomicStep spec a none a' := by
  obtain ⟨calls, thread, object⟩ := a'
  obtain rfl : calls = _ := hcalls
  obtain rfl := thread_eq_update ht' hother
  exact .commit ht hspec

theorem AtomicStep.of_ret {t : T} {c : Nat} {o : Op} {r : Res} (hcalls : a'.calls = a.calls)
    (ht : a.thread t = .committed c o r) (ht' : a'.thread t = .idle)
    (hother : ∀ t' ≠ t, a'.thread t' = a.thread t') (hobject : a'.object = a.object) :
    AtomicStep spec a (some (.ret c r)) a' := by
  obtain ⟨calls, thread, object⟩ := a'
  obtain rfl : calls = _ := hcalls
  obtain rfl : object = _ := hobject
  obtain rfl := thread_eq_update ht' hother
  exact .ret ht

theorem AtomicStep.of_lose {t : T} {c : Nat} {o : Op} {r : Res} (hcalls : a'.calls = a.calls)
    (ht : a.thread t = .committed c o r) (ht' : a'.thread t = .idle) (hother : ∀ t' ≠ t, a'.thread t' = a.thread t')
    (hobject : a'.object = a.object) : AtomicStep spec a none a' := by
  obtain ⟨calls, thread, object⟩ := a'
  obtain rfl : calls = _ := hcalls
  obtain rfl : object = _ := hobject
  obtain rfl := thread_eq_update ht' hother
  exact .lose ht

theorem AtomicStep.of_internal (hcalls : a'.calls = a.calls) (hthread : ∀ t, a'.thread t = a.thread t)
    (hobject : a'.object = a.object) : AtomicStep spec a none a' := by
  obtain ⟨calls, thread, object⟩ := a'
  obtain rfl : calls = _ := hcalls
  obtain rfl : object = _ := hobject
  obtain rfl : thread = a.thread := funext hthread
  exact .internal

/-- The same object with less to see of its state. -/
def AtomicObject.map {σ' : Type} (f : σ → σ') (a : AtomicObject T Op Res σ) : AtomicObject T Op Res σ' where
  calls := a.calls
  thread := a.thread
  object := f a.object

theorem AtomicStep.map {σ' : Type} {f : σ → σ'} {spec' : σ' → Op → Res → σ' → Prop}
    (hf : ∀ s op res s', spec s op res s' → spec' (f s) op res (f s')) {l : Option (Event Op Res)}
    (h : AtomicStep spec a l a') : AtomicStep spec' (a.map f) l (a'.map f) := by
  cases h with
  | @invoke t op ht => exact .invoke (a := a.map f) op ht
  | commit ht hs => exact .commit (a := a.map f) ht (hf _ _ _ _ hs)
  | ret ht => exact .ret (a := a.map f) ht
  | lose ht => exact .lose (a := a.map f) ht
  | internal => exact .internal

/-- Every run of an atomic object has a linearization. -/
theorem AtomicObject.exists_placed (h : Run (AtomicStep spec) (.start T Op Res s₀) ls a) :
    a.Accounts ls.reduceOption ∧ ∃ lin, a.Placed spec s₀ ls.reduceOption lin := by
  refine Run.invariant (fun ls a => a.Accounts ls.reduceOption ∧ ∃ lin, a.Placed spec s₀ ls.reduceOption lin)
    ⟨AtomicObject.accounts_start, [], AtomicObject.placed_start⟩ ?_ h
  rintro ls a l a' ⟨ha, lin, hp⟩ hs
  rw [List.reduceOption_append, show [l].reduceOption = l.toList by cases l <;> rfl]
  exact hs.placed ha hp

end Runs

end Concurrency
