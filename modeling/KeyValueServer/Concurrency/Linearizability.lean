import KeyValueServer.Concurrency.Run
import Mathlib.Data.List.Nodup

/-!
# Linearizability of histories

A history is the sequence of the invocations and returns of an object, each with the identity of its call.  A
linearization of a history (`Linearizes`) is a list of calls with their results which contains every call that has
returned, with the result it returned, and otherwise only calls that have been invoked; each call occurs once, and
a call that returned before another was invoked stands before it.  Calls in flight may stand in the list, with the
result they are going to return.

A linearization is built along the history: an invocation does not change it (`Linearizes.invoke`), a call in
flight can be appended at the end at any moment (`Linearizes.commit`), and a call may return once it stands in the
list (`Linearizes.ret`).  `Replay` is the sequential meaning of such a list.
-/

namespace Concurrency

variable {Op Res σ : Type}

/-- What is seen of a call from outside: its invocation and its return. -/
inductive Event (Op Res : Type)
  | invoke (call : Nat) (op : Op)
  | ret (call : Nat) (res : Res)

def Event.call : Event Op Res → Nat
  | .invoke call _ | .ret call _ => call

/-- A call in a linearization. -/
structure Entry (Op Res : Type) where
  call : Nat
  op : Op
  res : Res

/-- The call `a` returned in `hist` before the call `b` was invoked. -/
def Precedes (hist : List (Event Op Res)) (a b : Nat) : Prop :=
  ∃ h₁ h₂ r op, hist = h₁ ++ h₂ ∧ Event.ret a r ∈ h₁ ∧ Event.invoke b op ∈ h₂

/-- `x` stands before `y` in `l`. -/
def Before {α : Type} (l : List α) (x y : α) : Prop := ∃ l₁ l₂, l = l₁ ++ l₂ ∧ x ∈ l₁ ∧ y ∈ l₂

/-- The `i`-th of the elements of `l` with the property `p` cuts `l` in two, with `i` of them in front of it. -/
theorem exists_split_of_getElem?_filter {α : Type} {l : List α} {p : α → Bool} {i : Nat} {x : α}
    (h : (l.filter p)[i]? = some x) :
    ∃ pre post, l = pre ++ x :: post ∧ p x = true ∧ (pre.filter p).length = i := by
  induction l generalizing i with
  | nil => simp at h
  | cons y l ih =>
    by_cases hy : p y = true
    · rw [List.filter_cons_of_pos hy] at h
      cases i with
      | zero =>
        rw [List.getElem?_cons_zero, Option.some.injEq] at h
        subst h
        exact ⟨[], l, rfl, hy, rfl⟩
      | succ i =>
        rw [List.getElem?_cons_succ] at h
        obtain ⟨pre, post, rfl, hx, rfl⟩ := ih h
        exact ⟨y :: pre, post, rfl, hx, by simp [hy]⟩
    · rw [List.filter_cons_of_neg hy] at h
      obtain ⟨pre, post, rfl, hx, rfl⟩ := ih h
      exact ⟨y :: pre, post, rfl, hx, by simp [hy]⟩

structure Linearizes (hist : List (Event Op Res)) (lin : List (Entry Op Res)) : Prop where
  nodup : (lin.map Entry.call).Nodup
  invoked : ∀ x ∈ lin, Event.invoke x.call x.op ∈ hist
  returned : ∀ c r, Event.ret c r ∈ hist → ∃ op, ⟨c, op, r⟩ ∈ lin
  realTime : ∀ x ∈ lin, ∀ y ∈ lin, Precedes hist x.call y.call → Before lin x y

theorem Linearizes.nil : Linearizes ([] : List (Event Op Res)) [] := by
  constructor <;> simp

theorem Precedes.of_append {hist : List (Event Op Res)} {e : Event Op Res} {a b : Nat}
    (h : Precedes (hist ++ [e]) a b) : Precedes hist a b ∨ ∃ op, e = .invoke b op := by
  obtain ⟨h₁, h₂, r, op, he, ha, hb⟩ := h
  rcases List.eq_nil_or_concat h₂ with rfl | ⟨h₂', e', rfl⟩
  · simp at hb
  · rw [List.concat_eq_append] at he hb
    rw [← List.append_assoc] at he
    obtain ⟨rfl, hl⟩ := List.append_inj' he rfl
    obtain rfl := List.singleton_inj.1 hl
    rcases List.mem_append.1 hb with hb | hb
    · exact Or.inl ⟨h₁, h₂', r, op, rfl, ha, hb⟩
    · exact Or.inr ⟨op, (List.mem_singleton.1 hb).symm⟩

theorem Precedes.ret_mem {hist : List (Event Op Res)} {a b : Nat} (h : Precedes hist a b) :
    ∃ r, Event.ret a r ∈ hist := by
  obtain ⟨h₁, h₂, r, _, rfl, ha, _⟩ := h
  exact ⟨r, List.mem_append_left _ ha⟩

theorem Before.append_right {α : Type} {l : List α} {x y z : α} (h : Before l x y) : Before (l ++ [z]) x y := by
  obtain ⟨l₁, l₂, rfl, hx, hy⟩ := h
  exact ⟨l₁, l₂ ++ [z], List.append_assoc .., hx, List.mem_append_left _ hy⟩

theorem Before.asymm {α : Type} {l : List α} {x y : α} (hl : l.Nodup) (h : Before l x y) : ¬ Before l y x := by
  rintro ⟨k₁, k₂, hk, hy, hx⟩
  obtain ⟨l₁, l₂, rfl, hx', hy'⟩ := h
  rw [List.nodup_append] at hl
  rcases List.append_eq_append_iff.1 hk with ⟨m, rfl, rfl⟩ | ⟨m, rfl, rfl⟩
  · exact hl.2.2 x hx' x (List.mem_append_right _ hx) rfl
  · exact hl.2.2 y (List.mem_append_left _ hy) y hy' rfl

theorem Linearizes.invoke {hist : List (Event Op Res)} {lin : List (Entry Op Res)} (h : Linearizes hist lin)
    {c : Nat} (hc : ∀ op, Event.invoke c op ∉ hist) (op : Op) : Linearizes (hist ++ [.invoke c op]) lin where
  nodup := h.nodup
  invoked x hx := List.mem_append_left _ (h.invoked x hx)
  returned c' r hr := h.returned c' r (by simpa using hr)
  realTime x hx y hy hp := by
    rcases hp.of_append with hp | ⟨op', he⟩
    · exact h.realTime x hx y hy hp
    · -- the new call is not in the list yet
      cases he
      exact absurd (h.invoked y hy) (hc _)

theorem Linearizes.commit {hist : List (Event Op Res)} {lin : List (Entry Op Res)} (h : Linearizes hist lin)
    {c : Nat} {op : Op} (hi : Event.invoke c op ∈ hist) (hr : ∀ r, Event.ret c r ∉ hist)
    (hn : c ∉ lin.map Entry.call) (res : Res) : Linearizes hist (lin ++ [⟨c, op, res⟩]) where
  nodup := by
    rw [List.map_append, List.nodup_append]
    refine ⟨h.nodup, by simp, ?_⟩
    rintro a ha b hb rfl
    rw [List.map_singleton, List.mem_singleton] at hb
    rw [hb] at ha
    exact hn ha
  invoked x hx := by
    rcases List.mem_append.1 hx with hx | hx
    · exact h.invoked x hx
    · rw [List.mem_singleton.1 hx]; exact hi
  returned c' r hr' := by
    obtain ⟨op', hm⟩ := h.returned c' r hr'
    exact ⟨op', List.mem_append_left _ hm⟩
  realTime x hx y hy hp := by
    rcases List.mem_append.1 hx with hx | hx
    · rcases List.mem_append.1 hy with hy | hy
      · exact (h.realTime x hx y hy hp).append_right
      · exact ⟨lin, [_], rfl, hx, hy⟩
    · -- the new call has not returned, so it precedes nothing
      obtain ⟨r, hm⟩ := hp.ret_mem
      rw [List.mem_singleton.1 hx] at hm
      exact absurd hm (hr r)

theorem Linearizes.ret {hist : List (Event Op Res)} {lin : List (Entry Op Res)} (h : Linearizes hist lin)
    {c : Nat} {op : Op} {res : Res} (hm : ⟨c, op, res⟩ ∈ lin) : Linearizes (hist ++ [.ret c res]) lin where
  nodup := h.nodup
  invoked x hx := List.mem_append_left _ (h.invoked x hx)
  returned c' r hr := by
    rcases List.mem_append.1 hr with hr | hr
    · exact h.returned c' r hr
    · rw [List.mem_singleton] at hr
      cases hr
      exact ⟨op, hm⟩
  realTime x hx y hy hp := by
    rcases hp.of_append with hp | ⟨op', he⟩
    · exact h.realTime x hx y hy hp
    · cases he

/-- A call that returned is in the linearization with the operation it was invoked with. -/
theorem Linearizes.mem_of_returned {hist : List (Event Op Res)} {lin : List (Entry Op Res)}
    (h : Linearizes hist lin) {c : Nat} {op : Op} {r : Res}
    (huniq : ∀ op', Event.invoke c op' ∈ hist → op' = op) (hr : Event.ret c r ∈ hist) : ⟨c, op, r⟩ ∈ lin := by
  obtain ⟨op', hm⟩ := h.returned c r hr
  have := huniq op' (h.invoked _ hm)
  rwa [this] at hm

theorem Linearizes.entry_unique {hist : List (Event Op Res)} {lin : List (Entry Op Res)} (h : Linearizes hist lin)
    {x y : Entry Op Res} (hx : x ∈ lin) (hy : y ∈ lin) (he : x.call = y.call) : x = y :=
  List.inj_on_of_nodup_map h.nodup hx hy he

/-! ### The sequential meaning of a linearization -/

/-- The calls of the list, made one after the other from `s₀`, have the results in the list and end in `s`. -/
inductive Replay (spec : σ → Op → Res → σ → Prop) (s₀ : σ) : List (Entry Op Res) → σ → Prop
  | nil : Replay spec s₀ [] s₀
  | snoc {lin : List (Entry Op Res)} {s s' : σ} {c : Nat} {op : Op} {res : Res} :
      Replay spec s₀ lin s → spec s op res s' → Replay spec s₀ (lin ++ [⟨c, op, res⟩]) s'

/-- Cut a replay at one of its calls. -/
theorem Replay.split {spec : σ → Op → Res → σ → Prop} {s₀ s : σ} {lin : List (Entry Op Res)}
    (h : Replay spec s₀ lin s) {pre post : List (Entry Op Res)} {x : Entry Op Res}
    (he : lin = pre ++ x :: post) :
    ∃ s₁ s₂, Replay spec s₀ pre s₁ ∧ spec s₁ x.op x.res s₂ := by
  induction h generalizing post with
  | nil => simp at he
  | @snoc lin s s' c op res hr hs ih =>
    rcases List.eq_nil_or_concat post with rfl | ⟨post', y, rfl⟩
    · obtain ⟨rfl, hx⟩ := List.append_inj' he rfl
      obtain rfl := List.singleton_inj.1 hx
      exact ⟨s, s', hr, hs⟩
    · rw [List.concat_eq_append, ← List.cons_append, ← List.append_assoc] at he
      exact ih (List.append_inj' he rfl).1

/-- Induction along a replay: what holds at the start and is kept by every call. -/
theorem Replay.invariant {spec : σ → Op → Res → σ → Prop} {s₀ s : σ} {lin : List (Entry Op Res)}
    (I : List (Entry Op Res) → σ → Prop) (h0 : I [] s₀)
    (hs : ∀ {lin s c op res s'}, I lin s → spec s op res s' → I (lin ++ [⟨c, op, res⟩]) s')
    (h : Replay spec s₀ lin s) : I lin s := by
  induction h with
  | nil => exact h0
  | snoc _ hl ih => exact hs ih hl

end Concurrency
