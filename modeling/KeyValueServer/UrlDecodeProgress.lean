import KeyValueServer.Concurrency.Run
import KeyValueServer.ErrorReplies
import KeyValueServer.UrlDecode

/-!
# The loop of `url_decode` as a run

The loop goes from the start of a name to its end, a step for each iteration.  A step is labelled with the characters
that it takes, one or three, and appends one byte (`Accounted`).  So the length of the name is the length of the result
and two for each escape, and no name but the empty one is decoded to nothing: the handlers never refuse a name as empty
that the route has passed to them.
-/

namespace KeyValueServer

open Concurrency HttpServer

namespace HttpServerHelpers

/-- The variables of the loop where its condition is checked. -/
structure DecodeState where
  index : Nat
  result : Bytes
  deriving DecidableEq

/-- The state before the first iteration. -/
def DecodeState.start : DecodeState := ⟨0, []⟩

def DecodeState.next (value : Bytes) (s : DecodeState) : DecodeState :=
  ⟨(urlDecodeRound value s.index).2, s.result ++ [(urlDecodeRound value s.index).1]⟩

theorem index_next (value : Bytes) (s : DecodeState) : (s.next value).index = (urlDecodeRound value s.index).2 := rfl

/-- An iteration that takes `l` characters. -/
def DecodeStep (value : Bytes) (s : DecodeState) (l : Nat) (s' : DecodeState) : Prop :=
  s.index < value.length ∧ s' = s.next value ∧ s'.index = s.index + l

/-- What iterations that took `ls` characters have done. -/
structure Accounted (value : Bytes) (ls : List Nat) (s : DecodeState) : Prop where
  inside : s.index ≤ value.length
  taken : ∀ l ∈ ls, l = 1 ∨ l = 3
  appended : s.result.length = ls.length
  index_eq : s.index = s.result.length + 2 * ls.count 3

/-- One iteration: one byte for one character, or for three of which the last is inside of the name. -/
theorem Accounted.step {value : Bytes} {ls : List Nat} {s s' : DecodeState} {l : Nat} (h : Accounted value ls s)
    (hs : DecodeStep value s l s') : Accounted value (ls ++ [l]) s' := by
  obtain ⟨hlt, rfl, hl⟩ := hs
  have hnext := urlDecodeRound_next hlt
  rw [← index_next] at hnext
  have hbytes : (s.next value).result.length = s.result.length + 1 := by
    rw [DecodeState.next, List.length_append, List.length_singleton]
  have htaken : l = 1 ∨ l = 3 ∧ s.index + 2 < value.length := by omega
  refine ⟨by omega, ?_, ?_, ?_⟩
  · intro l' hl'
    rcases List.mem_append.1 hl' with hl' | hl'
    · exact h.taken l' hl'
    · obtain rfl := List.mem_singleton.1 hl'
      exact htaken.imp id And.left
  · rw [hbytes, h.appended, List.length_append, List.length_singleton]
  · rw [hl, hbytes, h.index_eq, List.count_append]
    rcases htaken with rfl | ⟨rfl, -⟩
    · rw [List.count_singleton, if_neg (by decide)]
      omega
    · rw [List.count_singleton_self]
      omega

theorem Accounted.run {value : Bytes} {ls : List Nat} {s : DecodeState}
    (h : Run (DecodeStep value) .start ls s) : Accounted value ls s :=
  h.invariant (Accounted value) ⟨Nat.zero_le _, by simp, rfl, rfl⟩ Accounted.step

/-- The loop goes on as long as the end is not reached. -/
theorem exists_decodeStep {value : Bytes} {s : DecodeState} (h : s.index < value.length) :
    ∃ l, DecodeStep value s l (s.next value) := by
  have hnext := urlDecodeRound_next h
  rw [← index_next] at hnext
  exact ⟨(s.next value).index - s.index, h, rfl, by omega⟩

/-- What is still to be appended does not change. -/
theorem DecodeStep.urlDecodeLoop {value : Bytes} {s s' : DecodeState} {l : Nat} (h : DecodeStep value s l s') :
    urlDecodeLoop value value.length s'.index s'.result = urlDecodeLoop value value.length s.index s.result := by
  obtain ⟨hlt, rfl, -⟩ := h
  rw [← urlDecodeLoop_fuel (Nat.le_add_left _ _) s.result, urlDecodeLoop_round hlt]
  rfl

theorem urlDecodeLoop_of_run {value : Bytes} {ls : List Nat} {s : DecodeState}
    (h : Run (DecodeStep value) .start ls s) : urlDecodeLoop value value.length s.index s.result = urlDecode value :=
  h.invariant (fun _ s => HttpServerHelpers.urlDecodeLoop value value.length s.index s.result = urlDecode value) rfl
    fun ih hs => hs.urlDecodeLoop.trans ih

/-- Where the loop stops, the name is decoded. -/
theorem eq_urlDecode_of_stopped {value : Bytes} {ls : List Nat} {s : DecodeState}
    (h : Run (DecodeStep value) .start ls s) (hstop : ∀ l s', ¬ DecodeStep value s l s') :
    s = ⟨value.length, urlDecode value⟩ := by
  have hend : value.length ≤ s.index := by
    by_contra hlt
    obtain ⟨l, hl⟩ := exists_decodeStep (Nat.not_le.1 hlt)
    exact hstop l _ hl
  have hindex : s.index = value.length := Nat.le_antisymm (Accounted.run h).inside hend
  have hresult := urlDecodeLoop_of_run h
  rw [urlDecodeLoop_end hend] at hresult
  rw [← hresult, ← hindex]

/-- The loop comes to its end: the characters that are left become fewer. -/
theorem exists_run_stopped {value : Bytes} {ls : List Nat} {s : DecodeState}
    (h : Run (DecodeStep value) .start ls s) :
    ∃ ls' s', Run (DecodeStep value) .start ls' s' ∧ ∀ l s'', ¬ DecodeStep value s' l s'' := by
  induction hleft : value.length - s.index using Nat.strong_induction_on generalizing ls s with
  | _ left ih =>
    by_cases hlt : s.index < value.length
    · obtain ⟨l, hl⟩ := exists_decodeStep hlt
      have hnext := urlDecodeRound_next hlt
      rw [← index_next] at hnext
      exact ih (value.length - (s.next value).index) (by omega) (h.snoc hl) rfl
    · exact ⟨ls, s, h, fun l s'' hl => hlt hl.1⟩

theorem exists_run_urlDecode (value : Bytes) :
    ∃ ls, Run (DecodeStep value) .start ls ⟨value.length, urlDecode value⟩ := by
  obtain ⟨ls, s, h, hstop⟩ := exists_run_stopped (.nil : Run (DecodeStep value) .start [] .start)
  exact ⟨ls, eq_urlDecode_of_stopped h hstop ▸ h⟩

/-- The length of a name is the length of what it is decoded to, and two for each escape. -/
theorem length_eq_of_run {value : Bytes} {ls : List Nat}
    (h : Run (DecodeStep value) .start ls ⟨value.length, urlDecode value⟩) :
    value.length = (urlDecode value).length + 2 * ls.count 3 :=
  (Accounted.run h).index_eq

/-- At most every byte stands for an escape. -/
theorem length_le_urlDecode (value : Bytes) : (value.length + 2) / 3 ≤ (urlDecode value).length := by
  obtain ⟨ls, h⟩ := exists_run_urlDecode value
  have hlen := length_eq_of_run h
  have hbytes : (urlDecode value).length = ls.length := (Accounted.run h).appended
  have hescapes : ls.count 3 ≤ ls.length := List.count_le_length
  omega

theorem urlDecode_eq_nil_iff (value : Bytes) : urlDecode value = [] ↔ value = [] := by
  constructor
  · intro h
    by_contra hne
    exact urlDecode_ne_nil hne h
  · rintro rfl
    rfl

end HttpServerHelpers

open HttpServerHelpers

/-! ### The handlers -/

namespace HttpServer

/-- The GET handler behind the check of the name. -/
theorem getHandler_of_ne_nil {nameRaw : Bytes} (h : nameRaw ≠ []) (rj : RapidJson) (e : DataEngine) :
    getHandler rj e nameRaw =
      match e.get (urlDecode nameRaw) with
      | (none, e) => (response rj .notFound (errorBody (urlDecode nameRaw) (ascii "Item not found")), e)
      | (some value, e) => (response rj .ok (recordBody (urlDecode nameRaw) value), e) := by
  rw [getHandler]
  exact if_neg (urlDecode_ne_nil h)

theorem postHandler_of_ne_nil [Allocator] {nameRaw : Bytes} (h : nameRaw ≠ []) (rj : RapidJson) (e : DataEngine)
    (body : Bytes) :
    postHandler rj e nameRaw body =
      match requestValue rj body with
      | .error error => (response rj .badRequest (errorBody (urlDecode nameRaw) error), e)
      | .ok value => (response rj .ok (nameBody (urlDecode nameRaw)), e.set (urlDecode nameRaw) value.bytes) := by
  rw [postHandler]
  exact if_neg (urlDecode_ne_nil h)

/-- What both handlers begin with, also when something throws. -/
theorem run_named_of_ne_nil {nameRaw : Bytes} (h : nameRaw ≠ []) (rj : RapidJson) (throws : ThrowPoint → Bool)
    (rest : Bytes → Try Response) (e : DataEngine) :
    (named rj throws nameRaw rest).run ⟨[], e⟩ =
      if throws .decode ∨ throws .addName then (none, ⟨[], e⟩)
      else (rest (urlDecode nameRaw)).run ⟨[nameMember (urlDecode nameRaw)], e⟩ := by
  rw [run_named, if_neg (urlDecode_ne_nil h)]

/-- For every name: each run of the loop stays inside of the name and takes one character or three for each byte; it
stops with the decoded name and nowhere else; and both handlers, given a name, pass their check of the decoded one. -/
theorem urlDecode_progress (value : Bytes) :
    (∀ ls s, Run (DecodeStep value) .start ls s →
      Accounted value ls s ∧ ls.length ≤ value.length ∧
        ((∀ l s', ¬ DecodeStep value s l s') → s = ⟨value.length, urlDecode value⟩)) ∧
    (∃ ls, Run (DecodeStep value) .start ls ⟨value.length, urlDecode value⟩ ∧
      value.length = (urlDecode value).length + 2 * ls.count 3) ∧
    ((value.length + 2) / 3 ≤ (urlDecode value).length ∧ (urlDecode value).length ≤ value.length) ∧
    (urlDecode value = [] ↔ value = []) ∧
    (value ≠ [] → ∀ (rj : RapidJson) (e : DataEngine),
      (getHandler rj e value =
        match e.get (urlDecode value) with
        | (none, e) => (response rj .notFound (errorBody (urlDecode value) (ascii "Item not found")), e)
        | (some found, e) => (response rj .ok (recordBody (urlDecode value) found), e)) ∧
      (∀ (_ : Allocator) (body : Bytes), postHandler rj e value body =
        match requestValue rj body with
        | .error error => (response rj .badRequest (errorBody (urlDecode value) error), e)
        | .ok v => (response rj .ok (nameBody (urlDecode value)), e.set (urlDecode value) v.bytes)) ∧
      ∀ (throws : ThrowPoint → Bool) (rest : Bytes → Try Response), (named rj throws value rest).run ⟨[], e⟩ =
        if throws .decode ∨ throws .addName then (none, ⟨[], e⟩)
        else (rest (urlDecode value)).run ⟨[nameMember (urlDecode value)], e⟩) := by
  refine ⟨fun ls s h => ⟨.run h, ?_, eq_urlDecode_of_stopped h⟩, ?_, ?_, urlDecode_eq_nil_iff value, ?_⟩
  · have hindex := (Accounted.run h).index_eq
    have hinside := (Accounted.run h).inside
    have hbytes := (Accounted.run h).appended
    omega
  · obtain ⟨ls, h⟩ := exists_run_urlDecode value
    exact ⟨ls, h, length_eq_of_run h⟩
  · exact ⟨length_le_urlDecode value, length_urlDecode_le value⟩
  · intro hne rj e
    exact ⟨getHandler_of_ne_nil hne rj e, fun _ body => postHandler_of_ne_nil hne rj e body,
      fun throws rest => run_named_of_ne_nil hne rj throws rest e⟩

section Handled

attribute [local instance] Allocator.exact

/-- An escape without digits, and one that is cut off. -/
theorem urlDecode_progress_malformed :
    (∃ ls, Run (DecodeStep (ascii "%zz%4")) .start ls ⟨5, [0, 37, 52]⟩ ∧ 5 = 3 + 2 * ls.count 3) ∧
      (getHandler JsonText.library (.load []) (ascii "%zz%4")).1 =
        response JsonText.library .notFound (errorBody [0, 37, 52] (ascii "Item not found")) := by
  have hdecode : urlDecode (ascii "%zz%4") = [0, 37, 52] := by decide
  obtain ⟨-, hrun, -, -, hhandlers⟩ := urlDecode_progress (ascii "%zz%4")
  rw [hdecode] at hrun hhandlers
  refine ⟨hrun, ?_⟩
  rw [(hhandlers (by decide) JsonText.library (.load [])).1]
  rfl

end Handled

end HttpServer

end KeyValueServer
