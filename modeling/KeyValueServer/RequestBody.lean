import KeyValueServer.HttpServer
import KeyValueServer.JsonText

/-!
# The body of a POST

The API describes the body of a POST as a JSON object with a string under `value`.  The handler gives the body to the
parser as a C string, which ends at the first NUL: what stands behind a NUL is neither parsed nor rejected.  So the
handler takes exactly the documented bodies, and besides them those in which a NUL follows one
(`postHandler_takesDocumented_iff`).
-/

namespace KeyValueServer

open HttpServerHelpers

namespace HttpServer

/-- The bytes are one JSON text, the value `j`: a NUL stands in none. -/
def IsJsonText (rj : RapidJson) (text : Bytes) (j : Json) : Prop := 0 ∉ text ∧ rj.parse text = some j

/-- The body is as documented, with the string `v` under `value`. -/
def Documented (rj : RapidJson) (body : Bytes) (v : JString) : Prop :=
  ∃ members, IsJsonText rj body (.object members) ∧ findMember (ascii "value") members = some (.string v)

theorem zero_notMem_stream (body : Bytes) : 0 ∉ body.takeWhile (· ≠ 0) := by
  intro h
  have hzero := List.mem_takeWhile_imp h
  exact absurd rfl (of_decide_eq_true hzero)

theorem stream_eq_self {body : Bytes} (h : 0 ∉ body) : body.takeWhile (· ≠ 0) = body := by
  apply takeWhile_of_ne_zero
  rintro c hc rfl
  exact h hc

/-- The handler looks for the documented value in front of the first NUL. -/
theorem requestValue_ok_iff_documented {rj : RapidJson} {body : Bytes} {v : JString} :
    requestValue rj body = .ok v ↔ Documented rj (body.takeWhile (· ≠ 0)) v := by
  rw [requestValue_ok_iff]
  constructor
  · rintro ⟨members, hparse, hfind⟩
    exact ⟨members, ⟨zero_notMem_stream body, hparse⟩, hfind⟩
  · rintro ⟨members, ⟨-, hparse⟩, hfind⟩
    exact ⟨members, hparse, hfind⟩

section Posts

variable [Allocator]

/-- The POST writes the documented value, and refuses a body that has none. -/
structure TakesDocumented (rj : RapidJson) (e : DataEngine) (name body : Bytes) (result : Response × DataEngine) :
    Prop where
  accepted : ∀ v : JString,
    (result.1.code = 200 ∧ result.2 = e.set name v.bytes) ↔ Documented rj body v
  refused : (∀ v, ¬ Documented rj body v) → result.1.code = 400 ∧ result.2 = e

theorem set_injective {e : DataEngine} {name : Bytes} {v w : JString} (h : e.set name v.bytes = e.set name w.bytes) :
    v = w := by
  have hv := e.data.valueOf_set name v.bytes name
  have hw := e.data.valueOf_set name w.bytes name
  have hdata : e.data.set name v.bytes = e.data.set name w.bytes := congrArg DataEngine.data h
  rw [if_pos rfl] at hv hw
  rw [hdata, hw] at hv
  exact JString.ext (Option.some.inj hv).symm

theorem postHandler_accepts_iff (rj : RapidJson) (e : DataEngine) {nameRaw : Bytes} (hname : urlDecode nameRaw ≠ [])
    (body : Bytes) (v : JString) :
    ((postHandler rj e nameRaw body).1.code = 200 ∧
      (postHandler rj e nameRaw body).2 = e.set (urlDecode nameRaw) v.bytes) ↔
    requestValue rj body = .ok v := by
  unfold postHandler
  rw [if_neg hname]
  cases hv : requestValue rj body with
  | error error => simp [response, Status.code]
  | ok w =>
    constructor
    · rintro ⟨-, hset⟩
      rw [set_injective hset]
    · intro hw
      rw [Except.ok.inj hw]
      exact ⟨rfl, rfl⟩

theorem postHandler_refuses (rj : RapidJson) (e : DataEngine) {nameRaw : Bytes} (hname : urlDecode nameRaw ≠ [])
    {body : Bytes} (h : ∀ v, requestValue rj body ≠ .ok v) :
    (postHandler rj e nameRaw body).1.code = 400 ∧
      (postHandler rj e nameRaw body).2 = e := by
  unfold postHandler
  rw [if_neg hname]
  cases hv : requestValue rj body with
  | error error => exact ⟨rfl, rfl⟩
  | ok v => exact absurd hv (h v)

/-- The handler keeps to the documented bodies exactly when the body holds no NUL, or none that follows a documented
body. -/
theorem postHandler_takesDocumented_iff (rj : RapidJson) (e : DataEngine) {nameRaw : Bytes}
    (hname : urlDecode nameRaw ≠ []) (body : Bytes) :
    TakesDocumented rj e (urlDecode nameRaw) body (postHandler rj e nameRaw body) ↔
      0 ∉ body ∨ ∀ v, ¬ Documented rj (body.takeWhile (· ≠ 0)) v := by
  have haccepts := postHandler_accepts_iff rj e hname body
  constructor
  · intro h
    by_cases hzero : 0 ∈ body
    · right
      intro v hv
      have hwhole := (h.accepted v).1 ((haccepts v).2 (requestValue_ok_iff_documented.2 hv))
      obtain ⟨members, htext, -⟩ := hwhole
      exact htext.1 hzero
    · exact Or.inl hzero
  · intro h
    have hsame : ∀ v, Documented rj body v ↔ requestValue rj body = .ok v := by
      intro v
      rw [requestValue_ok_iff_documented]
      rcases h with hzero | hnone
      · rw [stream_eq_self hzero]
      · constructor
        · intro hv
          obtain ⟨members, htext, -⟩ := id hv
          rwa [stream_eq_self htext.1]
        · intro hv
          exact absurd hv (hnone v)
    refine ⟨fun v => ?_, fun hnone => ?_⟩
    · rw [haccepts, hsame]
    · exact postHandler_refuses rj e hname fun v hv => hnone v ((hsame v).2 hv)

end Posts

section Runs

attribute [local instance] Allocator.exact

private def documentedBody : Bytes := JsonText.write (.ofStrings [(.ref (ascii "value"), .ref (ascii "x"))])

private def longBody : Bytes := documentedBody ++ 0 :: ascii "garbage"

private theorem documented_stream :
    Documented JsonText.library (longBody.takeWhile (· ≠ 0)) (.ref (ascii "x")) := by
  have hstream : longBody.takeWhile (· ≠ 0) = documentedBody := by decide
  rw [hstream]
  exact ⟨_, ⟨by decide, JsonText.parsesOwnText _⟩, rfl⟩

/-- A POST whose body is a documented one, a NUL and more: it is answered 200. -/
theorem postHandler_ignores_tail :
    (postHandler JsonText.library (.load []) (ascii "a") longBody).1.code = 200 ∧
      ¬ TakesDocumented JsonText.library (.load []) (ascii "a") longBody
        (postHandler JsonText.library (.load []) (ascii "a") longBody) := by
  have hname : urlDecode (ascii "a") ≠ [] := by decide
  have haccepts := postHandler_accepts_iff JsonText.library (.load []) hname longBody (.ref (ascii "x"))
  have htaken := haccepts.2 (requestValue_ok_iff_documented.2 documented_stream)
  refine ⟨htaken.1, fun h => ?_⟩
  obtain ⟨members, htext, -⟩ := (h.accepted _).1 htaken
  exact htext.1 (by decide)

theorem postHandler_takes_documented :
    TakesDocumented JsonText.library (.load []) (ascii "a") documentedBody
      (postHandler JsonText.library (.load []) (ascii "a") documentedBody) :=
  (postHandler_takesDocumented_iff JsonText.library (.load []) (show urlDecode (ascii "a") ≠ [] by decide)
    documentedBody).2 (Or.inl (by decide))

end Runs

end HttpServer

end KeyValueServer
