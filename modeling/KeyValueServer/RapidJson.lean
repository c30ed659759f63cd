import Mathlib.Data.List.Basic
import Mathlib.Data.List.TakeWhile
import Mathlib.Data.UInt

/-!
# Byte strings and the JSON library

The server's strings are arbitrary byte strings.  JSON is read and written by RapidJSON, which is not part of the
repository: it is a parameter of the model (`RapidJson`), a parser and a writer of JSON values.  What the server
relies on is stated as separate hypotheses: the parser inverts the writer on objects of strings
(`ParsesOwnText`), and it rejects such a text when its end is missing (`RejectsCutText`).

The length of a string of a JSON document is a 32-bit `SizeType`, and `StringRefType` is built with a
`static_cast` to it: a longer byte string is cut (`JString.ref`).
-/

namespace KeyValueServer

abbrev Bytes := List UInt8

/-- The bytes of a string literal of the source. -/
def ascii (s : String) : Bytes := s.toList.map fun c => c.toNat.toUInt8

/-- A byte string without a NUL is all of the C string that it begins with. -/
theorem takeWhile_of_ne_zero {b : Bytes} (h : ∀ c ∈ b, c ≠ 0) : b.takeWhile (· ≠ 0) = b := by
  rw [List.takeWhile_eq_self_iff]
  intro c hc
  rw [decide_eq_true_eq]
  exact h c hc

/-- `rapidjson::SizeType` is a 32-bit unsigned integer. -/
def sizeTypeRange : Nat := 2 ^ 32

/-- `static_cast<rapidjson::SizeType>(size)`. -/
def toSizeType (size : Nat) : Nat := size % sizeTypeRange

theorem toSizeType_lt (size : Nat) : toSizeType size < sizeTypeRange := Nat.mod_lt _ (by decide)

theorem toSizeType_of_lt {size : Nat} (h : size < sizeTypeRange) : toSizeType size = size := Nat.mod_eq_of_lt h

theorem toSizeType_le (size : Nat) : toSizeType size ≤ size := Nat.mod_le _ _

/-- A string of a JSON document. -/
@[ext] structure JString where
  bytes : Bytes
  length_lt : bytes.length < sizeTypeRange
  deriving DecidableEq

/-- `StringRefType(data, static_cast<SizeType>(size))`. -/
def JString.ref (b : Bytes) : JString where
  bytes := b.take (toSizeType b.length)
  length_lt := Nat.lt_of_le_of_lt (List.length_take_le _ _) (toSizeType_lt _)

theorem JString.ref_bytes {b : Bytes} (h : b.length < sizeTypeRange) : (JString.ref b).bytes = b := by
  simp [JString.ref, toSizeType_of_lt h]

@[simp] theorem JString.ref_self (s : JString) : JString.ref s.bytes = s :=
  JString.ext (JString.ref_bytes s.length_lt)

/-- A JSON number is kept as the unsigned integer it is, or as its text. -/
inductive JsonNumber
  | uint64 (n : UInt64)
  | other (text : Bytes)
  deriving DecidableEq

inductive Json
  | null
  | bool (b : Bool)
  | number (n : JsonNumber)
  | string (s : JString)
  | array (items : List Json)
  | object (members : List (JString × Json))

/-- The object with the given members, all of them strings. -/
def Json.ofStrings (members : List (JString × JString)) : Json :=
  .object (members.map fun m => (m.1, .string m.2))

theorem Json.ofStrings_injective {a b : List (JString × JString)} (h : Json.ofStrings a = .ofStrings b) : a = b := by
  have hinj : Function.Injective fun m : JString × JString => (m.1, Json.string m.2) := by
    rintro ⟨n, v⟩ ⟨n', v'⟩ he
    simp only [Prod.mk.injEq, Json.string.injEq] at he
    rw [he.1, he.2]
  rw [ofStrings, ofStrings, Json.object.injEq] at h
  exact hinj.list_map h

/-- `FindMember`: the first member of that name. -/
def findMember (name : Bytes) : List (JString × Json) → Option Json
  | [] => none
  | (n, v) :: members => if n.bytes = name then some v else findMember name members

/-- The JSON library: `ParseStream` on the bytes of a stream, and `Accept` with a default `Writer`. -/
structure RapidJson where
  parse : Bytes → Option Json
  write : Json → Bytes

namespace RapidJson

/-- The parser inverts the writer on objects of strings. -/
def ParsesOwnText (rj : RapidJson) : Prop :=
  ∀ members, rj.parse (rj.write (.ofStrings members)) = some (.ofStrings members)

theorem ParsesOwnText.injective {rj : RapidJson} (h : rj.ParsesOwnText) {a b : List (JString × JString)}
    (he : rj.write (.ofStrings a) = rj.write (.ofStrings b)) : a = b := by
  have hparse := h a
  rw [he, h b, Option.some.injEq] at hparse
  exact (Json.ofStrings_injective hparse).symm

/-- The parser rejects the text of an object of strings when its end is missing. -/
def RejectsCutText (rj : RapidJson) : Prop :=
  ∀ members p, p <+: rj.write (.ofStrings members) → p ≠ rj.write (.ofStrings members) → rj.parse p = none

end RapidJson

end KeyValueServer
