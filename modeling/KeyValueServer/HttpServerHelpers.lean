import KeyValueServer.RapidJson

/-!
# Names in URLs, and the JSON of a reply

`url_decode` runs an index over the raw name and appends one character in each round.  After a percent sign it gives
the next two characters to `sscanf` with the format `%x`, which takes less than two hexadecimal digits, and more than
digits: white space, a sign, nothing at all.  The bound `len - 2` is computed in `size_t`.
-/

namespace KeyValueServer

namespace HttpServerHelpers

/-! ### `sscanf(buf, "%x", &number)` -/

/-- `isspace` in the C locale. -/
def isSpace (c : UInt8) : Bool := c = 32 || (9 ≤ c && c ≤ 13)

def isHexDigit (c : UInt8) : Bool := (48 ≤ c && c ≤ 57) || (65 ≤ c && c ≤ 70) || (97 ≤ c && c ≤ 102)

def hexDigitValue (c : UInt8) : UInt32 :=
  if c ≤ 57 then (c - 48).toUInt32 else if c ≤ 70 then (c - 55).toUInt32 else (c - 87).toUInt32

/-- The digits that the text begins with, as a number; `none` when there are none. -/
def scanDigits (text : Bytes) : Option UInt32 :=
  match text.takeWhile isHexDigit with
  | [] => none
  | digits => some (digits.foldl (fun number c => number * 16 + hexDigitValue c) 0)

/-- The digits may stand behind `0x`. -/
def scanUnsigned : Bytes → Option UInt32
  | 48 :: 120 :: rest => scanDigits rest
  | 48 :: 88 :: rest => scanDigits rest
  | text => scanDigits text

def scanSigned : Bytes → Option UInt32
  | 45 :: rest => (scanUnsigned rest).map fun number => 0 - number
  | 43 :: rest => scanUnsigned rest
  | text => scanUnsigned text

/-- The number after `sscanf`, which a text that does not match leaves as it was; `none` for `EOF`, when the buffer
holds nothing but white space. -/
def sscanf (buf : Bytes) (number : UInt32) : Option UInt32 :=
  match (buf.takeWhile (· ≠ 0)).dropWhile isSpace with
  | [] => none
  | text => some ((scanSigned text).getD number)

theorem sscanf_zero (rest : Bytes) (number : UInt32) : sscanf (0 :: rest) number = none := rfl

/-! ### `url_decode` -/

/-- `a - b` in `size_t`. -/
def sizeSub (a b : Nat) : Nat := if b ≤ a then a - b else 2 ^ 64 - (b - a)

/-- `value[i]`, which is the terminating NUL at `i = value.length()`. -/
def charAt (value : Bytes) (i : Nat) : UInt8 := value.getD i 0

/-- One round of the loop: the character that is appended, and the index of the next round. -/
def urlDecodeRound (value : Bytes) (i : Nat) : UInt8 × Nat :=
  if charAt value i = 43 then (32, i + 1)
  else if charAt value i = 37 ∧ i < sizeSub value.length 2 then
    match sscanf [charAt value (i + 1), charAt value (i + 2), 0] 0 with
    | some number => (number.toUInt8, i + 3)
    | none => (charAt value i, i + 1)
  else (charAt value i, i + 1)

def urlDecodeLoop (value : Bytes) : Nat → Nat → Bytes → Bytes
  | 0, _, result => result
  | fuel + 1, i, result =>
    if i < value.length then
      urlDecodeLoop value fuel (urlDecodeRound value i).2 (result ++ [(urlDecodeRound value i).1])
    else result

def urlDecode (value : Bytes) : Bytes := urlDecodeLoop value value.length 0 []

/-- A round goes one character on, or three, of which the last is inside of the name. -/
theorem urlDecodeRound_next {value : Bytes} {i : Nat} (hi : i < value.length) :
    (urlDecodeRound value i).2 = i + 1 ∨ (urlDecodeRound value i).2 = i + 3 ∧ i + 2 < value.length := by
  unfold urlDecodeRound
  split
  · exact Or.inl rfl
  · split
    · rename_i hpercent
      by_cases hlen : 2 ≤ value.length
      · have hin := hpercent.2
        rw [sizeSub, if_pos hlen] at hin
        split
        · exact Or.inr ⟨rfl, by omega⟩
        · exact Or.inl rfl
      · -- a lone percent sign: the bound has wrapped around, and `sscanf` stops at the terminator
        have hterminator : charAt value (i + 1) = 0 := by
          rw [charAt, List.getD_eq_getElem?_getD, List.getElem?_eq_none (by omega)]
          rfl
        rw [hterminator, sscanf_zero]
        exact Or.inl rfl
    · exact Or.inl rfl

theorem urlDecodeLoop_end {value : Bytes} {i : Nat} (hi : value.length ≤ i) (fuel : Nat) (result : Bytes) :
    urlDecodeLoop value fuel i result = result := by
  cases fuel with
  | zero => rfl
  | succ fuel => rw [urlDecodeLoop, if_neg (Nat.not_lt.2 hi)]

theorem urlDecodeLoop_round {value : Bytes} {i : Nat} (hi : i < value.length) (fuel : Nat) (result : Bytes) :
    urlDecodeLoop value (fuel + 1) i result =
      urlDecodeLoop value fuel (urlDecodeRound value i).2 (result ++ [(urlDecodeRound value i).1]) := by
  rw [urlDecodeLoop, if_pos hi]

/-- The loop ends by itself: a round for each character that is left is enough. -/
theorem urlDecodeLoop_fuel {value : Bytes} {fuel i : Nat} (h : value.length ≤ i + fuel) (result : Bytes) :
    urlDecodeLoop value (fuel + 1) i result = urlDecodeLoop value fuel i result := by
  by_cases hi : i < value.length
  · have hnext := urlDecodeRound_next hi
    induction fuel generalizing i result with
    | zero => omega
    | succ fuel ih =>
      rw [urlDecodeLoop_round hi, urlDecodeLoop_round hi fuel]
      by_cases hmore : (urlDecodeRound value i).2 < value.length
      · exact ih (by omega) _ hmore (urlDecodeRound_next hmore)
      · rw [urlDecodeLoop_end (Nat.not_lt.1 hmore), urlDecodeLoop_end (Nat.not_lt.1 hmore)]
  · rw [urlDecodeLoop_end (Nat.not_lt.1 hi), urlDecodeLoop_end (Nat.not_lt.1 hi)]

/-- Each round appends one character and takes at least one. -/
theorem length_urlDecodeLoop {value : Bytes} {fuel i : Nat} (hi : i ≤ value.length) (h : value.length ≤ i + fuel)
    (result : Bytes) :
    result.length ≤ (urlDecodeLoop value fuel i result).length ∧
      (i < value.length → result.length < (urlDecodeLoop value fuel i result).length) ∧
      (urlDecodeLoop value fuel i result).length ≤ result.length + (value.length - i) := by
  induction fuel generalizing i result with
  | zero =>
    rw [urlDecodeLoop]
    exact ⟨Nat.le_refl _, by omega, by omega⟩
  | succ fuel ih =>
    by_cases hlt : i < value.length
    · have hnext := urlDecodeRound_next hlt
      obtain ⟨hle, -, hlen⟩ := ih (i := (urlDecodeRound value i).2) (by omega) (by omega)
        (result ++ [(urlDecodeRound value i).1])
      rw [urlDecodeLoop_round hlt]
      rw [List.length_append, List.length_singleton] at hle hlen
      exact ⟨by omega, by omega, by omega⟩
    · rw [urlDecodeLoop_end (Nat.not_lt.1 hlt)]
      exact ⟨Nat.le_refl _, by omega, by omega⟩

theorem length_urlDecode_le (value : Bytes) : (urlDecode value).length ≤ value.length := by
  have h := (length_urlDecodeLoop (Nat.zero_le value.length) (Nat.le_add_left _ 0) []).2.2
  simpa [urlDecode] using h

theorem urlDecode_ne_nil {value : Bytes} (h : value ≠ []) : urlDecode value ≠ [] := by
  have hpos : 0 < value.length := List.length_pos_iff.2 h
  have hlen := (length_urlDecodeLoop (Nat.zero_le _) (Nat.le_add_left _ 0) []).2.1 hpos
  intro hnil
  rw [urlDecode] at hnil
  rw [hnil] at hlen
  exact Nat.lt_irrefl _ hlen

-- the second percent sign is not followed by digits, and yields a NUL
example : urlDecode (ascii "a%20b+c%zz%") = ascii "a b c" ++ [0, 37] := by decide

end HttpServerHelpers

open HttpServerHelpers

/-! ### `JsonBody` -/

/-- The members of the JSON object of a reply. -/
abbrev JsonBody := List (JString × Json)

namespace JsonBody

/-- `add` of a string: name and value are cut to 32 bits of length. -/
def add (body : JsonBody) (name value : Bytes) : JsonBody := body ++ [(.ref name, .string (.ref value))]

/-- `add` of a counter. -/
def addNumber (body : JsonBody) (name : Bytes) (value : UInt64) : JsonBody :=
  body ++ [(.ref name, .number (.uint64 value))]

def dump (rj : RapidJson) (body : JsonBody) : Bytes := rj.write (.object body)

end JsonBody

end KeyValueServer
