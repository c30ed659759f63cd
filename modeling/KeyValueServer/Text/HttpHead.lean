import KeyValueServer.Text.Framing

/-!
# The head of an HTTP message

A status line and fields, one in each line, end with an empty line.  Lines without line breaks, and names of fields
without a colon, are read back as they were written (`httpHead`).

The length of the body stands in the field `Content-Length`; a reply to HEAD has no body, and neither have some
statuses (`httpBodyLength`).
-/

namespace Text

structure HttpHead where
  statusLine : List UInt8
  fields : List (List UInt8 × List UInt8)
  deriving DecidableEq

namespace HttpHead

def lineEnd : List UInt8 := [13, 10]

def writeField (field : List UInt8 × List UInt8) : List UInt8 := field.1 ++ 58 :: 32 :: field.2 ++ lineEnd

def write (head : HttpHead) : List UInt8 := head.statusLine ++ lineEnd ++ head.fields.flatMap writeField ++ lineEnd

/-- The text before the first line break, and what follows the break. -/
def readLine (stream : List UInt8) : Option (List UInt8 × List UInt8) :=
  let line := stream.takeWhile (· ≠ 10)
  match stream.drop line.length with
  | [] => none
  | _ :: rest => if line.getLast? = some 13 then some (line.dropLast, rest) else none

/-- The name before the first colon, and the value behind the blank. -/
def readField (line : List UInt8) : Option (List UInt8 × List UInt8) :=
  let name := line.takeWhile (· ≠ 58)
  match line.drop name.length with
  | 58 :: 32 :: value => some (name, value)
  | _ => none

/-- The fields up to the empty line; the fuel bounds their number. -/
def readFields : Nat → List UInt8 → Option (List (List UInt8 × List UInt8) × List UInt8)
  | 0, _ => none
  | fuel + 1, stream => do
    let (line, rest) ← readLine stream
    if line = [] then return ([], rest)
    else
      let field ← readField line
      let (fields, rest) ← readFields fuel rest
      return (field :: fields, rest)

def read (stream : List UInt8) : Option (HttpHead × List UInt8) := do
  let (statusLine, rest) ← readLine stream
  let (fields, rest) ← readFields stream.length rest
  return (⟨statusLine, fields⟩, rest)

/-- No line has a line break in it, and no name has a colon. -/
structure Valid (head : HttpHead) : Prop where
  statusLine : 10 ∉ head.statusLine
  name : ∀ field ∈ head.fields, 10 ∉ field.1 ∧ 58 ∉ field.1
  value : ∀ field ∈ head.fields, 10 ∉ field.2

/-! ### Reading what was written -/

theorem takeWhile_ne_append {d : UInt8} {text : List UInt8} (h : d ∉ text) (rest : List UInt8) :
    (text ++ d :: rest).takeWhile (· ≠ d) = text := by
  rw [List.takeWhile_append_of_pos]
  · simp
  · intro c hc
    exact decide_eq_true fun he => h (he ▸ hc)

theorem readLine_append {line : List UInt8} (h : 10 ∉ line) (rest : List UInt8) :
    readLine (line ++ lineEnd ++ rest) = some (line, rest) := by
  have hline : 10 ∉ line ++ [13] := by simpa using h
  have hstream : line ++ lineEnd ++ rest = (line ++ [13]) ++ 10 :: rest := by simp [lineEnd]
  rw [hstream, readLine, takeWhile_ne_append hline]
  simp

theorem readField_append {name : List UInt8} (h : 58 ∉ name) (value : List UInt8) :
    readField (name ++ 58 :: 32 :: value) = some (name, value) := by
  rw [readField, takeWhile_ne_append h]
  simp

theorem readFields_append {fields : List (List UInt8 × List UInt8)}
    (hname : ∀ field ∈ fields, 10 ∉ field.1 ∧ 58 ∉ field.1) (hvalue : ∀ field ∈ fields, 10 ∉ field.2) {fuel : Nat}
    (hfuel : fields.length < fuel) (rest : List UInt8) :
    readFields fuel (fields.flatMap writeField ++ lineEnd ++ rest) = some (fields, rest) := by
  induction fields generalizing fuel with
  | nil =>
    obtain ⟨fuel, rfl⟩ := Nat.exists_eq_add_one.2 hfuel
    have hline : readLine ([].flatMap writeField ++ lineEnd ++ rest) = some ([], rest) :=
      readLine_append List.not_mem_nil rest
    rw [readFields, hline]
    rfl
  | cons field fields ih =>
    obtain ⟨fuel, rfl⟩ := Nat.exists_eq_add_one.2 (Nat.zero_lt_of_lt hfuel)
    obtain ⟨hbreak, hcolon⟩ := hname field List.mem_cons_self
    have hline : 10 ∉ field.1 ++ 58 :: 32 :: field.2 := by
      simpa using ⟨hbreak, hvalue field List.mem_cons_self⟩
    have hne : field.1 ++ 58 :: 32 :: field.2 ≠ [] := by simp
    have hstream : (field :: fields).flatMap writeField ++ lineEnd ++ rest =
        (field.1 ++ 58 :: 32 :: field.2) ++ lineEnd ++ (fields.flatMap writeField ++ lineEnd ++ rest) := by
      simp [writeField]
    have hfields := ih (fun f hf => hname f (List.mem_cons_of_mem _ hf))
      (fun f hf => hvalue f (List.mem_cons_of_mem _ hf)) (Nat.lt_of_succ_lt_succ hfuel)
    rw [hstream, readFields, readLine_append hline]
    simp only [Option.bind_eq_bind, Option.bind_some, if_neg hne, readField_append hcolon, hfields]
    rfl

theorem length_fields_lt (head : HttpHead) (rest : List UInt8) : head.fields.length < (head.write ++ rest).length := by
  have hfields : ∀ fields : List (List UInt8 × List UInt8), fields.length ≤ (fields.flatMap writeField).length := by
    intro fields
    induction fields with
    | nil => exact Nat.le_refl _
    | cons field fields ih =>
      simp only [List.flatMap_cons, List.length_append, List.length_cons, writeField]
      omega
  have hle := hfields head.fields
  simp only [write, List.length_append, lineEnd, List.length_cons]
  omega

theorem read_write (head : HttpHead) (rest : List UInt8) (h : head.Valid) :
    read (head.write ++ rest) = some (head, rest) := by
  have hstream : head.write ++ rest =
      head.statusLine ++ lineEnd ++ (head.fields.flatMap writeField ++ lineEnd ++ rest) := by
    simp [write]
  have hfields := readFields_append h.name h.value (length_fields_lt head rest) rest
  rw [read]
  nth_rewrite 1 [hstream]
  rw [readLine_append h.statusLine]
  simp only [Option.bind_eq_bind, Option.bind_some, hfields]
  rfl

end HttpHead

/-- The format of HTTP heads. -/
def httpHead : HeadFormat HttpHead where
  Valid := HttpHead.Valid
  write := HttpHead.write
  read := HttpHead.read
  read_write := HttpHead.read_write

/-! ### The length of a body -/

/-- The bytes of an ASCII text. -/
def bytesOf (s : String) : List UInt8 := s.toList.map fun c => c.toNat.toUInt8

def toLower (c : UInt8) : UInt8 := if 65 ≤ c ∧ c ≤ 90 then c + 32 else c

def decimalDigits (n : Nat) : List UInt8 := (Nat.toDigits 10 n).map fun c => c.toNat.toUInt8

def readDecimal (text : List UInt8) : Option Nat :=
  if text ≠ [] ∧ text.all fun c => 48 ≤ c && c ≤ 57 then
    some (text.foldl (fun n c => 10 * n + (c.toNat - 48)) 0)
  else none

theorem toNat_toDigits {n : Nat} {c : Char} (h : c ∈ Nat.toDigits 10 n) :
    c.toNat.toUInt8.toNat = c.toNat ∧ 48 ≤ c.toNat ∧ c.toNat ≤ 57 := by
  have hdigit := Nat.isDigit_of_mem_toDigits (by decide) (Nat.le_refl 10) h
  rw [Char.isDigit, Bool.and_eq_true, decide_eq_true_eq, decide_eq_true_eq, ge_iff_le, UInt32.le_iff_toNat_le,
    UInt32.le_iff_toNat_le] at hdigit
  have hhigh : c.toNat ≤ 57 := hdigit.2
  exact ⟨UInt8.toNat_ofNat_of_lt' (Nat.lt_of_le_of_lt hhigh (by decide)), hdigit⟩

theorem readDecimal_decimalDigits (n : Nat) : readDecimal (decimalDigits n) = some n := by
  have hdigits : decimalDigits n ≠ [] ∧ (decimalDigits n).all fun c => 48 ≤ c && c ≤ 57 := by
    refine ⟨by simp [decimalDigits, Nat.toDigits_ne_nil], List.all_eq_true.2 fun c hc => ?_⟩
    obtain ⟨d, hd, rfl⟩ := List.mem_map.1 hc
    obtain ⟨htoNat, hlow, hhigh⟩ := toNat_toDigits hd
    rw [Bool.and_eq_true, decide_eq_true_eq, decide_eq_true_eq, UInt8.le_iff_toNat_le, UInt8.le_iff_toNat_le, htoNat]
    exact ⟨hlow, hhigh⟩
  have hfold : ∀ (chars : List Char) (m : Nat), (∀ c ∈ chars, c.toNat.toUInt8.toNat = c.toNat) →
      (chars.map fun c => c.toNat.toUInt8).foldl (fun n c => 10 * n + (c.toNat - 48)) m =
        Nat.ofDigitChars 10 chars m := by
    intro chars
    induction chars with
    | nil => exact fun _ _ => rfl
    | cons c chars ih =>
      intro m h
      rw [List.map_cons, List.foldl_cons, h c List.mem_cons_self, Nat.ofDigitChars_cons]
      exact ih _ fun d hd => h d (List.mem_cons_of_mem _ hd)
  rw [readDecimal, if_pos hdigits, decimalDigits, hfold _ _ fun c hc => (toNat_toDigits hc).1,
    Nat.ofDigitChars_ten_toDigits]

namespace HttpHead

/-- The value of the first field of a name, without regard to the case of letters. -/
def fieldValue (head : HttpHead) (name : List UInt8) : Option (List UInt8) :=
  (head.fields.find? fun field => field.1.map toLower = name.map toLower).map Prod.snd

/-- The three digits in `HTTP/1.1 200 OK`. -/
def status (head : HttpHead) : List UInt8 := (head.statusLine.drop 9).take 3

end HttpHead

/-- How long the body behind the head is, for a reply to HEAD or to another method. -/
def httpBodyLength (isHead : Bool) (head : HttpHead) : Option Nat :=
  if isHead ∨ head.status = bytesOf "204" ∨ head.status = bytesOf "304" then some 0
  else (head.fieldValue (bytesOf "Content-Length")).bind readDecimal

end Text
