import KeyValueServer.RapidJson
import Mathlib.Data.List.TakeWhile

/-!
# JSON text

A writer and a parser of JSON in the manner of RapidJSON with its default settings.  The writer escapes quotes,
backslashes and control characters and copies every other byte; the parser reads one value and the white space
around it, up to the end of the input or its first NUL, and does not look into the bytes from `0x80` up.

With them the assumptions on the JSON library hold: the parser inverts the writer on objects of strings
(`parsesOwnText`) and rejects their text when its end is missing (`rejectsCutText`).
-/

namespace KeyValueServer

namespace JsonText

def quote : UInt8 := 34
def comma : UInt8 := 44
def colon : UInt8 := 58
def openBracket : UInt8 := 91
def backslash : UInt8 := 92
def closeBracket : UInt8 := 93
def openBrace : UInt8 := 123
def closeBrace : UInt8 := 125

/-! ### The writer -/

def hexDigit (n : Nat) : UInt8 := if n < 10 then .ofNat (48 + n) else .ofNat (55 + n)

/-- How the writer shows one byte of a string. -/
def escapeByte (c : UInt8) : Bytes :=
  if c = quote ∨ c = backslash then [backslash, c]
  else if c = 8 then [backslash, 98]
  else if c = 9 then [backslash, 116]
  else if c = 10 then [backslash, 110]
  else if c = 12 then [backslash, 102]
  else if c = 13 then [backslash, 114]
  else if c < 32 then [backslash, 117, 48, 48, hexDigit (c.toNat / 16), hexDigit (c.toNat % 16)]
  else [c]

/-- The text of a string after its opening quote. -/
def stringText (s : Bytes) : Bytes := s.flatMap escapeByte ++ [quote]

def decimal (n : Nat) : Bytes := (Nat.toDigits 10 n).map fun c => c.toNat.toUInt8

mutual

def write : Json → Bytes
  | .null => ascii "null"
  | .bool false => ascii "false"
  | .bool true => ascii "true"
  | .number (.uint64 n) => decimal n.toNat
  | .number (.other text) => text
  | .string s => quote :: stringText s.bytes
  | .array items => openBracket :: (writeItems items ++ [closeBracket])
  | .object members => openBrace :: (writeMembers members ++ [closeBrace])

def writeItems : List Json → Bytes
  | [] => []
  | [v] => write v
  | v :: w :: items => write v ++ comma :: writeItems (w :: items)

def writeMembers : List (JString × Json) → Bytes
  | [] => []
  | [(n, v)] => quote :: (stringText n.bytes ++ colon :: write v)
  | (n, v) :: m :: members => quote :: (stringText n.bytes ++ colon :: write v) ++ comma :: writeMembers (m :: members)

end

/-! ### The parser -/

def isWhitespace (c : UInt8) : Bool := c = 32 || c = 10 || c = 13 || c = 9

def skipWhitespace (b : Bytes) : Bytes := b.dropWhile isWhitespace

/-- The input behind the byte `c` and the white space in front of it. -/
def expect (c : UInt8) (b : Bytes) : Option Bytes :=
  match skipWhitespace b with
  | [] => none
  | x :: rest => if x = c then some rest else none

def hexValue (c : UInt8) : Option Nat :=
  if 48 ≤ c ∧ c ≤ 57 then some (c.toNat - 48)
  else if 65 ≤ c ∧ c ≤ 70 then some (c.toNat - 55)
  else if 97 ≤ c ∧ c ≤ 102 then some (c.toNat - 87)
  else none

def hexValue4 (a b c d : UInt8) : Option Nat := do
  return (((← hexValue a) * 16 + (← hexValue b)) * 16 + (← hexValue c)) * 16 + (← hexValue d)

/-- What a string is made of: bytes, and the 16-bit units of the escapes. -/
inductive CodeUnit
  | byte (c : UInt8)
  | utf16 (n : Nat)
  deriving DecidableEq

def simpleEscape (e : UInt8) : Option UInt8 :=
  if e = quote ∨ e = backslash ∨ e = 47 then some e
  else if e = 98 then some 8
  else if e = 116 then some 9
  else if e = 110 then some 10
  else if e = 102 then some 12
  else if e = 114 then some 13
  else none

def lexUnit : Bytes → Option (CodeUnit × Bytes)
  | [] => none
  | c :: rest =>
    if c = backslash then
      match rest with
      | [] => none
      | e :: rest =>
        if e = 117 then
          match rest with
          | h₁ :: h₂ :: h₃ :: h₄ :: rest => (hexValue4 h₁ h₂ h₃ h₄).map fun n => (.utf16 n, rest)
          | _ => none
        else (simpleEscape e).map fun x => (.byte x, rest)
    else if c < 32 then none
    else some (.byte c, rest)

/-- The units of a string after its opening quote, and the input behind its closing quote. -/
def lexString : Nat → Bytes → Option (List CodeUnit × Bytes)
  | 0, _ => none
  | fuel + 1, b =>
    if b.head? = some quote then some ([], b.tail)
    else do
      let (u, b) ← lexUnit b
      let (us, b) ← lexString fuel b
      return (u :: us, b)

def utf8 (n : Nat) : Bytes :=
  if n < 0x80 then [.ofNat n]
  else if n < 0x800 then [.ofNat (0xC0 + n / 0x40), .ofNat (0x80 + n % 0x40)]
  else if n < 0x10000 then [.ofNat (0xE0 + n / 0x1000), .ofNat (0x80 + n / 0x40 % 0x40), .ofNat (0x80 + n % 0x40)]
  else [.ofNat (0xF0 + n / 0x40000), .ofNat (0x80 + n / 0x1000 % 0x40), .ofNat (0x80 + n / 0x40 % 0x40),
    .ofNat (0x80 + n % 0x40)]

/-- The bytes of a string; a high surrogate must be followed by a low one. -/
def assemble : List CodeUnit → Option Bytes
  | [] => some []
  | .byte c :: us => (assemble us).map (c :: ·)
  | .utf16 n :: us =>
    if n < 0xD800 ∨ 0xE000 ≤ n then (assemble us).map (utf8 n ++ ·)
    else
      match us with
      | .utf16 m :: us =>
        if n < 0xDC00 ∧ 0xDC00 ≤ m ∧ m < 0xE000 then
          (assemble us).map (utf8 (0x10000 + (n - 0xD800) * 0x400 + (m - 0xDC00)) ++ ·)
        else none
      | _ => none

def parseString (b : Bytes) : Option (JString × Bytes) := do
  let (us, rest) ← lexString b.length b
  let bytes ← assemble us
  if h : bytes.length < sizeTypeRange then return (⟨bytes, h⟩, rest) else none

def isDigit (c : UInt8) : Bool := 48 ≤ c && c ≤ 57

/-- The input behind the digits, of which there is one at least. -/
def skipDigits (b : Bytes) : Option Bytes :=
  if (b.head?.map isDigit).getD false then some (b.dropWhile isDigit) else none

def skipFraction (b : Bytes) : Option Bytes := if b.head? = some 46 then skipDigits b.tail else some b

def skipExponent (b : Bytes) : Option Bytes :=
  if b.head? = some 101 ∨ b.head? = some 69 then
    skipDigits (if b.tail.head? = some 43 ∨ b.tail.head? = some 45 then b.tail.tail else b.tail)
  else some b

def skipNumber (b : Bytes) : Option Bytes := do
  let b := if b.head? = some 45 then b.tail else b
  let b ← if b.head? = some 48 then some b.tail else skipDigits b
  let b ← skipFraction b
  skipExponent b

def numberOf (text : Bytes) : JsonNumber :=
  let n := text.foldl (fun n c => n * 10 + (c.toNat - 48)) 0
  if text.all isDigit ∧ n < 2 ^ 64 then .uint64 (.ofNat n) else .other text

def parseNumber (b : Bytes) : Option (Json × Bytes) := do
  let rest ← skipNumber b
  return (.number (numberOf (b.take (b.length - rest.length))), rest)

def parseLiteral (text : Bytes) (v : Json) (b : Bytes) : Option (Json × Bytes) :=
  if text <+: b then some (v, b.drop text.length) else none

mutual

def parseValue : Nat → Bytes → Option (Json × Bytes)
  | 0, _ => none
  | fuel + 1, b =>
    match skipWhitespace b with
    | [] => none
    | c :: rest =>
      if c = quote then do
        let (s, rest) ← parseString rest
        return (.string s, rest)
      else if c = openBrace then
        match expect closeBrace rest with
        | some rest => some (.object [], rest)
        | none => do
          let (members, rest) ← parseMembers fuel rest
          return (.object members, rest)
      else if c = openBracket then
        match expect closeBracket rest with
        | some rest => some (.array [], rest)
        | none => do
          let (items, rest) ← parseItems fuel rest
          return (.array items, rest)
      else if c = 110 then parseLiteral (ascii "null") .null (c :: rest)
      else if c = 116 then parseLiteral (ascii "true") (.bool true) (c :: rest)
      else if c = 102 then parseLiteral (ascii "false") (.bool false) (c :: rest)
      else parseNumber (c :: rest)

def parseItems : Nat → Bytes → Option (List Json × Bytes)
  | 0, _ => none
  | fuel + 1, b => do
    let (v, b) ← parseValue fuel b
    match expect comma b with
    | some b =>
      let (items, b) ← parseItems fuel b
      return (v :: items, b)
    | none =>
      let b ← expect closeBracket b
      return ([v], b)

def parseMembers : Nat → Bytes → Option (List (JString × Json) × Bytes)
  | 0, _ => none
  | fuel + 1, b => do
    let b ← expect quote b
    let (n, b) ← parseString b
    let b ← expect colon b
    let (v, b) ← parseValue fuel b
    match expect comma b with
    | some b =>
      let (members, b) ← parseMembers fuel b
      return ((n, v) :: members, b)
    | none =>
      let b ← expect closeBrace b
      return ([(n, v)], b)

end

/-- One value, up to the end of the input or its first NUL. -/
def parse (content : Bytes) : Option Json := do
  let text := content.takeWhile (· ≠ 0)
  let (v, rest) ← parseValue (text.length + 1) text
  if skipWhitespace rest = [] then return v else none

def library : RapidJson where
  parse := parse
  write := write

theorem isDigit_of_mem_decimal {n : Nat} {c : UInt8} (h : c ∈ decimal n) : isDigit c := by
  obtain ⟨d, hd, rfl⟩ := List.mem_map.1 h
  have hdigit := Nat.isDigit_of_mem_toDigits (by decide) (Nat.le_refl 10) hd
  rw [Char.isDigit, Bool.and_eq_true, decide_eq_true_eq, decide_eq_true_eq, ge_iff_le, UInt32.le_iff_toNat_le,
    UInt32.le_iff_toNat_le] at hdigit
  have hlow : 48 ≤ d.toNat := hdigit.1
  have hhigh : d.toNat ≤ 57 := hdigit.2
  have htoNat : d.toNat.toUInt8.toNat = d.toNat :=
    UInt8.toNat_ofNat_of_lt' (Nat.lt_of_le_of_lt hhigh (by decide))
  rw [isDigit, Bool.and_eq_true, decide_eq_true_eq, decide_eq_true_eq, UInt8.le_iff_toNat_le, UInt8.le_iff_toNat_le,
    htoNat]
  exact ⟨hlow, hhigh⟩

/-! ### The parser inverts the writer -/

theorem skipWhitespace_cons {c : UInt8} (h : isWhitespace c = false) (b : Bytes) :
    skipWhitespace (c :: b) = c :: b := by
  simp [skipWhitespace, h]

theorem expect_self {c : UInt8} (h : isWhitespace c = false) (b : Bytes) : expect c (c :: b) = some b := by
  simp [expect, skipWhitespace_cons h]

theorem expect_other {c d : UInt8} (h : isWhitespace d = false) (hne : d ≠ c) (b : Bytes) :
    expect c (d :: b) = none := by
  simp [expect, skipWhitespace_cons h, hne]

@[simp] theorem expect_nil (c : UInt8) : expect c [] = none := rfl

theorem hexValue_hexDigit : ∀ n < 16, hexValue (hexDigit n) = some n := by decide

theorem hexDigit_ne_zero : ∀ n < 16, hexDigit n ≠ 0 := by decide

/-- How the parser reads what the writer shows of a byte. -/
def unitOf (c : UInt8) : CodeUnit :=
  if c < 32 ∧ c ≠ 8 ∧ c ≠ 9 ∧ c ≠ 10 ∧ c ≠ 12 ∧ c ≠ 13 then .utf16 c.toNat else .byte c

theorem lexUnit_escapeByte (c : UInt8) (b : Bytes) : lexUnit (escapeByte c ++ b) = some (unitOf c, b) := by
  unfold escapeByte
  split
  · rename_i h
    rcases h with rfl | rfl <;> simp [lexUnit, simpleEscape, unitOf, quote, backslash]
  · rename_i h
    push Not at h
    split
    · subst c; rfl
    split
    · subst c; rfl
    split
    · subst c; rfl
    split
    · subst c; rfl
    split
    · subst c; rfl
    split
    · rename_i h₁ h₂ h₃ h₄ h₅ hlt
      have hlt' : c.toNat < 32 := UInt8.lt_iff_toNat_lt.1 hlt
      have hhigh := hexValue_hexDigit (c.toNat / 16) (by omega)
      have hlow := hexValue_hexDigit (c.toNat % 16) (by omega)
      have hzero : hexValue 48 = some 0 := by decide
      have hval : ((0 * 16 + 0) * 16 + c.toNat / 16) * 16 + c.toNat % 16 = c.toNat := by omega
      simp [lexUnit, hexValue4, hhigh, hlow, hzero, unitOf, h₁, h₂, h₃, h₄, h₅, hlt]
      omega
    · rename_i h₁ h₂ h₃ h₄ h₅ hlt
      simp [lexUnit, unitOf, h.2, hlt]

theorem head_escapeByte (c : UInt8) (b : Bytes) : (escapeByte c ++ b).head? ≠ some quote := by
  unfold escapeByte
  split
  · simp [backslash, quote]
  · rename_i h
    push Not at h
    split_ifs <;> simp [backslash, quote]
    exact h.1

theorem escapeByte_ne_nil (c : UInt8) : escapeByte c ≠ [] := by
  unfold escapeByte
  split_ifs <;> simp

theorem lexString_stringText {s : Bytes} {fuel : Nat} (h : s.length < fuel) (b : Bytes) :
    lexString fuel (stringText s ++ b) = some (s.map unitOf, b) := by
  induction s generalizing fuel with
  | nil =>
    obtain ⟨fuel, rfl⟩ := Nat.exists_eq_succ_of_ne_zero (Nat.ne_of_gt h)
    simp [lexString, stringText]
  | cons c s ih =>
    obtain ⟨fuel, rfl⟩ := Nat.exists_eq_succ_of_ne_zero (Nat.ne_of_gt (Nat.zero_lt_of_lt h))
    have hcons : stringText (c :: s) ++ b = escapeByte c ++ (stringText s ++ b) := by
      simp [stringText]
    have hrest := ih (Nat.lt_of_succ_lt_succ h)
    rw [hcons, lexString, if_neg (head_escapeByte c _), lexUnit_escapeByte]
    simp [hrest]

theorem assemble_units (s : Bytes) : assemble (s.map unitOf) = some s := by
  induction s with
  | nil => rfl
  | cons c s ih =>
    rw [List.map_cons, unitOf]
    split
    · rename_i h
      have hlt : c.toNat < 32 := UInt8.lt_iff_toNat_lt.1 h.1
      have hutf : utf8 c.toNat = [c] := by
        simp [utf8, show c.toNat < 128 by omega]
      have hplain : c.toNat < 0xD800 ∨ 0xE000 ≤ c.toNat := Or.inl (by omega)
      rw [assemble.eq_def]
      simp only [if_pos hplain, ih, hutf, Option.map_some, List.singleton_append]
    · rw [assemble, ih]
      rfl

theorem length_stringText (s : Bytes) : s.length < (stringText s).length := by
  induction s with
  | nil => simp [stringText]
  | cons c s ih =>
    have := List.length_pos_iff.2 (escapeByte_ne_nil c)
    simp [stringText] at ih ⊢
    omega

theorem parseString_stringText (s : JString) (b : Bytes) : parseString (stringText s.bytes ++ b) = some (s, b) := by
  have hlen : s.bytes.length < (stringText s.bytes ++ b).length := by
    have := length_stringText s.bytes
    rw [List.length_append]
    omega
  rw [parseString, lexString_stringText hlen]
  simp [assemble_units, s.length_lt]

/-- The values whose text does not depend on what stands behind it. -/
def IsLeaf : Json → Prop
  | .null | .bool _ | .string _ => True
  | _ => False

theorem parseValue_leaf {v : Json} (h : IsLeaf v) (fuel : Nat) (b : Bytes) :
    parseValue (fuel + 1) (write v ++ b) = some (v, b) := by
  cases v with
  | null => rfl
  | bool x => cases x <;> rfl
  | string s =>
    rw [write, List.cons_append, parseValue, skipWhitespace_cons (by decide)]
    simp [parseString_stringText]
  | number | array | object => exact h.elim

/-- The parser on one member, up to what stands behind it. -/
theorem parseMembers_member {n : JString} {v : Json} (h : IsLeaf v) (fuel : Nat) (b : Bytes) :
    parseMembers (fuel + 2) (quote :: (stringText n.bytes ++ colon :: (write v ++ b))) =
      match expect comma b with
      | some b => (parseMembers (fuel + 1) b).map fun p => ((n, v) :: p.1, p.2)
      | none => (expect closeBrace b).map fun b => ([(n, v)], b) := by
  rw [parseMembers, expect_self (by decide)]
  simp only [Option.bind_eq_bind, Option.bind_some, parseString_stringText, expect_self (c := colon) (by decide),
    parseValue_leaf h]
  cases expect comma b with
  | none => cases expect closeBrace b <;> rfl
  | some b =>
    show (parseMembers (fuel + 1) b).bind _ = (parseMembers (fuel + 1) b).map _
    cases parseMembers (fuel + 1) b <;> rfl

theorem parseMembers_write {members : List (JString × Json)} (hne : members ≠ []) (h : ∀ m ∈ members, IsLeaf m.2)
    {fuel : Nat} (hf : members.length < fuel) (b : Bytes) :
    parseMembers fuel (writeMembers members ++ closeBrace :: b) = some (members, b) := by
  induction members generalizing fuel with
  | nil => exact absurd rfl hne
  | cons m members ih =>
    obtain ⟨n, v⟩ := m
    obtain ⟨fuel, rfl⟩ : ∃ k, fuel = k + 2 := ⟨fuel - 2, by rw [List.length_cons] at hf; omega⟩
    have hleaf := h (n, v) List.mem_cons_self
    cases members with
    | nil =>
      simp only [writeMembers, List.cons_append, List.append_assoc]
      rw [parseMembers_member hleaf, expect_other (by decide) (by decide), expect_self (by decide)]
      rfl
    | cons m' members =>
      have hf' : (m' :: members).length < fuel + 1 := by rw [List.length_cons] at hf; omega
      have hrest := ih (by simp) (fun m hm => h m (List.mem_cons_of_mem _ hm)) hf'
      simp only [writeMembers, List.cons_append, List.append_assoc]
      rw [parseMembers_member hleaf, expect_self (by decide)]
      simp only [hrest, Option.map_some]

theorem ne_zero_of_mem_stringText {s : Bytes} : ∀ c ∈ stringText s, c ≠ 0 := by
  intro c hc
  rw [stringText, List.mem_append, List.mem_flatMap] at hc
  rcases hc with ⟨d, -, hd⟩ | hc
  · unfold escapeByte at hd
    split_ifs at hd with h₁ h₂ h₃ h₄ h₅ h₆ h₇
    · rcases h₁ with rfl | rfl <;> simp [backslash, quote] at hd <;> rcases hd with rfl | rfl <;> decide
    · simp [backslash] at hd; rcases hd with rfl | rfl <;> decide
    · simp [backslash] at hd; rcases hd with rfl | rfl <;> decide
    · simp [backslash] at hd; rcases hd with rfl | rfl <;> decide
    · simp [backslash] at hd; rcases hd with rfl | rfl <;> decide
    · simp [backslash] at hd; rcases hd with rfl | rfl <;> decide
    · have hlt := UInt8.lt_iff_toNat_lt.1 h₇
      have hhigh := hexDigit_ne_zero (d.toNat / 16) (by simp at hlt; omega)
      have hlow := hexDigit_ne_zero (d.toNat % 16) (by omega)
      simp [backslash] at hd
      rcases hd with rfl | rfl | rfl | rfl | rfl <;> first | assumption | decide
    · obtain rfl := List.mem_singleton.1 hd
      rintro rfl
      exact h₇ (by decide)
  · obtain rfl := List.mem_singleton.1 hc
    decide

theorem ne_zero_of_mem_leaf {v : Json} (h : IsLeaf v) : ∀ c ∈ write v, c ≠ 0 := by
  have hliteral : ∀ text : Bytes, (0 : UInt8) ∉ text → ∀ c ∈ text, c ≠ 0 := by
    rintro text ht c hc rfl
    exact ht hc
  cases v with
  | null => exact hliteral _ (by decide)
  | bool x => cases x <;> exact hliteral _ (by decide)
  | string s =>
    rw [write, List.forall_mem_cons]
    exact ⟨by decide, ne_zero_of_mem_stringText⟩
  | number | array | object => exact h.elim

theorem ne_zero_of_mem_writeMembers {members : List (JString × Json)} (h : ∀ m ∈ members, IsLeaf m.2) :
    ∀ c ∈ writeMembers members, c ≠ 0 := by
  have hmember : ∀ (n : JString) (v : Json), IsLeaf v →
      ∀ c ∈ quote :: (stringText n.bytes ++ colon :: write v), c ≠ 0 := by
    intro n v hv c hc
    rw [List.mem_cons, List.mem_append, List.mem_cons] at hc
    rcases hc with rfl | hc | rfl | hc
    · decide
    · exact ne_zero_of_mem_stringText c hc
    · decide
    · exact ne_zero_of_mem_leaf hv c hc
  induction members with
  | nil => simp [writeMembers]
  | cons m members ih =>
    obtain ⟨n, v⟩ := m
    have hfirst := hmember n v (h (n, v) List.mem_cons_self)
    cases members with
    | nil => exact hfirst
    | cons m' members =>
      have hrest := ih fun m hm => h m (List.mem_cons_of_mem _ hm)
      intro c hc
      rw [writeMembers, ← List.cons_append, List.mem_append, List.mem_cons (b := comma)] at hc
      rcases hc with hc | hc | hc
      · exact hfirst c hc
      · rw [hc]
        decide
      · exact hrest c hc

theorem ne_zero_of_mem_text {members : List (JString × Json)} (h : ∀ m ∈ members, IsLeaf m.2) :
    ∀ c ∈ write (.object members), c ≠ 0 := by
  intro c hc
  rw [write, List.mem_cons, List.mem_append] at hc
  rcases hc with rfl | hc | hc
  · decide
  · exact ne_zero_of_mem_writeMembers h c hc
  · obtain rfl := List.mem_singleton.1 hc
    decide

theorem length_writeMembers (members : List (JString × Json)) : members.length ≤ (writeMembers members).length := by
  induction members with
  | nil => simp
  | cons m members ih =>
    obtain ⟨n, v⟩ := m
    cases members with
    | nil => simp [writeMembers]
    | cons m' members =>
      simp only [writeMembers, List.length_cons, List.length_append] at ih ⊢
      omega

/-- The parser inverts the writer on objects of leaves. -/
theorem parse_write {members : List (JString × Json)} (h : ∀ m ∈ members, IsLeaf m.2) :
    parse (write (.object members)) = some (.object members) := by
  rw [parse, takeWhile_of_ne_zero (ne_zero_of_mem_text h), write]
  cases members with
  | nil => rfl
  | cons m members =>
    have hlen := length_writeMembers (m :: members)
    have hf : (m :: members).length < (writeMembers (m :: members) ++ [closeBrace]).length + 1 := by
      rw [List.length_append]
      omega
    have hparse := parseMembers_write (by simp) h hf []
    have hbrace : expect closeBrace (writeMembers (m :: members) ++ [closeBrace]) = none := by
      obtain ⟨n, v⟩ := m
      cases members <;> exact expect_other (by decide) (by decide) _
    simp only [List.length_cons, parseValue, skipWhitespace_cons (c := openBrace) (by decide), hbrace, hparse]
    rfl

theorem parsesOwnText : library.ParsesOwnText := by
  intro members
  refine parse_write fun m hm => ?_
  obtain ⟨m', -, rfl⟩ := List.mem_map.1 hm
  exact trivial

/-! ### Cut texts -/

/-- `p` is what is left of `t` when its end is missing. -/
def Cut (p t : Bytes) : Prop := p <+: t ∧ p ≠ t

theorem not_cut_nil {p : Bytes} : ¬Cut p [] := fun h => h.2 (List.prefix_nil.1 h.1)

theorem cut_cons {p t : Bytes} {c : UInt8} (h : Cut p (c :: t)) : p = [] ∨ ∃ q, p = c :: q ∧ Cut q t := by
  obtain ⟨hp, hne⟩ := h
  cases p with
  | nil => exact Or.inl rfl
  | cons d q =>
    obtain ⟨rfl, hq⟩ := List.cons_prefix_cons.1 hp
    exact Or.inr ⟨q, rfl, hq, fun he => hne (by rw [he])⟩

theorem cut_append {p a t : Bytes} (h : Cut p (a ++ t)) : Cut p a ∨ ∃ q, p = a ++ q ∧ Cut q t := by
  induction a generalizing p with
  | nil => exact Or.inr ⟨p, rfl, h⟩
  | cons c a ih =>
    rcases cut_cons h with rfl | ⟨q, rfl, hq⟩
    · exact Or.inl ⟨List.nil_prefix, by simp⟩
    · rcases ih hq with hq | ⟨r, rfl, hr⟩
      · exact Or.inl ⟨List.cons_prefix_cons.2 ⟨rfl, hq.1⟩, fun he => hq.2 (List.cons_injective he)⟩
      · exact Or.inr ⟨r, rfl, hr⟩

theorem lexUnit_cut {p : Bytes} {c : UInt8} (h : Cut p (escapeByte c)) : p.head? ≠ some quote ∧ lexUnit p = none := by
  have hshort : ∀ e, Cut p [backslash, e] → p.head? ≠ some quote ∧ lexUnit p = none := by
    intro e he
    rcases cut_cons he with rfl | ⟨q, rfl, hq⟩
    · simp [lexUnit]
    · rcases cut_cons hq with rfl | ⟨r, -, hr⟩
      · simp [lexUnit, backslash, quote]
      · exact absurd hr not_cut_nil
  unfold escapeByte at h
  split_ifs at h
  · exact hshort _ h
  · exact hshort _ h
  · exact hshort _ h
  · exact hshort _ h
  · exact hshort _ h
  · exact hshort _ h
  · -- every place inside of a numeric escape
    rcases cut_cons h with rfl | ⟨p₁, rfl, h₁⟩
    · simp [lexUnit]
    rcases cut_cons h₁ with rfl | ⟨p₂, rfl, h₂⟩
    · simp [lexUnit, backslash, quote]
    rcases cut_cons h₂ with rfl | ⟨p₃, rfl, h₃⟩
    · simp [lexUnit, backslash, quote]
    rcases cut_cons h₃ with rfl | ⟨p₄, rfl, h₄⟩
    · simp [lexUnit, backslash, quote]
    rcases cut_cons h₄ with rfl | ⟨p₅, rfl, h₅⟩
    · simp [lexUnit, backslash, quote]
    rcases cut_cons h₅ with rfl | ⟨p₆, rfl, h₆⟩
    · simp [lexUnit, backslash, quote]
    exact absurd h₆ not_cut_nil
  · rcases cut_cons h with rfl | ⟨q, -, hq⟩
    · simp [lexUnit]
    · exact absurd hq not_cut_nil

theorem lexString_cut {s p t : Bytes} (h : Cut p (stringText s ++ t)) (fuel : Nat) :
    lexString fuel p = none ∨ ∃ q, p = stringText s ++ q ∧ Cut q t := by
  induction s generalizing p fuel with
  | nil =>
    rcases cut_cons h with rfl | ⟨q, rfl, hq⟩
    · left
      cases fuel <;> simp [lexString, lexUnit]
    · exact Or.inr ⟨q, rfl, hq⟩
  | cons c s ih =>
    have hcons : ∀ b, stringText (c :: s) ++ b = escapeByte c ++ (stringText s ++ b) := by
      simp [stringText]
    rw [hcons] at h
    cases fuel with
    | zero => exact Or.inl rfl
    | succ fuel =>
      rcases cut_append h with h | ⟨q, rfl, hq⟩
      · obtain ⟨hhead, hlex⟩ := lexUnit_cut h
        left
        rw [lexString, if_neg hhead, hlex]
        rfl
      · rcases ih hq fuel with hq | ⟨r, rfl, hr⟩
        · left
          rw [lexString, if_neg (head_escapeByte c _), lexUnit_escapeByte]
          simp [hq]
        · exact Or.inr ⟨r, (hcons r).symm, hr⟩

theorem parseString_cut {s p t : Bytes} (h : Cut p (stringText s ++ t)) :
    parseString p = none ∨ ∃ q, p = stringText s ++ q ∧ Cut q t := by
  rcases lexString_cut h p.length with hp | hq
  · left
    rw [parseString, hp]
    rfl
  · exact Or.inr hq

theorem parseValue_nil (fuel : Nat) : parseValue fuel [] = none := by
  cases fuel <;> rfl

/-- A string value that is cut, or is followed by what is cut. -/
theorem parseValue_cut {s : JString} {p t : Bytes} (h : Cut p (write (.string s) ++ t)) (fuel : Nat) :
    parseValue fuel p = none ∨ ∃ q, p = write (.string s) ++ q ∧ Cut q t := by
  rcases cut_cons h with rfl | ⟨q, rfl, hq⟩
  · exact Or.inl (parseValue_nil fuel)
  · rcases parseString_cut hq with hq | ⟨r, rfl, hr⟩
    · left
      cases fuel with
      | zero => rfl
      | succ fuel => simp [parseValue, skipWhitespace_cons (c := quote) (by decide), hq]
    · exact Or.inr ⟨r, rfl, hr⟩

theorem parseMembers_nil (fuel : Nat) : parseMembers fuel [] = none := by
  cases fuel <;> rfl

theorem parseMembers_one (b : Bytes) : parseMembers 1 b = none := by
  simp [parseMembers, parseValue]

/-- A cut in front of, or inside of, a member. -/
theorem parseMembers_member_cut {n v : JString} {t p : Bytes}
    (h : Cut p (quote :: (stringText n.bytes ++ colon :: (write (.string v) ++ t)))) (fuel : Nat) :
    parseMembers fuel p = none ∨
      ∃ q, Cut q t ∧ p = quote :: (stringText n.bytes ++ colon :: (write (.string v) ++ q)) := by
  cases fuel with
  | zero => exact Or.inl rfl
  | succ fuel =>
    rcases cut_cons h with rfl | ⟨p₁, rfl, h₁⟩
    · exact Or.inl (parseMembers_nil _)
    rcases parseString_cut h₁ with hnone | ⟨p₂, rfl, h₂⟩
    · left
      rw [parseMembers, expect_self (by decide)]
      simp [hnone]
    rcases cut_cons h₂ with rfl | ⟨p₃, rfl, h₃⟩
    · left
      rw [parseMembers, expect_self (by decide)]
      simp only [Option.bind_eq_bind, Option.bind_some, parseString_stringText, expect_nil, Option.bind_none]
    rcases parseValue_cut h₃ fuel with hnone | ⟨q, rfl, hq⟩
    · left
      rw [parseMembers, expect_self (by decide)]
      simp [parseString_stringText, expect_self (c := colon) (by decide), hnone]
    · exact Or.inr ⟨q, hq, rfl⟩

theorem isLeaf_string (s : JString) : IsLeaf (.string s) := trivial

theorem parseMembers_cut {members : List (JString × JString)} (hne : members ≠ []) {p : Bytes}
    (h : Cut p (writeMembers (members.map fun m => (m.1, .string m.2)) ++ [closeBrace])) (fuel : Nat) :
    parseMembers fuel p = none := by
  induction members generalizing p fuel with
  | nil => exact absurd rfl hne
  | cons m members ih =>
    obtain ⟨n, v⟩ := m
    match fuel with
    | 0 => rfl
    | 1 => exact parseMembers_one p
    | fuel + 2 =>
      cases members with
      | nil =>
        simp only [List.map_cons, List.map_nil, writeMembers, List.cons_append, List.append_assoc] at h
        rcases parseMembers_member_cut h (fuel + 2) with hp | ⟨q, hq, rfl⟩
        · exact hp
        · rcases cut_cons hq with rfl | ⟨r, -, hr⟩
          · rw [parseMembers_member (isLeaf_string v)]
            rfl
          · exact absurd hr not_cut_nil
      | cons m' members =>
        simp only [List.map_cons, writeMembers, List.cons_append, List.append_assoc] at h
        rcases parseMembers_member_cut h (fuel + 2) with hp | ⟨q, hq, rfl⟩
        · exact hp
        · rw [parseMembers_member (isLeaf_string v)]
          rcases cut_cons hq with rfl | ⟨r, rfl, hr⟩
          · rfl
          · rw [expect_self (by decide)]
            simp only [ih (by simp) hr (fuel + 1), Option.map_none]

theorem rejectsCutText : library.RejectsCutText := by
  intro members p hp hne
  have hcut : Cut p (write (.ofStrings members)) := ⟨hp, hne⟩
  have hleaf : ∀ m ∈ members.map fun m => (m.1, Json.string m.2), IsLeaf m.2 := by
    intro m hm
    obtain ⟨m', -, rfl⟩ := List.mem_map.1 hm
    exact trivial
  have htext : p.takeWhile (· ≠ 0) = p :=
    takeWhile_of_ne_zero fun c hc => ne_zero_of_mem_text hleaf c (hp.subset hc)
  show parse p = none
  rw [parse, htext]
  rw [Json.ofStrings, write] at hcut
  rcases cut_cons hcut with rfl | ⟨q, rfl, hq⟩
  · rfl
  · have hbrace : expect closeBrace q = none := by
      cases members with
      | nil =>
        rcases cut_cons hq with rfl | ⟨r, -, hr⟩
        · rfl
        · exact absurd hr not_cut_nil
      | cons m members =>
        obtain ⟨n, v⟩ := m
        cases members <;> rcases cut_cons hq with rfl | ⟨r, rfl, -⟩ <;> rfl
    have hmembers : parseMembers (openBrace :: q).length q = none := by
      cases members with
      | nil =>
        rcases cut_cons hq with rfl | ⟨r, -, hr⟩
        · rfl
        · exact absurd hr not_cut_nil
      | cons m members => exact parseMembers_cut (List.cons_ne_nil _ _) hq _
    simp only [parseValue, skipWhitespace_cons (c := openBrace) (by decide), hbrace, hmembers]
    rfl

end JsonText

end KeyValueServer
