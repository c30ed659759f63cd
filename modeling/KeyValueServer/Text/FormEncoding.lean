import Mathlib.Data.List.Infix
import Mathlib.Data.UInt

/-!
# Form-encoded names

The percent-encoding of byte strings as forms use it.  `quotePlus` writes a space as a plus sign, leaves letters,
digits and a few marks as they are, and writes every other byte as an escape: a percent sign and two hexadecimal
digits.  A decoder reads from the left; what it takes for an escape is up to a function of the two characters behind
the percent sign (`decodeWith`).  `formDecode` takes two digits of either case and nothing else, and copies a percent
sign that is no escape.

Every decoder that takes the escapes of `formDecode` is a left inverse of `quotePlus` (`decodeWith_quotePlus`).  One
that takes more for an escape agrees with `formDecode` on exactly those strings in which nothing of the kind stands
behind a percent sign (`decodeWith_eq_iff`).
-/

namespace Text

def decodeWith (escape : UInt8 → UInt8 → Option UInt8) : List UInt8 → List UInt8
  | [] => []
  | 43 :: rest => 32 :: decodeWith escape rest
  | 37 :: a :: b :: rest =>
    match escape a b with
    | some c => c :: decodeWith escape rest
    | none => 37 :: decodeWith escape (a :: b :: rest)
  | c :: rest => c :: decodeWith escape rest

/-- The value of a hexadecimal digit of either case. -/
def hexValue (c : UInt8) : Option UInt8 :=
  if 48 ≤ c ∧ c ≤ 57 then some (c - 48)
  else if 65 ≤ c ∧ c ≤ 70 then some (c - 55)
  else if 97 ≤ c ∧ c ≤ 102 then some (c - 87)
  else none

/-- The byte that two hexadecimal digits stand for. -/
def escapeValue (a b : UInt8) : Option UInt8 :=
  match hexValue a, hexValue b with
  | some x, some y => some (x * 16 + y)
  | _, _ => none

def formDecode (s : List UInt8) : List UInt8 := decodeWith escapeValue s

/-- Letters, digits, and `_ . - ~`. -/
def isUnreserved (c : UInt8) : Bool :=
  (48 ≤ c && c ≤ 57) || (65 ≤ c && c ≤ 90) || (97 ≤ c && c ≤ 122) || c = 95 || c = 46 || c = 45 || c = 126

/-- An upper-case hexadecimal digit. -/
def hexDigit (n : UInt8) : UInt8 := if n < 10 then 48 + n else 55 + n

def quoteByte (c : UInt8) : List UInt8 :=
  if c = 32 then [43] else if isUnreserved c then [c] else [37, hexDigit (c / 16), hexDigit (c % 16)]

def quotePlus (s : List UInt8) : List UInt8 := s.flatMap quoteByte

/-! ### One character of a decoder -/

section Decoder

variable {escape : UInt8 → UInt8 → Option UInt8}

theorem decodeWith_plus (rest : List UInt8) : decodeWith escape (43 :: rest) = 32 :: decodeWith escape rest := by
  rw [decodeWith]

theorem decodeWith_escape {a b c : UInt8} (h : escape a b = some c) (rest : List UInt8) :
    decodeWith escape (37 :: a :: b :: rest) = c :: decodeWith escape rest := by
  rw [decodeWith, h]

theorem decodeWith_percent {a b : UInt8} (h : escape a b = none) (rest : List UInt8) :
    decodeWith escape (37 :: a :: b :: rest) = 37 :: decodeWith escape (a :: b :: rest) := by
  rw [decodeWith, h]

/-- A percent sign with less than two characters behind it. -/
theorem decodeWith_percent_end {rest : List UInt8} (h : rest.length < 2) :
    decodeWith escape (37 :: rest) = 37 :: decodeWith escape rest := by
  rw [decodeWith]
  · decide
  · rintro a b rest - rfl
    rw [List.length_cons, List.length_cons] at h
    omega

theorem decodeWith_copy {c : UInt8} (hplus : c ≠ 43) (hpercent : c ≠ 37) (rest : List UInt8) :
    decodeWith escape (c :: rest) = c :: decodeWith escape rest := by
  rw [decodeWith]
  · exact hplus
  · intro a b rest hc
    exact absurd hc hpercent

end Decoder

/-! ### Decoding what was encoded -/

/-- To check something of every byte. -/
theorem forall_byte {P : UInt8 → Prop} (h : ∀ n < 256, P (.ofNat n)) (c : UInt8) : P c := by
  have hc := h c.toNat c.toNat_lt
  rwa [UInt8.ofNat_toNat] at hc

theorem escapeValue_hexDigit (c : UInt8) : escapeValue (hexDigit (c / 16)) (hexDigit (c % 16)) = some c :=
  forall_byte (P := fun c => escapeValue (hexDigit (c / 16)) (hexDigit (c % 16)) = some c) (by decide +kernel) c

section Quoted

variable {escape : UInt8 → UInt8 → Option UInt8}

theorem decodeWith_quoteByte (h : ∀ a b c, escapeValue a b = some c → escape a b = some c) (c : UInt8)
    (rest : List UInt8) : decodeWith escape (quoteByte c ++ rest) = c :: decodeWith escape rest := by
  unfold quoteByte
  split
  · rename_i hc
    rw [hc]
    exact decodeWith_plus rest
  · split
    · rename_i hc
      apply decodeWith_copy
      · rintro rfl
        exact absurd hc (by decide)
      · rintro rfl
        exact absurd hc (by decide)
    · exact decodeWith_escape (h _ _ c (escapeValue_hexDigit c)) rest

/-- A decoder that takes escapes for what they are inverts `quotePlus`. -/
theorem decodeWith_quotePlus (h : ∀ a b c, escapeValue a b = some c → escape a b = some c) (s : List UInt8) :
    decodeWith escape (quotePlus s) = s := by
  induction s with
  | nil => rfl
  | cons c s ih =>
    rw [quotePlus, List.flatMap_cons, decodeWith_quoteByte h]
    exact congrArg _ ih

end Quoted

/-! ### Two decoders -/

theorem suffix_cons_iff_of_ne {s rest : List UInt8} {c d : UInt8} (h : d ≠ c) :
    d :: s <:+ c :: rest ↔ d :: s <:+ rest := by
  rw [List.suffix_cons_iff]
  constructor
  · rintro (he | hs)
    · exact absurd (List.cons.inj he).1 h
    · exact hs
  · exact Or.inr

/-- The first percent sign of a string, and the others. -/
private theorem forall_suffix_percent {P : UInt8 → UInt8 → Prop} {x y : UInt8} {rest : List UInt8} :
    (∀ a b r, 37 :: a :: b :: r <:+ 37 :: x :: y :: rest → P a b) ↔
      P x y ∧ ∀ a b r, 37 :: a :: b :: r <:+ x :: y :: rest → P a b := by
  constructor
  · intro h
    exact ⟨h x y rest (List.suffix_refl _), fun a b r hs => h a b r (hs.trans (List.suffix_cons _ _))⟩
  · rintro ⟨hxy, h⟩ a b r hs
    rcases List.suffix_cons_iff.1 hs with he | hs
    · simp only [List.cons.injEq, true_and] at he
      rw [he.1, he.2.1]
      exact hxy
    · exact h a b r hs

/-- What a decoder takes for an escape beyond `escape` must not yield a percent sign, and what `escape` takes must
not hide one; then the two agree on a string exactly when they agree on every percent sign in it. -/
theorem decodeWith_eq_iff {escape escape' : UInt8 → UInt8 → Option UInt8}
    (hmore : ∀ a b, escape' a b = escape a b ∨ escape a b = none ∧ ∃ c, c ≠ 37 ∧ escape' a b = some c)
    (hdigits : ∀ a b c, escape a b = some c → a ≠ 37 ∧ b ≠ 37) (s : List UInt8) :
    decodeWith escape' s = decodeWith escape s ↔
      ∀ a b rest, 37 :: a :: b :: rest <:+ s → escape' a b = escape a b := by
  induction hn : s.length using Nat.strong_induction_on generalizing s with
  | _ n ih =>
    subst hn
    match s with
    | [] => simp [decodeWith]
    | c :: rest =>
      have hrest := ih rest.length (Nat.lt_succ_self _) rest rfl
      by_cases hplus : c = 43
      · subst hplus
        rw [decodeWith_plus, decodeWith_plus, List.cons_inj_right, hrest]
        simp only [suffix_cons_iff_of_ne (show (37 : UInt8) ≠ 43 by decide)]
      by_cases hpercent : c = 37
      · subst hpercent
        match rest, hrest with
        | [], _ => simp [decodeWith_percent_end, decodeWith, List.suffix_cons_iff]
        | [x], hrest =>
          rw [decodeWith_percent_end (by simp), decodeWith_percent_end (by simp), List.cons_inj_right, hrest]
          simp [List.suffix_cons_iff]
        | x :: y :: rest, hrest =>
          rw [forall_suffix_percent]
          cases hxy : escape x y with
          | none =>
            rw [decodeWith_percent hxy]
            rcases hmore x y with he | ⟨-, d, hd, he⟩
            · rw [decodeWith_percent (he.trans hxy), List.cons_inj_right, hrest]
              simp [he, hxy]
            · rw [decodeWith_escape he, he]
              simp [hd]
          | some d =>
            have he : escape' x y = some d := by
              rcases hmore x y with he | ⟨hnone, -⟩
              · rw [he, hxy]
              · rw [hxy] at hnone
                cases hnone
            obtain ⟨hx, hy⟩ := hdigits x y d hxy
            rw [decodeWith_escape hxy, decodeWith_escape he, List.cons_inj_right,
              ih rest.length (by simp; omega) rest rfl, he]
            simp only [suffix_cons_iff_of_ne (Ne.symm hx), suffix_cons_iff_of_ne (Ne.symm hy), true_and]
      · rw [decodeWith_copy hplus hpercent, decodeWith_copy hplus hpercent, List.cons_inj_right, hrest]
        simp only [suffix_cons_iff_of_ne (Ne.symm hpercent)]

end Text
