import KeyValueServer.HttpServerHelpers
import KeyValueServer.Text.FormEncoding
import Mathlib.Data.List.TakeWhile

/-!
# What `url_decode` decodes, and what it reads

On what is left of a name, `url_decode` is a decoder that takes for an escape whatever `sscanf` does not answer with
`EOF` (`urlDecode_eq_decodeWith`): two hexadecimal digits, but also one, or none.  So it decodes form-encoded names, and
other names as far as `sscanf` finds nothing behind their percent signs (`urlDecode_eq_formDecode_iff`).

The rounds of the loop (`urlDecodeRounds`) tell where the name is read.  The bound `len - 2` wraps around when it
should be negative; there is one name for which that lets the loop read behind the terminator
(`urlDecode_inBounds_iff`).
-/

namespace KeyValueServer

open Text

namespace HttpServerHelpers

/-! ### Escapes -/

/-- What the two characters behind a percent sign stand for. -/
def scanEscape (a b : UInt8) : Option UInt8 := (sscanf [a, b, 0] 0).map UInt32.toUInt8

theorem isHexDigit_eq (c : UInt8) : isHexDigit c = (hexValue c).isSome := by
  revert c
  apply forall_byte
  decide +kernel

theorem hexDigitValue_eq {c v : UInt8} (h : hexValue c = some v) : hexDigitValue c = v.toUInt32 ∧ v < 16 := by
  have hall : ∀ c, (hexValue c).all fun v => hexDigitValue c = v.toUInt32 && v < 16 := by
    apply forall_byte
    decide +kernel
  have hc := hall c
  rw [h] at hc
  simpa using hc

theorem isSpace_of_isHexDigit {c : UInt8} (h : isHexDigit c) : isSpace c = false := by
  have hall : ∀ c, isHexDigit c → isSpace c = false := by
    apply forall_byte
    decide +kernel
  exact hall c h

theorem ne_of_isHexDigit {c d : UInt8} (h : isHexDigit c) (hd : isHexDigit d = false) : c ≠ d := by
  rintro rfl
  rw [h] at hd
  cases hd

theorem escapeValue_eq_some_iff {a b c : UInt8} :
    escapeValue a b = some c ↔ ∃ x y, hexValue a = some x ∧ hexValue b = some y ∧ x * 16 + y = c := by
  unfold escapeValue
  cases hexValue a <;> cases hexValue b <;> simp

theorem escapeValue_isSome (a b : UInt8) : (escapeValue a b).isSome = (isHexDigit a && isHexDigit b) := by
  rw [isHexDigit_eq, isHexDigit_eq, escapeValue]
  cases hexValue a <;> cases hexValue b <;> rfl

/-- What `sscanf` makes of a text, where the number was zero before. -/
theorem sscanf_of_text {buf text : Bytes} (h : (buf.takeWhile (· ≠ 0)).dropWhile isSpace = text) (hne : text ≠ []) :
    sscanf buf 0 = some ((scanSigned text).getD 0) := by
  rw [sscanf, h]
  cases text with
  | nil => exact absurd rfl hne
  | cons c rest => rfl

theorem scanEscape_of_escapeValue {a b c : UInt8} (h : escapeValue a b = some c) : scanEscape a b = some c := by
  obtain ⟨x, y, hx, hy, rfl⟩ := escapeValue_eq_some_iff.1 h
  have ha : isHexDigit a := by rw [isHexDigit_eq, hx]; rfl
  have hb : isHexDigit b := by rw [isHexDigit_eq, hy]; rfl
  have hbuf : ([a, b, 0].takeWhile (· ≠ 0)).dropWhile isSpace = [a, b] := by
    simp [List.takeWhile, ne_of_isHexDigit ha (d := 0) rfl, ne_of_isHexDigit hb (d := 0) rfl, isSpace_of_isHexDigit ha]
  have hsigned : scanSigned [a, b] = scanUnsigned [a, b] := by
    rw [scanSigned]
    · rintro rest ⟨⟩
      cases ha
    · rintro rest ⟨⟩
      cases ha
  have hunsigned : scanUnsigned [a, b] = scanDigits [a, b] := by
    rw [scanUnsigned]
    · rintro rest ⟨⟩
      cases hb
    · rintro rest ⟨⟩
      cases hb
  have hdigits : scanDigits [a, b] = some ((0 * 16 + hexDigitValue a) * 16 + hexDigitValue b) := by
    simp [scanDigits, List.takeWhile, ha, hb]
  rw [scanEscape, sscanf_of_text hbuf (List.cons_ne_nil _ _), hsigned, hunsigned, hdigits, (hexDigitValue_eq hx).1,
    (hexDigitValue_eq hy).1]
  simp

theorem scanDigits_lt {text : Bytes} (hlen : (text.takeWhile isHexDigit).length ≤ 1) {n : UInt32}
    (h : scanDigits text = some n) : n < 16 := by
  unfold scanDigits at h
  split at h
  · cases h
  · rename_i digits hne
    obtain ⟨c, hc⟩ : ∃ c, text.takeWhile isHexDigit = [c] := by
      rw [← List.length_eq_one_iff]
      have hpos := List.length_pos_iff.2 hne
      omega
    have hhex : isHexDigit c := by
      have hm : c ∈ text.takeWhile isHexDigit := by rw [hc]; exact List.mem_singleton_self c
      exact List.mem_takeWhile_imp hm
    rw [isHexDigit_eq] at hhex
    obtain ⟨v, hv⟩ := Option.isSome_iff_exists.1 hhex
    obtain ⟨hvalue, hlt⟩ := hexDigitValue_eq hv
    rw [hc, Option.some.injEq, List.foldl_cons, List.foldl_nil, hvalue] at h
    rw [← h]
    simpa [UInt32.lt_iff_toNat_lt, UInt8.lt_iff_toNat_lt] using hlt

/-- Less than two digits in a text of at most two characters. -/
theorem scanUnsigned_lt {text : Bytes} (hlen : text.length ≤ 2)
    (hnot : ∀ a b, text = [a, b] → escapeValue a b = none) {n : UInt32} (h : scanUnsigned text = some n) : n < 16 := by
  unfold scanUnsigned at h
  split at h
  · rename_i rest
    rw [List.length_cons, List.length_cons] at hlen
    exact scanDigits_lt ((List.takeWhile_prefix _).length_le.trans (by omega)) h
  · rename_i rest
    rw [List.length_cons, List.length_cons] at hlen
    exact scanDigits_lt ((List.takeWhile_prefix _).length_le.trans (by omega)) h
  · refine scanDigits_lt ?_ h
    by_contra hmany
    obtain ⟨a, b, rfl⟩ : ∃ a b, text = [a, b] := by
      have hle := (List.takeWhile_prefix isHexDigit (l := text)).length_le
      exact List.length_eq_two.1 (by omega)
    have hnone := hnot a b rfl
    have hboth := escapeValue_isSome a b
    rw [hnone] at hboth
    cases ha : isHexDigit a <;> cases hb : isHexDigit b <;> simp [ha, hb] at hmany hboth

/-- The text that `sscanf` is left with after white space. -/
theorem scanned_within (a b : UInt8) : ([a, b, 0].takeWhile (· ≠ 0)).dropWhile isSpace <:+: [a, b] := by
  have htake : [a, b, 0].takeWhile (· ≠ 0) <+: [a, b] := by
    by_cases ha : a = 0 <;> by_cases hb : b = 0 <;> simp [List.takeWhile, ha, hb]
  exact (List.dropWhile_suffix _).isInfix.trans htake.isInfix

theorem toUInt8_ne_percent {n : UInt32} (h : n < 16) : n.toUInt8 ≠ 37 ∧ (0 - n).toUInt8 ≠ 37 := by
  have hall : ∀ n < 16, (UInt32.ofNat n).toUInt8 ≠ 37 ∧ (0 - UInt32.ofNat n).toUInt8 ≠ 37 := by decide
  have hn := hall n.toNat (UInt32.lt_iff_toNat_lt.1 h)
  rwa [UInt32.ofNat_toNat] at hn

/-- A sign leaves room for one digit only. -/
theorem scanSigned_ne_percent {text : Bytes} (hlen : text.length ≤ 2)
    (hnot : ∀ a b, text = [a, b] → escapeValue a b = none) {n : UInt32} (h : scanSigned text = some n) :
    n.toUInt8 ≠ 37 := by
  unfold scanSigned at h
  split at h
  · rename_i rest
    rw [List.length_cons] at hlen
    obtain ⟨m, hm, rfl⟩ := Option.map_eq_some_iff.1 h
    refine (toUInt8_ne_percent (scanUnsigned_lt (by omega) ?_ hm)).2
    rintro x y rfl
    simp at hlen
  · rename_i rest
    rw [List.length_cons] at hlen
    refine (toUInt8_ne_percent (scanUnsigned_lt (by omega) ?_ h)).1
    rintro x y rfl
    simp at hlen
  · exact (toUInt8_ne_percent (scanUnsigned_lt hlen hnot h)).1

/-- Anything but two digits yields a small number, or the negative of one. -/
theorem scanEscape_ne_percent {a b c : UInt8} (h : escapeValue a b = none) (hc : scanEscape a b = some c) :
    c ≠ 37 := by
  obtain ⟨number, hnumber, rfl⟩ := Option.map_eq_some_iff.1 hc
  have hwithin := scanned_within a b
  unfold sscanf at hnumber
  generalize ([a, b, 0].takeWhile (· ≠ 0)).dropWhile isSpace = text at hnumber hwithin
  have hlen : text.length ≤ 2 := hwithin.length_le
  have hnot : ∀ x y, text = [x, y] → escapeValue x y = none := by
    rintro x y rfl
    obtain ⟨rfl, he⟩ := List.cons.inj (hwithin.eq_of_length rfl)
    obtain ⟨rfl, -⟩ := List.cons.inj he
    exact h
  split at hnumber
  · cases hnumber
  · rw [Option.some.injEq] at hnumber
    rw [← hnumber]
    cases hs : scanSigned text with
    | none => decide
    | some n => exact scanSigned_ne_percent hlen hnot hs

/-- `sscanf` answers with `EOF`. -/
theorem scanEscape_eq_none_iff (a b : UInt8) :
    scanEscape a b = none ↔ a = 0 ∨ isSpace a ∧ (b = 0 ∨ isSpace b) := by
  have hnone : scanEscape a b = none ↔ ([a, b, 0].takeWhile (· ≠ 0)).dropWhile isSpace = [] := by
    rw [scanEscape, Option.map_eq_none_iff]
    constructor
    · intro h
      by_contra hne
      rw [sscanf_of_text rfl hne] at h
      cases h
    · intro h
      rw [sscanf, h]
  rw [hnone]
  by_cases ha : a = 0
  · simp [ha]
  · by_cases hb : b = 0
    · simp [ha, hb]
    · simp [ha, hb]

/-! ### The names that are decoded -/

theorem charAt_of_lt {value : Bytes} {i : Nat} (hi : i < value.length) : charAt value i = value[i] := by
  rw [charAt, List.getD_eq_getElem?_getD, List.getElem?_eq_getElem hi, Option.getD_some]

/-- The bound of the loop, where it does not wrap around. -/
theorem lt_sizeSub_iff {len i : Nat} (h : 2 ≤ len) : i < sizeSub len 2 ↔ i + 2 < len := by
  rw [sizeSub, if_pos h]
  omega

/-- A round at a percent sign, whatever the bound has become. -/
theorem urlDecodeRound_percent {value : Bytes} {i : Nat} (hc : charAt value i = 37) :
    urlDecodeRound value i =
      if i + 2 < value.length then
        match scanEscape (charAt value (i + 1)) (charAt value (i + 2)) with
        | some c => (c, i + 3)
        | none => (37, i + 1)
      else (37, i + 1) := by
  rw [urlDecodeRound, hc, if_neg (by decide)]
  by_cases hlen : 2 ≤ value.length
  · simp only [lt_sizeSub_iff hlen, true_and]
    split
    · rw [scanEscape]
      cases sscanf [charAt value (i + 1), charAt value (i + 2), 0] 0 <;> rfl
    · rfl
  · -- a lone percent sign: the bound has wrapped around, and `sscanf` stops at the terminator
    have hterminator : charAt value (i + 1) = 0 := by
      rw [charAt, List.getD_eq_getElem?_getD, List.getElem?_eq_none (by omega)]
      rfl
    rw [hterminator, sscanf_zero, if_neg (show ¬ i + 2 < value.length by omega), ite_self]

/-- What one round does to the rest of the name. -/
theorem decodeWith_round {value : Bytes} {i : Nat} (hi : i < value.length) :
    decodeWith scanEscape (value.drop i) =
      (urlDecodeRound value i).1 :: decodeWith scanEscape (value.drop (urlDecodeRound value i).2) := by
  rw [List.drop_eq_getElem_cons hi, ← charAt_of_lt hi]
  by_cases hpercent : charAt value i = 37
  · rw [urlDecodeRound_percent hpercent, hpercent]
    by_cases hlong : i + 2 < value.length
    · have hrest : value.drop (i + 1) = charAt value (i + 1) :: charAt value (i + 2) :: value.drop (i + 3) := by
        rw [charAt_of_lt hlong, charAt_of_lt (by omega : i + 1 < value.length), ← List.drop_eq_getElem_cons hlong,
          ← List.drop_eq_getElem_cons]
      rw [if_pos hlong, hrest]
      cases hescape : scanEscape (charAt value (i + 1)) (charAt value (i + 2)) with
      | none => rw [decodeWith_percent hescape, ← hrest]
      | some c => rw [decodeWith_escape hescape]
    · rw [if_neg hlong, decodeWith_percent_end (by rw [List.length_drop]; omega)]
  · by_cases hplus : charAt value i = 43
    · rw [urlDecodeRound, if_pos hplus, hplus, decodeWith_plus]
    · rw [urlDecodeRound, if_neg hplus, if_neg fun h => hpercent h.1, decodeWith_copy hplus hpercent]

theorem urlDecodeLoop_eq_decodeWith {value : Bytes} {fuel i : Nat} (h : value.length ≤ i + fuel) (result : Bytes) :
    urlDecodeLoop value fuel i result = result ++ decodeWith scanEscape (value.drop i) := by
  induction fuel generalizing i result with
  | zero =>
    rw [urlDecodeLoop, List.drop_eq_nil_of_le (by omega), decodeWith, List.append_nil]
  | succ fuel ih =>
    by_cases hi : i < value.length
    · have hnext := urlDecodeRound_next hi
      rw [urlDecodeLoop_round hi, ih (by omega), decodeWith_round hi, List.append_assoc, List.singleton_append]
    · rw [urlDecodeLoop_end (Nat.not_lt.1 hi), List.drop_eq_nil_of_le (Nat.not_lt.1 hi), decodeWith, List.append_nil]

theorem urlDecode_eq_decodeWith (value : Bytes) : urlDecode value = decodeWith scanEscape value := by
  rw [urlDecode, urlDecodeLoop_eq_decodeWith (Nat.le_add_left _ _), List.nil_append, List.drop_zero]

/-- Quoted names are decoded, also by a decoder that takes more than digits. -/
theorem urlDecode_quotePlus (s : Bytes) : urlDecode (quotePlus s) = s := by
  rw [urlDecode_eq_decodeWith]
  exact decodeWith_quotePlus (fun _ _ _ => scanEscape_of_escapeValue) s

/-- Every percent sign with two characters behind it is followed by two hexadecimal digits, or by nothing that
`sscanf` would look at: a NUL, or white space and then white space or a NUL. -/
def EscapesComplete (value : Bytes) : Prop :=
  ∀ a b rest, 37 :: a :: b :: rest <:+ value →
    (isHexDigit a ∧ isHexDigit b) ∨ a = 0 ∨ isSpace a ∧ (b = 0 ∨ isSpace b)

theorem scanEscape_eq_escapeValue_iff (a b : UInt8) :
    scanEscape a b = escapeValue a b ↔
      (isHexDigit a ∧ isHexDigit b) ∨ a = 0 ∨ isSpace a ∧ (b = 0 ∨ isSpace b) := by
  rw [← scanEscape_eq_none_iff, ← Bool.and_eq_true, ← escapeValue_isSome]
  cases h : escapeValue a b with
  | none => simp
  | some c => simp [scanEscape_of_escapeValue h]

/-- `url_decode` decodes form-encoded names exactly as far as their percent signs begin escapes or nothing at all. -/
theorem urlDecode_eq_formDecode_iff (value : Bytes) : urlDecode value = formDecode value ↔ EscapesComplete value := by
  rw [urlDecode_eq_decodeWith, formDecode, decodeWith_eq_iff]
  · simp only [scanEscape_eq_escapeValue_iff, EscapesComplete]
  · intro a b
    cases h : escapeValue a b with
    | some c => exact Or.inl (scanEscape_of_escapeValue h)
    | none =>
      cases hc : scanEscape a b with
      | none => exact Or.inl rfl
      | some c => exact Or.inr ⟨rfl, c, scanEscape_ne_percent h hc, rfl⟩
  · intro a b c h
    have hboth := escapeValue_isSome a b
    rw [h, Option.isSome_some, eq_comm, Bool.and_eq_true] at hboth
    exact ⟨ne_of_isHexDigit hboth.1 (d := 37) rfl, ne_of_isHexDigit hboth.2 (d := 37) rfl⟩

/-- Two letters that are no digits are taken for a NUL. -/
theorem urlDecode_drops_letters :
    urlDecode (ascii "%zz") = [0] ∧ urlDecode (ascii "%zz") ≠ formDecode (ascii "%zz") := by
  decide

/-! ### Where the name is read -/

/-- The indices at which the rounds of the loop begin. -/
def urlDecodeRounds (value : Bytes) : Nat → Nat → List Nat
  | 0, _ => []
  | fuel + 1, i => if i < value.length then i :: urlDecodeRounds value fuel (urlDecodeRound value i).2 else []

/-- The indices read for the buffer of `sscanf`. -/
def bufferReads (value : Bytes) (i : Nat) : List Nat :=
  if charAt value i = 37 ∧ i < sizeSub value.length 2 then [i + 1, i + 2] else []

/-- The indices that one round reads, in order: for the two comparisons, for the buffer, and for the copy. -/
def roundReads (value : Bytes) (i : Nat) : List Nat :=
  if charAt value i = 43 then [i]
  else i :: i :: bufferReads value i ++ if (urlDecodeRound value i).2 = i + 1 then [i] else []

def urlDecodeReads (value : Bytes) : List Nat :=
  (urlDecodeRounds value value.length 0).flatMap (roundReads value)

/-- The rounds are those of `url_decode`: each appends its character. -/
theorem urlDecodeLoop_eq_rounds (value : Bytes) (fuel i : Nat) (result : Bytes) :
    urlDecodeLoop value fuel i result =
      result ++ (urlDecodeRounds value fuel i).map fun i => (urlDecodeRound value i).1 := by
  induction fuel generalizing i result with
  | zero => rw [urlDecodeLoop, urlDecodeRounds, List.map_nil, List.append_nil]
  | succ fuel ih =>
    rw [urlDecodeLoop, urlDecodeRounds]
    split
    · rw [ih, List.map_cons, List.append_assoc, List.singleton_append]
    · rw [List.map_nil, List.append_nil]

theorem urlDecode_eq_rounds (value : Bytes) :
    urlDecode value = (urlDecodeRounds value value.length 0).map fun i => (urlDecodeRound value i).1 := by
  rw [urlDecode, urlDecodeLoop_eq_rounds, List.nil_append]

theorem lt_of_mem_rounds {value : Bytes} {fuel i j : Nat} (h : j ∈ urlDecodeRounds value fuel i) :
    j < value.length := by
  induction fuel generalizing i with
  | zero => simp [urlDecodeRounds] at h
  | succ fuel ih =>
    rw [urlDecodeRounds] at h
    split at h
    · rename_i hi
      rcases List.mem_cons.1 h with rfl | h
      · exact hi
      · exact ih h
    · simp at h

/-- The name is read up to its terminator, and behind a percent sign only where two more characters are. -/
structure InBounds (value : Bytes) : Prop where
  reads : ∀ j ∈ urlDecodeReads value, j ≤ value.length
  buffer : ∀ i ∈ urlDecodeRounds value value.length 0, ∀ j ∈ bufferReads value i, i + 2 < value.length ∧ j ≤ i + 2

/-- The bound has wrapped around for one name only. -/
theorem mem_bufferReads {value : Bytes} (hne : value ≠ ascii "%") {i j : Nat} (hi : i < value.length)
    (h : j ∈ bufferReads value i) : i + 2 < value.length ∧ j ≤ i + 2 := by
  unfold bufferReads at h
  split at h
  · rename_i hpercent
    have hlen : 2 ≤ value.length := by
      by_contra hshort
      -- the name is a single character, the percent sign
      obtain ⟨c, rfl⟩ := List.length_eq_one_iff.1 (show value.length = 1 by omega)
      obtain rfl : i = 0 := Nat.lt_one_iff.1 hi
      have hc : c = 37 := hpercent.1
      rw [hc] at hne
      exact hne rfl
    have hin := (lt_sizeSub_iff hlen).1 hpercent.2
    refine ⟨hin, ?_⟩
    simp only [List.mem_cons, List.not_mem_nil, or_false] at h
    omega
  · simp at h

/-- A round reads the character that it is at, and the buffer. -/
theorem mem_roundReads {value : Bytes} {i j : Nat} (h : j ∈ roundReads value i) : j = i ∨ j ∈ bufferReads value i := by
  unfold roundReads at h
  split at h
  · exact Or.inl (List.mem_singleton.1 h)
  · rcases List.mem_append.1 h with h | h
    · simp only [List.mem_cons] at h
      tauto
    · split at h
      · exact Or.inl (List.mem_singleton.1 h)
      · simp at h

/-- The reads stay in bounds for every name but the one that is a percent sign alone. -/
theorem urlDecode_inBounds_iff (value : Bytes) : InBounds value ↔ value ≠ ascii "%" := by
  constructor
  · rintro h rfl
    exact absurd (h.reads 2 (by decide)) (by decide)
  · intro hne
    refine ⟨fun j hj => ?_, fun i hi j hj => mem_bufferReads hne (lt_of_mem_rounds hi) hj⟩
    obtain ⟨i, hi, hj⟩ := List.mem_flatMap.1 hj
    have hlt := lt_of_mem_rounds hi
    rcases mem_roundReads hj with rfl | hbuffer
    · exact hlt.le
    · have hin := mem_bufferReads hne hlt hbuffer
      omega

/-- The terminator of the name is at 1, and the byte behind it is read. -/
theorem urlDecode_reads_behind_terminator : urlDecodeReads (ascii "%") = [0, 0, 1, 2, 0] ∧ ¬ InBounds (ascii "%") := by
  refine ⟨by decide, fun h => ?_⟩
  exact absurd (h.reads 2 (by decide)) (by decide)

end HttpServerHelpers

end KeyValueServer
