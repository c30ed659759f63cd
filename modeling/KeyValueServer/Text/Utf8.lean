import Mathlib.Data.List.Basic
import Mathlib.Data.UInt

/-!
# Well-formed UTF-8

A byte string is well-formed UTF-8 when it is the encoding of a list of characters (`IsUtf8`).  A byte below `0x80`
stands for itself and is part of no other character, so a text can be cut at such bytes: it is well-formed exactly when
the pieces are (`isUtf8_append_cons`).  Hence replacing such bytes by ASCII sequences, as an escape does, changes
nothing (`IsEscape.isUtf8_flatMap`).
-/

namespace Text

/-- The encoding of a list of characters. -/
def IsUtf8 (b : List UInt8) : Prop := ∃ cs : List Char, b = cs.flatMap String.utf8EncodeChar

theorem isUtf8_iff_isValidUTF8 {b : List UInt8} : IsUtf8 b ↔ b.toByteArray.IsValidUTF8 := by
  constructor
  · rintro ⟨cs, rfl⟩
    exact ⟨cs, rfl⟩
  · rintro ⟨cs, h⟩
    refine ⟨cs, ?_⟩
    have hdata := congrArg (fun a : ByteArray => a.data.toList) h
    simpa [List.utf8Encode] using hdata

instance (b : List UInt8) : Decidable (IsUtf8 b) := decidable_of_iff _ isUtf8_iff_isValidUTF8.symm

theorem isUtf8_nil : IsUtf8 [] := ⟨[], rfl⟩

theorem IsUtf8.append {a b : List UInt8} (ha : IsUtf8 a) (hb : IsUtf8 b) : IsUtf8 (a ++ b) := by
  obtain ⟨cs, rfl⟩ := ha
  obtain ⟨ds, rfl⟩ := hb
  exact ⟨cs ++ ds, List.flatMap_append.symm⟩

theorem isUtf8_encodeChar (c : Char) : IsUtf8 (String.utf8EncodeChar c) := ⟨[c], by simp⟩

/-! ### Bytes below `0x80` -/

theorem not_ascii_ofNat {n : Nat} (hlow : 128 ≤ n) (hhigh : n < 256) : ¬ UInt8.ofNat n < 128 := by
  rw [UInt8.lt_iff_toNat_lt, UInt8.toNat_ofNat_of_lt' hhigh]
  exact Nat.not_lt.2 hlow

/-- A byte below `0x80` is a character by itself. -/
theorem encodeChar_of_ascii {c : Char} {b : UInt8} (hb : b ∈ String.utf8EncodeChar c) (h : b < 128) :
    String.utf8EncodeChar c = [b] := by
  by_cases hv : c.val.toNat ≤ 0x7f
  · have henc : String.utf8EncodeChar c = [UInt8.ofNat c.val.toNat] := by
      rw [String.utf8EncodeChar, if_pos hv]
    rw [henc] at hb ⊢
    rw [List.mem_singleton.1 hb]
  · -- the bytes of a longer encoding are all high
    exfalso
    rw [String.utf8EncodeChar, if_neg hv] at hb
    have hhigh : ∀ n, b = UInt8.ofNat n → 128 ≤ n → n < 256 → False := by
      rintro n rfl hlow hlt
      exact not_ascii_ofNat hlow hlt h
    split at hb
    · simp only [List.mem_cons, List.not_mem_nil, or_false] at hb
      rcases hb with hb | hb <;> exact hhigh _ hb (by omega) (by omega)
    split at hb
    · simp only [List.mem_cons, List.not_mem_nil, or_false] at hb
      rcases hb with hb | hb | hb <;> exact hhigh _ hb (by omega) (by omega)
    · simp only [List.mem_cons, List.not_mem_nil, or_false] at hb
      rcases hb with hb | hb | hb | hb <;> exact hhigh _ hb (by omega) (by omega)

theorem isUtf8_ascii {b : UInt8} (h : b < 128) : IsUtf8 [b] := by
  have hlt : b.toNat < 128 := UInt8.lt_iff_toNat_lt.1 h
  have hval : (Char.ofNat b.toNat).val.toNat = b.toNat := by
    rw [Char.ofNat, dif_pos (Or.inl (by omega))]
    rfl
  refine ⟨[Char.ofNat b.toNat], ?_⟩
  rw [List.flatMap_singleton, String.utf8EncodeChar, hval, if_pos (by omega), UInt8.ofNat_toNat]

/-- A text is cut at a byte below `0x80`. -/
theorem isUtf8_cut {a b : List UInt8} {c : UInt8} (hc : c < 128) (h : IsUtf8 (a ++ c :: b)) : IsUtf8 a ∧ IsUtf8 b := by
  obtain ⟨cs, h⟩ := h
  induction cs generalizing a with
  | nil => simp at h
  | cons char cs ih =>
    rw [List.flatMap_cons] at h
    rcases List.append_eq_append_iff.1 h with ⟨t, henc, hrest⟩ | ⟨t, ha, hrest⟩
    · cases t with
      | nil =>
        -- the byte begins the next character
        rw [List.append_nil] at henc
        obtain ⟨-, hb⟩ := ih (a := []) hrest
        exact ⟨henc ▸ isUtf8_encodeChar char, hb⟩
      | cons x t =>
        -- the byte is in the first character, so it is all of it
        obtain ⟨rfl, hb⟩ := List.cons_eq_cons.1 hrest
        have hone := encodeChar_of_ascii (c := char) (b := c) (by rw [henc]; simp) hc
        rw [henc] at hone
        have hlen := congrArg List.length hone
        rw [List.length_append, List.length_cons, List.length_singleton] at hlen
        obtain rfl : a = [] := List.length_eq_zero_iff.1 (by omega)
        obtain rfl : t = [] := List.length_eq_zero_iff.1 (by omega)
        exact ⟨isUtf8_nil, cs, hb⟩
    · obtain ⟨ht, hb⟩ := ih hrest.symm
      exact ⟨ha ▸ (isUtf8_encodeChar char).append ht, hb⟩

theorem isUtf8_append_cons {a b : List UInt8} {c : UInt8} (hc : c < 128) :
    IsUtf8 (a ++ c :: b) ↔ IsUtf8 a ∧ IsUtf8 b := by
  constructor
  · exact isUtf8_cut hc
  · rintro ⟨ha, hb⟩
    exact ha.append ((isUtf8_ascii hc).append hb)

theorem isUtf8_cons {b : List UInt8} {c : UInt8} (hc : c < 128) : IsUtf8 (c :: b) ↔ IsUtf8 b := by
  have h := isUtf8_append_cons (a := []) (b := b) hc
  rw [List.nil_append] at h
  exact h.trans ⟨fun h => h.2, fun h => ⟨isUtf8_nil, h⟩⟩

theorem isUtf8_append_ascii {a l : List UInt8} (hl : ∀ c ∈ l, c < 128) (b : List UInt8) (hne : l ≠ []) :
    IsUtf8 (a ++ (l ++ b)) ↔ IsUtf8 a ∧ IsUtf8 b := by
  induction l generalizing a with
  | nil => exact absurd rfl hne
  | cons c l ih =>
    obtain ⟨hc, hl⟩ := List.forall_mem_cons.1 hl
    rw [List.cons_append, isUtf8_append_cons hc]
    cases l with
    | nil => rw [List.nil_append]
    | cons d l =>
      have hrest := ih (a := []) hl (List.cons_ne_nil d l)
      rw [List.nil_append] at hrest
      rw [hrest]
      exact ⟨fun h => ⟨h.1, h.2.2⟩, fun h => ⟨h.1, isUtf8_nil, h.2⟩⟩

theorem isUtf8_of_ascii {l : List UInt8} (hl : ∀ c ∈ l, c < 128) : IsUtf8 l := by
  induction l with
  | nil => exact isUtf8_nil
  | cons c l ih =>
    obtain ⟨hc, hl⟩ := List.forall_mem_cons.1 hl
    exact (isUtf8_cons hc).2 (ih hl)

/-- A text ends at its first byte below `0x80`, or has none. -/
theorem exists_first_ascii (s : List UInt8) :
    (∀ c ∈ s, ¬ c < 128) ∨ ∃ a c b, s = a ++ c :: b ∧ (∀ d ∈ a, ¬ d < 128) ∧ c < 128 := by
  induction s with
  | nil => exact Or.inl (List.forall_mem_nil _)
  | cons x s ih =>
    by_cases hx : x < 128
    · exact Or.inr ⟨[], x, s, rfl, List.forall_mem_nil _, hx⟩
    · rcases ih with hall | ⟨a, c, b, rfl, ha, hc⟩
      · exact Or.inl (List.forall_mem_cons.2 ⟨hx, hall⟩)
      · exact Or.inr ⟨x :: a, c, b, rfl, List.forall_mem_cons.2 ⟨hx, ha⟩, hc⟩

/-- An escape shows each byte below `0x80` as some such bytes, and leaves every other byte as it is. -/
structure IsEscape (escape : UInt8 → List UInt8) : Prop where
  ne_nil : ∀ c < 128, escape c ≠ []
  ascii : ∀ c < 128, ∀ d ∈ escape c, d < 128
  high : ∀ c, ¬ c < 128 → escape c = [c]

theorem IsEscape.flatMap_high {escape : UInt8 → List UInt8} (h : IsEscape escape) {s : List UInt8}
    (hs : ∀ c ∈ s, ¬ c < 128) : s.flatMap escape = s := by
  rw [List.flatMap_congr fun c hc => h.high c (hs c hc), List.flatMap_singleton']

theorem IsEscape.isUtf8_flatMap {escape : UInt8 → List UInt8} (h : IsEscape escape) (s : List UInt8) :
    IsUtf8 (s.flatMap escape) ↔ IsUtf8 s := by
  induction hn : s.length using Nat.strongRecOn generalizing s with
  | ind n ih =>
    rcases exists_first_ascii s with hs | ⟨a, c, b, rfl, ha, hc⟩
    · rw [h.flatMap_high hs]
    · have hrest := ih b.length (by rw [← hn, List.length_append, List.length_cons]; omega) b rfl
      rw [List.flatMap_append, List.flatMap_cons, h.flatMap_high ha,
        isUtf8_append_ascii (h.ascii c hc) _ (h.ne_nil c hc), isUtf8_append_cons hc, hrest]

end Text
