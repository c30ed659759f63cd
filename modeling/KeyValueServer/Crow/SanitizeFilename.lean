import KeyValueServer.RapidJson
import KeyValueServer.Text.FormEncoding
import Mathlib.Data.List.TakeWhile

/-!
# Names of static files

`sanitize_filename` turns the rest of a URL into the name of a file below the directory of static files.  It shortens
the name, replaces characters, and replaces what the systems take for a device or for the directory above.  What it
gives is safe (`SafeName`), and it changes no safe name, so it changes nothing when it is applied again
(`sanitizeFilename_spec`).  A path that continues with a safe name stays in its directory (`resolve_safeName`).
-/

namespace KeyValueServer

namespace Crow

/-! ### The function -/

def toUpper (c : UInt8) : UInt8 := if 97 ≤ c ∧ c ≤ 122 then c - 32 else c

def isSeparator (c : UInt8) : Bool := c = 47 || c = 92

/-- The characters that are replaced wherever they stand. -/
def isForbidden (c : UInt8) : Bool :=
  c < 32 || (128 ≤ c && c ≤ 159) || c = 63 || c = 60 || c = 62 || c = 58 || c = 42 || c = 124 || c = 34

/-- Whether `sanitizeSpecialFile` finds the pattern, with what may follow it. -/
def isSpecialFile (source pattern : Bytes) (includeNumber : Bool) : Bool :=
  let i := pattern.length + if includeNumber then 1 else 0
  pattern.isPrefixOf (source.map toUpper) &&
    (!includeNumber || (source[pattern.length]?.any fun c => 49 ≤ c && c ≤ 57)) &&
    (source[i]?.all fun c => c = 46 || c = 58 || isSeparator c)

/-- `sanitizeSpecialFile`, on the string from `ofs` on. -/
def sanitizeSpecialFile (source pattern : Bytes) (includeNumber : Bool) : Bytes :=
  if isSpecialFile source pattern includeNumber then
    95 :: source.drop (pattern.length + if includeNumber then 1 else 0)
  else source

/-- The switch at the beginning of an entry. -/
def sanitizeEntry (data : Bytes) : Bytes :=
  match data.head?.map toUpper with
  | some 65 => sanitizeSpecialFile data (ascii "AUX") false
  | some 67 => sanitizeSpecialFile (sanitizeSpecialFile data (ascii "CON") false) (ascii "COM") true
  | some 76 => sanitizeSpecialFile data (ascii "LPT") true
  | some 78 => sanitizeSpecialFile data (ascii "NUL") false
  | some 80 => sanitizeSpecialFile data (ascii "PRN") false
  | some 46 => sanitizeSpecialFile data (ascii "..") false
  | _ => data

/-- The loop, on the string from `i` on.  The fuel bounds the rounds. -/
def sanitizeFrom : Nat → Bool → Bool → Bytes → Bytes
  | 0, _, _, data => data
  | fuel + 1, first, checkForSpecialEntries, data =>
    match if checkForSpecialEntries then sanitizeEntry data else data with
    | [] => []
    | c :: rest =>
      if isForbidden c then 95 :: sanitizeFrom fuel false false rest
      else if isSeparator c then
        if first then 95 :: sanitizeFrom fuel false false rest else c :: sanitizeFrom fuel false true rest
      else c :: sanitizeFrom fuel false false rest

def sanitizeFilename (data : Bytes) : Bytes := sanitizeFrom 255 true true (data.take 255)

/-! ### Reserved entries -/

def digits : List UInt8 := [49, 50, 51, 52, 53, 54, 55, 56, 57]

def deviceNames : List Bytes :=
  [ascii "AUX", ascii "CON", ascii "NUL", ascii "PRN"] ++ digits.map (ascii "COM" ++ [·]) ++
    digits.map (ascii "LPT" ++ [·])

/-- What may follow a reserved name in an entry. -/
def isStop (c : UInt8) : Bool := c = 46 || c = 58

/-- The name of a device, perhaps with an extension, or the directory above. -/
def isReserved (entry : Bytes) : Bool :=
  deviceNames.contains ((entry.takeWhile (!isStop ·)).map toUpper) ||
    ((ascii "..").isPrefixOf entry && entry[2]?.all isStop)

/-- Everything that the switch looks for. -/
def isSpecial (data : Bytes) : Bool :=
  (isSpecialFile data (ascii "AUX") false || isSpecialFile data (ascii "CON") false ||
    isSpecialFile data (ascii "NUL") false || isSpecialFile data (ascii "PRN") false ||
    isSpecialFile data (ascii "COM") true || isSpecialFile data (ascii "LPT") true) ||
    isSpecialFile data (ascii "..") false

/-- What ends a base name. -/
def isEnd (c : UInt8) : Bool := c = 46 || c = 58 || isSeparator c

theorem toUpper_of_isEnd {c : UInt8} (h : isEnd c = true) : toUpper c = c :=
  Text.forall_byte (P := fun c => isEnd c = true → toUpper c = c) (by decide +kernel) c h

theorem mem_digits_iff (c : UInt8) : c ∈ digits ↔ (decide (49 ≤ c) && decide (c ≤ 57)) = true :=
  Text.forall_byte (P := fun c => c ∈ digits ↔ (decide (49 ≤ c) && decide (c ≤ 57)) = true) (by decide +kernel) c

theorem getElem?_append_length (text rest : Bytes) : (text ++ rest)[text.length]? = rest.head? := by
  rw [List.getElem?_append_right (Nat.le_refl _), Nat.sub_self, List.head?_eq_getElem?]

/-- A pattern, a digit perhaps, and then the end or a character that ends a base name. -/
theorem isSpecialFile_iff (source pattern : Bytes) (includeNumber : Bool) :
    isSpecialFile source pattern includeNumber = true ↔
      ∃ text number after, source = text ++ (number ++ after) ∧ text.map toUpper = pattern ∧
        (if includeNumber then ∃ d ∈ digits, number = [d] else number = []) ∧ after.head?.all isEnd = true := by
  have hends : (fun c => decide (c = 46) || decide (c = 58) || isSeparator c) = isEnd := rfl
  have hdigits : (fun c : UInt8 => decide (49 ≤ c) && decide (c ≤ 57)) = fun c => decide (c ∈ digits) := by
    funext c
    rw [Bool.eq_iff_iff, ← mem_digits_iff, decide_eq_true_eq]
  rw [isSpecialFile, hends, hdigits, Bool.and_eq_true, Bool.and_eq_true, List.isPrefixOf_iff_prefix]
  constructor
  · rintro ⟨⟨⟨behind, hprefix⟩, hnumber⟩, hafter⟩
    obtain ⟨text, rest, rfl, rfl, -⟩ := List.map_eq_append_iff.1 hprefix.symm
    rw [List.length_map, getElem?_append_length] at hnumber
    rw [List.length_map] at hafter
    cases includeNumber with
    | false =>
      rw [if_neg Bool.false_ne_true, Nat.add_zero, getElem?_append_length] at hafter
      exact ⟨text, [], rest, rfl, rfl, rfl, hafter⟩
    | true =>
      cases rest with
      | nil => cases hnumber
      | cons d rest =>
        have hd : d ∈ digits := by simpa using hnumber
        have hsplit : text ++ d :: rest = (text ++ [d]) ++ rest := by simp
        have hlength : text.length + 1 = (text ++ [d]).length := by simp
        rw [if_pos rfl, hsplit, hlength, getElem?_append_length] at hafter
        exact ⟨text, [d], rest, rfl, rfl, ⟨d, hd, rfl⟩, hafter⟩
  · rintro ⟨text, number, after, rfl, rfl, hnumber, hafter⟩
    rw [List.length_map, getElem?_append_length]
    refine ⟨⟨⟨(number ++ after).map toUpper, List.map_append.symm⟩, ?_⟩, ?_⟩
    · cases includeNumber with
      | false => rfl
      | true =>
        obtain ⟨d, hd, rfl⟩ := hnumber
        simpa using hd
    · cases includeNumber with
      | false =>
        obtain rfl : number = [] := hnumber
        rw [if_neg Bool.false_ne_true, Nat.add_zero, getElem?_append_length]
        exact hafter
      | true =>
        obtain ⟨d, -, rfl⟩ := hnumber
        have hsplit : text ++ ([d] ++ after) = (text ++ [d]) ++ after := by simp
        have hlength : text.length + 1 = (text ++ [d]).length := by simp
        rw [if_pos rfl, hsplit, hlength, getElem?_append_length]
        exact hafter

/-- The base name of a text that does not end with a stop at once. -/
theorem takeWhile_base {base after : Bytes} (hbase : ∀ c ∈ base, isEnd c = false)
    (hafter : after.head?.all isEnd = true) : (base ++ after).takeWhile (!isEnd ·) = base := by
  rw [List.takeWhile_append_of_pos fun c hc => by rw [hbase c hc]; rfl]
  cases after with
  | nil => simp
  | cons c after =>
    have hc : isEnd c = true := hafter
    simp [hc]

theorem head?_dropWhile (p : UInt8 → Bool) (source : Bytes) : (source.dropWhile (!p ·)).head?.all p = true := by
  induction source with
  | nil => rfl
  | cons c source ih =>
    rw [List.dropWhile_cons]
    by_cases hc : p c = true
    · rw [if_neg (by simp [hc])]
      exact hc
    · rw [if_pos (by simp [hc])]
      exact ih

theorem digit_of_toUpper {c : UInt8} (h : toUpper c ∈ digits) : toUpper c = c :=
  Text.forall_byte (P := fun c => toUpper c ∈ digits → toUpper c = c) (by decide +kernel) c h

theorem digit_fields {d : UInt8} (h : d ∈ digits) : isEnd d = false ∧ toUpper d = d ∧ 95 ≠ d := by
  have hall : (digits.all fun d => !isEnd d && (toUpper d = d && 95 ≠ d)) = true := by decide
  simpa using List.all_eq_true.1 hall d h

theorem dots_fields : ∀ c ∈ ascii "..", (!isSeparator c) = true :=
  List.all_eq_true.1 (by decide)

/-- Patterns without ends of base names are compared with the base name. -/
theorem isSpecialFile_iff_base {pattern : Bytes} (hpattern : ∀ c ∈ pattern, isEnd c = false) (source : Bytes)
    (includeNumber : Bool) :
    isSpecialFile source pattern includeNumber = true ↔
      if includeNumber then ∃ d ∈ digits, (source.takeWhile (!isEnd ·)).map toUpper = pattern ++ [d]
      else (source.takeWhile (!isEnd ·)).map toUpper = pattern := by
  rw [isSpecialFile_iff]
  constructor
  · rintro ⟨text, number, after, rfl, rfl, hnumber, hafter⟩
    have htext : ∀ c ∈ text, isEnd c = false := by
      intro c hc
      by_contra hend
      have hend := (Bool.not_eq_false _).mp hend
      have hupper := hpattern _ (List.mem_map_of_mem hc)
      rw [toUpper_of_isEnd hend, hend] at hupper
      cases hupper
    cases includeNumber with
    | false =>
      obtain rfl : number = [] := hnumber
      rw [if_neg Bool.false_ne_true]
      exact congrArg _ (takeWhile_base htext hafter)
    | true =>
      obtain ⟨d, hd, rfl⟩ := hnumber
      have hbase : ∀ c ∈ text ++ [d], isEnd c = false :=
        List.forall_mem_append.2 ⟨htext, List.forall_mem_singleton.2 (digit_fields hd).1⟩
      rw [if_pos rfl]
      refine ⟨d, hd, ?_⟩
      rw [← List.append_assoc, takeWhile_base hbase hafter, List.map_append, List.map_singleton, (digit_fields hd).2.1]
  · intro h
    have hsource := List.takeWhile_append_dropWhile (p := (!isEnd ·)) (l := source)
    cases includeNumber with
    | false =>
      rw [if_neg Bool.false_ne_true] at h
      exact ⟨_, [], _, hsource.symm, h, rfl, head?_dropWhile isEnd source⟩
    | true =>
      rw [if_pos rfl] at h
      obtain ⟨d, hd, hmap⟩ := h
      obtain ⟨text, last, hbase, htext, hlast⟩ := List.map_eq_append_iff.1 hmap
      obtain ⟨c, rfl, rfl⟩ := List.map_eq_singleton_iff.1 hlast
      rw [hbase, List.append_assoc] at hsource
      exact ⟨text, [c], _, hsource.symm, htext, ⟨c, digit_of_toUpper hd ▸ hd, rfl⟩, head?_dropWhile isEnd source⟩

/-- The directory above is looked for as it is. -/
theorem isSpecialFile_dots_iff (source : Bytes) :
    isSpecialFile source (ascii "..") false = true ↔
      ∃ after, source = ascii ".." ++ after ∧ after.head?.all isEnd = true := by
  have hdot : ∀ {c : UInt8}, toUpper c = 46 → c = 46 := fun {c} =>
    Text.forall_byte (P := fun c => toUpper c = 46 → c = 46) (by decide +kernel) c
  rw [isSpecialFile_iff]
  constructor
  · rintro ⟨text, number, after, rfl, htext, hnumber, hafter⟩
    obtain rfl : number = [] := hnumber
    refine ⟨after, ?_, hafter⟩
    obtain ⟨a, text, rfl, ha, htext⟩ := List.map_eq_cons_iff.1 htext
    obtain ⟨b, text, rfl, hb, htext⟩ := List.map_eq_cons_iff.1 htext
    obtain rfl := List.map_eq_nil_iff.1 htext
    rw [hdot ha, hdot hb]
    rfl
  · rintro ⟨after, rfl, hafter⟩
    exact ⟨ascii "..", [], after, rfl, by decide, rfl, hafter⟩

theorem isEnd_eq (c : UInt8) : isEnd c = (isStop c || isSeparator c) := rfl

/-- The directory above is looked for in the entry. -/
theorem isSpecialFile_dots_entry (data : Bytes) :
    isSpecialFile data (ascii "..") false = true ↔
      ((ascii "..").isPrefixOf (data.takeWhile (!isSeparator ·)) &&
        (data.takeWhile (!isSeparator ·))[2]?.all isStop) = true := by
  rw [isSpecialFile_dots_iff, Bool.and_eq_true, List.isPrefixOf_iff_prefix]
  constructor
  · rintro ⟨after, rfl, hafter⟩
    have hentry : (ascii ".." ++ after).takeWhile (!isSeparator ·) = ascii ".." ++ after.takeWhile (!isSeparator ·) :=
      List.takeWhile_append_of_pos dots_fields
    rw [hentry]
    refine ⟨List.prefix_append .., ?_⟩
    cases after with
    | nil => rfl
    | cons c after =>
      have hc : isEnd c = true := hafter
      cases hseparator : isSeparator c with
      | true =>
        rw [List.takeWhile_cons_of_neg (by simp [hseparator])]
        rfl
      | false =>
        rw [isEnd_eq, hseparator, Bool.or_false] at hc
        rw [List.takeWhile_cons_of_pos (by simp [hseparator])]
        exact hc
  · rintro ⟨⟨rest, hrest⟩, hstop⟩
    have hdata := List.takeWhile_append_dropWhile (p := (!isSeparator ·)) (l := data)
    have hbehind := head?_dropWhile isSeparator data
    rw [← hrest] at hstop hdata
    generalize data.dropWhile (!isSeparator ·) = behind at hdata hbehind
    refine ⟨rest ++ behind, by rw [← List.append_assoc, hdata], ?_⟩
    cases rest with
    | nil =>
      cases behind with
      | nil => rfl
      | cons c behind =>
        have hc : isSeparator c = true := hbehind
        show isEnd c = true
        rw [isEnd_eq, hc, Bool.or_true]
    | cons c rest =>
      have hc : isStop c = true := hstop
      show isEnd c = true
      rw [isEnd_eq, hc, Bool.true_or]

theorem mem_deviceNames_iff (name : Bytes) :
    name ∈ deviceNames ↔
      name = ascii "AUX" ∨ name = ascii "CON" ∨ name = ascii "NUL" ∨ name = ascii "PRN" ∨
        (∃ d ∈ digits, name = ascii "COM" ++ [d]) ∨ ∃ d ∈ digits, name = ascii "LPT" ++ [d] := by
  simp only [deviceNames, List.mem_append, List.mem_cons, List.mem_map, List.not_mem_nil, or_false, eq_comm, or_assoc]

/-- The switch looks at the entry at which it stands: what it replaces are the reserved ones. -/
theorem isSpecial_eq (data : Bytes) : isSpecial data = isReserved (data.takeWhile (!isSeparator ·)) := by
  have hbase : (data.takeWhile (!isSeparator ·)).takeWhile (!isStop ·) = data.takeWhile (!isEnd ·) := by
    rw [List.takeWhile_takeWhile]
    congr 1
    funext c
    cases hstop : isStop c <;> cases hseparator : isSeparator c <;> simp [isEnd_eq, hstop, hseparator]
  have hplain : ∀ pattern : Bytes, (pattern.all fun c => !isEnd c) = true → ∀ c ∈ pattern, isEnd c = false :=
    fun pattern h c hc => by simpa using List.all_eq_true.1 h c hc
  have haux := hplain (ascii "AUX") (by decide)
  have hcon := hplain (ascii "CON") (by decide)
  have hcom := hplain (ascii "COM") (by decide)
  have hlpt := hplain (ascii "LPT") (by decide)
  have hnul := hplain (ascii "NUL") (by decide)
  have hprn := hplain (ascii "PRN") (by decide)
  rw [Bool.eq_iff_iff, isSpecial, isReserved, hbase]
  simp only [Bool.or_eq_true, isSpecialFile_dots_entry, isSpecialFile_iff_base haux, isSpecialFile_iff_base hcon,
    isSpecialFile_iff_base hcom, isSpecialFile_iff_base hlpt, isSpecialFile_iff_base hnul, isSpecialFile_iff_base hprn,
    List.contains_iff_mem, mem_deviceNames_iff, Bool.false_eq_true, if_false, if_true, or_assoc]

/-! ### One entry -/

theorem head_of_isSpecialFile {data pattern : Bytes} {includeNumber : Bool} (hpattern : pattern ≠ [])
    (h : isSpecialFile data pattern includeNumber = true) : data.head?.map toUpper = pattern.head? := by
  obtain ⟨text, number, after, rfl, rfl, -⟩ := (isSpecialFile_iff ..).1 h
  cases text with
  | nil => exact absurd rfl hpattern
  | cons c text => rfl

theorem sanitizeSpecialFile_of_not {data pattern : Bytes} {includeNumber : Bool}
    (h : isSpecialFile data pattern includeNumber = false) : sanitizeSpecialFile data pattern includeNumber = data := by
  rw [sanitizeSpecialFile, h, if_neg Bool.false_ne_true]

theorem sanitizeEntry_of_not {data : Bytes} (h : isSpecial data = false) : sanitizeEntry data = data := by
  simp only [isSpecial, Bool.or_eq_false_iff] at h
  obtain ⟨⟨⟨⟨⟨⟨haux, hcon⟩, hnul⟩, hprn⟩, hcom⟩, hlpt⟩, hdots⟩ := h
  rw [sanitizeEntry]
  split
  · exact sanitizeSpecialFile_of_not haux
  · rw [sanitizeSpecialFile_of_not hcon]
    exact sanitizeSpecialFile_of_not hcom
  · exact sanitizeSpecialFile_of_not hlpt
  · exact sanitizeSpecialFile_of_not hnul
  · exact sanitizeSpecialFile_of_not hprn
  · exact sanitizeSpecialFile_of_not hdots
  · rfl

/-- A name is replaced by one character. -/
theorem sanitizeSpecialFile_of_special {data pattern : Bytes} {includeNumber : Bool} (hpattern : pattern ≠ [])
    (h : isSpecialFile data pattern includeNumber = true) :
    ∃ after, sanitizeSpecialFile data pattern includeNumber = 95 :: after ∧ after.length < data.length := by
  have hpos := List.length_pos_iff.2 hpattern
  have hne : data ≠ [] := by
    rintro rfl
    have hhead := head_of_isSpecialFile hpattern h
    obtain ⟨c, rest, rfl⟩ := List.exists_cons_of_ne_nil hpattern
    cases hhead
  have hdata := List.length_pos_iff.2 hne
  rw [sanitizeSpecialFile, if_pos h]
  refine ⟨_, rfl, ?_⟩
  rw [List.length_drop]
  split <;> omega

/-- The two names with one initial: when the first is replaced, there is no second. -/
theorem sanitizeSpecialFile_twice {data : Bytes}
    (h : isSpecialFile data (ascii "CON") false = true ∨ isSpecialFile data (ascii "COM") true = true) :
    ∃ after, sanitizeSpecialFile (sanitizeSpecialFile data (ascii "CON") false) (ascii "COM") true = 95 :: after ∧
      after.length < data.length := by
  cases hcon : isSpecialFile data (ascii "CON") false with
  | false =>
    have hcom := h.resolve_left (by simp [hcon])
    rw [sanitizeSpecialFile_of_not hcon]
    exact sanitizeSpecialFile_of_special (by decide) hcom
  | true =>
    obtain ⟨after, hafter, hlength⟩ := sanitizeSpecialFile_of_special (by decide) hcon
    have hnot : isSpecialFile (95 :: after) (ascii "COM") true = false := by
      by_contra hcom
      have hhead := head_of_isSpecialFile (by decide) ((Bool.not_eq_false _).mp hcom)
      cases hhead
    rw [hafter, sanitizeSpecialFile_of_not hnot]
    exact ⟨after, rfl, hlength⟩

theorem sanitizeEntry_of_special {data : Bytes} (h : isSpecial data = true) :
    ∃ after, sanitizeEntry data = 95 :: after ∧ after.length < data.length := by
  simp only [isSpecial, Bool.or_eq_true] at h
  rcases h with (((((haux | hcon) | hnul) | hprn) | hcom) | hlpt) | hdots
  · rw [sanitizeEntry, head_of_isSpecialFile (by decide) haux]
    exact sanitizeSpecialFile_of_special (by decide) haux
  · rw [sanitizeEntry, head_of_isSpecialFile (by decide) hcon]
    exact sanitizeSpecialFile_twice (Or.inl hcon)
  · rw [sanitizeEntry, head_of_isSpecialFile (by decide) hnul]
    exact sanitizeSpecialFile_of_special (by decide) hnul
  · rw [sanitizeEntry, head_of_isSpecialFile (by decide) hprn]
    exact sanitizeSpecialFile_of_special (by decide) hprn
  · rw [sanitizeEntry, head_of_isSpecialFile (by decide) hcom]
    exact sanitizeSpecialFile_twice (Or.inr hcom)
  · rw [sanitizeEntry, head_of_isSpecialFile (by decide) hlpt]
    exact sanitizeSpecialFile_of_special (by decide) hlpt
  · rw [sanitizeEntry, head_of_isSpecialFile (by decide) hdots]
    exact sanitizeSpecialFile_of_special (by decide) hdots

/-! ### Names without anything to replace -/

/-- Nothing to replace from a place in the name on, at which an entry begins or not. -/
def Clean : Bool → Bytes → Prop
  | _, [] => True
  | begins, c :: rest =>
    (begins = true → isReserved ((c :: rest).takeWhile (!isSeparator ·)) = false) ∧ isForbidden c = false ∧
      Clean (isSeparator c) rest

/-- A name that the loop leaves as it is. -/
theorem sanitizeFrom_of_clean {fuel : Nat} {first begins : Bool} {data : Bytes} (h : Clean begins data)
    (hfirst : first = true → ∀ c ∈ data.head?, isSeparator c = false) :
    sanitizeFrom fuel first begins data = data := by
  induction fuel generalizing first begins data with
  | zero => rfl
  | succ fuel ih =>
    cases data with
    | nil =>
      have hentry : (if begins then sanitizeEntry [] else []) = [] := by
        cases begins <;> rfl
      rw [sanitizeFrom, hentry]
    | cons c rest =>
      obtain ⟨hspecial, hforbidden, hrest⟩ := h
      have hentry : (if begins then sanitizeEntry (c :: rest) else c :: rest) = c :: rest := by
        split
        · rename_i hbegins
          exact sanitizeEntry_of_not (by rw [isSpecial_eq, hspecial hbegins])
        · rfl
      have hkeep : sanitizeFrom fuel false (isSeparator c) rest = rest :=
        ih hrest fun h => absurd h Bool.false_ne_true
      rw [sanitizeFrom, hentry]
      dsimp only
      rw [hforbidden, if_neg Bool.false_ne_true]
      cases hseparator : isSeparator c with
      | true =>
        rw [hseparator] at hkeep
        cases first with
        | true => exact absurd (hfirst rfl c rfl) (by simp [hseparator])
        | false => rw [if_pos rfl, if_neg Bool.false_ne_true, hkeep]
      | false =>
        rw [hseparator] at hkeep
        rw [if_neg Bool.false_ne_true, hkeep]

/-- What the loop makes of a character that is no separator. -/
def replaceForbidden (c : UInt8) : UInt8 := if isForbidden c then 95 else c

theorem replaceForbidden_of_ne {c d : UInt8} (h : replaceForbidden c = d) (hd : d ≠ 95) :
    isForbidden c = false ∧ c = d := by
  rw [replaceForbidden] at h
  split at h
  · exact absurd h.symm hd
  · rename_i hforbidden
    exact ⟨Bool.eq_false_iff.2 hforbidden, h⟩

theorem isSeparator_of_isForbidden {c : UInt8} (h : isForbidden c = true) : isSeparator c = false :=
  Text.forall_byte (P := fun c => isForbidden c = true → isSeparator c = false) (by decide +kernel) c h

theorem takeWhile_sanitizeFrom {fuel : Nat} {data : Bytes} (hfuel : data.length ≤ fuel) :
    (sanitizeFrom fuel false false data).takeWhile (!isSeparator ·) =
      (data.takeWhile (!isSeparator ·)).map replaceForbidden := by
  induction fuel generalizing data with
  | zero =>
    obtain rfl := List.length_eq_zero_iff.1 (Nat.le_zero.1 hfuel)
    rfl
  | succ fuel ih =>
    cases data with
    | nil => rfl
    | cons c rest =>
      have hrest := ih (Nat.le_of_succ_le_succ hfuel)
      rw [sanitizeFrom, if_neg Bool.false_ne_true]
      dsimp only
      cases hforbidden : isForbidden c with
      | true =>
        have hseparator := isSeparator_of_isForbidden hforbidden
        have hreplace : replaceForbidden c = 95 := if_pos hforbidden
        have hunderscore : isSeparator 95 = false := by decide
        rw [if_pos rfl, List.takeWhile_cons_of_pos (by simp [hunderscore]), hrest,
          List.takeWhile_cons_of_pos (by simp [hseparator]), List.map_cons, hreplace]
      | false =>
        have hreplace : replaceForbidden c = c := if_neg (by simp [hforbidden])
        rw [if_neg Bool.false_ne_true]
        cases hseparator : isSeparator c with
        | true =>
          rw [if_pos rfl, if_neg Bool.false_ne_true, List.takeWhile_cons_of_neg (by simp [hseparator]),
            List.takeWhile_cons_of_neg (by simp [hseparator])]
          rfl
        | false =>
          rw [if_neg Bool.false_ne_true, List.takeWhile_cons_of_pos (by simp [hseparator]), hrest,
            List.takeWhile_cons_of_pos (by simp [hseparator]), List.map_cons, hreplace]

theorem isStop_fields {c : UInt8} (h : isStop c = true) : c ≠ 95 :=
  Text.forall_byte (P := fun c => isStop c = true → c ≠ 95) (by decide +kernel) c h

theorem toUpper_underscore {c : UInt8} (h : toUpper c ≠ 95) : c ≠ 95 := by
  rintro rfl
  exact h rfl

/-- No name of a device has the character that replaces others. -/
theorem not_mem_deviceNames {name : Bytes} (h : name ∈ deviceNames) : 95 ∉ name := by
  rw [mem_deviceNames_iff] at h
  rcases h with rfl | rfl | rfl | rfl | ⟨d, hd, rfl⟩ | ⟨d, hd, rfl⟩
  · decide
  · decide
  · decide
  · decide
  · simp only [List.mem_append, List.mem_singleton, not_or]
    exact ⟨by decide, (digit_fields hd).2.2⟩
  · simp only [List.mem_append, List.mem_singleton, not_or]
    exact ⟨by decide, (digit_fields hd).2.2⟩

theorem takeWhile_replaceForbidden {entry : Bytes}
    (h : ∀ c ∈ entry.takeWhile fun c => !isStop (replaceForbidden c), isForbidden c = false) :
    (entry.takeWhile fun c => !isStop (replaceForbidden c)) = entry.takeWhile (!isStop ·) := by
  induction entry with
  | nil => rfl
  | cons c rest ih =>
    cases hstop : isStop (replaceForbidden c) with
    | true =>
      have hsame := (replaceForbidden_of_ne rfl (isStop_fields hstop)).2
      have hc : isStop c = true := by
        rw [hsame]
        exact hstop
      rw [List.takeWhile_cons_of_neg (by simp [hstop]), List.takeWhile_cons_of_neg (by simp [hc])]
    | false =>
      rw [List.takeWhile_cons_of_pos (by simp [hstop])] at h ⊢
      have hforbidden := h c List.mem_cons_self
      have hc : isStop c = false := by
        rwa [replaceForbidden, hforbidden, if_neg Bool.false_ne_true] at hstop
      rw [ih fun d hd => h d (List.mem_cons_of_mem _ hd), List.takeWhile_cons_of_pos (by simp [hc])]

/-- Replacing characters makes no entry a reserved one. -/
theorem isReserved_of_map {entry : Bytes} (h : isReserved (entry.map replaceForbidden) = true) :
    isReserved entry = true := by
  rw [isReserved, Bool.or_eq_true] at h ⊢
  rcases h with hdevice | hdots
  · refine Or.inl ?_
    rw [List.contains_iff_mem, List.takeWhile_map, List.map_map] at hdevice
    have hfree : ∀ c ∈ entry.takeWhile fun c => !isStop (replaceForbidden c), isForbidden c = false := by
      intro c hc
      have hne : toUpper (replaceForbidden c) ≠ 95 := by
        intro he
        exact not_mem_deviceNames hdevice (List.mem_map.2 ⟨c, hc, he⟩)
      exact (replaceForbidden_of_ne rfl (toUpper_underscore hne)).1
    have hmap : (entry.takeWhile fun c => !isStop (replaceForbidden c)).map (toUpper ∘ replaceForbidden) =
        (entry.takeWhile (!isStop ·)).map toUpper := by
      rw [← takeWhile_replaceForbidden hfree]
      refine List.map_congr_left fun c hc => ?_
      rw [Function.comp_apply, replaceForbidden, hfree c hc, if_neg Bool.false_ne_true]
    rw [List.contains_iff_mem, ← hmap]
    exact hdevice
  · refine Or.inr ?_
    rw [Bool.and_eq_true, List.isPrefixOf_iff_prefix] at hdots
    obtain ⟨⟨rest, hrest⟩, hstop⟩ := hdots
    obtain ⟨a, tail, rfl, ha, htail⟩ := List.map_eq_cons_iff.1 hrest.symm
    obtain ⟨b, tail, rfl, hb, -⟩ := List.map_eq_cons_iff.1 htail
    obtain rfl := (replaceForbidden_of_ne ha (by decide)).2
    obtain rfl := (replaceForbidden_of_ne hb (by decide)).2
    cases tail with
    | nil => rfl
    | cons c tail =>
      have hc : isStop (replaceForbidden c) = true := hstop
      have hsame := (replaceForbidden_of_ne rfl (isStop_fields hc)).2
      rw [← hsame] at hc
      show (true && isStop c) = true
      rw [hc]
      rfl

theorem isReserved_underscore (entry : Bytes) : isReserved (95 :: entry) = false := by
  have hstop : isStop 95 = false := by decide
  have hdevice : 95 :: (entry.takeWhile (!isStop ·)).map toUpper ∉ deviceNames := fun h =>
    not_mem_deviceNames h List.mem_cons_self
  rw [isReserved, List.takeWhile_cons_of_pos (by simp [hstop]), List.map_cons]
  have hcontains : deviceNames.contains (toUpper 95 :: (entry.takeWhile (!isStop ·)).map toUpper) = false := by
    rw [Bool.eq_false_iff, Ne, List.contains_iff_mem]
    exact hdevice
  rw [hcontains]
  rfl

/-- The loop leaves nothing to replace, and no separator at the front. -/
theorem clean_sanitizeFrom {fuel : Nat} {first begins : Bool} {data : Bytes} (hfuel : data.length ≤ fuel) :
    Clean begins (sanitizeFrom fuel first begins data) ∧
      (first = true → ∀ c ∈ (sanitizeFrom fuel first begins data).head?, isSeparator c = false) := by
  have hunderscore : isForbidden 95 = false ∧ isSeparator 95 = false := by decide
  induction fuel generalizing first begins data with
  | zero =>
    obtain rfl := List.length_eq_zero_iff.1 (Nat.le_zero.1 hfuel)
    exact ⟨trivial, fun _ c hc => by cases hc⟩
  | succ fuel ih =>
    -- the string behind the switch
    obtain ⟨data', hdata', hlength, hentry⟩ : ∃ data', (if begins then sanitizeEntry data else data) = data' ∧
        data'.length ≤ fuel + 1 ∧ (begins = true → isReserved (data'.takeWhile (!isSeparator ·)) = false) := by
      cases begins with
      | false => exact ⟨data, rfl, hfuel, fun h => absurd h Bool.false_ne_true⟩
      | true =>
        rw [if_pos rfl]
        cases hspecial : isSpecial data with
        | false =>
          rw [sanitizeEntry_of_not hspecial]
          exact ⟨data, rfl, hfuel, fun _ => by rw [← isSpecial_eq, hspecial]⟩
        | true =>
          obtain ⟨after, hafter, hlt⟩ := sanitizeEntry_of_special hspecial
          refine ⟨_, hafter, Nat.le_trans hlt hfuel, fun _ => ?_⟩
          rw [List.takeWhile_cons_of_pos (by simp [hunderscore.2])]
          exact isReserved_underscore _
    rw [sanitizeFrom, hdata']
    cases data' with
    | nil => exact ⟨trivial, fun _ c hc => by cases hc⟩
    | cons c rest =>
      have hrest : rest.length ≤ fuel := Nat.le_of_succ_le_succ hlength
      have hplain : Clean false (sanitizeFrom fuel false false rest) := (ih hrest).1
      have hstart : Clean true (sanitizeFrom fuel false true rest) := (ih hrest).1
      have hreplaced : Clean begins (95 :: sanitizeFrom fuel false false rest) ∧
          (first = true → ∀ d ∈ (95 :: sanitizeFrom fuel false false rest).head?, isSeparator d = false) := by
        refine ⟨⟨fun _ => ?_, hunderscore.1, ?_⟩, fun _ d hd => ?_⟩
        · rw [List.takeWhile_cons_of_pos (by simp [hunderscore.2])]
          exact isReserved_underscore _
        · rw [hunderscore.2]
          exact hplain
        · obtain rfl : 95 = d := Option.some.inj hd
          exact hunderscore.2
      dsimp only
      cases hforbidden : isForbidden c with
      | true =>
        rw [if_pos rfl]
        exact hreplaced
      | false =>
        rw [if_neg Bool.false_ne_true]
        cases hseparator : isSeparator c with
        | true =>
          rw [if_pos rfl]
          cases first with
          | true =>
            rw [if_pos rfl]
            exact hreplaced
          | false =>
            rw [if_neg Bool.false_ne_true]
            refine ⟨⟨fun _ => ?_, hforbidden, ?_⟩, fun h => absurd h Bool.false_ne_true⟩
            · rw [List.takeWhile_cons_of_neg (by simp [hseparator])]
              decide
            · rw [hseparator]
              exact hstart
        | false =>
          rw [if_neg Bool.false_ne_true]
          refine ⟨⟨fun hbegins => ?_, hforbidden, ?_⟩, fun _ d hd => ?_⟩
          · -- the entry is the one behind the switch, with other characters
            have hmap : (c :: sanitizeFrom fuel false false rest).takeWhile (!isSeparator ·) =
                ((c :: rest).takeWhile (!isSeparator ·)).map replaceForbidden := by
              have hc : replaceForbidden c = c := if_neg (by simp [hforbidden])
              rw [List.takeWhile_cons_of_pos (by simp [hseparator]), takeWhile_sanitizeFrom hrest,
                List.takeWhile_cons_of_pos (by simp [hseparator]), List.map_cons, hc]
            rw [hmap]
            by_contra hreserved
            have hbefore := isReserved_of_map ((Bool.not_eq_false _).mp hreserved)
            rw [hentry hbegins] at hbefore
            cases hbefore
          · rw [hseparator]
            exact hplain
          · obtain rfl : c = d := Option.some.inj hd
            exact hseparator

theorem length_sanitizeFrom_le {fuel : Nat} {first begins : Bool} {data : Bytes} :
    (sanitizeFrom fuel first begins data).length ≤ data.length := by
  induction fuel generalizing first begins data with
  | zero => exact Nat.le_refl _
  | succ fuel ih =>
    have hentry : (if begins then sanitizeEntry data else data).length ≤ data.length := by
      split
      · cases hspecial : isSpecial data with
        | false => rw [sanitizeEntry_of_not hspecial]
        | true =>
          obtain ⟨after, hafter, hlt⟩ := sanitizeEntry_of_special hspecial
          rw [hafter]
          exact hlt
      · exact Nat.le_refl _
    rw [sanitizeFrom]
    generalize (if begins then sanitizeEntry data else data) = data' at hentry ⊢
    cases data' with
    | nil => exact Nat.zero_le _
    | cons c rest =>
      refine Nat.le_trans ?_ hentry
      dsimp only
      split_ifs <;> exact Nat.succ_le_succ ih

/-! ### Safe names -/

/-- A name of a file in a directory: short, without odd characters, relative, and without reserved entries. -/
structure SafeName (name : Bytes) : Prop where
  short : name.length ≤ 255
  allowed : ∀ c ∈ name, isForbidden c = false
  relative : ∀ c ∈ name.head?, isSeparator c = false
  entries : ∀ entry ∈ name.splitOnP isSeparator, isReserved entry = false

theorem splitOnP_eq_cons (p : UInt8 → Bool) (l : Bytes) : l.splitOnP p = l.takeWhile (!p ·) :: (l.splitOnP p).tail := by
  induction l with
  | nil => rfl
  | cons c l ih =>
    rw [List.splitOnP_cons_eq_if_modifyHead]
    cases hc : p c with
    | true => simp [hc]
    | false =>
      rw [if_neg Bool.false_ne_true, List.takeWhile_cons_of_pos (by simp [hc]), ih]
      rfl

theorem tail_splitOnP_cons (p : UInt8 → Bool) (c : UInt8) (l : Bytes) :
    ((c :: l).splitOnP p).tail = if p c then l.splitOnP p else (l.splitOnP p).tail := by
  rw [List.splitOnP_cons_eq_if_modifyHead]
  split
  · rfl
  · rw [splitOnP_eq_cons p l]
    rfl

theorem clean_iff (begins : Bool) (name : Bytes) :
    Clean begins name ↔ (∀ c ∈ name, isForbidden c = false) ∧
      (begins = true → isReserved (name.takeWhile (!isSeparator ·)) = false) ∧
      ∀ entry ∈ (name.splitOnP isSeparator).tail, isReserved entry = false := by
  induction name generalizing begins with
  | nil => exact iff_of_true trivial ⟨List.forall_mem_nil _, fun _ => by decide, List.forall_mem_nil _⟩
  | cons c rest ih =>
    rw [Clean, ih, tail_splitOnP_cons, List.forall_mem_cons]
    cases hseparator : isSeparator c with
    | true =>
      rw [if_pos rfl, splitOnP_eq_cons, List.forall_mem_cons]
      constructor
      · rintro ⟨hentry, hc, hrest, hfirst, htail⟩
        exact ⟨⟨hc, hrest⟩, hentry, hfirst rfl, htail⟩
      · rintro ⟨⟨hc, hrest⟩, hentry, hfirst, htail⟩
        exact ⟨hentry, hc, hrest, fun _ => hfirst, htail⟩
    | false =>
      rw [if_neg Bool.false_ne_true]
      constructor
      · rintro ⟨hentry, hc, hrest, -, htail⟩
        exact ⟨⟨hc, hrest⟩, hentry, htail⟩
      · rintro ⟨⟨hc, hrest⟩, hentry, htail⟩
        exact ⟨hentry, hc, hrest, fun h => absurd h Bool.false_ne_true, htail⟩

theorem SafeName.clean {name : Bytes} (h : SafeName name) : Clean true name := by
  have hentries := h.entries
  rw [splitOnP_eq_cons, List.forall_mem_cons] at hentries
  exact (clean_iff true name).2 ⟨h.allowed, fun _ => hentries.1, hentries.2⟩

theorem safeName_sanitizeFilename (data : Bytes) : SafeName (sanitizeFilename data) := by
  have hshort : (data.take 255).length ≤ 255 := by
    rw [List.length_take]
    exact Nat.min_le_left ..
  have hclean : Clean true (sanitizeFilename data) := (clean_sanitizeFrom hshort).1
  have hfirst : true = true → ∀ c ∈ (sanitizeFilename data).head?, isSeparator c = false :=
    (clean_sanitizeFrom hshort).2
  obtain ⟨hallowed, hentry, htail⟩ := (clean_iff true _).1 hclean
  refine ⟨Nat.le_trans length_sanitizeFrom_le hshort, hallowed, hfirst rfl, ?_⟩
  rw [splitOnP_eq_cons, List.forall_mem_cons]
  exact ⟨hentry rfl, htail⟩

/-- What is sanitized is safe, and what is safe is left as it is. -/
theorem sanitizeFilename_spec (data : Bytes) :
    SafeName (sanitizeFilename data) ∧ (sanitizeFilename data = data ↔ SafeName data) := by
  have hsafe := safeName_sanitizeFilename data
  refine ⟨hsafe, fun h => h ▸ hsafe, fun h => ?_⟩
  rw [sanitizeFilename, List.take_of_length_le h.short]
  exact sanitizeFrom_of_clean h.clean fun _ => h.relative

/-! ### Inside a directory -/

/-- Where a path leads, entry by entry, as far as names tell; the directory is given from the inside to the outside. -/
def resolve : List Bytes → List Bytes → List Bytes
  | directory, [] => directory
  | directory, entry :: entries =>
    if entry = [] ∨ entry = ascii "." then resolve directory entries
    else if entry = ascii ".." then resolve directory.tail entries
    else resolve (entry :: directory) entries

theorem suffix_resolve {entries : List Bytes} (h : ascii ".." ∉ entries) (directory : List Bytes) :
    directory <:+ resolve directory entries := by
  induction entries generalizing directory with
  | nil => exact List.suffix_refl _
  | cons entry entries ih =>
    rw [List.mem_cons, not_or] at h
    rw [resolve]
    split
    · exact ih h.2 directory
    · rw [if_neg fun he => h.1 he.symm]
      exact (List.suffix_cons ..).trans (ih h.2 (entry :: directory))

/-- No entry between slashes is the directory above. -/
theorem Clean.no_dots {begins : Bool} {name : Bytes} (h : Clean begins name) :
    (begins = true → name.takeWhile (!(· == 47) ·) ≠ ascii "..") ∧ ascii ".." ∉ (name.splitOnP (· == 47)).tail := by
  induction name generalizing begins with
  | nil => exact ⟨fun _ => by decide, List.not_mem_nil⟩
  | cons c rest ih =>
    obtain ⟨hentry, -, hrest⟩ := h
    obtain ⟨hfirst, htail⟩ := ih hrest
    constructor
    · intro hbegins hdots
      -- the entry would be reserved
      have hname := List.takeWhile_append_dropWhile (p := (!(· == 47) ·)) (l := c :: rest)
      have hbehind := head?_dropWhile (· == 47) (c :: rest)
      rw [hdots] at hname
      generalize (c :: rest).dropWhile (!(· == 47) ·) = behind at hname hbehind
      have hreserved := hentry hbegins
      rw [← hname, List.takeWhile_append_of_pos dots_fields] at hreserved
      cases behind with
      | nil => exact absurd hreserved (by decide)
      | cons d behind =>
        have hd : (d == 47) = true := hbehind
        obtain rfl : d = 47 := eq_of_beq hd
        rw [List.takeWhile_cons_of_neg (by decide)] at hreserved
        exact absurd hreserved (by decide)
    · rw [tail_splitOnP_cons]
      split
      · rename_i hslash
        obtain rfl : c = 47 := eq_of_beq hslash
        rw [splitOnP_eq_cons, List.mem_cons, not_or]
        exact ⟨fun he => hfirst rfl he.symm, htail⟩
      · exact htail

/-- A path that continues with a safe name stays in the directory. -/
theorem resolve_safeName {name : Bytes} (h : SafeName name) (directory : List Bytes) :
    directory <:+ resolve directory (name.splitOn 47) := by
  obtain ⟨hfirst, htail⟩ := h.clean.no_dots
  refine suffix_resolve ?_ directory
  rw [List.splitOn_eq_splitOnP, splitOnP_eq_cons, List.mem_cons, not_or]
  exact ⟨fun he => hfirst rfl he.symm, htail⟩

end Crow

end KeyValueServer
