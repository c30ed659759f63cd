import KeyValueServer.CrashConsistency

/-!
# What a save reports

`save` looks at the result of `fopen` alone.  `FileWriteStream` ignores that `fwrite` took less than it was given,
`FileOwner::close` ignores the result of `fclose`, and `store_data` returns the number of enumerated records whether
`save` returned true or false.

Every byte of the text is in the file, on its way to it, or lost (`SaveCall.Accounts`).  So the report is true when
nothing is lost after the file has been opened, and otherwise only when the file cannot be opened and there are no
records (`storeData_tellsTruth_iff`).
-/

namespace KeyValueServer

open Concurrency DataSerializer

/-- A call of `save`, up to its result. -/
inductive SaveCall
  | running (s : SaveState)
  | returned (ok : Bool) (file : Option Bytes)

/-- What a call of `save` sees of the file: a step in which all goes well, or a failure with the number of bytes that
are lost. -/
inductive SaveEvent
  | step (l : SaveLabel)
  | fopenFails
  | shortWrite (lost : Nat)
  | writeError (lost : Nat)
  | fclose (lost : Nat)

def SaveEvent.lost : SaveEvent → Nat
  | .step _ | .fopenFails => 0
  | .shortWrite lost | .writeError lost | .fclose lost => lost

def lostBytes (ls : List SaveEvent) : Nat := (ls.map SaveEvent.lost).sum

theorem lostBytes_concat (ls : List SaveEvent) (l : SaveEvent) : lostBytes (ls ++ [l]) = lostBytes ls + l.lost := by
  simp [lostBytes]

theorem lostBytes_eq_zero {ls : List SaveEvent} : lostBytes ls = 0 ↔ ∀ l ∈ ls, l.lost = 0 := by
  rw [lostBytes, List.sum_eq_zero_iff_forall_eq_nat, List.forall_mem_map]

/-- The steps of a save of `text` whose file operations may fail. -/
inductive SaveCallStep (text : Bytes) : SaveCall → SaveEvent → SaveCall → Prop
  | step {s s' : SaveState} {l : SaveLabel} : SaveStep text s l s' →
      SaveCallStep text (.running s) (.step l) (.running s')
  | fopenFails {file : Option Bytes} : SaveCallStep text (.running (.before file)) .fopenFails (.returned false file)
  -- the stream forgets its buffer, also when `fwrite` has taken only the beginning of it
  | shortWrite {file stdio buffer pending : Bytes} (taken : Nat) :
      buffer.length = fileStreamBufferSize ∨ pending = [] → taken ≤ buffer.length →
      SaveCallStep text (.running (.writing file stdio buffer pending)) (.shortWrite (buffer.length - taken))
        (.running (.writing file (stdio ++ buffer.take taken) [] pending))
  | writeError {file stdio buffer pending : Bytes} (lost : Nat) : lost ≤ stdio.length →
      SaveCallStep text (.running (.writing file stdio buffer pending)) (.writeError lost)
        (.running (.writing file (stdio.drop lost) buffer pending))
  -- `fclose` writes what is left
  | fclose {file stdio : Bytes} (written : Nat) : written ≤ stdio.length →
      SaveCallStep text (.running (.writing file stdio [] [])) (.fclose (stdio.length - written))
        (.returned true (some (file ++ stdio.take written)))

/-- Where the bytes of the text are. -/
def SaveCall.Accounts (text : Bytes) (old : Option Bytes) (ls : List SaveEvent) : SaveCall → Prop
  | .running (.before file) => file = old ∧ ls = []
  | .running (.writing file stdio buffer pending) => .step .fopen ∈ ls ∧ .fopenFails ∉ ls ∧
      (file ++ stdio ++ buffer ++ pending).Sublist text ∧
      (file ++ stdio ++ buffer ++ pending).length + lostBytes ls = text.length
  | .returned false file => file = old ∧ ls = [.fopenFails]
  | .returned true file => .step .fopen ∈ ls ∧ .fopenFails ∉ ls ∧
      ∃ written, file = some written ∧ written.Sublist text ∧ written.length + lostBytes ls = text.length

/-- A step on an open file keeps the order of the bytes, and loses as many as it says. -/
theorem accounts_snoc {text bytes bytes' : Bytes} {ls : List SaveEvent} {l : SaveEvent}
    (h : .step .fopen ∈ ls ∧ .fopenFails ∉ ls ∧ bytes.Sublist text ∧ bytes.length + lostBytes ls = text.length)
    (hl : l ≠ .fopenFails) (hsub : bytes'.Sublist bytes) (hlen : bytes'.length + l.lost = bytes.length) :
    .step .fopen ∈ ls ++ [l] ∧ .fopenFails ∉ ls ++ [l] ∧ bytes'.Sublist text ∧
      bytes'.length + lostBytes (ls ++ [l]) = text.length := by
  obtain ⟨hopened, hfails, hsublist, hlength⟩ := h
  refine ⟨List.mem_append_left _ hopened, ?_, hsub.trans hsublist, ?_⟩
  · intro hmem
    rcases List.mem_append.1 hmem with hmem | hmem
    · exact hfails hmem
    · exact hl (List.mem_singleton.1 hmem).symm
  · rw [lostBytes_concat]
    omega

theorem SaveCallStep.accounts {text : Bytes} {old : Option Bytes} {s s' : SaveCall} {ls : List SaveEvent}
    {l : SaveEvent} (h : SaveCallStep text s l s') (hs : s.Accounts text old ls) :
    s'.Accounts text old (ls ++ [l]) := by
  cases h with
  | step h =>
    cases h with
    | fopen =>
      obtain ⟨rfl, rfl⟩ := hs
      simp [SaveCall.Accounts, lostBytes, SaveEvent.lost]
    | @put file stdio buffer rest c _ =>
      have hsame : file ++ stdio ++ (buffer ++ [c]) ++ rest = file ++ stdio ++ buffer ++ c :: rest := by simp
      exact accounts_snoc hs nofun (by rw [hsame]) (by rw [hsame]; rfl)
    | @flush file stdio buffer pending _ =>
      have hsame : file ++ (stdio ++ buffer) ++ [] ++ pending = file ++ stdio ++ buffer ++ pending := by simp
      exact accounts_snoc hs nofun (by rw [hsame]) (by rw [hsame]; rfl)
    | @reach file stdio buffer pending n =>
      have hsame : file ++ stdio.take n ++ stdio.drop n = file ++ stdio := by
        rw [List.append_assoc, List.take_append_drop]
      exact accounts_snoc hs nofun (by rw [hsame]) (by rw [hsame]; rfl)
  | fopenFails =>
    obtain ⟨rfl, rfl⟩ := hs
    exact ⟨rfl, rfl⟩
  | @shortWrite file stdio buffer pending taken hfull htaken =>
    refine accounts_snoc hs nofun ?_ ?_
    · simp only [List.append_assoc, List.nil_append]
      exact (((List.take_sublist _ _).append_right _).append_left _).append_left _
    · simp [SaveEvent.lost]
      omega
  | @writeError file stdio buffer pending lost hlost =>
    refine accounts_snoc hs nofun ?_ ?_
    · simp only [List.append_assoc]
      exact ((List.drop_sublist _ _).append_right _).append_left _
    · simp [SaveEvent.lost]
      omega
  | @fclose file stdio written hwritten =>
    have hsub : (file ++ stdio.take written).Sublist (file ++ stdio ++ [] ++ []) := by
      simp only [List.append_nil]
      exact (List.take_sublist _ _).append_left _
    have hlen : (file ++ stdio.take written).length + (stdio.length - written) =
        (file ++ stdio ++ [] ++ []).length := by
      simp
      omega
    obtain ⟨hopened, hfails, hsublist, hlength⟩ :=
      accounts_snoc hs (l := .fclose (stdio.length - written)) nofun hsub hlen
    exact ⟨hopened, hfails, _, rfl, hsublist, hlength⟩

theorem Run.accounts_save {text : Bytes} {old : Option Bytes} {s : SaveCall} {ls : List SaveEvent}
    (h : Run (SaveCallStep text) (.running (.before old)) ls s) : s.Accounts text old ls :=
  Run.invariant (fun ls s => s.Accounts text old ls) ⟨rfl, rfl⟩ (fun hi hl => hl.accounts hi) h

/-- A save that returned true has left the whole text in the file exactly when nothing was lost. -/
theorem file_eq_text_iff {text : Bytes} {old file : Option Bytes} {ls : List SaveEvent}
    (h : Run (SaveCallStep text) (.running (.before old)) ls (.returned true file)) :
    file = some text ↔ ∀ l ∈ ls, l.lost = 0 := by
  obtain ⟨-, -, written, rfl, hsub, hlen⟩ := Run.accounts_save h
  rw [← lostBytes_eq_zero, Option.some.injEq]
  constructor
  · intro hwhole
    rw [hwhole] at hlen
    omega
  · intro hlost
    exact hsub.eq_of_length (by omega)

/-! ### `store_data` -/

theorem length_documentRecords {data : DataCollection} {order : List Bytes} (ho : data.IterationOrder order) :
    (documentRecords data order).length = order.length := by
  rw [documentRecords, List.length_filterMap_eq_countP, List.countP_eq_length]
  intro name hn
  obtain ⟨record, hr⟩ := Finmap.mem_iff.1 ((ho.2 name).1 hn)
  rw [DataCollection.valueOf_of_lookup hr]
  rfl

theorem order_eq_nil_iff {data : DataCollection} {order : List Bytes} (ho : data.IterationOrder order) :
    order = [] ↔ data = ∅ := by
  constructor
  · rintro rfl
    apply Finmap.ext_lookup
    intro name
    rw [Finmap.lookup_empty, Finmap.lookup_eq_none, ← ho.2]
    exact List.not_mem_nil
  · rintro rfl
    apply List.eq_nil_iff_forall_not_mem.2
    intro name hn
    exact Finmap.notMem_empty ((ho.2 name).1 hn)

/-- A call of `store_data` that nothing else disturbs: `recordCount` is what it returns, `ok` the result of `save`. -/
structure StoreDataCall (rj : RapidJson) (e : DataEngine) (order : List Bytes) (old : Option Bytes)
    (ls : List SaveEvent) (recordCount : Nat) (text : Bytes) (ok : Bool) (file : Option Bytes) : Prop where
  enumerated : BackgroundWorker.storeData rj e order = (recordCount, some text)
  saved : Run (SaveCallStep text) (.running (.before old)) ls (.returned ok file)

/-- The report: `save` returns true only when the file holds the whole text, and the count is the number of records in
the file that this call has written. -/
structure TellsTruth (rj : RapidJson) (ls : List SaveEvent) (recordCount : Nat) (text : Bytes) (ok : Bool)
    (file : Option Bytes) : Prop where
  complete : ok = true → file = some text
  counted : .step .fopen ∈ ls → recordCount = (loadedRecords rj file).length
  notOpened : .step .fopen ∉ ls → recordCount = 0

/-- The report is true exactly when the file was opened and nothing was lost, or when it was not opened and there was
nothing to save. -/
theorem storeData_tellsTruth_iff {rj : RapidJson} (hp : rj.ParsesOwnText) {e : DataEngine} {order : List Bytes}
    (ho : e.data.IterationOrder order) {old file : Option Bytes} {ls : List SaveEvent} {recordCount : Nat}
    {text : Bytes} {ok : Bool} (h : StoreDataCall rj e order old ls recordCount text ok file) :
    TellsTruth rj ls recordCount text ok file ↔
      (.step .fopen ∈ ls ∧ ∀ l ∈ ls, l.lost = 0) ∨ (.fopenFails ∈ ls ∧ e.data = ∅) := by
  obtain ⟨henum, hsave⟩ := h
  rw [BackgroundWorker.storeData_eq rj ho, Prod.mk.injEq, Option.some.injEq] at henum
  obtain ⟨rfl, rfl⟩ := henum
  have haccounts := Run.accounts_save hsave
  cases ok with
  | false =>
    obtain ⟨rfl, rfl⟩ := haccounts
    rw [← order_eq_nil_iff ho, ← List.length_eq_zero_iff]
    constructor
    · intro htruth
      exact Or.inr ⟨List.mem_singleton_self _, htruth.notOpened (by simp)⟩
    · rintro (⟨hopened, -⟩ | ⟨-, hempty⟩)
      · simp at hopened
      · exact ⟨nofun, by simp, fun _ => hempty⟩
  | true =>
    obtain ⟨hopened, hfails, -⟩ := haccounts
    have hwhole := file_eq_text_iff hsave
    constructor
    · intro htruth
      exact Or.inl ⟨hopened, hwhole.1 (htruth.complete rfl)⟩
    · rintro (⟨-, hlost⟩ | ⟨hfailed, -⟩)
      · have hfile := hwhole.2 hlost
        refine ⟨fun _ => hfile, fun _ => ?_, fun hnot => absurd hopened hnot⟩
        rw [hfile, loadedRecords_ofStrings hp, List.length_map, length_documentRecords ho]
      · exact absurd hfailed hfails

/-! ### Two ways through a save -/

/-- A save whose steps go well, as a call. -/
theorem Run.saveCall {text : Bytes} {s s' : SaveState} {ls : List SaveLabel} (h : Run (SaveStep text) s ls s') :
    Run (SaveCallStep text) (.running s) (ls.map .step) (.running s') := by
  induction h with
  | nil => exact .nil
  | snoc _ hl ih =>
    rw [List.map_append]
    exact ih.snoc (.step hl)

theorem saveCall_completes (text : Bytes) (old : Option Bytes) :
    ∃ ls, Run (SaveCallStep text) (.running (.before old)) ls (.returned true (some text)) ∧ ∀ l ∈ ls, l.lost = 0 := by
  obtain ⟨ls, h⟩ := save_completes text old
  have hclosed := (Run.saveCall h).snoc (.fclose 0 (Nat.le_refl 0))
  rw [List.take_nil, List.append_nil] at hclosed
  exact ⟨_, hclosed, (file_eq_text_iff hclosed).1 rfl⟩

private theorem refused_rest (text : Bytes) (pending buffer : Bytes) (hb : buffer.length ≤ fileStreamBufferSize) :
    ∃ ls, Run (SaveCallStep text) (.running (.writing [] [] buffer pending)) ls (.returned true (some [])) := by
  induction pending generalizing buffer with
  | nil =>
    have h₀ : Run (SaveCallStep text) (.running (.writing [] [] buffer [])) [] _ := .nil
    have h₁ := h₀.snoc (.shortWrite 0 (Or.inr rfl) (Nat.zero_le _))
    exact ⟨_, h₁.snoc (.fclose 0 (Nat.zero_le _))⟩
  | cons c rest ih =>
    by_cases hfull : buffer.length < fileStreamBufferSize
    · obtain ⟨ls, h⟩ := ih (buffer ++ [c]) (by simp; omega)
      exact ⟨_, Run.cons (.step (.put hfull)) h⟩
    · -- the full buffer is refused first
      have hsize : buffer.length = fileStreamBufferSize := by omega
      obtain ⟨ls, h⟩ := ih [c] (by simp [fileStreamBufferSize])
      exact ⟨_, Run.cons (.shortWrite 0 (Or.inl hsize) (Nat.zero_le _)) (Run.cons (.step (.put (by decide))) h)⟩

/-- On a full disk every save returns true, and leaves an empty file. -/
theorem saveCall_fullDisk (text : Bytes) (old : Option Bytes) :
    ∃ ls, Run (SaveCallStep text) (.running (.before old)) ls (.returned true (some [])) := by
  obtain ⟨ls, h⟩ := refused_rest text text [] (Nat.zero_le _)
  exact ⟨_, Run.cons (.step .fopen) h⟩

section Runs

attribute [local instance] Allocator.exact

private def engine : DataEngine := .load [(ascii "a", ascii "1")]

private def text : Bytes := ascii "\x7b\"a\":\"1\"\x7d"

private theorem engine_order : engine.data.IterationOrder [ascii "a"] := DataCollection.iterationOrder_iff.2 (by decide)

private theorem storeData_engine : BackgroundWorker.storeData JsonText.library engine [ascii "a"] = (1, some text) := by
  decide

/-- One record is reported, with a file that cannot be opened and with a full disk. -/
theorem storeData_reports_lost_record :
    (∃ ls, StoreDataCall JsonText.library engine [ascii "a"] none ls 1 text false none ∧
      ¬ TellsTruth JsonText.library ls 1 text false none) ∧
    ∃ ls, StoreDataCall JsonText.library engine [ascii "a"] none ls 1 text true (some []) ∧
      ¬ TellsTruth JsonText.library ls 1 text true (some []) := by
  constructor
  · refine ⟨[.fopenFails], ⟨storeData_engine, Run.snoc .nil .fopenFails⟩, fun h => ?_⟩
    exact absurd (h.notOpened (by simp)) (by decide)
  · obtain ⟨ls, h⟩ := saveCall_fullDisk text none
    refine ⟨ls, ⟨storeData_engine, h⟩, fun htruth => ?_⟩
    exact absurd (htruth.complete rfl) (by decide)

theorem storeData_reports_saved_record :
    ∃ ls, TellsTruth JsonText.library ls 1 text true (some text) := by
  obtain ⟨ls, h, hlost⟩ := saveCall_completes text none
  obtain ⟨hopened, -⟩ := Run.accounts_save h
  exact ⟨ls, (storeData_tellsTruth_iff JsonText.parsesOwnText engine_order ⟨storeData_engine, h⟩).2
    (Or.inl ⟨hopened, hlost⟩)⟩

end Runs

end KeyValueServer
