import KeyValueServer.Concurrency.Run
import KeyValueServer.JsonText
import KeyValueServer.SavedFile

/-!
# A save that is killed

`save` opens the file with mode `wb`, which truncates it, and puts the text into the buffer of a `FileWriteStream`
byte by byte; a full buffer is handed to `fwrite`, whose own buffer reaches the file piece by piece.  There is no
second file and no rename: whatever has reached the file when the process is killed is what the next start loads.
That is a prefix of the text (`SaveState.Split`), and since the parser rejects a proper prefix, the next start finds
the old records, the new ones, or none (`restart_after_kill`).
-/

namespace KeyValueServer

open Concurrency DataSerializer

def fileStreamBufferSize : Nat := 32768

/-- A call of `save`: what is in the file, in the buffer of `fwrite`, in the buffer of the stream, and still to be
put. -/
inductive SaveState
  | before (file : Option Bytes)
  | writing (file stdio buffer pending : Bytes)

def SaveState.file : SaveState → Option Bytes
  | .before file => file
  | .writing file _ _ _ => some file

inductive SaveLabel
  | fopen
  | put
  | flush
  | reach (n : Nat)

/-- The steps of a save of `text`. -/
inductive SaveStep (text : Bytes) : SaveState → SaveLabel → SaveState → Prop
  | fopen {file : Option Bytes} : SaveStep text (.before file) .fopen (.writing [] [] [] text)
  | put {file stdio buffer rest : Bytes} {c : UInt8} :
      buffer.length < fileStreamBufferSize →
      SaveStep text (.writing file stdio buffer (c :: rest)) .put (.writing file stdio (buffer ++ [c]) rest)
  -- `Put` flushes a full buffer, and the writer flushes at the end
  | flush {file stdio buffer pending : Bytes} :
      buffer.length = fileStreamBufferSize ∨ pending = [] →
      SaveStep text (.writing file stdio buffer pending) .flush (.writing file (stdio ++ buffer) [] pending)
  | reach {file stdio buffer pending : Bytes} (n : Nat) :
      SaveStep text (.writing file stdio buffer pending) (.reach n)
        (.writing (file ++ stdio.take n) (stdio.drop n) buffer pending)

/-- Nothing of the text is lost, repeated or reordered on its way. -/
def SaveState.Split (text : Bytes) (old : Option Bytes) : SaveState → Prop
  | .before file => file = old
  | .writing file stdio buffer pending => file ++ stdio ++ buffer ++ pending = text

theorem SaveStep.split {text : Bytes} {old : Option Bytes} {s s' : SaveState} {l : SaveLabel}
    (h : SaveStep text s l s') (hs : s.Split text old) : s'.Split text old := by
  cases h with
  | fopen => rfl
  | put _ => simpa [SaveState.Split] using hs
  | flush _ => simpa [SaveState.Split] using hs
  | reach n =>
    rw [← hs]
    show _ ++ List.take n _ ++ List.drop n _ ++ _ ++ _ = _
    rw [List.append_assoc _ (List.take n _), List.take_append_drop]

/-- Whenever the process is killed, the file is the old one or a prefix of the text. -/
theorem Run.prefix_of_save {text : Bytes} {old : Option Bytes} {s : SaveState} {ls : List SaveLabel}
    (h : Run (SaveStep text) (.before old) ls s) : s = .before old ∨ ∃ p, s.file = some p ∧ p <+: text := by
  have hs : s.Split text old := Run.invariant (fun _ s => s.Split text old) rfl (fun hi hl => hl.split hi) h
  cases s with
  | before file => exact Or.inl (congrArg SaveState.before hs)
  | writing file stdio buffer pending =>
    right
    rw [SaveState.Split, List.append_assoc, List.append_assoc] at hs
    exact ⟨file, rfl, _, hs⟩

private theorem save_rest (text : Bytes) (pending file stdio buffer : Bytes)
    (hb : buffer.length ≤ fileStreamBufferSize) :
    ∃ ls, Run (SaveStep text) (.writing file stdio buffer pending) ls
      (.writing (file ++ stdio ++ buffer ++ pending) [] [] []) := by
  induction pending generalizing stdio buffer with
  | nil =>
    have h₀ : Run (SaveStep text) (.writing file stdio buffer []) [] (.writing file stdio buffer []) := .nil
    have h₁ := h₀.snoc (.flush (Or.inr rfl))
    have h₂ := h₁.snoc (.reach (stdio ++ buffer).length)
    rw [List.take_length, List.drop_length] at h₂
    refine ⟨[.flush, .reach (stdio ++ buffer).length], ?_⟩
    simpa using h₂
  | cons c rest ih =>
    by_cases hfull : buffer.length < fileStreamBufferSize
    · obtain ⟨ls, h⟩ := ih stdio (buffer ++ [c]) (by simp; omega)
      refine ⟨.put :: ls, Run.cons (.put hfull) ?_⟩
      simpa using h
    · -- the full buffer goes out first
      have hsize : buffer.length = fileStreamBufferSize := by omega
      obtain ⟨ls, h⟩ := ih (stdio ++ buffer) [c] (by simp [fileStreamBufferSize])
      refine ⟨.flush :: .put :: ls, Run.cons (.flush (Or.inl hsize)) (Run.cons (.put (by decide)) ?_)⟩
      simpa using h

/-- A save that is not killed leaves the whole text in the file. -/
theorem save_completes (text : Bytes) (old : Option Bytes) :
    ∃ ls, Run (SaveStep text) (.before old) ls (.writing text [] [] []) := by
  obtain ⟨ls, h⟩ := save_rest text text [] [] [] (by decide)
  exact ⟨_, Run.cons .fopen h⟩

/-- The next start gives every record of `data` its value, and has no other record. -/
def Rebuilds [Allocator] (rj : RapidJson) (file : Option Bytes) (data : DataCollection) : Prop :=
  ∀ name, (BackgroundWorker.initialLoadData rj file .empty).2.2.data.valueOf name = data.valueOf name

/-- A save of `data` over a saved file of `old`, killed at any point: before the file is opened the next start
rebuilds exactly the old records; when the whole text has reached the file, exactly the new ones, unless their
lengths are cut; otherwise it fails to parse the file and begins with no records. -/
theorem restart_after_kill [Allocator] {rj : RapidJson} (hp : rj.ParsesOwnText) (hcut : rj.RejectsCutText)
    {old data : DataCollection} {oldFile : Option Bytes} {n : Nat} (hold : Snapshot rj old oldFile n)
    {order : List Bytes} (ho : data.IterationOrder order) {s : SaveState} {ls : List SaveLabel}
    (h : Run (SaveStep (rj.write (.ofStrings (documentRecords data order)))) (.before oldFile) ls s) :
    (s = .before oldFile ∧ Rebuilds rj s.file old) ∨
    (s.file = some (rj.write (.ofStrings (documentRecords data order))) ∧ (data.Short → Rebuilds rj s.file data)) ∨
    (s.file ≠ some (rj.write (.ofStrings (documentRecords data order))) ∧
      (BackgroundWorker.initialLoadData rj s.file .empty).1 = .error .parsing ∧
      (BackgroundWorker.initialLoadData rj s.file .empty).2 = (0, .empty)) := by
  rcases Run.prefix_of_save h with rfl | ⟨p, hfile, hprefix⟩
  · exact Or.inl ⟨rfl, (hold.loads hp).2.2⟩
  · right
    rw [hfile]
    by_cases hwhole : p = rj.write (.ofStrings (documentRecords data order))
    · left
      rw [hwhole]
      exact ⟨rfl, fun hshort => ((snapshot_documentRecords rj ho hshort).loads hp).2.2⟩
    · right
      have hnone := hcut _ p hprefix hwhole
      have hrecords : loadedRecords rj (some p) = [] := by
        rw [loadedRecords, Option.bind_some, hnone]
      refine ⟨fun he => hwhole (Option.some.inj he), ?_, ?_⟩
      · rw [BackgroundWorker.initialLoadData, load, hnone]
      · rw [BackgroundWorker.initialLoadData_state, hrecords]
        rfl

section Runs

attribute [local instance] Allocator.exact

private def one : DataCollection := (DataEngine.load [(ascii "a", ascii "1")]).data

private def two : DataCollection := (DataEngine.load [(ascii "a", ascii "2")]).data

private theorem order_one : one.IterationOrder [ascii "a"] := DataCollection.iterationOrder_iff.2 (by decide)

private theorem order_two : two.IterationOrder [ascii "a"] := DataCollection.iterationOrder_iff.2 (by decide)

private theorem short_one : one.Short := by decide

private theorem short_two : two.Short := by decide

/-- A save over the file of `{"a":"1"}` that is killed right after the file was opened: the next start has no
records. -/
theorem kill_loses_database : ∃ oldFile ls s,
    oldFile = some (ascii "\x7b\"a\":\"1\"\x7d") ∧
    BackgroundWorker.storeData JsonText.library (.load [(ascii "a", ascii "1")]) [ascii "a"] = (1, oldFile) ∧
    Run (SaveStep (JsonText.write (.ofStrings (documentRecords two [ascii "a"])))) (.before oldFile) ls s ∧
    ¬ Rebuilds JsonText.library s.file one ∧ ¬ Rebuilds JsonText.library s.file two := by
  have hempty : (BackgroundWorker.initialLoadData JsonText.library (some []) .empty).2.2 = .empty := by
    have hnone : loadedRecords JsonText.library (some []) = [] := by
      rw [loadedRecords, Option.bind_some, JsonText.rejectsCutText [] [] List.nil_prefix (by decide)]
    rw [BackgroundWorker.initialLoadData_state, hnone]
    rfl
  refine ⟨_, [.fopen], _, rfl, by decide, Run.nil.snoc .fopen, fun h => ?_, fun h => ?_⟩
  · have ha := h (ascii "a")
    rw [SaveState.file, hempty] at ha
    exact absurd ha (by decide)
  · have ha := h (ascii "a")
    rw [SaveState.file, hempty] at ha
    exact absurd ha (by decide)

/-- A save over the file of `{"a":"1"}` that completes. -/
theorem restart_after_save : ∃ oldFile text ls,
    BackgroundWorker.storeData JsonText.library (.load [(ascii "a", ascii "1")]) [ascii "a"] = (1, some oldFile) ∧
    BackgroundWorker.storeData JsonText.library (.load [(ascii "a", ascii "2")]) [ascii "a"] = (1, some text) ∧
    Run (SaveStep text) (.before (some oldFile)) ls (.writing text [] [] []) ∧
    Rebuilds JsonText.library (some text) two := by
  have hold : Snapshot JsonText.library one _ _ := snapshot_documentRecords JsonText.library order_one short_one
  obtain ⟨ls, h⟩ := save_completes (JsonText.write (.ofStrings (documentRecords two [ascii "a"])))
    (some (JsonText.write (.ofStrings (documentRecords one [ascii "a"]))))
  refine ⟨_, _, ls, BackgroundWorker.storeData_eq _ order_one, BackgroundWorker.storeData_eq _ order_two, h, ?_⟩
  rcases restart_after_kill JsonText.parsesOwnText JsonText.rejectsCutText hold order_two h with
    ⟨hs, -⟩ | ⟨-, hnew⟩ | ⟨hcut, -⟩
  · cases hs
  · exact hnew short_two
  · exact absurd rfl hcut

end Runs

end KeyValueServer
