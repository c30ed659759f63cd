import KeyValueServer.EngineLinearizable
import KeyValueServer.JsonText
import KeyValueServer.SavedFile

/-!
# What a save writes

`store_data` fills its document with references while it holds the lock, and follows them after it has given the
lock back.  A `set` of another thread in between can change the characters a reference shows, or take the storage
away.  As long as every assignment keeps the characters that are still to be written (`SaveUndisturbed`), the file
holds the records of the engine at the moment the enumeration began (`Snapshot`); `save_mixes` is a run in which it
does not.
-/

namespace KeyValueServer

open Concurrency

/-- The members of its document that a call has not written yet, once it has given the lock back. -/
def Thread.pending : Thread → Document
  | .running _ (.saveOpen _ document) => document
  | .running _ (.saveMembers _ rest _) => rest
  | _ => []

/-- The steps of a run in which `saver` alone stores data: strings are short when they are enumerated, and no
assignment touches characters that `saver` still has to write. -/
def SaveUndisturbed {T : Type} (saver : T) (w : World T) (l : Label T) : Prop :=
  l.Calls (fun t op => op.AfterLoading ∧ (op = .storeData → t = saver)) ∧
  match l with
  | .exec _ _ (.enumerateBegin (.addToDocument _ _)) => w.memory.data.Short
  | .exec _ _ (.setAssign name value) => ∀ member ∈ (w.thread saver).pending, member.record = name →
      ∀ record, w.memory.data.lookup name = some record → record.value.Keeps member.length value
  | _ => True

/-! ### The call that saves -/

/-- How far a call of `store_data` has come whose enumeration began at `data₁` and goes in the order `order`. -/
def Pc.Saving (rj : RapidJson) (data₁ : DataCollection) (order : List Bytes) (data : DataCollection)
    (file : Option Bytes) : Pc → Prop
  | .enumerateNext (.addToDocument recordCount document) rest => ∃ visited, order = visited ++ rest ∧
      recordCount = visited.length ∧ document.resolve data = some (documentRecords data₁ visited) ∧
      ∀ name, (data.lookup name).map (fun record => record.value) =
        (data₁.lookup name).map fun record => record.value
  | .enumerateUnlock (.addToDocument recordCount document) | .saveOpen recordCount document =>
    recordCount = order.length ∧ document.resolve data = some (documentRecords data₁ order)
  | .saveMembers recordCount rest written => recordCount = order.length ∧
      ∃ records, Document.resolve data rest = some records ∧ written ++ records = documentRecords data₁ order
  | .returning .storeData (.stored recordCount) => recordCount = order.length ∧
      file = some (rj.write (.ofStrings (documentRecords data₁ order)))
  | _ => False

section Saving

variable {T : Type} [DecidableEq T] [Allocator]

/-- The points of the call itself. -/
theorem Exec.saving {rj : RapidJson} {t : T} {m m' : Memory T} {pc pc' : Pc} (h : Exec rj t m pc m' pc')
    {data₁ : DataCollection} {order : List Bytes} (hp : pc.Saving rj data₁ order m.data m.file) :
    pc'.Saving rj data₁ order m'.data m'.file := by
  cases h with
  | @enumerateNext visitor name rest record hr =>
    cases visitor with
    | collect items => exact hp.elim
    | addToDocument recordCount document =>
      obtain ⟨visited, rfl, rfl, hd, hsame⟩ := hp
      have hvalue := hsame name
      rw [hr, Option.map_some] at hvalue
      obtain ⟨record₁, hr₁, hv₁⟩ := Option.map_eq_some_iff.1 hvalue.symm
      refine ⟨visited ++ [name], by simp, by simp, ?_, hsame⟩
      rw [documentRecords_concat hr₁, hv₁]
      exact Document.resolve_concat hd (DocumentMember.read_ref hr)
  | @enumerateEnd visitor =>
    cases visitor with
    | collect items => exact hp.elim
    | addToDocument recordCount document =>
      obtain ⟨visited, rfl, rfl, hd, -⟩ := hp
      rw [List.append_nil]
      exact ⟨rfl, hd⟩
  | enumerateStore => exact hp
  | saveOpen =>
    obtain ⟨hn, hd⟩ := hp
    exact ⟨hn, _, hd, rfl⟩
  | @saveMember recordCount member rest written value hv =>
    obtain ⟨hn, records, hd, he⟩ := hp
    obtain ⟨v, records, hread, hrest, rfl⟩ := Document.resolve_cons.1 hd
    refine ⟨hn, records, hrest, ?_⟩
    rw [← he, hv v hread]
    simp
  | saveClose =>
    obtain ⟨hn, records, hd, he⟩ := hp
    obtain rfl : [] = records := by simpa using hd
    rw [List.append_nil] at he
    exact ⟨hn, by rw [← he]⟩
  | _ => exact hp.elim

/-- Only `store_data` touches the file. -/
theorem Exec.file_of_ne {rj : RapidJson} {t : T} {m m' : Memory T} {pc pc' : Pc} (h : Exec rj t m pc m' pc')
    (hop : pc.op ≠ .storeData) : m'.file = m.file := by
  cases h with
  | saveOpen | saveClose => exact absurd rfl hop
  | _ => rfl

/-- An assignment to another record leaves a reference as it is. -/
theorem DocumentMember.read_assignValue_of_ne {data : DataCollection} {member : DocumentMember} {name : Bytes}
    (hne : member.record ≠ name) (value : Bytes) :
    member.read (data.assignValue name value) = member.read data := by
  apply read_congr
  rw [DataCollection.lookup_assignValue, if_neg hne]

/-- An assignment that keeps the characters a reference refers to leaves the reference as it is. -/
theorem DocumentMember.read_assignValue {data : DataCollection} {member : DocumentMember} {v : JString}
    {name value : Bytes} (hv : member.read data = some v)
    (hkeeps : member.record = name → ∀ record, data.lookup member.record = some record →
      record.value.Keeps member.length value) : member.read (data.assignValue name value) = some v := by
  by_cases hn : member.record = name
  · subst hn
    obtain ⟨record, hr, hread⟩ := Option.bind_eq_some_iff.1 hv
    obtain ⟨b, hb, hbv⟩ := Option.map_eq_some_iff.1 hread
    have hepoch : record.value.epoch = member.epoch := by
      by_contra hne
      simp [StdString.read, hne] at hb
    have hsame := StdString.read_assign_iff.2 (hkeeps rfl record hr)
    rw [hepoch, hb] at hsame
    have hlookup : (data.assignValue member.record value).lookup member.record =
        some { record with value := record.value.assign value } := by
      rw [DataCollection.lookup_assignValue, if_pos rfl, hr]
      rfl
    rw [read, hlookup, Option.bind_some, hsame, ← hbv]
    rfl
  · rw [← hv]
    exact read_assignValue_of_ne hn value

/-- A call leaves a reference as it is, if it assigns nothing to the record. -/
theorem Exec.read_of_not_assigned {rj : RapidJson} {t : T} {m m' : Memory T} {pc pc' : Pc}
    (h : Exec rj t m pc m' pc') {member : DocumentMember} (hlive : (member.read m.data).isSome)
    (hassign : ∀ value, pc ≠ .setAssign member.record value ∧ pc ≠ .initialSetAssign member.record value) :
    member.read m'.data = member.read m.data := by
  have hthere : m.data.lookup member.record ≠ none := by
    intro hnone
    rw [DocumentMember.read, hnone] at hlive
    cases hlive
  cases h with
  | @getReads name => exact DocumentMember.read_congr ((sameValues_fetchAddReads m.data name).value member.record)
  | @setWrites name =>
    apply DocumentMember.read_congr
    show ((m.data.fetchAddWrites name).lookup member.record).map _ = _
    rw [DataCollection.lookup_fetchAddWrites]
    split
    · cases m.data.lookup member.record <;> rfl
    · rfl
  | @setEmplace name value | @initialSetEmplace name value =>
    -- a record that is there is not inserted
    apply DocumentMember.read_congr
    show ((m.data.emplace name _).lookup member.record).map _ = _
    rw [DataCollection.lookup_emplace, if_neg]
    rintro ⟨rfl, hnone⟩
    exact hthere hnone
  | @setAssign name value =>
    have hne : member.record ≠ name := by
      rintro rfl
      exact (hassign value).1 rfl
    exact DocumentMember.read_assignValue_of_ne hne value
  | @initialSetAssign name value =>
    have hne : member.record ≠ name := by
      rintro rfl
      exact (hassign value).2 rfl
    exact DocumentMember.read_assignValue_of_ne hne value
  | _ => rfl

/-- A point of another call leaves a reference as it is, if it is no assignment that touches its characters. -/
theorem Exec.read_kept {rj : RapidJson} {t : T} {m m' : Memory T} {pc pc' : Pc} (h : Exec rj t m pc m' pc')
    (hop : pc.op.AfterLoading) {member : DocumentMember} {v : JString} (hv : member.read m.data = some v)
    (hkeeps : ∀ value, pc = .setAssign member.record value → ∀ record,
      m.data.lookup member.record = some record → record.value.Keeps member.length value) :
    member.read m'.data = some v := by
  by_cases hassign : ∃ value, pc = .setAssign member.record value
  · obtain ⟨value, rfl⟩ := hassign
    cases h with
    | setAssign => exact DocumentMember.read_assignValue hv fun _ => hkeeps value rfl
  · push Not at hassign
    have hlive : (member.read m.data).isSome := by
      rw [hv]
      rfl
    rw [← hv]
    refine h.read_of_not_assigned hlive fun value => ⟨hassign value, ?_⟩
    rintro rfl
    exact hop

omit [Allocator] in
/-- A document does not look at read counters. -/
theorem Document.resolve_sameValues {data data' : DataCollection} (hs : SameValues data data') {document : Document}
    {records : List (JString × JString)} (h : document.resolve data = some records) :
    document.resolve data' = some records := by
  refine Document.resolve_mono (fun member _ v hv => ?_) h
  rw [← hv]
  exact DocumentMember.read_congr (hs.value member.record)

/-- The step of another thread does not disturb the call that saves. -/
theorem Pc.Saving.of_other {rj : RapidJson} {w : World T} {saver t : T} {c c' : Nat} {pc pc' pc₁ : Pc} {m' : Memory T}
    {data₁ : DataCollection} {order : List Bytes} (he : Exec rj t w.memory pc m' pc') (ht : w.thread t = .running c pc)
    (hsaver : w.thread saver = .running c' pc₁) (hne : saver ≠ t) (hl : w.LockAgrees)
    (hop : pc.op.AfterLoading) (hstore : pc.op ≠ .storeData) (hg : SaveUndisturbed saver w (.exec t c pc))
    (h : pc₁.Saving rj data₁ order w.memory.data w.memory.file) :
    pc₁.Saving rj data₁ order m'.data m'.file := by
  -- while the call holds the lock, strings do not change
  have hshared : pc₁.hold ≠ .none → SameValues w.memory.data m'.data := by
    intro hh
    apply he.sameValues hop
    intro hx
    have hnone := hl.alone (by rw [ht]; exact hx) hne
    rw [hsaver] at hnone
    exact hh hnone
  have hpending : ∀ document : Document, (∀ member ∈ document, member ∈ (w.thread saver).pending) →
      ∀ records, document.resolve w.memory.data = some records → document.resolve m'.data = some records := by
    intro document hmem records hd
    refine Document.resolve_mono (fun member hm v hv => he.read_kept hop hv ?_) hd
    rintro value rfl record hr
    exact hg.2 member (hmem member hm) rfl record hr
  unfold Pc.Saving at h ⊢
  split at h
  · obtain ⟨visited, ho, hn, hd, hsame⟩ := h
    have hs := hshared (by simp [Pc.hold])
    exact ⟨visited, ho, hn, Document.resolve_sameValues hs hd, fun name => (hs.value name).trans (hsame name)⟩
  · exact ⟨h.1, Document.resolve_sameValues (hshared (by simp [Pc.hold])) h.2⟩
  · exact ⟨h.1, hpending _ (fun member hm => by rw [hsaver]; exact hm) _ h.2⟩
  · obtain ⟨hn, records, hd, hw⟩ := h
    exact ⟨hn, records, hpending _ (fun member hm => by rw [hsaver]; exact hm) _ hd, hw⟩
  · exact ⟨h.1, (he.file_of_ne hstore).trans h.2⟩
  · exact h.elim

/-- The call `call` of `saver` is on its way to write the records of `data₁`. -/
structure World.Saves (rj : RapidJson) (saver : T) (call : Nat) (data₁ : DataCollection) (order : List Bytes)
    (w : World T) : Prop where
  lock : w.LockAgrees
  calls : w.Calls fun t op => op.AfterLoading ∧ (op = .storeData → t = saver)
  call_lt : call < w.calls
  saving : ∀ pc, w.thread saver = .running call pc → pc.Saving rj data₁ order w.memory.data w.memory.file

theorem Step.saves {rj : RapidJson} {saver : T} {call : Nat} {data₁ : DataCollection} {order : List Bytes}
    {w w' : World T} {l : Label T} (hs : Step rj w l w') (hg : SaveUndisturbed saver w l)
    (h : w.Saves rj saver call data₁ order) : w'.Saves rj saver call data₁ order where
  lock := hs.lockAgrees h.lock
  calls := hs.calls hg.1 h.calls
  call_lt := by
    have := h.call_lt
    cases hs with
    | invoke => exact Nat.lt_succ_of_lt this
    | exec | ret => exact this
  saving pc hpc := by
    by_cases hsaver : saver = l.thread
    · subst hsaver
      cases hs with
      | invoke op ht =>
        -- a new call has a new number
        simp only [Label.thread, Function.update_self, Thread.running.injEq] at hpc
        exact absurd h.call_lt (by rw [← hpc.1]; exact Nat.lt_irrefl _)
      | ret ht => simp [Label.thread] at hpc
      | exec ht he =>
        simp only [Label.thread, Function.update_self, Thread.running.injEq] at hpc
        obtain ⟨rfl, rfl⟩ := hpc
        exact he.saving (h.saving _ ht)
    · rw [hs.thread_of_ne hsaver] at hpc
      have hsaving := h.saving pc hpc
      cases hs with
      | invoke | ret => exact hsaving
      | @exec t c pc₀ pc₁ m' ht he =>
        have hop := h.calls t c pc₀ ht
        exact hsaving.of_other he ht hpc hsaver h.lock hop.1 (fun hs => hsaver (hop.2 hs).symm) hg

/-- From the state in which the enumeration begins to the one in which `store_data` returns. -/
theorem Run.saves {rj : RapidJson} {saver : T} {call n : Nat} {data₁ : DataCollection} {order : List Bytes}
    {w w' : World T} {ls : List (Label T)} (hrun : Run (Restrict (Step rj) (SaveUndisturbed saver)) w ls w')
    (h : w.Saves rj saver call data₁ order) (ho : data₁.IterationOrder order) (hshort : data₁.Short)
    (hret : w'.thread saver = .running call (.returning .storeData (.stored n))) :
    Snapshot rj data₁ w'.memory.file n := by
  have hsaves : w'.Saves rj saver call data₁ order :=
    Run.invariant (fun _ w => w.Saves rj saver call data₁ order) h (fun hi hs => hs.1.saves hs.2 hi) hrun
  obtain ⟨rfl, hfile⟩ := hsaves.saving _ hret
  rw [hfile]
  exact snapshot_documentRecords rj ho hshort

/-- In every run in which no assignment touches characters that the one saving thread still has to write, what
`store_data` leaves in the file when it returns are the records of the moment at which its enumeration began. -/
theorem snapshot_of_saveUndisturbed {rj : RapidJson} {saver : T} {call n : Nat} {engine : DataEngine}
    {file : Option Bytes} {ls₁ ls₂ : List (Label T)} {w₁ w₂ w : World T}
    (h₁ : Run (Restrict (Step rj) (SaveUndisturbed saver)) (World.start T engine file) ls₁ w₁)
    (hb : Restrict (Step rj) (SaveUndisturbed saver) w₁ (.exec saver call (.enumerateBegin (.addToDocument 0 []))) w₂)
    (h₂ : Run (Restrict (Step rj) (SaveUndisturbed saver)) w₂ ls₂ w)
    (hret : w.thread saver = .running call (.returning .storeData (.stored n))) :
    Snapshot rj w₁.memory.data w.memory.file n := by
  have hcalls : w₁.Calls fun t op => op.AfterLoading ∧ (op = .storeData → t = saver) :=
    Run.calls (fun _ _ hg => hg.1) h₁
  have hlock := Run.lockAgrees h₁.unrestrict
  have haccounts := Run.accounts h₁.unrestrict
  obtain ⟨hs, hg⟩ := hb
  have hlock₂ := hs.lockAgrees hlock
  have hcalls₂ := hs.calls hg.1 hcalls
  cases hs with
  | exec ht he =>
    cases he with
    | @enumerateBegin _ order ho =>
      have hlt : call < w₁.calls := haccounts.call_lt _ (haccounts.invoked _ _ _ ht)
      refine Run.saves h₂ ⟨hlock₂, hcalls₂, hlt, fun pc hpc => ?_⟩ ho hg.2 hret
      have hnext : Thread.running call (.enumerateNext (.addToDocument 0 []) order) = .running call pc :=
        (Function.update_self ..).symm.trans hpc
      cases hnext
      exact ⟨[], rfl, rfl, rfl, fun _ => rfl⟩

end Saving

section Runs

attribute [local instance] Allocator.exact

/-- Any thread may set records, and `saver` may store data. -/
def SetsAndSaves {T : Type} (saver t : T) : Op → Prop
  | .set _ _ => True
  | .storeData => t = saver
  | _ => False

/-- A shorter value is assigned between the enumeration and the write: the file gets its bytes, its terminator
included, which no record ever held. -/
theorem save_mixes : ∃ (ls₁ ls₂ : List (Label Bool)) (w₁ w₂ w : World Bool) (call n : Nat),
    Run (Restrict (Step JsonText.library) fun _ l => l.Calls (SetsAndSaves false))
      (World.start Bool (.load [(ascii "a", ascii "ab")]) none) ls₁ w₁ ∧
    Step JsonText.library w₁ (.exec false call (.enumerateBegin (.addToDocument 0 []))) w₂ ∧
    Run (Restrict (Step JsonText.library) fun _ l => l.Calls (SetsAndSaves false)) w₂ ls₂ w ∧
    w.thread false = .running call (.returning .storeData (.stored n)) ∧
    w.memory.file = some (ascii "\x7b\"a\":\"c\\u0000\"\x7d") ∧
    ¬ Snapshot JsonText.library w₁.memory.data w.memory.file n := by
  have h₀ : Run (Restrict (Step JsonText.library) fun _ l => l.Calls (SetsAndSaves false))
      (World.start Bool (.load [(ascii "a", ascii "ab")]) none) [] _ := .nil
  have h₁ := h₀.snoc ⟨.invoke (t := false) .storeData rfl, rfl⟩
  have h₂ := h₁.snoc ⟨.exec (t := false) rfl (.enumerateLock rfl), trivial⟩
  have horder : (DataEngine.load [(ascii "a", ascii "ab")]).data.IterationOrder [ascii "a"] :=
    DataCollection.iterationOrder_iff.2 (by decide)
  have h₃ := h₂.through ⟨.exec (t := false) rfl (.enumerateBegin horder), trivial⟩
  have h₄ := h₃.snoc ⟨.exec (t := false) rfl (.enumerateNext rfl), trivial⟩
  have h₅ := h₄.snoc ⟨.exec (t := false) rfl .enumerateEnd, trivial⟩
  have h₆ := h₅.snoc ⟨.exec (t := false) rfl .enumerateStore, trivial⟩
  -- the `set` runs from here on
  have h₇ := h₆.snoc ⟨.invoke (t := true) (.set (ascii "a") (ascii "c")) rfl, trivial⟩
  have h₈ := h₇.snoc ⟨.exec (t := true) rfl (.setLock rfl), trivial⟩
  have h₉ := h₈.snoc ⟨.exec (t := true) rfl (.setFindHit rfl), trivial⟩
  have h₁₀ := h₉.snoc ⟨.exec (t := true) rfl .setWrites, trivial⟩
  have h₁₁ := h₁₀.snoc ⟨.exec (t := true) rfl .setAssign, trivial⟩
  have h₁₂ := h₁₁.snoc ⟨.exec (t := true) rfl .setGlobal, trivial⟩
  have h₁₃ := h₁₂.snoc ⟨.exec (t := true) rfl .setUnlock, trivial⟩
  have h₁₄ := h₁₃.snoc ⟨.ret (t := true) rfl, trivial⟩
  have h₁₅ := h₁₄.snoc ⟨.exec (t := false) rfl .saveOpen, trivial⟩
  have h₁₆ := h₁₅.snoc ⟨.exec (t := false) rfl (.saveMember fun v hv =>
    Option.some.inj (show some (.ref (ascii "c" ++ [0])) = some v from hv)), trivial⟩
  have h₁₇ := h₁₆.snoc ⟨.exec (t := false) rfl .saveClose, trivial⟩
  refine ⟨_, _, _, _, _, _, _, h₂, h₃.via.1, h₁₇.behind, rfl, by decide, ?_⟩
  rintro ⟨records, hfile, -, -, hrecords⟩
  obtain rfl := JsonText.parsesOwnText.injective (Option.some.inj hfile)
  have hheld := (hrecords (ascii "a") (ascii "c" ++ [0])).1 ⟨_, List.mem_singleton_self _, rfl, rfl⟩
  exact absurd hheld (by decide)

/-- The same run with an assignment of a value that begins like the one enumerated and still fits. -/
theorem save_keeps : ∃ (ls₁ ls₂ : List (Label Bool)) (w₁ w₂ w : World Bool) (call n : Nat),
    Run (Restrict (Step JsonText.library) (SaveUndisturbed false))
      (World.start Bool (.load [(ascii "a", ascii "abc"), (ascii "a", ascii "ab")]) none) ls₁ w₁ ∧
    Step JsonText.library w₁ (.exec false call (.enumerateBegin (.addToDocument 0 []))) w₂ ∧
    Run (Restrict (Step JsonText.library) (SaveUndisturbed false)) w₂ ls₂ w ∧
    w.memory.data.valueOf (ascii "a") = some (ascii "abd") ∧
    w.memory.file = some (ascii "\x7b\"a\":\"ab\"\x7d") ∧
    Snapshot JsonText.library w₁.memory.data w.memory.file n := by
  have h₀ : Run (Restrict (Step JsonText.library) (SaveUndisturbed false))
      (World.start Bool (.load [(ascii "a", ascii "abc"), (ascii "a", ascii "ab")]) none) [] _ := .nil
  have h₁ := h₀.snoc ⟨.invoke (t := false) .storeData rfl, ⟨trivial, fun _ => rfl⟩, trivial⟩
  have h₂ := h₁.snoc ⟨.exec (t := false) rfl (.enumerateLock rfl), trivial, trivial⟩
  have horder : (DataEngine.load [(ascii "a", ascii "abc"), (ascii "a", ascii "ab")]).data.IterationOrder [ascii "a"] :=
    DataCollection.iterationOrder_iff.2 (by decide)
  have hshort : (DataEngine.load [(ascii "a", ascii "abc"), (ascii "a", ascii "ab")]).data.Short := by decide
  have h₃ := h₂.through ⟨.exec (t := false) rfl (.enumerateBegin horder), trivial, hshort⟩
  have h₄ := h₃.snoc ⟨.exec (t := false) rfl (.enumerateNext rfl), trivial, trivial⟩
  have h₅ := h₄.snoc ⟨.exec (t := false) rfl .enumerateEnd, trivial, trivial⟩
  have h₆ := h₅.snoc ⟨.exec (t := false) rfl .enumerateStore, trivial, trivial⟩
  have h₇ := h₆.snoc ⟨.invoke (t := true) (.set (ascii "a") (ascii "abd")) rfl, ⟨trivial, nofun⟩, trivial⟩
  have h₈ := h₇.snoc ⟨.exec (t := true) rfl (.setLock rfl), trivial, trivial⟩
  have h₉ := h₈.snoc ⟨.exec (t := true) rfl (.setFindHit rfl), trivial, trivial⟩
  have h₁₀ := h₉.snoc ⟨.exec (t := true) rfl .setWrites, trivial, trivial⟩
  have h₁₁ := h₁₀.snoc ⟨.exec (t := true) rfl .setAssign, trivial, by
    intro member hm _ record hr
    obtain rfl := List.mem_singleton.1 hm
    cases hr
    exact ⟨by decide, by decide⟩⟩
  have h₁₂ := h₁₁.snoc ⟨.exec (t := true) rfl .setGlobal, trivial, trivial⟩
  have h₁₃ := h₁₂.snoc ⟨.exec (t := true) rfl .setUnlock, trivial, trivial⟩
  have h₁₄ := h₁₃.snoc ⟨.ret (t := true) rfl, trivial, trivial⟩
  have h₁₅ := h₁₄.snoc ⟨.exec (t := false) rfl .saveOpen, trivial, trivial⟩
  have h₁₆ := h₁₅.snoc ⟨.exec (t := false) rfl (.saveMember fun v hv =>
    Option.some.inj (show some (.ref (ascii "ab")) = some v from hv)), trivial, trivial⟩
  have h₁₇ := h₁₆.snoc ⟨.exec (t := false) rfl .saveClose, trivial, trivial⟩
  exact ⟨_, _, _, _, _, _, _, h₂, h₃.via.1, h₁₇.behind, by decide, by decide,
    snapshot_of_saveUndisturbed h₂ h₃.via h₁₇.behind rfl⟩

end Runs

end KeyValueServer
