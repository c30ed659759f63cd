import Mathlib.Data.List.Basic

/-!
# Messages in a stream

A stream carries messages one after the other: each is a head, which a reader recognizes at the front of a stream, and a
body behind it.  The reader knows for each message what it has asked for, and it takes from this and from the head how
long the body is.  It reads the messages back if and only if every body is as long as that
(`readAll_writeAll_iff`); otherwise it takes a part of a body for a head, or a part of a head for a body.
-/

namespace Text

/-- How heads are written, and how they are read from the front of a stream.  Only some heads can be written. -/
structure HeadFormat (Head : Type) where
  Valid : Head → Prop
  write : Head → List UInt8
  read : List UInt8 → Option (Head × List UInt8)
  read_write : ∀ head rest, Valid head → read (write head ++ rest) = some (head, rest)

namespace HeadFormat

variable {Head Query : Type} (format : HeadFormat Head)

def writeAll (messages : List (Head × List UInt8)) : List UInt8 := messages.flatMap fun m => format.write m.1 ++ m.2

/-- One message for each query, and nothing may be left of the stream. -/
def readAll (bodyLength : Query → Head → Option Nat) : List Query → List UInt8 → Option (List (Head × List UInt8))
  | [], stream => if stream = [] then some [] else none
  | query :: queries, stream => do
    let (head, rest) ← format.read stream
    let length ← bodyLength query head
    if rest.length < length then none
    else
      let messages ← readAll bodyLength queries (rest.drop length)
      return (head, rest.take length) :: messages

/-- The body has the length that the reader expects. -/
def Framed (bodyLength : Query → Head → Option Nat) (query : Query) (message : Head × List UInt8) : Prop :=
  bodyLength query message.1 = some message.2.length

variable {format} {bodyLength : Query → Head → Option Nat}

/-- What is read has the lengths that the reader expects, whatever the stream is. -/
theorem framed_of_readAll {queries : List Query} {stream : List UInt8} {messages : List (Head × List UInt8)}
    (h : format.readAll bodyLength queries stream = some messages) :
    List.Forall₂ (Framed bodyLength) queries messages := by
  induction queries generalizing stream messages with
  | nil =>
    rw [readAll] at h
    split at h
    · obtain rfl := Option.some.inj h
      exact .nil
    · cases h
  | cons query queries ih =>
    rw [readAll] at h
    obtain ⟨⟨head, rest⟩, -, h⟩ := Option.bind_eq_some_iff.1 h
    obtain ⟨length, hlength, h⟩ := Option.bind_eq_some_iff.1 h
    split at h
    · cases h
    · rename_i hle
      obtain ⟨tail, htail, h⟩ := Option.bind_eq_some_iff.1 h
      obtain rfl := Option.some.inj h
      refine .cons ?_ (ih htail)
      rw [Framed, hlength, List.length_take, Nat.min_eq_left (Nat.le_of_not_lt hle)]

theorem readAll_writeAll {queries : List Query} {messages : List (Head × List UInt8)}
    (hvalid : ∀ m ∈ messages, format.Valid m.1) (h : List.Forall₂ (Framed bodyLength) queries messages) :
    format.readAll bodyLength queries (format.writeAll messages) = some messages := by
  induction h with
  | nil => rfl
  | @cons query m queries messages hframed _ ih =>
    have hrest := ih fun m hm => hvalid m (List.mem_cons_of_mem _ hm)
    have hread := format.read_write m.1 (m.2 ++ format.writeAll messages) (hvalid m List.mem_cons_self)
    rw [Framed] at hframed
    have hnot : ¬ (m.2 ++ format.writeAll messages).length < m.2.length := by
      rw [List.length_append]
      omega
    rw [writeAll, List.flatMap_cons, List.append_assoc, ← writeAll, readAll, hread]
    simp only [Option.bind_eq_bind, Option.bind_some, hframed, if_neg hnot, List.drop_left, List.take_left, hrest]
    rfl

/-- The messages are read back if and only if the reader knows the length of every body. -/
theorem readAll_writeAll_iff {queries : List Query} {messages : List (Head × List UInt8)}
    (hvalid : ∀ m ∈ messages, format.Valid m.1) :
    format.readAll bodyLength queries (format.writeAll messages) = some messages ↔
      List.Forall₂ (Framed bodyLength) queries messages :=
  ⟨framed_of_readAll, readAll_writeAll hvalid⟩

end HeadFormat

end Text
