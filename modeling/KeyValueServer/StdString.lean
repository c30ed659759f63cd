import KeyValueServer.RapidJson

/-!
# `std::string` as storage

`StdString` is a string object with the storage behind it: the allocated bytes, of which the first `size` are the
value and the next one is the terminating NUL, and the number of times the storage has been replaced (`epoch`).
An assignment that fits the capacity overwrites the value and the terminator in place and leaves the bytes behind
them; a longer one moves to new storage.  How much is allocated beyond the value is up to the standard library
(`Allocator`).

A pointer into the storage is good as long as the epoch is the one at which it was taken, and shows whatever
bytes are there when it is used (`StdString.read`).
-/

namespace KeyValueServer

/-- The bytes allocated beyond a value of `size` bytes, when the old capacity is `oldCapacity`. -/
class Allocator where
  spare (oldCapacity size : Nat) : Nat

/-- Nothing is allocated beyond the value. -/
@[reducible] def Allocator.exact : Allocator where
  spare _ _ := 0

@[ext] structure StdString where
  storage : Bytes
  size : Nat
  epoch : Nat
  terminated : storage[size]? = some 0
  deriving DecidableEq

namespace StdString

theorem size_lt (s : StdString) : s.size < s.storage.length :=
  (List.getElem?_eq_some_iff.1 s.terminated).1

def capacity (s : StdString) : Nat := s.storage.length - 1

/-- The bytes of the string: `data()` and `size()`. -/
def value (s : StdString) : Bytes := s.storage.take s.size

@[simp] theorem length_value (s : StdString) : s.value.length = s.size := by
  have := s.size_lt
  simp [value]
  omega

variable [Allocator]

/-- Fresh storage for `v`. -/
def allocated (v : Bytes) (oldCapacity epoch : Nat) : StdString where
  storage := v ++ 0 :: List.replicate (Allocator.spare oldCapacity v.length) 0
  size := v.length
  epoch := epoch
  terminated := by simp

/-- `std::string(v)`. -/
def ofBytes (v : Bytes) : StdString := allocated v 0 0

/-- `s = v`. -/
def assign (s : StdString) (v : Bytes) : StdString :=
  if v.length ≤ s.capacity then
    { storage := v ++ 0 :: s.storage.drop (v.length + 1)
      size := v.length
      epoch := s.epoch
      terminated := by simp }
  else allocated v s.capacity (s.epoch + 1)

@[simp] theorem value_allocated (v : Bytes) (c e : Nat) : (allocated v c e).value = v := by
  simp [value, allocated]

@[simp] theorem value_ofBytes (v : Bytes) : (ofBytes v).value = v := value_allocated v 0 0

@[simp] theorem value_assign (s : StdString) (v : Bytes) : (s.assign v).value = v := by
  unfold assign
  split
  · simp [value]
  · exact value_allocated _ _ _

/-- What a pointer taken at `epoch` shows of the first `length` bytes; `none` when the storage is gone. -/
def read (s : StdString) (epoch length : Nat) : Option Bytes :=
  if s.epoch = epoch then some (s.storage.take length) else none

/-- The assignment of `v` leaves the first `length` bytes of the storage as they are: it stays in place, and
`v` with its terminator, cut to `length` bytes, is what the storage begins with already. -/
def Keeps (s : StdString) (length : Nat) (v : Bytes) : Prop :=
  v.length ≤ s.capacity ∧ (v ++ [0]).take length <+: s.storage

theorem storage_assign {s : StdString} {v : Bytes} (h : v.length ≤ s.capacity) :
    (s.assign v).storage = (v ++ [0]) ++ s.storage.drop (v.length + 1) ∧ (s.assign v).epoch = s.epoch := by
  simp [assign, h]

theorem epoch_assign_of_lt {s : StdString} {v : Bytes} (h : s.capacity < v.length) :
    (s.assign v).epoch = s.epoch + 1 := by
  simp [assign, Nat.not_le.2 h, allocated]

/-- A pointer taken at the current epoch shows the same bytes after an assignment exactly when the assignment
keeps them. -/
theorem read_assign_iff {s : StdString} {length : Nat} {v : Bytes} :
    (s.assign v).read s.epoch length = s.read s.epoch length ↔ s.Keeps length v := by
  by_cases hv : v.length ≤ s.capacity
  · obtain ⟨hs, he⟩ := storage_assign hv
    simp only [read, he, ↓reduceIte, Option.some.injEq, hs, Keeps, hv, true_and]
    constructor
    · intro h
      have hp : (v ++ [0]).take length <+: ((v ++ [0]) ++ s.storage.drop (v.length + 1)).take length :=
        (List.prefix_append _ _).take length
      rw [h] at hp
      exact hp.trans (List.take_prefix _ _)
    · intro hp
      have htake := List.prefix_iff_eq_take.1 hp
      by_cases hle : length ≤ v.length + 1
      · -- only `v` and its terminator are shown
        have hz : length - (v ++ [0]).length = 0 := by simp; omega
        have hlen : ((v ++ [0]).take length).length = length := by simp; omega
        rw [List.take_append, hz, List.take_zero, List.append_nil]
        rwa [hlen] at htake
      · -- the bytes behind the terminator are untouched
        have hfull : (v ++ [0]).take length = v ++ [0] := List.take_of_length_le (by simp; omega)
        rw [hfull] at htake
        have hsame : (v ++ [0]) ++ s.storage.drop (v.length + 1) = s.storage := by
          rw [htake]
          simp
        rw [hsame]
  · constructor
    · intro h
      simp [read, epoch_assign_of_lt (Nat.lt_of_not_le hv)] at h
    · intro h
      exact absurd h.1 hv

end StdString

end KeyValueServer
