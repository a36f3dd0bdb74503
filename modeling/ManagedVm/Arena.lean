/-!
# Byte arenas

An arena is a run of bytes, all zero until written. Only the bytes up to the highest one ever
written are stored: the rest of the run is zero and costs nothing, so making an arena larger changes
its size alone. Everything an arena means is said by `Arena.byte`; the laws below give the byte at
each place after each operation.

Ranges are not checked here. The heap and the frame stack do that, each by its own rule.
-/

namespace ManagedVm

-- Bytes are compared by core's test, whatever other one is in scope.
local instance (priority := 10000) compareBytes : DecidableEq ByteArray := ByteArray.instDecidableEq

/-- A run of `size` bytes. -/
structure Arena where
  size : Nat
  /-- The stored bytes; those behind them are zero. -/
  stored : ByteArray
  deriving DecidableEq, Inhabited

namespace Arena

/-! ## Stored bytes -/

/-- The byte at a place, zero behind the stored ones. -/
def byteAt (stored : ByteArray) (i : Nat) : UInt8 := if h : i < stored.size then stored[i] else 0

/-- Appends zeros. -/
def pad (stored : ByteArray) : (count : Nat) → ByteArray
  | 0 => stored
  | count + 1 => pad (stored.push 0) count

/-- Sets one byte, storing zeros up to it first if needed. -/
def put (stored : ByteArray) (i : Nat) (b : UInt8) : ByteArray :=
  if h : i < stored.size then stored.set i b h else (pad stored (i - stored.size)).push b

/-- Sets a run of bytes. -/
def putAll (stored : ByteArray) (i : Nat) : List UInt8 → ByteArray
  | [] => stored
  | b :: bs => putAll (put stored i b) (i + 1) bs

/-- Sets `count` bytes to zero; there is nothing to do behind the stored ones. -/
def wipe (stored : ByteArray) (i : Nat) : (count : Nat) → ByteArray
  | 0 => stored
  | count + 1 => if h : i < stored.size then wipe (stored.set i 0 h) (i + 1) count else stored

/-- The bytes from a place on, last first, before those already read. -/
def readOnto (stored : ByteArray) (start : Nat) : (count : Nat) → List UInt8 → List UInt8
  | 0, read => read
  | count + 1, read => readOnto stored start count (byteAt stored (start + count) :: read)

/-! ## Operations -/

/-- An arena of zeros. -/
def zeroed (size : Nat) : Arena := ⟨size, .empty⟩

/-- The byte at a place. -/
def byte (a : Arena) (i : Nat) : UInt8 := byteAt a.stored i

/-- The `count` bytes from a place on. -/
def read (a : Arena) (start count : Nat) : List UInt8 := readOnto a.stored start count []

/-- Writes a run of bytes. -/
def write (a : Arena) (start : Nat) (bytes : List UInt8) : Arena :=
  { a with stored := putAll a.stored start bytes }

/-- Sets the bytes from `start` up to `stop` to zero. -/
def clear (a : Arena) (start stop : Nat) : Arena :=
  { a with stored := wipe a.stored start (stop - start) }

/-- The arena with another size. -/
def resize (a : Arena) (size : Nat) : Arena := { a with size }

/-! ## What the operations do to each byte -/

@[simp] theorem byte_zeroed (size i : Nat) : (zeroed size).byte i = 0 := by
  simp [zeroed, byte, byteAt]

@[simp] theorem byte_resize (a : Arena) (size i : Nat) : (a.resize size).byte i = a.byte i := rfl

theorem byteAt_eq (stored : ByteArray) (i : Nat) :
    byteAt stored i = (stored.data[i]?).getD 0 := by
  unfold byteAt
  by_cases lt : i < stored.size
  · rw [dif_pos lt, getElem?_pos stored.data i lt]
    rfl
  · rw [dif_neg lt, getElem?_neg stored.data i lt]
    rfl

theorem byteAt_push (stored : ByteArray) (b : UInt8) (i : Nat) :
    byteAt (stored.push b) i = if i = stored.size then b else byteAt stored i := by
  have data : (stored.push b).data = stored.data.push b := rfl
  have size : stored.size = stored.data.size := rfl
  rw [byteAt_eq, byteAt_eq, data, Array.getElem?_push, size]
  split <;> rfl

theorem byteAt_push_zero (stored : ByteArray) (i : Nat) :
    byteAt (stored.push 0) i = byteAt stored i := by
  rw [byteAt_push]
  split
  · rw [byteAt, dif_neg (by omega)]
  · rfl

theorem byteAt_pad (stored : ByteArray) (count i : Nat) :
    byteAt (pad stored count) i = byteAt stored i := by
  induction count generalizing stored with
  | zero => rfl
  | succ count ih => rw [pad, ih, byteAt_push_zero]

theorem size_pad (stored : ByteArray) (count : Nat) :
    (pad stored count).size = stored.size + count := by
  induction count generalizing stored with
  | zero => rfl
  | succ count ih =>
    rw [pad, ih, ByteArray.size_push]
    omega

theorem byteAt_put (stored : ByteArray) (i j : Nat) (b : UInt8) :
    byteAt (put stored i b) j = if j = i then b else byteAt stored j := by
  unfold put
  by_cases lt : i < stored.size
  · have data : (stored.set i b lt).data = stored.data.set i b lt := rfl
    rw [dif_pos lt, byteAt_eq, byteAt_eq, data, Array.getElem?_set]
    by_cases eq : j = i
    · rw [if_pos eq.symm, if_pos eq]
      rfl
    · rw [if_neg (Ne.symm eq), if_neg eq]
  · have size : (pad stored (i - stored.size)).size = i := by
      rw [size_pad]
      omega
    rw [dif_neg lt, byteAt_push, size, byteAt_pad]

theorem byteAt_putAll (stored : ByteArray) (i j : Nat) (bytes : List UInt8) :
    byteAt (putAll stored i bytes) j =
      if i ≤ j then (bytes[j - i]?).getD (byteAt stored j) else byteAt stored j := by
  induction bytes generalizing stored i with
  | nil => simp [putAll]
  | cons b bs ih =>
    rw [putAll, ih, byteAt_put]
    rcases Nat.lt_trichotomy j i with lt | eq | gt
    · rw [if_neg (by omega), if_neg (by omega), if_neg (by omega)]
    · subst eq
      rw [if_neg (by omega), if_pos rfl, if_pos (by omega)]
      simp
    · obtain ⟨k, rfl⟩ : ∃ k, j = i + 1 + k := ⟨j - (i + 1), by omega⟩
      rw [if_pos (by omega), if_neg (by omega), if_pos (by omega)]
      simp [show i + 1 + k - i = k + 1 by omega, show i + 1 + k - (i + 1) = k by omega]

/-- A write sets the bytes it covers and no other. -/
theorem byte_write (a : Arena) (start i : Nat) (bytes : List UInt8) :
    (a.write start bytes).byte i =
      if start ≤ i then (bytes[i - start]?).getD (a.byte i) else a.byte i :=
  byteAt_putAll a.stored start i bytes

theorem byteAt_wipe (stored : ByteArray) (i count j : Nat) :
    byteAt (wipe stored i count) j = if i ≤ j ∧ j < i + count then 0 else byteAt stored j := by
  induction count generalizing stored i with
  | zero =>
    rw [wipe, if_neg (by omega)]
  | succ count ih =>
    rw [wipe]
    by_cases lt : i < stored.size
    · have set_eq : stored.set i 0 lt = put stored i 0 := by rw [put, dif_pos lt]
      rw [dif_pos lt, ih, set_eq, byteAt_put]
      by_cases inside : i ≤ j ∧ j < i + (count + 1)
      · rw [if_pos inside]
        by_cases eq : j = i
        · simp [eq]
        · rw [if_pos (by omega)]
      · rw [if_neg inside, if_neg (by omega), if_neg (by omega)]
    · rw [dif_neg lt]
      split
      · rw [byteAt, dif_neg (by omega)]
      · rfl

/-- Clearing sets the bytes between its ends to zero and changes no other. -/
theorem byte_clear (a : Arena) (start stop i : Nat) :
    (a.clear start stop).byte i = if start ≤ i ∧ i < stop then 0 else a.byte i := by
  show byteAt (wipe a.stored start (stop - start)) i = _
  rw [byteAt_wipe]
  by_cases inside : start ≤ i ∧ i < stop
  · rw [if_pos inside, if_pos (by omega)]
  · rw [if_neg inside, if_neg (by omega)]
    rfl

theorem readOnto_eq (stored : ByteArray) (start count : Nat) (read : List UInt8) :
    readOnto stored start count read =
      (List.range' start count).map (byteAt stored) ++ read := by
  induction count generalizing read with
  | zero => rfl
  | succ count ih => rw [readOnto, ih, List.range'_concat]; simp

/-- Reading gives the bytes of the range in order. -/
theorem read_eq_map (a : Arena) (start count : Nat) :
    a.read start count = (List.range' start count).map a.byte := by
  rw [read, readOnto_eq, List.append_nil]
  rfl

@[simp] theorem length_read (a : Arena) (start count : Nat) :
    (a.read start count).length = count := by
  simp [read_eq_map]

end Arena

end ManagedVm
