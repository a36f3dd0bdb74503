import ManagedVm.Arena

/-!
# Reading an arena

What is read depends on the bytes of the range alone, and a write is read back.
-/

namespace ManagedVm.Arena

variable {a a' : Arena} {start count : Nat}

theorem read_congr (h : ∀ i, start ≤ i → i < start + count → a'.byte i = a.byte i) :
    a'.read start count = a.read start count := by
  rw [read_eq_map, read_eq_map]
  apply List.map_congr_left
  intro i hi
  obtain ⟨hstart, hstop⟩ := List.mem_range'_1.mp hi
  exact h i hstart hstop

/-- What is written is read. -/
theorem read_write (a : Arena) (start : Nat) (bytes : List UInt8) :
    (a.write start bytes).read start bytes.length = bytes := by
  apply List.ext_getElem
  · exact length_read _ _ _
  · intro i hi hbytes
    have hread : (a.write start bytes).read start bytes.length =
        (List.range' start bytes.length).map (a.write start bytes).byte := read_eq_map _ _ _
    simp only [hread, List.getElem_map, List.getElem_range', byte_write]
    rw [if_pos (by omega), show start + 1 * i - start = i by omega,
      List.getElem?_eq_getElem hbytes]
    rfl

theorem byte_write_of_lt {i : Nat} (h : i < start) (bytes : List UInt8) :
    (a.write start bytes).byte i = a.byte i := by
  rw [byte_write, if_neg (by omega)]

theorem byte_write_of_le {i : Nat} {bytes : List UInt8} (h : start + bytes.length ≤ i) :
    (a.write start bytes).byte i = a.byte i := by
  rw [byte_write, if_pos (by omega), List.getElem?_eq_none (by omega)]
  rfl

theorem read_eq_zero (h : ∀ i, start ≤ i → i < start + count → a.byte i = 0) :
    a.read start count = List.replicate count 0 := by
  rw [read_eq_map, List.eq_replicate_iff]
  refine ⟨by simp, ?_⟩
  intro b hb
  obtain ⟨i, hi, rfl⟩ := List.mem_map.mp hb
  obtain ⟨hstart, hstop⟩ := List.mem_range'_1.mp hi
  exact h i hstart hstop

theorem read_add (a : Arena) (start m n : Nat) :
    a.read start (m + n) = a.read start m ++ a.read (start + m) n := by
  simp only [read_eq_map, ← List.map_append, List.range'_append_1]

/-- A part of what is read. -/
theorem take_drop_read {place length : Nat} (h : place + length ≤ count) :
    ((a.read start count).drop place).take length = a.read (start + place) length := by
  obtain ⟨rest, rfl⟩ := Nat.exists_eq_add_of_le h
  rw [Nat.add_assoc, read_add, List.drop_left' (length_read _ _ _), read_add,
    List.take_left' (length_read _ _ _)]

/-- A write inside what is read changes the bytes it covers. -/
theorem read_write_inside {place : Nat} {data : List UInt8} (h : place + data.length ≤ count) :
    (a.write (start + place) data).read start count =
      (a.read start count).take place ++ data ++ (a.read start count).drop (place + data.length) := by
  obtain ⟨rest, rfl⟩ := Nat.exists_eq_add_of_le h
  have hbefore : (a.write (start + place) data).read start place = a.read start place := by
    apply read_congr
    intro i _ hi
    exact byte_write_of_lt hi data
  have hbehind : (a.write (start + place) data).read (start + place + data.length) rest =
      a.read (start + place + data.length) rest := by
    apply read_congr
    intro i hi _
    exact byte_write_of_le hi
  have htake : (a.read start (place + data.length + rest)).take place = a.read start place := by
    rw [Nat.add_assoc, read_add, List.take_left' (length_read _ _ _)]
  have hdrop : (a.read start (place + data.length + rest)).drop (place + data.length) =
      a.read (start + place + data.length) rest := by
    rw [read_add, List.drop_left' (length_read _ _ _), Nat.add_assoc start]
  rw [htake, hdrop, read_add, read_add, hbefore, read_write, ← Nat.add_assoc start, hbehind]

end ManagedVm.Arena
