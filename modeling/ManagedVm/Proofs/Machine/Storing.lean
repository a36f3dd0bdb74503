import ManagedVm.Machine.Memory
import ManagedVm.Proofs.Heap.Invariant
import ManagedVm.Proofs.Machine.Exec
import ManagedVm.Proofs.Stack.Frames
import ManagedVm.Proofs.Types.Acceptance

/-!
# Storing and reading back

Reading and writing ask the same of a range of bytes (`Accessible`), whichever arena it lies in, and a
write asks before it changes anything. So a store puts the bytes that its value had into the slot, or
changes nothing, and the slot gives a value with these bytes (`readsBack_store`). Where the value's own
bytes were does not matter, for they are read before any is written.

To load from the slot is to copy it to scratch. The scratch may be the slot itself: bytes of the frame
that were not handed out can be written through an address. They are not cleared when they are handed
out; only the bytes behind the end of the frame are, and no slot reaches there.
-/

namespace ManagedVm

theorem Address.ofBytes?_toBytes (a : Address) : ofBytes? a.toBytes = some a := by
  have hlength : a.toBytes.length = slotSize := LittleEndian.length_encode _ _
  have hfits : a.raw.toNat < 256 ^ slotSize := a.raw.toNat_lt
  have hdecode : LittleEndian.decode (a.toBytes.take slotSize) = a.raw.toNat := by
    unfold toBytes
    rw [LittleEndian.take_encode, LittleEndian.decode_encode, Nat.mod_eq_of_lt hfits]
  unfold ofBytes?
  rw [if_neg (by omega), hdecode]
  exact congrArg (fun raw => some (Address.mk raw)) UInt64.ofNat_toNat

/-! ## Bytes of either arena -/

namespace Machine

/-- The byte at a place of an arena. -/
def byteAt (m : Machine) : Space → Nat → UInt8
  | .heap, i => m.heap.arena.byte i
  | .stack, i => m.stack.arena.byte i

/-- **The bytes may be read and written**: the address is not null, and they lie in the part of its
arena that is in use. -/
def Accessible (m : Machine) (a : Address) (length : Nat) : Prop :=
  a.isNull = false ∧ (m.heap.inRange a length = true ∨ m.stack.inRange a length = true)

/-- The bytes from an address on. -/
def bytesAt (m : Machine) (a : Address) (length : Nat) : List UInt8 :=
  (List.range' a.offset length).map (m.byteAt a.space)

/-- The machine with bytes written from an address on. -/
def poked (m : Machine) (a : Address) (data : List UInt8) : Machine :=
  match a.space with
  | .heap => { m with heap := m.heap.poke a data }
  | .stack => { m with stack := m.stack.poke a data }

variable {m : Machine} {a : Address} {length : Nat} {data : List UInt8}

theorem space_of_inRange_heap (h : m.heap.inRange a length = true) : a.space = .heap :=
  (Heap.inRange_iff.mp h).1

theorem space_of_inRange_stack (h : m.stack.inRange a length = true) : a.space = .stack :=
  (FrameStack.inRange_iff.mp h).1

/-- **Reading gives the bytes that may be read.** -/
theorem read_of_accessible (h : m.Accessible a length) : m.read a length = .ok (m.bytesAt a length) := by
  obtain ⟨hnull, hrange | hrange⟩ := h
  · have hspace := space_of_inRange_heap hrange
    unfold read bytesAt Heap.bytes
    rw [if_neg (by simp [hnull]), hspace, if_pos hrange, Arena.read_eq_map]
    rfl
  · have hspace := space_of_inRange_stack hrange
    unfold read bytesAt FrameStack.bytes
    rw [if_neg (by simp [hnull]), hspace, if_pos hrange, Arena.read_eq_map]
    rfl

/-- What was read may be read. -/
theorem accessible_of_read (h : m.read a length = .ok data) :
    m.Accessible a length ∧ data = m.bytesAt a length := by
  have haccessible : m.Accessible a length := by
    unfold read at h
    split at h
    · cases h
    · rename_i hnull
      refine ⟨by simpa using hnull, ?_⟩
      split at h
      · have hheap := except_mapError_ok.mp h
        unfold Heap.bytes at hheap
        split at hheap
        · rename_i hrange
          exact .inl hrange
        · cases hheap
      · unfold FrameStack.bytes at h
        split at h
        · rename_i hrange
          exact .inr hrange
        · cases h
  exact ⟨haccessible, Except.ok.inj (h.symm.trans (read_of_accessible haccessible))⟩

@[simp] theorem length_bytesAt : (m.bytesAt a length).length = length := by simp [bytesAt]

@[simp] theorem types_poked : (m.poked a data).types = m.types := by
  unfold poked
  split <;> rfl

@[simp] theorem descriptor_poked : (m.poked a data).descriptor = m.descriptor := by
  unfold descriptor
  rw [types_poked]

/-- A write sets the bytes it covers and no other. -/
theorem byteAt_poked (space : Space) (i : Nat) :
    (m.poked a data).byteAt space i =
      if space = a.space ∧ a.offset ≤ i then (data[i - a.offset]?).getD (m.byteAt space i)
      else m.byteAt space i := by
  unfold poked
  cases a.space with
  | heap =>
    cases space with
    | heap => simpa [byteAt, Heap.poke] using Arena.byte_write m.heap.arena a.offset i data
    | stack => simp [byteAt]
  | stack =>
    cases space with
    | heap => simp [byteAt]
    | stack => simpa [byteAt, FrameStack.poke] using Arena.byte_write m.stack.arena a.offset i data

/-- What is written is read. -/
theorem bytesAt_poked : (m.poked a data).bytesAt a data.length = data := by
  apply List.ext_getElem
  · exact length_bytesAt
  · intro i hi hdata
    simp only [bytesAt, List.getElem_map, List.getElem_range', byteAt_poked]
    rw [if_pos ⟨trivial, by omega⟩, show a.offset + 1 * i - a.offset = i by omega,
      List.getElem?_eq_getElem hdata]
    rfl

/-- Which bytes may be read and written does not depend on what they are. -/
theorem Accessible.poked {b : Address} (h : m.Accessible b length) :
    (m.poked a data).Accessible b length := by
  obtain ⟨hnull, hrange⟩ := h
  refine ⟨hnull, ?_⟩
  unfold Machine.poked
  split <;> exact hrange

end Machine

namespace Exec

variable {m m' : Machine} {a : Address} {data : List UInt8}

/-- **A write asks first**: it writes the bytes if it may, and otherwise changes nothing. -/
theorem write_of_accessible (h : m.Accessible a data.length) :
    write a data m = .ok ⟨⟩ (m.poked a data) := by
  obtain ⟨hnull, hrange | hrange⟩ := h
  · have hspace := Machine.space_of_inRange_heap hrange
    unfold write Machine.poked
    rw [if_neg (by simp [hnull]), hspace]
    exact writeHeap_of_inRange hrange
  · have hspace := Machine.space_of_inRange_stack hrange
    unfold write Machine.poked
    rw [if_neg (by simp [hnull]), hspace]
    exact writeStack_of_inRange hrange

theorem write_cases (m : Machine) (a : Address) (data : List UInt8) :
    (m.Accessible a data.length ∧ write a data m = .ok ⟨⟩ (m.poked a data)) ∨
      ∃ e, write a data m = .error e m := by
  by_cases h : m.Accessible a data.length
  · exact .inl ⟨h, write_of_accessible h⟩
  · refine .inr ?_
    unfold write
    split
    · exact ⟨_, rfl⟩
    · rename_i hnull
      have hnull : a.isNull = false := by simpa using hnull
      cases a.space with
      | heap => exact ⟨_, writeHeap_of_not_inRange fun hrange => h ⟨hnull, .inl hrange⟩⟩
      | stack => exact ⟨_, writeStack_of_not_inRange fun hrange => h ⟨hnull, .inr hrange⟩⟩

end Exec

/-! ## Scratch -/

namespace FrameStack

variable {s : FrameStack} {count : Nat} {c : Carving}

/-- The innermost frame is no smaller after scratch was handed out, and the scratch lies in it. -/
theorem le_top_carve (h : s.planCarving count = .ok c) :
    s.top ≤ (s.carve c).top ∧ c.start + count ≤ (s.carve c).top := by
  obtain ⟨rest, hframes, hstart, hstop⟩ := planCarving_eq_ok h
  unfold top
  rw [frames_carve, hframes]
  show c.frame.stop ≤ c.after.stop ∧ c.start + count ≤ c.after.stop
  unfold Carving.after
  split
  · rename_i houtgrows
    have houtgrows : c.frame.stop < c.stop := by simpa [Carving.outgrows] using houtgrows
    dsimp only
    omega
  · rename_i hfits
    have hfits : c.stop ≤ c.frame.stop := by simpa [Carving.outgrows] using hfits
    dsimp only
    omega

/-- Bytes that belong to the frames are not cleared when scratch is handed out. -/
theorem byte_carve_of_lt_top {i : Nat} (h : s.planCarving count = .ok c) (hi : i < s.top) :
    (s.carve c).arena.byte i = s.arena.byte i := by
  obtain ⟨rest, hframes, -, -⟩ := planCarving_eq_ok h
  unfold top at hi
  rw [hframes] at hi
  exact byte_carve hi

end FrameStack

theorem Address.offset_stack_le (n : Nat) : (stack n).offset ≤ n := by
  have hlt := Nat.mod_le n stackStart.toNat
  unfold offset
  rw [UInt64.toNat_mod, toNat_stack, Nat.add_mod_right, Nat.mod_mod]
  exact hlt

namespace Exec

variable {m m' : Machine} {a copied : Address} {count length : Nat}

theorem accessible_carved (h : carve count m = .ok copied m') : m'.Accessible copied count := by
  obtain ⟨c, journal, hplan, rfl, rfl⟩ := eq_of_carve h
  have htop := (FrameStack.le_top_carve hplan).2
  have hoffset := Address.offset_stack_le c.start
  have hend := Nat.le_trans (Nat.add_le_add_right hoffset count) htop
  exact ⟨Address.isNull_stack _, .inr (FrameStack.inRange_iff.mpr ⟨Address.space_stack _, hend⟩)⟩

/-- **Scratch that is handed out leaves what could be read as it was**, also where the two overlap. -/
theorem bytesAt_carve (h : carve count m = .ok copied m') (ha : m.Accessible a length) :
    m'.Accessible a length ∧ m'.bytesAt a length = m.bytesAt a length := by
  obtain ⟨c, journal, hplan, -, rfl⟩ := eq_of_carve h
  obtain ⟨hnull, hrange | hrange⟩ := ha
  · refine ⟨⟨hnull, .inl hrange⟩, ?_⟩
    unfold Machine.bytesAt
    rw [Machine.space_of_inRange_heap hrange]
    rfl
  · obtain ⟨hspace, hlimit⟩ := FrameStack.inRange_iff.mp hrange
    constructor
    · have htop := (FrameStack.le_top_carve hplan).1
      exact ⟨hnull, .inr (FrameStack.inRange_iff.mpr ⟨hspace, Nat.le_trans hlimit htop⟩)⟩
    · unfold Machine.bytesAt
      rw [hspace]
      apply List.map_congr_left
      intro i hi
      have hi : i < a.offset + length := by
        have := List.mem_range'_1.mp hi
        omega
      exact FrameStack.byte_carve_of_lt_top hplan (by omega)

end Exec

/-! ## Slots -/

/-- A pointer type is a pointer to something. -/
theorem TypeTable.exists_pointee {image : Image} {t : TypeTable} (h : ofImage image = .ok t)
    {type : TypeId} (hpointer : (t.descriptor type).category = .pointer) :
    ∃ pointee, (t.descriptor type).underlying = some pointee := by
  obtain ⟨sizes, hsizes⟩ := slotSizes_of_ofImage h
  apply descriptor_of_ofImage (P := fun d => d.category = .pointer → ∃ u, d.underlying = some u)
    h hsizes _ _ _ type hpointer
  · intro i decl d hdecl hd hpointer
    obtain ⟨u, hu⟩ := (sound_of_ofImage h).based decl (Array.mem_of_getElem? hdecl)
      (.inr (hd.category ▸ hpointer))
    exact ⟨⟨u⟩, by rw [hd.underlying, hu]; rfl⟩
  · have hnone : ∀ b ∈ builtinTypes, b.2 ≠ .pointer := by decide
    intro b hb i hpointer
    exact absurd hpointer (hnone b hb)
  · intro hpointer
    cases hpointer

namespace Machine

variable {m m' : Machine} {a : Address} {type : TypeId} {v : Value} {bytes : List UInt8}

/-- **What a value must be to be stored in a slot**: an address or inline as the slot is, with as many
bytes as the slot has. -/
theorem slotBytes_eq_ok : m.slotBytes type v = .ok bytes ↔
    (m.descriptor type).category.holdsAddress = v.isAddress ∧ m.valueBytes v = .ok bytes ∧
      bytes.length = (m.descriptor type).size := by
  constructor
  · intro h
    obtain ⟨hsame, h⟩ := except_guard_ok.mp h
    obtain ⟨bytes', hbytes, h⟩ := except_bind_ok.mp h
    obtain ⟨hlength, h⟩ := except_guard_ok.mp h
    cases h
    exact ⟨not_ne_iff.mp hsame, hbytes, not_ne_iff.mp hlength⟩
  · rintro ⟨hsame, hbytes, hlength⟩
    refine except_guard_ok.mpr ⟨not_ne_iff.mpr hsame, except_bind_ok.mpr ⟨bytes, hbytes, ?_⟩⟩
    exact except_guard_ok.mpr ⟨not_ne_iff.mpr hlength, rfl⟩

theorem length_slotBytes (h : m.slotBytes type v = .ok bytes) :
    bytes.length = (m.descriptor type).size := (slotBytes_eq_ok.mp h).2.2

/-- **The slot holds the bytes** of a value that may be stored there. -/
structure Holds (m : Machine) (a : Address) (type : TypeId) (bytes : List UInt8) : Prop where
  accessible : m.Accessible a (m.descriptor type).size
  bytesAt : m.bytesAt a (m.descriptor type).size = bytes
  address : (m.descriptor type).category.holdsAddress = true → ∃ target : Address, target.toBytes = bytes

namespace Holds

variable (h : m.Holds a type bytes)

include h

theorem read : m.read a (m.descriptor type).size = .ok bytes := by
  rw [read_of_accessible h.accessible, h.bytesAt]

theorem length : bytes.length = (m.descriptor type).size := by
  rw [← h.bytesAt, length_bytesAt]

/-- A slot for addresses gives the address. -/
theorem storedAddress (haddress : (m.descriptor type).category.holdsAddress = true) :
    ∃ target : Address, target.toBytes = bytes ∧ m.storedAddress a = .ok target := by
  obtain ⟨target, rfl⟩ := h.address haddress
  have hread := h.read
  rw [← h.length, show target.toBytes.length = Address.slotSize from LittleEndian.length_encode _ _]
    at hread
  refine ⟨target, rfl, ?_⟩
  unfold Machine.storedAddress
  rw [hread]
  simp only [Address.ofBytes?_toBytes, bind, Except.bind, pure, Except.pure]

theorem carve {count : Nat} {copied : Address} (hcarve : Exec.carve count m = .ok copied m') :
    m'.Holds a type bytes := by
  obtain ⟨haccessible, hbytes⟩ := Exec.bytesAt_carve hcarve h.accessible
  have hdescriptor : m'.descriptor = m.descriptor := by
    obtain ⟨c, journal, -, -, rfl⟩ := Exec.eq_of_carve hcarve
    rfl
  refine ⟨?_, ?_, ?_⟩
  · rwa [hdescriptor]
  · rw [hdescriptor, hbytes, h.bytesAt]
  · rw [hdescriptor]
    exact h.address

end Holds

/-! ## Values in slots -/

/-- The value in an inline slot is the slot. -/
theorem materialize_inline (hinline : (m.descriptor type).category.holdsAddress = false)
    (hvoid : (m.descriptor type).category ≠ .void) :
    m.materialize type a = .ok (.primitive type a) ∨ m.materialize type a = .ok (.struct type a) := by
  unfold materialize
  cases hcategory : (m.descriptor type).category with
  | primitive kind => exact .inl (by simp only [hcategory])
  | struct => exact .inr (by simp only [hcategory])
  | void => exact absurd hcategory hvoid
  | _ =>
    rw [hcategory] at hinline
    cases hinline

/-- The value in a slot for addresses has the address that is stored there. -/
theorem materialize_address {image : Image} {target : Address}
    (htypes : TypeTable.ofImage image = .ok m.types)
    (haddress : (m.descriptor type).category.holdsAddress = true)
    (hstored : m.storedAddress a = .ok target) :
    ∃ w, m.materialize type a = .ok w ∧ w.isAddress = true ∧ w.location = target := by
  unfold materialize
  cases hcategory : (m.descriptor type).category with
  | string =>
    simp only [hcategory, hstored]
    exact ⟨_, rfl, rfl, rfl⟩
  | object =>
    simp only [hcategory, hstored]
    exact ⟨_, rfl, rfl, rfl⟩
  | array =>
    simp only [hcategory, hstored]
    exact ⟨_, rfl, rfl, rfl⟩
  | pointer =>
    obtain ⟨pointee, hpointee⟩ := TypeTable.exists_pointee htypes hcategory
    simp only [hcategory, hstored, underlying, show (m.descriptor type).underlying = _ from hpointee]
    exact ⟨_, rfl, rfl, rfl⟩
  | _ =>
    rw [hcategory] at haddress
    cases haddress

theorem valueBytes_of_isAddress (h : v.isAddress = true) : m.valueBytes v = .ok v.location.toBytes := by
  unfold valueBytes
  rw [if_pos h]

theorem valueBytes_of_inline (h : v.isAddress = false) :
    m.valueBytes v = m.read v.location (m.descriptor v.type).size := by
  unfold valueBytes valueSize
  rw [if_neg (by simp [h]), if_neg (by simp [h])]

/-- **A slot that holds the bytes of a value gives a value with these bytes.** -/
theorem Holds.materialize {image : Image} (htypes : TypeTable.ofImage image = .ok m.types)
    (hvoid : (m.descriptor type).category ≠ .void) (h : m.Holds a type bytes) :
    ∃ w, m.materialize type a = .ok w ∧ m.valueBytes w = .ok bytes := by
  cases hholds : (m.descriptor type).category.holdsAddress with
  | true =>
    obtain ⟨target, rfl, hstored⟩ := h.storedAddress hholds
    obtain ⟨w, hw, haddress, hlocation⟩ := materialize_address htypes hholds hstored
    exact ⟨w, hw, by rw [valueBytes_of_isAddress haddress, hlocation]⟩
  | false =>
    rcases materialize_inline hholds hvoid with hw | hw
    · exact ⟨_, hw, (valueBytes_of_inline rfl).trans h.read⟩
    · exact ⟨_, hw, (valueBytes_of_inline rfl).trans h.read⟩

end Machine

namespace Exec

variable {m m' : Machine} {a copied : Address} {type : TypeId} {v : Value} {bytes : List UInt8}

/-- **A copy of a slot holds what the slot holds**, also if the two overlap. -/
theorem copyOf_of_holds (h : m.Holds a type bytes)
    (hcarve : carve (m.descriptor type).size m = .ok copied m') :
    ∃ m'', duplicate.copyOf type a m = .ok copied m'' ∧
      m''.read copied (m''.descriptor type).size = .ok bytes := by
  have hheld := h.carve hcarve
  have hsize : (m'.descriptor type).size = (m.descriptor type).size :=
    hheld.length.symm.trans h.length
  have haccessible : m'.Accessible copied bytes.length := by
    rw [h.length]
    exact accessible_carved hcarve
  have hquery : query (fun m => .ok (m.descriptor type).size) m = .ok (m.descriptor type).size m := rfl
  refine ⟨m'.poked copied bytes, ?_, ?_⟩
  · unfold duplicate.copyOf
    rw [bind_of_ok hquery, bind_of_ok hcarve, ← hsize]
    have hcopy : copy a copied (m'.descriptor type).size m' = .ok ⟨⟩ (m'.poked copied bytes) :=
      (bind_of_ok (query_of_ok hheld.read)).trans (write_of_accessible haccessible)
    rw [bind_of_ok hcopy]
    rfl
  · rw [Machine.descriptor_poked, ← hheld.length, Machine.read_of_accessible haccessible.poked,
      Machine.bytesAt_poked]

theorem duplicate_of_isAddress (h : v.isAddress = true) : duplicate v m = .ok v m := by
  cases v <;> first | rfl | cases h

/-- **Loading from a slot that holds the bytes of a value gives a value with these bytes**, if there is
scratch for a copy where one is made. -/
theorem load_of_holds {image : Image} (htypes : TypeTable.ofImage image = .ok m.types)
    (hvoid : (m.descriptor type).category ≠ .void) (h : m.Holds a type bytes)
    (hscratch : (m.descriptor type).category.holdsAddress = false →
      ∃ copied m', carve (m.descriptor type).size m = .ok copied m') :
    ∃ w m', load type a m = .ok w m' ∧ m'.valueBytes w = .ok bytes := by
  cases hholds : (m.descriptor type).category.holdsAddress with
  | true =>
    obtain ⟨target, rfl, hstored⟩ := h.storedAddress hholds
    obtain ⟨w, hw, haddress, rfl⟩ := Machine.materialize_address htypes hholds hstored
    refine ⟨w, m, ?_, Machine.valueBytes_of_isAddress haddress⟩
    unfold load
    rw [bind_of_ok (query_of_ok hw), duplicate_of_isAddress haddress]
  | false =>
    obtain ⟨copied, m', hcarve⟩ := hscratch hholds
    obtain ⟨m'', hcopy, hread⟩ := copyOf_of_holds h hcarve
    unfold load
    rcases Machine.materialize_inline hholds hvoid with hw | hw
    · refine ⟨.primitive type copied, m'', ?_, (Machine.valueBytes_of_inline rfl).trans hread⟩
      rw [bind_of_ok (query_of_ok hw)]
      exact bind_of_ok hcopy
    · refine ⟨.struct type copied, m'', ?_, (Machine.valueBytes_of_inline rfl).trans hread⟩
      rw [bind_of_ok (query_of_ok hw)]
      exact bind_of_ok hcopy

/-- **A store writes the bytes of the value to the slot, or changes nothing.** -/
theorem store_cases (m : Machine) (a : Address) (type : TypeId) (v : Value) :
    (∃ bytes, m.slotBytes type v = .ok bytes ∧ m.Accessible a bytes.length ∧
        store a type v m = .ok ⟨⟩ (m.poked a bytes)) ∨
      ∃ e, store a type v m = .error e m := by
  cases hbytes : m.slotBytes type v with
  | error e => exact .inr ⟨e, bind_of_error (query_of_error hbytes)⟩
  | ok bytes =>
    have hstore : store a type v m = write a bytes m := bind_of_ok (query_of_ok hbytes)
    rw [hstore]
    rcases write_cases m a bytes with ⟨haccessible, hwrite⟩ | herror
    · exact .inl ⟨bytes, rfl, haccessible, hwrite⟩
    · exact .inr herror

/-- The slot of a store holds the bytes of the value. -/
theorem holds_of_slotBytes (hbytes : m.slotBytes type v = .ok bytes)
    (haccessible : m.Accessible a bytes.length) : (m.poked a bytes).Holds a type bytes := by
  obtain ⟨hsame, hvalue, hlength⟩ := Machine.slotBytes_eq_ok.mp hbytes
  refine ⟨?_, ?_, ?_⟩
  · rw [Machine.descriptor_poked, ← hlength]
    exact haccessible.poked
  · rw [Machine.descriptor_poked, ← hlength]
    exact Machine.bytesAt_poked
  · intro haddress
    rw [Machine.descriptor_poked, hsame] at haddress
    rw [Machine.valueBytes_of_isAddress haddress] at hvalue
    exact ⟨v.location, Except.ok.inj hvalue⟩

end Exec

/-! ## What a store does -/

namespace Machine

/-- **The bytes have been stored in the slot**: whoever reads it finds them, and no other byte of
either arena, nor anything else of the machine, has changed. -/
structure Stored (m : Machine) (a : Address) (type : TypeId) (bytes : List UInt8) (m' : Machine) :
    Prop where
  materializes : ∃ w, m'.materialize type a = .ok w ∧ m'.valueBytes w = .ok bytes
  /-- A copy needs scratch; an address is not copied. -/
  loads : ((m.descriptor type).category.holdsAddress = false →
      ∃ copied m₁, Exec.carve (m.descriptor type).size m' = .ok copied m₁) →
    ∃ w m₁, Exec.load type a m' = .ok w m₁ ∧ m₁.valueBytes w = .ok bytes
  outside : ∀ space i,
    ¬ (space = a.space ∧ a.offset ≤ i ∧ i < a.offset + (m.descriptor type).size) →
      m'.byteAt space i = m.byteAt space i
  rest : ∃ heap stack : Arena, heap.size = m.heap.arena.size ∧ stack.size = m.stack.arena.size ∧
    m' = { m with
      heap := { m.heap with arena := heap }
      stack := { m.stack with arena := stack } }

variable {m : Machine} {a : Address} {data : List UInt8}

theorem byteAt_poked_outside {space : Space} {i : Nat}
    (h : ¬ (space = a.space ∧ a.offset ≤ i ∧ i < a.offset + data.length)) :
    (m.poked a data).byteAt space i = m.byteAt space i := by
  rw [byteAt_poked]
  split
  · rename_i hinside
    rw [List.getElem?_eq_none (by grind)]
    rfl
  · rfl

theorem poked_eq (m : Machine) (a : Address) (data : List UInt8) :
    ∃ heap stack : Arena, heap.size = m.heap.arena.size ∧ stack.size = m.stack.arena.size ∧
      m.poked a data = { m with
        heap := { m.heap with arena := heap }
        stack := { m.stack with arena := stack } } := by
  unfold poked
  cases a.space with
  | heap => exact ⟨m.heap.arena.write a.offset data, m.stack.arena, rfl, rfl, rfl⟩
  | stack => exact ⟨m.heap.arena, m.stack.arena.write a.offset data, rfl, rfl, rfl⟩

/-- **A store is read back.** In every machine, for every slot of a type other than void and for every
value: if the store succeeds, then the slot has the bytes that the value had before, wherever these
were, and nothing else has changed; if it fails, nothing has. -/
theorem readsBack_store {image : Image} (m : Machine) (htypes : TypeTable.ofImage image = .ok m.types)
    (a : Address) (type : TypeId) (hvoid : (m.descriptor type).category ≠ .void) (v : Value) :
    (∀ m', Exec.store a type v m = .ok ⟨⟩ m' →
        ∃ bytes, m.valueBytes v = .ok bytes ∧ m.Stored a type bytes m') ∧
      ∀ e m', Exec.store a type v m = .error e m' → m' = m := by
  rcases Exec.store_cases m a type v with ⟨bytes, hbytes, haccessible, hstore⟩ | ⟨e, hstore⟩
  · obtain ⟨-, hvalue, hlength⟩ := slotBytes_eq_ok.mp hbytes
    have hholds := Exec.holds_of_slotBytes hbytes haccessible
    have htypes' : TypeTable.ofImage image = .ok (m.poked a bytes).types := by rwa [types_poked]
    have hvoid' : ((m.poked a bytes).descriptor type).category ≠ .void := by rwa [descriptor_poked]
    constructor
    · intro m' h
      cases hstore.symm.trans h
      refine ⟨bytes, hvalue, hholds.materialize htypes' hvoid', ?_, ?_, poked_eq m a bytes⟩
      · rw [← descriptor_poked]
        exact Exec.load_of_holds htypes' hvoid' hholds
      · rw [← hlength]
        exact fun space i => byteAt_poked_outside
    · intro e m' h
      cases hstore.symm.trans h
  · constructor
    · intro m' h
      cases hstore.symm.trans h
    · intro e' m' h
      cases hstore.symm.trans h
      rfl

/-- A struct of eight bytes. -/
def corners : Image where
  types := #[
    { name := "Corner", category := .struct, fields := [⟨"x", 1, false⟩, ⟨"y", 1, false⟩] },
    { name := "int", category := .primitive (.word .int) }]

/-- One frame of twelve bytes. A corner lies in the eight that were handed out. -/
def crowded (t : TypeTable) : Machine where
  image := corners
  types := t
  heap := default
  stack :=
    { arena := (Arena.zeroed 16).write 0 [1, 2, 3, 4, 5, 6, 7, 8]
      frames := [{ base := 0, stop := 12, scratch := 0, cursor := 8, maxDepth := 1 }]
      limit := 64 }

/-- The corner is stored over its own second half and the four bytes behind, which were not handed
out. Loading it hands these out and extends the frame. -/
theorem readsBack_store_crowded : ∃ t, TypeTable.ofImage corners = .ok t ∧
    ((crowded t).descriptor ⟨0⟩).category = .struct ∧
    ∃ m, Exec.store (.stack 4) ⟨0⟩ (.struct ⟨0⟩ (.stack 0)) (crowded t) = .ok ⟨⟩ m ∧
      m.stack.arena.read 0 12 = [1, 2, 3, 4, 1, 2, 3, 4, 5, 6, 7, 8] ∧
      (crowded t).Stored (.stack 4) ⟨0⟩ [1, 2, 3, 4, 5, 6, 7, 8] m ∧
      (Exec.carve 8).value? m = some (.stack 8) ∧
      ∃ w m', Exec.load ⟨0⟩ (.stack 4) m = .ok w m' ∧
        m'.valueBytes w = .ok [1, 2, 3, 4, 5, 6, 7, 8] := by
  have hrun : (TypeTable.ofImage corners).toOption.any (fun t =>
      ((crowded t).descriptor ⟨0⟩).category = .struct ∧ ((crowded t).descriptor ⟨0⟩).size = 8 ∧
      (crowded t).valueBytes (.struct ⟨0⟩ (.stack 0)) = .ok [1, 2, 3, 4, 5, 6, 7, 8] ∧
      (Exec.store (.stack 4) ⟨0⟩ (.struct ⟨0⟩ (.stack 0))).value? (crowded t) = some ⟨⟩ ∧
      ((Exec.store (.stack 4) ⟨0⟩ (.struct ⟨0⟩ (.stack 0))).final (crowded t)).stack.arena.read 0 12 =
        [1, 2, 3, 4, 1, 2, 3, 4, 5, 6, 7, 8] ∧
      (Exec.carve 8).value?
          ((Exec.store (.stack 4) ⟨0⟩ (.struct ⟨0⟩ (.stack 0))).final (crowded t)) =
        some (.stack 8)) = true := by
    decide
  cases htypes : TypeTable.ofImage corners with
  | error e =>
    rw [htypes] at hrun
    cases hrun
  | ok t =>
    rw [htypes] at hrun
    obtain ⟨hstruct, hsize, hvalue, hstore, hread, hcarve⟩ := of_decide_eq_true hrun
    have hstored := Exec.eq_ok_of_value? hstore
    obtain ⟨bytes, hbytes, h⟩ := (readsBack_store (crowded t) htypes (.stack 4) ⟨0⟩
      (by rw [hstruct]; exact Category.noConfusion) (.struct ⟨0⟩ (.stack 0))).1 _ hstored
    cases hbytes.symm.trans hvalue
    refine ⟨t, rfl, hstruct, _, hstored, hread, h, hcarve, h.loads fun _ => ?_⟩
    rw [hsize]
    exact ⟨_, _, Exec.eq_ok_of_value? hcarve⟩

end Machine

end ManagedVm
