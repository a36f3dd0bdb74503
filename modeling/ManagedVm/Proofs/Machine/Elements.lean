import ManagedVm.Proofs.Machine.Host
import ManagedVm.Proofs.Machine.Storing

/-!
# Elements of arrays

An index is checked against the allocation that its array is, and against nothing else: not against
the length that is stored in front of the elements, for a program may write over it. In exact
arithmetic the condition is that the whole element lies in the allocation (`HasElement`), and there
is an address if and only if it holds (`elementAddress_ok_iff`). Slots of different indices are apart,
and for an array of `n` elements the good indices are those below `n`.

What is stored through such an address stays in the slot. Beside the one write to it, the instruction
that stores an element pops, asks and releases, and none of these changes a byte. So
whatever index a program comes up with, either the check refuses it and both arenas are what they
were, or the bytes outside the slot are.
-/

namespace ManagedVm

open Machine (Lasting lengthSize)

/-! ## Bytes -/

namespace Machine

/-- **The heap has changed in the range only**, and the stack not at all. -/
structure ChangesOnly (m : Machine) (a : Address) (length : Nat) (m' : Machine) : Prop where
  stack : m'.stack.arena = m.stack.arena
  size : m'.heap.arena.size = m.heap.arena.size
  outside : ∀ i, i < a.offset ∨ a.offset + length ≤ i → m'.heap.arena.byte i = m.heap.arena.byte i

/-- **The value has been stored in the slot** of the heap, and no other byte has changed. -/
def Assigned (m : Machine) (a : Address) (type : TypeId) (v : Value) (m' : Machine) : Prop :=
  ∃ bytes, m.slotBytes type v = .ok bytes ∧ m'.heap.arena = m.heap.arena.write a.offset bytes ∧
    m'.stack.arena = m.stack.arena

/-- The same bytes can be read at the same addresses. -/
structure SameMemory (m m' : Machine) : Prop where
  types : m'.types = m.types
  heap : m'.heap = m.heap
  arena : m'.stack.arena = m.stack.arena
  top : m'.stack.top = m.stack.top

variable {m m' m'' : Machine} {a : Address} {type : TypeId} {v : Value}

theorem SameBytes.changesOnly (h : m.SameBytes m') (a : Address) (length : Nat) :
    m.ChangesOnly a length m' := by
  refine ⟨h.stack, ?_, ?_⟩
  · rw [h.heap]
  · intro i _
    rw [h.heap]

theorem Assigned.trans (h : m.Assigned a type v m') (h' : m'.SameBytes m'') : m.Assigned a type v m'' := by
  obtain ⟨bytes, hbytes, hheap, hstack⟩ := h
  exact ⟨bytes, hbytes, h'.heap.trans hheap, h'.stack.trans hstack⟩

theorem Assigned.changesOnly (h : m.Assigned a type v m') :
    m.ChangesOnly a (m.descriptor type).size m' := by
  obtain ⟨bytes, hbytes, hheap, hstack⟩ := h
  rw [← length_slotBytes hbytes]
  refine ⟨hstack, ?_, ?_⟩
  · rw [hheap]
    rfl
  · intro i hi
    rw [hheap]
    rcases hi with hbelow | habove
    · exact Arena.byte_write_of_lt hbelow bytes
    · exact Arena.byte_write_of_le habove

/-- The slot holds the bytes of the value. -/
theorem Assigned.read (h : m.Assigned a type v m') :
    m.slotBytes type v = .ok (m'.heap.arena.read a.offset (m.descriptor type).size) := by
  obtain ⟨bytes, hbytes, hheap, -⟩ := h
  rw [hheap, ← length_slotBytes hbytes, Arena.read_write]
  exact hbytes

namespace SameMemory

theorem trans (h : m.SameMemory m') (h' : m'.SameMemory m'') : m.SameMemory m'' :=
  ⟨h'.types.trans h.types, h'.heap.trans h.heap, h'.arena.trans h.arena, h'.top.trans h.top⟩

theorem sameBytes (h : m.SameMemory m') : m.SameBytes m' := ⟨congrArg Heap.arena h.heap, h.arena⟩

theorem descriptor (h : m.SameMemory m') : m'.descriptor = m.descriptor := by
  unfold Machine.descriptor
  rw [h.types]

theorem read (h : m.SameMemory m') : m'.read = m.read := by
  funext a length
  unfold Machine.read FrameStack.bytes FrameStack.inRange FrameStack.rangeError
  rw [h.heap, h.arena, h.top]

theorem readIndex (h : m.SameMemory m') : m'.readIndex = m.readIndex := by
  unfold Machine.readIndex Machine.readScalar
  rw [h.read, h.descriptor]

theorem elementAddress (h : m.SameMemory m') : m'.elementAddress = m.elementAddress := by
  unfold Machine.elementAddress Machine.liveObject
  rw [h.heap, h.descriptor]

theorem slotBytes (h : m.SameMemory m') : m'.slotBytes = m.slotBytes := by
  unfold Machine.slotBytes Machine.valueBytes Machine.valueSize
  rw [h.read, h.descriptor]

theorem assigned (h : m.SameMemory m') (h' : m'.Assigned a type v m'') : m.Assigned a type v m'' := by
  unfold Assigned at h' ⊢
  rw [← h.slotBytes, ← h.heap, ← h.arena]
  exact h'

end SameMemory

end Machine

/-! ## Storing -/

namespace Exec

variable {a : Address}

theorem store_heap_cases (m : Machine) (type : TypeId) (v : Value) (ha : a.space = .heap) :
    (∃ m', store a type v m = .ok ⟨⟩ m' ∧ m.Assigned a type v m') ∨
      ∃ e, store a type v m = .error e m := by
  rcases store_cases m a type v with ⟨bytes, hbytes, -, hstore⟩ | herror
  · refine .inl ⟨_, hstore, bytes, hbytes, ?_⟩
    unfold Machine.poked
    rw [ha]
    exact ⟨rfl, rfl⟩
  · exact .inr herror

/-- **An assignment to the heap** stores the value. If it fails, it may have done so before. -/
theorem assign_cases (m : Machine) (type : TypeId) (v : Value) (ha : a.space = .heap) :
    m.Assigned a type v ((assign a type v).final m) ∨
      m.SameBytes ((assign a type v).final m) ∧ ∃ e m', assign a type v m = .error e m' := by
  unfold final
  cases hprevious : m.referencesIn a type with
  | error e =>
    have hassign : assign a type v m = .error e m := bind_of_error (query_of_error hprevious)
    rw [hassign]
    exact .inr ⟨Lasting.refl m, e, m, rfl⟩
  | ok previous =>
    have hassign : assign a type v m = (store a type v >>= fun _ => release previous) m :=
      bind_of_ok (query_of_ok hprevious)
    rw [hassign]
    rcases store_heap_cases m type v ha with ⟨m₁, hstore, hassigned⟩ | ⟨e, hstore⟩
    · rw [bind_of_ok hstore]
      exact .inl (hassigned.trans ((touches_release previous).bytes m₁))
    · rw [bind_of_error hstore]
      exact .inr ⟨Lasting.refl m, e, m, rfl⟩

end Exec

/-! ## The address of an element -/

namespace Machine

/-- **The array has the element**: its target is a live object, and all bytes of the element lie in it,
in exact arithmetic. -/
def HasElement (m : Machine) (element : TypeId) (target : Address) (index : Int) : Prop :=
  ∃ o ∈ m.heap.objects, o.address = target ∧ 0 ≤ index ∧
    (lengthSize : Int) + (index + 1) * (m.descriptor element).size ≤ o.size

/-- **Where the slot of an element is**: behind the length and the elements before it, and inside the
object. -/
structure SlotAt (m : Machine) (element : TypeId) (target : Address) (index : Int) (a : Address) :
    Prop where
  raw : (a.raw.toNat : Int) = target.raw.toNat + lengthSize + index * (m.descriptor element).size
  inside : ∃ o ∈ m.heap.objects, o.address = target ∧ o.Holds a (m.descriptor element).size

variable {m : Machine} {type element : TypeId} {target a : Address} {index : Int}

theorem liveObject_eq_ok {o : Heap.Object} : m.liveObject target = .ok o ↔ m.heap.get target = .ok o := by
  unfold liveObject
  constructor
  · intro h
    split at h
    · cases h
    · exact except_mapError_ok.mp h
  · intro h
    have hforeign := (Heap.get_eq_ok h).2.2
    rw [if_neg (by simp [(Heap.isForeign_eq_false.mp hforeign).2])]
    exact except_mapError_ok.mpr h

/-- **What the check of an index checks.** -/
theorem elementAddress_eq_ok :
    m.elementAddress (.array type target) index = .ok (a, element) ↔
      ∃ (o : Heap.Object) (n : Nat), m.heap.get target = .ok o ∧
        (m.descriptor type).underlying = some element ∧ index = n ∧
        n * (m.descriptor element).size + lengthSize + (m.descriptor element).size ≤ o.size ∧
        target.add? (n * (m.descriptor element).size + lengthSize) = some a := by
  constructor
  · intro h
    obtain ⟨o, hlive, h⟩ := except_bind_ok.mp h
    obtain ⟨element', helement, h⟩ := except_bind_ok.mp h
    obtain ⟨hindex, h⟩ := except_guard_ok.mp h
    obtain ⟨hfits, h⟩ := except_guard_ok.mp h
    split at h
    · rename_i a' hadd
      cases h
      refine ⟨o, index.toNat, liveObject_eq_ok.mp hlive, underlying_eq_ok.mp helement, ?_, ?_, hadd⟩
      · omega
      · exact Nat.le_of_not_lt hfits
    · cases h
  · rintro ⟨o, n, hget, helement, rfl, hfits, hadd⟩
    refine except_bind_ok.mpr ⟨o, liveObject_eq_ok.mpr hget, ?_⟩
    refine except_bind_ok.mpr ⟨element, underlying_eq_ok.mpr helement, ?_⟩
    refine except_guard_ok.mpr ⟨by omega, except_guard_ok.mpr ⟨Nat.not_lt_of_le hfits, ?_⟩⟩
    rw [Int.toNat_natCast, hadd]
    rfl

theorem space_of_elementAddress {array : Value} (h : m.elementAddress array index = .ok (a, element)) :
    a.space = .heap := by
  cases array with
  | array type target =>
    obtain ⟨o, n, hget, -, -, -, hadd⟩ := elementAddress_eq_ok.mp h
    have hspace := (Heap.isForeign_eq_false.mp (Heap.get_eq_ok hget).2.2).1
    obtain ⟨hlt, rfl⟩ := Address.add?_eq_some.mp hadd
    exact (Address.add_inside hlt).1.trans hspace
  | _ => cases h

/-- The end of an element, over the integers and over the naturals. -/
theorem element_fits_iff {n size room : Nat} :
    (lengthSize : Int) + ((n : Int) + 1) * size ≤ room ↔ n * size + lengthSize + size ≤ room := by
  rw [Int.add_mul, Int.one_mul]
  omega

section Heap

variable (inv : m.heap.Inv) (hshort : m.heap.top < Address.stackStart.toNat)

include inv hshort

/-- **An index is good if and only if the array has the element.** -/
theorem elementAddress_ok_iff (helement : (m.descriptor type).underlying = some element) :
    (∃ a, m.elementAddress (.array type target) index = .ok (a, element)) ↔
      m.HasElement element target index := by
  constructor
  · rintro ⟨a, h⟩
    obtain ⟨o, n, hget, -, rfl, hfits, -⟩ := elementAddress_eq_ok.mp h
    obtain ⟨ho, haddress⟩ := (Heap.get_eq_ok_iff inv).mp hget
    exact ⟨o, ho, haddress, Int.natCast_nonneg n, element_fits_iff.mpr hfits⟩
  · rintro ⟨o, ho, rfl, hnonneg, hfits⟩
    obtain ⟨n, rfl⟩ := Int.eq_ofNat_of_zero_le hnonneg
    have hfits := element_fits_iff.mp hfits
    have hbounds := inv.object_bounds ho
    have hlt : o.address.offset + (n * (m.descriptor element).size + lengthSize) <
        Address.stackStart.toNat := by
      show o.start + _ < _
      omega
    have hget := (Heap.get_eq_ok_iff inv).mpr ⟨ho, rfl⟩
    have hadd := Address.add?_eq_some.mpr ⟨hlt, rfl⟩
    exact ⟨_, elementAddress_eq_ok.mpr ⟨o, n, hget, helement, rfl, hfits, hadd⟩⟩

/-- **The address of an element is that of its slot.** -/
theorem slotAt_of_elementAddress
    (h : m.elementAddress (.array type target) index = .ok (a, element)) :
    m.SlotAt element target index a := by
  obtain ⟨o, n, hget, -, rfl, hfits, hadd⟩ := elementAddress_eq_ok.mp h
  obtain ⟨ho, rfl⟩ := (Heap.get_eq_ok_iff inv).mp hget
  obtain ⟨-, rfl⟩ := Address.add?_eq_some.mp hadd
  have hspace := space_of_elementAddress h
  have htarget := inv.space_address hshort ho
  obtain ⟨hoffset, -⟩ := inv.inRange_inside hshort ho hfits
  constructor
  case raw =>
    have hstart : o.start = o.address.raw.toNat := Address.offset_eq_raw htarget
    rw [← Address.offset_eq_raw hspace, hoffset, hstart]
    push_cast
    omega
  case inside =>
    refine ⟨o, ho, rfl, hspace, ?_, ?_⟩
    · omega
    · omega

/-- **Slots of different indices have no byte in common.** -/
theorem slots_apart {index' : Int} {a' : Address} (hne : index ≠ index')
    (h : m.elementAddress (.array type target) index = .ok (a, element))
    (h' : m.elementAddress (.array type target) index' = .ok (a', element)) :
    a.offset + (m.descriptor element).size ≤ a'.offset ∨
      a'.offset + (m.descriptor element).size ≤ a.offset := by
  have hraw := (slotAt_of_elementAddress inv hshort h).raw
  have hraw' := (slotAt_of_elementAddress inv hshort h').raw
  rw [← Address.offset_eq_raw (space_of_elementAddress h)] at hraw
  rw [← Address.offset_eq_raw (space_of_elementAddress h')] at hraw'
  have hstep : ∀ {i j : Int}, i < j →
      i * (m.descriptor element).size + (m.descriptor element).size ≤
        j * (m.descriptor element).size := by
    intro i j hlt
    have hmul := Int.mul_le_mul_of_nonneg_right (Int.add_one_le_of_lt hlt)
      (Int.natCast_nonneg (m.descriptor element).size)
    rwa [Int.add_mul, Int.one_mul] at hmul
  rcases Int.lt_or_gt_of_ne hne with hlt | hgt
  · have := hstep hlt
    left
    omega
  · have := hstep hgt
    right
    omega

/-- **An array of `n` elements has those below `n`.** -/
theorem elementAddress_ok_iff_lt (hshaped : m.heap.ShapedBy m.types) {o : Heap.Object}
    (ho : o ∈ m.heap.objects) {n : Nat} (hkind : o.kind = .array element n)
    (hpos : 0 < (m.descriptor element).size) :
    (∃ a, m.elementAddress (.array o.type o.address) index = .ok (a, element)) ↔
      0 ≤ index ∧ index < n := by
  have hshape := hshaped o ho
  rw [hkind] at hshape
  obtain ⟨-, helement, hsize⟩ := hshape
  have hsize : o.size = lengthSize + n * (m.descriptor element).size := hsize
  rw [elementAddress_ok_iff inv hshort helement]
  constructor
  · rintro ⟨p, hp, haddress, hnonneg, hfits⟩
    obtain rfl := inv.eq_of_address hp ho haddress
    obtain ⟨k, rfl⟩ := Int.eq_ofNat_of_zero_le hnonneg
    have hfits := element_fits_iff.mp hfits
    have hle : (k + 1) * (m.descriptor element).size ≤ n * (m.descriptor element).size := by
      rw [Nat.succ_mul]
      omega
    have hk := Nat.le_of_mul_le_mul_right hle hpos
    omega
  · rintro ⟨hnonneg, hlt⟩
    obtain ⟨k, rfl⟩ := Int.eq_ofNat_of_zero_le hnonneg
    have hk : k + 1 ≤ n := by omega
    have hle := Nat.mul_le_mul_right (m.descriptor element).size hk
    rw [Nat.succ_mul] at hle
    exact ⟨o, ho, rfl, hnonneg, element_fits_iff.mpr (by omega)⟩

end Heap

end Machine

namespace Exec

variable {m m' : Machine} {type : TypeId}

theorem mem_of_allocateObject {size : Nat} {kind : ObjectKind} {target : Address}
    (h : allocateObject size type kind m = .ok target m') :
    (⟨target, type, size, kind⟩ : Heap.Object) ∈ m'.heap.objects := by
  cases hplan : m.heap.plan size with
  | error e =>
    rw [allocateObject_of_error hplan] at h
    cases h
  | ok p =>
    obtain ⟨journal, hmade⟩ := allocateObject_of_ok hplan
    obtain ⟨rfl, rfl⟩ := EStateM.Result.ok.inj (hmade.symm.trans h)
    exact Heap.mem_occupy.mpr (.inl rfl)

theorem objects_of_writeHeap {a : Address} {data : List UInt8} (h : writeHeap a data m = .ok ⟨⟩ m') :
    m'.heap.objects = m.heap.objects := by
  by_cases hrange : m.heap.inRange a data.length = true
  · rw [writeHeap_of_inRange hrange] at h
    cases h
    rfl
  · rw [writeHeap_of_not_inRange hrange] at h
    cases h

/-- **A new array is an object with its type and its length in the header.** -/
theorem makeArray_eq_ok {n : Nat} {v : Value} (h : makeArray type n m = .ok v m') :
    ∃ o ∈ m'.heap.objects, ∃ element, (m.descriptor type).underlying = some element ∧
      o.type = type ∧ o.kind = .array element n ∧ v = .array type o.address := by
  obtain ⟨d, m₁, hquery, h⟩ := bind_eq_ok.mp h
  obtain ⟨hd, rfl⟩ := query_eq_ok.mp hquery
  cases hd
  split at h
  · cases h
  · obtain ⟨element, m₂, hquery, h⟩ := bind_eq_ok.mp h
    obtain ⟨helement, rfl⟩ := query_eq_ok.mp hquery
    obtain ⟨size, m₃, hquery, h⟩ := bind_eq_ok.mp h
    obtain ⟨-, rfl⟩ := query_eq_ok.mp hquery
    obtain ⟨target, m₄, hallocate, h⟩ := bind_eq_ok.mp h
    obtain ⟨⟨⟩, m₅, hwrite, h⟩ := bind_eq_ok.mp h
    cases h
    have hmem := mem_of_allocateObject hallocate
    rw [← objects_of_writeHeap hwrite] at hmem
    exact ⟨_, hmem, element, Machine.underlying_eq_ok.mp helement, rfl, rfl, rfl⟩

end Exec

/-! ## The instruction that stores an element -/

/-- The values on the evaluation stack of the innermost frame, topmost first. -/
def Machine.operands (m : Machine) : List Value :=
  match m.stack.current with
  | .ok f => f.values
  | .error _ => []

namespace Exec

/-- **What storing an element does to the bytes**, whatever the array, the index and the value are. -/
structure StoresElement (m : Machine) (r : EStateM.Result Error Machine Flow) : Prop where
  short : m.operands.length < 3 → ∃ e m', r = .error e m' ∧ m.SameBytes m'
  /-- The check fails, and no byte of either arena is changed. -/
  refused : ∀ array index v rest e, m.operands = array :: index :: v :: rest →
    (m.readIndex index >>= m.elementAddress array) = .error e → ∃ m', r = .error e m' ∧ m.SameBytes m'
  /-- The check succeeds, and no byte outside the slot is changed, even if a later part fails. -/
  confined : ∀ array index v rest a element, m.operands = array :: index :: v :: rest →
    (m.readIndex index >>= m.elementAddress array) = .ok (a, element) →
      m.ChangesOnly a (m.descriptor element).size (outcome r)
  /-- If all succeeds, the slot holds the value. -/
  stored : ∀ array index v rest flow m', m.operands = array :: index :: v :: rest →
    r = .ok flow m' → ∃ a element,
      (m.readIndex index >>= m.elementAddress array) = .ok (a, element) ∧
        m.slotBytes element v = .ok (m'.heap.arena.read a.offset (m.descriptor element).size)

variable {m : Machine} {v : Value} {rest : List Value}

theorem pop_of_operands (h : m.operands = v :: rest) :
    ∃ m', pop m = .ok v m' ∧ m'.operands = rest ∧ m.SameMemory m' := by
  unfold Machine.operands at h
  cases hframes : m.stack.frames with
  | nil => simp [FrameStack.current, hframes] at h
  | cons f frames =>
    rw [current_of_frames hframes] at h
    refine ⟨_, pop_of_cons hframes h, rfl, rfl, rfl, rfl, ?_⟩
    simp [FrameStack.top, hframes]

theorem pop_of_no_operands (h : m.operands = []) : ∃ e, pop m = .error e m := by
  unfold Machine.operands at h
  cases hframes : m.stack.frames with
  | nil =>
    have hpop : m.stack.pop = .error .frameUnderflow := by
      simp [FrameStack.pop, FrameStack.current, hframes, bind, Except.bind]
    exact ⟨_, bind_of_error (query_of_error hpop)⟩
  | cons f frames =>
    rw [current_of_frames hframes] at h
    exact ⟨_, pop_of_nil hframes h⟩

/-- What comes behind the check of the index. -/
def storeChecked (array v : Value) (slot : Address × TypeId) : Exec Flow := do
  assign slot.1 slot.2 v
  releaseValue v
  releaseValue array
  return .next

theorem storeChecked_cases (m : Machine) (array v : Value) {a : Address} (element : TypeId)
    (ha : a.space = .heap) :
    m.Assigned a element v ((storeChecked array v (a, element)).final m) ∨
      m.SameBytes ((storeChecked array v (a, element)).final m) ∧
        ∃ e m', storeChecked array v (a, element) m = .error e m' := by
  have hrest : Touches .objects
      (releaseValue v >>= fun _ => releaseValue array >>= fun _ => pure Flow.next) :=
    (touches_releaseValue v).bind fun _ => (touches_releaseValue array).bind fun _ => .pure _
  have hassign := assign_cases m element v ha
  unfold final at hassign ⊢
  cases hrun : assign a element v m with
  | error e m₁ =>
    rw [hrun] at hassign
    have hfail : storeChecked array v (a, element) m = .error e m₁ := bind_of_error hrun
    rw [hfail]
    exact hassign.imp_right fun hsame => ⟨hsame.1, e, m₁, rfl⟩
  | ok u m₁ =>
    rw [hrun] at hassign
    have hgo : storeChecked array v (a, element) m = _ := bind_of_ok hrun
    rw [hgo]
    rcases hassign with hassigned | ⟨-, e, m', hfail⟩
    · exact .inl (hassigned.trans (hrest.bytes m₁))
    · cases hfail

theorem step_stelem {i : Instruction} (hop : i.op = .stelem) (length : Nat) :
    step length i = (do
      let array ← pop
      let index ← pop
      let v ← pop
      let slot ← query fun m => m.readIndex index >>= m.elementAddress array
      storeChecked array v slot) := by
  obtain ⟨op, operand⟩ := i
  cases hop
  show perform _ >>= _ = _
  simp only [perform, bind_assoc]
  rfl

variable {array index : Value} {i : Instruction}

/-- With its three operands, the instruction comes to the check of the index, and has then changed
nothing that can be read. -/
theorem step_of_operands (hop : i.op = .stelem) (length : Nat)
    (h : m.operands = array :: index :: v :: rest) :
    ∃ m₁, m.SameMemory m₁ ∧ step length i m =
      (query (fun m => m.readIndex index >>= m.elementAddress array) >>= storeChecked array v) m₁ := by
  obtain ⟨m₁, hpop₁, h₁, hsame₁⟩ := pop_of_operands h
  obtain ⟨m₂, hpop₂, h₂, hsame₂⟩ := pop_of_operands h₁
  obtain ⟨m₃, hpop₃, -, hsame₃⟩ := pop_of_operands h₂
  refine ⟨m₃, (hsame₁.trans hsame₂).trans hsame₃, ?_⟩
  rw [step_stelem hop, bind_of_ok hpop₁, bind_of_ok hpop₂, bind_of_ok hpop₃]

/-- **Storing an element changes its slot or nothing.** -/
theorem storesElement (m : Machine) (hop : i.op = .stelem) (length : Nat) :
    StoresElement m (step length i m) := by
  -- The check sees what it would have seen before the operands were popped.
  have hchecks : ∀ {m₁ : Machine}, m.SameMemory m₁ → ∀ array index : Value,
      (m₁.readIndex index >>= m₁.elementAddress array) =
        (m.readIndex index >>= m.elementAddress array) := by
    intro m₁ hsame array index
    rw [hsame.readIndex, hsame.elementAddress]
  constructor
  case short =>
    intro hshort
    rw [step_stelem hop]
    match h : m.operands with
    | [] =>
      obtain ⟨e, hpop⟩ := pop_of_no_operands h
      exact ⟨e, m, bind_of_error hpop, Lasting.refl m⟩
    | [array] =>
      obtain ⟨m₁, hpop₁, h₁, hsame₁⟩ := pop_of_operands h
      obtain ⟨e, hpop⟩ := pop_of_no_operands h₁
      refine ⟨e, m₁, ?_, hsame₁.sameBytes⟩
      rw [bind_of_ok hpop₁, bind_of_error hpop]
    | [array, index] =>
      obtain ⟨m₁, hpop₁, h₁, hsame₁⟩ := pop_of_operands h
      obtain ⟨m₂, hpop₂, h₂, hsame₂⟩ := pop_of_operands h₁
      obtain ⟨e, hpop⟩ := pop_of_no_operands h₂
      refine ⟨e, m₂, ?_, (hsame₁.trans hsame₂).sameBytes⟩
      rw [bind_of_ok hpop₁, bind_of_ok hpop₂, bind_of_error hpop]
    | array :: index :: v :: rest =>
      rw [h] at hshort
      simp only [List.length_cons] at hshort
      omega
  case refused =>
    intro array index v rest e h hcheck
    obtain ⟨m₁, hsame, hstep⟩ := step_of_operands hop length h
    rw [← hchecks hsame] at hcheck
    refine ⟨m₁, ?_, hsame.sameBytes⟩
    rw [hstep, bind_of_error (query_of_error hcheck)]
  case confined =>
    intro array index v rest a element h hcheck
    obtain ⟨n, -, haddress⟩ := except_bind_ok.mp hcheck
    obtain ⟨m₁, hsame, hstep⟩ := step_of_operands hop length h
    rw [← hchecks hsame] at hcheck
    rw [hstep, bind_of_ok (query_of_ok hcheck)]
    rcases storeChecked_cases m₁ array v element (Machine.space_of_elementAddress haddress) with
      hassigned | ⟨hbytes, -⟩
    · exact (hsame.assigned hassigned).changesOnly
    · exact (Lasting.trans hsame.sameBytes hbytes).changesOnly a _
  case stored =>
    intro array index v rest flow m' h hdone
    obtain ⟨m₁, hsame, hstep⟩ := step_of_operands hop length h
    rw [hstep] at hdone
    obtain ⟨⟨a, element⟩, m₂, hquery, hdone⟩ := bind_eq_ok.mp hdone
    obtain ⟨hcheck, rfl⟩ := query_eq_ok.mp hquery
    rw [hchecks hsame] at hcheck
    obtain ⟨n, -, haddress⟩ := except_bind_ok.mp hcheck
    have hcases := storeChecked_cases m₁ array v element (Machine.space_of_elementAddress haddress)
    unfold final at hcases
    rw [hdone] at hcases
    rcases hcases with hassigned | ⟨-, e, m₂, hfail⟩
    · exact ⟨a, element, hcheck, (hsame.assigned hassigned).read⟩
    · cases hfail

end Exec

/-! ## Machines with a host -/

namespace Machine

section Hosted

variable [Host] {m₀ m m' : Machine}

theorem Hosted.trans (h : m₀.Hosted m) (h' : m.Hosted m') : m₀.Hosted m' := by
  induction h' with
  | started => exact h
  | called c _ ih => exact ih.called c
  | passed _ hpasses ih => exact ih.passed hpasses

/-- The heap of a machine that a host can come to is one that calls lead to, of objects with their
shapes. -/
theorem Hosted.reached [Host.Orderly] {image : Image} {settings : Settings} {threshold : Option Level}
    (hcreate : create image settings threshold = .ok m₀) (hhosted : m₀.Hosted m)
    (hfits : m.heap.arena.size < Address.stackStart.toNat) :
    Heap.Reached settings.heap m.heap ∧ m.heap.ShapedBy m.types := by
  have hcalls := hhosted.typedCalls
  obtain ⟨empty, hempty, hled⟩ := (booted_of_create hcreate).heap
  have hnone : empty.ShapedBy m₀.types := by
    rw [(Heap.create_eq_ok hempty).2]
    exact fun o ho => nomatch ho
  obtain ⟨hreached, hshaped, -⟩ :=
    (Heap.Reached.created hempty).shaped hnone (hled.trans hcalls.calls) hfits
  rw [← hcalls.types] at hshaped
  exact ⟨hreached, hshaped⟩

/-- **No index leads out of an array.** -/
structure BoundedElements (m : Machine) : Prop where
  /-- The check answers if and only if the array has the element. -/
  accepts : ∀ type element target index, (m.descriptor type).underlying = some element →
    ((∃ a, m.elementAddress (.array type target) index = .ok (a, element)) ↔
      m.HasElement element target index)
  /-- What it answers is the slot of the element, inside the array's object. -/
  slot : ∀ type element target index a t, (m.descriptor type).underlying = some element →
    m.elementAddress (.array type target) index = .ok (a, t) →
      t = element ∧ m.SlotAt element target index a
  apart : ∀ type element target i j a b, i ≠ j →
    m.elementAddress (.array type target) i = .ok (a, element) →
    m.elementAddress (.array type target) j = .ok (b, element) →
      a.offset + (m.descriptor element).size ≤ b.offset ∨
        b.offset + (m.descriptor element).size ≤ a.offset
  /-- A new array of `n` elements has those below `n`, at once and for as long as its object lives. -/
  made : ∀ type n v m₁, Exec.makeArray type n m = .ok v m₁ →
    ∃ o ∈ m₁.heap.objects, ∃ element, (m.descriptor type).underlying = some element ∧
      v = .array type o.address ∧
      (0 < (m.descriptor element).size → ∀ m₂, m₁.Hosted m₂ →
        m₂.heap.arena.size < Address.stackStart.toNat → o ∈ m₂.heap.objects → ∀ index,
          ((∃ a, m₂.elementAddress v index = .ok (a, element)) ↔ 0 ≤ index ∧ index < n))
  /-- Storing an element changes its slot or nothing. -/
  stores : ∀ (i : Instruction) (length : Nat), i.op = .stelem →
    Exec.StoresElement m (Exec.step length i m)

/-- **No index leads out of an array**, in any machine that a host can come to. -/
theorem boundedElements_of_hosted [Host.Orderly] {image : Image} {settings : Settings} {threshold : Option Level}
    (hcreate : create image settings threshold = .ok m₀) (hhosted : m₀.Hosted m)
    (hfits : m.heap.arena.size < Address.stackStart.toNat) : m.BoundedElements := by
  obtain ⟨hreached, -⟩ := hhosted.reached hcreate hfits
  constructor
  case accepts =>
    intro type element target index helement
    exact elementAddress_ok_iff hreached.inv hreached.top_lt helement
  case slot =>
    intro type element target index a t helement h
    obtain ⟨-, -, -, ht, -⟩ := elementAddress_eq_ok.mp h
    obtain rfl : element = t := Option.some.inj (helement.symm.trans ht)
    exact ⟨rfl, slotAt_of_elementAddress hreached.inv hreached.top_lt h⟩
  case apart =>
    intro type element target i j a b hne hi hj
    exact slots_apart hreached.inv hreached.top_lt hne hi hj
  case made =>
    intro type n v m₁ hmade
    obtain ⟨o, ho, element, helement, rfl, hkind, rfl⟩ := Exec.makeArray_eq_ok hmade
    refine ⟨o, ho, element, helement, rfl, ?_⟩
    intro hpos m₂ hlater hfits₂ ho₂ index
    have hcalled : m₀.Hosted m₁ := by
      have hcall := hhosted.called (.makeArray o.type n)
      unfold HostCall.exec at hcall
      rw [Exec.final_discard, Exec.final, hmade] at hcall
      exact hcall
    have htypes : m₂.types = m.types :=
      hlater.typedCalls.types.trans ((Exec.touches_makeArray o.type n).steady.of_ok hmade).types
    obtain ⟨hreached₂, hshaped₂⟩ := (hcalled.trans hlater).reached hcreate hfits₂
    apply elementAddress_ok_iff_lt hreached₂.inv hreached₂.top_lt hshaped₂ ho₂ hkind
    unfold descriptor at hpos ⊢
    rw [htypes]
    exact hpos
  case stores =>
    intro i length hop
    exact Exec.storesElement m hop length

end Hosted

/-- A host makes an array of two elements and writes over its length. -/
def lengthenPairs (m : Machine) : Machine :=
  [.makeArray ⟨3⟩ 2, .write (.heap 16) [255, 255, 255, 255]].foldl
    (fun m (c : HostCall) => c.exec.final m) m

open scoped Host in
/-- The array says that it has four billion elements. It has the two that it was made with. -/
theorem boundedElements_of_hosted_lengthened : ∃ m₀,
    create pairs pairsSettings none = .ok m₀ ∧
    (lengthenPairs m₀).heap.objects =
      [⟨.heap 8, ⟨0⟩, 8, .statics⟩, ⟨.heap 16, ⟨3⟩, 28, .array ⟨1⟩ 2⟩] ∧
    (lengthenPairs m₀).arrayLength (.array ⟨3⟩ (.heap 16)) = .ok 4294967295 ∧
    (lengthenPairs m₀).elementAddress (.array ⟨3⟩ (.heap 16)) 1 = .ok (.heap 32, ⟨1⟩) ∧
    (lengthenPairs m₀).elementAddress (.array ⟨3⟩ (.heap 16)) 2 =
      .error (.heap (.invalidRange (.heap 16) 12)) ∧
    (lengthenPairs m₀).BoundedElements := by
  have hrun : (create pairs pairsSettings none).toOption.any (fun m₀ =>
      (lengthenPairs m₀).heap.objects =
        [⟨.heap 8, ⟨0⟩, 8, .statics⟩, ⟨.heap 16, ⟨3⟩, 28, .array ⟨1⟩ 2⟩] ∧
      (lengthenPairs m₀).arrayLength (.array ⟨3⟩ (.heap 16)) = .ok 4294967295 ∧
      (lengthenPairs m₀).elementAddress (.array ⟨3⟩ (.heap 16)) 1 = .ok (.heap 32, ⟨1⟩) ∧
      (lengthenPairs m₀).elementAddress (.array ⟨3⟩ (.heap 16)) 2 =
        .error (.heap (.invalidRange (.heap 16) 12)) ∧
      (lengthenPairs m₀).heap.arena.size < Address.stackStart.toNat) = true := by
    decide +kernel
  cases hcreate : create pairs pairsSettings none with
  | error e =>
    rw [hcreate] at hrun
    cases hrun
  | ok m₀ =>
    rw [hcreate] at hrun
    obtain ⟨hobjects, hlength, hlast, hbehind, hfits⟩ := of_decide_eq_true hrun
    have hhosted : m₀.Hosted (lengthenPairs m₀) := Hosted.started.foldl _
    exact ⟨m₀, rfl, hobjects, hlength, hlast, hbehind, boundedElements_of_hosted hcreate hhosted hfits⟩

/-- Without overflow checks an array of 32 structs of 2⁵⁹ bytes is made, and has not even the first of
them. -/
theorem wideArray_refuses_first : ∃ m₀ m,
    @create .unchecked wideArrays pairsSettings none = .ok m₀ ∧
    @Exec.makeArray .unchecked ⟨15⟩ 32 m₀ = .ok (.array ⟨15⟩ (.heap 8)) m ∧
    0 < (m.descriptor ⟨14⟩).size ∧
    m.elementAddress (.array ⟨15⟩ (.heap 8)) 0 = .error (.heap (.invalidRange (.heap 8) (UInt64.size / 32))) := by
  have hrun : (@create .unchecked wideArrays pairsSettings none).toOption.any (fun m₀ =>
      (@Exec.makeArray .unchecked ⟨15⟩ 32).value? m₀ = some (.array ⟨15⟩ (.heap 8)) ∧
      let m := (@Exec.makeArray .unchecked ⟨15⟩ 32).final m₀
      0 < (m.descriptor ⟨14⟩).size ∧ m.elementAddress (.array ⟨15⟩ (.heap 8)) 0 =
        .error (.heap (.invalidRange (.heap 8) (UInt64.size / 32)))) = true := by
    decide +kernel
  cases hcreate : @create .unchecked wideArrays pairsSettings none with
  | error e =>
    rw [hcreate] at hrun
    cases hrun
  | ok m₀ =>
    rw [hcreate] at hrun
    obtain ⟨hmade, hpos, hrefused⟩ := of_decide_eq_true hrun
    exact ⟨m₀, _, rfl, Exec.eq_ok_of_value? hmade, hpos, hrefused⟩

end Machine

end ManagedVm
