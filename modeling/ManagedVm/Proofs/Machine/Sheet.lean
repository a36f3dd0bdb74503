import ManagedVm.Proofs.Machine.FrameSteps
import ManagedVm.Proofs.Machine.Strings

/-!
# Bodies on a sheet

A body that computes with numbers, and with at most one array of numbers that it makes itself, can be
followed on a *sheet*: what its locals and its values are, the numbers in the array, and how far its
scratch is handed out. Addresses are gone from a sheet, as they are from cells; what it has beside them
is the cursor, exactly, and so it tells whether the arena is used up.

`ArrayScene.Shows` says when a machine shows a sheet: its innermost frame mirrors the contents, which are
cells and references to the array, and its heap has the array and nothing else.
-/

namespace ManagedVm

open scoped Naturals

/-! ## Contents -/

/-- The address of the first object of a heap. -/
def Heap.firstAddress : Address := .heap alignment

/-- **What a local or a value of a body is**: a cell, the body's array, or a reference to nothing. -/
inductive Content
  | cell (c : Cell)
  | array
  | null
  deriving DecidableEq

namespace Content

/-- The cell of a number. -/
abbrev number (x : Scalar) : Content := cell (.ofScalar x)

/-- The bytes of a slot with the content. -/
def bytes : Content → List UInt8
  | cell c => c.bytes
  | array => Heap.firstAddress.toBytes
  | null => Address.null.toBytes

/-- Bytes of a slot with the content. -/
def size : Content → Nat
  | cell c => c.kind.size
  | array | null => Address.slotSize

/-- Bytes of scratch that a value with the content takes. -/
def cost : Content → Nat
  | cell c => c.kind.size
  | array | null => 0

/-- The objects that a slot with the content refers to. -/
def targets : Content → List Address
  | array => [Heap.firstAddress]
  | cell _ | null => []

@[simp] theorem length_bytes (c : Content) : c.bytes.length = c.size := by
  cases c with
  | cell c => exact c.length_bytes
  | array => rfl
  | null => rfl

theorem size_pos (c : Content) : 0 < c.size := by
  cases c with
  | cell c => exact c.kind.size_pos
  | array => decide
  | null => decide

end Content

/-- **The sheet of a body.** -/
structure Sheet where
  /-- The evaluation stack, topmost value first. -/
  values : List Content := []
  locals : List Content
  /-- The numbers in the array, once it is made. -/
  array : Option (List Scalar) := none
  /-- The first byte of scratch not handed out. -/
  cursor : Nat
  deriving DecidableEq

namespace Sheet

variable (t : Sheet)

/-- What a sheet says of the frame. -/
def contents : FrameContents Content := { values := t.values, locals := t.locals }

/-- The sheet with a new value. -/
def put (c : Content) : Sheet := { t with values := c :: t.values, cursor := t.cursor + c.cost }

/-- What a local is. -/
def local? (index : Int32) : Option Content :=
  if index < 0 then none else t.locals[index.toInt.toNat]?

/-- The sheet with another content of a local. -/
def setLocal (index : Int32) (c : Content) : Sheet :=
  { t with locals := t.locals.set index.toInt.toNat c }

theorem mem_setLocal {t : Sheet} {index : Int32} {old : Content} (h : t.local? index = some old)
    (c : Content) : c ∈ (t.setLocal index c).locals := by
  unfold local? at h
  split at h
  · cases h
  · obtain ⟨hlt, -⟩ := List.getElem?_eq_some_iff.mp h
    exact List.mem_set hlt c

end Sheet

/-! ## What stays while a body runs -/

/-- The frame has nothing in it that could refer to an object. -/
def Frame.Idle (f : Frame) : Prop :=
  f.receiver = none ∧ f.values = [] ∧ f.locals = [] ∧ f.arguments = []

/-- **What stays as it is while a body that can make an array runs**, beside what stays for any body: the
frames below, which refer to nothing, the heap that the body finds, which is empty, and the type of the
numbers in an array. No place in the arena is too far for an address. -/
structure ArrayScene extends Scene where
  limit_le : limit ≤ Address.stackStart.toNat
  below : List Frame
  idle : ∀ f ∈ below, f.Idle
  settings : Heap.Settings
  /-- The heap before the array is made. -/
  heap : Heap
  created : Heap.create settings = .ok heap
  maxSize_lt : settings.maxSize.toNat < Address.stackStart.toNat
  /-- The type of an element. -/
  element : TypeId
  kind : Kind
  category_element : (types.descriptor element).category = .primitive kind

namespace ArrayScene

variable (g : ArrayScene)

theorem near (cursor : Nat) : g.Near cursor := (Nat.min_le_left _ _).trans g.limit_le

/-- A slot of the type is for such a content. -/
def Suits (type : TypeId) : Content → Prop
  | .cell c => (g.types.descriptor type).category = .primitive c.kind
  | .array | .null => (g.types.descriptor type).category = .array ∧
      (g.types.descriptor type).size = Address.slotSize ∧
      (g.types.descriptor type).underlying = some g.element

/-- A slot is as large as its content. -/
theorem Suits.size_eq {g : ArrayScene} {type : TypeId} {c : Content} (h : g.Suits type c) :
    (g.types.descriptor type).size = c.size := by
  cases c with
  | cell c => exact Scene.size_eq _ h
  | array => exact h.2.1
  | null => exact h.2.1

/-- The value is the array. -/
def IsArray (v : Value) : Prop :=
  ∃ type, v = .array type Heap.firstAddress ∧ (g.types.descriptor type).underlying = some g.element

/-- **The contents of a body with an array**: the array is a value by itself. -/
def coding : Coding Content g.types where
  bytes := Content.bytes
  Suits := g.Suits
  Direct v c := c = .array ∧ g.IsArray v
  cell := .cell
  bytes_ne_nil c := List.length_pos_iff.mp (c.length_bytes ▸ c.size_pos)
  size_eq {_ c} h := h.size_eq.trans c.length_bytes.symm
  bytes_cell _ := rfl
  suits_cell := Iff.rfl
  cell_injective _ _ := Content.cell.inj
  not_direct_cell h := Content.noConfusion h.1

theorem size_coding (c : Content) : g.coding.size c = c.size := c.length_bytes

end ArrayScene

/-! ## Arrays of numbers -/

/-- A call that succeeds leads from a heap to another one. -/
theorem Heap.Reached.of_run {settings : Heap.Settings} {h h' : Heap} (hr : Heap.Reached settings h)
    (hmax : settings.maxSize.toNat < Address.stackStart.toNat) {c : Heap.Call} (hrun : c.run h = .ok h') :
    Heap.Reached settings h' := by
  have hreached := hr.foldl_after hmax [c]
  simp only [List.foldl_cons, List.foldl_nil, Heap.after, hrun] at hreached
  exact hreached

theorem LittleEndian.encode_zero (count : Nat) : encode count 0 = List.replicate count 0 := by
  induction count with
  | zero => rfl
  | succ count ih =>
    rw [encode, Nat.zero_div, ih]
    rfl

/-- The number of a kind with all bytes zero. -/
def Scalar.zero : Kind → Scalar
  | .word k => .word k 0
  | .floating p => .floating p 0
  | .bool => .bool false

theorem Scalar.kind_zero (kind : Kind) : (zero kind).kind = kind := by
  cases kind <;> rfl

theorem Scalar.encode_zero (kind : Kind) : (zero kind).encode = List.replicate kind.size 0 := by
  cases kind with
  | word k => exact LittleEndian.encode_zero _
  | floating p => exact LittleEndian.encode_zero _
  | bool => rfl

section Numbers

variable {kind : Kind} {ws : List Scalar} {i : Nat} {w : Scalar}

/-- The numbers of an array by their bytes, cut at one of them. -/
theorem flatMap_encode_cut (hkinds : ∀ w ∈ ws, w.kind = kind) (hi : ws[i]? = some w) :
    ∃ before behind, before.length = i * kind.size ∧
      ws.flatMap Scalar.encode = before ++ w.encode ++ behind ∧
      ∀ w', (ws.set i w').flatMap Scalar.encode = before ++ w'.encode ++ behind := by
  induction ws generalizing i with
  | nil => cases hi
  | cons x xs ih =>
    cases i with
    | zero =>
      cases hi
      exact ⟨[], xs.flatMap Scalar.encode, by simp, by simp, fun w' => by simp⟩
    | succ i =>
      obtain ⟨before, behind, hlength, heq, hset⟩ :=
        ih (fun w hw => hkinds w (List.mem_cons_of_mem _ hw)) hi
      refine ⟨x.encode ++ before, behind, ?_, ?_, fun w' => ?_⟩
      · rw [List.length_append, Scalar.length_encode, hkinds x List.mem_cons_self, hlength,
          Nat.succ_mul, Nat.add_comm]
      · simp [heq]
      · simp [hset w']

/-- The bytes of an array of numbers: how many they are, then the numbers. -/
def Heap.arrayBytes (ws : List Scalar) : List UInt8 :=
  LittleEndian.encode Machine.lengthSize ws.length ++ ws.flatMap Scalar.encode

/-- Where a number of an array is. -/
def Heap.elementPlace (kind : Kind) (i : Nat) : Nat := i * kind.size + Machine.lengthSize

/-- A number of an array lies inside the array. -/
theorem Heap.elementPlace_add_le (hi : ws[i]? = some w) :
    elementPlace kind i + kind.size ≤ Machine.lengthSize + kind.size * ws.length := by
  obtain ⟨hlt, -⟩ := List.getElem?_eq_some_iff.mp hi
  have hle : (i + 1) * kind.size ≤ ws.length * kind.size := Nat.mul_le_mul_right _ hlt
  rw [Nat.succ_mul] at hle
  rw [elementPlace, Nat.mul_comm kind.size]
  omega

/-- **The bytes of an array, cut at one of its numbers.** -/
theorem Heap.arrayBytes_cut (hkinds : ∀ w ∈ ws, w.kind = kind) (hi : ws[i]? = some w) :
    ∃ before behind, before.length = elementPlace kind i ∧
      arrayBytes ws = before ++ w.encode ++ behind ∧
      ∀ w', arrayBytes (ws.set i w') = before ++ w'.encode ++ behind := by
  obtain ⟨before, behind, hlength, heq, hset⟩ := flatMap_encode_cut hkinds hi
  refine ⟨LittleEndian.encode Machine.lengthSize ws.length ++ before, behind, ?_, ?_, fun w' => ?_⟩
  · rw [List.length_append, LittleEndian.length_encode, hlength, elementPlace, Nat.add_comm]
  · simp [arrayBytes, heq]
  · simp [arrayBytes, hset w']

/-- The bytes of an array of zeros. -/
theorem Heap.arrayBytes_zeros (kind : Kind) (n : Nat) :
    arrayBytes (List.replicate n (Scalar.zero kind)) =
      LittleEndian.encode Machine.lengthSize n ++ List.replicate (kind.size * n) 0 := by
  rw [arrayBytes, List.length_replicate, List.flatMap_replicate, Scalar.encode_zero,
    List.flatten_replicate_replicate, Nat.mul_comm]

end Numbers

namespace ArrayScene

variable (g : ArrayScene)

/-- Bytes of an array of so many numbers. -/
def arraySize (length : Nat) : Nat := Machine.lengthSize + g.kind.size * length

/-- The array as an object. -/
def object (type : TypeId) (length : Nat) : Heap.Object :=
  ⟨Heap.firstAddress, type, g.arraySize length, .array g.element length⟩

/-- The address of a number of the array. -/
def addressOf (i : Nat) : Address := Heap.firstAddress.add (Heap.elementPlace g.kind i)

/-- **The heap has the array with its numbers**, and nothing else. -/
structure Houses (ws : List Scalar) (h : Heap) : Prop where
  reached : Heap.Reached g.settings h
  entry : ∃ type, h.objects = [g.object type ws.length] ∧
    h.view Heap.firstAddress = some ⟨g.object type ws.length, Heap.arrayBytes ws⟩
  kinds : ∀ w ∈ ws, w.kind = g.kind
  short : ws.length < UInt32.size
  allocations : h.allocations = 1
  frees : h.frees = 0

/-- The heap has what the sheet says: the array, or what the body found. -/
def Keeps : Option (List Scalar) → Heap → Prop
  | none, h => h = g.heap
  | some ws, h => g.Houses ws h

variable {g : ArrayScene} {ws : List Scalar}

namespace Houses

theorem get {h : Heap} (hh : g.Houses ws h) :
    ∃ type, h.objects = [g.object type ws.length] ∧
      h.get Heap.firstAddress = .ok (g.object type ws.length) := by
  obtain ⟨type, hobjects, -⟩ := hh.entry
  refine ⟨type, hobjects, (Heap.get_eq_ok_iff hh.reached.inv).mpr ⟨?_, rfl⟩⟩
  rw [hobjects]
  exact List.mem_singleton_self _

theorem readLength {m : Machine} (h : g.Houses ws m.heap) :
    m.readLength Heap.firstAddress = .ok ws.length := by
  obtain ⟨type, -, hv⟩ := h.entry
  have hread := Machine.read_of_view h.reached.inv h.reached.top_lt hv 0 Machine.lengthSize
    (by simp [Heap.arrayBytes])
  rw [Address.add_zero] at hread
  have hfits : ws.length < 256 ^ Machine.lengthSize := h.short
  unfold Machine.readLength
  rw [hread]
  simp only [Heap.arrayBytes, List.drop_zero, Except.map]
  rw [List.take_append_of_le_length (by simp), LittleEndian.take_encode, LittleEndian.decode_encode,
    Nat.mod_eq_of_lt hfits]

variable {i : Nat} {w w' : Scalar}

theorem read {m : Machine} (h : g.Houses ws m.heap) (hi : ws[i]? = some w) :
    m.read (g.addressOf i) g.kind.size = .ok w.encode := by
  obtain ⟨type, -, hv⟩ := h.entry
  obtain ⟨before, behind, hlength, heq, -⟩ := Heap.arrayBytes_cut h.kinds hi
  have hw : w.encode.length = g.kind.size := by
    rw [Scalar.length_encode, h.kinds w (List.mem_of_getElem? hi)]
  rw [addressOf, Machine.read_of_view h.reached.inv h.reached.top_lt hv _ _ ?_]
  · simp only [heq]
    rw [List.append_assoc, List.drop_left' hlength, List.take_left' hw]
  · simp only [heq, List.length_append]
    omega

/-- **Another number of the kind can be written in place of one of the array.** -/
theorem poke {h : Heap} (hh : g.Houses ws h) (hi : ws[i]? = some w) (hkind : w'.kind = g.kind) :
    h.inRange (g.addressOf i) w'.encode.length = true ∧
      g.Houses (ws.set i w') (h.poke (g.addressOf i) w'.encode) := by
  obtain ⟨type, hobjects, hv⟩ := hh.entry
  obtain ⟨before, behind, hlength, heq, hset⟩ := Heap.arrayBytes_cut hh.kinds hi
  have hw : w.encode.length = g.kind.size := by
    rw [Scalar.length_encode, hh.kinds w (List.mem_of_getElem? hi)]
  have hw' : w'.encode.length = g.kind.size := by rw [Scalar.length_encode, hkind]
  have hfits : Heap.elementPlace g.kind i + w'.encode.length ≤ (g.object type ws.length).size := by
    rw [hw']
    exact Heap.elementPlace_add_le hi
  have ho : g.object type ws.length ∈ h.objects := by
    rw [hobjects]
    exact List.mem_singleton_self _
  have hrange := (hh.reached.inv.inRange_inside hh.reached.top_lt ho hfits).2
  have hok : h.write (g.addressOf i) w'.encode =
      .ok (h.poke (g.addressOf i) w'.encode) := if_pos hrange
  refine ⟨hrange, hh.reached.of_run g.maxSize_lt (c := .write (g.addressOf i) w'.encode) hok,
    ⟨type, ?_, ?_⟩, ?_, ?_, hh.allocations, hh.frees⟩
  · rw [List.length_set]
    exact hobjects
  · rw [addressOf, Heap.view_poke_self hh.reached.inv hh.reached.top_lt hv _ _ hfits, List.length_set,
      Heap.Entry.put]
    simp only [heq, hset w']
    rw [List.append_assoc before, List.take_left' hlength, ← List.append_assoc before,
      List.drop_left' (by rw [List.length_append, hlength, hw, hw'])]
  · intro x hx
    rcases List.mem_or_eq_of_mem_set hx with hx | rfl
    · exact hh.kinds x hx
    · exact hkind
  · rw [List.length_set]
    exact hh.short

end Houses

/-- **The heap that the body finds has room for an array**, at its first address. -/
theorem houses_new (g : ArrayScene) (type : TypeId) {n : Nat} (hshort : n < UInt32.size)
    (hfits : Heap.alignment + Heap.reserved (g.arraySize n) ≤ g.settings.maxSize.toNat) :
    ∃ p h, g.heap.plan (g.arraySize n) = .ok p ∧ p.start = Heap.alignment ∧
      g.heap.occupy p (g.arraySize n) type (.array g.element n) = h ∧
      h.inRange Heap.firstAddress Machine.lengthSize = true ∧
      g.Houses (List.replicate n (.zero g.kind))
        (h.poke Heap.firstAddress (LittleEndian.encode Machine.lengthSize n)) := by
  obtain ⟨-, hfresh⟩ := Heap.create_eq_ok g.created
  have hr : Heap.Reached g.settings g.heap := .created g.created
  -- Nothing is on the heap, so the array goes to its first address.
  obtain ⟨p, hplan, hstart⟩ : ∃ p, g.heap.plan (g.arraySize n) = .ok p ∧ p.start = Heap.alignment := by
    have hlt : Heap.reserved (g.arraySize n) < UInt64.size := by
      have hmax := g.settings.maxSize.toNat_lt_size
      omega
    rw [hfresh]
    exact ⟨_, Heap.plan_of_room (Heap.reserved_lt_iff.mp hlt) rfl hfits, rfl⟩
  obtain ⟨h, hh⟩ : ∃ h, g.heap.occupy p (g.arraySize n) type (.array g.element n) = h := ⟨_, rfl⟩
  have hr₁ : Heap.Reached g.settings h := by
    apply hr.of_run g.maxSize_lt (c := .allocate (g.arraySize n) type (.array g.element n))
    rw [Heap.Call.run, Heap.allocate_eq_map, hplan, ← hh]
    rfl
  have hview : h.view Heap.firstAddress = some ⟨g.object type n, List.replicate (g.arraySize n) 0⟩ := by
    subst hh
    have hview := congrFun (Heap.view_occupy hr.inv (hr.inv.plan_sound hplan) hr₁.inv) (.heap p.start)
    rw [Function.update_self, hstart] at hview
    exact hview
  have hcontents : h.objects = [g.object type n] ∧ h.allocations = 1 ∧ h.frees = 0 := by
    rw [← hh, hfresh]
    refine ⟨?_, rfl, rfl⟩
    show [Heap.Object.mk (.heap p.start) _ _ _] = _
    rw [hstart]
    rfl
  have hbytes := Heap.arrayBytes_zeros g.kind n
  have hlength := LittleEndian.length_encode Machine.lengthSize n
  generalize LittleEndian.encode Machine.lengthSize n = data at hbytes hlength ⊢
  have hinside : 0 + data.length ≤ (g.object type n).size := by
    rw [hlength, Nat.zero_add]
    exact Nat.le_add_right _ _
  have ho : g.object type n ∈ h.objects := hcontents.1 ▸ List.mem_singleton_self _
  have hrange := (hr₁.inv.inRange_inside hr₁.top_lt ho hinside).2
  have hpoked := Heap.view_poke_self hr₁.inv hr₁.top_lt hview 0 data hinside
  rw [Address.add_zero] at hrange hpoked
  have hwrite : h.write Heap.firstAddress data = .ok (h.poke Heap.firstAddress data) := if_pos hrange
  have hr₂ := hr₁.of_run g.maxSize_lt (c := .write Heap.firstAddress data) hwrite
  refine ⟨p, h, hplan, hstart, hh, hlength ▸ hrange, hr₂, ⟨type, ?_, ?_⟩, ?_, ?_, hcontents.2.1,
    hcontents.2.2⟩
  · rw [List.length_replicate]
    exact hcontents.1
  · rw [hpoked, List.length_replicate, hbytes, Heap.Entry.put]
    simp only [hlength, List.take_zero, List.nil_append, List.drop_replicate, arraySize, Nat.zero_add,
      Nat.add_sub_cancel_left]
  · intro w hw
    rw [List.eq_of_mem_replicate hw, Scalar.kind_zero]
  · rw [List.length_replicate]
    exact hshort

/-! ## Machines that show a sheet -/

/-- What lies outside the frame of a body, while the heap is the given one. -/
def outside (g : ArrayScene) (heap : Heap) : Outside where
  heap
  inFlight := []
  below := g.below
  receiver := none

/-- **A machine shows a sheet**: its innermost frame mirrors the contents, and its heap has the array. -/
structure Shows (g : ArrayScene) (m : Machine) (t : Sheet) : Prop where
  mirrors : g.Mirrors g.coding (g.outside m.heap) [] t.cursor m t.contents
  heap : g.Keeps t.array m.heap

section Machines

variable {m : Machine} {t : Sheet} {heap : Heap} {held : List (Value × Content)} {cursor : Nat}
  {s : FrameContents Content} {v : Value} {c : Content}

/-- Values that are held are of no account for a sheet. -/
theorem shows_of_mirrors (h : g.Mirrors g.coding (g.outside heap) held t.cursor m t.contents)
    (hkeeps : g.Keeps t.array heap) : g.Shows m t := by
  obtain rfl : m.heap = heap := h.heap
  exact ⟨h.forget (List.nil_subset _), hkeeps⟩

namespace Shows

theorem cursor_le (h : g.Shows m t) : t.cursor ≤ g.limit := by
  obtain ⟨f, -, hf⟩ := h.mirrors.frame
  rw [← hf.cursor_eq]
  exact hf.cursor_le.trans hf.stop_le

theorem noting (h : g.Shows m t) (e : Event) : g.Shows (m.noting e) t :=
  ⟨h.mirrors.noting e, h.heap⟩

/-- The array is on the heap. -/
theorem houses (h : g.Shows m t) (harray : t.array = some ws) : g.Houses ws m.heap := by
  have hkeeps := h.heap
  rw [harray] at hkeeps
  exact hkeeps

end Shows

/-- A value that stands for the array is the array. -/
theorem isArray_of_held (h : g.Mirrors g.coding (g.outside heap) held cursor m s)
    (hv : (v, .array) ∈ held) : g.IsArray v := by
  obtain ⟨f, -, hf⟩ := h.frame
  cases hf.held _ hv with
  | cell type place w _ hc => cases hc
  | direct hdirect => exact hdirect.2

/-- The array can be held wherever it comes from. -/
theorem hold_array (h : g.Mirrors g.coding (g.outside heap) held cursor m s) (hv : g.IsArray v) :
    g.Mirrors g.coding (g.outside heap) ((v, .array) :: held) cursor m s := by
  obtain ⟨f, hframes, hf⟩ := h.frame
  exact { h with frame := ⟨f, hframes, { hf with toMirror := hf.toMirror.hold (.direct ⟨rfl, hv⟩) }⟩ }

theorem readIndex_of_held (h : g.Mirrors g.coding (g.outside heap) held cursor m s) {x : Scalar}
    (hv : (v, .number x) ∈ held) : m.readIndex v = .ok (WordKind.long.value (x.toWord .long)) := by
  unfold Machine.readIndex
  rw [h.readScalar (k := g.coding) (w := .ofScalar x) hv, Cell.scalar_ofScalar]
  rfl

/-! ## References to the array -/

theorem storedAddress_slot (h : g.Mirrors g.coding (g.outside heap) held cursor m s) {place : Nat}
    {a : Address} (hholds : m.stack.arena.Holds place a.toBytes)
    (hend : place + Address.slotSize ≤ cursor) : m.storedAddress (.stack place) = .ok a := by
  have hread : m.stack.arena.read place Address.slotSize = a.toBytes := by
    rw [← LittleEndian.length_encode Address.slotSize a.raw.toNat]
    exact hholds
  unfold Machine.storedAddress
  rw [h.read_stack hend (by decide), hread]
  dsimp only [bind, Except.bind]
  rw [Address.ofBytes?_toBytes]
  rfl

theorem referencesIn_slot (h : g.Mirrors g.coding (g.outside heap) held cursor m s) {type : TypeId}
    {place : Nat} (hsuits : g.Suits type c) (hholds : m.stack.arena.Holds place c.bytes)
    (hend : place + c.size ≤ cursor) : m.referencesIn (.stack place) type = .ok c.targets := by
  cases c with
  | cell c => exact Exec.referencesIn_primitive h hsuits _
  | array =>
    unfold Machine.referencesIn Machine.nesting Machine.referencesAt
    dsimp only
    rw [h.descriptor, hsuits.1, storedAddress_slot h hholds hend]
    rfl
  | null =>
    unfold Machine.referencesIn Machine.nesting Machine.referencesAt
    dsimp only
    rw [h.descriptor, hsuits.1, storedAddress_slot h hholds hend]
    rfl

/-- A frame in which nothing is refers to nothing. -/
theorem frameRefersTo_idle {f : Frame} (hf : f.Idle) (target : Address) :
    m.frameRefersTo target f = .ok false := by
  obtain ⟨hreceiver, hvalues, hlocals, harguments⟩ := hf
  unfold Machine.frameRefersTo
  rw [hreceiver, hvalues, hlocals, harguments]
  rfl

theorem ownedTargets_stands {arena : Arena} {low high : Nat} (hv : g.coding.Stands arena low high v c) :
    ∃ targets, m.ownedTargets v = .ok targets := by
  cases hv with
  | cell type place w hv =>
    subst hv
    exact ⟨_, rfl⟩
  | direct hdirect =>
    obtain ⟨-, type, rfl, -⟩ := hdirect
    exact ⟨_, rfl⟩

/-- **A local that is the array refers to it.** -/
theorem isReferenced_array (h : g.Mirrors g.coding (g.outside heap) held cursor m s)
    (hmem : .array ∈ s.locals) : m.isReferenced Heap.firstAddress = .ok true := by
  obtain ⟨f, hframes, hf⟩ := h.frame
  have hcursor := hf.cursor_eq
  have hscratch := hf.scratch_le
  obtain ⟨middle, hlocals, harguments⟩ := hf.slots
  have hmiddle := harguments.le
  have hvalues : ∃ b, m.valuesReferTo Heap.firstAddress (f.receiver.toList ++ f.values.reverse) = .ok b := by
    rw [hf.receiver]
    apply except_anyM_ok
    intro v hv
    obtain ⟨c, -, hc⟩ := exists_of_forall₂_mem hf.values (List.mem_reverse.mp hv)
    obtain ⟨targets, htargets⟩ := ownedTargets_stands (m := m) hc
    rw [htargets]
    exact ⟨_, rfl⟩
  have hslot : ∀ {b : Binding} {place : Nat} {c : Content}, b.address = .stack place → g.Suits b.type c →
      m.stack.arena.Holds place c.bytes → place + g.coding.size c ≤ f.scratch →
        m.referencesIn b.address b.type = .ok c.targets := by
    intro b place c haddress hsuits hholds hend
    rw [g.size_coding] at hend
    rw [haddress]
    exact referencesIn_slot h hsuits hholds (by omega)
  have hslots : m.slotsReferTo Heap.firstAddress (f.locals ++ f.arguments) = .ok true := by
    obtain ⟨i, hi⟩ := List.mem_iff_getElem?.mp hmem
    obtain ⟨type, place, hget, hsuits, hholds, -, hend, -⟩ := hlocals.slot hi
    refine except_anyM_of_mem ?_ (List.mem_append_left _ (List.mem_of_getElem? hget)) ?_
    · intro b hb
      rcases List.mem_append.mp hb with hb | hb
      · obtain ⟨place, c, haddress, -, hsuits, hholds, hend⟩ := hlocals.mem hb
        rw [hslot haddress hsuits hholds (hend.trans hmiddle)]
        exact ⟨_, rfl⟩
      · obtain ⟨place, c, haddress, -, hsuits, hholds, hend⟩ := harguments.mem hb
        rw [hslot haddress hsuits hholds hend]
        exact ⟨_, rfl⟩
    · rw [hslot (b := ⟨type, .stack place⟩) (c := .array) rfl hsuits hholds (hend.trans hmiddle)]
      decide
  have hframe : m.frameRefersTo Heap.firstAddress f = .ok true := by
    obtain ⟨b, hb⟩ := hvalues
    unfold Machine.frameRefersTo
    rw [hb, hslots]
    cases b with
    | true => rfl
    | false => rfl
  have hany : m.stack.frames.reverse.anyM (m.frameRefersTo Heap.firstAddress) = .ok true := by
    refine except_anyM_of_mem ?_ (List.mem_reverse.mpr (hframes ▸ List.mem_cons_self)) hframe
    intro f' hf'
    rw [List.mem_reverse, hframes] at hf'
    rcases List.mem_cons.mp hf' with rfl | hf'
    · exact ⟨true, hframe⟩
    · exact ⟨false, frameRefersTo_idle (g.idle f' hf') _⟩
  unfold Machine.isReferenced
  rw [hany]
  rfl

/-- **Letting go of the array frees nothing** while a local is the array. -/
theorem releaseValue_array (h : g.Mirrors g.coding (g.outside heap) held cursor m s)
    (hhouses : g.Houses ws heap) (hmem : .array ∈ s.locals) (hv : (v, .array) ∈ held) :
    Exec.releaseValue v m = .ok ⟨⟩ m := by
  obtain ⟨type, rfl, -⟩ := isArray_of_held h hv
  obtain ⟨type', hobjects, hget⟩ := hhouses.get
  rw [← show m.heap = heap from h.heap] at hobjects hget
  have hnone : m.firstDead [Heap.firstAddress] = .ok none := by
    unfold Machine.firstDead
    rw [hget]
    dsimp only
    rw [if_neg (by simp [object]), isReferenced_array h hmem]
    rfl
  have hcount : Exec.query (fun m => .ok m.heap.objects.length) m = .ok 1 m := by
    apply Exec.query_of_ok
    rw [hobjects]
    rfl
  have hquery : Exec.query (·.firstDead [Heap.firstAddress].reverse) m = .ok none m :=
    Exec.query_of_ok hnone
  have hrelease : Exec.release [Heap.firstAddress] m = .ok ⟨⟩ m := by
    unfold Exec.release
    rw [Exec.bind_of_ok hcount]
    unfold Exec.releaseUpTo
    rw [Exec.bind_of_ok hquery]
    rfl
  have htargets : Exec.query (·.ownedTargets (.array type Heap.firstAddress)) m =
      .ok [Heap.firstAddress] m := rfl
  exact (Exec.bind_of_ok htargets).trans hrelease

end Machines

end ArrayScene

end ManagedVm
