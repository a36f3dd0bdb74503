import ManagedVm.Proofs.Machine.Balance
import ManagedVm.Proofs.Machine.Cells

/-!
# The contents of a frame

In the machine a primitive value is a handle, a type and the address of bytes in the frame, and a reference
is the address of an object. What a body computes with is behind that: its slots and its values have
*contents*. A `Coding` says how contents are laid out, and `Scene.Mirrors` when the innermost frame has
given ones. Operations on frames keep it so. Whatever the contents of a body are, some of them are cells,
and cells are what instructions compute with.

Three facts carry the invariant. The slots lie side by side below the scratch, so that a write to one of
them changes no other one and no value. The bytes of a value lie in scratch that was handed out, and
scratch is handed out once, so that nothing ever writes to a value again. And a frame that is extended
keeps its bytes. A value that was popped still stands for its content: such values are *held*.
-/

namespace ManagedVm

open scoped Naturals

/-! ## Bytes in the arena -/

namespace Arena

variable {a a' : Arena} {start : Nat} {bytes : List UInt8}

/-- Bytes lie in the arena. -/
def Holds (a : Arena) (start : Nat) (bytes : List UInt8) : Prop := a.read start bytes.length = bytes

theorem Holds.congr (h : a.Holds start bytes)
    (hbytes : ∀ i, start ≤ i → i < start + bytes.length → a'.byte i = a.byte i) : a'.Holds start bytes :=
  (read_congr hbytes).trans h

theorem holds_write (a : Arena) (start : Nat) (bytes : List UInt8) :
    (a.write start bytes).Holds start bytes :=
  read_write a start bytes

end Arena

theorem Kind.size_pos (k : Kind) : 0 < k.size := by
  rcases k with k | p | _
  · cases k <;> decide
  · cases p <;> decide
  · decide

theorem Kind.size_le (k : Kind) : k.size ≤ 8 := by
  rcases k with k | p | _
  · cases k <;> decide
  · cases p <;> decide
  · decide

/-! ## Codings -/

/-- **How contents are laid out.** A content has bytes in a slot, and there are types of slots for it. A value
of a content that is a cell has the cell's bytes in scratch; any other one stands for its content by
itself. -/
structure Coding (C : Type) (types : TypeTable) where
  /-- The bytes of a slot with the content. -/
  bytes : C → List UInt8
  /-- A slot of the type is for such a content. -/
  Suits : TypeId → C → Prop
  /-- The value stands for the content by itself. -/
  Direct : Value → C → Prop
  /-- The cells among the contents. -/
  cell : Cell → C
  bytes_ne_nil : ∀ c, bytes c ≠ []
  size_eq : ∀ {type c}, Suits type c → (types.descriptor type).size = (bytes c).length
  bytes_cell : ∀ c, bytes (cell c) = c.bytes
  suits_cell : ∀ {type c}, Suits type (cell c) ↔ (types.descriptor type).category = .primitive c.kind
  cell_injective : Function.Injective cell
  not_direct_cell : ∀ {v c}, ¬ Direct v (cell c)

namespace Coding

variable {C : Type} {types : TypeTable} (k : Coding C types)

/-- Bytes of a slot with the content. -/
def size (c : C) : Nat := (k.bytes c).length

@[simp] theorem size_cell (c : Cell) : k.size (k.cell c) = c.kind.size := by
  rw [size, k.bytes_cell, c.length_bytes]

theorem size_pos (c : C) : 0 < k.size c := List.length_pos_iff.mpr (k.bytes_ne_nil c)

/-- Contents of slots of one type are as large as each other. -/
theorem size_eq_size {k : Coding C types} {type : TypeId} {c c' : C} (h : k.Suits type c)
    (h' : k.Suits type c') : k.size c = k.size c' :=
  (k.size_eq h).symm.trans (k.size_eq h')

/-- **Contents in slots that lie side by side**, from a byte of the arena to another. -/
inductive Slots (arena : Arena) : Nat → List Binding → List C → Nat → Prop
  | nil {start : Nat} : Slots arena start [] [] start
  | cons {start stop : Nat} {type : TypeId} {bs : List Binding} {c : C} {cs : List C} :
      k.Suits type c → arena.Holds start (k.bytes c) → Slots arena (start + k.size c) bs cs stop →
        Slots arena start (⟨type, .stack start⟩ :: bs) (c :: cs) stop

/-- **A value stands for a content**: the bytes of a cell lie between two bytes of the arena. -/
inductive Stands (arena : Arena) (low high : Nat) (v : Value) (c : C) : Prop
  | cell (type : TypeId) (place : Nat) (w : Cell) :
      v = .primitive type (.stack place) → c = k.cell w →
        (types.descriptor type).category = .primitive w.kind → arena.Holds place w.bytes →
        low ≤ place → place + w.kind.size ≤ high → Stands arena low high v c
  | direct : k.Direct v c → Stands arena low high v c

variable {k} {arena arena' : Arena}

namespace Slots

variable {start stop : Nat} {bs : List Binding} {cs : List C}

theorem le (h : k.Slots arena start bs cs stop) : start ≤ stop := by
  induction h with
  | nil => exact Nat.le_refl _
  | cons _ _ _ ih => omega

theorem length_eq (h : k.Slots arena start bs cs stop) : bs.length = cs.length := by
  induction h with
  | nil => rfl
  | cons _ _ _ ih => simp [ih]

theorem eq_nil (h : k.Slots arena start bs [] stop) : bs = [] := by
  cases h with
  | nil => rfl

theorem congr (h : k.Slots arena start bs cs stop)
    (hbytes : ∀ i, start ≤ i → i < stop → arena'.byte i = arena.byte i) :
    k.Slots arena' start bs cs stop := by
  induction h with
  | nil => exact .nil
  | @cons start stop type bs c cs hsuits hholds hrest ih =>
    have hle : start + (k.bytes c).length ≤ stop := hrest.le
    refine .cons hsuits (hholds.congr ?_) (ih ?_)
    · intro i hstart hi
      exact hbytes i hstart (by omega)
    · intro i hi hstop
      exact hbytes i (Nat.le_trans (Nat.le_add_right _ _) hi) hstop

/-- **A slot has its content**, and a write of another one there changes only that. -/
theorem slot (h : k.Slots arena start bs cs stop) {i : Nat} {c : C} (hi : cs[i]? = some c) :
    ∃ type place, bs[i]? = some ⟨type, .stack place⟩ ∧ k.Suits type c ∧ arena.Holds place (k.bytes c) ∧
      start ≤ place ∧ place + k.size c ≤ stop ∧
      ∀ c', k.Suits type c' → k.Slots (arena.write place (k.bytes c')) start bs (cs.set i c') stop := by
  induction h generalizing i with
  | nil => cases hi
  | @cons start stop type bs c₀ cs hsuits hholds hrest ih =>
    have hle := hrest.le
    cases i with
    | zero =>
      cases hi
      refine ⟨type, start, rfl, hsuits, hholds, Nat.le_refl _, hle, ?_⟩
      intro c' hsuits'
      refine .cons hsuits' (Arena.holds_write _ _ _) ?_
      rw [size_eq_size hsuits' hsuits]
      refine hrest.congr fun i hi _ => Arena.byte_write_of_le ?_
      rw [← size, size_eq_size hsuits' hsuits]
      exact hi
    | succ i =>
      obtain ⟨type', place, hget, hsuits', hholds', hstart, hstop, hwrite⟩ := ih hi
      refine ⟨type', place, hget, hsuits', hholds', Nat.le_trans (Nat.le_add_right _ _) hstart, hstop, ?_⟩
      intro c' hsuits''
      refine .cons hsuits (hholds.congr ?_) (hwrite c' hsuits'')
      intro i _ hi
      exact Arena.byte_write_of_lt (Nat.lt_of_lt_of_le hi hstart) _

/-- Every slot is one of a content. -/
theorem mem (h : k.Slots arena start bs cs stop) {b : Binding} (hb : b ∈ bs) :
    ∃ place c, b.address = .stack place ∧ c ∈ cs ∧ k.Suits b.type c ∧ arena.Holds place (k.bytes c) ∧
      place + k.size c ≤ stop := by
  induction h with
  | nil => cases hb
  | @cons start stop type bs c cs hsuits hholds hrest ih =>
    rcases List.mem_cons.mp hb with rfl | hb
    · exact ⟨start, c, rfl, List.mem_cons_self, hsuits, hholds, hrest.le⟩
    · obtain ⟨place, c', haddress, hc', hrest'⟩ := ih hb
      exact ⟨place, c', haddress, List.mem_cons_of_mem _ hc', hrest'⟩

end Slots

section Stands

variable {low high high' : Nat} {v : Value} {c : C}

theorem Stands.congr (h : k.Stands arena low high v c) (hhigh : high ≤ high')
    (hbytes : ∀ i, low ≤ i → i < high → arena'.byte i = arena.byte i) :
    k.Stands arena' low high' v c := by
  cases h with
  | cell type place w hv hc hcategory hholds hlow hend =>
    refine .cell type place w hv hc hcategory (hholds.congr ?_) hlow (by omega)
    intro i hi hstop
    rw [w.length_bytes] at hstop
    exact hbytes i (by omega) (by omega)
  | direct hdirect => exact .direct hdirect

/-- What stands for a cell is a handle on its bytes. -/
theorem Stands.of_cell {w : Cell} (h : k.Stands arena low high v (k.cell w)) :
    ∃ type place, v = .primitive type (.stack place) ∧
      (types.descriptor type).category = .primitive w.kind ∧ arena.Holds place w.bytes ∧
      low ≤ place ∧ place + w.kind.size ≤ high := by
  cases h with
  | cell type place w' hv hc hcategory hholds hlow hend =>
    cases k.cell_injective hc
    exact ⟨type, place, hv, hcategory, hholds, hlow, hend⟩
  | direct hdirect => exact absurd hdirect k.not_direct_cell

end Stands

end Coding

/-! ## Contents of a frame -/

/-- **What a frame has in it.** -/
structure FrameContents (C : Type) where
  /-- The evaluation stack, topmost content first. -/
  values : List C := []
  locals : List C
  arguments : List C := []

namespace FrameContents

variable {C : Type} (s : FrameContents C)

/-- The contents of a row of slots. -/
def slots : Cells.Bank → List C
  | .locals => s.locals
  | .arguments => s.arguments

/-- The content of a slot. -/
def slot? (bank : Cells.Bank) (index : Int32) : Option C :=
  if index < 0 then none else (s.slots bank)[index.toInt.toNat]?

/-- The contents with another one in a slot. -/
def setSlot (index : Int32) (c : C) : Cells.Bank → FrameContents C
  | .locals => { s with locals := s.locals.set index.toInt.toNat c }
  | .arguments => { s with arguments := s.arguments.set index.toInt.toNat c }

end FrameContents

/-- The slots of a row of a frame. -/
def Cells.Bank.bindings (f : Frame) : Bank → List Binding
  | locals => f.locals
  | arguments => f.arguments

/-- A slot of a row of a frame. -/
def Cells.Bank.choose (index : Int32) : Bank → Frame → Except Error Binding
  | locals => (·.getLocal index)
  | arguments => (·.getArgument index)

theorem Cells.Bank.choose_of_some {bank : Bank} {f : Frame} {index : Int32} {b : Binding}
    (h : Frame.slotAt? (bank.bindings f) index = some b) : bank.choose index f = .ok b := by
  cases bank with
  | locals => exact Frame.getLocal_eq_ok.mpr h
  | arguments => exact Frame.getArgument_eq_ok.mpr h

theorem Cells.Bank.choose_of_none {bank : Bank} {f : Frame} {index : Int32}
    (h : Frame.slotAt? (bank.bindings f) index = none) :
    bank.choose index f = .error (bank.unknown index) := by
  cases bank with
  | locals =>
    change Frame.slotAt? f.locals index = none at h
    show f.getLocal index = _
    unfold Frame.getLocal
    rw [h]
    rfl
  | arguments =>
    change Frame.slotAt? f.arguments index = none at h
    show f.getArgument index = _
    unfold Frame.getArgument
    rw [h]
    rfl

namespace Coding

variable {C : Type} {types : TypeTable}

/-- **A frame mirrors contents**, beside those of values that are held. -/
structure Mirror (k : Coding C types) (arena : Arena) (held : List (Value × C)) (f : Frame)
    (s : FrameContents C) : Prop where
  slots : ∃ middle, k.Slots arena f.base f.locals s.locals middle ∧
    k.Slots arena middle f.arguments s.arguments f.scratch
  values : List.Forall₂ (k.Stands arena f.scratch f.cursor) f.values s.values
  held : ∀ p ∈ held, k.Stands arena f.scratch f.cursor p.1 p.2
  scratch_le : f.scratch ≤ f.cursor
  cursor_le : f.cursor ≤ f.stop

namespace Mirror

variable {k : Coding C types} {arena arena' : Arena} {held held' : List (Value × C)} {f f' : Frame}
  {s : FrameContents C} {v : Value} {c : C}

theorem base_le (h : k.Mirror arena held f s) : f.base ≤ f.scratch := by
  obtain ⟨middle, hlocals, harguments⟩ := h.slots
  exact hlocals.le.trans harguments.le

theorem forget (h : k.Mirror arena held f s) (hheld : held' ⊆ held) : k.Mirror arena held' f s :=
  { h with held := fun p hp => h.held p (hheld hp) }

/-- Scratch that is handed out and bytes behind what was handed out before do not matter. -/
theorem steady (h : k.Mirror arena held f s) (hf : f.Steady f')
    (hbytes : ∀ i < f.cursor, arena'.byte i = arena.byte i) : k.Mirror arena' held f' s := by
  have hscratch := h.scratch_le
  obtain ⟨middle, hlocals, harguments⟩ := h.slots
  have hmiddle := harguments.le
  have hcursor := hf.cursor_le
  have hbase : f'.base = f.base := by rw [hf.same]
  have hscratch' : f'.scratch = f.scratch := by rw [hf.same]
  have hlocals' : f'.locals = f.locals := by rw [hf.same]
  have harguments' : f'.arguments = f.arguments := by rw [hf.same]
  have hstands : ∀ v c, k.Stands arena f.scratch f.cursor v c →
      k.Stands arena' f'.scratch f'.cursor v c := by
    intro v c hv
    rw [hscratch']
    exact hv.congr hcursor fun i _ hi => hbytes i hi
  refine ⟨⟨middle, ?_, ?_⟩, ?_, ?_, ?_, hf.inside h.cursor_le⟩
  · rw [hbase, hlocals']
    exact hlocals.congr fun i _ hi => hbytes i (by omega)
  · rw [harguments', hscratch']
    exact harguments.congr fun i _ hi => hbytes i (by omega)
  · rw [hf.values]
    exact h.values.imp hstands
  · exact fun p hp => hstands _ _ (h.held p hp)
  · omega

/-- A value that stands for a content can be held. -/
theorem hold (h : k.Mirror arena held f s) (hv : k.Stands arena f.scratch f.cursor v c) :
    k.Mirror arena ((v, c) :: held) f s := by
  refine { h with held := ?_ }
  intro p hp
  rcases List.mem_cons.mp hp with rfl | hp
  · exact hv
  · exact h.held p hp

theorem pop (h : k.Mirror arena held f s) {cs : List C} (hvalues : s.values = c :: cs) :
    ∃ v vs, f.values = v :: vs ∧
      k.Mirror arena ((v, c) :: held) { f with values := vs } { s with values := cs } := by
  have hforall := h.values
  rw [hvalues] at hforall
  obtain ⟨v, vs, hv, hvs, hf⟩ := List.forall₂_cons_right_iff.mp hforall
  refine ⟨v, vs, hf, h.slots, hvs, ?_, h.scratch_le, h.cursor_le⟩
  intro p hp
  rcases List.mem_cons.mp hp with rfl | hp
  · exact hv
  · exact h.held p hp

theorem push (h : k.Mirror arena held f s) (hv : (v, c) ∈ held) :
    k.Mirror arena held { f with values := v :: f.values } { s with values := c :: s.values } :=
  ⟨h.slots, .cons (h.held _ hv) h.values, h.held, h.scratch_le, h.cursor_le⟩

/-- Values lie behind the slots, so a write to a slot leaves them alone. -/
theorem stands_write (h : k.Stands arena f.scratch f.cursor v c) {place : Nat} {data : List UInt8}
    (hplace : place + data.length ≤ f.scratch) :
    k.Stands (arena.write place data) f.scratch f.cursor v c :=
  h.congr (Nat.le_refl _) fun _ hi _ => Arena.byte_write_of_le (hplace.trans hi)

/-- **A slot has its content**, and a write of another one there changes only that. -/
theorem slot (h : k.Mirror arena held f s) (bank : Cells.Bank) {index : Int32}
    (hi : (s.slots bank)[index.toInt.toNat]? = some c) :
    ∃ type place, (bank.bindings f)[index.toInt.toNat]? = some ⟨type, .stack place⟩ ∧ k.Suits type c ∧
      arena.Holds place (k.bytes c) ∧ f.base ≤ place ∧ place + k.size c ≤ f.scratch ∧
      ∀ c', k.Suits type c' → k.Mirror (arena.write place (k.bytes c')) held f (s.setSlot index c' bank) := by
  obtain ⟨middle, hlocals, harguments⟩ := h.slots
  have hbase := hlocals.le
  have hmiddle := harguments.le
  -- What is left to show of a write is that the row of slots has the content.
  have hmirror : ∀ {type place c'}, k.Suits type c → k.Suits type c' → place + k.size c ≤ f.scratch →
      (∃ middle, k.Slots (arena.write place (k.bytes c')) f.base f.locals (s.setSlot index c' bank).locals middle ∧
        k.Slots (arena.write place (k.bytes c')) middle f.arguments (s.setSlot index c' bank).arguments f.scratch) →
      (s.setSlot index c' bank).values = s.values →
        k.Mirror (arena.write place (k.bytes c')) held f (s.setSlot index c' bank) := by
    intro type place c' hsuits hsuits' hplace hslots hvalues
    rw [size_eq_size hsuits hsuits'] at hplace
    refine ⟨hslots, ?_, fun p hp => stands_write (h.held p hp) hplace, h.scratch_le, h.cursor_le⟩
    rw [hvalues]
    exact h.values.imp fun _ _ hv => stands_write hv hplace
  cases bank with
  | locals =>
    obtain ⟨type, place, hget, hsuits, hholds, hstart, hstop, hwrite⟩ := hlocals.slot hi
    refine ⟨type, place, hget, hsuits, hholds, hstart, by omega, ?_⟩
    intro c' hsuits'
    refine hmirror hsuits hsuits' (by omega) ⟨middle, hwrite c' hsuits', ?_⟩ rfl
    refine harguments.congr fun i hi _ => Arena.byte_write_of_le ?_
    rw [size_eq_size hsuits hsuits'] at hstop
    exact hstop.trans hi
  | arguments =>
    obtain ⟨type, place, hget, hsuits, hholds, hstart, hstop, hwrite⟩ := harguments.slot hi
    refine ⟨type, place, hget, hsuits, hholds, by omega, hstop, ?_⟩
    intro c' hsuits'
    refine hmirror hsuits hsuits' hstop ⟨middle, ?_, hwrite c' hsuits'⟩ rfl
    exact hlocals.congr fun i _ hi => Arena.byte_write_of_lt (by omega) _

theorem length_bindings (h : k.Mirror arena held f s) (bank : Cells.Bank) :
    (bank.bindings f).length = (s.slots bank).length := by
  obtain ⟨middle, hlocals, harguments⟩ := h.slots
  cases bank with
  | locals => exact hlocals.length_eq
  | arguments => exact harguments.length_eq

end Mirror

end Coding

/-! ## Machines -/

/-- **What stays as it is while a body runs**: the program, the limit of the arena, and of the frame its
begin and its greatest depth. Types are as large as their kinds, and the built-in types are of their
kinds. -/
structure Scene where
  image : Image
  types : TypeTable
  /-- Bytes that the arena never exceeds. -/
  limit : Nat
  /-- The first byte of the frame. -/
  base : Nat
  /-- The greatest number of values on the evaluation stack. -/
  depth : Nat
  size_eq : ∀ {type : TypeId} {kind : Kind}, (types.descriptor type).category = .primitive kind →
    (types.descriptor type).size = kind.size
  category_builtin : ∀ kind : Kind,
    (types.descriptor (types.builtins.primitive kind)).category = .primitive kind

/-- **What lies outside the innermost frame**: the heap, the values in flight, the frames below, and whose
method runs. Instructions that compute with cells leave it alone. -/
structure Outside where
  heap : Heap
  inFlight : List Value
  below : List Frame
  receiver : Option Value

namespace Scene

variable {C : Type}

/-- **A frame is the one of the scene**, and mirrors the contents. -/
structure Framed (g : Scene) (k : Coding C g.types) (o : Outside) (arena : Arena)
    (held : List (Value × C)) (cursor : Nat) (f : Frame) (s : FrameContents C) : Prop
    extends k.Mirror arena held f s where
  base : f.base = g.base
  maxDepth : f.maxDepth = g.depth
  receiver : f.receiver = o.receiver
  cursor_eq : f.cursor = cursor
  stop_le : f.stop ≤ g.limit

/-- **The innermost frame mirrors contents**, beside those of values that are held. The scratch is handed
out up to the cursor, and each place up to there has an address. -/
structure Mirrors (g : Scene) (k : Coding C g.types) (o : Outside) (held : List (Value × C)) (cursor : Nat)
    (m : Machine) (s : FrameContents C) : Prop where
  image : m.image = g.image
  types : m.types = g.types
  limit : m.stack.limit.toNat = g.limit
  heap : m.heap = o.heap
  inFlight : m.inFlight = o.inFlight
  cursor_le : cursor ≤ Address.stackStart.toNat
  frame : ∃ f, m.stack.frames = f :: o.below ∧ g.Framed k o m.stack.arena held cursor f s

/-- **The next value has an address**: the arena, or what the next value makes of the frame, ends where
addresses do. -/
def Near (g : Scene) (cursor : Nat) : Prop := min g.limit (cursor + 8) ≤ Address.stackStart.toNat

end Scene

namespace Machine

variable {m : Machine} {f : Frame} {rest : List Frame} {place : Nat}

/-- The machine with bytes written to the stack. -/
def written (m : Machine) (place : Nat) (data : List UInt8) : Machine :=
  { m with stack := { m.stack with arena := m.stack.arena.write place data } }

theorem inRange_stack (hframes : m.stack.frames = f :: rest) {count : Nat}
    (hstop : place + count ≤ f.stop) (hplace : place < Address.stackStart.toNat) :
    m.stack.inRange (.stack place) count = true := by
  apply FrameStack.inRange_iff.mpr
  rw [Address.offset_stack hplace, FrameStack.top, hframes]
  exact ⟨Address.space_stack place, hstop⟩

theorem read_stack (hframes : m.stack.frames = f :: rest) {count : Nat}
    (hstop : place + count ≤ f.stop) (hplace : place < Address.stackStart.toNat) :
    m.read (.stack place) count = .ok (m.stack.arena.read place count) := by
  unfold read
  rw [if_neg (by simp), Address.space_stack]
  dsimp only
  unfold FrameStack.bytes
  rw [if_pos (inRange_stack hframes hstop hplace), Address.offset_stack hplace]

end Machine

namespace Exec

theorem write_stack {m : Machine} {f : Frame} {rest : List Frame} {place : Nat} {data : List UInt8}
    (hframes : m.stack.frames = f :: rest) (hstop : place + data.length ≤ f.stop)
    (hplace : place < Address.stackStart.toNat) :
    write (.stack place) data m = .ok ⟨⟩ (m.written place data) := by
  have hrange : query (fun m => .ok (m.stack.inRange (.stack place) data.length)) m = .ok true m := by
    apply query_of_ok
    rw [Machine.inRange_stack hframes hstop hplace]
  have hpoke : m.stack.poke (.stack place) data =
      { m.stack with arena := m.stack.arena.write place data } := by
    unfold FrameStack.poke
    rw [Address.offset_stack hplace]
  unfold write
  rw [if_neg (by simp), Address.space_stack]
  dsimp only
  unfold writeStack
  rw [bind_of_ok hrange, if_pos rfl]
  show EStateM.Result.ok PUnit.unit { m with stack := m.stack.poke (.stack place) data } = _
  rw [hpoke]
  rfl

/-- Nothing is released where nothing is referred to. -/
theorem release_nil (m : Machine) : release [] m = .ok ⟨⟩ m := by
  unfold release
  have hcount : query (fun m => .ok m.heap.objects.length) m = .ok m.heap.objects.length m := rfl
  rw [bind_of_ok hcount]
  cases m.heap.objects.length with
  | zero => rfl
  | succ count => rfl

theorem releaseValue_primitive (type : TypeId) (a : Address) (m : Machine) :
    releaseValue (.primitive type a) m = .ok ⟨⟩ m := by
  have htargets : query (·.ownedTargets (.primitive type a)) m = .ok [] m := rfl
  exact (bind_of_ok htargets).trans (release_nil m)

end Exec

namespace Scene.Mirrors

variable {C : Type} {g : Scene} {k : Coding C g.types} {o : Outside} {held held' : List (Value × C)}
  {cursor : Nat} {m : Machine} {s : FrameContents C} {v : Value} {w : Cell}

theorem forget (h : g.Mirrors k o held cursor m s) (hheld : held' ⊆ held) :
    g.Mirrors k o held' cursor m s := by
  obtain ⟨f, hframes, hf⟩ := h.frame
  exact { h with frame := ⟨f, hframes, { hf with toMirror := hf.toMirror.forget hheld }⟩ }

theorem noting (h : g.Mirrors k o held cursor m s) (e : Event) : g.Mirrors k o held cursor (m.noting e) s :=
  ⟨h.image, h.types, h.limit, h.heap, h.inFlight, h.cursor_le, h.frame⟩

/-- Another heap is a matter of what lies outside the frame. -/
theorem withHeap (h : g.Mirrors k o held cursor m s) (heap : Heap) (journal : Journal) :
    g.Mirrors k { o with heap } held cursor { m with heap, journal } s := by
  obtain ⟨f, hframes, hf⟩ := h.frame
  exact ⟨h.image, h.types, h.limit, rfl, h.inFlight, h.cursor_le, f, hframes, { hf with }⟩

theorem withInFlight (h : g.Mirrors k o held cursor m s) (inFlight : List Value) :
    g.Mirrors k { o with inFlight } held cursor { m with inFlight } s := by
  obtain ⟨f, hframes, hf⟩ := h.frame
  exact ⟨h.image, h.types, h.limit, h.heap, rfl, h.cursor_le, f, hframes, { hf with }⟩

theorem descriptor (h : g.Mirrors k o held cursor m s) : m.descriptor = g.types.descriptor := by
  unfold Machine.descriptor
  rw [h.types]

/-- Bytes of the innermost frame below the cursor are read. -/
theorem read_stack (h : g.Mirrors k o held cursor m s) {place count : Nat} (hend : place + count ≤ cursor)
    (hpos : 0 < count) : m.read (.stack place) count = .ok (m.stack.arena.read place count) := by
  obtain ⟨f, hframes, hf⟩ := h.frame
  have hcursor := hf.cursor_eq
  have hinside := hf.cursor_le
  have hnear := h.cursor_le
  exact Machine.read_stack hframes (by omega) (by omega)

theorem read_holds (h : g.Mirrors k o held cursor m s) {place : Nat}
    (hholds : m.stack.arena.Holds place w.bytes) (hend : place + w.kind.size ≤ cursor) :
    m.read (.stack place) w.kind.size = .ok w.bytes := by
  rw [h.read_stack hend w.kind.size_pos, ← w.length_bytes]
  exact congrArg Except.ok hholds

/-- **What a held value of a cell reads as.** -/
theorem read (h : g.Mirrors k o held cursor m s) (hv : (v, k.cell w) ∈ held) :
    ∃ type a, v = .primitive type a ∧ (m.descriptor type).category = .primitive w.kind ∧
      (m.descriptor type).size = w.kind.size ∧ m.read a w.kind.size = .ok w.bytes := by
  obtain ⟨f, hframes, hf⟩ := h.frame
  obtain ⟨type, place, rfl, hcategory, hholds, -, hhigh⟩ := (hf.held _ hv).of_cell
  refine ⟨type, _, rfl, ?_, ?_, h.read_holds hholds (hf.cursor_eq ▸ hhigh)⟩
  · rw [h.descriptor, hcategory]
  · rw [h.descriptor, g.size_eq hcategory]

theorem valueBytes (h : g.Mirrors k o held cursor m s) (hv : (v, k.cell w) ∈ held) :
    v.isAddress = false ∧ m.valueBytes v = .ok w.bytes := by
  obtain ⟨type, a, rfl, -, hsize, hread⟩ := h.read hv
  refine ⟨rfl, ?_⟩
  show m.read a (m.descriptor type).size = _
  rw [hsize]
  exact hread

theorem readScalar (h : g.Mirrors k o held cursor m s) (hv : (v, k.cell w) ∈ held) :
    m.readScalar v = .ok w.scalar := by
  obtain ⟨type, a, rfl, hcategory, hsize, hread⟩ := h.read hv
  unfold Machine.readScalar
  dsimp only
  rw [hcategory, hsize, hread]
  dsimp only [bind, Except.bind]
  rw [w.decode?_bytes]
  rfl

/-- **A slot of the innermost frame** is found where there is one, and has its content. Another one can be
written there. -/
theorem slot (h : g.Mirrors k o held cursor m s) (bank : Cells.Bank) {index : Int32} {c : C}
    (hslot : s.slot? bank index = some c) :
    ∃ type place, m.slot (bank.choose index) = .ok ⟨type, .stack place⟩ ∧ k.Suits type c ∧
      m.stack.arena.Holds place (k.bytes c) ∧ g.base ≤ place ∧ place + k.size c ≤ cursor ∧
      ∀ c', k.Suits type c' →
        Exec.write (.stack place) (k.bytes c') m = .ok ⟨⟩ (m.written place (k.bytes c')) ∧
          g.Mirrors k o held cursor (m.written place (k.bytes c')) (s.setSlot index c' bank) := by
  obtain ⟨f, hframes, hf⟩ := h.frame
  have hcursor := hf.cursor_eq
  have hscratch := hf.scratch_le
  have hinside := hf.cursor_le
  have hnear := h.cursor_le
  unfold FrameContents.slot? at hslot
  split at hslot
  · cases hslot
  rename_i hneg
  obtain ⟨type, place, hget, hsuits, hholds, hbase, hend, hwrite⟩ := hf.toMirror.slot bank hslot
  have hpos := k.size_pos c
  have hfound : m.slot (bank.choose index) = .ok ⟨type, .stack place⟩ := by
    unfold Machine.slot FrameStack.current
    rw [hframes]
    exact Cells.Bank.choose_of_some ((if_neg hneg).trans hget)
  refine ⟨type, place, hfound, hsuits, hholds, hf.base ▸ hbase, by omega, ?_⟩
  intro c' hsuits'
  have hlength : (k.bytes c').length = k.size c := Coding.size_eq_size hsuits' hsuits
  refine ⟨Exec.write_stack hframes (by omega) (by omega), h.image, h.types, h.limit, h.heap, h.inFlight,
    h.cursor_le, f, hframes, { hf with toMirror := hwrite c' hsuits' }⟩

theorem slot_of_none (h : g.Mirrors k o held cursor m s) {bank : Cells.Bank} {index : Int32}
    (hslot : s.slot? bank index = none) :
    m.slot (bank.choose index) = .error (bank.unknown index) := by
  obtain ⟨f, hframes, hf⟩ := h.frame
  unfold Machine.slot FrameStack.current
  rw [hframes]
  apply Cells.Bank.choose_of_none
  unfold FrameContents.slot? at hslot
  unfold Frame.slotAt?
  split
  · rfl
  · rw [if_neg ‹_›, List.getElem?_eq_none_iff] at hslot
    rw [List.getElem?_eq_none_iff, hf.toMirror.length_bindings]
    exact hslot

end Scene.Mirrors

/-! ## Popping, pushing, and scratch -/

namespace Exec

variable {C : Type} {g : Scene} {k : Coding C g.types} {o : Outside} {held : List (Value × C)}
  {cursor : Nat} {m : Machine} {s : FrameContents C} {v : Value} {c : C}

theorem pop_of_empty (h : g.Mirrors k o held cursor m s) (hvalues : s.values = []) :
    pop m = .error .evalStackUnderflow m := by
  obtain ⟨f, hframes, hf⟩ := h.frame
  have hempty := hf.values
  rw [hvalues, List.forall₂_nil_right_iff] at hempty
  exact pop_of_nil hframes hempty

/-- **A value is popped**, and held from then on. -/
theorem pop_mirrors (h : g.Mirrors k o held cursor m s) {cs : List C} (hvalues : s.values = c :: cs) :
    ∃ v m', pop m = .ok v m' ∧ g.Mirrors k o ((v, c) :: held) cursor m' { s with values := cs } := by
  obtain ⟨f, hframes, hf⟩ := h.frame
  obtain ⟨v, vs, hfv, hpopped⟩ := hf.toMirror.pop hvalues
  refine ⟨v, _, pop_of_cons hframes hfv, h.image, h.types, h.limit, h.heap, h.inFlight, h.cursor_le, _,
    rfl, ?_⟩
  exact ⟨hpopped, hf.base, hf.maxDepth, hf.receiver, hf.cursor_eq, hf.stop_le⟩

theorem push_full (h : g.Mirrors k o held cursor m s) (hfull : g.depth ≤ s.values.length) (v : Value) :
    push v m = .error (.evalStackOverflow g.depth) m := by
  obtain ⟨f, hframes, hf⟩ := h.frame
  have hdepth : f.depth = s.values.length := hf.values.length_eq
  rw [push_of_full hframes (by rw [hf.maxDepth, hdepth]; exact hfull), hf.maxDepth]

/-- **A value that is held can be pushed** where there is room. -/
theorem push_mirrors (h : g.Mirrors k o held cursor m s) (hv : (v, c) ∈ held)
    (hroom : s.values.length < g.depth) :
    ∃ m', push v m = .ok ⟨⟩ m' ∧ g.Mirrors k o held cursor m' { s with values := c :: s.values } := by
  obtain ⟨f, hframes, hf⟩ := h.frame
  have hdepth : f.depth = s.values.length := hf.values.length_eq
  refine ⟨_, push_of_room hframes (by rw [hf.maxDepth, hdepth]; exact hroom), h.image, h.types, h.limit,
    h.heap, h.inFlight, h.cursor_le, _, rfl, ?_⟩
  exact ⟨hf.toMirror.push hv, hf.base, hf.maxDepth, hf.receiver, hf.cursor_eq, hf.stop_le⟩

/-- **Scratch for a cell**: it is fresh, so that writing the cell there changes nothing else. -/
theorem carve_cases (h : g.Mirrors k o held cursor m s) (hnear : g.Near cursor) (kind : Kind) :
    (carve kind.size m = .error (.stackOverflow (cursor + kind.size) g.limit) m ∧
        g.limit < cursor + kind.size) ∨
      ∃ m', carve kind.size m = .ok (.stack cursor) m' ∧
        g.Mirrors k o held (cursor + kind.size) m' s ∧
        (∀ i < cursor, m'.stack.arena.byte i = m.stack.arena.byte i) ∧
        ∀ {type : TypeId} {w : Cell}, (g.types.descriptor type).category = .primitive w.kind →
          w.kind = kind → write (.stack cursor) w.bytes m' = .ok ⟨⟩ (m'.written cursor w.bytes) ∧
            g.Mirrors k o ((.primitive type (.stack cursor), k.cell w) :: held) (cursor + kind.size)
              (m'.written cursor w.bytes) s := by
  obtain ⟨f, hframes, hf⟩ := h.frame
  have hcursor := hf.cursor_eq
  have hinside := hf.cursor_le
  have hstop := hf.stop_le
  have hlimit := h.limit
  have hle := kind.size_le
  have hpos := kind.size_pos
  unfold Scene.Near at hnear
  rcases FrameStack.planCarving_cases hframes kind.size with ⟨hplan, hover⟩ |
      ⟨c, hplan, hframe, hstart, hend, hfits⟩
  · have hword : f.cursor + kind.size < UInt64.size := by
      have hfar := h.cursor_le
      rw [Address.toNat_stackStart] at hfar
      show _ < 18446744073709551616
      omega
    rw [if_neg (Nat.not_le_of_lt hword), hlimit, hcursor] at hplan
    rw [hlimit, hcursor] at hover
    exact .inl ⟨bind_of_error (query_of_error hplan), hover⟩
  · obtain ⟨journal, hcarve⟩ := carve_eq hplan
    rw [hstart, hcursor] at hcarve
    have hframes' : (m.stack.carve c).frames = c.after :: o.below := by
      rw [FrameStack.frames_carve, hframes]
      rfl
    have hsteady : f.Steady c.after := by
      rw [← hframe]
      exact FrameStack.Carving.steady_after (by rw [hend, hframe]; omega)
    have hcursor' : c.after.cursor = cursor + kind.size := by rw [c.cursor_after, hend, hcursor]
    have hscratch' : c.after.scratch = f.scratch := by rw [hsteady.same]
    have hinside' := hsteady.inside hinside
    have hstop' : c.after.stop ≤ g.limit := by
      apply FrameStack.stop_after_le (by rw [hframe]; exact hstop)
      rw [hframe, hend, ← hlimit]
      exact hfits
    have hlimit' : (m.stack.carve c).limit.toNat = g.limit := by rw [FrameStack.limit_carve, hlimit]
    -- The frame is the one it was, but for the cursor and the bytes behind it.
    have hframed : ∀ arena, (∀ i < cursor, arena.byte i = m.stack.arena.byte i) →
        g.Framed k o arena held (cursor + kind.size) c.after s := by
      intro arena hbytes
      refine ⟨hf.toMirror.steady hsteady fun i hi => hbytes i (hcursor ▸ hi), ?_, ?_, ?_, hcursor', hstop'⟩
      · rw [hsteady.same]
        exact hf.base
      · rw [hsteady.same]
        exact hf.maxDepth
      · rw [hsteady.same]
        exact hf.receiver
    have hcarved : ∀ i < cursor, (m.stack.carve c).arena.byte i = m.stack.arena.byte i := by
      intro i hi
      exact FrameStack.byte_carve (by rw [hframe]; omega)
    refine .inr ⟨_, hcarve, ?_, hcarved, ?_⟩
    · exact ⟨h.image, h.types, hlimit', h.heap, h.inFlight, by omega, c.after, hframes', hframed _ hcarved⟩
    · intro type w hcategory hkind
      subst hkind
      have hlength := w.length_bytes
      refine ⟨write_stack hframes' (by omega) (by omega), h.image, h.types, hlimit', h.heap, h.inFlight,
        by omega, c.after, hframes', ?_⟩
      have hwritten := hframed ((m.stack.carve c).arena.write cursor w.bytes) fun i hi =>
        (Arena.byte_write_of_lt hi _).trans (hcarved i hi)
      refine { hwritten with toMirror := hwritten.toMirror.hold ?_ }
      refine .cell type cursor w rfl rfl hcategory (Arena.holds_write _ _ _) ?_ hcursor'.ge
      rw [hscratch', ← hcursor]
      exact hf.scratch_le

end Exec

/-! ## New frames -/

section Opens

variable {C : Type} {types : TypeTable} {k : Coding C types}

/-- A slot of a new frame is for the content, which has all bytes zero. -/
def Coding.Opens (k : Coding C types) (slot : TypeId × Nat) (c : C) : Prop :=
  k.Suits slot.1 c ∧ slot.2 = k.size c ∧ k.bytes c = List.replicate (k.size c) 0

theorem Coding.map_size_of_opens {slots : List (TypeId × Nat)} {cs : List C}
    (h : List.Forall₂ k.Opens slots cs) : slots.map (·.2) = cs.map k.size := by
  induction h with
  | nil => rfl
  | cons hslot _ ih => rw [List.map_cons, List.map_cons, ih, hslot.2.1]

/-- **New slots have their contents**, since all their bytes are zero. -/
theorem Coding.slots_bind {arena : Arena} {slots : List (TypeId × Nat)} {cs : List C}
    (h : List.Forall₂ k.Opens slots cs) {start : Nat}
    (hzero : ∀ i, start ≤ i → i < start + (slots.map (·.2)).sum → arena.byte i = 0) :
    k.Slots arena start (FrameLayout.bind start slots).1 cs (FrameLayout.bind start slots).2 := by
  induction h generalizing start with
  | nil => exact .nil
  | @cons slot c slots cs hslot _ ih =>
    obtain ⟨type, size⟩ := slot
    obtain ⟨hsuits, rfl, hbytes⟩ := hslot
    rw [List.map_cons, List.sum_cons] at hzero
    refine .cons hsuits ?_ (ih ?_)
    · unfold Arena.Holds
      rw [hbytes, List.length_replicate]
      apply Arena.read_eq_zero
      intro i hi hend
      exact hzero i hi (by dsimp only; omega)
    · intro i hi hend
      exact hzero i (by omega) (by dsimp only; omega)

/-- **A new frame mirrors contents with all bytes zero.** -/
theorem Scene.mirrors_enter {g : Scene} {k : Coding C g.types} {m : Machine} {layout : FrameLayout}
    {locals arguments : List C} (himage : m.image = g.image) (htypes : m.types = g.types)
    (hlimit : m.stack.limit.toNat = g.limit) (hbase : m.stack.top = g.base)
    (hdepth : layout.maxDepth = g.depth) (hlocals : List.Forall₂ k.Opens layout.locals locals)
    (harguments : List.Forall₂ k.Opens layout.arguments arguments)
    (hfits : (layout.frameAt m.stack.top).stop ≤ g.limit)
    (hnear : m.stack.top + layout.slotBytes ≤ Address.stackStart.toNat) (size : Nat) (journal : Journal) :
    g.Mirrors k ⟨m.heap, m.inFlight, m.stack.frames, layout.receiver⟩ [] (m.stack.top + layout.slotBytes)
      { m with stack := m.stack.enter layout size, journal } { locals, arguments } := by
  have hframe := layout.frameAt_eq m.stack.top
  have hscratch : (layout.frameAt m.stack.top).scratch = m.stack.top + layout.slotBytes := by rw [hframe]
  have hcursor : (layout.frameAt m.stack.top).cursor = m.stack.top + layout.slotBytes := by rw [hframe]
  have hstop : (layout.frameAt m.stack.top).stop =
      m.stack.top + max layout.totalSize layout.slotBytes := by rw [hframe]
  have hsum : layout.slotBytes = (layout.locals.map (·.2)).sum + (layout.arguments.map (·.2)).sum := by
    unfold FrameLayout.slotBytes
    rw [List.map_append, List.sum_append]
  have hzero : ∀ i, m.stack.top ≤ i → i < m.stack.top + layout.slotBytes →
      (m.stack.enter layout size).arena.byte i = 0 := by
    intro i hi hend
    show ((m.stack.arena.resize size).clear m.stack.top (layout.frameAt m.stack.top).stop).byte i = 0
    rw [Arena.byte_clear, if_pos (by omega)]
  refine ⟨himage, htypes, hlimit, rfl, rfl, hnear, layout.frameAt m.stack.top, rfl,
    ⟨⟨(FrameLayout.bind m.stack.top layout.locals).2, ?_, ?_⟩, .nil, List.forall_mem_nil _,
      hscratch.le.trans hcursor.ge, by omega⟩, hbase, ?_, ?_, hcursor, hfits⟩
  · show k.Slots _ m.stack.top _ _ _
    apply Coding.slots_bind hlocals
    intro i hi hend
    exact hzero i hi (by omega)
  · apply Coding.slots_bind harguments
    intro i hi hend
    rw [FrameLayout.bind_snd] at hi hend
    exact hzero i (by omega) (by omega)
  · rw [hframe]
    exact hdepth
  · rw [hframe]

end Opens

end ManagedVm
