import ManagedVm.Proofs.Machine.Keeps

/-!
# How far operations reach

Each operation of the machine stays within a reach, and the proof is a walk along its definition. This
is the only such walk: whatever the steps of a reach keep, the operations keep.

A native of the host is no part of the machine, and there is no definition to walk along. What is
assumed of it where an invocation may run one is `Host.Orderly`.
-/

namespace ManagedVm

open ManagedVm.Frame (Allowing Onward Steady Replaced)

namespace Exec

open Machine (Touched)

variable {α β : Type} {r : Reach} {m : Machine}

/-! ## State -/

theorem touches_record (e : Event) : Touches r (record e) :=
  fun m => .single (.noted (m.journal.record e) m.output)

theorem touches_printLine (line : String) : Touches r (printLine line) :=
  fun m => .single (.noted m.journal (m.output.push line))

theorem touches_currentFrame : Touches r currentFrame := .query fun m => m.stack.raisesData_current

/-- An object is made with its shape. -/
theorem keepsAt_allocateObject {size : Nat} {type : TypeId} {kind : ObjectKind}
    (hshaped : m.types.Shaped type size kind) :
    KeepsAt (Touched .memory) Reach.memory.Raises (allocateObject size type kind) m := by
  unfold KeepsAt
  cases hplan : m.heap.plan size with
  | error e =>
    rw [allocateObject_of_error hplan]
    exact ⟨.refl, rfl⟩
  | ok p =>
    obtain ⟨journal, hok⟩ := allocateObject_of_ok hplan
    rw [hok]
    exact .tail (.single (.allocated (by decide) hplan hshaped)) (.noted journal m.output)

/-- Whatever the shape of an object, its making changes no frame. -/
theorem sameFrames_allocateObject (size : Nat) (type : TypeId) (kind : ObjectKind) :
    Keeps Machine.SameFrames (·.isData = true) (allocateObject size type kind) := by
  intro m
  unfold KeepsAt
  cases hplan : m.heap.plan size with
  | error e =>
    rw [allocateObject_of_error hplan]
    exact ⟨⟨rfl, rfl, rfl⟩, rfl⟩
  | ok p =>
    obtain ⟨journal, hok⟩ := allocateObject_of_ok hplan
    rw [hok]
    exact ⟨rfl, rfl, rfl⟩

/-- An object is freed that is no block of static fields. -/
theorem keepsAt_freeObject {a : Address} (hallows : m.types.Allows m.heap (.free a)) :
    KeepsAt (Touched r) r.Raises (freeObject a) m := by
  unfold KeepsAt
  cases hget : m.heap.get a with
  | error e =>
    rw [freeObject_of_error hget]
    exact ⟨.refl, .of_isData rfl⟩
  | ok o =>
    rw [freeObject_of_ok hget]
    exact .tail (.single (.freed hget hallows)) (.noted _ m.output)

theorem touches_writeHeap (a : Address) (data : List UInt8) : Touches .memory (writeHeap a data) := by
  intro m
  unfold KeepsAt
  by_cases hinside : m.heap.inRange a data.length = true
  · rw [writeHeap_of_inRange hinside]
    exact .single (.writtenHeap (by decide) hinside)
  · rw [writeHeap_of_not_inRange hinside]
    exact ⟨.refl, rfl⟩

theorem touches_writeStack (a : Address) (data : List UInt8) : Touches .memory (writeStack a data) := by
  intro m
  unfold KeepsAt
  by_cases hinside : m.stack.inRange a data.length = true
  · rw [writeStack_of_inRange hinside]
    exact .single (.writtenStack (by decide) hinside)
  · rw [writeStack_of_not_inRange hinside]
    exact ⟨.refl, m.stack.isData_rangeError a data.length⟩

/-- The address is where the cursor was, and the cursor is now behind the bytes. -/
theorem carve_eq_ok {count : Nat} {m m' : Machine} {a : Address} (h : carve count m = .ok a m') :
    ∃ f f' rest, m.stack.frames = f :: rest ∧ m'.stack.frames = f' :: rest ∧
      a = .stack f.cursor ∧ f'.cursor = f.cursor + count := by
  obtain ⟨c, hplan, haddress, hstack⟩ := planCarving_of_carve h
  obtain ⟨rest, hframes, hstart, hstop⟩ := FrameStack.planCarving_eq_ok hplan
  refine ⟨c.frame, c.after, rest, hframes, ?_, ?_, c.cursor_after.trans hstop⟩
  · rw [hstack, FrameStack.frames_carve, hframes, List.tail_cons]
  · rw [haddress, hstart]

theorem touches_carve (count : Nat) : Touches .scratch (carve count) := by
  intro m
  unfold KeepsAt
  cases h : m.stack.planCarving count with
  | error e =>
    have hfail : carve count m = .error e m := bind_of_error (query_of_error h)
    rw [hfail]
    exact ⟨.refl, m.stack.isPlain_of_planCarving h⟩
  | ok c =>
    obtain ⟨journal, hcarve⟩ := carve_eq h
    rw [hcarve]
    exact .tail (.single (.carved (by decide) h)) (.noted journal m.output)

/-! ## Memory -/

theorem touches_write (a : Address) (data : List UInt8) : Touches .memory (write a data) := by
  unfold write
  refine .ite (.throw rfl) ?_
  split
  · exact touches_writeHeap a data
  · exact touches_writeStack a data

theorem touches_copy (source target : Address) (length : Nat) :
    Touches .memory (copy source target length) :=
  (Touches.query fun m => m.raisesData_read source length).bind fun data => touches_write target data

theorem touches_store (a : Address) (type : TypeId) (v : Value) : Touches .memory (store a type v) :=
  (Touches.query fun m => m.raisesData_slotBytes type v).bind fun data => touches_write a data

theorem touches_copyOf (type : TypeId) (a : Address) : Touches .scratch (duplicate.copyOf type a) :=
  (Keeps.read _).bind fun size => (touches_carve size).bind fun copied =>
    (touches_copy a copied size).andThen fun _ => .pure copied

theorem touches_duplicate (v : Value) : Touches .scratch (duplicate v) := by
  unfold duplicate
  split
  · exact (touches_copyOf _ _).bind fun _ => .pure _
  · exact (touches_copyOf _ _).bind fun _ => .pure _
  · exact .pure _

theorem touches_load (type : TypeId) (a : Address) : Touches .scratch (load type a) :=
  (Touches.query fun m => m.raisesData_materialize type a).bind touches_duplicate

/-! ## Making values -/

theorem touches_makePrimitive (type : TypeId) (s : Scalar) : Touches .scratch (makePrimitive type s) := by
  refine (Keeps.read _).bind fun category => ?_
  split
  · exact (touches_carve _).bind fun a => (touches_write a _).andThen fun _ => .pure _
  · exact .throw rfl

theorem touches_makeScalar (s : Scalar) : Touches .scratch (makeScalar s) :=
  (Keeps.read _).bind fun type => touches_makePrimitive type s

theorem touches_makeString (text : String) : Touches .memory (makeString text) := by
  refine .guard rfl ((Keeps.read _).bind fun type m => ?_)
  refine (keepsAt_allocateObject (Nat.le_add_right _ _)).bind fun target m' _ => ?_
  refine ((touches_writeHeap target _).bind fun _ => ?_) m'
  exact (touches_writeHeap _ _).bind fun _ => .pure _

theorem touches_makeConstant (index : Int32) : Touches .scratch (makeConstant index) := by
  refine (Touches.query fun m => m.raisesData_constantAt index).bind fun c => (Keeps.read _).bind fun image => ?_
  split
  · split
    · exact .throw rfl
    · refine (Keeps.read _).bind fun type => (touches_carve _).bind fun a => ?_
      exact (touches_write a _).andThen fun _ => .pure _
  · split
    · exact .throw rfl
    · exact (touches_makeString _).lift

theorem touches_makeArray (type : TypeId) (length : Nat) : Touches .memory (makeArray type length) := by
  intro m
  refine .ask (fun e h => nomatch h) fun d hd => ?_
  cases hd
  by_cases harray : (m.descriptor type).category = .array
  · rw [if_neg (not_not_intro harray)]
    refine .ask (Machine.raisesData_underlying _) fun element helement => ?_
    refine .ask (RaisesData.fit _) fun size hsize => ?_
    obtain ⟨-, rfl⟩ := Size.fit_eq_ok.mp hsize
    have hshaped : m.types.Shaped type (Machine.lengthSize + (m.descriptor element).size * length)
        (.array element length) :=
      ⟨harray, Machine.underlying_eq_ok.mp helement, by rw [Nat.mul_comm]; rfl⟩
    refine (keepsAt_allocateObject hshaped).bind fun target m' _ => ?_
    exact ((touches_writeHeap target _).bind fun _ => .pure _) m'
  · rw [if_pos harray]
    exact ⟨.refl, rfl⟩

theorem touches_makeDefault (type : TypeId) : Touches .scratch (makeDefault type) := by
  intro m
  refine .ask (fun e h => nomatch h) fun d hd => ?_
  cases hd
  split
  · exact (touches_carve _).bind (fun _ => .pure _) m
  · exact (touches_carve _).bind (fun _ => .pure _) m
  · rename_i hobject
    have hshaped : m.types.Shaped type (m.descriptor type).instanceSize .object := ⟨hobject, rfl⟩
    refine KeepsAt.bind ?_ fun _ m' _ => Keeps.pure _ m'
    exact (keepsAt_allocateObject hshaped).mono (Touched.mono (by decide)) (Reach.Raises.mono (by decide))
  · exact (touches_makeString "").lift m
  · exact (touches_makeArray type 0).lift m
  · exact (Touches.query fun m => Machine.raisesData_underlying _).bind (fun _ => .pure _) m
  · exact ⟨.refl, rfl⟩

/-! ## Releasing -/

/-- What is found to be freed is no block of static fields. -/
theorem allows_free_of_firstDead {targets rest : List Address} {o : Heap.Object}
    (h : m.firstDead targets = .ok (some (o, rest))) : m.types.Allows m.heap (.free o.address) := by
  induction targets with
  | nil => cases h
  | cons target targets ih =>
    unfold Machine.firstDead at h
    split at h
    · exact ih h
    · rename_i o' hget
      split at h
      · exact ih h
      · rename_i hkind
        obtain ⟨referenced, -, h⟩ := except_bind_ok.mp h
        split at h
        · exact ih h
        · cases h
          intro p hp
          rw [Heap.eq_of_get hget hp]
          exact hkind

theorem touches_releaseUpTo (count : Nat) (targets : List Address) :
    Touches r (releaseUpTo count targets) := by
  induction count generalizing targets with
  | zero => exact .pure _
  | succ count ih =>
    intro m
    refine .ask (fun e h => .of_isData (m.raisesData_firstDead targets e h)) fun found hfound => ?_
    split
    · exact .refl
    · rename_i o rest
      refine .ask (fun e h => .of_isData (m.raisesData_referencesOf o e h)) fun inner _ => ?_
      refine ((keepsAt_freeObject (allows_free_of_firstDead hfound)).map _).bind fun _ m' _ => ?_
      exact ((touches_record _).bind fun _ => ih _) m'

theorem touches_release (targets : List Address) : Touches r (release targets) :=
  (Keeps.read _).bind fun count => touches_releaseUpTo count targets.reverse

theorem touches_releaseValue (v : Value) : Touches r (releaseValue v) :=
  (Touches.query fun m => m.raisesData_ownedTargets v).bind touches_release

theorem touches_assign (a : Address) (type : TypeId) (v : Value) : Touches .memory (assign a type v) := by
  refine (Touches.query fun m => m.raisesData_referencesIn a type).bind fun previous => ?_
  exact (touches_store a type v).bind fun _ => touches_release previous

theorem touches_assignSlot {choose : Frame → Except Error Binding} (h : ∀ f, RaisesData (choose f))
    (v : Value) : Touches .memory (assignSlot choose v) :=
  (Touches.query fun m => m.raisesData_slot h).bind fun b => touches_assign b.address b.type v

/-! ## Natives -/

end Exec

/-- **What is assumed of the natives of a host**: like any other, they work in the frame of the caller.
They take scratch of it, make and free objects and write to memory, and leave its values and the frames
below alone; and no error of theirs complains about depth or wraps a place around another. -/
class Host.Orderly [Host] : Prop where
  touches : ∀ (number : Nat) (receiver : Option Value) (arguments : List Value),
    Exec.Touches .scratch (Host.run number receiver arguments)

namespace Host

/-- Where no host is in sight, there is one that registers nothing. -/
scoped instance : Host := bare

scoped instance : Orderly := ⟨fun _ _ _ => .throw rfl⟩

end Host

namespace Exec

open Machine (Touched)

variable {α β : Type} {r : Reach} {m : Machine}

theorem touches_stringArgument (method : String) (v : Value) : Touches r (stringArgument method v) := by
  unfold stringArgument
  split
  · exact .query fun m => m.raisesData_readString _
  · exact .throw (.of_isData rfl)

theorem touches_runNative [Host] [Host.Orderly] (body : NativeBody) (receiver : Option Value)
    (arguments : List Value) : Touches .scratch (runNative body receiver arguments) := by
  unfold runNative
  split
  · refine (touches_stringArgument _ _).bind fun line => (touches_record _).bind fun _ => ?_
    exact (touches_printLine line).bind fun _ => .pure none
  · exact .throw rfl
  · refine (touches_stringArgument _ _).bind fun text => .guard rfl ?_
    exact (touches_makeScalar _).bind fun v => .pure (some v)
  · exact .throw rfl
  · refine (touches_stringArgument _ _).bind fun a => (touches_stringArgument _ _).bind fun b => ?_
    exact (touches_makeString _).andThen fun v => .pure (some v)
  · exact .throw rfl
  · exact Host.Orderly.touches _ _ _

/-! ## Around a body -/

theorem touches_accept (req : Request) : Touches r (accept req) := by
  refine (Touches.query fun m => m.raisesData_methodAt _).bind fun method => (Keeps.read _).bind fun name => ?_
  refine (Touches.query fun m => m.raisesData_checkRequest method name req).bind fun _ => ?_
  exact (touches_record _).bind fun _ => .pure _

theorem touches_invokeNative [Host] [Host.Orderly] (method : Method) (name : String) (req : Request) :
    Touches .scratch (invokeNative method name req) := by
  refine (Touches.query fun m => m.raisesData_typeName _).bind fun owner => (Keeps.read _).bind fun n => ?_
  split
  · exact .throw rfl
  · refine .guard rfl ((touches_runNative _ _ _).bind fun result => ?_)
    refine (Touches.query fun m => m.raisesData_returnsValue method).bind fun returns => ?_
    exact .guard rfl (.guard rfl (.pure _))

theorem touches_bindArguments (index : Nat) (arguments : List Value) :
    Touches .memory (bindArguments index arguments) := by
  induction arguments generalizing index with
  | nil => exact .pure _
  | cons v rest ih =>
    refine (Touches.query fun m => m.raisesData_slot fun f => f.raisesData_getArgument _).bind fun b => ?_
    exact (touches_store b.address b.type v).bind fun _ => ih (index + 1)

theorem touches_capture (result : Option Value) : Touches r (capture result) := by
  unfold capture
  split
  · exact .pure _
  · exact .ite (.pure _) ((Touches.query fun m => m.raisesData_valueBytes _).bind fun _ => .pure _)

theorem touches_rehome (v : Value) (bytes : List UInt8) : Touches .scratch (rehome v bytes) := by
  have hstored : Touches .scratch (rehome.stored bytes) :=
    (touches_carve _).bind fun a => (touches_write a bytes).andThen fun _ => .pure a
  unfold rehome
  split
  · exact hstored.bind fun _ => .pure _
  · exact hstored.bind fun _ => .pure _
  · exact .pure _

/-! ## Values in flight

To hold a value is no step of any reach, but it changes no frame. -/

theorem keepsShape_pin (v : Value) : KeepsShape (pin v) := fun _ => ⟨rfl, rfl, rfl⟩

theorem keepsShape_unpin : KeepsShape unpin := fun _ => ⟨rfl, rfl, rfl⟩

theorem keepsShape_unpinPending (p : Pending) : KeepsShape (unpinPending p) := by
  unfold unpinPending
  split
  · exact keepsShape_unpin
  · exact .pure _
  · exact keepsShape_unpin

/-- A value is held meanwhile, and let go of on either way out. -/
theorem keeps_pinned {R : Machine → Machine → Prop} {E : Error → Prop} {v : Value}
    (hR : ∀ {m m' : Machine}, R { m with inFlight := v :: m.inFlight } m' →
      R m { m' with inFlight := m'.inFlight.tail })
    {x : Exec Unit} (hx : Keeps R E x) :
    Keeps R E (do
      pin v
      leaveFrame.held x : Exec Unit) := by
  intro m
  have hpinned := hx { m with inFlight := v :: m.inFlight }
  have hrun : (do
      pin v
      leaveFrame.held x : Exec Unit) m = leaveFrame.held x { m with inFlight := v :: m.inFlight } := rfl
  unfold leaveFrame.held at hrun
  cases h : x { m with inFlight := v :: m.inFlight } with
  | ok a m' =>
    rw [h] at hrun
    refine .intro (fun _ _ hend => ?_) fun _ _ hend => nomatch hrun.symm.trans hend
    cases hrun.symm.trans hend
    exact hR (hpinned.of_ok h)
  | error e m' =>
    rw [h] at hrun
    refine .intro (fun _ _ hend => nomatch hrun.symm.trans hend) fun _ _ hend => ?_
    cases hrun.symm.trans hend
    exact ⟨hR (hpinned.of_error h).1, (hpinned.of_error h).2⟩

theorem moves_pinned {R : Frame → Frame → Prop} {x : Exec Unit} (hx : Moves R x) (v : Value) :
    Moves R (do
      pin v
      leaveFrame.held x : Exec Unit) :=
  keeps_pinned (fun h => ⟨h.image, h.types, h.statics, h.settings, h.natives, congrArg List.tail h.inFlight,
    h.frames, h.calls⟩) hx

/-! ## Pushes and pops -/

theorem touched_setCurrent {f : Frame} (h : m.stack.current = .ok f) (values : List Value) :
    m.Touched .values { m with stack := m.stack.setCurrent { f with values } } := by
  unfold FrameStack.current at h
  unfold FrameStack.setCurrent
  cases hframes : m.stack.frames with
  | nil =>
    rw [hframes] at h
    cases h
  | cons g rest =>
    rw [hframes] at h
    cases h
    exact .single (.valued values (by decide) hframes)

theorem touches_push (v : Value) : Touches .values (push v) := by
  intro m
  unfold KeepsAt
  cases h : m.stack.push v with
  | error e =>
    have hfail : push v m = .error e m := bind_of_error (query_of_error h)
    rw [hfail]
    exact ⟨.refl, trivial⟩
  | ok stack =>
    have hpush : push v m = .ok ⟨⟩ { m with stack } := bind_of_ok (query_of_ok h)
    rw [hpush]
    obtain ⟨f, hcurrent, h⟩ := except_bind_ok.mp h
    obtain ⟨f', hf, h⟩ := except_bind_ok.mp h
    cases h
    unfold Frame.push at hf
    split at hf
    · cases hf
    · cases hf
      exact touched_setCurrent hcurrent (v :: f.values)

theorem touches_pop : Touches .values pop := by
  intro m
  unfold KeepsAt
  cases h : m.stack.pop with
  | error e =>
    have hfail : pop m = .error e m := bind_of_error (query_of_error h)
    rw [hfail]
    exact ⟨.refl, trivial⟩
  | ok popped =>
    obtain ⟨v, stack⟩ := popped
    have hquery : query (·.stack.pop) m = .ok (v, stack) m := query_of_ok h
    have hpop : pop m = .ok v { m with stack } := bind_of_ok hquery
    rw [hpop]
    obtain ⟨f, hcurrent, h⟩ := except_bind_ok.mp h
    obtain ⟨⟨v', f'⟩, hf, h⟩ := except_bind_ok.mp h
    cases h
    unfold Frame.pop at hf
    split at hf
    · cases hf
    · cases hf
      exact touched_setCurrent hcurrent _

theorem touches_popToken (op : Opcode) : Touches .values (popToken op) := by
  refine (Keeps.mapError touches_pop fun _ => trivial).bind fun token => (Touches.look _).bind fun int => ?_
  split
  · exact .ite ((Touches.look _).bind fun _ => Touches.look _) (.throw trivial)
  · exact .throw trivial

theorem touches_popArguments (count : Nat) : Touches .values (popArguments count) := by
  have hgo : ∀ popped, Touches .values (popArguments.go count popped) := by
    induction count with
    | zero => exact fun popped => .pure popped
    | succ count ih => exact fun popped => .bind touches_pop fun v => ih (v :: popped)
  exact hgo []

theorem touches_takeResult (method : Method) : Touches .values (takeResult method) := by
  refine .bind touches_currentFrame fun f => (Touches.look _).bind fun returns => ?_
  split
  · exact .pure _
  · exact .throw trivial
  · exact .throw trivial
  · exact .map touches_pop some
  · exact .throw trivial

/-! ## Instructions -/

theorem touches_binary (op : Opcode) : Touches .values (binary op) := by
  refine .bind touches_pop fun right => .bind touches_pop fun left => ?_
  have hend : ∀ result, Touches .values (do
      push result
      releaseValue left
      releaseValue right) := fun result =>
    (touches_push result).bind fun _ => (touches_releaseValue left).bind fun _ => touches_releaseValue right
  dsimp only
  refine .ite ?_ ?_
  · exact (Touches.look _).bind fun a => (Touches.look _).bind fun b => (touches_makeString _).andThen hend
  · split
    · refine (Touches.look _).bind fun a => (Touches.look _).bind fun b => (Touches.look _).bind fun s => ?_
      exact (touches_makePrimitive _ s).andThen hend
    · exact (Keeps.throw trivial).bind hend

theorem touches_compare (op : Opcode) (c : Scalar.Comparison) : Touches .values (compare op c) := by
  refine .bind touches_pop fun right => .bind touches_pop fun left => (Touches.look _).bind fun holds => ?_
  refine (touches_makeScalar _).andThen fun v => (touches_push v).bind fun _ => ?_
  exact (touches_releaseValue left).bind fun _ => touches_releaseValue right

theorem touches_convert (v : Value) (type : TypeId) : Touches .scratch (convert v type) := by
  refine (Keeps.read _).bind fun d => ?_
  split
  · refine (Touches.query fun m => m.raisesData_readScalar _).bind fun s => ?_
    exact (touches_makeString s.text).lift
  · exact .pure _
  · refine (Touches.query fun m => m.raisesData_valueBytes _).bind fun bytes => (touches_carve _).bind fun a => ?_
    have hrest : Touches .scratch (query fun m => m.materialize type a) :=
      .query fun m => m.raisesData_materialize type a
    exact .ite ((touches_write a _).andThen fun _ => hrest) hrest

theorem touches_newArray (operand : Int32) : Touches .values (newArray operand) := by
  refine .bind touches_pop fun length => (Touches.look _).bind fun type => (Touches.look _).bind fun count => ?_
  refine .guard trivial ((Touches.look _).bind fun limit => .guard trivial ?_)
  exact (touches_makeArray type _).andThen touches_push

theorem touches_loadSlot (choose : Frame → Except Error Binding) : Touches .values (loadSlot choose) :=
  (Touches.look _).bind fun b => (touches_load b.type b.address).andThen touches_push

theorem touches_storeSlot (choose : Frame → Except Error Binding) : Touches .values (storeSlot choose) := by
  refine .bind touches_pop fun v => Keeps.bind ?_ fun _ => touches_releaseValue v
  exact (Touches.look _).bind fun b => (touches_assign b.address b.type v).lift

theorem touches_loadSlotAddress (op : Opcode) (choose : Frame → Except Error Binding) :
    Touches .values (loadSlotAddress op choose) :=
  (touches_popToken op).bind fun _ => (Touches.look _).bind fun _ => touches_push _

/-- A result is pushed and an operand is released. -/
theorem touches_push_release (v operand : Value) :
    Touches .values (do
      push v
      releaseValue operand) :=
  (touches_push v).bind fun _ => touches_releaseValue operand

/-- A value is stored, then the operands are released. -/
theorem touches_assign_release (a : Address) (type : TypeId) (v operand : Value) :
    Touches .values (do
      assign a type v
      releaseValue v
      releaseValue operand) :=
  (touches_assign a type v).andThen fun _ => (touches_releaseValue v).bind fun _ => touches_releaseValue operand

/-- **The instructions that are always followed by the next one move within their frame.** -/
theorem touches_perform (i : Instruction) : Touches .values (perform i) := by
  obtain ⟨op, operand⟩ := i
  cases op
  case nop | ret | br | brtrue | brfalse | newobj | call => exact .pure _
  case add | sub | mul | div | mod | cnct | or | and | xor | shl | shr =>
    dsimp only [perform]
    exact touches_binary _
  case ceq | cne | cgt | cge | clt | cle => exact touches_compare _ _
  case neg =>
    refine .bind touches_pop fun v => ?_
    split
    · refine (Touches.look _).bind fun s => (Touches.look _).bind fun negated => ?_
      exact (touches_makePrimitive _ negated).andThen fun result => touches_push_release result _
    · exact .throw trivial
  case ldc => exact (touches_makeConstant operand).andThen touches_push
  case ldstr =>
    refine (touches_makeConstant operand).andThen fun v => ?_
    split
    · exact touches_push _
    · exact .throw trivial
  case lddft => exact (Touches.look _).bind fun type => (touches_makeDefault type).andThen touches_push
  case ldlen =>
    refine .bind touches_pop fun array => (Touches.look _).bind fun length => ?_
    exact (touches_makeScalar _).andThen fun v => touches_push_release v array
  case ldloc | ldarg => exact touches_loadSlot _
  case stloc | starg => exact touches_storeSlot _
  case ldfld =>
    refine .bind touches_pop fun receiver => (Touches.look _).bind fun ⟨_, field⟩ => ?_
    refine (Touches.look _).bind fun a => (touches_load field.type a).andThen fun v => ?_
    exact touches_push_release v receiver
  case stfld =>
    refine .bind touches_pop fun receiver => .bind touches_pop fun v => ?_
    refine (Touches.look _).bind fun ⟨_, field⟩ => (Touches.look _).bind fun a => ?_
    exact touches_assign_release a field.type v receiver
  case ldsfld =>
    refine (Touches.look _).bind fun ⟨owner, field⟩ => (Touches.look _).bind fun a => ?_
    exact (touches_load field.type a).andThen touches_push
  case stsfld =>
    refine .bind touches_pop fun v => (Touches.look _).bind fun ⟨owner, field⟩ => ?_
    refine (Touches.look _).bind fun a => (touches_assign a field.type v).andThen fun _ => ?_
    exact touches_releaseValue v
  case ldthis =>
    refine .bind touches_currentFrame fun f => ?_
    split
    · exact touches_push _
    · exact .throw trivial
  case ldelem =>
    refine .bind touches_pop fun array => .bind touches_pop fun index => ?_
    refine (Touches.look _).bind fun ⟨a, element⟩ => (touches_load element a).andThen fun v => ?_
    exact touches_push_release v array
  case stelem =>
    refine .bind touches_pop fun array => .bind touches_pop fun index => .bind touches_pop fun v => ?_
    exact (Touches.look _).bind fun ⟨a, element⟩ => touches_assign_release a element v array
  case ldflda =>
    refine (touches_popToken _).bind fun pointee => .bind touches_pop fun receiver => ?_
    refine (Touches.look _).bind fun ⟨_, field⟩ => (Touches.look _).bind fun a => ?_
    exact touches_push_release _ receiver
  case ldsflda =>
    refine (touches_popToken _).bind fun pointee => (Touches.look _).bind fun ⟨owner, field⟩ => ?_
    exact (Touches.look _).bind fun a => touches_push _
  case ldloca | ldarga => exact touches_loadSlotAddress _ _
  case ldelema =>
    refine .bind touches_pop fun array => .bind touches_pop fun index => (touches_popToken _).bind fun pointee => ?_
    exact (Touches.look _).bind fun ⟨a, _⟩ => touches_push_release _ array
  case ldind =>
    refine .bind touches_pop fun pointer => (Touches.look _).bind fun target => ?_
    refine (Touches.look _).bind fun type => (touches_load type target).andThen fun v => ?_
    exact touches_push_release v pointer
  case stind =>
    refine .bind touches_pop fun pointer => .bind touches_pop fun v => (Touches.look _).bind fun target => ?_
    exact (Touches.look _).bind fun type => touches_assign_release target type v pointer
  case ldtype => exact (touches_makeScalar _).andThen touches_push
  case conv =>
    refine .bind touches_pop fun v => (Touches.look _).bind fun type => ?_
    exact (touches_convert v type).andThen fun result => touches_push_release result v
  case newarr => exact touches_newArray operand

theorem touches_branchIf (wanted : Bool) (operand : Int32) (length : Nat) :
    Touches .values (branchIf wanted operand length) := by
  refine (Touches.look _).bind fun target => .bind touches_pop fun condition => ?_
  refine (Touches.look _).bind fun truthy => (touches_releaseValue condition).bind fun _ => ?_
  exact .pure _

theorem touches_complete (result : Option Value) (p : Pending) : Touches .values (complete result p) := by
  cases p with
  | call receiver arguments =>
    have hrelease : Touches .values (do
        arguments.forM releaseValue
        receiver.forM releaseValue) := by
      refine (Keeps.forM touches_releaseValue arguments).bind fun _ => ?_
      cases receiver with
      | none => exact .pure _
      | some v => exact touches_releaseValue v
    cases result with
    | none => exact hrelease
    | some v => exact (touches_push v).bind fun _ => hrelease
  | construct created arguments =>
    have hrelease : Touches .values (arguments.forM releaseValue) := .forM touches_releaseValue arguments
    refine (touches_push created).bind fun _ => ?_
    cases result with
    | none => exact hrelease
    | some v => exact .ite ((touches_releaseValue v).bind fun _ => hrelease) hrelease

end Exec

end ManagedVm
