import ManagedVm.Proofs.Machine.Body

/-!
# A machine of cells

A body that computes with primitive values only has no need of addresses. Here it runs on *cells*: a
kind together with as many bytes as a value of the kind has. The state of such a machine is the place
of the next operation, a stack of cells, and the cells of the locals and of the arguments. Nothing in
it can be shared, and nothing is ever out of range but what the operations check.

`Cells.Program` is a body with what its frame needs, `Program.act` is one operation and
`Program.after` tells where the body is after a number of them.
-/

namespace ManagedVm

open scoped Naturals

/-! ## Scalars of a kind -/

namespace Scalar

/-- As many bytes as a kind has are a value of the kind. -/
theorem isSome_decode? {kind : Kind} {bytes : List UInt8} (h : bytes.length = kind.size) :
    (decode? kind bytes).isSome = true := by
  unfold decode?
  rw [if_neg (by omega)]
  rfl

theorem kind_decode? {kind : Kind} {bytes : List UInt8} {s : Scalar}
    (h : decode? kind bytes = some s) : s.kind = kind := by
  unfold decode? at h
  split at h
  · cases h
  · cases h
    cases kind <;> rfl

/-- Nothing changes when a value becomes one of its own kind. -/
theorem convert_kind (s : Scalar) : s.convert s.kind = s := by
  cases s with
  | word k bits =>
    have hbits : BitVec.ofInt k.width (k.value bits) = bits := by
      unfold WordKind.value
      split
      · exact BitVec.ofInt_toInt
      · rw [BitVec.ofInt_natCast, BitVec.ofNat_toNat, BitVec.setWidth_eq]
    exact congrArg (Scalar.word k) hbits
  | floating p bits => cases p <;> rfl
  | bool b => rfl

theorem kind_binary {op : Operator} {a b s : Scalar} (h : binary op a b = .ok s) :
    s.kind = a.kind := by
  unfold binary at h
  cases a with
  | word k x =>
    obtain ⟨bits, -, rfl⟩ := except_map_ok.mp h
    rfl
  | floating p x =>
    obtain ⟨bits, -, rfl⟩ := except_map_ok.mp h
    rfl
  | bool x =>
    obtain ⟨b, -, rfl⟩ := except_map_ok.mp h
    rfl

theorem kind_negate {a s : Scalar} (h : a.negate = .ok s) : s.kind = a.kind := by
  unfold negate at h
  split at h
  · cases h
  · cases h
    rfl
  · cases h
    rfl
  · cases h

end Scalar

/-! ## Cells -/

/-- **A kind with the bytes of a value of the kind.** -/
structure Cell where
  kind : Kind
  bytes : List UInt8
  length_bytes : bytes.length = kind.size
  deriving DecidableEq

namespace Cell

/-- The cell of a scalar. -/
def ofScalar (s : Scalar) : Cell := ⟨s.kind, s.encode, s.length_encode⟩

/-- The scalar in a cell. -/
def scalar (c : Cell) : Scalar :=
  (Scalar.decode? c.kind c.bytes).get (Scalar.isSome_decode? c.length_bytes)

/-- The cell of a kind with all bytes zero. -/
def zero (kind : Kind) : Cell := ⟨kind, List.replicate kind.size 0, List.length_replicate⟩

/-- The cell of a kind with some bytes, if they are as many as the kind has. -/
def ofBytes? (kind : Kind) (bytes : List UInt8) : Option Cell :=
  if h : bytes.length = kind.size then some ⟨kind, bytes, h⟩ else none

/-- The bytes of a cell in a slot of a kind: the same, if they are as many. -/
def retag (c : Cell) (kind : Kind) : Except Error Cell :=
  if h : c.bytes.length = kind.size then .ok ⟨kind, c.bytes, h⟩
  else .error (.sizeMismatch kind.size c.bytes.length)

theorem decode?_bytes (c : Cell) : Scalar.decode? c.kind c.bytes = some c.scalar :=
  (Option.some_get _).symm

@[simp] theorem kind_scalar (c : Cell) : c.scalar.kind = c.kind := Scalar.kind_decode? c.decode?_bytes

end Cell

/-! ## Loops -/

/-- **Where a loop is after a number of rounds.** -/
inductive Stage (σ : Type)
  /-- About to begin another round. -/
  | running (s : σ)
  /-- At its end. -/
  | finished (s : σ)
  /-- At an error in a round. -/
  | failed (s : σ) (e : Error)
  /-- In a round that gives no answer. -/
  | exhausted

namespace Stage

variable {σ ι : Type}

/-- Goes on from a loop that is running. -/
def andThen (stage : Stage σ) (f : σ → Stage σ) : Stage σ :=
  match stage with
  | running s => f s
  | stage => stage

/-- Where a loop is after a number of rounds, each of which takes up what is to be done next. -/
def after (fetch : σ → Option ι) (round : ι → σ → Stage σ) (count : Nat) (s : σ) : Stage σ :=
  match fetch s, count with
  | none, _ => finished s
  | some _, 0 => running s
  | some i, count + 1 => (round i s).andThen (after fetch round count)

variable {fetch : σ → Option ι} {round : ι → σ → Stage σ} {s : σ} {i : ι}

theorem after_of_none (h : fetch s = none) (count : Nat) :
    after fetch round count s = finished s := by
  unfold after
  rw [h]

theorem after_zero (h : fetch s = some i) : after fetch round 0 s = running s := by
  unfold after
  rw [h]

theorem after_succ (h : fetch s = some i) (count : Nat) :
    after fetch round (count + 1) s = (round i s).andThen (after fetch round count) := by
  conv => lhs; unfold after
  rw [h]

end Stage

namespace Cells

/-! ## States -/

/-- The two rows of slots of a frame. -/
inductive Bank
  | locals
  | arguments
  deriving DecidableEq

/-- The error of an index that names no slot. -/
def Bank.unknown : Bank → Int32 → Error
  | locals => .unknownLocal
  | arguments => .unknownArgument

/-- The state of a machine of cells. -/
structure State where
  /-- The place of the next operation. -/
  pc : Nat := 0
  /-- The evaluation stack, topmost cell first. -/
  values : List Cell := []
  locals : List Cell
  arguments : List Cell
  deriving DecidableEq

namespace State

variable (s : State)

/-- The cells of a row of slots. -/
def slots : Bank → List Cell
  | .locals => s.locals
  | .arguments => s.arguments

/-- The state with another row of slots. -/
def setSlots : Bank → List Cell → State
  | .locals, locals => { s with locals }
  | .arguments, arguments => { s with arguments }

/-- Pushes a cell, unless the stack is full. -/
def push (limit : Nat) (c : Cell) : Except Error State :=
  if limit ≤ s.values.length then .error (.evalStackOverflow limit)
  else .ok { s with values := c :: s.values }

/-- Pops a cell, unless the stack is empty. -/
def pop : Except Error (Cell × State) :=
  match s.values with
  | [] => .error .evalStackUnderflow
  | c :: values => .ok (c, { s with values })

/-- The cell of a slot. -/
def slot (bank : Bank) (index : Int32) : Except Error Cell :=
  match if index < 0 then none else (s.slots bank)[index.toInt.toNat]? with
  | some c => .ok c
  | none => .error (bank.unknown index)

/-- Puts a cell into a slot, whose kind stays what it is. -/
def assign (bank : Bank) (index : Int32) (c : Cell) : Except Error State := do
  let old ← s.slot bank index
  let c ← c.retag old.kind
  return s.setSlots bank ((s.slots bank).set index.toInt.toNat c)

/-- Pops two cells, the right one first, and goes on with them. -/
def operands {α : Type} (k : Cell → Cell → State → Except Error α) : Except Error α := do
  let (right, s) ← s.pop
  let (left, s) ← s.pop
  k left right s

/-- Arithmetic on two cells. -/
def binary (limit : Nat) (op : Scalar.Operator) : Except Error State :=
  s.operands fun left right s => do
    let result ← (Scalar.binary op left.scalar right.scalar).mapError .ofScalar
    s.push limit (.ofScalar result)

/-- The cell with the opposite sign. -/
def negate (limit : Nat) : Except Error State := do
  let (c, s) ← s.pop
  let result ← c.scalar.negate.mapError .ofScalar
  s.push limit (.ofScalar result)

/-- A comparison of two cells. -/
def compare (limit : Nat) (c : Scalar.Comparison) : Except Error State :=
  s.operands fun left right s => do
    let holds ← (Scalar.compare c left.scalar right.scalar).mapError .ofScalar
    s.push limit (.ofScalar (.bool holds))

/-- Pushes the cell of a slot. -/
def loadSlot (limit : Nat) (bank : Bank) (index : Int32) : Except Error State := do
  s.push limit (← s.slot bank index)

/-- Pops a cell into a slot. -/
def storeSlot (bank : Bank) (index : Int32) : Except Error State := do
  let (c, s) ← s.pop
  s.assign bank index c

/-- Branches to the operand if the topmost cell has the wanted truth. -/
def branchIf (wanted : Bool) (operand : Int32) (length : Nat) : Except Error (Flow × State) := do
  let target ← branchTarget operand length
  let (condition, s) ← s.pop
  return (if condition.scalar.isTruthy = wanted then .jump target else .next, s)

end State

/-! ## Programs -/

/-- What a machine of cells can do. -/
inductive Operation
  | nop
  | binary (op : Scalar.Operator)
  | negate
  | compare (c : Scalar.Comparison)
  | constant (c : Cell)
  | load (bank : Bank) (index : Int32)
  | store (bank : Bank) (index : Int32)
  | jump (target : Int32)
  /-- A jump if the truth of the topmost cell is the wanted one. -/
  | branch (wanted : Bool) (target : Int32)
  | ret
  deriving DecidableEq

/-- A body, and what its frame needs. -/
structure Program where
  code : List Operation
  /-- The greatest number of cells on the stack. -/
  depth : Nat
  /-- The kinds of the locals. -/
  locals : List Kind
  /-- The kinds of the parameters. -/
  parameters : List Kind
  /-- The body returns a value, if that can be told. -/
  returns : Except Error Bool

namespace Program

variable (p : Program)

/-- Bytes of the slots. -/
def slotBytes : Nat := ((p.locals ++ p.parameters).map Kind.size).sum

/-- **One operation**: how the body goes on, and the state it leaves. -/
def act (s : State) : Operation → Except Error (Flow × State)
  | .nop => .ok (.next, s)
  | .ret => .ok (.finish, s)
  | .jump target => do return (.jump (← branchTarget target p.code.length), s)
  | .branch wanted target => s.branchIf wanted target p.code.length
  | .binary op => do return (.next, ← s.binary p.depth op)
  | .negate => do return (.next, ← s.negate p.depth)
  | .compare c => do return (.next, ← s.compare p.depth c)
  | .constant c => do return (.next, ← s.push p.depth c)
  | .load bank index => do return (.next, ← s.loadSlot p.depth bank index)
  | .store bank index => do return (.next, ← s.storeSlot bank index)

/-- An operation never waits for an invocation, and nothing changes when the body ends. -/
theorem act_eq_ok {p : Program} {s s' : State} {o : Operation} {flow : Flow}
    (h : p.act s o = .ok (flow, s')) :
    flow = .next ∨ (∃ target, flow = .jump target) ∨ (flow = .finish ∧ s' = s) := by
  have hnext : ∀ {t : Except Error State}, (t >>= fun s => pure (Flow.next, s)) = .ok (flow, s') →
      flow = .next := by
    intro t ht
    obtain ⟨s₁, -, ht⟩ := except_bind_ok.mp ht
    cases ht
    rfl
  unfold act at h
  split at h
  · cases h
    exact .inl rfl
  · cases h
    exact .inr (.inr ⟨rfl, rfl⟩)
  · obtain ⟨target, -, h⟩ := except_bind_ok.mp h
    cases h
    exact .inr (.inl ⟨target, rfl⟩)
  · obtain ⟨target, -, h⟩ := except_bind_ok.mp h
    obtain ⟨⟨condition, s₁⟩, -, h⟩ := except_bind_ok.mp h
    obtain ⟨rfl, rfl⟩ := Prod.mk.inj (Except.ok.inj h)
    split
    · exact .inr (.inl ⟨target, rfl⟩)
    · exact .inl rfl
  all_goals exact .inl (hnext h)

/-- One operation at its place. -/
def step (o : Operation) (s : State) : Stage State :=
  match p.act s o with
  | .error e => .failed s e
  | .ok (.finish, s') => .finished s'
  | .ok (flow, s') => .running { s' with pc := flow.place s.pc }

/-- The operation that control is at. -/
def fetch (s : State) : Option Operation := p.code[s.pc]?

/-- **Where the body is after a number of operations.** -/
def after (count : Nat) (s : State) : Stage State := Stage.after p.fetch p.step count s

/-- Puts cells into the arguments, the first one at an index. -/
def bind (s : State) (index : Nat) : List Cell → Except Error State
  | [] => .ok s
  | c :: rest => do bind (← s.assign .arguments (.ofNat index) c) (index + 1) rest

theorem pc_bind {s s' : State} {index : Nat} {cs : List Cell} (h : bind s index cs = .ok s') :
    s'.pc = s.pc := by
  induction cs generalizing s index with
  | nil =>
    cases h
    rfl
  | cons c cs ih =>
    obtain ⟨s₁, hassign, h⟩ := except_bind_ok.mp h
    obtain ⟨old, -, hassign⟩ := except_bind_ok.mp hassign
    obtain ⟨c', -, hassign⟩ := except_bind_ok.mp hassign
    cases hassign
    have hpc := ih h
    exact hpc

/-- The state in which the body begins: all slots are zero but for the arguments. -/
def start (arguments : List Cell) : Except Error State :=
  bind { locals := p.locals.map .zero, arguments := p.parameters.map .zero } 0 arguments

/-- The result of a body that has ended: exactly one cell on the stack, or none if the body returns
nothing. -/
def result (s : State) : Except Error (Option Cell) := do
  match ← p.returns, s.values with
  | false, [] => return none
  | false, values => throw (.voidReturnWithValues values.length)
  | true, [] => throw .emptyStackOnReturn
  | true, [c] => return some c
  | true, values => throw (.stackNotDrained values.length)

end Program

end Cells

/-! ## Bodies as programs -/

/-- The comparison of an opcode. -/
def Opcode.comparison? : Opcode → Option Scalar.Comparison
  | .ceq => some .eq
  | .cne => some .ne
  | .cgt => some .gt
  | .cge => some .ge
  | .clt => some .lt
  | .cle => some .le
  | _ => none

namespace Image

variable (image : Image)

/-- The cell of a primitive constant whose bytes lie in the pool. -/
def cell? (index : Int32) : Option Cell := do
  let c ← entry? image.constants index
  let bytes ← image.constantBytes? c
  match c.kind with
  | .primitive kind => Cell.ofBytes? kind bytes
  | .string => none

/-- The operation on cells that an instruction is, if it is one. -/
def operation? (i : Instruction) : Option Cells.Operation :=
  match i.op with
  | .nop => some .nop
  | .ret => some .ret
  | .br => some (.jump i.operand)
  | .brtrue => some (.branch true i.operand)
  | .brfalse => some (.branch false i.operand)
  | .neg => some .negate
  | .ldc => (image.cell? i.operand).map .constant
  | .ldloc => some (.load .locals i.operand)
  | .ldarg => some (.load .arguments i.operand)
  | .stloc => some (.store .locals i.operand)
  | .starg => some (.store .arguments i.operand)
  | op => op.operator?.map .binary <|> op.comparison?.map .compare

end Image

end ManagedVm
