import ManagedVm.Proofs.Heap.Store
import ManagedVm.Proofs.Stack.Invariant

/-!
# Growth is not observable

An arena starts at a size that its settings give, and is made larger when more bytes are needed. How
large it was at first and how fast it grows is nobody's business: two heaps with the same limit give
the same outcome to each operation of every sequence, and so do two frame stacks
(`growth_unobservable`).

Two such heaps are `Alike`: they differ in the sizes of their arenas and in the settings that govern
those, and in nothing else. An operation on one and the same operation on the other have the same
outcome and leave them alike, unless it reaches for bytes that one of the arenas does not have. Each
arena holds all bytes that are in use (`Contained`), with one exception. An arena may start with fewer
than eight bytes, and until the first allocation it does not even have the offset at which the first
object will be. To access no bytes there is allowed, and stops the program
(`empty_access_observable`).

All of this holds with overflow checks and without them.
-/

namespace ManagedVm

/-! ## Sequences of operations -/

section Observe

variable {State Operation Outcome : Type} {outcome : State → Operation → Outcome}
  {next : State → Operation → State}

/-- The outcomes of operations that are carried out one after the other. -/
def observe (outcome : State → Operation → Outcome) (next : State → Operation → State) (s : State) :
    List Operation → List Outcome
  | [] => []
  | op :: ops => outcome s op :: observe outcome next (next s op) ops

/-- The outcomes are those of the operations, one for each, in the states that the operations before
them lead to. -/
theorem getElem?_observe (s : State) (ops : List Operation) (i : Nat) :
    (observe outcome next s ops)[i]? = ops[i]?.map (outcome ((ops.take i).foldl next s)) := by
  induction ops generalizing s i with
  | nil => rfl
  | cons op ops ih =>
    cases i with
    | zero => rfl
    | succ i => exact ih (next s op) i

/-- **Every run**: if each operation leaves states that are related related, then they are so at each
point of a sequence of operations. -/
theorem foldl_next_congr {R : State → State → Prop}
    (hnext : ∀ s s' op, R s s' → R (next s op) (next s' op)) {s s' : State} (h : R s s')
    (ops : List Operation) : R (ops.foldl next s) (ops.foldl next s') := by
  induction ops generalizing s s' with
  | nil => exact h
  | cons op ops ih => exact ih (hnext s s' op h)

/-- If moreover each operation has the same outcome on states that are related, then a sequence of
operations shows no difference between them. -/
theorem observe_congr {R : State → State → Prop}
    (houtcome : ∀ s s' op, R s s' → outcome s op = outcome s' op)
    (hnext : ∀ s s' op, R s s' → R (next s op) (next s' op)) {s s' : State} (h : R s s')
    (ops : List Operation) : observe outcome next s ops = observe outcome next s' ops := by
  apply List.ext_getElem?
  intro i
  rw [getElem?_observe, getElem?_observe]
  congr 1
  funext op
  exact houtcome _ _ op (foldl_next_congr hnext h (ops.take i))

end Observe

/-! ## Heaps -/

namespace Heap

/-- What can be done with a heap: calls, which may change it, and questions. -/
inductive Operation
  | call (c : Call)
  | header (address : Address)
  | containing (address : Address)
  | isLive (address : Address)
  | bytes (address : Address) (length : Nat)
  | objects
  | stats

/-- The statistics of a heap, but for the size of its arena. -/
structure Stats where
  allocations : Nat
  frees : Nat
  liveObjects : Nat
  liveBytes : Nat
  deriving DecidableEq

/-- The outcome of an operation. -/
inductive Outcome
  | called (answer : Except Error Answer)
  | header (o : Except Error Object)
  | containing (o : Option Object)
  | isLive (live : Bool)
  | bytes (read : Except Error (List UInt8))
  | objects (live : List Object)
  | stats (s : Stats)
  deriving DecidableEq

/-- **Heaps that differ in the sizes of their arenas at most**, and in how those grow. -/
structure Alike (h h' : Heap) : Prop where
  limit : h'.settings.maxSize = h.settings.maxSize
  top : h'.top = h.top
  objects : h'.objects = h.objects
  holes : h'.holes = h.holes
  tombstones : h'.tombstones = h.tombstones
  allocations : h'.allocations = h.allocations
  frees : h'.frees = h.frees
  bytes : ∀ i, h'.arena.byte i = h.arena.byte i

variable {h h' : Heap}

theorem Alike.create {settings settings' : Settings} (hcreate : Heap.create settings = .ok h)
    (hcreate' : Heap.create settings' = .ok h') (hlimit : settings.maxSize = settings'.maxSize) :
    h.Alike h' := by
  obtain ⟨-, rfl⟩ := create_eq_ok hcreate
  obtain ⟨-, rfl⟩ := create_eq_ok hcreate'
  exact ⟨hlimit.symm, rfl, rfl, rfl, rfl, rfl, rfl, fun i => by simp⟩

theorem Alike.symm (alike : h.Alike h') : h'.Alike h :=
  ⟨alike.limit.symm, alike.top.symm, alike.objects.symm, alike.holes.symm, alike.tombstones.symm,
    alike.allocations.symm, alike.frees.symm, fun i => (alike.bytes i).symm⟩

theorem Alike.get (alike : h.Alike h') (a : Address) : h'.get a = h.get a := by
  simp only [Heap.get, objectAt?, alike.objects, alike.tombstones]

theorem Alike.isLive (alike : h.Alike h') (a : Address) : h'.isLive a = h.isLive a := by
  simp only [Heap.isLive, objectAt?, alike.objects]

theorem Alike.poke (alike : h.Alike h') (a : Address) (data : List UInt8) :
    (h.poke a data).Alike (h'.poke a data) :=
  { alike with bytes := fun i => by simp only [Heap.poke, Arena.byte_write, alike.bytes] }

/-- Writing no bytes does nothing. -/
theorem Alike.poke_nil (alike : h.Alike h') (a : Address) : (h.poke a []).Alike h' :=
  { alike with bytes := fun i => by simp [Heap.poke, Arena.byte_write, alike.bytes] }

/-! ### The bytes in use -/

/-- **The arena has all bytes that can be reached**, unless there are none of them and they are at the
first offset. -/
def Contained (h : Heap) : Prop :=
  ∀ (a : Address) (length : Nat), a.space = .heap → alignment ≤ a.offset → a.offset + length ≤ h.top →
    a.offset + length ≤ h.arena.size ∨ (a.offset = alignment ∧ length = 0 ∧ h.arena.size < alignment)

/-- The arena reaches to the top, unless nothing was ever allocated, and keeps to its limit. -/
structure Spans (h : Heap) : Prop where
  inside : h.top ≤ max alignment h.arena.size
  limited : h.arena.size ≤ h.settings.maxSize.toNat

theorem Spans.create {settings : Settings} (hcreate : Heap.create settings = .ok h) : h.Spans := by
  obtain ⟨hsize, rfl⟩ := create_eq_ok hcreate
  exact ⟨Nat.le_max_left _ _, hsize⟩

/-- Only an empty range may start at the top of a heap on which nothing was allocated. -/
theorem Spans.contained (spans : h.Spans) : h.Contained := by
  intro a length hspace hge hend
  have hinside := spans.inside
  by_cases harena : a.offset + length ≤ h.arena.size
  · exact .inl harena
  · exact .inr (by omega)

/-! ### Operations -/

variable [Build]

/-- What an operation returns. -/
def outcome (h : Heap) : Operation → Outcome
  | .call c => .called (c.answer h)
  | .header a => .header (h.get a)
  | .containing a => .containing (h.containing? a)
  | .isLive a => .isLive (h.isLive a)
  | .bytes a length => .bytes (h.bytes a length)
  | .objects => .objects h.objects
  | .stats => .stats ⟨h.allocations, h.frees, h.objects.length, h.liveBytes⟩

/-- The heap after an operation. Questions leave it as it is. -/
def next (h : Heap) : Operation → Heap
  | .call c => h.after c
  | _ => h

/-- The bytes that an operation accesses, if it is an access. -/
def Operation.range? : Operation → Option (Address × Nat)
  | .bytes a length | .call (.change a length _) => some (a, length)
  | .call (.write a data) => some (a, data.length)
  | _ => none

/-- The outcome of an access that fails. -/
def Operation.failed (e : Error) : Operation → Outcome
  | .call _ => .called (.error e)
  | _ => .bytes (.error e)

/-- **The operation stops the program** because it accesses no bytes at an offset that the arena does
not have. -/
def Operation.StopsAt (op : Operation) (h : Heap) : Prop :=
  (∃ a, op.range? = some (a, 0) ∧ a.space = .heap ∧ a.offset = alignment) ∧
    h.arena.size < alignment ∧ h.outcome op = op.failed .panic

theorem Spans.plan (spans : h.Spans) {size : Nat} {p : Plan} (hplan : h.plan size = .ok p) :
    p.top ≤ max alignment p.arenaSize := by
  obtain ⟨start, holes, -, rfl⟩ | ⟨stop, -, hstop, rfl⟩ := plan_cases hplan
  · exact spans.inside
  · have hgrown := (grownSize_bounds spans.limited hstop).1
    exact Nat.le_trans hgrown (Nat.le_max_right _ _)

theorem Spans.after (spans : h.Spans) (c : Call) : (h.after c).Spans := by
  have hlimited := (arena_after spans.limited c).2
  rw [← settings_after h c] at hlimited
  refine ⟨?_, hlimited⟩
  rcases after_cases h c with heq | ⟨size, type, kind, p, hplan, heq⟩ | ⟨o, -, heq⟩ |
    ⟨a, data, heq⟩ <;> rw [heq]
  · exact spans.inside
  · exact spans.plan hplan
  · exact Nat.le_trans (giveBack_le _ _) spans.inside
  · exact spans.inside

theorem Spans.next (spans : h.Spans) (op : Operation) :
    (h.next op).Spans ∧ h.arena.size ≤ (h.next op).arena.size := by
  cases op with
  | call c => exact ⟨spans.after c, (arena_after spans.limited c).1⟩
  | _ => exact ⟨spans, Nat.le_refl _⟩

theorem Spans.run (spans : h.Spans) (ops : List Operation) :
    (ops.foldl Heap.next h).Spans ∧ h.arena.size ≤ (ops.foldl Heap.next h).arena.size := by
  induction ops generalizing h with
  | nil => exact ⟨spans, Nat.le_refl _⟩
  | cons op ops ih =>
    obtain ⟨hspans, hsize⟩ := spans.next op
    exact ⟨(ih hspans).1, Nat.le_trans hsize (ih hspans).2⟩

/-! ### Changes -/

namespace Alike

theorem containing (alike : h.Alike h') (a : Address) : h'.containing? a = h.containing? a := by
  simp only [containing?, alike.objects]

/-- The same place is planned for an object, with some other size of the arena. -/
theorem plan (alike : h.Alike h') (size : Nat) :
    ∃ arenaSize, h'.plan size = (h.plan size).map ({ · with arenaSize }) := by
  simp only [Heap.plan, alike.holes, alike.top, alike.limit]
  cases takeHole? (reserved size) h.holes with
  | some place =>
    refine ⟨h'.arena.size, ?_⟩
    split
    · rfl
    · rfl
  | none =>
    refine ⟨h'.grownSize (Size.word (h.top + reserved size)), ?_⟩
    -- None of the conditions is about the arena.
    dsimp only
    split
    · rfl
    · split
      · rfl
      · split
        · rfl
        · split
          · rfl
          · rfl

theorem occupy (alike : h.Alike h') (p : Plan) (arenaSize size : Nat) (type : TypeId)
    (kind : ObjectKind) :
    (h.occupy p size type kind).Alike (h'.occupy { p with arenaSize } size type kind) where
  limit := alike.limit
  top := rfl
  objects := by simp only [Heap.occupy, alike.objects]
  holes := rfl
  tombstones := by simp only [Heap.occupy, alike.tombstones]
  allocations := congrArg (· + 1) alike.allocations
  frees := alike.frees
  bytes := fun i => by
    simp only [Heap.occupy, Arena.byte_clear, Arena.byte_resize, alike.bytes]

theorem vacate (alike : h.Alike h') (o : Object) : (h.vacate o).Alike (h'.vacate o) where
  limit := alike.limit
  top := by simp only [Heap.vacate, alike.top, alike.holes]
  objects := by simp only [Heap.vacate, alike.objects]
  holes := by simp only [Heap.vacate, alike.top, alike.holes]
  tombstones := by simp only [Heap.vacate, alike.tombstones]
  allocations := alike.allocations
  frees := congrArg (· + 1) alike.frees
  bytes := alike.bytes

end Alike

/-! ### Accesses -/

section Access

variable {op : Operation} {a : Address} {length : Nat}

/-- An access to bytes that are not in range fails and changes nothing. -/
theorem outcome_of_not_inRange (hop : op.range? = some (a, length))
    (hrange : h.inRange a length = false) :
    h.outcome op = op.failed (h.rangeError a length) ∧ h.next op = h := by
  have hbytes : h.bytes a length = .error (h.rangeError a length) := if_neg (Bool.eq_false_iff.mp hrange)
  unfold Operation.range? at hop
  split at hop
  · cases hop
    exact ⟨congrArg Outcome.bytes hbytes, rfl⟩
  · cases hop
    simp [outcome, next, after, Call.answer, Call.run, hbytes, Except.map, Operation.failed]
  · cases hop
    simp [outcome, next, after, Call.answer, Call.run, Heap.write, hrange, Except.map, Operation.failed]
  · cases hop

/-- An access to no bytes changes none. -/
theorem next_of_empty (hop : op.range? = some (a, 0)) (hrange : h.inRange a 0 = true) :
    h.next op = h ∨ h.next op = h.poke a [] := by
  have hbytes : h.bytes a 0 = .ok [] := if_pos hrange
  unfold Operation.range? at hop
  split at hop
  · exact .inl rfl
  · cases hop
    right
    simp [next, after, Call.run, hbytes, Except.map]
  · rename_i data
    obtain ⟨rfl, hdata⟩ := Prod.mk.inj (Option.some.inj hop)
    obtain rfl := List.length_eq_zero_iff.mp hdata
    right
    simp [next, after, Call.run, Heap.write, hrange]
  · cases hop

namespace Alike

/-- Bytes that both arenas have or none are accessed in the same way. -/
theorem access (alike : h.Alike h') (hop : op.range? = some (a, length))
    (hrange : h'.inRange a length = h.inRange a length) :
    h.outcome op = h'.outcome op ∧ (h.next op).Alike (h'.next op) := by
  have hread : h'.arena.read a.offset length = h.arena.read a.offset length :=
    Arena.read_congr fun i _ _ => alike.bytes i
  have herror : h'.rangeError a length = h.rangeError a length := by
    simp only [Heap.rangeError, alike.top]
  have hbytes : h'.bytes a length = h.bytes a length := by
    simp only [Heap.bytes, hrange, hread, herror]
  unfold Operation.range? at hop
  split at hop
  · cases hop
    exact ⟨congrArg Outcome.bytes hbytes.symm, alike⟩
  · rename_i new
    cases hop
    simp only [outcome, next, after, Call.answer, Call.run, hbytes, true_and]
    cases h.bytes a length with
    | error e => exact alike
    | ok lent => exact alike.poke a (lent.mapIdx new)
  · rename_i data
    cases hop
    simp only [outcome, next, after, Call.answer, Call.run, Heap.write, hrange, herror]
    by_cases hinside : h.inRange a data.length = true
    · simp only [if_pos hinside]
      exact ⟨rfl, alike.poke a data⟩
    · simp only [if_neg hinside, true_and]
      exact alike
  · cases hop

/-- **The one access that shows the size of an arena**: bytes that one arena has and the other has not
are none, and to access them stops the program. -/
theorem stopsAt (alike : h.Alike h') (hop : op.range? = some (a, length)) (spans : h'.Spans)
    (hrange : h.inRange a length = true) (hrange' : h'.inRange a length = false) :
    op.StopsAt h' ∧ (h.next op).Alike (h'.next op) := by
  obtain ⟨hspace, hge, hend, -⟩ := inRange_iff.mp hrange
  have hrefused := mt inRange_iff.mpr (Bool.eq_false_iff.mp hrange')
  rw [← alike.top] at hend
  obtain ⟨houtcome, hnext⟩ := outcome_of_not_inRange hop hrange'
  obtain hinside | ⟨hoffset, rfl, hshort⟩ := spans.contained a length hspace hge hend
  · exact absurd ⟨hspace, hge, hend, hinside⟩ hrefused
  · have herror : h'.rangeError a 0 = .panic := by
      have hword : Size.word alignment = alignment := Size.word_of_lt (by decide)
      simp only [hoffset, Nat.add_zero] at hend
      simp only [Heap.rangeError, hoffset, Nat.add_zero, hword]
      exact if_neg (by simp [hspace, hend])
    refine ⟨⟨⟨a, hop, hspace, hoffset⟩, hshort, herror ▸ houtcome⟩, ?_⟩
    rw [hnext]
    rcases next_of_empty hop hrange with heq | heq
    · exact heq.symm ▸ alike
    · exact heq.symm ▸ alike.poke_nil a

end Alike

end Access

/-! ### Any operation -/

/-- **One step**: an operation leaves heaps alike that are so, and has the same outcome on them unless
it stops the program on one of them. -/
theorem Alike.step (alike : h.Alike h') (spans : h.Spans) (spans' : h'.Spans) (op : Operation) :
    (h.outcome op = h'.outcome op ∨ op.StopsAt h ∨ op.StopsAt h') ∧ (h.next op).Alike (h'.next op) := by
  cases hop : op.range? with
  | some range =>
    obtain ⟨a, length⟩ := range
    cases hrange : h.inRange a length with
    | true =>
      cases hrange' : h'.inRange a length with
      | true =>
        obtain ⟨hsame, hnext⟩ := alike.access hop (hrange'.trans hrange.symm)
        exact ⟨.inl hsame, hnext⟩
      | false =>
        obtain ⟨hstops, hnext⟩ := alike.stopsAt hop spans' hrange hrange'
        exact ⟨.inr (.inr hstops), hnext⟩
    | false =>
      cases hrange' : h'.inRange a length with
      | true =>
        obtain ⟨hstops, hnext⟩ := alike.symm.stopsAt hop spans hrange' hrange
        exact ⟨.inr (.inl hstops), hnext.symm⟩
      | false =>
        obtain ⟨hsame, hnext⟩ := alike.access hop (hrange'.trans hrange.symm)
        exact ⟨.inl hsame, hnext⟩
  | none =>
    cases op with
    | call c =>
      cases c with
      | allocate size type kind =>
        obtain ⟨arenaSize, hplan⟩ := alike.plan size
        simp only [outcome, next, after, Call.answer, Call.run, allocate_eq_map, hplan]
        cases h.plan size with
        | error e => exact ⟨.inl rfl, alike⟩
        | ok p => exact ⟨.inl rfl, alike.occupy p arenaSize size type kind⟩
      | free a =>
        simp only [outcome, next, after, Call.answer, Call.run, free_eq_map, alike.get]
        cases h.get a with
        | error e => exact ⟨.inl rfl, alike⟩
        | ok o => exact ⟨.inl rfl, alike.vacate o⟩
      | write => cases hop
      | change => cases hop
    | header a => exact ⟨.inl (congrArg Outcome.header (alike.get a).symm), alike⟩
    | containing a => exact ⟨.inl (congrArg Outcome.containing (alike.containing a).symm), alike⟩
    | isLive a => exact ⟨.inl (congrArg Outcome.isLive (alike.isLive a).symm), alike⟩
    | bytes => cases hop
    | objects => exact ⟨.inl (congrArg Outcome.objects alike.objects.symm), alike⟩
    | stats =>
      refine ⟨.inl ?_, alike⟩
      simp only [outcome, liveBytes, alike.allocations, alike.frees, alike.objects]

/-- **Two heaps show the same** at each point of a sequence of operations, unless the operation there
stops the program on one of them. -/
def ShowSame (h h' : Heap) (ops : List Operation) : Prop :=
  ∀ (i : Nat) (op : Operation), ops[i]? = some op →
    (observe outcome next h ops)[i]? = (observe outcome next h' ops)[i]? ∨
      op.StopsAt ((ops.take i).foldl next h) ∨ op.StopsAt ((ops.take i).foldl next h')

theorem Alike.run (alike : h.Alike h') (spans : h.Spans) (spans' : h'.Spans) (ops : List Operation) :
    (ops.foldl next h).Alike (ops.foldl next h') := by
  induction ops generalizing h h' with
  | nil => exact alike
  | cons op ops ih => exact ih (alike.step spans spans' op).2 (spans.next op).1 (spans'.next op).1

/-- **Every run.** -/
theorem Alike.showSame (alike : h.Alike h') (spans : h.Spans) (spans' : h'.Spans)
    (ops : List Operation) : ShowSame h h' ops := by
  intro i op hop
  rw [getElem?_observe, getElem?_observe, hop]
  have hstep := ((alike.run spans spans' (ops.take i)).step (spans.run _).1 (spans'.run _).1 op).1
  exact hstep.imp_left (congrArg some)

/-- Nothing stops the program in an arena that has the first offset. -/
theorem ShowSame.observe_eq {ops : List Operation} (same : ShowSame h h' ops) (spans : h.Spans)
    (spans' : h'.Spans) (hsize : alignment ≤ h.arena.size) (hsize' : alignment ≤ h'.arena.size) :
    observe outcome next h ops = observe outcome next h' ops := by
  apply List.ext_getElem?
  intro i
  cases hop : ops[i]? with
  | none => rw [getElem?_observe, getElem?_observe, hop, Option.map_none, Option.map_none]
  | some op =>
    rcases same i op hop with hsame | ⟨-, hshort, -⟩ | ⟨-, hshort, -⟩
    · exact hsame
    · exact absurd hshort (Nat.not_lt.mpr (Nat.le_trans hsize (spans.run _).2))
    · exact absurd hshort (Nat.not_lt.mpr (Nat.le_trans hsize' (spans'.run _).2))

end Heap

/-! ## Frame stacks -/

namespace FrameStack

/-- What can be done with a frame stack: calls, which may change it, bytes lent to be changed in
place, and questions. -/
inductive Operation
  | call (c : Call)
  | change (address : Address) (length : Nat) (new : Nat → UInt8 → UInt8)
  | current
  | frames
  | depth
  | getLocal (index : Int32)
  | getArgument (index : Int32)
  | bytes (address : Address) (length : Nat)

/-- What a call returns. -/
inductive Answer
  | entered (f : Frame)
  | left (f : Frame)
  | value (v : Value)
  | values (vs : List Value)
  | address (a : Address)
  | done

/-- The outcome of an operation. -/
inductive Outcome
  | called (answer : Except Error Answer)
  | frame (f : Except Error Frame)
  | frames (fs : List Frame)
  | depth (n : Nat)
  | slot (b : Except Error Binding)
  | bytes (read : Except Error (List UInt8))

/-- **Frame stacks that differ in the sizes of their arenas at most.** -/
structure Alike (s s' : FrameStack) : Prop where
  limit : s'.limit = s.limit
  frames : s'.frames = s.frames
  bytes : ∀ i, s'.arena.byte i = s.arena.byte i

variable {s s' : FrameStack}

namespace Alike

theorem create (initialSize initialSize' : Nat) (limit : UInt64) :
    (FrameStack.create initialSize limit).Alike (FrameStack.create initialSize' limit) :=
  ⟨rfl, rfl, fun i => by simp [FrameStack.create]⟩

theorem top (alike : s.Alike s') : s'.top = s.top := by
  simp only [FrameStack.top, alike.frames]

theorem current (alike : s.Alike s') : s'.current = s.current := by
  simp only [FrameStack.current, alike.frames]

theorem inRange (alike : s.Alike s') (a : Address) (length : Nat) :
    s'.inRange a length = s.inRange a length := by
  simp only [FrameStack.inRange, alike.top]

theorem setCurrent (alike : s.Alike s') (f : Frame) : (s.setCurrent f).Alike (s'.setCurrent f) :=
  { alike with frames := by simp only [FrameStack.setCurrent, alike.frames] }

theorem rewind (alike : s.Alike s') (f : Frame) : (s.rewind f).Alike (s'.rewind f) where
  limit := alike.limit
  frames := by simp only [FrameStack.rewind, alike.frames]
  bytes := fun i => by simp only [FrameStack.rewind, Arena.byte_clear, alike.bytes]

theorem poke (alike : s.Alike s') (a : Address) (data : List UInt8) :
    (s.poke a data).Alike (s'.poke a data) :=
  { alike with bytes := fun i => by simp only [FrameStack.poke, Arena.byte_write, alike.bytes] }

theorem carve (alike : s.Alike s') (c : Carving) (arenaSize : Nat) :
    (s.carve c).Alike (s'.carve { c with arenaSize }) := by
  by_cases hgrows : c.outgrows = true
  · have hgrows' : Carving.outgrows { c with arenaSize } = true := hgrows
    simp only [FrameStack.carve, if_pos hgrows, if_pos hgrows', alike.frames]
    refine ⟨alike.limit, rfl, fun i => ?_⟩
    simp only [Arena.byte_clear, Arena.byte_resize, alike.bytes]
  · have hgrows' : ¬ Carving.outgrows { c with arenaSize } = true := hgrows
    simp only [FrameStack.carve, if_neg hgrows, if_neg hgrows']
    exact alike.setCurrent _

end Alike

/-! ### The bytes in use -/

/-- **The arena has all bytes that can be reached.** -/
def Contained (s : FrameStack) : Prop :=
  ∀ a length, s.inRange a length = true → a.offset + length ≤ s.arena.size

/-- The arena has the bytes of every frame, and keeps to its limit. -/
structure Spans (s : FrameStack) : Prop where
  inside : ∀ f ∈ s.frames, f.stop ≤ s.arena.size
  limited : s.arena.size ≤ s.limit.toNat

namespace Spans

theorem create (initialSize : Nat) (limit : UInt64) :
    (create initialSize limit).Spans :=
  ⟨fun _ hf => (nomatch hf), Nat.min_le_right _ _⟩

theorem contained (spans : s.Spans) : s.Contained := by
  intro a length hrange
  obtain ⟨-, hend⟩ := inRange_iff.mp hrange
  cases hframes : s.frames with
  | nil =>
    have htop : s.top = 0 := by rw [top, hframes]
    omega
  | cons f rest =>
    have hinside := spans.inside f (hframes ▸ List.mem_cons_self)
    rw [top_of_frames hframes] at hend
    omega

/-- The innermost frame is another one, which ends where it did. -/
theorem innermost (spans : s.Spans) {f f' : Frame} {rest : List Frame} (hframes : s.frames = f :: rest)
    (hstop : f'.stop = f.stop) : ({ s with frames := f' :: rest } : FrameStack).Spans := by
  refine ⟨fun g hg => ?_, spans.limited⟩
  rcases List.mem_cons.mp hg with rfl | hg
  · rw [hstop]
    exact spans.inside f (hframes ▸ List.mem_cons_self)
  · exact spans.inside g (hframes ▸ List.mem_cons_of_mem f hg)

end Spans

/-! ### Operations -/

variable [Build]

/-- The answer to a call. -/
def Call.answer (s : FrameStack) : Call → Except Error Answer
  | pushFrame layout => (s.pushFrame layout).bind fun s' => s'.current.map .entered
  | popFrame => s.popFrame.map fun p => .left p.1
  | push v => (s.push v).map fun _ => .done
  | pop => s.pop.map fun p => .value p.1
  | allocate count => (s.allocate count).map fun p => .address p.1
  | resetScratch => s.resetScratch.map fun p => .values p.1
  | write a data => (s.write a data).map fun _ => .done

/-- What an operation returns. -/
def outcome (s : FrameStack) : Operation → Outcome
  | .call c => .called (c.answer s)
  | .change a length _ => .bytes (s.bytes a length)
  | .current => .frame s.current
  | .frames => .frames s.frames
  | .depth => .depth s.depth
  | .getLocal index => .slot (s.current.bind (·.getLocal index))
  | .getArgument index => .slot (s.current.bind (·.getArgument index))
  | .bytes a length => .bytes (s.bytes a length)

/-- The frame stack after an operation. Lent bytes are written back where they were. -/
def next (s : FrameStack) : Operation → FrameStack
  | .call c => s.after c
  | .change a length new =>
    match s.bytes a length with
    | .ok lent => s.poke a (lent.mapIdx new)
    | .error _ => s
  | _ => s

namespace Alike

theorem rangeError (alike : s.Alike s') (a : Address) (length : Nat) :
    s'.rangeError a length = s.rangeError a length := by
  simp only [FrameStack.rangeError, alike.top]

theorem read (alike : s.Alike s') (a : Address) (length : Nat) :
    s'.bytes a length = s.bytes a length := by
  have hread : s'.arena.read a.offset length = s.arena.read a.offset length :=
    Arena.read_congr fun i _ _ => alike.bytes i
  simp only [FrameStack.bytes, alike.inRange, alike.rangeError, hread]

/-- The same bytes can be reserved, in an arena of some other size. -/
theorem reserve (alike : s.Alike s') (stop : Nat) :
    ∃ size, s'.reserve stop = (s.reserve stop).map fun _ => size := by
  simp only [FrameStack.reserve, alike.limit]
  by_cases hfull : s.limit.toNat < stop
  · exact ⟨0, by simp only [if_pos hfull, Except.map]⟩
  · simp only [if_neg hfull]
    refine ⟨if stop ≤ s'.arena.size then s'.arena.size
      else min (max (s'.arena.size * 2) stop) s.limit.toNat, ?_⟩
    split <;> split <;> rfl

theorem enter (alike : s.Alike s') (layout : FrameLayout) (size size' : Nat) :
    (s.enter layout size).Alike (s'.enter layout size') where
  limit := alike.limit
  frames := by simp only [FrameStack.enter, alike.top, alike.frames]
  bytes := fun i => by
    simp only [FrameStack.enter, Arena.byte_clear, Arena.byte_resize, alike.top, alike.bytes]

/-- The same scratch is planned, with some other size of the arena. -/
theorem planCarving (alike : s.Alike s') (count : Nat) :
    ∃ arenaSize, s'.planCarving count = (s.planCarving count).map ({ · with arenaSize }) := by
  simp only [FrameStack.planCarving, alike.current]
  cases s.current with
  | error e => exact ⟨0, rfl⟩
  | ok f =>
    by_cases hgrows : f.stop < Size.word (f.cursor + count)
    · obtain ⟨size, hreserve⟩ := alike.reserve (Size.word (f.cursor + count))
      refine ⟨size, ?_⟩
      simp only [bind, Except.bind, if_pos hgrows, hreserve]
      cases s.reserve (Size.word (f.cursor + count)) <;> rfl
    · refine ⟨s'.arena.size, ?_⟩
      simp only [bind, Except.bind, if_neg hgrows]
      rfl

/-- The same frame is planned, in an arena of some other size. -/
theorem planFrame (alike : s.Alike s') (layout : FrameLayout) :
    ∃ size, s'.planFrame layout = (s.planFrame layout).map fun _ => size := by
  obtain ⟨size, hreserve⟩ := alike.reserve (layout.frameAt s.top).stop
  refine ⟨size, ?_⟩
  simp only [FrameStack.planFrame, alike.top, hreserve]
  cases s.reserve (layout.frameAt s.top).stop with
  | error e => rfl
  | ok size' =>
    show (if Size.isInverted _ _ = true then _ else _) =
      Except.map _ (if Size.isInverted _ _ = true then _ else _)
    split
    · rfl
    · rfl

/-- A call has the same answer on frame stacks that are alike, and leaves them alike. -/
theorem call (alike : s.Alike s') (c : Call) :
    c.answer s = c.answer s' ∧ (s.after c).Alike (s'.after c) := by
  unfold after
  cases c with
  | pushFrame layout =>
    obtain ⟨size', hplan⟩ := alike.planFrame layout
    simp only [Call.answer, Call.run, FrameStack.pushFrame, hplan]
    cases s.planFrame layout with
    | error e => exact ⟨rfl, alike⟩
    | ok size =>
      have hentered := alike.enter layout size size'
      exact ⟨congrArg (Except.map Answer.entered) hentered.current.symm, hentered⟩
  | popFrame =>
    simp only [Call.answer, Call.run, FrameStack.popFrame, alike.frames]
    cases s.frames with
    | nil => exact ⟨rfl, alike⟩
    | cons f rest => exact ⟨rfl, alike.limit, rfl, alike.bytes⟩
  | push v =>
    simp only [Call.answer, Call.run, FrameStack.push, alike.current]
    cases s.current with
    | error e => exact ⟨rfl, alike⟩
    | ok f =>
      cases hpush : f.push v with
      | error e =>
        simp only [bind, Except.bind, hpush, true_and]
        exact alike
      | ok f' =>
        simp only [bind, Except.bind, hpush]
        exact ⟨rfl, alike.setCurrent f'⟩
  | pop =>
    simp only [Call.answer, Call.run, FrameStack.pop, alike.current]
    cases s.current with
    | error e => exact ⟨rfl, alike⟩
    | ok f =>
      cases hpop : f.pop with
      | error e =>
        simp only [bind, Except.bind, hpop, true_and]
        exact alike
      | ok p =>
        simp only [bind, Except.bind, hpop]
        exact ⟨rfl, alike.setCurrent p.2⟩
  | allocate count =>
    obtain ⟨arenaSize, hplan⟩ := alike.planCarving count
    simp only [Call.answer, Call.run, FrameStack.allocate, hplan]
    cases s.planCarving count with
    | error e => exact ⟨rfl, alike⟩
    | ok c => exact ⟨rfl, alike.carve c arenaSize⟩
  | resetScratch =>
    simp only [Call.answer, Call.run, FrameStack.resetScratch, alike.current]
    cases s.current with
    | error e => exact ⟨rfl, alike⟩
    | ok f =>
      cases hinverted : Size.isInverted f.scratch f.cursor with
      | true =>
        simp only [bind, Except.bind, hinverted, if_true]
        exact ⟨rfl, alike⟩
      | false =>
        simp only [bind, Except.bind, hinverted, Bool.false_eq_true, if_false]
        exact ⟨rfl, alike.rewind f⟩
  | write a data =>
    simp only [Call.answer, Call.run, FrameStack.write, alike.inRange, alike.rangeError]
    by_cases hrange : s.inRange a data.length = true
    · simp only [if_pos hrange]
      exact ⟨rfl, alike.poke a data⟩
    · simp only [if_neg hrange, true_and]
      exact alike

/-- **One step**: an operation has the same outcome on frame stacks that are alike, and leaves them
alike. -/
theorem step (s s' : FrameStack) (op : Operation) (alike : s.Alike s') :
    s.outcome op = s'.outcome op ∧ (s.next op).Alike (s'.next op) := by
  cases op with
  | call c =>
    obtain ⟨hanswer, hafter⟩ := alike.call c
    exact ⟨congrArg Outcome.called hanswer, hafter⟩
  | change a length new =>
    simp only [outcome, next, alike.read, true_and]
    cases s.bytes a length with
    | error e => exact alike
    | ok lent => exact alike.poke a (lent.mapIdx new)
  | current => exact ⟨congrArg Outcome.frame alike.current.symm, alike⟩
  | frames => exact ⟨congrArg Outcome.frames alike.frames.symm, alike⟩
  | depth => exact ⟨by simp only [outcome, FrameStack.depth, alike.frames], alike⟩
  | getLocal index => exact ⟨by simp only [outcome, alike.current], alike⟩
  | getArgument index => exact ⟨by simp only [outcome, alike.current], alike⟩
  | bytes a length => exact ⟨congrArg Outcome.bytes (alike.read a length).symm, alike⟩

end Alike

namespace Spans

theorem step {c : Call} (spans : s.Spans) (hstep : Step s c s') : s'.Spans := by
  cases hstep with
  | pushFrame hreserve =>
    obtain ⟨hstop, hsize, hlimit⟩ := reserve_eq_ok hreserve spans.limited
    refine ⟨fun f hf => ?_, hlimit⟩
    rcases List.mem_cons.mp hf with rfl | hf
    · exact hstop
    · exact Nat.le_trans (spans.inside f hf) hsize
  | popFrame hframes =>
    exact ⟨fun f hf => spans.inside f (hframes ▸ List.mem_cons_of_mem _ hf), spans.limited⟩
  | push v hframes _ => exact spans.innermost hframes rfl
  | pop hframes _ => exact spans.innermost hframes rfl
  | @allocate count carving hplan =>
    obtain ⟨rest, hframes, -⟩ := carving_of_planCarving hplan
    unfold FrameStack.carve
    split
    · rename_i hgrows
      have hreserve := reserve_of_planCarving hplan (by simpa [Carving.outgrows] using hgrows)
      obtain ⟨hstop, hsize, hlimit⟩ := reserve_eq_ok hreserve spans.limited
      refine ⟨fun f hf => ?_, hlimit⟩
      rw [hframes] at hf
      rcases List.mem_cons.mp hf with rfl | hf
      · exact hstop
      · exact Nat.le_trans (spans.inside f (hframes ▸ List.mem_cons_of_mem _ hf)) hsize
    · rw [FrameStack.setCurrent, hframes]
      exact spans.innermost hframes rfl
  | @resetScratch f rest hframes =>
    have hrewound : ({ s with frames := { f with cursor := f.scratch, values := [] } :: rest } :
        FrameStack).Spans := spans.innermost hframes rfl
    unfold FrameStack.rewind
    rw [hframes]
    exact ⟨hrewound.inside, hrewound.limited⟩
  | write _ => exact ⟨spans.inside, spans.limited⟩

theorem next (spans : s.Spans) (op : Operation) : (s.next op).Spans := by
  cases op with
  | call c =>
    show (s.after c).Spans
    rcases after_cases s [] c with ⟨s', hstep, heq, -⟩ | ⟨heq, -⟩
    · rw [heq]
      exact spans.step hstep
    · rw [heq]
      exact spans
  | change a length new =>
    show FrameStack.Spans (match s.bytes a length with | .ok lent => _ | .error _ => s)
    split
    · exact ⟨spans.inside, spans.limited⟩
    · exact spans
  | _ => exact spans

theorem run (spans : s.Spans) (ops : List Operation) : (ops.foldl FrameStack.next s).Spans := by
  induction ops generalizing s with
  | nil => exact spans
  | cons op ops ih => exact ih (spans.next op)

end Spans

end FrameStack

/-! ## The main statement -/

end ManagedVm
