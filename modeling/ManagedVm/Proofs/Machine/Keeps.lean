import Mathlib.Logic.Relation
import ManagedVm.Machine.Invoke
import ManagedVm.Proofs.Machine.Exec
import ManagedVm.Proofs.Machine.Queries
import ManagedVm.Proofs.Machine.Shape
import ManagedVm.Proofs.Stack.Frames

/-!
# What operations keep

All that is ever shown of the effect of an operation of the machine has one form: whatever machine it
is started in, the one it leads to is related to it, and if it fails, its error is of a certain kind.
This is the judgment `Exec.Keeps`. Unlike a postcondition it speaks of failures too, because what an
operation did before it failed stays done.

What an operation may do is said once, as the steps that it is made of (`Machine.Touch`). Steps are
ordered by how far they reach: freeing an object changes no byte; making one and writing to memory
changes no frame; handing out scratch changes the innermost frame, but not its values; pushes and pops
change these. An operation that stays within a reach keeps whatever the steps of this reach keep, and
that is shown step by step: the bytes (`Touched.bytes`), the frames (`Touched.frames`), the depths of
the evaluation stacks (`Touched.shape`), and all that lies outside of the innermost frame
(`Touched.moved`).
-/

namespace ManagedVm

/-! ## The judgment -/

/-- A relation between machines that goes on from one operation to the next. -/
class Machine.Lasting (R : Machine → Machine → Prop) : Prop where
  refl : ∀ m, R m m
  trans : ∀ {m m' m'' : Machine}, R m m' → R m' m'' → R m m''

namespace Exec

open Machine (Lasting)

variable {α β : Type} {R S : Machine → Machine → Prop} {E F : Error → Prop} {m m' : Machine}

/-- The operation leads from a machine to a related one, and raises an error of the kind at most. -/
def KeepsAt (R : Machine → Machine → Prop) (E : Error → Prop) (x : Exec α) (m : Machine) : Prop :=
  match x m with
  | .ok _ m' => R m m'
  | .error e m' => R m m' ∧ E e

/-- **The operation keeps a relation**, also when it fails, and raises errors of a kind only. -/
def Keeps (R : Machine → Machine → Prop) (E : Error → Prop) (x : Exec α) : Prop := ∀ m, KeepsAt R E x m

namespace KeepsAt

variable {x : Exec α} {f : α → Exec β}

theorem of_ok {a : α} (hx : KeepsAt R E x m) (h : x m = .ok a m') : R m m' := by
  unfold KeepsAt at hx
  rw [h] at hx
  exact hx

theorem of_error {e : Error} (hx : KeepsAt R E x m) (h : x m = .error e m') : R m m' ∧ E e := by
  unfold KeepsAt at hx
  rw [h] at hx
  exact hx

theorem intro (hok : ∀ a m', x m = .ok a m' → R m m') (herror : ∀ e m', x m = .error e m' → R m m' ∧ E e) :
    KeepsAt R E x m := by
  unfold KeepsAt
  cases h : x m with
  | ok a m' => exact hok a m' h
  | error e m' => exact herror e m' h

theorem final (hx : KeepsAt R E x m) : R m (x.final m) := by
  unfold Exec.final
  cases h : x m with
  | ok a m' => exact hx.of_ok h
  | error e m' => exact (hx.of_error h).1

theorem mono (hx : KeepsAt R E x m) (hR : ∀ {m m' : Machine}, R m m' → S m m')
    (hE : ∀ {e : Error}, E e → F e) : KeepsAt S F x m := by
  unfold KeepsAt
  cases h : x m with
  | ok a m' => exact hR (hx.of_ok h)
  | error e m' => exact ⟨hR (hx.of_error h).1, hE (hx.of_error h).2⟩

theorem map (hx : KeepsAt R E x m) (k : α → β) : KeepsAt R E (k <$> x) m := by
  unfold KeepsAt
  cases h : x m with
  | ok a m' =>
    rw [map_of_ok k h]
    exact hx.of_ok h
  | error e m' =>
    rw [map_of_error k h]
    exact hx.of_error h

theorem bind [Lasting R] (hx : KeepsAt R E x m)
    (hf : ∀ a m', x m = .ok a m' → KeepsAt R E (f a) m') : KeepsAt R E (x >>= f) m := by
  unfold KeepsAt
  cases h : x m with
  | error e m' =>
    rw [bind_of_error h]
    exact hx.of_error h
  | ok a m' =>
    rw [bind_of_ok h]
    have hm := hx.of_ok h
    cases h' : f a m' with
    | error e m'' =>
      obtain ⟨hm', he⟩ := (hf a m' h).of_error h'
      exact ⟨Lasting.trans hm hm', he⟩
    | ok b m'' => exact Lasting.trans hm ((hf a m' h).of_ok h')

/-- An operation that goes by the answer to a question. -/
theorem ask [Lasting R] {q : Machine → Except Error α} (hq : ∀ e, q m = .error e → E e)
    (hf : ∀ a, q m = .ok a → KeepsAt R E (f a) m) : KeepsAt R E (query q >>= f) m := by
  unfold KeepsAt
  cases h : q m with
  | error e =>
    rw [bind_of_error (query_of_error h)]
    exact ⟨Lasting.refl m, hq e h⟩
  | ok a =>
    rw [bind_of_ok (query_of_ok h)]
    exact hf a h

end KeepsAt

namespace Keeps

variable {x : Exec α} {f : α → Exec β}

theorem of_ok {a : α} (hx : Keeps R E x) (h : x m = .ok a m') : R m m' := (hx m).of_ok h

theorem of_error {e : Error} (hx : Keeps R E x) (h : x m = .error e m') : R m m' ∧ E e :=
  (hx m).of_error h

theorem mono (hx : Keeps R E x) (hR : ∀ {m m' : Machine}, R m m' → S m m')
    (hE : ∀ {e : Error}, E e → F e) : Keeps S F x := fun m => (hx m).mono hR hE

theorem map (hx : Keeps R E x) (k : α → β) : Keeps R E (k <$> x) := fun m => (hx m).map k

theorem discard (hx : Keeps R E x) : Keeps R E (discard x) := hx.map _

theorem ite {p : Prop} [Decidable p] {y : Exec α} (hx : Keeps R E x) (hy : Keeps R E y) :
    Keeps R E (if p then x else y) := by
  split
  · exact hx
  · exact hy

theorem mapError (hx : Keeps R E x) {k : Error → Error} (hk : ∀ {e : Error}, E e → E (k e)) :
    Keeps R E (mapError k x) := by
  intro m
  unfold KeepsAt
  cases h : x m with
  | ok a m' =>
    rw [mapError_of_ok k h]
    exact hx.of_ok h
  | error e m' =>
    rw [mapError_of_error k h]
    exact ⟨(hx.of_error h).1, hk (hx.of_error h).2⟩

theorem modify {k : Machine → Machine} (hk : ∀ m, R m (k m)) : Keeps R E (modify k : Exec PUnit) := hk

variable [Lasting R]

theorem pure (a : α) : Keeps R E (Pure.pure a) := fun m => Lasting.refl m

theorem throw {e : Error} (he : E e) : Keeps R E (MonadExcept.throw e : Exec α) :=
  fun m => ⟨Lasting.refl m, he⟩

theorem query {q : Machine → Except Error α} (hq : ∀ m e, q m = .error e → E e) :
    Keeps R E (query q) := by
  intro m
  unfold KeepsAt
  cases h : q m with
  | ok a =>
    rw [query_of_ok h]
    exact Lasting.refl m
  | error e =>
    rw [query_of_error h]
    exact ⟨Lasting.refl m, hq m e h⟩

/-- Reading something that is there anyway. -/
theorem read (q : Machine → α) : Keeps R E (Exec.query fun m => .ok (q m)) :=
  query fun _ _ h => nomatch h

theorem bind (hx : Keeps R E x) (hf : ∀ a, Keeps R E (f a)) : Keeps R E (x >>= f) :=
  fun m => (hx m).bind fun a m' _ => hf a m'

/-- A check before the rest. -/
theorem guard {p : Prop} [Decidable p] {e : Error} (he : E e) (hx : Keeps R E x) :
    Keeps R E (if p then (MonadExcept.throw e : Exec PUnit) >>= fun _ => x else x) :=
  ite (bind (throw he) fun _ => hx) hx

theorem forM {f : α → Exec PUnit} (hf : ∀ a, Keeps R E (f a)) (xs : List α) : Keeps R E (xs.forM f) := by
  induction xs with
  | nil => exact pure _
  | cons x xs ih => exact (hf x).bind fun _ => ih

end Keeps

end Exec

/-! ## Steps -/

/-- **How far an operation reaches**, from least to most. -/
inductive Reach
  /-- It frees objects. -/
  | objects
  /-- It also makes objects, and writes to memory. -/
  | memory
  /-- It also hands out scratch of the innermost frame. -/
  | scratch
  /-- It also pushes and pops values of the innermost frame. -/
  | values
  deriving DecidableEq

namespace Reach

/-- The place in the order. -/
def rank : Reach → Nat
  | objects => 0
  | memory => 1
  | scratch => 2
  | values => 3

instance : LE Reach := ⟨fun r r' => r.rank ≤ r'.rank⟩

instance (r r' : Reach) : Decidable (r ≤ r') := inferInstanceAs (Decidable (r.rank ≤ r'.rank))

theorem le_trans {r r' r'' : Reach} (h : r ≤ r') (h' : r' ≤ r'') : r ≤ r'' := Nat.le_trans h h'

/-- One reach lies within another. For reaches that are known, instance search finds out. -/
class Within (r r' : Reach) : Prop where
  le : r ≤ r'

instance (r : Reach) : Within r r := ⟨Nat.le_refl _⟩

instance (r : Reach) : Within objects r := ⟨Nat.zero_le _⟩

instance : Within memory scratch := ⟨by decide⟩

instance (r : Reach) : Within r values := ⟨by cases r <;> decide⟩

/-- **The errors of operations within a reach.** Only those that hand out scratch complain about room,
and only those that push and pop about depth. -/
def Raises : Reach → Error → Prop
  | objects, e | memory, e => e.isData = true
  | scratch, e => e.isPlain = true
  | values, _ => True

theorem Raises.of_isData {r : Reach} {e : Error} (h : e.isData = true) : r.Raises e := by
  cases r with
  | objects | memory => exact h
  | scratch => exact (Error.isData_iff.mp h).1
  | values => trivial

theorem Raises.mono {r r' : Reach} (hr : r ≤ r') {e : Error} (h : r.Raises e) : r'.Raises e := by
  cases r with
  | objects | memory => exact .of_isData h
  | scratch =>
    cases r' with
    | objects | memory => exact absurd hr (by decide)
    | scratch => exact h
    | values => trivial
  | values =>
    cases r' with
    | objects | memory | scratch => exact absurd hr (by decide)
    | values => trivial

end Reach

namespace Machine

/-- **One step of an operation within a reach.** Objects are made with their shapes, and blocks of
static fields are not freed. -/
inductive Touch (r : Reach) : Machine → Machine → Prop
  | noted {m : Machine} (journal : Journal) (output : Array String) : Touch r m { m with journal, output }
  | freed {m : Machine} {a : Address} {o : Heap.Object} : m.heap.get a = .ok o →
      m.types.Allows m.heap (.free a) → Touch r m { m with heap := m.heap.vacate o }
  | allocated {m : Machine} {size : Nat} {type : TypeId} {kind : ObjectKind} {p : Heap.Plan} :
      .memory ≤ r → m.heap.plan size = .ok p → m.types.Shaped type size kind →
        Touch r m { m with heap := m.heap.occupy p size type kind }
  | writtenHeap {m : Machine} {a : Address} {data : List UInt8} : .memory ≤ r →
      m.heap.inRange a data.length = true → Touch r m { m with heap := m.heap.poke a data }
  | writtenStack {m : Machine} {a : Address} {data : List UInt8} : .memory ≤ r →
      m.stack.inRange a data.length = true → Touch r m { m with stack := m.stack.poke a data }
  | carved {m : Machine} {count : Nat} {c : FrameStack.Carving} : .scratch ≤ r →
      m.stack.planCarving count = .ok c → Touch r m { m with stack := m.stack.carve c }
  | valued {m : Machine} {f : Frame} {rest : List Frame} (values : List Value) : .values ≤ r →
      m.stack.frames = f :: rest →
        Touch r m { m with stack := { m.stack with frames := { f with values } :: rest } }

/-- Any number of steps within a reach. -/
def Touched (r : Reach) : Machine → Machine → Prop := Relation.ReflTransGen (Touch r)

variable {r r' : Reach} {m m' m'' : Machine}

instance : Lasting (Touched r) := ⟨fun _ => .refl, Relation.ReflTransGen.trans⟩

theorem Touch.mono (hr : r ≤ r') (h : m.Touch r m') : m.Touch r' m' := by
  cases h with
  | noted journal output => exact .noted journal output
  | freed hget hallows => exact .freed hget hallows
  | allocated hmemory hplan hshaped => exact .allocated (Reach.le_trans hmemory hr) hplan hshaped
  | writtenHeap hmemory hrange => exact .writtenHeap (Reach.le_trans hmemory hr) hrange
  | writtenStack hmemory hrange => exact .writtenStack (Reach.le_trans hmemory hr) hrange
  | carved hscratch hplan => exact .carved (Reach.le_trans hscratch hr) hplan
  | valued values hvalues hframes => exact .valued values (Reach.le_trans hvalues hr) hframes

theorem Touched.mono (hr : r ≤ r') (h : m.Touched r m') : m.Touched r' m' :=
  Relation.ReflTransGen.mono (fun _ _ => Touch.mono hr) _ _ h

/-- **What each step keeps, any number of steps keeps.** -/
theorem Touched.keeps {R : Machine → Machine → Prop} [Lasting R]
    (hstep : ∀ {m m' : Machine}, m.Touch r m' → R m m') (h : m.Touched r m') : R m m' := by
  induction h with
  | refl => exact Lasting.refl m
  | tail _ htouch ih => exact Lasting.trans ih (hstep htouch)

end Machine

/-! ## Bytes -/

namespace Machine

/-- **Every byte is where it was.** -/
structure SameBytes (m m' : Machine) : Prop where
  heap : m'.heap.arena = m.heap.arena
  stack : m'.stack.arena = m.stack.arena

instance : Lasting SameBytes where
  refl _ := ⟨rfl, rfl⟩
  trans h h' := ⟨h'.heap.trans h.heap, h'.stack.trans h.stack⟩

variable {r : Reach} {m m' : Machine}

/-- A freed object leaves its bytes behind. -/
theorem Touched.bytes (h : m.Touched .objects m') : m.SameBytes m' := by
  refine h.keeps fun htouch => ?_
  cases htouch with
  | noted | freed => exact ⟨rfl, rfl⟩
  | allocated hr | writtenHeap hr | writtenStack hr | carved hr | valued _ hr => exact absurd hr (by decide)

/-! ## Frames -/

/-- **The program and the frames are the same.** -/
structure SameFrames (m m' : Machine) : Prop where
  image : m'.image = m.image
  types : m'.types = m.types
  frames : m'.stack.frames = m.stack.frames

instance : Lasting SameFrames where
  refl _ := ⟨rfl, rfl, rfl⟩
  trans h h' := ⟨h'.image.trans h.image, h'.types.trans h.types, h'.frames.trans h.frames⟩

theorem Touched.frames (hr : r ≤ .memory) (h : m.Touched r m') : m.SameFrames m' := by
  refine (h.mono hr).keeps fun htouch => ?_
  cases htouch with
  | noted | freed | allocated | writtenHeap | writtenStack => exact ⟨rfl, rfl, rfl⟩
  | carved hr | valued _ hr => exact absurd hr (by decide)

end Machine

/-- **The frame goes on**: all that may have changed are its values and how much scratch it has
handed out, and its bytes may have been extended for that. -/
structure Frame.Onward (f f' : Frame) : Prop where
  same : f' = { f with
    cursor := f'.cursor, stop := f'.stop, grown := f'.grown, values := f'.values }
  cursor_le : f.cursor ≤ f'.cursor
  inside : f.cursor ≤ f.stop → f'.cursor ≤ f'.stop

/-- **The frame goes on with the values it has.** -/
structure Frame.Steady (f f' : Frame) : Prop extends f.Onward f' where
  values : f'.values = f.values

/-- A relation between frames that allows what a steady frame does, again and again. -/
class Frame.Allowing (R : Frame → Frame → Prop) : Prop where
  steady : ∀ {f f' : Frame}, f.Steady f' → R f f'
  trans : ∀ {f f' f'' : Frame}, R f f' → R f' f'' → R f f''

namespace Frame

variable {f f' f'' : Frame} {R : Frame → Frame → Prop}

theorem Onward.trans (h : f.Onward f') (h' : f'.Onward f'') : f.Onward f'' where
  same := by
    rw [h'.same, h.same]
  cursor_le := Nat.le_trans h.cursor_le h'.cursor_le
  inside := fun hinside => h'.inside (h.inside hinside)

theorem Steady.refl (f : Frame) : f.Steady f := ⟨⟨rfl, Nat.le_refl _, id⟩, rfl⟩

instance : Allowing Onward := ⟨Steady.toOnward, Onward.trans⟩

instance : Allowing Steady :=
  ⟨id, fun h h' => ⟨h.toOnward.trans h'.toOnward, h'.values.trans h.values⟩⟩

theorem onward_values (f : Frame) (values : List Value) : f.Onward { f with values } :=
  ⟨rfl, Nat.le_refl _, id⟩

/-- **Only the innermost frame is another one**, and it is related to the one it was. -/
inductive Replaced (R : Frame → Frame → Prop) : List Frame → List Frame → Prop
  | none : Replaced R [] []
  | innermost {f f' : Frame} {rest : List Frame} : R f f' → Replaced R (f :: rest) (f' :: rest)

theorem Replaced.refl [Allowing R] (fs : List Frame) : Replaced R fs fs := by
  cases fs with
  | nil => exact .none
  | cons f rest => exact .innermost (Allowing.steady (.refl f))

theorem Replaced.trans [Allowing R] {fs fs' fs'' : List Frame} (h : Replaced R fs fs')
    (h' : Replaced R fs' fs'') : Replaced R fs fs'' := by
  cases h with
  | none => exact h'
  | innermost hf =>
    cases h' with
    | innermost hf' => exact .innermost (Allowing.trans hf hf')

theorem Replaced.mono {S : Frame → Frame → Prop} (hRS : ∀ f f', R f f' → S f f')
    {fs fs' : List Frame} (h : Replaced R fs fs') : Replaced S fs fs' := by
  cases h with
  | none => exact .none
  | innermost hf => exact .innermost (hRS _ _ hf)

theorem Replaced.length_eq {fs fs' : List Frame} (h : Replaced R fs fs') :
    fs'.length = fs.length := by
  cases h with
  | none => rfl
  | innermost _ => simp

theorem Replaced.of_cons {rest fs' : List Frame} (h : Replaced R (f :: rest) fs') :
    ∃ f', fs' = f' :: rest ∧ R f f' := by
  cases h with
  | innermost hf => exact ⟨_, rfl, hf⟩

end Frame

open ManagedVm.Frame (Allowing Onward Steady Replaced)

/-- A frame that hands out scratch is steady. -/
theorem FrameStack.Carving.steady_after {c : FrameStack.Carving} (hstop : c.frame.cursor ≤ c.stop) :
    c.frame.Steady c.after := by
  refine ⟨⟨?_, ?_, fun _ => ?_⟩, ?_⟩
  · unfold after
    split
    · rfl
    · rfl
  · rw [c.cursor_after]
    exact hstop
  · rw [c.cursor_after]
    unfold after
    split
    · exact Nat.le_refl _
    · rename_i hfits
      simpa [outgrows] using hfits
  · unfold after
    split
    · rfl
    · rfl

/-- Handing out scratch replaces the innermost frame by a steady one. -/
theorem FrameStack.replaced_carve {s : FrameStack} {count : Nat} {c : FrameStack.Carving}
    (h : s.planCarving count = .ok c) : Replaced Steady s.frames (s.carve c).frames := by
  obtain ⟨rest, hframes, -, hstop⟩ := FrameStack.planCarving_eq_ok h
  rw [FrameStack.frames_carve, hframes]
  exact .innermost (Carving.steady_after (by omega))

/-! ## All but the innermost frame -/

namespace Machine

/-- **What an operation on the innermost frame leaves as it was.** What it does to the heap it does by
calls that the types allow. -/
structure Moved (R : Frame → Frame → Prop) (m m' : Machine) : Prop where
  image : m'.image = m.image
  types : m'.types = m.types
  statics : m'.statics = m.statics
  settings : m'.settings = m.settings
  natives : m'.natives = m.natives
  inFlight : m'.inFlight = m.inFlight
  frames : Replaced R m.stack.frames m'.stack.frames
  calls : Heap.LeadsTo m.types.Allows m.heap m'.heap

variable {R : Frame → Frame → Prop} {m m' m'' : Machine} {r : Reach}

theorem Moved.refl [Allowing R] (m : Machine) : m.Moved R m :=
  ⟨rfl, rfl, rfl, rfl, rfl, rfl, .refl _, .refl _⟩

theorem Moved.trans [Allowing R] (h : m.Moved R m') (h' : m'.Moved R m'') : m.Moved R m'' :=
  ⟨h'.image.trans h.image, h'.types.trans h.types, h'.statics.trans h.statics,
    h'.settings.trans h.settings, h'.natives.trans h.natives, h'.inFlight.trans h.inFlight,
    h.frames.trans h'.frames, h.calls.trans (h.types ▸ h'.calls)⟩

instance [Allowing R] : Lasting (Moved R) := ⟨Moved.refl, Moved.trans⟩

theorem Moved.onward (h : m.Moved Steady m') : m.Moved Onward m' where
  image := h.image
  types := h.types
  statics := h.statics
  settings := h.settings
  natives := h.natives
  inFlight := h.inFlight
  frames := h.frames.mono fun _ _ => Steady.toOnward
  calls := h.calls

theorem Moved.heap (h : m.Moved R m') : Heap.LeadsTo (fun _ _ => True) m.heap m'.heap :=
  h.calls.mono fun _ _ _ => trivial

theorem Moved.depth_eq (h : m.Moved R m') : m'.stack.depth = m.stack.depth := h.frames.length_eq

/-- A step on the values moves on, and every other step is steady. -/
theorem Touch.moved [Allowing R] (hvalues : .values ≤ r → ∀ {f : Frame} values, R f { f with values })
    (h : m.Touch r m') : m.Moved R m' := by
  cases h with
  | noted => exact ⟨rfl, rfl, rfl, rfl, rfl, rfl, .refl _, .refl _⟩
  | freed hget hallows =>
    exact ⟨rfl, rfl, rfl, rfl, rfl, rfl, .refl _, Heap.leadsTo_vacate hget hallows⟩
  | allocated _ hplan hshaped =>
    exact ⟨rfl, rfl, rfl, rfl, rfl, rfl, .refl _, Heap.leadsTo_occupy hplan hshaped⟩
  | writtenHeap _ hrange =>
    exact ⟨rfl, rfl, rfl, rfl, rfl, rfl, .refl _, Heap.leadsTo_poke hrange trivial⟩
  | writtenStack => exact ⟨rfl, rfl, rfl, rfl, rfl, rfl, .refl _, .refl _⟩
  | carved _ hplan =>
    refine ⟨rfl, rfl, rfl, rfl, rfl, rfl, ?_, .refl _⟩
    exact (FrameStack.replaced_carve hplan).mono fun _ _ => Allowing.steady
  | valued values hr hframes =>
    refine ⟨rfl, rfl, rfl, rfl, rfl, rfl, ?_, .refl _⟩
    rw [hframes]
    exact .innermost (hvalues hr values)

theorem Touched.moved (h : m.Touched r m') : m.Moved Onward m' :=
  h.keeps (Touch.moved fun _ f values => f.onward_values values)

theorem Touched.steady (hr : r ≤ .scratch) (h : m.Touched r m') : m.Moved Steady m' :=
  (h.mono hr).keeps (Touch.moved fun hvalues => absurd hvalues (by decide))

/-! ## Depths -/

/-- Depth and limit of the evaluation stack of each frame, innermost first. -/
def shape (m : Machine) : List (Nat × Nat) := m.stack.frames.map fun f => (f.depth, f.maxDepth)

/-- **The program and the shape are the same.** -/
structure SameShape (m m' : Machine) : Prop where
  image : m'.image = m.image
  types : m'.types = m.types
  shape : m'.shape = m.shape

instance : Lasting SameShape where
  refl _ := ⟨rfl, rfl, rfl⟩
  trans h h' := ⟨h'.image.trans h.image, h'.types.trans h.types, h'.shape.trans h.shape⟩

/-- A steady frame has the values it had, and so the depth. -/
theorem Moved.sameShape (h : m.Moved Steady m') : m.SameShape m' := by
  refine ⟨h.image, h.types, ?_⟩
  have hframes := h.frames
  unfold shape
  generalize m.stack.frames = fs, m'.stack.frames = fs' at hframes
  cases hframes with
  | none => rfl
  | @innermost f f' rest hf =>
    have hdepth : f'.depth = f.depth := congrArg List.length hf.values
    have hlimit : f'.maxDepth = f.maxDepth := by rw [hf.same]
    rw [List.map_cons, List.map_cons, hdepth, hlimit]

end Machine

/-! ## Operations within a reach -/

namespace Exec

open Machine (Lasting Touched)

variable {α β : Type} {r r' : Reach} {m m' : Machine} {x : Exec α}

/-- **The operation stays within a reach.** -/
abbrev Touches (r : Reach) (x : Exec α) : Prop := Keeps (Touched r) r.Raises x

/-- The operation leaves every evaluation stack as deep as it is, and raises plain errors only. -/
abbrev KeepsShape (x : Exec α) : Prop := Keeps Machine.SameShape (·.isPlain = true) x

/-- The operation raises plain errors only. -/
abbrev RaisesPlain (x : Exec α) : Prop := Keeps (fun _ _ => True) (·.isPlain = true) x

/-- The operation leaves all but the innermost frame as it was. -/
abbrev Moves (R : Frame → Frame → Prop) (x : Exec α) : Prop := Keeps (Machine.Moved R) (fun _ => True) x

instance : Lasting fun _ _ => True := ⟨fun _ => trivial, fun _ _ => trivial⟩

namespace Touches

theorem lift [Reach.Within r r'] (hx : Touches r x) : Touches r' x :=
  Keeps.mono hx (Touched.mono Reach.Within.le) (Reach.Raises.mono Reach.Within.le)

theorem query {q : Machine → Except Error α} (hq : ∀ m, RaisesData (q m)) : Touches r (query q) :=
  Keeps.query fun m e h => .of_isData (hq m e h)

/-- A question whose errors do not matter. -/
theorem look (q : Machine → Except Error α) : Touches .values (Exec.query q) :=
  Keeps.query fun _ _ _ => trivial

/-- First an operation of a lesser reach. -/
theorem andThen [Reach.Within r r'] {f : α → Exec β} (hx : Touches r x) (hf : ∀ a, Touches r' (f a)) :
    Touches r' (x >>= f) := hx.lift.bind hf

theorem bytes (hx : Touches .objects x) (m : Machine) : m.SameBytes (x.final m) := (hx m).final.bytes

theorem sameFrames [Reach.Within r .memory] (hx : Touches r x) :
    Keeps Machine.SameFrames (·.isData = true) x :=
  Keeps.mono (hx.lift : Touches .memory x) (Touched.frames (Nat.le_refl _)) id

theorem keepsShape [Reach.Within r .scratch] (hx : Touches r x) : KeepsShape x :=
  Keeps.mono (hx.lift : Touches .scratch x) (fun h => (Touched.steady (Nat.le_refl _) h).sameShape) id

theorem steady [Reach.Within r .scratch] (hx : Touches r x) : Moves Steady x :=
  Keeps.mono hx (Touched.steady Reach.Within.le) fun _ => trivial

theorem onward (hx : Touches r x) : Moves Onward x := Keeps.mono hx Touched.moved fun _ => trivial

end Touches

end Exec

end ManagedVm
