import ManagedVm.Machine.Invoke
import ManagedVm.Proofs.Outcome
import ManagedVm.Proofs.Size

/-!
# The errors of queries

Three errors tell that an evaluation stack was too full or had not what was needed on top. They are
raised by the operations of the evaluation stack and by the walk that sizes it. One error tells that
the arena of the stack has no room, and it is raised where bytes of it are reserved. One error wraps a
place around another, and it is raised where a body fails. One error tells that a branch leads out of
its body, and it is raised where the target of a branch is found. All other errors are about data, and
queries of the machine raise no others (`RaisesData`); that is all this module shows, query by query, so
that later a complaint about depth can be traced to the push or pop that it comes from, one about room
to the scratch that was asked for, one about a target to the branch, and a wrapped place to the body.
-/

namespace ManagedVm

/-- The error tells that an evaluation stack was full, was empty or had no token on top. -/
def Error.isDepth : Error → Bool
  | evalStackUnderflow | evalStackOverflow _ | missingTypeToken _ => true
  | _ => false

/-- The error neither complains about depth nor wraps a place around another error. -/
def Error.isPlain : Error → Bool
  | evalStackUnderflow | evalStackOverflow _ | missingTypeToken _ | fault .. => false
  | _ => true

theorem Error.isPlain_iff {e : Error} : e.isPlain = true ↔ e.isDepth = false ∧ e.isFault = false := by
  cases e <;> simp [isPlain, isDepth, isFault]

theorem Error.not_isPlain_of_isDepth {e : Error} (h : e.isDepth = true) : ¬ e.isPlain = true := by
  simp [isPlain_iff, h]

theorem Error.not_isPlain_of_isFault {e : Error} (h : e.isFault = true) : ¬ e.isPlain = true := by
  simp [isPlain_iff, h]

/-- The arena of the stack had no room, for the operation or for one that it waited for. -/
def Error.isOverflow : Error → Bool
  | stackOverflow .. => true
  | fault _ _ _ cause => cause.isOverflow
  | _ => false

/-- A branch leads out of its body. -/
def Error.isStray : Error → Bool
  | branchOutOfRange _ => true
  | _ => false

/-- The error is about data: it complains about none of depth, room and the target of a branch, and
wraps no place around another error. -/
def Error.isData : Error → Bool
  | evalStackUnderflow | evalStackOverflow _ | missingTypeToken _ | stackOverflow .. | branchOutOfRange _
  | fault .. => false
  | _ => true

theorem Error.isData_iff {e : Error} :
    e.isData = true ↔ e.isPlain = true ∧ e.isOverflow = false ∧ e.isStray = false := by
  cases e <;> simp [isData, isPlain, isOverflow, isStray]

@[simp] theorem Error.isData_ofScalar (e : Scalar.Error) : (Error.ofScalar e).isData = true := by
  cases e <;> rfl

/-- **The query raises errors about data only.** -/
def RaisesData {α : Type} (x : Except Error α) : Prop := ∀ e, x = .error e → e.isData = true

theorem RaisesData.isPlain {α : Type} {x : Except Error α} {e : Error} (hx : RaisesData x) (h : x = .error e) :
    e.isPlain = true := (Error.isData_iff.mp (hx e h)).1

namespace RaisesData

variable {α β : Type}

@[simp] theorem ok (a : α) : RaisesData (.ok a) := fun _ h => nomatch h

@[simp] theorem pure (a : α) : RaisesData (Pure.pure a) := ok a

@[simp] theorem error_iff {e : Error} : RaisesData (.error e : Except Error α) ↔ e.isData = true :=
  ⟨fun h => h e rfl, fun h _ heq => Except.error.inj heq ▸ h⟩

@[simp] theorem throw_iff {e : Error} : RaisesData (throw e : Except Error α) ↔ e.isData = true :=
  error_iff

@[simp] theorem bind {x : Except Error α} {f : α → Except Error β} (hx : RaisesData x)
    (hf : ∀ a, RaisesData (f a)) : RaisesData (x >>= f) := by
  cases x with
  | error e => exact error_iff.mpr (error_iff.mp hx)
  | ok a => exact hf a

@[simp] theorem map {x : Except Error α} (hx : RaisesData x) (f : α → β) : RaisesData (x.map f) := by
  cases x with
  | error e => exact error_iff.mpr (error_iff.mp hx)
  | ok a => exact ok (f a)

@[simp] theorem fmap {x : Except Error α} (hx : RaisesData x) (f : α → β) : RaisesData (f <$> x) := map hx f

@[simp] theorem discard {x : Except Error α} (hx : RaisesData x) : RaisesData (discard x) := map hx _

theorem mapError {ε : Type} {f : ε → Error} {x : Except ε α}
    (hf : ∀ e, (f e).isData = true) : RaisesData (x.mapError f) := by
  cases x with
  | error e => exact error_iff.mpr (hf e)
  | ok a => exact ok a

@[simp] theorem ite {p : Prop} [Decidable p] {x y : Except Error α} (hx : RaisesData x) (hy : RaisesData y) :
    RaisesData (if p then x else y) := by
  split
  · exact hx
  · exact hy

/-- A check before the rest. -/
theorem guard {p : Prop} [Decidable p] {e : Error} {x : Except Error α} (he : e.isData = true)
    (hx : RaisesData x) : RaisesData (if p then (throw e : Except Error PUnit) >>= fun _ => x else x) :=
  ite (bind (throw_iff.mpr he) fun _ => hx) hx

@[simp] theorem mapM {f : α → Except Error β} (hf : ∀ a, RaisesData (f a)) (xs : List α) :
    RaisesData (xs.mapM f) := by
  induction xs with
  | nil => exact ok []
  | cons x xs ih =>
    rw [List.mapM_cons]
    exact (hf x).bind fun b => ih.bind fun bs => ok (b :: bs)

theorem foldlM {f : β → α → Except Error β} (hf : ∀ b a, RaisesData (f b a)) (b : β) (xs : List α) :
    RaisesData (xs.foldlM f b) := by
  induction xs generalizing b with
  | nil => exact ok b
  | cons x xs ih =>
    rw [List.foldlM_cons]
    exact (hf b x).bind ih

/-- A sum that must be a word. -/
@[simp] theorem fit (n : Nat) : RaisesData (Size.fit .panic n) := by
  unfold Size.fit
  split
  · exact error_iff.mpr rfl
  · exact ok _

@[simp] theorem anyM {f : α → Except Error Bool} (hf : ∀ a, RaisesData (f a)) (xs : List α) :
    RaisesData (xs.anyM f) := by
  induction xs with
  | nil => exact ok false
  | cons x xs ih =>
    rw [List.anyM_cons]
    refine (hf x).bind fun b => ?_
    cases b with
    | true => exact ok true
    | false => exact ih

end RaisesData

/-! ## Frames -/

namespace FrameStack

variable (s : FrameStack)

@[simp] theorem raisesData_current : RaisesData s.current := by
  unfold current
  split <;> simp [Error.isData]

theorem isPlain_of_reserve {stop : Nat} {e : Error} (h : s.reserve stop = .error e) :
    e.isPlain = true := by
  unfold reserve at h
  split at h
  · cases h
    split <;> rfl
  · split at h
    · cases h
    · cases h

theorem isPlain_of_planCarving {count : Nat} {e : Error} (h : s.planCarving count = .error e) :
    e.isPlain = true := by
  rcases except_bind_error.mp h with hcurrent | ⟨f, -, h⟩
  · exact s.raisesData_current.isPlain hcurrent
  · dsimp only at h
    split at h
    · rcases except_bind_error.mp h with hreserve | ⟨size, -, h⟩
      · exact s.isPlain_of_reserve hreserve
      · cases h
    · cases h

@[simp] theorem raisesData_popFrame : RaisesData s.popFrame := by
  unfold popFrame
  split <;> simp [Error.isData]

@[simp] theorem isData_rangeError (a : Address) (n : Nat) : (s.rangeError a n).isData = true := by
  unfold rangeError
  dsimp only
  split <;> rfl

@[simp] theorem raisesData_bytes (a : Address) (n : Nat) : RaisesData (s.bytes a n) := by
  simp [bytes]

end FrameStack

@[simp] theorem Frame.raisesData_getLocal (f : Frame) (index : Int32) : RaisesData (f.getLocal index) := by
  unfold getLocal
  split <;> simp [Error.isData]

@[simp] theorem Frame.raisesData_getArgument (f : Frame) (index : Int32) :
    RaisesData (f.getArgument index) := by
  unfold getArgument
  split <;> simp [Error.isData]

namespace Machine

variable (m : Machine)

/-! ## Members -/

@[simp] theorem raisesData_methodAt (index : Nat) : RaisesData (m.methodAt index) := by
  unfold methodAt
  split <;> simp [Error.isData]

@[simp] theorem raisesData_declaredType (index : Nat) : RaisesData (m.declaredType index) := by
  exact .mapError fun _ => rfl

@[simp] theorem raisesData_typeName (index : Nat) : RaisesData (m.typeName index) := by
  simp [typeName]

@[simp] theorem raisesData_returnsValue (method : Method) : RaisesData (m.returnsValue method) := by
  simp [returnsValue]

@[simp] theorem raisesData_constantAt (index : Int32) : RaisesData (m.constantAt index) := by
  unfold constantAt
  split <;> simp [Error.isData]

@[simp] theorem raisesData_constantType (index : Int32) : RaisesData (m.constantType index) := by
  refine (m.raisesData_constantAt index).bind fun c => ?_
  split <;> exact .pure _

@[simp] theorem raisesData_memberAt (index : Int32) : RaisesData (m.memberAt index) := by
  unfold memberAt
  split <;> simp [Error.isData]

@[simp] theorem raisesData_fieldAt (member : Int32) (wantStatic : Bool) :
    RaisesData (m.fieldAt member wantStatic) := by
  refine (m.raisesData_memberAt member).bind fun r => ?_
  split
  · simp [Error.isData]
  · refine (m.raisesData_declaredType r.owner).bind fun owner => ?_
    split <;> simp [Error.isData]

@[simp] theorem raisesData_methodOf (member : Int32) : RaisesData (m.methodOf member) := by
  refine (m.raisesData_memberAt member).bind fun r => ?_
  split <;> simp [Error.isData]

@[simp] theorem raisesData_constructorOf (typeRef : Int32) : RaisesData (m.constructorOf typeRef) := by
  unfold constructorOf
  split <;> simp [Error.isData]

@[simp] theorem raisesData_typeOperand (operand : Int32) : RaisesData (m.typeOperand operand) := by
  simp [typeOperand, Error.isData]

/-! ## Memory -/

@[simp] theorem raisesData_read (a : Address) (n : Nat) : RaisesData (m.read a n) := by
  unfold read
  split
  · simp [Error.isData]
  · split
    · exact .mapError fun _ => rfl
    · simp

@[simp] theorem raisesData_valueBytes (v : Value) : RaisesData (m.valueBytes v) := by
  simp [valueBytes]

@[simp] theorem raisesData_storedAddress (a : Address) : RaisesData (m.storedAddress a) := by
  refine (m.raisesData_read a _).bind fun bytes => ?_
  split <;> simp [Error.isData]

@[simp] theorem raisesData_underlying (d : Descriptor) : RaisesData (underlying d) := by
  unfold underlying
  split <;> simp [Error.isData]

@[simp] theorem raisesData_materialize (type : TypeId) (a : Address) : RaisesData (m.materialize type a) := by
  unfold materialize
  dsimp only
  split <;> simp [Error.isData]

@[simp] theorem raisesData_slotBytes (type : TypeId) (v : Value) : RaisesData (m.slotBytes type v) := by
  unfold slotBytes
  refine .guard rfl ((m.raisesData_valueBytes v).bind fun bytes => ?_)
  exact .guard rfl (by simp)

theorem raisesData_slot {choose : Frame → Except Error Binding} (h : ∀ f, RaisesData (choose f)) :
    RaisesData (m.slot choose) :=
  m.stack.raisesData_current.bind h

@[simp] theorem raisesData_readScalar (v : Value) : RaisesData (m.readScalar v) := by
  unfold readScalar
  split
  · dsimp only
    split
    · refine (m.raisesData_read _ _).bind fun bytes => ?_
      split <;> simp [Error.isData]
    · simp [Error.unexpected, Error.isData]
  · simp [Error.unexpected, Error.isData]

@[simp] theorem raisesData_readIndex (v : Value) : RaisesData (m.readIndex v) := by
  simp [readIndex]

@[simp] theorem raisesData_readLength (a : Address) : RaisesData (m.readLength a) := by
  simp [readLength]

@[simp] theorem raisesData_liveObject (a : Address) : RaisesData (m.liveObject a) := by
  unfold liveObject
  split
  · simp [Error.isData]
  · exact .mapError fun _ => rfl

@[simp] theorem raisesData_readString (v : Value) : RaisesData (m.readString v) := by
  unfold readString
  split
  · refine (m.raisesData_liveObject _).discard.bind fun _ => (m.raisesData_readLength _).bind fun length => ?_
    exact (m.raisesData_read _ length).map _
  · exact RaisesData.error_iff.mpr rfl

@[simp] theorem raisesData_arrayLength (v : Value) : RaisesData (m.arrayLength v) := by
  unfold arrayLength
  split
  · simp
  · exact RaisesData.error_iff.mpr rfl

@[simp] theorem raisesData_textOf (v : Value) : RaisesData (m.textOf v) := by
  unfold textOf
  split
  · simp
  · simp
  · exact RaisesData.error_iff.mpr rfl

@[simp] theorem raisesData_isTruthy (v : Value) : RaisesData (m.isTruthy v) := by
  unfold isTruthy
  split
  · simp
  · exact RaisesData.error_iff.mpr rfl
  · simp

@[simp] theorem raisesData_elementAddress (array : Value) (index : Int) :
    RaisesData (m.elementAddress array index) := by
  unfold elementAddress
  split
  · refine (m.raisesData_liveObject _).bind fun o => (raisesData_underlying _).bind fun element => ?_
    refine .guard rfl (.guard rfl ?_)
    split <;> simp [Error.isData]
  · exact RaisesData.error_iff.mpr rfl

@[simp] theorem raisesData_fieldAddress (receiver : Value) (field : FieldLayout) :
    RaisesData (m.fieldAddress receiver field) := by
  unfold fieldAddress
  split
  · simp
  · simp
  · simp [Error.isData]
  · exact RaisesData.error_iff.mpr rfl

@[simp] theorem raisesData_staticFieldAddress (owner : TypeId) (field : FieldLayout) :
    RaisesData (m.staticFieldAddress owner field) := by
  unfold staticFieldAddress
  split <;> simp [Error.isData]

/-! ## References -/

@[simp] theorem raisesData_referencesAt (fuel : Nat) (a : Address) (type : TypeId) :
    RaisesData (m.referencesAt fuel a type) := by
  induction fuel generalizing a type with
  | zero => exact .ok []
  | succ fuel ih =>
    unfold referencesAt
    dsimp only
    split <;> simp [ih]

@[simp] theorem raisesData_referencesIn (a : Address) (type : TypeId) : RaisesData (m.referencesIn a type) :=
  m.raisesData_referencesAt _ a type

@[simp] theorem raisesData_ownedTargets (v : Value) : RaisesData (m.ownedTargets v) := by
  unfold ownedTargets
  split
  · simp
  · simp
  · split <;> simp

@[simp] theorem raisesData_referencesOfFields (a : Address) (fields : List FieldLayout) :
    RaisesData (m.referencesOfFields a fields) := by
  simp [referencesOfFields]

@[simp] theorem raisesData_referencesOfElements (element : TypeId) (size count : Nat) (a : Address)
    (found : List (List Address)) : RaisesData (m.referencesOfElements element size count a found) := by
  induction count generalizing a found with
  | zero => exact .ok _
  | succ count ih => exact (m.raisesData_referencesIn a element).bind fun here => ih _ _

@[simp] theorem raisesData_referencesOf (o : Heap.Object) : RaisesData (m.referencesOf o) := by
  unfold referencesOf
  split <;> simp

@[simp] theorem raisesData_valuesReferTo (target : Address) (values : List Value) :
    RaisesData (m.valuesReferTo target values) := by
  simp [valuesReferTo]

@[simp] theorem raisesData_slotsReferTo (target : Address) (slots : List Binding) :
    RaisesData (m.slotsReferTo target slots) := by
  simp [slotsReferTo]

@[simp] theorem raisesData_frameRefersTo (target : Address) (f : Frame) :
    RaisesData (m.frameRefersTo target f) :=
  (m.raisesData_valuesReferTo _ _).bind fun _ => .ite (.ok _) (m.raisesData_slotsReferTo _ _)

@[simp] theorem raisesData_isReferenced (target : Address) : RaisesData (m.isReferenced target) := by
  refine (RaisesData.anyM (m.raisesData_frameRefersTo target) _).bind fun _ => .ite (.ok _) ?_
  refine (m.raisesData_valuesReferTo _ _).bind fun _ => .ite (.ok _) ?_
  exact .anyM (fun o => .ite (.ok _) ((m.raisesData_referencesOf o).map _)) _

@[simp] theorem raisesData_frameReferences : RaisesData m.frameReferences := by
  refine m.stack.raisesData_current.bind fun f => ?_
  refine (RaisesData.mapM (fun b => m.raisesData_referencesIn _ _) _).bind fun slots => ?_
  exact (RaisesData.mapM m.raisesData_ownedTargets _).bind fun values => .ok _

@[simp] theorem raisesData_firstDead (targets : List Address) : RaisesData (m.firstDead targets) := by
  induction targets with
  | nil => exact .ok none
  | cons target rest ih =>
    unfold firstDead
    split
    · exact ih
    · refine .ite ih ((m.raisesData_isReferenced target).bind fun _ => .ite ih (.ok _))

/-! ## Instructions and invocations -/

@[simp] theorem raisesData_compareValues (op : Opcode) (c : Scalar.Comparison) (left right : Value) :
    RaisesData (m.compareValues op c left right) := by
  unfold compareValues
  split
  · refine (m.raisesData_readScalar _).bind fun a => (m.raisesData_readScalar _).bind fun b => ?_
    exact .mapError Error.isData_ofScalar
  · refine .ite ?_ (.ite (.ok _) (RaisesData.error_iff.mpr rfl))
    exact (m.raisesData_readString _).bind fun a => (m.raisesData_readString _).bind fun b => .ok _
  · refine .ite ?_ (RaisesData.error_iff.mpr rfl)
    exact (m.raisesData_valueBytes _).bind fun a => (m.raisesData_valueBytes _).bind fun b => .ok _
  · exact .ite (.ok _) (RaisesData.error_iff.mpr rfl)

@[simp] theorem raisesData_checkRequest (method : Method) (name : String) (r : Request) :
    RaisesData (m.checkRequest method name r) := by
  unfold checkRequest
  refine .guard rfl (.guard rfl (.guard rfl ?_))
  split <;> simp [Error.isData]

@[simp] theorem raisesData_slotsOf (vars : List Variable) : RaisesData (m.slotsOf vars) := by
  simp [slotsOf]

@[simp] theorem raisesData_nativeReserve (index : Nat) : RaisesData (m.nativeReserve index) := by
  refine (m.raisesData_methodAt index).bind fun method => .foldlM (fun total i => ?_) 0 _
  refine (m.raisesData_methodOf _).bind fun callee => (m.raisesData_methodAt callee).bind fun callee => ?_
  split <;> simp

end Machine

theorem isPlain_of_branchTarget {operand : Int32} {length : Nat} {e : Error}
    (h : branchTarget operand length = .error e) : e.isPlain = true := by
  unfold branchTarget at h
  split at h
  · cases h
  · cases h
    rfl

@[simp] theorem Exec.raisesData_pointerTarget (v : Value) : RaisesData (pointerTarget v) := by
  unfold pointerTarget
  split
  · simp
  · exact RaisesData.error_iff.mpr rfl

end ManagedVm
