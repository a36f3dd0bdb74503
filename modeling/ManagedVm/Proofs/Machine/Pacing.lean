import ManagedVm.Proofs.Machine.Budget
import ManagedVm.Proofs.Machine.Elements

/-!
# Instructions keep pace with the walk

The walk over a body and the run of the body take the same instructions. At each of them the walk pops
entries and pushes another, for which it adds the bytes; and the instruction pops values and pushes
another, for which it takes scratch. If the values fit the entries before (`FrameBudget.Matches`), then it takes
no more than the walk adds, and the values fit the entries afterwards, too (`Exec.Paced`).

This is so for every instruction but those that branch, which the walk does not follow, those that invoke
a method, whose result may be larger than declared, and the one that loads the instance, which need not
be of the declared type (`Exec.paced_perform`).
-/

namespace ManagedVm

/-! ## The walk taken apart -/

/-- **The values fit the entries** of the walk, one by one. -/
def FrameBudget.Matches (g : FrameBudget) : List Sizing.Entry → List Value → Prop := List.Forall₂ g.Fits

namespace FrameBudget.Matches

variable {g : FrameBudget} {s s' : Sizing.State} {values : List Value} {e : Sizing.Entry}

/-- The walk pops an entry, for which there is a value. -/
theorem pop (hvalues : g.Matches s.stack values) (h : s.pop = .ok (e, s')) :
    s'.bytes = s.bytes ∧ ∃ v rest, values = v :: rest ∧ g.Fits e v ∧ g.Matches s'.stack rest := by
  unfold Sizing.State.pop at h
  split at h
  · cases h
  · rename_i hstack
    cases h
    rw [hstack] at hvalues
    cases hvalues with
    | cons hv hrest => exact ⟨rfl, _, _, rfl, hv, hrest⟩

theorem drop {count : Nat} (hvalues : g.Matches s.stack values) (h : s.drop count = .ok s') :
    s'.bytes = s.bytes ∧ g.Matches s'.stack (values.drop count) := by
  unfold Sizing.State.drop at h
  split at h
  · cases h
  · cases h
    exact ⟨rfl, List.forall₂_drop count hvalues⟩

theorem dropToken {op : Opcode} (hvalues : g.Matches s.stack values) (h : s.dropToken op = .ok s') :
    s'.bytes = s.bytes ∧ g.Matches s'.stack (values.drop 1) := by
  unfold Sizing.State.dropToken at h
  split at h
  · rename_i hstack
    cases h
    rw [hstack] at hvalues
    exact ⟨rfl, List.forall₂_drop 1 hvalues⟩
  · cases h

end FrameBudget.Matches

namespace Exec

/-- **The operation keeps pace with the walk**, which goes from one state to another: it takes no more
scratch than the walk adds, and the values that it leaves fit the walk's entries. -/
def Paced {α : Type} (g : FrameBudget) (s s' : Sizing.State) (values : List Value) (x : Exec α) : Prop :=
  Spends g (s'.bytes - s.bytes) values x fun _ => g.Matches s'.stack

namespace Paced

variable {α : Type} {g : FrameBudget} {values : List Value} {s s' : Sizing.State} {x : Exec α}
  {lookup : Except Error TypeId} {entry : TypeId → Sizing.Entry}

/-- The walk adds the bytes of the entry that it pushes. -/
theorem of_push {s₁ : Sizing.State} {e : Sizing.Entry} (hbytes : s₁.bytes = s.bytes)
    (hpush : s₁.push g.program.types e = .ok s')
    (hx : Spends g (g.sizeOf e) values x fun _ => g.Matches (e :: s₁.stack)) :
    Paced g s s' values x := by
  obtain ⟨-, rfl⟩ := Sizing.State.push_eq_ok.mp hpush
  have hadded : (s₁.pushed g.program.types e).bytes - s.bytes = g.sizeOf e := by
    rw [← hbytes]
    exact Nat.add_sub_cancel_left ..
  unfold Paced
  rw [hadded]
  exact hx

/-- The walk pushes an entry of a type that it looks up. -/
theorem push (h : (do s.push g.program.types (entry (← lookup))) = .ok s')
    (hx : ∀ type, lookup = .ok type →
      Spends g (g.sizeOf (entry type)) values x fun _ => g.Matches (entry type :: s.stack)) :
    Paced g s s' values x := by
  obtain ⟨type, htype, hpush⟩ := except_bind_ok.mp h
  exact .of_push rfl hpush (hx type htype)

/-- The walk drops entries, and pushes a known one. -/
theorem drop {count : Nat} {e : Sizing.Entry} (hvalues : g.Matches s.stack values)
    (h : (do
      let s ← s.drop count
      s.push g.program.types e) = .ok s')
    (hx : ∀ stack, g.Matches stack (values.drop count) →
      Spends g (g.sizeOf e) values x fun _ => g.Matches (e :: stack)) :
    Paced g s s' values x := by
  obtain ⟨s₁, hdrop, hpush⟩ := except_bind_ok.mp h
  obtain ⟨hbytes, hvalues⟩ := hvalues.drop hdrop
  exact .of_push hbytes hpush (hx s₁.stack hvalues)

/-- The walk drops entries, and pushes one of a type that it looks up. -/
theorem drop_push {count : Nat} (hvalues : g.Matches s.stack values)
    (h : (do
      let s ← s.drop count
      s.push g.program.types (entry (← lookup))) = .ok s')
    (hx : ∀ type stack, lookup = .ok type → g.Matches stack (values.drop count) →
      Spends g (g.sizeOf (entry type)) values x fun _ => g.Matches (entry type :: stack)) :
    Paced g s s' values x := by
  obtain ⟨s₁, hdrop, h⟩ := except_bind_ok.mp h
  obtain ⟨type, htype, hpush⟩ := except_bind_ok.mp h
  obtain ⟨hbytes, hvalues⟩ := hvalues.drop hdrop
  exact .of_push hbytes hpush (hx type s₁.stack htype hvalues)

/-- The walk drops a token, and pushes a pointer to a type that it looks up. -/
theorem token {op : Opcode} (hvalues : g.Matches s.stack values)
    (h : (do
      let s ← s.dropToken op
      s.push g.program.types (.pointer (← lookup))) = .ok s')
    (hx : ∀ type stack, g.Matches stack (values.drop 1) →
      Spends g (g.sizeOf (.pointer type)) values x fun _ => g.Matches (.pointer type :: stack)) :
    Paced g s s' values x := by
  obtain ⟨s₁, hdrop, h⟩ := except_bind_ok.mp h
  obtain ⟨type, -, hpush⟩ := except_bind_ok.mp h
  obtain ⟨hbytes, hvalues⟩ := hvalues.dropToken hdrop
  exact .of_push hbytes hpush (hx type s₁.stack hvalues)

end Paced

/-! ## Instructions -/

variable {α β : Type} {g : FrameBudget} {k : Nat} {values : List Value} {stack : List Sizing.Entry}
  {e : Sizing.Entry} {type : TypeId}

/-- What most instructions end with: a new value is pushed, and operands are released. -/
theorem Spends.give {x : Exec Value} {f : Value → Exec PUnit} (hx : Spends g k values x (g.Gives e values))
    (hvalues : g.Matches stack values) (hf : ∀ v, Touches .memory (f v)) :
    Spends g k values (x >>= fun v => Exec.push v >>= fun _ => f v) fun _ => g.Matches (e :: stack) := by
  refine .bind hx fun v values' ⟨hsame, hfits⟩ => ?_
  subst hsame
  exact .push (.rest (hf v) fun _ => .cons hfits hvalues)

theorem Spends.give_last {x : Exec Value} (hx : Spends g k values x (g.Gives e values))
    (hvalues : g.Matches stack values) :
    Spends g k values (x >>= Exec.push) fun _ => g.Matches (e :: stack) := by
  refine .bind hx fun v values' ⟨hsame, hfits⟩ => ?_
  subst hsame
  exact .push_last (.cons hfits hvalues)

/-- A pointer is pushed, for which no scratch is taken. -/
theorem matches_pointer {pointee : TypeId} {a : Address} (hvalues : g.Matches stack values) :
    g.Matches (e :: stack) (.pointer pointee a :: values) := .cons trivial hvalues

/-- The element of an array is of the type that the walk finds. -/
theorem Spends.element {array index : Value} {f : Address × TypeId → Exec β} {Q : β → List Value → Prop}
    (hfits : g.Fits e array) (h : Sizing.elementOf g.program e = .ok type)
    (hf : ∀ a, Spends g k values (f (a, type)) Q) :
    Spends g k values (query (fun m => do m.elementAddress array (← m.readIndex index)) >>= f) Q := by
  refine .ask (fun m => raisesData_elementAt m array index) fun m ⟨a, element⟩ _ htypes hfound => ?_
  obtain ⟨i, -, hfound⟩ := except_bind_ok.mp hfound
  cases array with
  | array t target =>
    obtain ⟨-, -, -, helement, -⟩ := Machine.elementAddress_eq_ok.mp hfound
    unfold Machine.descriptor at helement
    rw [htypes, show t = e.type from hfits] at helement
    unfold Sizing.elementOf at h
    dsimp only at h
    rw [helement] at h
    split at h
    · cases h
    · cases h
      exact hf a
  | primitive => cases hfound
  | struct => cases hfound
  | string => cases hfound
  | reference => cases hfound
  | pointer => cases hfound

theorem spends_binary {op : Opcode} (hvalues : g.Matches stack (values.drop 2))
    (hleft : op ≠ .cnct → ∀ right left rest, values = right :: left :: rest → g.Fits e left) :
    Spends g (g.sizeOf e) values (binary op) fun _ => g.Matches (e :: stack) := by
  refine .pop fun right values₁ hvalues₁ => .pop fun left values₂ hvalues₂ => ?_
  subst hvalues₁ hvalues₂
  have hend : ∀ {x : Exec Value}, Spends g (g.sizeOf e) values₂ x (g.Gives e values₂) →
      Spends g (g.sizeOf e) values₂ (x >>= fun result => do
        push result
        releaseValue left
        releaseValue right) fun _ => g.Matches (e :: stack) := by
    intro x hx
    refine .give hx hvalues fun v => ?_
    exact (touches_releaseValue left).bind fun _ => touches_releaseValue right
  have hconcatenated : Spends g (g.sizeOf e) values₂ (do
      let a ← query (·.textOf left)
      let b ← query (·.textOf right)
      let result ← makeString (a ++ b)
      push result
      releaseValue left
      releaseValue right) fun _ => g.Matches (e :: stack) := by
    refine .aside (.query fun m => m.raisesData_textOf left) fun a => ?_
    exact .aside (.query fun m => m.raisesData_textOf right) fun b => hend (spends_makeString (a ++ b))
  dsimp only
  split
  · rw [if_pos rfl]
    exact hconcatenated
  · rw [if_pos rfl]
    exact hconcatenated
  · rename_i hcnct _
    rw [if_neg Bool.false_ne_true]
    split
    · refine .aside (.query fun m => m.raisesData_readScalar _) fun a => ?_
      refine .aside (.query fun m => m.raisesData_readScalar _) fun b => ?_
      refine .aside (.query fun m => .mapError Error.isData_ofScalar) fun s => ?_
      have hfits := hleft hcnct _ _ _ rfl
      exact hend (spends_makePrimitive hfits s)
    · exact hend (.throw rfl)

theorem spends_compare (op : Opcode) (c : Scalar.Comparison) (hvalues : g.Matches stack (values.drop 2)) :
    Spends g (g.sizeOf (.value (g.program.types.builtins.primitive .bool))) values (compare op c) fun _ =>
      g.Matches (.value (g.program.types.builtins.primitive .bool) :: stack) := by
  refine .pop fun right values₁ hvalues₁ => .pop fun left values₂ hvalues₂ => ?_
  subst hvalues₁ hvalues₂
  refine .aside (.query fun m => m.raisesData_compareValues op c left right) fun holds => ?_
  refine .give (spends_makeScalar (Nat.le_of_eq (g.size_eq (g.builtin .bool)).symm)) hvalues fun v => ?_
  exact (touches_releaseValue left).bind fun _ => touches_releaseValue right

theorem spends_newArray {operand : Int32} (htype : Sizing.typeOf g.program operand = .ok type)
    (hvalues : g.Matches stack (values.drop 1)) :
    Spends g k values (newArray operand) fun _ => g.Matches (.value type :: stack) := by
  refine .pop fun length rest h => .typeOperand htype ?_
  subst h
  refine .aside (.query fun m => m.raisesData_readIndex length) fun count => .guard rfl ?_
  refine .aside (.read _) fun limit => .guard rfl ?_
  exact .give_last (spends_makeArray type _) hvalues

theorem spends_loadSlot {choose : Frame → Except Error Binding} (hdata : ∀ f, RaisesData (choose f))
    (hchoose : ∀ values cursor, choose { g.frame with values, cursor } = choose g.frame)
    (htype : ∀ b, choose g.frame = .ok b → b.type = type) (hvalues : g.Matches stack values) :
    Spends g (g.sizeOf (.value type)) values (loadSlot choose) fun _ =>
      g.Matches (.value type :: stack) := by
  refine .slot hdata hchoose fun b hb => ?_
  obtain rfl := htype b hb
  exact .give_last (spends_load b.type b.address) hvalues

theorem spends_storeSlot {choose : Frame → Except Error Binding} (hdata : ∀ f, RaisesData (choose f))
    (hvalues : g.Matches stack (values.drop 1)) :
    Spends g k values (storeSlot choose) fun _ => g.Matches stack := by
  refine .pop fun v rest h => .rest ?_ fun _ => ?_
  · exact (touches_assignSlot hdata v).bind fun _ => touches_releaseValue v
  · subst h
    exact hvalues

theorem spends_loadSlotAddress {op : Opcode} {choose : Frame → Except Error Binding}
    (hdata : ∀ f, RaisesData (choose f)) (hvalues : g.Matches stack (values.drop 1)) :
    Spends g k values (loadSlotAddress op choose) fun _ => g.Matches (e :: stack) := by
  refine .token fun pointee v rest h => ?_
  subst h
  refine .aside (.query fun m => m.raisesData_slot hdata) fun b => ?_
  exact .push_last (matches_pointer hvalues)

variable {s s' : Sizing.State} {operand : Int32}

theorem paced_negate (hstep : Sizing.step g.program g.method s ⟨.neg, operand⟩ = .ok s')
    (hvalues : g.Matches s.stack values) : Paced g s s' values (perform ⟨.neg, operand⟩) := by
  obtain ⟨⟨e, s₁⟩, hpop, hpush⟩ := except_bind_ok.mp hstep
  obtain ⟨hbytes, v, rest, rfl, hfits, hrest⟩ := hvalues.pop hpop
  refine .of_push hbytes hpush ?_
  refine .pop fun _ _ h => ?_
  cases h
  split
  · refine .aside (.query fun m => m.raisesData_readScalar _) fun s => ?_
    refine .aside (.query fun m => .mapError Error.isData_ofScalar) fun negated => ?_
    exact .give (spends_makePrimitive hfits negated) hrest fun _ => touches_releaseValue _
  · exact .throw rfl

/-! ## Fields -/

theorem paced_loadField (hstep : Sizing.step g.program g.method s ⟨.ldfld, operand⟩ = .ok s')
    (hvalues : g.Matches s.stack values) : Paced g s s' values (perform ⟨.ldfld, operand⟩) := by
  refine .drop_push hvalues hstep fun type stack htype hvalues => ?_
  refine .pop fun receiver rest h => .field htype fun owner field hfield => ?_
  subst h hfield
  refine .aside (.query fun m => m.raisesData_fieldAddress receiver field) fun a => ?_
  exact .give (spends_load field.type a) hvalues fun _ => touches_releaseValue receiver

theorem paced_storeField (hstep : Sizing.step g.program g.method s ⟨.stfld, operand⟩ = .ok s')
    (hvalues : g.Matches s.stack values) : Paced g s s' values (perform ⟨.stfld, operand⟩) := by
  obtain ⟨-, hvalues⟩ := hvalues.drop hstep
  refine .pop fun receiver values₁ h => .pop fun v values₂ h' => ?_
  subst h h'
  refine .aside (.query fun m => m.raisesData_fieldAt operand false) fun ⟨_, field⟩ => ?_
  refine .aside (.query fun m => m.raisesData_fieldAddress receiver field) fun a => ?_
  refine .rest ((touches_assign a field.type v).bind fun _ => ?_) fun _ => hvalues
  exact (touches_releaseValue v).bind fun _ => touches_releaseValue receiver

theorem paced_loadStaticField (hstep : Sizing.step g.program g.method s ⟨.ldsfld, operand⟩ = .ok s')
    (hvalues : g.Matches s.stack values) : Paced g s s' values (perform ⟨.ldsfld, operand⟩) := by
  refine .push hstep fun type htype => ?_
  refine .field htype fun owner field hfield => ?_
  subst hfield
  refine .aside (.query fun m => m.raisesData_staticFieldAddress owner field) fun a => ?_
  exact .give_last (spends_load field.type a) hvalues

theorem paced_storeStaticField (hstep : Sizing.step g.program g.method s ⟨.stsfld, operand⟩ = .ok s')
    (hvalues : g.Matches s.stack values) : Paced g s s' values (perform ⟨.stsfld, operand⟩) := by
  obtain ⟨-, hvalues⟩ := hvalues.drop hstep
  refine .pop fun v rest h => ?_
  subst h
  refine .aside (.query fun m => m.raisesData_fieldAt operand true) fun ⟨owner, field⟩ => ?_
  refine .aside (.query fun m => m.raisesData_staticFieldAddress owner field) fun a => ?_
  refine .rest ((touches_assign a field.type v).bind fun _ => ?_) fun _ => hvalues
  exact touches_releaseValue v

theorem paced_loadFieldAddress (hstep : Sizing.step g.program g.method s ⟨.ldflda, operand⟩ = .ok s')
    (hvalues : g.Matches s.stack values) : Paced g s s' values (perform ⟨.ldflda, operand⟩) := by
  obtain ⟨s₁, htoken, hstep⟩ := except_bind_ok.mp hstep
  obtain ⟨s₂, hdrop, hstep⟩ := except_bind_ok.mp hstep
  obtain ⟨type, -, hpush⟩ := except_bind_ok.mp hstep
  obtain ⟨hbytes, hvalues⟩ := hvalues.dropToken htoken
  obtain ⟨hbytes', hvalues⟩ := hvalues.drop hdrop
  refine .of_push (hbytes'.trans hbytes) hpush ?_
  refine .token fun pointee token values₁ h => .pop fun receiver values₂ h' => ?_
  subst h h'
  refine .aside (.query fun m => m.raisesData_fieldAt operand false) fun ⟨_, field⟩ => ?_
  refine .aside (.query fun m => m.raisesData_fieldAddress receiver field) fun a => ?_
  exact .push (.rest (touches_releaseValue receiver) fun _ => matches_pointer hvalues)

theorem paced_loadStaticFieldAddress (hstep : Sizing.step g.program g.method s ⟨.ldsflda, operand⟩ = .ok s')
    (hvalues : g.Matches s.stack values) : Paced g s s' values (perform ⟨.ldsflda, operand⟩) := by
  refine .token hvalues hstep fun type stack hvalues => ?_
  refine .token fun pointee token rest h => ?_
  subst h
  refine .aside (.query fun m => m.raisesData_fieldAt operand true) fun ⟨owner, field⟩ => ?_
  refine .aside (.query fun m => m.raisesData_staticFieldAddress owner field) fun a => ?_
  exact .push_last (matches_pointer hvalues)

/-! ## Elements -/

theorem paced_loadLength (hstep : Sizing.step g.program g.method s ⟨.ldlen, operand⟩ = .ok s')
    (hvalues : g.Matches s.stack values) : Paced g s s' values (perform ⟨.ldlen, operand⟩) := by
  refine .drop hvalues hstep fun stack hvalues => ?_
  refine .pop fun array rest h => ?_
  subst h
  refine .aside (.query fun m => m.raisesData_arrayLength array) fun length => ?_
  have hsize := Nat.le_of_eq (g.size_eq (g.builtin (.word .int))).symm
  exact .give (spends_makeScalar hsize) hvalues fun _ => touches_releaseValue array

theorem paced_loadElement (hstep : Sizing.step g.program g.method s ⟨.ldelem, operand⟩ = .ok s')
    (hvalues : g.Matches s.stack values) : Paced g s s' values (perform ⟨.ldelem, operand⟩) := by
  obtain ⟨⟨e, s₁⟩, hpop, hstep⟩ := except_bind_ok.mp hstep
  obtain ⟨s₂, hdrop, hstep⟩ := except_bind_ok.mp hstep
  obtain ⟨type, htype, hpush⟩ := except_bind_ok.mp hstep
  obtain ⟨hbytes, array, rest, rfl, hfits, hvalues⟩ := hvalues.pop hpop
  obtain ⟨hbytes', hvalues⟩ := hvalues.drop hdrop
  refine .of_push (hbytes'.trans hbytes) hpush ?_
  refine .pop fun _ _ h => .pop fun index rest h' => ?_
  cases h
  subst h'
  refine .element hfits htype fun a => ?_
  exact .give (spends_load type a) hvalues fun _ => touches_releaseValue array

theorem paced_storeElement (hstep : Sizing.step g.program g.method s ⟨.stelem, operand⟩ = .ok s')
    (hvalues : g.Matches s.stack values) : Paced g s s' values (perform ⟨.stelem, operand⟩) := by
  obtain ⟨-, hvalues⟩ := hvalues.drop hstep
  refine .pop fun array values₁ h => .pop fun index values₂ h' => .pop fun v values₃ h'' => ?_
  subst h h' h''
  refine .aside (.query fun m => raisesData_elementAt m array index) fun ⟨a, element⟩ => ?_
  refine .rest ((touches_assign a element v).bind fun _ => ?_) fun _ => hvalues
  exact (touches_releaseValue v).bind fun _ => touches_releaseValue array

theorem paced_loadElementAddress (hstep : Sizing.step g.program g.method s ⟨.ldelema, operand⟩ = .ok s')
    (hvalues : g.Matches s.stack values) : Paced g s s' values (perform ⟨.ldelema, operand⟩) := by
  obtain ⟨⟨e, s₁⟩, hpop, hstep⟩ := except_bind_ok.mp hstep
  obtain ⟨s₂, hdrop, hstep⟩ := except_bind_ok.mp hstep
  obtain ⟨s₃, htoken, hstep⟩ := except_bind_ok.mp hstep
  obtain ⟨type, -, hstep⟩ := except_bind_ok.mp hstep
  obtain ⟨-, rfl⟩ := Sizing.State.push_eq_ok.mp hstep
  obtain ⟨-, array, rest, rfl, -, hvalues⟩ := hvalues.pop hpop
  obtain ⟨-, hvalues⟩ := hvalues.drop hdrop
  obtain ⟨-, hvalues⟩ := hvalues.dropToken htoken
  refine .pop fun _ _ h => .pop fun index values₂ h' => .token fun pointee token values₃ h'' => ?_
  cases h
  subst h' h''
  refine .aside (.query fun m => raisesData_elementAt m array index) fun ⟨a, _⟩ => ?_
  exact .push (.rest (touches_releaseValue array) fun _ => matches_pointer hvalues)

/-! ## Pointers -/

theorem paced_loadIndirect (hstep : Sizing.step g.program g.method s ⟨.ldind, operand⟩ = .ok s')
    (hvalues : g.Matches s.stack values) : Paced g s s' values (perform ⟨.ldind, operand⟩) := by
  refine .drop_push hvalues hstep fun type stack htype hvalues => ?_
  refine .pop fun pointer rest h => ?_
  subst h
  refine .aside (.query fun m => raisesData_pointerTarget pointer) fun target => .typeOperand htype ?_
  exact .give (spends_load type target) hvalues fun _ => touches_releaseValue pointer

theorem paced_storeIndirect (hstep : Sizing.step g.program g.method s ⟨.stind, operand⟩ = .ok s')
    (hvalues : g.Matches s.stack values) : Paced g s s' values (perform ⟨.stind, operand⟩) := by
  obtain ⟨-, hvalues⟩ := hvalues.drop hstep
  refine .pop fun pointer values₁ h => .pop fun v values₂ h' => ?_
  subst h h'
  refine .aside (.query fun m => raisesData_pointerTarget pointer) fun target => ?_
  refine .aside (.query fun m => m.raisesData_typeOperand operand) fun type => ?_
  refine .rest ((touches_assign target type v).bind fun _ => ?_) fun _ => hvalues
  exact (touches_releaseValue v).bind fun _ => touches_releaseValue pointer

end Exec

/-! ## Straight code -/

/-- The instruction neither branches nor invokes a method, and needs no instance. -/
def Opcode.isStraight : Opcode → Bool
  | .br | .brtrue | .brfalse | .call | .newobj | .ldthis => false
  | _ => true

namespace Exec

variable {g : FrameBudget} {values : List Value} {s s' : Sizing.State}

/-- **An instruction keeps pace with the walk**, if it neither branches nor invokes a method. -/
theorem paced_perform {i : Instruction} (hstep : Sizing.step g.program g.method s i = .ok s')
    (hop : i.op.isStraight = true) (hvalues : g.Matches s.stack values) :
    Paced g s s' values (perform i) := by
  obtain ⟨op, operand⟩ := i
  cases op
  case br | brtrue | brfalse | call | newobj | ldthis => cases hop
  case nop | ret =>
    cases hstep
    exact .pure hvalues
  case add | sub | mul | div | mod | or | and | xor | shl | shr =>
    obtain ⟨⟨right, s₁⟩, hright, hstep⟩ := except_bind_ok.mp hstep
    obtain ⟨⟨left, s₂⟩, hleft, hpush⟩ := except_bind_ok.mp hstep
    obtain ⟨hbytes, v, rest, rfl, -, hvalues⟩ := hvalues.pop hright
    obtain ⟨hbytes', v', rest', rfl, hfits, hvalues⟩ := hvalues.pop hleft
    refine .of_push (hbytes'.trans hbytes) hpush ?_
    dsimp only [perform]
    refine spends_binary ?_ fun _ _ _ _ h => ?_
    · exact hvalues
    · cases h
      exact hfits
  case cnct =>
    refine .drop hvalues hstep fun stack hvalues => ?_
    exact spends_binary hvalues fun h => absurd rfl h
  case ceq | cne | cgt | cge | clt | cle =>
    refine .drop hvalues hstep fun stack hvalues => ?_
    exact spends_compare _ _ hvalues
  case neg => exact paced_negate hstep hvalues
  case ldc =>
    refine .push hstep fun type htype => ?_
    exact .give_last (spends_makeConstant htype) hvalues
  case ldstr =>
    refine .push hstep fun type htype => ?_
    refine .bind (spends_makeConstant htype) fun v values' ⟨hsame, hfits⟩ => ?_
    subst hsame
    split
    · exact .push_last (.cons hfits hvalues)
    · exact .throw rfl
  case lddft =>
    refine .push hstep fun type htype => ?_
    exact .typeOperand htype (.give_last (spends_makeDefault type) hvalues)
  case ldlen => exact paced_loadLength hstep hvalues
  case ldloc =>
    refine .push hstep fun type htype => ?_
    exact spends_loadSlot (fun f => f.raisesData_getLocal operand) (fun _ _ => rfl)
      (fun b hb => g.locals hb htype) hvalues
  case ldarg =>
    refine .push hstep fun type htype => ?_
    exact spends_loadSlot (fun f => f.raisesData_getArgument operand) (fun _ _ => rfl)
      (fun b hb => g.arguments hb htype) hvalues
  case stloc => exact spends_storeSlot (fun f => f.raisesData_getLocal operand) (hvalues.drop hstep).2
  case starg => exact spends_storeSlot (fun f => f.raisesData_getArgument operand) (hvalues.drop hstep).2
  case ldfld => exact paced_loadField hstep hvalues
  case stfld => exact paced_storeField hstep hvalues
  case ldsfld => exact paced_loadStaticField hstep hvalues
  case stsfld => exact paced_storeStaticField hstep hvalues
  case ldelem => exact paced_loadElement hstep hvalues
  case stelem => exact paced_storeElement hstep hvalues
  case ldflda => exact paced_loadFieldAddress hstep hvalues
  case ldsflda => exact paced_loadStaticFieldAddress hstep hvalues
  case ldloca =>
    refine .token hvalues hstep fun type stack hvalues => ?_
    exact spends_loadSlotAddress (fun f => f.raisesData_getLocal operand) hvalues
  case ldarga =>
    refine .token hvalues hstep fun type stack hvalues => ?_
    exact spends_loadSlotAddress (fun f => f.raisesData_getArgument operand) hvalues
  case ldelema => exact paced_loadElementAddress hstep hvalues
  case ldind => exact paced_loadIndirect hstep hvalues
  case stind => exact paced_storeIndirect hstep hvalues
  case ldtype =>
    refine .push hstep fun type htype => ?_
    exact .give_last (spends_makeScalar (Nat.le_refl _)) hvalues
  case conv =>
    refine .drop_push hvalues hstep fun type stack htype hvalues => ?_
    refine .pop fun v rest h => .typeOperand htype ?_
    subst h
    exact .give (spends_convert v type) hvalues fun _ => touches_releaseValue v
  case newarr =>
    refine .drop_push hvalues hstep fun type stack htype hvalues => ?_
    exact spends_newArray htype hvalues

/-- **Straight code goes on with the next instruction**, or it ends. -/
theorem spends_step {i : Instruction} (hstep : Sizing.step g.program g.method s i = .ok s')
    (hop : i.op.isStraight = true) (hvalues : g.Matches s.stack values) (length : Nat) :
    Spends g (s'.bytes - s.bytes) values (step length i) fun flow values' =>
      (flow = .next ∨ flow = .finish) ∧ g.Matches s'.stack values' := by
  have hnext : Spends g (s'.bytes - s.bytes) values (do
      perform i
      return Flow.next) fun flow values' => (flow = .next ∨ flow = .finish) ∧ g.Matches s'.stack values' :=
    .bind (paced_perform hstep hop hvalues) fun _ _ h => .pure ⟨.inl rfl, h⟩
  obtain ⟨op, operand⟩ := i
  cases op
  case br | brtrue | brfalse | call | newobj | ldthis => cases hop
  case ret =>
    cases hstep
    exact .pure ⟨.inr rfl, hvalues⟩
  all_goals exact hnext

end Exec

end ManagedVm
