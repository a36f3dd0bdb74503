import ManagedVm.Proofs.Machine.Effect

/-!
# Instructions have the effects of the table

One lemma for each way in which instructions work, put together in `Exec.does_step`. An invocation is
in two parts: what it takes before the method runs (`does_beginCall`, `does_beginConstruction`), and
what it gives afterwards (`does_complete`). How the body goes on after an instruction is said by
`Exec.Leads`.
-/

namespace ManagedVm

namespace Exec

variable {g : Ground} {n : Nat}

/-! ## Instructions without an invocation -/

theorem does_binary (op : Opcode) : Does g ⟨2, 1⟩ n n (binary op) := by
  refine .pop (by omega) fun right k hk => .pop (by omega) fun left j hj => ?_
  have hend : ∀ result, Does g ⟨2, 1⟩ n j (do
      push result
      releaseValue left
      releaseValue right) := fun result => by
    refine .push (by omega) (.rest ?_ (by omega) (by omega))
    exact (touches_releaseValue left).bind fun _ => touches_releaseValue right
  dsimp only
  refine .ite ?_ ?_
  · refine .aside (.query fun m => m.raisesData_textOf left) fun a => ?_
    refine .aside (.query fun m => m.raisesData_textOf right) fun b => ?_
    exact .aside (touches_makeString _).lift hend
  · split
    · refine .aside (.query fun m => m.raisesData_readScalar _) fun a => ?_
      refine .aside (.query fun m => m.raisesData_readScalar _) fun b => ?_
      refine .aside (.query fun m => .mapError Error.isData_ofScalar) fun s => ?_
      exact .aside (touches_makePrimitive _ s) hend
    · exact .aside (.throw rfl) hend

theorem does_compare (op : Opcode) (c : Scalar.Comparison) : Does g ⟨2, 1⟩ n n (compare op c) := by
  refine .pop (by omega) fun right k hk => .pop (by omega) fun left j hj => ?_
  refine .aside (.query fun m => m.raisesData_compareValues op c left right) fun holds => ?_
  refine .aside (touches_makeScalar _) fun v => .push (by omega) (.rest ?_ (by omega) (by omega))
  exact (touches_releaseValue left).bind fun _ => touches_releaseValue right

theorem does_newArray (operand : Int32) : Does g ⟨1, 1⟩ n n (newArray operand) := by
  refine .pop (by omega) fun length k hk => .aside (.query fun m => m.raisesData_typeOperand operand) fun type => ?_
  refine .aside (.query fun m => m.raisesData_readIndex length) fun count => .guard rfl ?_
  refine .aside (.read _) fun limit => .guard rfl (.aside (touches_makeArray type _).lift fun v => ?_)
  exact .push_last (by omega) (by omega) (by omega)

theorem does_loadSlot {choose : Frame → Except Error Binding} (h : ∀ f, RaisesData (choose f)) :
    Does g ⟨0, 1⟩ n n (loadSlot choose) := by
  refine .aside (.query fun m => m.raisesData_slot h) fun b => .aside (touches_load _ _) fun v => ?_
  exact .push_last (by omega) (by omega) (by omega)

theorem does_storeSlot {choose : Frame → Except Error Binding} (h : ∀ f, RaisesData (choose f)) :
    Does g ⟨1, 0⟩ n n (storeSlot choose) := by
  refine .pop (by omega) fun v k hk => .rest ?_ (by omega) (by omega)
  exact (touches_assignSlot h v).andThen fun _ => touches_releaseValue v

theorem does_loadSlotAddress {op : Opcode} {choose : Frame → Except Error Binding}
    (hop : op.tokenPlace = 1) (h : ∀ f, RaisesData (choose f)) :
    Does g ⟨1, 1⟩ n n (loadSlotAddress op choose) := by
  refine .token (by omega) (by omega) fun pointee k hk => ?_
  refine .aside (.query fun m => m.raisesData_slot h) fun b => ?_
  exact .push_last (by omega) (by omega) (by omega)

theorem raisesData_elementAt (m : Machine) (array index : Value) :
    RaisesData (do m.elementAddress array (← m.readIndex index)) :=
  (m.raisesData_readIndex index).bind fun i => m.raisesData_elementAddress array i

/-- **The instructions that are always followed by the next one have the effect of the table.** -/
theorem does_perform {i : Instruction} {ef : Effect} (hef : g.program.effect i = .ok ef)
    (hop : i.op ∉ [.brtrue, .brfalse, .newobj, .call]) : Does g ef n n (perform i) := by
  obtain ⟨op, operand⟩ := i
  cases op
  case brtrue | brfalse | newobj | call => simp at hop
  all_goals obtain rfl := Except.ok.inj hef
  case nop | ret | br => exact .rest (.pure _) (by omega) (by omega)
  case add | sub | mul | div | mod | cnct | or | and | xor | shl | shr =>
    dsimp only [perform]
    exact does_binary _
  case ceq | cne | cgt | cge | clt | cle => exact does_compare _ _
  case neg =>
    refine .pop (by omega) fun v k hk => ?_
    split
    · refine .aside (.query fun m => m.raisesData_readScalar _) fun s => ?_
      refine .aside (.query fun m => .mapError Error.isData_ofScalar) fun negated => ?_
      refine .aside (touches_makePrimitive _ negated) fun result => ?_
      exact .push (by omega) (.rest (touches_releaseValue _) (by omega) (by omega))
    · exact .throw rfl
  case ldc =>
    exact .aside (touches_makeConstant operand) fun v => .push_last (by omega) (by omega) (by omega)
  case ldstr =>
    refine .aside (touches_makeConstant operand) fun v => ?_
    split
    · exact .push_last (by omega) (by omega) (by omega)
    · exact .throw rfl
  case lddft =>
    refine .aside (.query fun m => m.raisesData_typeOperand operand) fun type => ?_
    exact .aside (touches_makeDefault type) fun v => .push_last (by omega) (by omega) (by omega)
  case ldlen =>
    refine .pop (by omega) fun array k hk => .aside (.query fun m => m.raisesData_arrayLength array) fun length => ?_
    refine .aside (touches_makeScalar _) fun v => ?_
    exact .push (by omega) (.rest (touches_releaseValue array) (by omega) (by omega))
  case ldloc => exact does_loadSlot fun f => f.raisesData_getLocal operand
  case stloc => exact does_storeSlot fun f => f.raisesData_getLocal operand
  case ldarg => exact does_loadSlot fun f => f.raisesData_getArgument operand
  case starg => exact does_storeSlot fun f => f.raisesData_getArgument operand
  case ldfld =>
    refine .pop (by omega) fun receiver k hk => ?_
    refine .aside (.query fun m => m.raisesData_fieldAt operand false) fun ⟨_, field⟩ => ?_
    refine .aside (.query fun m => m.raisesData_fieldAddress receiver field) fun a => ?_
    refine .aside (touches_load field.type a) fun v => ?_
    exact .push (by omega) (.rest (touches_releaseValue receiver) (by omega) (by omega))
  case stfld =>
    refine .pop (by omega) fun receiver k hk => .pop (by omega) fun v j hj => ?_
    refine .aside (.query fun m => m.raisesData_fieldAt operand false) fun ⟨_, field⟩ => ?_
    refine .aside (.query fun m => m.raisesData_fieldAddress receiver field) fun a => ?_
    refine .rest ((touches_assign a field.type v).andThen fun _ => ?_) (by omega) (by omega)
    exact (touches_releaseValue v).bind fun _ => touches_releaseValue receiver
  case ldsfld =>
    refine .aside (.query fun m => m.raisesData_fieldAt operand true) fun ⟨owner, field⟩ => ?_
    refine .aside (.query fun m => m.raisesData_staticFieldAddress owner field) fun a => ?_
    exact .aside (touches_load field.type a) fun v => .push_last (by omega) (by omega) (by omega)
  case stsfld =>
    refine .pop (by omega) fun v k hk => ?_
    refine .aside (.query fun m => m.raisesData_fieldAt operand true) fun ⟨owner, field⟩ => ?_
    refine .aside (.query fun m => m.raisesData_staticFieldAddress owner field) fun a => ?_
    refine .rest ((touches_assign a field.type v).andThen fun _ => ?_) (by omega) (by omega)
    exact touches_releaseValue v
  case ldthis =>
    refine .aside touches_currentFrame fun f => ?_
    split
    · exact .push_last (by omega) (by omega) (by omega)
    · exact .throw rfl
  case ldelem =>
    refine .pop (by omega) fun array k hk => .pop (by omega) fun index j hj => ?_
    refine .aside (.query fun m => raisesData_elementAt m array index) fun ⟨a, element⟩ => ?_
    refine .aside (touches_load element a) fun v => ?_
    exact .push (by omega) (.rest (touches_releaseValue array) (by omega) (by omega))
  case stelem =>
    refine .pop (by omega) fun array k hk => .pop (by omega) fun index j hj => ?_
    refine .pop (by omega) fun v l hl => ?_
    refine .aside (.query fun m => raisesData_elementAt m array index) fun ⟨a, element⟩ => ?_
    refine .rest ((touches_assign a element v).andThen fun _ => ?_) (by omega) (by omega)
    exact (touches_releaseValue v).bind fun _ => touches_releaseValue array
  case ldflda =>
    refine .token (by omega) (fun k hk => hk.symm) fun pointee k hk => .pop (by omega) fun receiver j hj => ?_
    refine .aside (.query fun m => m.raisesData_fieldAt operand false) fun ⟨_, field⟩ => ?_
    refine .aside (.query fun m => m.raisesData_fieldAddress receiver field) fun a => ?_
    exact .push (by omega) (.rest (touches_releaseValue receiver) (by omega) (by omega))
  case ldsflda =>
    refine .token (by omega) (fun k hk => hk.symm) fun pointee k hk => ?_
    refine .aside (.query fun m => m.raisesData_fieldAt operand true) fun ⟨owner, field⟩ => ?_
    refine .aside (.query fun m => m.raisesData_staticFieldAddress owner field) fun a => ?_
    exact .push_last (by omega) (by omega) (by omega)
  case ldloca => exact does_loadSlotAddress rfl fun f => f.raisesData_getLocal operand
  case ldarga => exact does_loadSlotAddress rfl fun f => f.raisesData_getArgument operand
  case ldelema =>
    refine .pop (by omega) fun array k hk => .pop (by omega) fun index j hj => ?_
    refine .token (by omega) (fun l hl => ?_) fun pointee l hl => ?_
    · show l + 3 = n
      omega
    · refine .aside (.query fun m => raisesData_elementAt m array index) fun ⟨a, _⟩ => ?_
      exact .push (by omega) (.rest (touches_releaseValue array) (by omega) (by omega))
  case ldind =>
    refine .pop (by omega) fun pointer k hk => ?_
    refine .aside (.query fun m => raisesData_pointerTarget pointer) fun target => ?_
    refine .aside (.query fun m => m.raisesData_typeOperand operand) fun type => ?_
    refine .aside (touches_load type target) fun v => ?_
    exact .push (by omega) (.rest (touches_releaseValue pointer) (by omega) (by omega))
  case stind =>
    refine .pop (by omega) fun pointer k hk => .pop (by omega) fun v j hj => ?_
    refine .aside (.query fun m => raisesData_pointerTarget pointer) fun target => ?_
    refine .aside (.query fun m => m.raisesData_typeOperand operand) fun type => ?_
    refine .rest ((touches_assign target type v).andThen fun _ => ?_) (by omega) (by omega)
    exact (touches_releaseValue v).bind fun _ => touches_releaseValue pointer
  case ldtype =>
    exact .aside (touches_makeScalar _) fun v => .push_last (by omega) (by omega) (by omega)
  case conv =>
    refine .pop (by omega) fun v k hk => .aside (.query fun m => m.raisesData_typeOperand operand) fun type => ?_
    refine .aside (touches_convert v type) fun result => ?_
    exact .push (by omega) (.rest (touches_releaseValue v) (by omega) (by omega))
  case newarr => exact does_newArray operand

theorem does_branchIf (wanted : Bool) (operand : Int32) (length : Nat) :
    Does g ⟨1, 0⟩ n n (branchIf wanted operand length) := by
  refine .aside (Keeps.query fun _ _ => isPlain_of_branchTarget) fun target => ?_
  refine .pop (by omega) fun condition k hk => .rest ?_ (by omega) (by omega)
  refine (Touches.query fun m => m.raisesData_isTruthy condition).bind fun truthy => ?_
  exact (touches_releaseValue condition).bind fun _ => .pure _

/-- **Every instruction that is no invocation has the effect of the table.** -/
theorem does_step {i : Instruction} {ef : Effect} (hef : g.program.effect i = .ok ef)
    (hop : i.op ∉ [.newobj, .call]) (length : Nat) : Does g ef n n (step length i) := by
  have hnext : i.op ∉ [.brtrue, .brfalse, .newobj, .call] → Does g ef n n (do
      perform i
      return Flow.next) := fun hop => .andThen (does_perform hef hop) fun _ => .pure _
  obtain ⟨op, operand⟩ := i
  cases op
  case newobj | call => simp at hop
  case ret =>
    obtain rfl := Except.ok.inj hef
    exact .rest (.pure _) (by omega) (by omega)
  case br =>
    obtain rfl := Except.ok.inj hef
    refine .rest ((Keeps.query fun _ _ => isPlain_of_branchTarget).bind fun _ => ?_)
      (by omega) (by omega)
    exact .pure _
  case brtrue | brfalse =>
    obtain rfl := Except.ok.inj hef
    exact does_branchIf _ operand length
  all_goals exact hnext (by simp)

/-! ## Invocations -/

/-- **A call takes the instance and the arguments.** What it gives comes later. -/
theorem does_beginCall {member : Int32} {ef : Effect}
    (hef : g.program.effect ⟨.call, member⟩ = .ok ef) :
    Does g ⟨ef.takes, 0⟩ n n (beginCall member) := by
  obtain ⟨index, hindex, hef⟩ := except_bind_ok.mp hef
  obtain ⟨callee, hcallee, hef⟩ := except_bind_ok.mp hef
  obtain ⟨result, -, hef⟩ := except_bind_ok.mp hef
  have htakes := congrArg Effect.takes (Except.ok.inj hef)
  refine .lookup (g.program.raisesData_methodOf member)
    (fun m himage _ => by rw [Machine.methodOf_congr himage]) fun index' hindex' => ?_
  obtain rfl := Except.ok.inj (hindex.symm.trans hindex')
  refine .lookup (g.program.raisesData_methodAt index)
    (fun m himage _ => by rw [Machine.methodAt_congr himage]) fun callee' hcallee' => ?_
  obtain rfl := Except.ok.inj (hcallee.symm.trans hcallee')
  dsimp only at htakes
  refine .receiver (fun hzero hinstance => ?_) fun receiver k hk => .aside (.read _) fun bound => ?_
  · rw [← htakes, hinstance, hzero]
    simp
  · refine .arguments (fun hlt => by omega) fun arguments j hj => ?_
    refine .rest_of_keepsShape ?_ (by omega) (by omega)
    split
    · exact (keepsShape_pin _).bind fun _ => .pure _
    · exact .pure _

/-- **A construction takes the arguments.** -/
theorem does_beginConstruction {typeRef : Int32} {ef : Effect}
    (hef : g.program.effect ⟨.newobj, typeRef⟩ = .ok ef) :
    Does g ⟨ef.takes, 0⟩ n n (beginConstruction typeRef) := by
  obtain ⟨⟨type, index⟩, hindex, hef⟩ := except_bind_ok.mp hef
  obtain ⟨constructor, hconstructor, hef⟩ := except_bind_ok.mp hef
  have htakes := congrArg Effect.takes (Except.ok.inj hef)
  refine .lookup (g.program.raisesData_constructorOf typeRef)
    (fun m himage htypes => by rw [Machine.constructorOf_congr himage htypes])
    fun found hfound => ?_
  obtain rfl := Except.ok.inj (hindex.symm.trans hfound)
  refine .lookup (g.program.raisesData_methodAt index)
    (fun m himage _ => by rw [Machine.methodAt_congr himage]) fun constructor' hconstructor' => ?_
  obtain rfl := Except.ok.inj (hconstructor.symm.trans hconstructor')
  dsimp only at htakes
  refine .arguments (fun hlt => by omega) fun arguments k hk => .aside (.read _) fun d => ?_
  refine .guard rfl (.aside (touches_makeDefault type) fun created => ?_)
  refine .rest_of_keepsShape ?_ (by omega) (by omega)
  exact (keepsShape_pin created).bind fun _ => .pure _

/-- **An invocation takes what the table says, and gives nothing yet.** -/
theorem does_invocation {i : Instruction} {ef : Effect} (hef : g.program.effect i = .ok ef)
    (hop : i.op ∈ [.newobj, .call]) (length : Nat) : Does g ⟨ef.takes, 0⟩ n n (step length i) := by
  obtain ⟨op, operand⟩ := i
  cases op
  case newobj => exact does_beginConstruction hef
  case call => exact does_beginCall hef
  all_goals simp at hop

end Exec

/-- The number of values that an invocation puts on the stack once it has returned. -/
def Pending.gives (result : Option Value) : Pending → Nat
  | .call .. => result.toList.length
  | .construct .. => 1

namespace Exec

/-- **A call gives what was returned, a construction the instance.** -/
theorem does_complete {n₀ t : Nat} (hn : n + t = n₀) (result : Option Value) (p : Pending) :
    Does g ⟨t, p.gives result⟩ n₀ n (complete result p) := by
  cases p with
  | call receiver arguments =>
    have hrelease : Touches .scratch (do
        arguments.forM releaseValue
        receiver.forM releaseValue) := by
      refine (Keeps.forM touches_releaseValue arguments).bind fun _ => ?_
      cases receiver with
      | none => exact .pure _
      | some v => exact touches_releaseValue v
    cases result with
    | none => exact .rest hrelease (by omega) hn
    | some v =>
      refine .push (fun hfull => ?_) (.rest hrelease (by omega) ?_)
      all_goals simp only [Pending.gives, Option.toList_some, List.length_singleton]; omega
  | construct created arguments =>
    have hrelease : Touches .scratch (arguments.forM releaseValue) := .forM touches_releaseValue arguments
    refine .push (fun hfull => ?_) (.rest ?_ (by omega) ?_)
    · simp only [Pending.gives]
      omega
    · cases result with
      | none => exact hrelease
      | some v => exact .ite ((touches_releaseValue v).bind fun _ => hrelease) hrelease
    · simp only [Pending.gives]
      omega

/-! ## How a body goes on -/

/-- **Where an instruction leads.** -/
inductive Leads (m : Machine) (length : Nat) (i : Instruction) : Flow → Prop
  | next : i.op ∉ [.newobj, .call] → Leads m length i .next
  | finish : i.op = .ret → Leads m length i .finish
  | jump {target : Nat} : i.op.isBranch = true → branchTarget i.operand length = .ok target →
      Leads m length i (.jump target)
  | call {request : Request} {receiver : Option Value} {arguments : List Value} :
      i.op = .call → m.methodOf i.operand = .ok request.method →
        Leads m length i (.invoke request (.call receiver arguments))
  | construct {request : Request} {created : Value} {arguments : List Value} {type : TypeId} :
      i.op = .newobj → m.constructorOf i.operand = .ok (type, request.method) →
        Leads m length i (.invoke request (.construct created arguments))

theorem leads_of_branchIf {m m' : Machine} {length : Nat} {i : Instruction} {flow : Flow} {wanted : Bool}
    (hop : i.op = .brtrue ∨ i.op = .brfalse) (h : branchIf wanted i.operand length m = .ok flow m') :
    Leads m length i flow := by
  obtain ⟨target, m₁, htarget, h⟩ := bind_eq_ok.mp h
  obtain ⟨condition, m₂, -, h⟩ := bind_eq_ok.mp h
  obtain ⟨truthy, m₃, -, h⟩ := bind_eq_ok.mp h
  obtain ⟨-, m₄, -, h⟩ := bind_eq_ok.mp h
  cases h
  split
  · exact .jump (by rcases hop with hop | hop <;> rw [hop] <;> rfl) (query_eq_ok.mp htarget).1
  · exact .next (by rcases hop with hop | hop <;> simp [hop])

theorem leads_of_beginCall {m m' : Machine} {length : Nat} {i : Instruction} {flow : Flow}
    (hop : i.op = .call) (h : beginCall i.operand m = .ok flow m') : Leads m length i flow := by
  obtain ⟨index, m₁, hindex, h⟩ := bind_eq_ok.mp h
  obtain ⟨method, m₂, -, h⟩ := bind_eq_ok.mp h
  have hmethod := (query_eq_ok.mp hindex).1
  dsimp only at h
  -- The two cases differ in where the instance comes from, which does not matter here.
  split at h
  all_goals
    obtain ⟨receiver, m₃, -, h⟩ := bind_eq_ok.mp h
    obtain ⟨bound, m₄, -, h⟩ := bind_eq_ok.mp h
    obtain ⟨arguments, m₅, -, h⟩ := bind_eq_ok.mp h
    split at h
    · obtain ⟨-, m₆, -, h⟩ := bind_eq_ok.mp h
      cases h
      exact .call hop hmethod
    · cases h
      exact .call hop hmethod

theorem leads_of_beginConstruction {m m' : Machine} {length : Nat} {i : Instruction} {flow : Flow}
    (hop : i.op = .newobj) (h : beginConstruction i.operand m = .ok flow m') :
    Leads m length i flow := by
  obtain ⟨⟨type, index⟩, m₁, hfound, h⟩ := bind_eq_ok.mp h
  obtain ⟨method, m₂, -, h⟩ := bind_eq_ok.mp h
  obtain ⟨arguments, m₃, -, h⟩ := bind_eq_ok.mp h
  obtain ⟨d, m₄, -, h⟩ := bind_eq_ok.mp h
  have hconstructor := (query_eq_ok.mp hfound).1
  dsimp only at h
  split at h
  · obtain ⟨_, m₅, hthrow, _⟩ := bind_eq_ok.mp h
    cases hthrow
  · obtain ⟨created, m₅, -, h⟩ := bind_eq_ok.mp h
    obtain ⟨-, m₆, -, h⟩ := bind_eq_ok.mp h
    cases h
    exact .construct hop hconstructor

theorem leads_of_step {m m' : Machine} {length : Nat} {i : Instruction} {flow : Flow}
    (h : step length i m = .ok flow m') : Leads m length i flow := by
  obtain ⟨op, operand⟩ := i
  have hnext : op ∉ [.newobj, .call] → (do
      perform ⟨op, operand⟩
      return Flow.next : Exec Flow) m = .ok flow m' → Leads m length ⟨op, operand⟩ flow := by
    intro hop h
    obtain ⟨-, m₁, -, h⟩ := bind_eq_ok.mp h
    cases h
    exact .next hop
  cases op
  case ret =>
    cases h
    exact .finish rfl
  case br =>
    obtain ⟨target, m₁, htarget, h⟩ := bind_eq_ok.mp h
    cases h
    exact .jump rfl (query_eq_ok.mp htarget).1
  case brtrue => exact leads_of_branchIf (.inl rfl) h
  case brfalse => exact leads_of_branchIf (.inr rfl) h
  case call => exact leads_of_beginCall rfl h
  case newobj => exact leads_of_beginConstruction rfl h
  all_goals exact hnext (by simp) h

end Exec

end ManagedVm
