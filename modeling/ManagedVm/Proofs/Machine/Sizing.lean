import ManagedVm.Machine.Sizing
import ManagedVm.Proofs.Machine.Effect

/-!
# The walk follows the table

The walk that sizes an evaluation stack does to its entries what the table of effects says the
instruction does to values (`Sizing.follows_step`), and notes the greatest number of entries it sees.
So before each instruction of a body that was accepted there is a depth (`Sizing.depthBefore`), which
the effect of the instruction leads to the next one, and which is within the limit that the walk
answers with. A body that is not accepted is never refused for an overflow.
-/

namespace ManagedVm

namespace Sizing

/-! ## One instruction -/

/-- The state with one entry more. -/
def State.pushed (s : State) (types : TypeTable) (e : Entry) : State where
  stack := e :: s.stack
  maxDepth := max s.maxDepth (s.stack.length + 1)
  bytes := s.bytes + entrySize types e

/-- An entry is pushed as long as the bytes of all are a word. -/
theorem State.push_eq_ok {s s' : State} {types : TypeTable} {e : Entry} :
    s.push types e = .ok s' ↔ s.bytes + entrySize types e < UInt64.size ∧ s' = s.pushed types e := by
  constructor
  · intro h
    obtain ⟨bytes, hbytes, h⟩ := except_bind_ok.mp h
    obtain ⟨hlt, rfl⟩ := Size.fit_eq_ok.mp hbytes
    exact ⟨hlt, (Except.ok.inj h).symm⟩
  · rintro ⟨hlt, rfl⟩
    exact except_bind_ok.mpr ⟨_, Size.fit_of_lt hlt, rfl⟩

theorem State.raisesData_push (s : State) (types : TypeTable) (e : Entry) :
    RaisesData (s.push types e) := (RaisesData.fit _).bind fun _ => .ok _

/-- **The walk went from one state to another by an effect**, and its maximum is one still. -/
structure Follows (ef : Effect) (s s' : State) : Prop where
  done : ef.Done s.stack.length s'.stack.length
  grows : s.maxDepth ≤ s'.maxDepth
  bytes_le : s.bytes ≤ s'.bytes
  bounded : s.stack.length ≤ s.maxDepth → s'.stack.length ≤ s'.maxDepth

/-- The second state is the first less some entries. -/
structure Takes (s₀ s : State) (count : Nat) : Prop where
  length : s.stack.length + count = s₀.stack.length
  maxDepth : s.maxDepth = s₀.maxDepth
  bytes : s.bytes = s₀.bytes

theorem Takes.start (s : State) : Takes s s 0 := ⟨rfl, rfl, rfl⟩

/-- Whatever the walk answers follows the effect. -/
def Walks (ef : Effect) (s₀ : State) (x : Except Error State) : Prop :=
  ∀ s', x = .ok s' → Follows ef s₀ s'

namespace Walks

variable {α : Type} {ef : Effect} {s₀ s : State} {k : Nat}

theorem look {x : Except Error α} {f : α → Except Error State} (hf : ∀ a, x = .ok a → Walks ef s₀ (f a)) :
    Walks ef s₀ (x >>= f) := by
  intro s' h
  obtain ⟨a, ha, h⟩ := except_bind_ok.mp h
  exact hf a ha s' h

theorem pop {f : Entry × State → Except Error State} (hs : Takes s₀ s k)
    (hf : ∀ e s', Takes s₀ s' (k + 1) → Walks ef s₀ (f (e, s'))) : Walks ef s₀ (s.pop >>= f) := by
  refine look fun (e, s') h => hf e s' ?_
  unfold State.pop at h
  split at h
  · cases h
  · rename_i rest hstack
    cases h
    have hlength := hs.length
    rw [hstack, List.length_cons] at hlength
    exact ⟨by dsimp only; omega, hs.maxDepth, hs.bytes⟩

theorem dropToken {op : Opcode} {f : State → Except Error State} (hs : Takes s₀ s k)
    (hf : ∀ s', Takes s₀ s' (k + 1) → Walks ef s₀ (f s')) : Walks ef s₀ (s.dropToken op >>= f) := by
  refine look fun s' h => hf s' ?_
  unfold State.dropToken at h
  split at h
  · rename_i rest hstack
    cases h
    have hlength := hs.length
    rw [hstack, List.length_cons] at hlength
    exact ⟨by dsimp only; omega, hs.maxDepth, hs.bytes⟩
  · cases h

theorem takes_drop {s' : State} {count : Nat} (hs : Takes s₀ s k) (h : s.drop count = .ok s') :
    Takes s₀ s' (k + count) := by
  unfold State.drop at h
  split at h
  · cases h
  · cases h
    have hlength := hs.length
    exact ⟨by simp only [List.length_drop]; omega, hs.maxDepth, hs.bytes⟩

theorem drop {count : Nat} {f : State → Except Error State} (hs : Takes s₀ s k)
    (hf : ∀ s', Takes s₀ s' (k + count) → Walks ef s₀ (f s')) : Walks ef s₀ (s.drop count >>= f) :=
  look fun s' h => hf s' (takes_drop hs h)

theorem stay (hs : Takes s₀ s k) : Walks ⟨k, 0⟩ s₀ (.ok s) := by
  rintro _ ⟨⟩
  have hlength := hs.length
  refine ⟨⟨by dsimp only; omega, by dsimp only; omega⟩, Nat.le_of_eq hs.maxDepth.symm,
    Nat.le_of_eq hs.bytes.symm, fun hle => ?_⟩
  rw [hs.maxDepth]
  omega

theorem drop_last {count : Nat} (hs : Takes s₀ s k) : Walks ⟨k + count, 0⟩ s₀ (s.drop count) :=
  fun s' h => stay (takes_drop hs h) s' rfl

theorem push {types : TypeTable} {e : Entry} (hs : Takes s₀ s k) :
    Walks ⟨k, 1⟩ s₀ (s.push types e) := by
  intro s' h
  obtain ⟨-, rfl⟩ := State.push_eq_ok.mp h
  have hlength := hs.length
  have hmax := hs.maxDepth
  have hbytes := hs.bytes
  refine ⟨⟨by dsimp only; omega, ?_⟩, ?_, ?_, fun hle => ?_⟩
  all_goals simp only [State.pushed, List.length_cons]; omega

end Walks

variable {m : Machine} {method : Method}

theorem follows_newobj {operand : Int32} {s s' : State}
    (h : step m method s ⟨.newobj, operand⟩ = .ok s') :
    ∃ ef, m.effect ⟨.newobj, operand⟩ = .ok ef ∧ Follows ef s s' := by
  obtain ⟨⟨type, index⟩, hindex, h⟩ := except_bind_ok.mp h
  obtain ⟨constructor, hconstructor, h⟩ := except_bind_ok.mp h
  obtain ⟨s₁, hdrop, h⟩ := except_bind_ok.mp h
  have hs := Walks.takes_drop (Takes.start s) hdrop
  rw [Nat.zero_add] at hs
  refine ⟨⟨constructor.parameters.length, 1⟩, ?_, Walks.push hs s' h⟩
  exact except_bind_ok.mpr ⟨_, hindex, except_bind_ok.mpr ⟨_, hconstructor, rfl⟩⟩

theorem follows_call {operand : Int32} {s s' : State}
    (h : step m method s ⟨.call, operand⟩ = .ok s') :
    ∃ ef, m.effect ⟨.call, operand⟩ = .ok ef ∧ Follows ef s s' := by
  obtain ⟨index, hindex, h⟩ := except_bind_ok.mp h
  obtain ⟨callee, hcallee, h⟩ := except_bind_ok.mp h
  obtain ⟨s₁, hdrop, h⟩ := except_bind_ok.mp h
  obtain ⟨result, hresult, h⟩ := except_bind_ok.mp h
  have hs := Walks.takes_drop (Takes.start s) hdrop
  rw [Nat.zero_add] at hs
  refine ⟨⟨callee.parameters.length + if callee.isStatic then 0 else 1,
    if m.isVoid result then 0 else 1⟩, ?_, ?_⟩
  · exact except_bind_ok.mpr ⟨_, hindex, except_bind_ok.mpr ⟨_, hcallee,
      except_bind_ok.mpr ⟨_, hresult, rfl⟩⟩⟩
  · cases hvoid : m.isVoid result with
    | true =>
      rw [hvoid] at h
      exact Walks.stay hs s' h
    | false =>
      rw [hvoid] at h
      exact Walks.push hs s' h

/-- **The walk over one instruction has the effect of the table.** -/
theorem follows_step {i : Instruction} {s s' : State} (h : step m method s i = .ok s') :
    ∃ ef, m.effect i = .ok ef ∧ Follows ef s s' := by
  have hs := Takes.start s
  have hlift : ∀ ef, m.effect i = .ok ef → Walks ef s (step m method s i) →
      ∃ ef, m.effect i = .ok ef ∧ Follows ef s s' := fun ef hef hwalks => ⟨ef, hef, hwalks s' h⟩
  obtain ⟨op, operand⟩ := i
  cases op
  case newobj => exact follows_newobj h
  case call => exact follows_call h
  all_goals refine hlift _ rfl ?_
  case nop | ret | br => exact .stay hs
  case add | sub | mul | div | mod | or | and | xor | shl | shr =>
    exact .pop hs fun _ _ hs => .pop hs fun _ _ hs => .push hs
  case cnct | ceq | cne | cgt | cge | clt | cle | ldlen => exact .drop hs fun _ hs => .push hs
  case neg => exact .pop hs fun _ _ hs => .push hs
  case ldc | ldstr | lddft | ldloc | ldarg | ldsfld | ldthis | ldtype =>
    exact .look fun _ _ => .push hs
  case stloc | starg | stsfld | brtrue | brfalse | stfld | stind | stelem => exact .drop_last hs
  case ldfld | ldind | conv | newarr => exact .drop hs fun _ hs => .look fun _ _ => .push hs
  case ldelem => exact .pop hs fun _ _ hs => .drop hs fun _ hs => .look fun _ _ => .push hs
  case ldflda => exact .dropToken hs fun _ hs => .drop hs fun _ hs => .look fun _ _ => .push hs
  case ldsflda | ldloca | ldarga => exact .dropToken hs fun _ hs => .look fun _ _ => .push hs
  case ldelema =>
    refine .pop hs fun _ _ hs => .drop hs fun _ hs => .dropToken hs fun _ hs => ?_
    exact .look fun _ _ => .push hs

/-! ## The whole body -/

/-- The walk over the instructions before a place. -/
def before (m : Machine) (method : Method) (index : Nat) : Except Error State :=
  (method.body.toList.take index).foldlM (step m method) {}

/-- **The depth before an instruction**: the number of entries that the walk has there. -/
def depthBefore (m : Machine) (method : Method) (index : Nat) : Nat :=
  match before m method index with
  | .ok s => s.stack.length
  | .error _ => 0

theorem before_succ {index : Nat} {i : Instruction} (hi : method.body[index]? = some i) :
    before m method (index + 1) = before m method index >>= fun s => step m method s i := by
  have htake : method.body.toList.take (index + 1) = method.body.toList.take index ++ [i] := by
    rw [List.take_add_one, Array.getElem?_toList, hi]
    rfl
  unfold before
  rw [htake, List.foldlM_append]
  simp

/-- A body that is accepted is accepted up to every place, within the final maximum. -/
theorem before_of_walk {s : State} (h : walk m method method.body = .ok s) (index : Nat) :
    ∃ s', before m method index = .ok s' ∧ s'.stack.length ≤ s.maxDepth := by
  unfold walk at h
  rw [← List.take_append_drop index method.body.toList, List.foldlM_append] at h
  obtain ⟨s', hbefore, hbehind⟩ := except_bind_ok.mp h
  refine ⟨s', hbefore, Nat.le_trans (m := s'.maxDepth) ?_ ?_⟩
  · refine (except_foldlM_ok (P := fun s => s.stack.length ≤ s.maxDepth) (Q := fun _ => True)
      (fun i _ s s' hs hstep => ⟨?_, trivial⟩) (Nat.le_refl 0) hbefore).1
    obtain ⟨_, _, hfollows⟩ := follows_step hstep
    exact hfollows.bounded hs
  · refine (except_foldlM_ok (P := fun s => s'.maxDepth ≤ s.maxDepth) (Q := fun _ => True)
      (fun i _ s s' hs hstep => ⟨?_, trivial⟩) (Nat.le_refl _) hbehind).1
    obtain ⟨_, _, hfollows⟩ := follows_step hstep
    exact Nat.le_trans hs hfollows.grows

/-- The bytes are counted up along a body. -/
theorem bytes_le_of_before {s s' : State} {index : Nat} (h : walk m method method.body = .ok s)
    (hbefore : before m method index = .ok s') : s'.bytes ≤ s.bytes := by
  unfold walk at h
  unfold before at hbefore
  rw [← List.take_append_drop index method.body.toList, List.foldlM_append, hbefore] at h
  refine (except_foldlM_ok (P := fun s => s'.bytes ≤ s.bytes) (Q := fun _ => True)
    (fun i _ s s' hs hstep => ⟨?_, trivial⟩) (Nat.le_refl _) h).1
  obtain ⟨_, _, hfollows⟩ := follows_step hstep
  exact Nat.le_trans hs hfollows.bytes_le

/-- Every depth is within the limit that the walk answers with. -/
theorem depthBefore_le {s : State} (h : walk m method method.body = .ok s) (index : Nat) :
    depthBefore m method index ≤ s.maxDepth := by
  obtain ⟨s', hbefore, hle⟩ := before_of_walk h index
  unfold depthBefore
  rw [hbefore]
  exact hle

/-- **Each instruction leads from its depth to the next one by its effect.** -/
theorem depthBefore_succ {s : State} (h : walk m method method.body = .ok s) {index : Nat}
    {i : Instruction} (hi : method.body[index]? = some i) : ∃ ef, m.effect i = .ok ef ∧
      ef.Done (depthBefore m method index) (depthBefore m method (index + 1)) := by
  obtain ⟨s₁, hbefore, -⟩ := before_of_walk h (index + 1)
  have hstep := hbefore
  rw [before_succ hi] at hstep
  obtain ⟨s₀, hs₀, hstep⟩ := except_bind_ok.mp hstep
  obtain ⟨ef, hef, hfollows⟩ := follows_step hstep
  refine ⟨ef, hef, ?_⟩
  unfold depthBefore
  rw [hs₀, hbefore]
  exact hfollows.done

/-! ## Refusals -/

/-- The walk sets no limit on its entries, so it never complains that there are too many; and it runs
nothing, so it wraps no place around an error. -/
def Roomy {α : Type} (x : Except Error α) : Prop :=
  ∀ e, x = .error e → (∀ limit, e ≠ .evalStackOverflow limit) ∧ e.isFault = false

namespace Roomy

variable {α β : Type}

theorem ok (a : α) : Roomy (.ok a : Except Error α) := fun _ h => nomatch h

theorem error {e : Error} (he : ∀ limit, e ≠ .evalStackOverflow limit) (hfault : e.isFault = false) :
    Roomy (.error e : Except Error α) := fun _ h => Except.error.inj h ▸ ⟨he, hfault⟩

theorem of_raisesData {x : Except Error α} (hx : RaisesData x) : Roomy x := by
  intro e h
  have hplain := hx.isPlain h
  refine ⟨?_, (Error.isPlain_iff.mp hplain).2⟩
  rintro limit rfl
  cases hplain

theorem bind {x : Except Error α} {f : α → Except Error β} (hx : Roomy x) (hf : ∀ a, Roomy (f a)) :
    Roomy (x >>= f) := by
  cases x with
  | error e => exact fun e' h => hx e' (congrArg _ (Except.error.inj h))
  | ok a => exact hf a

theorem pop (s : State) : Roomy s.pop := by
  unfold State.pop
  split
  · exact error (by simp) rfl
  · exact ok _

theorem drop (s : State) (count : Nat) : Roomy (s.drop count) := by
  unfold State.drop
  split
  · exact error (by simp) rfl
  · exact ok _

theorem dropToken (s : State) (op : Opcode) : Roomy (s.dropToken op) := by
  unfold State.dropToken
  split
  · exact ok _
  · exact error (by simp) rfl

/-- The end of most instructions: a type is looked up and its entry is pushed. -/
theorem push {x : Except Error α} (hx : RaisesData x) (s : State) (types : TypeTable) (entry : α → Entry) :
    Roomy (do s.push types (entry (← x))) :=
  (of_raisesData hx).bind fun _ => of_raisesData (s.raisesData_push types _)

end Roomy

theorem raisesData_typeOf (index : Int32) : RaisesData (typeOf m index) := m.raisesData_declaredType _

theorem raisesData_elementOf (e : Entry) : RaisesData (elementOf m e) := by
  unfold elementOf
  dsimp only
  split
  · simp [Error.isData]
  · split <;> simp [Error.isData]

theorem raisesData_variableType (vars : List Variable) (index : Int32) {missing : Error}
    (hmissing : missing.isData = true) : RaisesData (variableType m vars index missing) := by
  unfold variableType
  split
  · exact RaisesData.error_iff.mpr hmissing
  · split
    · exact m.raisesData_declaredType _
    · exact RaisesData.error_iff.mpr hmissing

theorem raisesData_localType (index : Int32) : RaisesData (localType m method index) :=
  raisesData_variableType _ _ rfl

theorem raisesData_argumentType (index : Int32) : RaisesData (argumentType m method index) :=
  raisesData_variableType _ _ rfl

theorem raisesData_fieldType (member : Int32) (isStatic : Bool) : RaisesData (fieldType m member isStatic) :=
  (m.raisesData_fieldAt member isStatic).bind fun _ => .pure _

theorem roomy_step (s : State) (i : Instruction) : Roomy (step m method s i) := by
  obtain ⟨op, operand⟩ := i
  cases op
  case nop | ret | br => exact .ok _
  case add | sub | mul | div | mod | or | and | xor | shl | shr =>
    refine (Roomy.pop s).bind fun (_, s) => (Roomy.pop s).bind fun (_, s) => ?_
    exact .of_raisesData (s.raisesData_push _ _)
  case cnct | ceq | cne | cgt | cge | clt | cle | ldlen =>
    exact (Roomy.drop s _).bind fun s => .of_raisesData (s.raisesData_push _ _)
  case neg => exact (Roomy.pop s).bind fun (_, s) => .of_raisesData (s.raisesData_push _ _)
  case ldc | ldstr => exact .push (m.raisesData_constantType _) s _ .value
  case lddft => exact .push (raisesData_typeOf _) s _ .value
  case ldtype => exact .push (raisesData_typeOf _) s _ .token
  case ldloc => exact .push (raisesData_localType _) s _ .value
  case ldarg => exact .push (raisesData_argumentType _) s _ .value
  case ldsfld => exact .push (raisesData_fieldType _ _) s _ .value
  case ldthis => exact .push (m.raisesData_declaredType _) s _ .value
  case stloc | starg | stsfld | brtrue | brfalse | stfld | stind | stelem => exact .drop s _
  case ldfld => exact (Roomy.drop s _).bind fun s => .push (raisesData_fieldType _ _) s _ .value
  case ldind | conv | newarr => exact (Roomy.drop s _).bind fun s => .push (raisesData_typeOf _) s _ .value
  case ldelem =>
    refine (Roomy.pop s).bind fun (array, s) => (Roomy.drop s _).bind fun s => ?_
    exact .push (raisesData_elementOf array) s _ .value
  case ldflda =>
    refine (Roomy.dropToken s _).bind fun s => (Roomy.drop s _).bind fun s => ?_
    exact .push (raisesData_fieldType _ _) s _ .pointer
  case ldsflda => exact (Roomy.dropToken s _).bind fun s => .push (raisesData_fieldType _ _) s _ .pointer
  case ldloca => exact (Roomy.dropToken s _).bind fun s => .push (raisesData_localType _) s _ .pointer
  case ldarga => exact (Roomy.dropToken s _).bind fun s => .push (raisesData_argumentType _) s _ .pointer
  case ldelema =>
    refine (Roomy.pop s).bind fun (array, s) => (Roomy.drop s _).bind fun s => ?_
    exact (Roomy.dropToken s _).bind fun s => .push (raisesData_elementOf array) s _ .pointer
  case newobj =>
    refine (Roomy.of_raisesData (m.raisesData_constructorOf _)).bind fun (_, constructor) => ?_
    refine (Roomy.of_raisesData (m.raisesData_methodAt constructor)).bind fun callee => ?_
    exact (Roomy.drop s _).bind fun s => .of_raisesData (s.raisesData_push _ _)
  case call =>
    refine (Roomy.of_raisesData (m.raisesData_methodOf _)).bind fun index => ?_
    refine (Roomy.of_raisesData (m.raisesData_methodAt index)).bind fun callee => ?_
    refine (Roomy.drop s _).bind fun s => ?_
    refine (Roomy.of_raisesData (m.raisesData_declaredType _)).bind fun result => ?_
    split
    · exact .ok _
    · exact .of_raisesData (s.raisesData_push _ _)

theorem roomy_walk (body : Array Instruction) : Roomy (walk m method body) := by
  suffices hlist : ∀ (is : List Instruction) (s : State), Roomy (is.foldlM (step m method) s) from
    hlist body.toList {}
  intro is
  induction is with
  | nil => exact fun s => .ok s
  | cons i is ih => exact fun s => (roomy_step s i).bind ih

end Sizing

theorem Machine.sizing_eq_ok {m : Machine} {index : Nat} {method : Method} {s : Sizing.State}
    (h : m.sizing index = .ok (method, s)) :
    m.methodAt index = .ok method ∧ Sizing.walk m method method.body = .ok s := by
  obtain ⟨method', hmethod, h⟩ := except_bind_ok.mp h
  obtain ⟨s', hwalk, h⟩ := except_bind_ok.mp h
  cases h
  exact ⟨hmethod, hwalk⟩

/-- A method is never refused for an overflow, nor with a place wrapped around the reason. -/
theorem Machine.roomy_sizing (m : Machine) (index : Nat) : Sizing.Roomy (m.sizing index) :=
  (Sizing.Roomy.of_raisesData (m.raisesData_methodAt index)).bind fun method =>
    (Sizing.roomy_walk method.body).bind fun _ => .ok _

/-- The walk depends on the program only. -/
theorem Machine.sizing_congr {m m' : Machine} (himage : m'.image = m.image)
    (htypes : m'.types = m.types) : m'.sizing = m.sizing := by
  cases m
  cases m'
  dsimp only at himage htypes
  subst himage htypes
  rfl

end ManagedVm
