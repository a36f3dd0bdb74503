import ManagedVm.Proofs.Machine.Touches

/-!
# What instructions take and give

Every instruction takes a number of values off the evaluation stack and puts a number of values
there. The table of these numbers (`Machine.effect`) stands between the walk that
sizes a stack and the instructions that use it: both are compared with it, opcode by opcode.

For the instructions the comparison is a judgment over their definition, `Exec.Does`: started at a
depth, the operation ends at the depth that the effect says; if it complains about depth, then because
there were too few values, or because there was no room for what it gives; and it wraps no place around
an error. There is a rule of the judgment for each kind of step that a definition takes.
-/

namespace ManagedVm

/-! ## The table -/

/-- How many values are taken off the evaluation stack, and how many are put there afterwards. -/
structure Effect where
  takes : Nat
  gives : Nat
  deriving DecidableEq

/-- How many values an instruction has taken once it has its token. -/
def Opcode.tokenPlace : Opcode → Nat
  | .ldelema => 3
  | _ => 1

namespace Machine

variable (m : Machine)

/-- **The effect of an instruction.** A call takes the instance and the arguments, and gives what the
method returns; a construction takes the arguments and gives the instance. -/
def effect (i : Instruction) : Except Error Effect :=
  match i.op with
  | .nop | .ret | .br => .ok ⟨0, 0⟩
  | .ldc | .ldstr | .lddft | .ldloc | .ldarg | .ldsfld | .ldthis | .ldtype => .ok ⟨0, 1⟩
  | .stloc | .starg | .stsfld | .brtrue | .brfalse => .ok ⟨1, 0⟩
  | .neg | .ldlen | .ldfld | .ldsflda | .ldloca | .ldarga | .ldind | .conv | .newarr => .ok ⟨1, 1⟩
  | .stfld | .stind => .ok ⟨2, 0⟩
  | .add | .sub | .mul | .div | .mod | .cnct | .or | .and | .xor | .shl | .shr => .ok ⟨2, 1⟩
  | .ceq | .cne | .cgt | .cge | .clt | .cle | .ldelem | .ldflda => .ok ⟨2, 1⟩
  | .stelem => .ok ⟨3, 0⟩
  | .ldelema => .ok ⟨3, 1⟩
  | .newobj => do
    let (_, constructor) ← m.constructorOf i.operand
    return ⟨(← m.methodAt constructor).parameters.length, 1⟩
  | .call => do
    let callee ← m.methodAt (← m.methodOf i.operand)
    let result ← m.declaredType callee.returnType
    return ⟨callee.parameters.length + if callee.isStatic then 0 else 1,
      if m.isVoid result then 0 else 1⟩

variable {m} {m' : Machine}

theorem methodAt_congr (himage : m'.image = m.image) : m'.methodAt = m.methodAt := by
  funext index
  unfold methodAt
  rw [himage]

theorem methodOf_congr (himage : m'.image = m.image) : m'.methodOf = m.methodOf := by
  funext member
  unfold methodOf memberAt
  rw [himage]

theorem declaredType_congr (htypes : m'.types = m.types) : m'.declaredType = m.declaredType := by
  funext index
  unfold declaredType
  rw [htypes]

theorem returnsValue_congr (htypes : m'.types = m.types) : m'.returnsValue = m.returnsValue := by
  funext method
  unfold returnsValue isVoid
  rw [declaredType_congr htypes, htypes]

theorem constructorOf_congr (himage : m'.image = m.image) (htypes : m'.types = m.types) :
    m'.constructorOf = m.constructorOf := by
  funext typeRef
  unfold constructorOf
  rw [himage, declaredType_congr htypes, methodOf_congr himage]

end Machine

namespace Effect

variable (ef : Effect)

/-- The effect leads from one depth to another. -/
structure Done (n n' : Nat) : Prop where
  enough : ef.takes ≤ n
  depth : n' + ef.takes = n + ef.gives

/-- **Why an operation with the effect complains about depth**, and at which depth it stops. A token
may also be missing although there is a value in its place; then that value has been taken. -/
def Stops (limit n : Nat) (e : Error) (n' : Nat) : Prop :=
  match e with
  | .evalStackUnderflow => n < ef.takes
  | .evalStackOverflow _ => limit + ef.takes < n + ef.gives
  | .missingTypeToken op => n < ef.takes ∨ n' + op.tokenPlace = n
  | _ => True

theorem Stops.mono {t q q' limit n n' : Nat} {e : Error} (h : Stops ⟨t, q⟩ limit n e n')
    (hq : q ≤ q') : Stops ⟨t, q'⟩ limit n e n' := by
  unfold Stops at h ⊢
  split at h
  · exact h
  · dsimp only at h ⊢
    omega
  · exact h
  · trivial

end Effect

/-! ## The judgment -/

/-- What an operation on the innermost frame finds unchanged: the program, the limit of the frame's
evaluation stack, and the frames below. -/
structure Ground where
  program : Machine
  limit : Nat
  below : List (Nat × Nat)

/-- **The innermost frame's evaluation stack has a depth.** -/
structure Ground.At (g : Ground) (n : Nat) (m : Machine) : Prop where
  image : m.image = g.program.image
  types : m.types = g.program.types
  shape : m.shape = (n, g.limit) :: g.below

theorem Ground.At.sameShape {g : Ground} {n : Nat} {m m' : Machine} (hm : g.At n m)
    (h : m.SameShape m') : g.At n m' :=
  ⟨h.image.trans hm.image, h.types.trans hm.types, h.shape.trans hm.shape⟩

namespace Exec

variable {α β : Type} {g : Ground} {t q n₀ n : Nat}

/-- **The operation has the effect**, of which a part was done before: it was begun at the first
depth and is now at the second. -/
def Does (g : Ground) (ef : Effect) (n₀ n : Nat) (x : Exec α) : Prop :=
  ∀ m, g.At n m → match x m with
    | .ok _ m' => ∃ n', g.At n' m' ∧ ef.Done n₀ n'
    | .error e m' =>
      e.isFault = false ∧ (e.isDepth = true → ∃ n', g.At n' m' ∧ ef.Stops g.limit n₀ e n')

namespace Does

/-- A plain error needs no reason. -/
theorem of_isPlain {e : Error} (he : e.isPlain = true) (P : Prop) :
    e.isFault = false ∧ (e.isDepth = true → P) := by
  obtain ⟨hdepth, hfault⟩ := Error.isPlain_iff.mp he
  exact ⟨hfault, fun h => by simp [hdepth] at h⟩

/-- The effect is done, and the rest keeps the depths. -/
theorem rest_of_keepsShape {x : Exec α} (hx : KeepsShape x) (ht : t ≤ n₀) (hn : n + t = n₀ + q) :
    Does g ⟨t, q⟩ n₀ n x := by
  intro m hm
  cases hrun : x m with
  | ok a m' => exact ⟨n, hm.sameShape (hx.of_ok hrun), ht, hn⟩
  | error e m' => exact of_isPlain (hx.of_error hrun).2 _

/-- The effect is done, and the rest takes scratch at most. -/
theorem rest {x : Exec α} (hx : Touches .scratch x) (ht : t ≤ n₀) (hn : n + t = n₀ + q) :
    Does g ⟨t, q⟩ n₀ n x := rest_of_keepsShape hx.keepsShape ht hn

theorem throw {e : Error} (he : e.isPlain = true) :
    Does g ⟨t, q⟩ n₀ n (MonadExcept.throw e : Exec α) := fun _ _ => of_isPlain he _

/-- First a step that keeps the depths. -/
theorem bind_of_keepsShape {x : Exec α} {f : α → Exec β} (hx : KeepsShape x)
    (hf : ∀ a, Does g ⟨t, q⟩ n₀ n (f a)) : Does g ⟨t, q⟩ n₀ n (x >>= f) := by
  intro m hm
  cases hrun : x m with
  | ok a m' =>
    rw [bind_of_ok hrun]
    exact hf a m' (hm.sameShape (hx.of_ok hrun))
  | error e m' =>
    rw [bind_of_error hrun]
    exact of_isPlain (hx.of_error hrun).2 _

/-- First a step that takes scratch at most. -/
theorem aside {x : Exec α} {f : α → Exec β} (hx : Touches .scratch x)
    (hf : ∀ a, Does g ⟨t, q⟩ n₀ n (f a)) : Does g ⟨t, q⟩ n₀ n (x >>= f) :=
  bind_of_keepsShape hx.keepsShape hf

theorem ite {p : Prop} [Decidable p] {x y : Exec α} (hx : Does g ⟨t, q⟩ n₀ n x)
    (hy : Does g ⟨t, q⟩ n₀ n y) : Does g ⟨t, q⟩ n₀ n (if p then x else y) := by
  split
  · exact hx
  · exact hy

/-- A look at the program, of which the answer matters. -/
theorem lookup {x : Machine → Except Error α} {f : α → Exec β} (hdata : RaisesData (x g.program))
    (hx : ∀ m : Machine, m.image = g.program.image → m.types = g.program.types → x m = x g.program)
    (hf : ∀ a, x g.program = .ok a → Does g ⟨t, q⟩ n₀ n (f a)) :
    Does g ⟨t, q⟩ n₀ n (query x >>= f) := by
  intro m hm
  have hprogram := hx m hm.image hm.types
  cases hlook : x g.program with
  | ok a =>
    rw [bind_of_ok (query_of_ok (hprogram.trans hlook))]
    exact hf a hlook m hm
  | error e =>
    rw [bind_of_error (query_of_error (hprogram.trans hlook))]
    exact of_isPlain (hdata.isPlain hlook) _

/-- In the end something that takes scratch at most. -/
theorem andThen {x : Exec α} {f : α → Exec β} (hx : Does g ⟨t, q⟩ n₀ n x)
    (hf : ∀ a, Touches .scratch (f a)) :
    Does g ⟨t, q⟩ n₀ n (x >>= f) := by
  intro m hm
  have hdoes := hx m hm
  cases hrun : x m with
  | ok a m' =>
    rw [hrun] at hdoes
    rw [bind_of_ok hrun]
    obtain ⟨n', hm', hdone⟩ := hdoes
    exact (rest (hf a) hdone.enough hdone.depth : Does g ⟨t, q⟩ n₀ n' (f a)) m' hm'
  | error e m' =>
    rw [hrun] at hdoes
    rw [bind_of_error hrun]
    exact hdoes

/-- A check before the rest. -/
theorem guard {p : Prop} [Decidable p] {e : Error} {x : Exec α} (he : e.isPlain = true)
    (hx : Does g ⟨t, q⟩ n₀ n x) :
    Does g ⟨t, q⟩ n₀ n (if p then (MonadExcept.throw e : Exec PUnit) >>= fun _ => x else x) :=
  ite (aside (.throw he) fun _ => hx) hx

end Does

/-! ## Pushes and pops -/

/-- The innermost frame, and what the frames have instead once another one is in its place. -/
theorem frame_at {m : Machine} (hm : g.At n m) : ∃ f rest, m.stack.frames = f :: rest ∧ f.depth = n ∧
    f.maxDepth = g.limit ∧ ∀ f' : Frame, f'.maxDepth = f.maxDepth →
      g.At f'.depth { m with stack := { m.stack with frames := f' :: rest } } := by
  obtain ⟨f, rest, hframes, hhead, hrest⟩ := List.map_eq_cons_iff.mp hm.shape
  obtain ⟨hdepth, hlimit⟩ := Prod.mk.inj hhead
  refine ⟨f, rest, hframes, hdepth, hlimit, fun f' hf' => ⟨hm.image, hm.types, ?_⟩⟩
  simp only [Machine.shape, List.map_cons]
  rw [hrest, hf', hlimit]

theorem pop_at {m : Machine} (hm : g.At n m) :
    (n = 0 ∧ pop m = .error .evalStackUnderflow m) ∨
      ∃ v m' k, n = k + 1 ∧ pop m = .ok v m' ∧ g.At k m' := by
  obtain ⟨f, rest, hframes, rfl, -, hset⟩ := frame_at hm
  unfold Frame.depth
  cases hvalues : f.values with
  | nil => exact .inl ⟨rfl, pop_of_nil hframes hvalues⟩
  | cons v vs =>
    exact .inr ⟨v, _, vs.length, rfl, pop_of_cons hframes hvalues, hset { f with values := vs } rfl⟩

theorem push_at {m : Machine} (hm : g.At n m) (v : Value) :
    (g.limit ≤ n ∧ push v m = .error (.evalStackOverflow g.limit) m) ∨
      ∃ m', n < g.limit ∧ push v m = .ok ⟨⟩ m' ∧ g.At (n + 1) m' := by
  obtain ⟨f, rest, hframes, rfl, hlimit, hset⟩ := frame_at hm
  rw [← hlimit]
  by_cases hfull : f.maxDepth ≤ f.depth
  · exact .inl ⟨hfull, push_of_full hframes hfull⟩
  · have hroom := Nat.lt_of_not_le hfull
    exact .inr ⟨_, hroom, push_of_room hframes hroom, hset { f with values := v :: f.values } rfl⟩

namespace Does

/-- A pop. It finds a value, or too few were there at the start. -/
theorem pop {f : Value → Exec β} (hn : n = 0 → n₀ < t)
    (hf : ∀ v k, n = k + 1 → Does g ⟨t, q⟩ n₀ k (f v)) : Does g ⟨t, q⟩ n₀ n (pop >>= f) := by
  intro m hm
  rcases pop_at hm with ⟨rfl, hrun⟩ | ⟨v, m', k, hk, hrun, hm'⟩
  · rw [bind_of_error hrun]
    exact ⟨rfl, fun _ => ⟨0, hm, hn rfl⟩⟩
  · rw [bind_of_ok hrun]
    exact hf v k hk m' hm'

/-- A push. It finds room, or the effect has no room. -/
theorem push {v : Value} {f : PUnit → Exec β} (hfull : g.limit ≤ n → g.limit + t < n₀ + q)
    (hf : Does g ⟨t, q⟩ n₀ (n + 1) (f ⟨⟩)) : Does g ⟨t, q⟩ n₀ n (push v >>= f) := by
  intro m hm
  rcases push_at hm v with ⟨hle, hrun⟩ | ⟨m', -, hrun, hm'⟩
  · rw [bind_of_error hrun]
    exact ⟨rfl, fun _ => ⟨n, hm, hfull hle⟩⟩
  · rw [bind_of_ok hrun]
    exact hf m' hm'

theorem push_last {v : Value} (hfull : g.limit ≤ n → g.limit + t < n₀ + q) (ht : t ≤ n₀)
    (hn : n + 1 + t = n₀ + q) : Does g ⟨t, q⟩ n₀ n (Exec.push v) := by
  rw [← bind_pure (Exec.push v)]
  exact .push hfull (.rest (.pure _) ht hn)

/-- The pop of a token. What stands in its place is taken whatever it is. -/
theorem token {op : Opcode} {f : TypeId → Exec β} (hn : n = 0 → n₀ < t)
    (hplace : ∀ k, n = k + 1 → k + op.tokenPlace = n₀)
    (hf : ∀ type k, n = k + 1 → Does g ⟨t, q⟩ n₀ k (f type)) : Does g ⟨t, q⟩ n₀ n (popToken op >>= f) := by
  unfold popToken
  rw [bind_assoc]
  intro m hm
  rcases pop_at hm with ⟨rfl, hrun⟩ | ⟨v, m', k, hk, hrun, hm'⟩
  · rw [bind_of_error (mapError_of_error _ hrun)]
    exact ⟨rfl, fun _ => ⟨0, hm, .inl (hn rfl)⟩⟩
  · rw [bind_of_ok (mapError_of_ok _ hrun)]
    refine (?_ : Does g ⟨t, q⟩ n₀ k _) m' hm'
    rw [bind_assoc]
    refine .aside (.read _) fun int => ?_
    have hother : Does g ⟨t, q⟩ n₀ k ((MonadExcept.throw (.missingTypeToken op) : Exec TypeId) >>= f) :=
      fun m hm => ⟨rfl, fun _ => ⟨k, hm, .inr (hplace k hk)⟩⟩
    cases v with
    | primitive type a =>
      dsimp only
      by_cases hint : type = int
      · rw [if_pos hint, bind_assoc]
        refine .aside (.query fun m => m.raisesData_readIndex _) fun index => ?_
        exact .aside (.query fun m => m.raisesData_typeOperand _) fun type => hf type k hk
      · rw [if_neg hint]
        exact hother
    | struct => exact hother
    | string => exact hother
    | reference => exact hother
    | array => exact hother
    | pointer => exact hother

/-- The pops of arguments. -/
theorem arguments {count : Nat} {f : List Value → Exec β} (hn : n < count → n₀ < t)
    (hf : ∀ vs k, n = k + count → Does g ⟨t, q⟩ n₀ k (f vs)) :
    Does g ⟨t, q⟩ n₀ n (popArguments count >>= f) := by
  have hgo : ∀ popped, Does g ⟨t, q⟩ n₀ n (popArguments.go count popped >>= f) := by
    induction count generalizing n with
    | zero =>
      intro popped
      unfold popArguments.go
      rw [pure_bind]
      exact hf popped n rfl
    | succ count ih =>
      intro popped
      unfold popArguments.go
      rw [bind_assoc]
      refine .pop (fun hzero => hn (by omega)) fun v k hk => ?_
      exact ih (fun hlt => hn (by omega)) (fun vs j hj => hf vs j (by omega)) (v :: popped)
  exact hgo []

/-- The instance of a call, unless the method is static. -/
theorem receiver {isStatic : Bool} {f : Option Value → Exec β}
    (hn : n = 0 → isStatic = false → n₀ < t)
    (hf : ∀ v k, (k + if isStatic then 0 else 1) = n → Does g ⟨t, q⟩ n₀ k (f v)) :
    Does g ⟨t, q⟩ n₀ n
      (if isStatic then Pure.pure none >>= f else (some <$> Exec.pop) >>= f) := by
  cases isStatic with
  | true =>
    simp only [if_true, pure_bind]
    exact hf none n rfl
  | false =>
    rw [if_neg Bool.false_ne_true, bind_map_left]
    exact .pop (fun hzero => hn hzero rfl) fun v k hk => hf (some v) k hk.symm

end Does

end Exec

end ManagedVm
