import ManagedVm.Proofs.Machine.Pacing
import ManagedVm.Proofs.Machine.Invocation

/-!
# Straight code stays in its frame

A frame is given the scratch that the walk over the body asks for. Branches could make a body take more
than that, and then its frame is extended, if the arena has room. Code without branches and invocations
keeps pace with the walk from its first instruction to its last, so it needs no more scratch than its
frame was given: the frame ends where it ended when it was pushed, and nothing is ever refused
(`Run.confined_of_isStraight`).
-/

namespace ManagedVm

/-! ## Bodies -/

/-- **The code has no branches and invokes no method**, and needs no instance. -/
def Method.IsStraight (method : Method) : Prop := ∀ i ∈ method.body, i.op.isStraight = true

instance (method : Method) : Decidable method.IsStraight :=
  inferInstanceAs (Decidable (∀ i ∈ method.body, i.op.isStraight = true))

/-- Straight code in a frame, the scratch of which may be used as far as the walk asks for. -/
structure StraightBody extends FrameBudget where
  sized : Sizing.State
  walk : Sizing.walk program method method.body = .ok sized
  limit_eq : limit = frame.scratch + sized.bytes
  straight : method.IsStraight

/-- The outcome is within the limit, and no scratch was refused. -/
def FrameBudget.Holds {α : Type} (g : FrameBudget) : EStateM.Result Error Machine α → Prop
  | .ok _ m => g.Within g.limit m
  | .error e m => g.Within g.limit m ∧ e.isOverflow = false

theorem FrameBudget.Within.sameFrames {g : FrameBudget} {bound : Nat} {m m' : Machine} (h : g.Within bound m)
    (h' : m.SameFrames m') : g.Within bound m' := by
  obtain ⟨values, cursor, hm, hcursor⟩ := h
  exact ⟨values, cursor, hm.sameFrames h', hcursor⟩

/-- What spends nothing stays within the limit. -/
theorem FrameBudget.Within.holds {α : Type} {g : FrameBudget} {m : Machine} {x : Exec α} (h : g.Within g.limit m)
    (hx : ∀ values, Exec.Spends g 0 values x fun _ _ => True) : g.Holds (x m) := by
  obtain ⟨values, cursor, hm, hcursor⟩ := h
  cases hresult : x m with
  | error e m' =>
    obtain ⟨⟨values', cursor', hm', hcursor'⟩, he⟩ := (hx values).of_error hm hcursor hresult
    exact ⟨⟨values', cursor', hm', Nat.le_trans hcursor' hcursor⟩, he⟩
  | ok a m' =>
    obtain ⟨values', cursor', hm', hcursor', -⟩ := (hx values).of_ok hm hcursor hresult
    exact ⟨values', cursor', hm', Nat.le_trans hcursor' hcursor⟩

theorem Exec.spends_takeResult {g : FrameBudget} {values : List Value} (method : Method) :
    Spends g 0 values (takeResult method) fun _ _ => True := by
  refine .aside touches_currentFrame fun f => ?_
  refine .aside (.query fun m => m.raisesData_returnsValue method) fun returns => ?_
  split
  · exact .pure trivial
  · exact .throw rfl
  · exact .throw rfl
  · rw [map_eq_pure_bind]
    exact .pop fun _ _ _ => .pure trivial
  · exact .throw rfl

/-- An instruction that invokes no method is the same whatever an invocation does. -/
theorem Run.step_of_no_invoke {nested : Run.Invoke} {length : Nat} {i : Instruction} {m : Machine}
    (h : ∀ request p m', Exec.step length i m ≠ .ok (.invoke request p) m') :
    Run.step nested length i m = some (Exec.step length i m) := by
  unfold Run.step
  rw [Run.bind_lift]
  cases hstep : Exec.step length i m with
  | error e m' => rfl
  | ok flow m' =>
    cases flow with
    | next => rfl
    | jump target => rfl
    | finish => rfl
    | invoke request p => exact absurd hstep (h request p m')

namespace StraightBody

variable {g : StraightBody} {nested : Run.Invoke} {name : String} {index : Nat} {i : Instruction}
  {m m₁ : Machine}

/-- **The machine at a place of the body**: its values fit the entries that the walk has there, and it
has handed out no more scratch than the walk has counted up to there. -/
def Reached (g : StraightBody) (index : Nat) (m : Machine) : Prop :=
  ∃ s values cursor, Sizing.before g.program g.method index = .ok s ∧ g.At values cursor m ∧
    cursor ≤ g.frame.scratch + s.bytes ∧ g.Matches s.stack values

theorem Reached.sameFrames (h : g.Reached index m) (h' : m.SameFrames m₁) : g.Reached index m₁ := by
  obtain ⟨s, values, cursor, hbefore, hm, hrest⟩ := h
  exact ⟨s, values, cursor, hbefore, hm.sameFrames h', hrest⟩

/-- What an instruction at a place comes to. -/
def Leads (g : StraightBody) (index : Nat) : EStateM.Result Error Machine Flow → Prop
  | .ok flow m => (flow = .next ∨ flow = .finish) ∧ g.Reached (index + 1) m
  | .error e m => g.Within g.limit m ∧ e.isOverflow = false

theorem Reached.within (h : g.Reached index m) : g.Within g.limit m := by
  obtain ⟨s, values, cursor, hbefore, hm, hcursor, -⟩ := h
  have hbytes := Sizing.bytes_le_of_before g.walk hbefore
  have hlimit := g.limit_eq
  exact ⟨values, cursor, hm, by omega⟩

theorem Leads.holds {r : EStateM.Result Error Machine Flow} (h : g.Leads index r) : g.Holds r := by
  cases r with
  | ok flow m' => exact h.2.within
  | error e m' => exact h

theorem leads_step (h : g.Reached index m) (hi : g.method.body[index]? = some i) (length : Nat) :
    g.Leads index (Exec.step length i m) := by
  obtain ⟨s, values, cursor, hbefore, hm, hcursor, hvalues⟩ := h
  obtain ⟨s', hbefore', -⟩ := Sizing.before_of_walk g.walk (index + 1)
  have hbytes := Sizing.bytes_le_of_before g.walk hbefore'
  have hlimit := g.limit_eq
  have hstep : Sizing.step g.program g.method s i = .ok s' := by
    rw [Sizing.before_succ hi, hbefore] at hbefore'
    exact hbefore'
  obtain ⟨_, _, hfollows⟩ := Sizing.follows_step hstep
  have hgrows := hfollows.bytes_le
  have hop := g.straight i (Array.mem_of_getElem? hi)
  have hspends := Exec.spends_step hstep hop hvalues length
  have hroom : cursor + (s'.bytes - s.bytes) ≤ g.limit := by omega
  cases hresult : Exec.step length i m with
  | error e m' =>
    obtain ⟨⟨values', cursor', hm', hcursor'⟩, he⟩ := hspends.of_error hm hroom hresult
    exact ⟨⟨values', cursor', hm', by omega⟩, he⟩
  | ok flow m' =>
    obtain ⟨values', cursor', hm', hcursor', hflow, hvalues'⟩ := hspends.of_ok hm hroom hresult
    exact ⟨hflow, s', values', cursor', hbefore', hm', by omega, hvalues'⟩

/-- **An instruction at a place** leads to the next place or ends the body, and invokes no method. -/
theorem leads_stepAt (nested : Run.Invoke) (name : String) (h : g.Reached index m)
    (hi : g.method.body[index]? = some i) : ∃ r,
      Run.stepAt nested name g.method.body index i m = some r ∧ g.Leads index r := by
  have hnoted : g.Reached index (m.noting (.executing name index i)) := h.sameFrames ⟨rfl, rfl, rfl⟩
  have hleads := leads_step hnoted hi g.method.body.size
  refine ⟨_, Run.step_of_no_invoke fun request p m' hinvoke => ?_, hleads⟩
  rw [hinvoke] at hleads
  rcases hleads.1 with h | h <;> cases h

/-- Every place that is visited is reached as the walk says. -/
theorem reached_of_visits (hstart : g.Reached 0 m)
    (hvisits : Run.Visits nested name g.method.body m index m₁) : g.Reached index m₁ := by
  induction hvisits with
  | start => exact hstart
  | @step index i flow m₁ m₂ _ hi hstep hflow ih =>
    obtain ⟨r, hr, hleads⟩ := leads_stepAt nested name ih hi
    cases hstep.symm.trans hr
    obtain ⟨rfl | rfl, hreached⟩ := hleads
    · exact hreached
    · exact absurd rfl hflow

theorem holds_fail {e : Error} (h : g.Within g.limit m) (he : e.isOverflow = false) :
    g.Holds (Run.fail name index i e m) := by
  unfold Run.fail
  dsimp only
  by_cases hfault : (!e.isFault) = true
  · rw [if_pos hfault]
    exact ⟨h.sameFrames ⟨rfl, rfl, rfl⟩, he⟩
  · rw [if_neg hfault]
    exact ⟨h, he⟩

/-- **The body from a place on** ends within the limit, unless it is given too few steps. -/
theorem holds_body (nested : Run.Invoke) (name : String) (h : g.Reached index m) (steps : Nat) :
    (Run.body nested name g.method.body steps index m = none ∧ steps + index < g.method.body.size) ∨
      ∃ r, Run.body nested name g.method.body steps index m = some r ∧ g.Holds r := by
  induction steps generalizing index m with
  | zero =>
    cases hi : g.method.body[index]? with
    | none => exact .inr ⟨.ok () m, congrFun (Run.body_of_none hi) m, h.within⟩
    | some i =>
      have hindex := (Array.getElem?_eq_some_iff.mp hi).1
      unfold Run.body
      rw [hi]
      exact .inl ⟨rfl, by omega⟩
  | succ steps ih =>
    cases hi : g.method.body[index]? with
    | none => exact .inr ⟨.ok () m, congrFun (Run.body_of_none hi) m, h.within⟩
    | some i =>
      rw [Run.body_succ hi]
      obtain ⟨r, hr, hleads⟩ := leads_stepAt nested name h hi
      rw [hr]
      cases r with
      | error e m' => exact .inr ⟨_, rfl, holds_fail hleads.1 hleads.2⟩
      | ok flow m' =>
        obtain ⟨rfl | rfl, hreached⟩ := hleads
        · rcases ih hreached with ⟨hnone, hsteps⟩ | hsome
          · exact .inl ⟨hnone, by omega⟩
          · exact .inr hsome
        · exact .inr ⟨_, rfl, hreached.within⟩

/-- **The whole run in the frame**, from the arguments to the result. -/
theorem holds_execute (hstart : g.Reached 0 m) (nested : Run.Invoke) (steps : Nat) (name : String)
    (arguments : List Value) :
    (Run.execute nested steps g.method name arguments m = none ∧ steps < g.method.body.size) ∨
      ∃ r, Run.execute nested steps g.method name arguments m = some r ∧ g.Holds r := by
  have hbound := (Exec.touches_bindArguments 0 arguments).sameFrames
  unfold Run.execute
  rw [Run.bind_lift]
  cases hbind : Exec.bindArguments 0 arguments m with
  | error e m₁ =>
    obtain ⟨hsame, hdata⟩ := hbound.of_error hbind
    exact .inr ⟨_, rfl, hstart.within.sameFrames hsame, (Error.isData_iff.mp hdata).2.1⟩
  | ok u m₁ =>
    dsimp only
    rw [Run.bind_eq]
    have hbegun := hstart.sameFrames (hbound.of_ok hbind)
    rcases holds_body nested name hbegun steps with ⟨hnone, hsteps⟩ | ⟨r, hr, hholds⟩
    · rw [hnone]
      exact .inl ⟨rfl, hsteps⟩
    · rw [hr]
      refine .inr ?_
      cases r with
      | error e m₂ => exact ⟨_, rfl, hholds⟩
      | ok u m₂ =>
        dsimp only
        rw [Run.bind_lift_lift]
        refine ⟨_, rfl, hholds.holds fun values => ?_⟩
        exact .bind (Exec.spends_takeResult g.method) fun result _ _ =>
          .rest (Exec.touches_capture result) fun _ => trivial

end StraightBody

/-! ## Entering the frame -/

namespace Machine

variable {m : Machine} {vars : List Variable} {slots : List (TypeId × Nat)}

theorem Typed.category_builtin (htyped : m.Typed) (hagree : m.image.BuiltinsAgree) (kind : Kind) :
    (m.types.descriptor (m.types.builtins.primitive kind)).category = .primitive kind :=
  TypeTable.category_primitive htyped hagree kind

theorem Typed.size_eq (htyped : m.Typed) {type : TypeId} {kind : Kind}
    (h : (m.types.descriptor type).category = .primitive kind) :
    (m.types.descriptor type).size = kind.size :=
  TypeTable.size_of_ofImage htyped (by rw [h]; rfl)

/-- Slots are bound in the order of their variables, and have their types. -/
theorem declaredType_of_bind (hslots : m.slotsOf vars = .ok slots) {start n : Nat} {v : Variable}
    {b : Binding} (hv : vars[n]? = some v) (hb : (FrameLayout.bind start slots).1[n]? = some b) :
    m.declaredType v.type = .ok b.type := by
  unfold slotsOf at hslots
  rw [except_mapM_ok] at hslots
  induction hslots generalizing start n with
  | nil => cases hv
  | cons hslot _ ih =>
    obtain ⟨type, htype, hslot⟩ := except_bind_ok.mp hslot
    cases hslot
    cases n with
    | zero =>
      cases hv
      cases hb
      exact htype
    | succ n => exact ih hv hb

/-- The slot of a variable has the type that the walk finds for it. -/
theorem type_of_slotAt? (hslots : m.slotsOf vars = .ok slots) {start : Nat} {index : Int32}
    {b : Binding} {type : TypeId} {missing : Error}
    (hb : Frame.slotAt? (FrameLayout.bind start slots).1 index = some b)
    (htype : Sizing.variableType m vars index missing = .ok type) : b.type = type := by
  unfold Frame.slotAt? at hb
  unfold Sizing.variableType at htype
  split at hb
  · cases hb
  · rename_i hneg
    rw [if_neg hneg] at htype
    split at htype
    · rename_i v hv
      exact Except.ok.inj ((declaredType_of_bind hslots hv hb).symm.trans htype)
    · cases htype

end Machine

/-- The body of straight code in the frame of a layout. -/
def Machine.straightBody (m : Machine) (htyped : m.Typed) (hagree : m.image.BuiltinsAgree)
    {method : Method} (hstraight : method.IsStraight) {layout : FrameLayout} {sized : Sizing.State}
    (hwalk : Sizing.walk m method method.body = .ok sized)
    (hbytes : layout.slotBytes + sized.bytes ≤ layout.totalSize)
    (hlocals : m.slotsOf method.locals = .ok layout.locals)
    (harguments : m.slotsOf method.parameters = .ok layout.arguments) : StraightBody where
  program := m
  method := method
  frame := layout.frameAt m.stack.top
  below := m.stack.frames
  limit := (layout.frameAt m.stack.top).scratch + sized.bytes
  limit_le := FrameLayout.scratch_add_le_stop hbytes m.stack.top
  builtin := htyped.category_builtin hagree
  size_eq := @Typed.size_eq m htyped
  locals hb htype := Machine.type_of_slotAt? hlocals (Frame.getLocal_eq_ok.mp hb) htype
  arguments hb htype := Machine.type_of_slotAt? harguments (Frame.getArgument_eq_ok.mp hb) htype
  sized := sized
  walk := hwalk
  limit_eq := rfl
  straight := hstraight

/-- **Where straight code begins**: in the frame that it was given, with all the scratch that the walk
asks for. -/
theorem Exec.reached_of_enterFrame {m m' : Machine} {method : Method} {name : String} {r : Request}
    (htyped : m.Typed) (hagree : m.image.BuiltinsAgree) (hmethod : m.methodAt r.method = .ok method)
    (hstraight : method.IsStraight) (h : enterFrame method name r m = .ok ⟨⟩ m') :
    ∃ g : StraightBody, g.program = m ∧ g.method = method ∧ g.below = m.stack.frames ∧
      m.sizing r.method = .ok (method, g.sized) ∧ m'.stack.frames = g.frame :: g.below ∧
      g.frame.grown = false ∧ g.frame.cursor = g.frame.scratch ∧ g.Reached 0 m' := by
  obtain ⟨method', sized, layout, size, journal, hsizing, -, hbytes, hlocals, harguments, -, rfl⟩ :=
    enterFrame_eq_entered h
  obtain ⟨hmethod', hwalk⟩ := Machine.sizing_eq_ok hsizing
  cases hmethod.symm.trans hmethod'
  let g := m.straightBody htyped hagree hstraight hwalk hbytes hlocals harguments
  refine ⟨g, rfl, rfl, rfl, hsizing, rfl, rfl, rfl, ?_⟩
  exact ⟨{}, [], g.frame.scratch, rfl, ⟨rfl, rfl, rfl⟩, Nat.le_refl _, .nil⟩

/-! ## Every run -/

/-- **The innermost frame is what it was**, but for its values and for the scratch that it has handed
out, which is no more than some bytes. The frames below are the same. -/
def Machine.Confined (m : Machine) (f : Frame) (below : List Frame) (count : Nat) : Prop :=
  ∃ values cursor, m.stack.frames = { f with values, cursor } :: below ∧ cursor ≤ f.scratch + count

/-- The outcome is confined, and the arena was not found too small. -/
def Frame.Confines {α : Type} (f : Frame) (below : List Frame) (count : Nat) :
    EStateM.Result Error Machine α → Prop
  | .ok _ m => m.Confined f below count
  | .error e m => m.Confined f below count ∧ e.isOverflow = false

/-- **The run of a method is confined to its frame**: at every place of the body, whatever an
instruction comes to, and in the end. -/
structure Run.Confined (nested : Run.Invoke) (method : Method) (name : String) (arguments : List Value)
    (f : Frame) (below : List Frame) (count : Nat) (m : Machine) : Prop where
  bound : f.Confines below count (Exec.bindArguments 0 arguments m)
  places : ∀ {m₁ m₂ index}, Exec.bindArguments 0 arguments m = .ok ⟨⟩ m₁ →
    Run.Visits nested name method.body m₁ index m₂ → m₂.Confined f below count
  instructions : ∀ {m₁ m₂ index i}, Exec.bindArguments 0 arguments m = .ok ⟨⟩ m₁ →
    Run.Visits nested name method.body m₁ index m₂ → method.body[index]? = some i →
      ∃ r, Run.stepAt nested name method.body index i m₂ = some r ∧ f.Confines below count r
  whole : ∀ steps, (Run.execute nested steps method name arguments m = none ∧ steps < method.body.size) ∨
    ∃ r, Run.execute nested steps method name arguments m = some r ∧ f.Confines below count r

namespace StraightBody

variable {α : Type} {g : StraightBody} {m : Machine}

theorem confined_of_within (h : g.Within g.limit m) : m.Confined g.frame g.below g.sized.bytes := by
  obtain ⟨values, cursor, hm, hcursor⟩ := h
  exact ⟨values, cursor, hm.frames, g.limit_eq ▸ hcursor⟩

theorem confines_of_holds {r : EStateM.Result Error Machine α} (h : g.Holds r) :
    g.frame.Confines g.below g.sized.bytes r := by
  cases r with
  | ok a m => exact confined_of_within h
  | error e m => exact ⟨confined_of_within h.1, h.2⟩

/-- From where the body begins, all that happens is confined. -/
theorem confined (hstart : g.Reached 0 m) (nested : Run.Invoke) (name : String) (arguments : List Value) :
    Run.Confined nested g.method name arguments g.frame g.below g.sized.bytes m := by
  have hbound := (Exec.touches_bindArguments 0 arguments).sameFrames
  have hreached : ∀ {m₁ m₂ index}, Exec.bindArguments 0 arguments m = .ok ⟨⟩ m₁ →
      Run.Visits nested name g.method.body m₁ index m₂ → g.Reached index m₂ := fun hbind hvisits =>
    reached_of_visits (hstart.sameFrames (hbound.of_ok hbind)) hvisits
  refine ⟨?_, fun hbind hvisits => ?_, fun hbind hvisits hi => ?_, fun steps => ?_⟩
  · refine confines_of_holds (hstart.within.holds fun values => ?_)
    exact .rest (Exec.touches_bindArguments 0 arguments) fun _ => trivial
  · exact confined_of_within (hreached hbind hvisits).within
  · obtain ⟨r, hr, hleads⟩ := leads_stepAt nested name (hreached hbind hvisits) hi
    exact ⟨r, hr, confines_of_holds hleads.holds⟩
  · rcases holds_execute hstart nested steps name arguments with hnone | ⟨r, hr, hholds⟩
    · exact .inl hnone
    · exact .inr ⟨r, hr, confines_of_holds hholds⟩

end StraightBody

/-- **Straight code never outgrows its frame.** The scratch that it hands out is at most what the walk
asked for and the frame was given, so that the frame is never extended, and no instruction finds the
arena too small. -/
theorem Run.confined_of_isStraight {m₀ m : Machine} {method : Method} {name : String} {r : Request}
    (htyped : m₀.Typed) (hagree : m₀.image.BuiltinsAgree)
    (hmethod : m₀.methodAt r.method = .ok method) (hstraight : method.IsStraight)
    (hentered : Exec.enterFrame method name r m₀ = .ok ⟨⟩ m) :
    ∃ (sized : Sizing.State) (f : Frame), m₀.sizing r.method = .ok (method, sized) ∧
      m.stack.frames = f :: m₀.stack.frames ∧ f.grown = false ∧ f.cursor = f.scratch ∧
      f.scratch + sized.bytes ≤ f.stop ∧ ∀ (nested : Run.Invoke) (arguments : List Value),
        Run.Confined nested method name arguments f m₀.stack.frames sized.bytes m := by
  obtain ⟨g, rfl, rfl, hbelow, hsizing, hframes, hgrown, hcursor, hstart⟩ :=
    Exec.reached_of_enterFrame htyped hagree hmethod hstraight hentered
  rw [← hbelow]
  exact ⟨g.sized, g.frame, hsizing, hframes, hgrown, hcursor, g.limit_eq ▸ g.limit_le,
    fun nested arguments => g.confined hstart nested name arguments⟩

namespace Run

/-- Keeps an array, and doubles its argument in a wider type, once read through a pointer. -/
def widen : Method :=
  { name := "widen", owner := 0, returnType := 2, isStatic := true
    parameters := [⟨"number", 1⟩]
    locals := [⟨"numbers", 3⟩]
    body := #[
      ⟨.ldc, 0⟩, ⟨.newarr, 3⟩, ⟨.stloc, 0⟩,
      ⟨.ldtype, 1⟩, ⟨.ldarga, 0⟩, ⟨.ldind, 1⟩, ⟨.conv, 2⟩,
      ⟨.ldarg, 0⟩, ⟨.conv, 2⟩, ⟨.add, 0⟩, ⟨.ret, 0⟩] }

/-- A machine for the method, with a frame of its host in which lies the number five. The arena has room
for one frame of the method, and for no byte more. -/
def tight : Machine :=
  let image : Image :=
    { constants := #[⟨.primitive (.word .int), 0⟩]
      pool := #[1, 0, 0, 0]
      types := #[
        { name := "Numbers", category := .object, isStatic := true },
        { name := "int", category := .primitive (.word .int) },
        { name := "long", category := .primitive (.word .long) },
        { name := "int[]", category := .array, underlying := some 1 }]
      methods := #[widen] }
  let stack := (FrameStack.create 84 84).enter { totalSize := 16, maxDepth := 1 } 84
  { image
    types := (TypeTable.ofImage image).toOption.getD {}
    heap := { settings := { initialSize := 64 }, arena := .zeroed 64 }
    stack := { stack with arena := stack.arena.write 0 [5, 0, 0, 0] } }

/-- The walk asks for 56 bytes, which end where the arena does. The array and the pointer take none of
theirs, and the last of the 40 bytes that are handed out hold the result. -/
theorem confined_of_isStraight_tight : tight.Typed ∧ tight.image.BuiltinsAgree ∧ widen.IsStraight ∧
    ∃ m f, Exec.enterFrame widen "Numbers::widen" { method := 0 } tight = .ok ⟨⟩ m ∧
      m.stack.frames = f :: tight.stack.frames ∧ f.scratch = 28 ∧ f.stop = 28 + 56 ∧
      tight.stack.limit.toNat = f.stop ∧
      (∀ nested arguments,
        Run.Confined nested widen "Numbers::widen" arguments f tight.stack.frames 56 m) ∧
      (execute (fun _ => exhausted) 11 widen "Numbers::widen" [.primitive ⟨1⟩ (.stack 0)]).value? m =
        some (some (.primitive ⟨2⟩ (.stack (28 + 32)), [10, 0, 0, 0, 0, 0, 0, 0])) := by
  have htyped : tight.Typed := by
    unfold Machine.Typed
    decide +kernel
  have hagree : tight.image.BuiltinsAgree := by decide +kernel
  have hstraight : widen.IsStraight := by decide +kernel
  have henter := Exec.eq_ok_of_value? (x := Exec.enterFrame widen "Numbers::widen" { method := 0 })
    (m := tight) (a := ⟨⟩) (by decide +kernel)
  obtain ⟨sized, f, hsizing, hframes, -, -, -, hconfined⟩ :=
    confined_of_isStraight htyped hagree (r := { method := 0 }) rfl hstraight henter
  have hbytes : (tight.sizing 0).toOption.map (·.2.bytes) = some 56 := by decide +kernel
  have hplace : ((Exec.enterFrame widen "Numbers::widen" { method := 0 }).final tight).stack.frames.head?.map
      (fun f => (f.scratch, f.stop)) = some (28, 28 + 56) := by decide +kernel
  have hlimit : tight.stack.limit.toNat = 28 + 56 := by decide +kernel
  have hresult : (execute (fun _ => exhausted) 11 widen "Numbers::widen" [.primitive ⟨1⟩ (.stack 0)]).value?
      ((Exec.enterFrame widen "Numbers::widen" { method := 0 }).final tight) =
        some (some (.primitive ⟨2⟩ (.stack (28 + 32)), [10, 0, 0, 0, 0, 0, 0, 0])) := by decide +kernel
  rw [hsizing] at hbytes
  rw [hframes] at hplace
  obtain ⟨hscratch, hstop⟩ := Prod.mk.inj (Option.some.inj hplace)
  rw [show sized.bytes = 56 from Option.some.inj hbytes] at hconfined
  exact ⟨htyped, hagree, hstraight, _, f, henter, hframes, hscratch, hstop, hlimit.trans hstop.symm,
    hconfined, hresult⟩

/-- Pushes two default values of a struct of 2⁶³ bytes. -/
def doubled : Method :=
  { name := "doubled", owner := 0, returnType := 16, isStatic := true
    body := #[⟨.lddft, 15⟩, ⟨.lddft, 15⟩] }

/-- A machine for the method. -/
def wideValues : Machine :=
  let image : Image :=
    { types := (Layout.towering 15).types.push { name := "void", category := .void }
      methods := #[doubled] }
  { image
    types := (TypeTable.ofImage image).toOption.getD {}
    heap := { settings := { initialSize := 64 }, arena := .zeroed 64 }
    stack := .create 64 64 }

/-- Without overflow checks the walk comes to no bytes for the two values. The frame is given no
scratch, and the first of them finds the arena too small. -/
theorem wideValues_not_confined : wideValues.Typed ∧ wideValues.image.BuiltinsAgree ∧
    doubled.IsStraight ∧ wideValues.methodAt 0 = .ok doubled ∧ ∃ m e m',
      @Exec.enterFrame .unchecked doubled "Sixteen::doubled" { method := 0 } wideValues = .ok ⟨⟩ m ∧
      (@Machine.sizing .unchecked wideValues 0).map (·.2.bytes) = .ok 0 ∧
      @Exec.step .unchecked 2 ⟨.lddft, 15⟩ m = .error e m' ∧ e.isOverflow = true := by
  have htyped : wideValues.Typed := by
    unfold Machine.Typed
    decide +kernel
  have henter := Exec.eq_ok_of_value? (m := wideValues) (a := ⟨⟩)
    (x := @Exec.enterFrame .unchecked doubled "Sixteen::doubled" { method := 0 }) (by decide +kernel)
  generalize hm : (@Exec.enterFrame .unchecked doubled "Sixteen::doubled" { method := 0 }).final
    wideValues = m at henter
  have hoverflows : (match @Exec.step .unchecked 2 ⟨.lddft, 15⟩ m with
      | .ok .. => false
      | .error e _ => e.isOverflow) = true := by
    rw [← hm]
    decide +kernel
  cases hstep : @Exec.step .unchecked 2 ⟨.lddft, 15⟩ m with
  | ok flow m' =>
    rw [hstep] at hoverflows
    cases hoverflows
  | error e m' =>
    rw [hstep] at hoverflows
    exact ⟨htyped, by decide +kernel, by decide +kernel, by decide +kernel, m, e, m', henter,
      by decide +kernel, hstep, hoverflows⟩

end Run

end ManagedVm
