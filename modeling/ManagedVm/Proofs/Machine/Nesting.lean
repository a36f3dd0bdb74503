import ManagedVm.Proofs.Machine.Invocation
import ManagedVm.Proofs.Machine.Touches

/-!
# Invocations keep the frames

An invocation can fail in many places: before its frame is there, while arguments are bound, in the
body, in an invocation nested in it, when the result is taken, when it is moved or when objects are
released. Whatever it comes to, the frames afterwards are those before, of which only the innermost
one has handed out more scratch, and nothing is held any more that was not held before
(`Run.keepsFrames_invokeNested`). This goes by induction on how deep invocations are nested, from what
single operations leave as it was.

An invocation that is accepted is one frame deeper than its caller. So invocations are never nested
deeper than the limit on the call depth allows, and a greater bound on their nesting changes nothing
(`Run.invokeNested_eq_invoke`).
-/

namespace ManagedVm

open scoped Naturals
open ManagedVm.Frame (Allowing Onward Steady Replaced)

/-! ## Instructions that wait -/

/-- What is held until an invocation is over. -/
def Pending.held : Pending → List Value
  | .call (some (.pointer pointee target)) _ => [.pointer pointee target]
  | .call .. => []
  | .construct created _ => [created]

/-- What is held while a body waits. -/
def Flow.held : Flow → List Value
  | .invoke _ p => p.held
  | _ => []

/-- A move keeps what is held, so it may be put back. -/
theorem Machine.Moved.withInFlight {R : Frame → Frame → Prop} {m m' : Machine} (h : m.Moved R m') :
    m.Moved R { m' with inFlight := m.inFlight } :=
  ⟨h.image, h.types, h.statics, h.settings, h.natives, rfl, h.frames, h.calls⟩

namespace Exec

variable {α : Type}

/-- **The operation moves within the innermost frame**, and holds what it waits with. -/
def Waits (x : Exec Flow) : Prop :=
  ∀ m : Machine, match x m with
    | .ok flow m' => m'.inFlight = flow.held ++ m.inFlight ∧
        m.Moved Onward { m' with inFlight := m.inFlight }
    | .error _ m' => m.Moved Onward m'

/-- But for what it holds, an operation that waits is a move. -/
theorem Waits.moved {x : Exec Flow} (hx : Waits x) (m : Machine) :
    m.Moved Onward { x.final m with inFlight := m.inFlight } := by
  have hm := hx m
  unfold final
  cases h : x m with
  | ok flow m' =>
    rw [h] at hm
    exact hm.2
  | error e m' =>
    rw [h] at hm
    exact hm.withInFlight

theorem Waits.bind {x : Exec α} {f : α → Exec Flow} (hx : Touches .values x) (hf : ∀ a, Waits (f a)) :
    Waits (x >>= f) := by
  intro m
  cases h : x m with
  | error e m' =>
    rw [bind_of_error h]
    exact (hx.onward.of_error h).1
  | ok a m' =>
    rw [bind_of_ok h]
    have hm := hx.onward.of_ok h
    have hm' := hf a m'
    cases h' : f a m' with
    | error e m'' =>
      rw [h'] at hm'
      exact hm.trans hm'
    | ok flow m'' =>
      rw [h'] at hm'
      obtain ⟨hheld, hmoved⟩ := hm'
      refine ⟨hm.inFlight ▸ hheld, ?_⟩
      rw [hm.inFlight] at hmoved
      exact hm.trans hmoved

theorem Waits.pure {flow : Flow} (h : flow.held = []) : Waits (Pure.pure flow) := by
  intro m
  refine ⟨?_, .refl m⟩
  rw [h]
  rfl

theorem Waits.pin {v : Value} {flow : Flow} (h : flow.held = [v]) :
    Waits (do
      Exec.pin v
      return flow) := by
  intro m
  refine ⟨?_, .refl m⟩
  rw [h]
  rfl

theorem Waits.ite {p : Prop} [Decidable p] {x y : Exec Flow} (hx : Waits x) (hy : Waits y) :
    Waits (if p then x else y) := by
  split
  · exact hx
  · exact hy

/-- An operation that does not wait. -/
theorem Waits.of_touches {x : Exec Flow} (hx : Touches .values x)
    (hflow : ∀ m flow m', x m = .ok flow m' → flow.held = []) : Waits x := by
  intro m
  cases h : x m with
  | error e m' => exact (hx.onward.of_error h).1
  | ok flow m' =>
    have hm := hx.onward.of_ok h
    refine ⟨?_, ?_⟩
    · rw [hflow m flow m' h]
      exact hm.inFlight
    · exact hm.withInFlight

/-- The instance of a call, unless the method is static. -/
theorem Waits.receiver {isStatic : Bool} {f : Option Value → Exec Flow} (hf : ∀ v, Waits (f v)) :
    Waits (if isStatic then Pure.pure none >>= f else (some <$> Exec.pop) >>= f) :=
  .ite (.bind (.pure none) hf) (.bind (touches_pop.map some) hf)

theorem waits_beginCall (member : Int32) : Waits (beginCall member) := by
  refine .bind (.look _) fun index => .bind (.look _) fun method => ?_
  refine .receiver fun receiver => .bind (.look _) fun bound => ?_
  refine .bind (touches_popArguments _) fun arguments => ?_
  cases receiver with
  | none => exact .pure rfl
  | some v =>
    cases v with
    | pointer pointee target => exact .pin rfl
    | primitive => exact .pure rfl
    | string => exact .pure rfl
    | struct => exact .pure rfl
    | reference => exact .pure rfl
    | array => exact .pure rfl

theorem waits_beginConstruction (typeRef : Int32) : Waits (beginConstruction typeRef) := by
  refine .bind (.look _) fun ⟨type, constructor⟩ => .bind (.look _) fun method => ?_
  refine .bind (touches_popArguments _) fun arguments => .bind (.look _) fun d => ?_
  have hrest : Waits (do
      let created ← makeDefault type
      pin created
      return Flow.invoke { method := constructor, receiver := some created, arguments }
        (.construct created arguments)) := .bind (touches_makeDefault type).lift fun created => .pin rfl
  exact .ite (.bind (.throw trivial) fun _ => hrest) hrest

/-- **Every instruction moves within its frame**, and holds what it waits with. -/
theorem waits_step (length : Nat) (i : Instruction) : Waits (step length i) := by
  obtain ⟨op, operand⟩ := i
  have hbranch : ∀ wanted, Waits (branchIf wanted operand length) := by
    intro wanted
    refine .of_touches (touches_branchIf wanted operand length) fun m flow m' h => ?_
    obtain ⟨_, _, _, h⟩ := bind_eq_ok.mp h
    obtain ⟨_, _, _, h⟩ := bind_eq_ok.mp h
    obtain ⟨truthy, _, _, h⟩ := bind_eq_ok.mp h
    obtain ⟨_, _, _, h⟩ := bind_eq_ok.mp h
    cases h
    by_cases hwanted : truthy = wanted <;> simp [hwanted, Flow.held]
  cases op
  case ret => exact .pure rfl
  case br => exact .bind (.look _) fun target => .pure rfl
  case brtrue => exact hbranch true
  case brfalse => exact hbranch false
  case call => exact waits_beginCall operand
  case newobj => exact waits_beginConstruction operand
  all_goals exact .bind (touches_perform _) fun _ => .pure rfl

/-- What is let go of is what was held. -/
theorem unpinPending_of_held {p : Pending} {m : Machine} {rest : List Value}
    (h : m.inFlight = p.held ++ rest) : unpinPending p m = .ok ⟨⟩ { m with inFlight := rest } := by
  have hsame : m.inFlight = rest → (Pure.pure ⟨⟩ : Exec PUnit) m = .ok ⟨⟩ { m with inFlight := rest } := by
    rintro rfl
    rfl
  have hunpin : m.inFlight.tail = rest → unpin m = .ok ⟨⟩ { m with inFlight := rest } := by
    rintro rfl
    rfl
  cases p with
  | construct created arguments => exact hunpin (by rw [h]; rfl)
  | call receiver arguments =>
    cases receiver with
    | none => exact hsame h
    | some v =>
      cases v with
      | pointer pointee target => exact hunpin (by rw [h]; rfl)
      | primitive => exact hsame h
      | string => exact hsame h
      | struct => exact hsame h
      | reference => exact hsame h
      | array => exact hsame h

end Exec

/-! ## Bodies -/

namespace Run

variable {nested : Invoke} {m m' : Machine}

/-- **Invocations keep the frames**, also those that fail. -/
def KeepsFrames (nested : Invoke) : Prop :=
  ∀ {r : Request} {m : Machine} {res : EStateM.Result Error Machine (Option Value)},
    nested r m = some res → m.Moved Steady (Exec.outcome res)

/-- **One instruction**, the invocation it asks for included. -/
theorem moved_step (hnested : KeepsFrames nested) {length : Nat} {i : Instruction}
    {r : EStateM.Result Error Machine Flow} (h : step nested length i m = some r) :
    m.Moved Onward (Exec.outcome r) := by
  have hwaits := Exec.waits_step length i m
  -- What is held over an invocation is let go of afterwards, and the machine is as it was.
  have hafter : ∀ {request p m₁ m₂}, Exec.step length i m = .ok (.invoke request p) m₁ →
      m₁.Moved Steady m₂ → ∃ m₃, Exec.unpinPending p m₂ = .ok ⟨⟩ m₃ ∧ m.Moved Onward m₃ := by
    intro request p m₁ m₂ hstep hmoved
    rw [hstep] at hwaits
    obtain ⟨hheld, hbefore⟩ := hwaits
    have hflight : m₂.inFlight = p.held ++ m.inFlight := hmoved.inFlight.trans hheld
    refine ⟨_, Exec.unpinPending_of_held hflight, hbefore.trans ?_⟩
    exact ⟨hmoved.image, hmoved.types, hmoved.statics, hmoved.settings, hmoved.natives, rfl,
      hmoved.onward.frames, hmoved.calls⟩
  rcases step_cases h with ⟨e, m₁, hstep, rfl⟩ | ⟨flow, m₁, hstep, hflow, rfl⟩ |
      ⟨request, p, m₁, hstep, ⟨result, m₂, hresult, rfl⟩ | ⟨e, m₂, m₃, hfail, hunpin, rfl⟩⟩
  · rw [hstep] at hwaits
    exact hwaits
  · rw [hstep] at hwaits
    obtain ⟨hheld, hmoved⟩ := hwaits
    have hnone : flow.held = [] := by
      cases flow with
      | invoke request p => exact absurd rfl (hflow request p)
      | next => rfl
      | jump => rfl
      | finish => rfl
    rw [hnone] at hheld
    exact ⟨hmoved.image, hmoved.types, hmoved.statics, hmoved.settings, hmoved.natives, hheld,
      hmoved.frames, hmoved.calls⟩
  · have hkept : m₁.Moved Steady m₂ := hnested hresult
    obtain ⟨m₃, hunpin, hmoved⟩ := hafter hstep hkept
    rw [Exec.bind_of_ok hunpin]
    have hcomplete : Exec.Touches .values (do
        Exec.complete result p
        return Flow.next) := (Exec.touches_complete result p).bind fun _ => .pure _
    exact hmoved.trans (hcomplete m₃).final.moved
  · have hkept : m₁.Moved Steady m₂ := hnested hfail
    obtain ⟨m₄, hunpin', hmoved⟩ := hafter hstep hkept
    rw [hunpin] at hunpin'
    cases hunpin'
    exact hmoved

theorem moved_stepAt (hnested : KeepsFrames nested) {name : String} {code : Array Instruction} {index : Nat}
    {i : Instruction} {r : EStateM.Result Error Machine Flow}
    (h : stepAt nested name code index i m = some r) : m.Moved Onward (Exec.outcome r) :=
  (Exec.touches_record (r := .objects) _ m).final.moved.trans (moved_step hnested h)

/-- A place that is visited is in the frame that the body began in. -/
theorem Visits.moved (hnested : KeepsFrames nested) {name : String} {code : Array Instruction} {index : Nat}
    (h : Visits nested name code m index m') : m.Moved Onward m' := by
  induction h with
  | start => exact .refl m
  | step _ _ hstep _ ih => exact ih.trans (moved_stepAt hnested hstep)

theorem touches_fail (name : String) (index : Nat) (i : Instruction) (e : Error) :
    Exec.Touches .values (fail name index i e) :=
  .ite ((Exec.touches_record _).bind fun _ => .throw trivial) (.throw trivial)

/-- **A body**, by induction on its steps. -/
theorem moved_body (hnested : KeepsFrames nested) {name : String} {code : Array Instruction}
    {steps index : Nat} {r : EStateM.Result Error Machine Unit}
    (h : body nested name code steps index m = some r) : m.Moved Onward (Exec.outcome r) := by
  induction steps generalizing index m with
  | zero =>
    unfold body at h
    cases hi : code[index]? with
    | none =>
      rw [hi] at h
      cases h
      exact .refl m
    | some i =>
      rw [hi] at h
      cases h
  | succ steps ih =>
    cases hi : code[index]? with
    | none =>
      unfold body at h
      rw [hi] at h
      cases h
      exact .refl m
    | some i =>
      rw [body_succ hi] at h
      cases hstep : stepAt nested name code index i m with
      | none =>
        rw [hstep] at h
        cases h
      | some outcome =>
        have hmoved := moved_stepAt hnested hstep
        rw [hstep] at h
        cases outcome with
        | error e m₁ =>
          rw [← Option.some.inj h]
          exact hmoved.trans (touches_fail name index i e m₁).final.moved
        | ok flow m₁ =>
          cases flow with
          | finish =>
            cases h
            exact hmoved
          | next => exact hmoved.trans (ih h)
          | jump target => exact hmoved.trans (ih h)
          | invoke request p => exact hmoved.trans (ih h)

/-- **A body with its arguments and its result.** -/
theorem moved_execute (hnested : KeepsFrames nested) {steps : Nat} {method : Method} {name : String}
    {arguments : List Value} {r : EStateM.Result Error Machine (Option (Value × List UInt8))}
    (h : execute nested steps method name arguments m = some r) : m.Moved Onward (Exec.outcome r) := by
  unfold execute at h
  rw [bind_lift] at h
  have hbind := (Exec.touches_bindArguments 0 arguments).onward
  cases hbound : Exec.bindArguments 0 arguments m with
  | error e m₁ =>
    rw [hbound] at h
    rw [← Option.some.inj h]
    exact (hbind.of_error hbound).1
  | ok u m₁ =>
    rw [hbound] at h
    dsimp only at h
    rw [bind_eq] at h
    have hm₁ := hbind.of_ok hbound
    cases hbody : body nested name method.body steps 0 m₁ with
    | none =>
      rw [hbody] at h
      cases h
    | some outcome =>
      have hm₂ := hm₁.trans (moved_body hnested hbody)
      rw [hbody] at h
      cases outcome with
      | error e m₂ =>
        rw [← Option.some.inj h]
        exact hm₂
      | ok u m₂ =>
        dsimp only at h
        rw [bind_lift_lift] at h
        rw [← Option.some.inj h]
        have htaken : Exec.Touches .values (Exec.takeResult method >>= Exec.capture) :=
          (Exec.touches_takeResult method).bind Exec.touches_capture
        exact hm₂.trans (htaken m₂).final.moved

end Run

/-! ## Frames of invocations -/

/-- The machine without its innermost frame. -/
def Machine.popped (m : Machine) : Machine :=
  { m with stack := { m.stack with frames := m.stack.frames.tail } }

/-- What moves within the innermost frame keeps what is below it. -/
theorem Machine.Moved.popped {m m' : Machine} (h : m.Moved Onward m') : m.popped.Moved Steady m'.popped where
  image := h.image
  types := h.types
  statics := h.statics
  settings := h.settings
  natives := h.natives
  inFlight := h.inFlight
  frames := by
    have htail : m'.stack.frames.tail = m.stack.frames.tail := by
      rcases hframes : m.stack.frames with _ | ⟨f, rest⟩
      · have hnone := hframes ▸ h.frames
        generalize m'.stack.frames = fs at hnone
        cases hnone
        rfl
      · obtain ⟨f', heq, -⟩ := (hframes ▸ h.frames : Replaced Onward (f :: rest) _).of_cons
        rw [heq]
        rfl
    show Replaced Steady m.stack.frames.tail m'.stack.frames.tail
    rw [htail]
    exact .refl _
  calls := h.calls

namespace Machine

variable {m m' m'' : Machine}

/-- **The machine is in the frame of the other one**, with its program and its settings. -/
structure InFrame (m m' : Machine) : Prop where
  depth : m'.stack.depth = m.stack.depth
  settings : m'.settings = m.settings
  image : m'.image = m.image
  types : m'.types = m.types

/-- **The machine is in a frame on that of the other one**, with its program and its settings. -/
structure Deeper (m m' : Machine) : Prop where
  depth : m'.stack.depth = m.stack.depth + 1
  settings : m'.settings = m.settings
  image : m'.image = m.image
  types : m'.types = m.types

theorem InFrame.trans (h : m.InFrame m') (h' : m'.InFrame m'') : m.InFrame m'' :=
  ⟨h'.depth.trans h.depth, h'.settings.trans h.settings, h'.image.trans h.image,
    h'.types.trans h.types⟩

theorem Deeper.inFrame (h : m.Deeper m') (h' : m'.InFrame m'') : m.Deeper m'' :=
  ⟨h'.depth.trans h.depth, h'.settings.trans h.settings, h'.image.trans h.image,
    h'.types.trans h.types⟩

theorem Moved.inFrame {R : Frame → Frame → Prop} (h : m.Moved R m') : m.InFrame m' :=
  ⟨h.depth_eq, h.settings, h.image, h.types⟩

theorem inFrame_noting (m : Machine) (e : Event) : m.InFrame (m.noting e) := ⟨rfl, rfl, rfl, rfl⟩

end Machine

theorem Machine.Moved.frames_ne_nil {R : Frame → Frame → Prop} {m m' : Machine} (h : m.Moved R m')
    (hframes : m.stack.frames ≠ []) : m'.stack.frames ≠ [] := by
  intro hnil
  have hlength := h.frames.length_eq
  rw [hnil] at hlength
  exact hframes (List.length_eq_zero_iff.mp hlength.symm)

/-- The last check of a request is for the call depth. -/
theorem Machine.room_of_checkRequest {m : Machine} {method : Method} {name : String} {r : Request}
    (h : m.checkRequest method name r = .ok ⟨⟩) : m.stack.depth ≤ m.settings.maxCallDepth := by
  obtain ⟨-, h⟩ := except_guard_ok.mp h
  obtain ⟨-, h⟩ := except_guard_ok.mp h
  obtain ⟨-, h⟩ := except_guard_ok.mp h
  split at h
  · cases h
  · rename_i hroom
    exact Nat.le_of_not_lt hroom

namespace Exec

theorem moves_size (index : Nat) : Moves Steady (size index) :=
  (Keeps.query fun _ _ _ => trivial).bind fun ⟨_, _⟩ =>
    (touches_record (r := .objects) _).steady.bind fun _ => .pure _

/-- **Pushing a frame** puts it on the others, or does nothing. -/
theorem pushFrame_cases (layout : FrameLayout) (m : Machine) :
    (∃ e, pushFrame layout m = .error e m) ∨
      ∃ m', pushFrame layout m = .ok ⟨⟩ m' ∧ m'.stack.frames = layout.frameAt m.stack.top :: m.stack.frames ∧
        m.Moved Steady m'.popped := by
  unfold pushFrame
  have htop : query (fun m => .ok (layout.frameAt m.stack.top)) m =
      .ok (layout.frameAt m.stack.top) m := rfl
  rw [bind_of_ok htop]
  cases hplan : m.stack.planFrame layout with
  | error e =>
    rw [bind_of_error (query_of_error hplan)]
    exact .inl ⟨e, rfl⟩
  | ok size =>
    rw [bind_of_ok (query_of_ok hplan)]
    exact .inr ⟨_, rfl, rfl, ⟨rfl, rfl, rfl, rfl, rfl, rfl, .refl _, .refl _⟩⟩

/-- Finds the layout of a method's frame. -/
def planFrame (method : Method) (name : String) (r : Request) : Exec FrameLayout := do
  let (depth, evaluation) ← size r.method
  let reserve ← query (·.nativeReserve r.method)
  let locals ← query (·.slotsOf method.locals)
  let arguments ← query (·.slotsOf method.parameters)
  let slots ← query fun _ => Size.fit .panic ((locals ++ arguments).map (·.2)).sum
  record (.framePlanned name slots evaluation reserve)
  let totalSize ← query fun _ => Size.fit .panic (slots + evaluation + reserve)
  return {
    method := some r.method
    totalSize
    maxDepth := depth
    receiver := r.receiver
    locals
    arguments }

theorem enterFrame_eq (method : Method) (name : String) (r : Request) :
    enterFrame method name r = planFrame method name r >>= pushFrame := by
  simp only [enterFrame, planFrame, bind_assoc, pure_bind]

theorem moves_planFrame (method : Method) (name : String) (r : Request) :
    Moves Steady (planFrame method name r) := by
  have hask : ∀ {α : Type} (q : Machine → Except Error α), Moves Steady (query q) :=
    fun q => .query fun _ _ _ => trivial
  refine (moves_size r.method).bind fun ⟨depth, evaluation⟩ => (hask _).bind fun reserve => ?_
  refine (hask _).bind fun locals => (hask _).bind fun arguments => (hask _).bind fun slots => ?_
  exact (touches_record (r := .objects) _).steady.bind fun _ => (hask _).bind fun _ => .pure _

/-- **Entering a frame** puts one on the others, or fails with the frames as they are. -/
theorem enterFrame_cases (method : Method) (name : String) (r : Request) (m : Machine) :
    (∃ e m', enterFrame method name r m = .error e m' ∧ m.Moved Steady m') ∨
      ∃ m', enterFrame method name r m = .ok ⟨⟩ m' ∧ m'.stack.frames ≠ [] ∧
        m.Moved Steady m'.popped := by
  have hplan : Moves Steady (planFrame method name r) := moves_planFrame method name r
  rw [enterFrame_eq]
  cases h : planFrame method name r m with
  | error e m' => exact .inl ⟨e, m', bind_of_error h, (hplan.of_error h).1⟩
  | ok layout m₁ =>
    have hm₁ := hplan.of_ok h
    rw [bind_of_ok h]
    rcases pushFrame_cases layout m₁ with ⟨e, hpush⟩ | ⟨m', hpush, hframes, hmoved⟩
    · exact .inl ⟨e, m₁, hpush, hm₁⟩
    · exact .inr ⟨m', hpush, by simp [hframes], hm₁.trans hmoved⟩

theorem enterFrame_eq_popped {method : Method} {name : String} {r : Request} {m m' : Machine}
    (h : enterFrame method name r m = .ok ⟨⟩ m') : m'.stack.frames ≠ [] ∧ m.Moved Steady m'.popped := by
  rcases enterFrame_cases method name r m with ⟨e, m₁, henter, -⟩ | ⟨m₁, henter, hframes, hm₁⟩
  · rw [h] at henter
    cases henter
  · rw [h] at henter
    cases henter
    exact ⟨hframes, hm₁⟩

/-- **What is left to do once the frame is gone** moves within the frame below. -/
theorem moves_afterFrame (references : List Address) (captured : Option (Value × List UInt8)) :
    Moves Steady (afterFrame references captured) := by
  unfold afterFrame
  split
  · exact (touches_release (r := .objects) references).steady.bind fun _ => .pure none
  · refine (touches_rehome _ _).steady.bind fun v => ?_
    have hpinned := moves_pinned (touches_release (r := .objects) references).steady v
    exact (congrArg (Moves Steady) (bind_assoc _ _ _)).mp (hpinned.bind fun _ => .pure (some v))

/-- **Leaving a frame** takes it off; what is left to do begins without it. -/
theorem leaveFrame_popped {m : Machine} (hframes : m.stack.frames ≠ []) :
    ∃ m₁, m.popped.Moved Steady m₁ ∧ ∀ result, leaveFrame result m = (do
      let captured ← query fun _ => result
      let references ← query fun _ => m.frameReferences
      afterFrame references captured : Exec (Option Value)) m₁ := by
  obtain ⟨f, rest, hcons⟩ := List.exists_cons_of_ne_nil hframes
  have hreferences : query (fun m => .ok m.frameReferences) m = .ok m.frameReferences m := rfl
  obtain ⟨m₁, hpop, hm₁⟩ : ∃ m₁, discard popFrame m = .ok ⟨⟩ m₁ ∧ m.popped.Moved Steady m₁ := by
    have hquery : query (·.stack.popFrame) m = .ok (f, { m.stack with frames := rest }) m := by
      refine query_of_ok ?_
      unfold FrameStack.popFrame
      rw [hcons]
    have hpop : popFrame m = _ := bind_of_ok hquery
    refine ⟨_, discard_of_ok hpop, rfl, rfl, rfl, rfl, rfl, rfl, ?_, .refl _⟩
    show Replaced Steady m.stack.frames.tail rest
    rw [hcons]
    exact .refl _
  refine ⟨m₁, hm₁, fun result => ?_⟩
  rw [leaveFrame_eq, bind_of_ok hreferences, bind_of_ok hpop]

theorem moved_leaveFrame {m : Machine} (hframes : m.stack.frames ≠ [])
    (result : Except Error (Option (Value × List UInt8))) :
    m.popped.Moved Steady ((leaveFrame result).final m) := by
  obtain ⟨m₁, hm₁, hleave⟩ := leaveFrame_popped hframes
  unfold final
  rw [hleave]
  have hafter : Moves Steady (do
      let captured ← query fun _ => result
      let references ← query fun _ => m.frameReferences
      afterFrame references captured) :=
    (Keeps.query fun _ _ _ => trivial).bind fun captured =>
      (Keeps.query fun _ _ _ => trivial).bind fun references => moves_afterFrame references captured
  exact hm₁.trans (hafter m₁).final

/-- A new frame is one more. -/
theorem depth_of_popped {m m' : Machine} (hframes : m'.stack.frames ≠ [])
    (h : m.Moved Steady m'.popped) : m'.stack.depth = m.stack.depth + 1 := by
  rw [← h.depth_eq]
  obtain ⟨f, rest, hcons⟩ := List.exists_cons_of_ne_nil hframes
  show m'.stack.frames.length = m'.stack.frames.tail.length + 1
  rw [hcons]
  rfl

/-- A request is accepted only if there is room for one more frame. -/
theorem room_of_accept {r : Request} {m m' : Machine} {accepted : Method × String}
    (h : accept r m = .ok accepted m') : m.stack.depth ≤ m.settings.maxCallDepth := by
  obtain ⟨-, -, hcheck, -⟩ := accepted_of_accept h
  exact Machine.room_of_checkRequest hcheck

/-- The body of an accepted request runs one frame deeper. -/
theorem deeper_of_enterFrame {r : Request} {method : Method} {name : String} {m m₁ m₂ : Machine}
    (haccept : accept r m = .ok (method, name) m₁)
    (henter : enterFrame method name r m₁ = .ok ⟨⟩ m₂) : m.Deeper m₂ := by
  have hm₁ := (touches_accept (r := .objects) r).steady.of_ok haccept
  obtain ⟨hframes, hm₂⟩ := enterFrame_eq_popped henter
  refine ⟨?_, hm₂.settings.trans hm₁.settings, hm₂.image.trans hm₁.image, hm₂.types.trans hm₁.types⟩
  rw [depth_of_popped hframes hm₂, hm₁.depth_eq]

theorem inFrame_of_invoke {length : Nat} {i : Instruction} {request : Request} {p : Pending}
    {m m' : Machine} (h : step length i m = .ok (.invoke request p) m') : m.InFrame m' := by
  have hwaits := waits_step length i m
  rw [h] at hwaits
  obtain ⟨-, hmoved⟩ := hwaits
  exact ⟨hmoved.depth_eq, hmoved.settings, hmoved.image, hmoved.types⟩

end Exec

/-! ## Invocations -/

namespace Run

section

variable [Host] [Host.Orderly]

/-- **One invocation keeps the frames**, if those nested in it do. -/
theorem keepsFrames_invokeOne {nested : Invoke} (hnested : KeepsFrames nested) (steps : Nat) :
    KeepsFrames (invokeOne nested steps) := by
  intro r m res h
  have haccept := (Exec.touches_accept (r := .objects) r).steady
  rcases invokeOne_cases h with ⟨e, m₁, hrefused, rfl⟩ | ⟨method, name, m₁, haccepted, hcases⟩
  · exact (haccept.of_error hrefused).1
  have hm₁ := haccept.of_ok haccepted
  rcases hcases with ⟨-, rfl⟩ | ⟨e, m₂, hfail, rfl⟩ | ⟨m₂, m₃, henter, hcases⟩
  · exact hm₁.trans ((Exec.touches_invokeNative method name r).steady m₁).final
  · rcases Exec.enterFrame_cases method name r m₁ with ⟨e', m', henter, hm'⟩ | ⟨m', henter, -, -⟩
    · rw [hfail] at henter
      cases henter
      exact hm₁.trans hm'
    · rw [hfail] at henter
      cases henter
  · obtain ⟨hframes, hm₂⟩ := Exec.enterFrame_eq_popped henter
    -- The body goes on in the new frame, and what is below it stays.
    have hleave : m₂.Moved Onward m₃ → ∀ result, m.Moved Steady ((Exec.leaveFrame result).final m₃) := by
      intro hm₃ result
      have hm₃' := Exec.moved_leaveFrame (hm₃.frames_ne_nil hframes) result
      exact hm₁.trans (hm₂.trans (hm₃.popped.trans hm₃'))
    rcases hcases with ⟨captured, hexecute, rfl⟩ | ⟨e, hexecute, rfl⟩
    · exact hleave (moved_execute hnested hexecute) (.ok captured)
    · exact hleave (moved_execute hnested hexecute) (.error e)

/-- **Invocations keep the frames**, however deep they are nested. -/
theorem keepsFrames_invokeNested (steps depth : Nat) : KeepsFrames (invokeNested steps depth) := by
  induction depth with
  | zero =>
    intro r m res h
    cases h
  | succ depth ih => exact keepsFrames_invokeOne ih steps

end

/-! ## The nesting is bounded by the call depth -/

variable {nested nested' : Invoke} {m : Machine}

/-- **Two ways to invoke agree on invocations from the frame of the machine.** -/
def Agree (nested nested' : Invoke) (m : Machine) : Prop :=
  ∀ (r : Request) (m' : Machine), m.InFrame m' → nested r m' = nested' r m'

theorem Agree.inFrame {m' : Machine} (h : Agree nested nested' m) (hm : m.InFrame m') :
    Agree nested nested' m' :=
  fun r m'' hm' => h r m'' (hm.trans hm')

theorem step_congr (h : Agree nested nested' m) (length : Nat) (i : Instruction) :
    step nested length i m = step nested' length i m := by
  unfold step
  rw [bind_lift, bind_lift]
  cases hstep : Exec.step length i m with
  | error e m₁ => rfl
  | ok flow m₁ =>
    cases flow with
    | next => rfl
    | jump target => rfl
    | finish => rfl
    | invoke request p =>
      dsimp only
      rw [bind_attempt, bind_attempt, h request m₁ (Exec.inFrame_of_invoke hstep)]

theorem body_congr (hnested : KeepsFrames nested) {name : String} {code : Array Instruction}
    (steps index : Nat) (h : Agree nested nested' m) :
    body nested name code steps index m = body nested' name code steps index m := by
  induction steps generalizing index m with
  | zero =>
    unfold body
    cases code[index]? with
    | none => rfl
    | some i => rfl
  | succ steps ih =>
    cases hi : code[index]? with
    | none =>
      unfold body
      rw [hi]
    | some i =>
      have hstep : stepAt nested name code index i m = stepAt nested' name code index i m :=
        step_congr (h.inFrame (m.inFrame_noting _)) code.size i
      rw [body_succ hi, body_succ hi, ← hstep]
      cases houtcome : stepAt nested name code index i m with
      | none => rfl
      | some outcome =>
        have hmoved := moved_stepAt hnested houtcome
        cases outcome with
        | error e m₁ => rfl
        | ok flow m₁ =>
          cases flow with
          | finish => rfl
          | next => exact ih (index + 1) (h.inFrame hmoved.inFrame)
          | jump target => exact ih target (h.inFrame hmoved.inFrame)
          | invoke request p => exact ih (index + 1) (h.inFrame hmoved.inFrame)

theorem execute_congr (hnested : KeepsFrames nested) (h : Agree nested nested' m) (steps : Nat)
    (method : Method) (name : String) (arguments : List Value) :
    execute nested steps method name arguments m = execute nested' steps method name arguments m := by
  unfold execute
  rw [bind_lift, bind_lift]
  cases hbound : Exec.bindArguments 0 arguments m with
  | error e m₁ => rfl
  | ok u m₁ =>
    have hm₁ := (Exec.touches_bindArguments 0 arguments).steady.of_ok hbound
    dsimp only
    rw [bind_eq, bind_eq, body_congr hnested steps 0 (h.inFrame hm₁.inFrame)]

variable [Host]

/-- **What is invoked from the new frame decides what an invocation does.** -/
theorem invokeOne_congr (hnested : KeepsFrames nested) (steps : Nat) {r : Request}
    (h : m.stack.depth ≤ m.settings.maxCallDepth → ∀ request m', m.Deeper m' →
      nested request m' = nested' request m') :
    invokeOne nested steps r m = invokeOne nested' steps r m := by
  unfold invokeOne
  rw [bind_lift, bind_lift]
  cases haccept : Exec.accept r m with
  | error e m₁ => rfl
  | ok accepted m₁ =>
    obtain ⟨method, name⟩ := accepted
    have hroom := Exec.room_of_accept haccept
    dsimp only
    by_cases hnative : method.isNative = true
    · rw [if_pos hnative, if_pos hnative]
    rw [if_neg hnative, if_neg hnative, bind_lift, bind_lift]
    cases henter : Exec.enterFrame method name r m₁ with
    | error e m₂ => rfl
    | ok u m₂ =>
      have hagree : Agree nested nested' m₂ := fun request m' hm' =>
        h hroom request m' ((Exec.deeper_of_enterFrame haccept henter).inFrame hm')
      dsimp only
      rw [bind_attempt, bind_attempt, execute_congr hnested hagree]

variable [Host.Orderly]

/-- One more level of nesting changes nothing where there are enough. -/
theorem invokeNested_succ (steps : Nat) {depth : Nat} {r : Request}
    (h : m.settings.maxCallDepth < m.stack.depth + depth) :
    invokeNested steps (depth + 2) r m = invokeNested steps (depth + 1) r m := by
  induction depth generalizing r m with
  | zero =>
    refine invokeOne_congr (keepsFrames_invokeNested steps 1) steps fun hroom => ?_
    omega
  | succ depth ih =>
    refine invokeOne_congr (keepsFrames_invokeNested steps (depth + 2)) steps ?_
    intro hroom request m' hm'
    refine ih ?_
    rw [hm'.depth, hm'.settings]
    omega

/-- **The nesting never reaches its bound**: a greater one changes nothing. -/
theorem invokeNested_eq_invoke (steps : Nat) {depth : Nat} (r : Request)
    (h : m.settings.maxCallDepth + 2 ≤ depth) :
    invokeNested steps depth r m = invoke steps r m := by
  obtain ⟨more, rfl⟩ := Nat.exists_eq_add_of_le h
  unfold invoke
  induction more with
  | zero => rfl
  | succ more ih =>
    rw [← ih (by omega)]
    have hsucc : invokeNested steps (m.settings.maxCallDepth + more + 1 + 2) r m =
        invokeNested steps (m.settings.maxCallDepth + more + 1 + 1) r m :=
      invokeNested_succ steps (by omega)
    have hmore : m.settings.maxCallDepth + 2 + more = m.settings.maxCallDepth + more + 1 + 1 := by
      omega
    rw [← Nat.add_assoc, hmore]
    exact hsucc

end Run

end ManagedVm
