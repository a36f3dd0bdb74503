import ManagedVm.Proofs.Machine.Invocation

/-!
# The walk tells the depth of every execution

The limit of a frame's evaluation stack comes from a walk that reads the body once, from front to
back, and follows no branch. The execution of the body does follow branches. Still, if behind each
branch the walk has at most as many entries as at the branch's target, then at every place that the
execution visits, the frame holds at most as many values as the walk has entries there, and so no
push finds the evaluation stack full. If it is always the same number, then the walk tells the depth
exactly, and no pop finds the evaluation stack empty.
-/

namespace ManagedVm

/-- Enters a body: accepts the request, pushes the frame and binds the arguments. -/
def Exec.enterBody (r : Request) : Exec (Method × String) := do
  let (method, name) ← accept r
  enterFrame method name r
  bindArguments 0 r.arguments
  return (method, name)

/-- **An execution of a method**, of which the body is about to begin. The walk has accepted the
body, for otherwise there would be no frame. -/
structure Execution where
  request : Request
  method : Method
  name : String
  /-- The machine that got the request. -/
  caller : Machine
  /-- The machine in which the body begins. -/
  start : Machine
  /-- How many steps the frames of nested invocations may take. -/
  steps : Nat
  /-- How deep other invocations may be nested in this one. -/
  nesting : Nat
  hasBody : method.isNative = false
  entered : Exec.enterBody request caller = .ok (method, name) start

namespace Execution

section

variable [Host] (x : Execution)

/-- How the body invokes other methods. -/
def invoke : Run.Invoke := Run.invokeNested x.steps x.nesting

/-- Control is at a place of the body, in a machine. -/
def Visits (index : Nat) (m : Machine) : Prop :=
  Run.Visits x.invoke x.name x.method.body x.start index m

/-- The instruction at a place fails. -/
def Fails (index : Nat) (i : Instruction) (m : Machine) (e : Error) (m' : Machine) : Prop :=
  x.method.body[index]? = some i ∧
    Run.stepAt x.invoke x.name x.method.body index i m = some (.error e m')

/-- The instruction at a place did its part, and invoked a method whose body the walk refuses. -/
def Refused (index : Nat) (i : Instruction) (m : Machine) (e : Error) : Prop :=
  ∃ request p m', Exec.step x.method.body.size i (m.noting (.executing x.name index i)) =
    .ok (.invoke request p) m' ∧ x.caller.sizing request.method = .error e

/-- The run of the body. There may be no outcome, when the steps are used up. -/
def run : Option (EStateM.Result Error Machine Unit) :=
  Run.body x.invoke x.name x.method.body x.steps 0 x.start

/-- The number of entries that the walk has before an instruction. -/
def depthBefore (index : Nat) : Nat := Sizing.depthBefore x.caller x.method index

/-- Behind each branch the walk's depth is related to that at the branch's target. -/
def BranchesAgree (R : Nat → Nat → Prop) : Prop := Run.BranchesAgree R x.caller x.method

omit [Host] in
theorem entered_eq_ok : ∃ m₁ m₂, Exec.accept x.request x.caller = .ok (x.method, x.name) m₁ ∧
    Exec.enterFrame x.method x.name x.request m₁ = .ok ⟨⟩ m₂ ∧
    Exec.bindArguments 0 x.request.arguments m₂ = .ok ⟨⟩ x.start := by
  obtain ⟨⟨method, name⟩, m₁, haccept, h⟩ := Exec.bind_eq_ok.mp x.entered
  obtain ⟨_, m₂, henter, h⟩ := Exec.bind_eq_ok.mp h
  obtain ⟨_, m₃, hbind, h⟩ := Exec.bind_eq_ok.mp h
  cases h
  exact ⟨m₁, m₂, haccept, henter, hbind⟩

/-! ## The frame -/

/-- The program of the execution, the limit of its frame and the frames below. -/
def ground (s : Sizing.State) : Ground :=
  { program := x.caller, limit := s.maxDepth, below := x.caller.shape }

omit [Host] in
/-- The body begins with an empty evaluation stack, whose limit is what the walk says. -/
theorem at_start : ∃ s, x.caller.sizing x.request.method = .ok (x.method, s) ∧
    (x.ground s).At 0 x.start := by
  obtain ⟨m₁, m₂, haccept, henter, hbind⟩ := x.entered_eq_ok
  obtain ⟨hmethod, hsame⟩ := Exec.accept_eq_ok haccept
  rw [← Machine.methodAt_congr hsame.image] at hmethod
  obtain ⟨s, hsizing, hm₂⟩ := Exec.enterFrame_eq_ok hmethod henter
  rw [Machine.sizing_congr hsame.image hsame.types] at hsizing
  have hbegun : (x.ground s).At 0 m₂ :=
    ⟨hm₂.image.trans hsame.image, hm₂.types.trans hsame.types,
      hm₂.shape.trans (congrArg _ hsame.shape)⟩
  exact ⟨s, hsizing, hbegun.sameShape ((Exec.touches_bindArguments 0 x.request.arguments).keepsShape.of_ok hbind)⟩

variable {x} {s : Sizing.State} {R : Nat → Nat → Prop} {index n : Nat} {i : Instruction} {e : Error}
  {m m' : Machine}

variable [Host.Orderly]

/-- Why an instruction of the body complains about depth. -/
theorem Fails.cases (hwalk : Sizing.walk x.caller x.method x.method.body = .ok s)
    (hm : (x.ground s).At n m) (hfails : x.Fails index i m e m') (hdepth : e.isDepth = true) :
    x.Refused index i m e ∨
      ∃ (ef : Effect) (n' : Nat), ef.Done (x.depthBefore index) (x.depthBefore (index + 1)) ∧
        (x.ground s).At n' m' ∧ ef.Stops s.maxDepth n e n' := by
  obtain ⟨hi, hstep⟩ := hfails
  obtain ⟨ef, hef, hwalked⟩ := Sizing.depthBefore_succ hwalk hi
  have hm := hm.sameShape (m.sameShape_noting (.executing x.name index i))
  rcases Run.step_error (Run.returns_invokeNested x.steps x.nesting) hef hm hstep hdepth with
    ⟨n', hm', hstops⟩ | hrefused
  · exact .inr ⟨ef, n', hwalked, hm', hstops⟩
  · exact .inl hrefused

/-- **No push finds the evaluation stack full**, where it is at most as deep as the walk says. -/
theorem not_fails_overflow (hwalk : Sizing.walk x.caller x.method x.method.body = .ok s)
    (hm : (x.ground s).At n m) (hn : n ≤ x.depthBefore index) (limit : Nat) :
    ¬ x.Fails index i m (.evalStackOverflow limit) m' := by
  intro hfails
  rcases Fails.cases hwalk hm hfails rfl with
    ⟨request, p, m₁, -, hrefused⟩ | ⟨ef, n', hwalked, -, hstops⟩
  · exact (x.caller.roomy_sizing request.method _ hrefused).1 limit rfl
  · have hroom := Sizing.depthBefore_le hwalk (index + 1)
    have hgives := hwalked.depth
    unfold depthBefore at hgives hn
    dsimp only [Effect.Stops] at hstops
    omega

/-- **No pop finds the evaluation stack empty**, where it is as deep as the walk says. -/
theorem refused_of_underflow (hwalk : Sizing.walk x.caller x.method x.method.body = .ok s)
    (hm : (x.ground s).At (x.depthBefore index) m)
    (hfails : x.Fails index i m .evalStackUnderflow m') :
    x.Refused index i m .evalStackUnderflow := by
  rcases Fails.cases hwalk hm hfails rfl with hrefused | ⟨ef, n', hwalked, -, hstops⟩
  · exact hrefused
  · exact absurd hwalked.enough (Nat.not_le_of_lt hstops)

/-- A token that is missing there was looked for in a value. -/
theorem taken_of_missingTypeToken (hwalk : Sizing.walk x.caller x.method x.method.body = .ok s)
    (hm : (x.ground s).At (x.depthBefore index) m) {op : Opcode}
    (hfails : x.Fails index i m (.missingTypeToken op) m') :
    x.Refused index i m (.missingTypeToken op) ∨
      ∃ n, n + op.tokenPlace = x.depthBefore index ∧ (x.ground s).At n m' := by
  rcases Fails.cases hwalk hm hfails rfl with hrefused | ⟨ef, n', hwalked, hm', hstops | hstops⟩
  · exact .inl hrefused
  · exact absurd hwalked.enough (Nat.not_le_of_lt hstops)
  · exact .inr ⟨n', hstops, hm'⟩

theorem Visits.at (hwalk : Sizing.walk x.caller x.method x.method.body = .ok s)
    (hstart : (x.ground s).At 0 x.start) (hR : Run.Stable R) (hbranches : x.BranchesAgree R)
    (hvisits : x.Visits index m) : ∃ n, (x.ground s).At n m ∧ R n (x.depthBefore index) :=
  Run.Visits.depth (Run.returns_invokeNested x.steps x.nesting) hR hstart hwalk hbranches hvisits

omit [Host.Orderly] in
/-- A run that ends with a fault has visited the place of the fault. -/
theorem visits_of_run (hrun : x.run = some (.error (.fault x.name index i e) m')) :
    ∃ m m'', x.Visits index m ∧ x.Fails index i m e m'' := by
  cases Run.ends_of_body .start hrun with
  | failed hvisits hi hstep => exact ⟨_, _, hvisits, hi, hstep⟩

/-! ## Every execution -/

/-- **The evaluation stack is large enough**: at every place it is at most as deep as the walk says,
and no push fails. -/
structure Bounded (x : Execution) (limit : Nat) : Prop where
  depth : ∀ {index m}, x.Visits index m →
    ∃ n ≤ x.depthBefore index, m.shape = (n, limit) :: x.caller.shape
  push : ∀ {index i full m m'}, x.Visits index m → ¬ x.Fails index i m (.evalStackOverflow full) m'
  run : ∀ {index i full m'},
    x.run ≠ some (.error (.fault x.name index i (.evalStackOverflow full)) m')

/-- **The evaluation stack is as deep as the walk says**, and no pop fails. If an instruction complains
of an empty stack, the complaint is about the body of the method that it invokes. If it misses a
token, there was a value of another kind in its place, which is taken. When the result is
taken in the end, it is there or its absence is seen before. -/
structure Exact (x : Execution) (limit : Nat) : Prop where
  depth : ∀ {index m}, x.Visits index m → m.shape = (x.depthBefore index, limit) :: x.caller.shape
  pop : ∀ {index i m m'}, x.Visits index m → x.Fails index i m .evalStackUnderflow m' →
    x.Refused index i m .evalStackUnderflow
  token : ∀ {index i op m m'}, x.Visits index m → x.Fails index i m (.missingTypeToken op) m' →
    x.Refused index i m (.missingTypeToken op) ∨
      ∃ n, n + op.tokenPlace = x.depthBefore index ∧ m'.shape = (n, limit) :: x.caller.shape
  run : ∀ {index i m'}, x.run = some (.error (.fault x.name index i .evalStackUnderflow) m') →
    ∃ m, x.Visits index m ∧ x.Refused index i m .evalStackUnderflow
  result : ∀ {m m'}, x.run = some (.ok () m) →
    Exec.takeResult x.method m ≠ .error .evalStackUnderflow m'

end

/-- Loads one of two numbers, by a branch around the other one. -/
def pick : Method :=
  { name := "pick", owner := 0, returnType := 1, isStatic := true
    body := #[⟨.ldc, 0⟩, ⟨.brfalse, 4⟩, ⟨.ldc, 1⟩, ⟨.br, 5⟩, ⟨.ldc, 2⟩, ⟨.ret, 0⟩] }

/-- Picks numbers until one is large enough. -/
def poll : Method :=
  { name := "poll", owner := 0, returnType := 1, isStatic := true
    body := #[⟨.call, 0⟩, ⟨.ldc, 1⟩, ⟨.clt, 0⟩, ⟨.brtrue, 0⟩, ⟨.ldc, 1⟩, ⟨.ret, 0⟩] }

/-- A machine for the two methods, with a frame of its host. -/
def choices : Machine :=
  let image : Image :=
    { constants := #[
        ⟨.primitive .bool, 0⟩, ⟨.primitive (.word .int), 1⟩, ⟨.primitive (.word .int), 5⟩]
      pool := #[0, 7, 0, 0, 0, 9, 0, 0, 0]
      types := #[
        { name := "Choice", category := .object, isStatic := true },
        { name := "int", category := .primitive (.word .int) }]
      memberRefs := #[⟨0, .method 0⟩]
      methods := #[pick, poll] }
  { image
    types := (TypeTable.ofImage image).toOption.getD {}
    heap := { settings := { initialSize := 64 }, arena := .zeroed 64 }
    stack := (FrameStack.create 256 256).enter { totalSize := 16, maxDepth := 1 } 256 }

def picks : Execution where
  request := { method := 0 }
  method := pick
  name := "Choice::pick"
  caller := choices
  start := (Exec.enterBody { method := 0 }).final choices
  steps := 6
  nesting := 0
  hasBody := rfl
  entered := Exec.eq_ok_of_value? (by decide +kernel)

def polls : Execution where
  request := { method := 1 }
  method := poll
  name := "Choice::poll"
  caller := choices
  start := (Exec.enterBody { method := 1 }).final choices
  steps := 6
  nesting := 1
  hasBody := rfl
  entered := Exec.eq_ok_of_value? (by decide +kernel)

theorem limit_eq {x : Execution} {s : Sizing.State} {limit : Nat} (hs : x.caller.sizing x.request.method = .ok (x.method, s))
    (hlimit : (x.caller.sizing x.request.method).toOption.map (·.2.maxDepth) = some limit) :
    s.maxDepth = limit := by
  rw [hs] at hlimit
  exact Option.some.inj hlimit

end Execution

end ManagedVm
