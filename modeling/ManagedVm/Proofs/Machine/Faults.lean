import ManagedVm.Proofs.Machine.Nesting

/-!
# A fault is a trace of the calls

A body that fails wraps its method, the place and the instruction around the error, and so does the
body that has invoked it. Nothing else wraps an error: no query, no operation of an instruction, no
native and no refusal does. So the places around an error are those of the bodies that were under way
(`Machine.Traces`): the outermost one is in the method that was invoked, and each one that is wrapped
around another is that of an instruction which invokes the other one's method.

Each of these bodies has a frame of its own, so the limit on the call depth bounds how many places
there can be (`Run.tracing_invokeNested`, by induction on how deep invocations are nested).
-/

namespace ManagedVm

theorem Error.faults_of_not_isFault {e : Error} (h : e.isFault = false) : e.faults = 0 := by
  cases e with
  | fault => cases h
  | _ => rfl

namespace Machine

variable {m m' : Machine} {i : Instruction} {index callee : Nat} {e : Error}

/-- **The instruction invokes the method**: it calls it, or it constructs an instance with it. -/
inductive Invokes (m : Machine) (i : Instruction) (callee : Nat) : Prop
  | call : i.op = .call → m.methodOf i.operand = .ok callee → Invokes m i callee
  | construct {type : TypeId} :
      i.op = .newobj → m.constructorOf i.operand = .ok (type, callee) → Invokes m i callee

/-- **The error traces an invocation of the method.** -/
inductive Traces (m : Machine) : Nat → Error → Prop
  /-- No instruction of the method's body has failed. -/
  | cause {index : Nat} {e : Error} : e.isFault = false → Traces m index e
  /-- An instruction of the method's body has failed, and none that it has led to. -/
  | raised {index place : Nat} {method : Method} {i : Instruction} {e : Error} :
      m.methodAt index = .ok method → method.body[place]? = some i → e.isFault = false →
        Traces m index (.fault (m.qualifiedName method) place i e)
  /-- An instruction of the method's body has invoked a method, in whose body one has failed. -/
  | passed {index place callee : Nat} {method : Method} {i : Instruction} {e : Error} :
      m.methodAt index = .ok method → method.body[place]? = some i → e.isFault = true →
        m.Invokes i callee → Traces m callee e →
        Traces m index (.fault (m.qualifiedName method) place i e)

theorem qualifiedName_congr (htypes : m'.types = m.types) : m'.qualifiedName = m.qualifiedName := by
  funext method
  unfold qualifiedName typeName
  rw [declaredType_congr htypes, htypes]

/-! Both depend on the program only. -/

theorem Invokes.congr (himage : m'.image = m.image) (htypes : m'.types = m.types)
    (h : m'.Invokes i callee) : m.Invokes i callee := by
  cases h with
  | call hop hmethod =>
    rw [methodOf_congr himage] at hmethod
    exact .call hop hmethod
  | construct hop hconstructor =>
    rw [constructorOf_congr himage htypes] at hconstructor
    exact .construct hop hconstructor

theorem Traces.congr (himage : m'.image = m.image) (htypes : m'.types = m.types)
    (h : m'.Traces index e) : m.Traces index e := by
  induction h with
  | cause hcause => exact .cause hcause
  | raised hmethod hi hcause =>
    rw [methodAt_congr himage] at hmethod
    rw [qualifiedName_congr htypes]
    exact .raised hmethod hi hcause
  | passed hmethod hi hfault hinvokes _ ih =>
    rw [methodAt_congr himage] at hmethod
    rw [qualifiedName_congr htypes]
    exact .passed hmethod hi hfault (hinvokes.congr himage htypes) ih

end Machine

namespace Exec

variable {m m' : Machine} {i : Instruction} {length : Nat}

theorem invokes_of_step {request : Request} {p : Pending}
    (h : step length i m = .ok (.invoke request p) m') : m.Invokes i request.method := by
  cases leads_of_step h with
  | call hop hmethod => exact .call hop hmethod
  | construct hop hconstructor => exact .construct hop hconstructor

/-- A frame that cannot be entered wraps no error. -/
theorem not_isFault_of_enterFrame {method : Method} {name : String} {r : Request} {e : Error}
    (h : enterFrame method name r m = .error e m') : e.isFault = false := by
  by_cases hplain : e.isPlain = true
  · exact (Error.isPlain_iff.mp hplain).2
  · exact (m.roomy_sizing r.method e (enterFrame_eq_error h hplain)).2

end Exec

namespace Run

variable {nested : Invoke} {m : Machine}

/-- **An instruction fails with a fault** only if what it has invoked has failed with it. -/
theorem invokes_of_isFault {g : Ground} {ef : Effect} {n length : Nat} {i : Instruction} {e : Error}
    {m' : Machine} (hnested : Returns nested) (hef : g.program.effect i = .ok ef) (hm : g.At n m)
    (h : step nested length i m = some (.error e m')) (hfault : e.isFault = true) :
    ∃ request m₁ m₂, m.Invokes i request.method ∧ m.InFrame m₁ ∧
      nested request m₁ = some (.error e m₂) := by
  rcases step_cases h with ⟨e', m₁, hstep, hr⟩ | ⟨flow, m₁, -, -, hr⟩ |
      ⟨request, p, m₁, hstep, ⟨result, m₂, hresult, hr⟩ | ⟨e', m₂, m₃, hfail, -, hr⟩⟩
  · cases hr
    simp [(stops_of_step hef hm hstep).1] at hfault
  · cases hr
  · obtain ⟨n₁, hm₂, hdoes⟩ := does_after_invoke hnested hef hm hstep hresult
    have hrun := hdoes m₂ hm₂
    rw [← hr] at hrun
    simp [hrun.1] at hfault
  · cases hr
    exact ⟨request, m₁, m₂, Exec.invokes_of_step hstep, Exec.inFrame_of_invoke hstep, hfail⟩

/-- **Invocations fail with traces**, whose places are at most as many as the frames there is room
for. -/
def Tracing (nested : Invoke) : Prop :=
  ∀ {r : Request} {m m' : Machine} {e : Error}, nested r m = some (.error e m') →
    m.Traces r.method e ∧ e.faults ≤ m.settings.maxCallDepth + 1 - m.stack.depth

/-- **A body fails with a trace** of its method, one place longer than those of what it invokes. -/
theorem Ends.traces {g : Ground} {method : Method} {s : Sizing.State} {index : Nat} {e : Error}
    {caller m' : Machine} (hreturns : Returns nested) (hkeeps : KeepsFrames nested) (hnested : Tracing nested)
    (hcaller : caller.Deeper m) (hmethod : caller.methodAt index = .ok method)
    (hroom : caller.stack.depth ≤ caller.settings.maxCallDepth)
    (hm : g.At 0 m) (hwalk : Sizing.walk g.program method method.body = .ok s)
    (hends : Ends nested (caller.qualifiedName method) method.body m (.error e m')) :
    caller.Traces index e ∧
      e.faults ≤ caller.settings.maxCallDepth + 1 - caller.stack.depth := by
  cases hends with
  | @failed place i e m₁ m₂ _ hvisits hi hstep =>
    obtain ⟨n, hm₁, -⟩ := hvisits.depth hreturns stable_true hm hwalk (fun _ _ _ _ _ _ => trivial)
    obtain ⟨ef, hef, -⟩ := Sizing.depthBefore_succ hwalk hi
    have hnoting := hm₁.sameShape (m₁.sameShape_noting (.executing (caller.qualifiedName method) place i))
    simp only [Error.faults]
    cases hfault : e.isFault with
    | false =>
      refine ⟨.raised hmethod hi hfault, ?_⟩
      rw [Error.faults_of_not_isFault hfault]
      omega
    | true =>
      obtain ⟨request, m₃, m₄, hinvokes, hframe, hfail⟩ :=
        invokes_of_isFault hreturns hef hnoting hstep hfault
      have hhere : caller.Deeper (m₁.noting (.executing (caller.qualifiedName method) place i)) :=
        (hcaller.inFrame (hvisits.moved hkeeps).inFrame).inFrame (m₁.inFrame_noting _)
      have hthere := hhere.inFrame hframe
      obtain ⟨htraces, hfaults⟩ := hnested hfail
      rw [hthere.depth, hthere.settings] at hfaults
      refine ⟨.passed hmethod hi hfault (hinvokes.congr hhere.image hhere.types)
        (htraces.congr hthere.image hthere.types), ?_⟩
      omega

section

variable [Host] [Host.Orderly]

/-- **One invocation fails with a trace**, if those nested in it do. -/
theorem tracing_invokeOne (hreturns : Returns nested) (hkeeps : KeepsFrames nested)
    (hnested : Tracing nested) (steps : Nat) : Tracing (invokeOne nested steps) := by
  intro r m m' e h
  cases hfault : e.isFault with
  | false => exact ⟨.cause hfault, by simp [Error.faults_of_not_isFault hfault]⟩
  | true =>
    -- Only the body wraps an error, and what comes before and after it does not.
    have he := Error.not_isPlain_of_isFault hfault
    rcases invokeOne_cases h with ⟨e', m₁, haccept, hr⟩ | ⟨method, name, m₁, haccept, hcases⟩
    · cases hr
      exact absurd ((Exec.touches_accept (r := .objects) r).keepsShape.of_error haccept).2 he
    rcases hcases with ⟨-, hr⟩ | ⟨e', m₂, henter, hr⟩ |
      ⟨m₂, m₃, henter, ⟨captured, -, hr⟩ | ⟨e', hexecute, hr⟩⟩
    · exact absurd ((Exec.touches_invokeNative method name r).keepsShape.of_error hr.symm).2 he
    · cases hr
      simp [Exec.not_isFault_of_enterFrame henter] at hfault
    · cases Exec.leaveFrame_eq_error hr.symm he
    · cases Exec.leaveFrame_eq_error hr.symm he
      obtain ⟨hmethod, hname, -, -⟩ := Exec.accepted_of_accept haccept
      obtain ⟨-, hsame⟩ := Exec.accept_eq_ok haccept
      subst hname
      have hdeeper := Exec.deeper_of_enterFrame haccept henter
      obtain ⟨s, hsizing, hm₂⟩ :=
        Exec.enterFrame_eq_ok (by rwa [Machine.methodAt_congr hsame.image]) henter
      obtain ⟨-, hwalk⟩ := Machine.sizing_eq_ok hsizing
      obtain ⟨m₄, hbind, hends⟩ := execute_eq_error hreturns hm₂ hwalk hexecute he
      have hbind' := (Exec.touches_bindArguments 0 r.arguments).steady.of_ok hbind
      exact hends.traces hreturns hkeeps hnested (hdeeper.inFrame hbind'.inFrame) hmethod
        (Exec.room_of_accept haccept) (hm₂.sameShape hbind'.sameShape) hwalk

/-- **Invocations fail with traces**, however deep they are nested. -/
theorem tracing_invokeNested (steps depth : Nat) : Tracing (invokeNested steps depth) := by
  induction depth with
  | zero =>
    intro r m m' e h
    cases h
  | succ depth ih =>
    exact tracing_invokeOne (returns_invokeNested steps depth) (keepsFrames_invokeNested steps depth) ih steps

/-! ## The main statement -/

end

/-- The error that a run fails with, if it fails. -/
def error? {α : Type} (x : Run α) (m : Machine) : Option Error :=
  match x m with
  | some (.error e _) => some e
  | _ => none

theorem eq_error_of_error? {α : Type} {x : Run α} {e : Error} (h : x.error? m = some e) :
    ∃ m', x m = some (.error e m') := by
  unfold error? at h
  split at h
  · rename_i m' hx
    cases h
    exact ⟨m', hx⟩
  · cases h

/-- A method that constructs an instance, a constructor that calls a method, and a method that divides
by zero, with room for these three frames beside that of the host. -/
def dividing : Machine :=
  let image : Image :=
    { constants := #[⟨.primitive (.word .int), 0⟩]
      pool := #[0, 0, 0, 0]
      types := #[
        { name := "Main", category := .object, isStatic := true },
        { name := "void", category := .void },
        { name := "Ratio", category := .object },
        { name := "int", category := .primitive (.word .int) }]
      typeRefs := #[⟨2, 0⟩]
      memberRefs := #[⟨2, .method 1⟩, ⟨0, .method 2⟩]
      methods := #[
        { name := "main", owner := 0, returnType := 2, isStatic := true
          body := #[⟨.nop, 0⟩, ⟨.newobj, 0⟩, ⟨.ret, 0⟩] },
        { name := "new", owner := 2, returnType := 1, isConstructor := true
          body := #[⟨.call, 1⟩, ⟨.ret, 0⟩] },
        { name := "divide", owner := 0, returnType := 1, isStatic := true
          body := #[⟨.ldc, 0⟩, ⟨.ldc, 0⟩, ⟨.div, 0⟩, ⟨.brtrue, 4⟩, ⟨.ret, 0⟩] }] }
  { image
    types := (TypeTable.ofImage image).toOption.getD {}
    settings := { maxCallDepth := 3 }
    heap := { settings := { initialSize := 64 }, arena := .zeroed 64 }
    stack := (FrameStack.create 256 256).enter { totalSize := 16, maxDepth := 1 } 256 }

/-- The trace leads from the construction through the call to the division. -/
def divided : Error :=
  .fault "Main::main" 1 ⟨.newobj, 0⟩
    (.fault "Ratio::new" 0 ⟨.call, 1⟩ (.fault "Main::divide" 2 ⟨.div, 0⟩ .divisionByZero))

end Run

end ManagedVm
