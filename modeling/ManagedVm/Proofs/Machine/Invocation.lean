import ManagedVm.Proofs.Machine.Body

/-!
# Invocations leave the frames below alone

An invocation pushes a frame, runs a body in it and pops it, or runs a native. The frames below have
their old shape afterwards, and there is a result exactly if the method returns one
(`Run.returns_invokeNested`), by induction on how deep invocations are nested. An invocation that
complains about depth, with no fault around the complaint, was refused: the walk over the method's
body failed with that error, and no frame was entered.
-/

namespace ManagedVm

/-! ## Entering and leaving a frame -/

namespace Exec

theorem raisesPlain_pushFrame (layout : FrameLayout) : RaisesPlain (pushFrame layout) := by
  refine (Keeps.read _).bind fun f => (Keeps.query fun m e h => ?_).bind fun size => ?_
  · rw [FrameStack.planFrame_checked] at h
    exact m.stack.isPlain_of_reserve h
  · refine (Keeps.read _).bind fun number => (Keeps.modify fun _ => trivial).bind fun _ => ?_
    exact Keeps.modify fun _ => trivial

/-- **What entering a frame does**: nothing but to put the frame of a layout on the stack, with the
scratch that the walk asks for. -/
theorem enterFrame_eq_entered {method : Method} {name : String} {r : Request} {m m' : Machine}
    (h : enterFrame method name r m = .ok ⟨⟩ m') :
    ∃ method' sized layout size journal, m.sizing r.method = .ok (method', sized) ∧
      layout.maxDepth = sized.maxDepth ∧ layout.slotBytes + sized.bytes ≤ layout.totalSize ∧
      m.slotsOf method.locals = .ok layout.locals ∧
      m.slotsOf method.parameters = .ok layout.arguments ∧
      m.stack.reserve (layout.frameAt m.stack.top).stop = .ok size ∧
      m' = { m with journal, stack := m.stack.enter layout size } := by
  obtain ⟨⟨depth, evaluation⟩, m₁, hsize, h⟩ := bind_eq_ok.mp h
  obtain ⟨⟨method', sized⟩, m₀, hquery, hsize⟩ := bind_eq_ok.mp hsize
  obtain ⟨hsizing, rfl⟩ := query_eq_ok.mp hquery
  cases hsize
  obtain ⟨reserve, m₂, hreserve, h⟩ := bind_eq_ok.mp h
  obtain ⟨-, rfl⟩ := query_eq_ok.mp hreserve
  obtain ⟨locals, m₃, hquery, h⟩ := bind_eq_ok.mp h
  obtain ⟨hlocals, rfl⟩ := query_eq_ok.mp hquery
  obtain ⟨arguments, m₄, hquery, h⟩ := bind_eq_ok.mp h
  obtain ⟨harguments, rfl⟩ := query_eq_ok.mp hquery
  obtain ⟨slots, m₅, hquery, h⟩ := bind_eq_ok.mp h
  obtain ⟨hslots, rfl⟩ := query_eq_ok.mp hquery
  obtain ⟨-, rfl⟩ := Size.fit_eq_ok.mp hslots
  obtain ⟨_, m₆, hrecord, h⟩ := bind_eq_ok.mp h
  cases hrecord
  obtain ⟨total, m₇, hquery, h⟩ := bind_eq_ok.mp h
  obtain ⟨htotal, rfl⟩ := query_eq_ok.mp hquery
  obtain ⟨-, rfl⟩ := Size.fit_eq_ok.mp htotal
  obtain ⟨size, journal, hsize, rfl⟩ := pushFrame_eq_ok h
  refine ⟨method', sized, _, size, _, hsizing, ?_, ?_, ?_, ?_, ?_, rfl⟩
  · rfl
  · exact Nat.le_add_right _ reserve
  · exact hlocals
  · exact harguments
  · exact hsize

theorem enterFrame_eq_ok {method : Method} {name : String} {r : Request} {m m' : Machine}
    (hmethod : m.methodAt r.method = .ok method) (h : enterFrame method name r m = .ok ⟨⟩ m') :
    ∃ s, m.sizing r.method = .ok (method, s) ∧
      ({ program := m, limit := s.maxDepth, below := m.shape } : Ground).At 0 m' := by
  obtain ⟨method', s, layout, size, journal, hsizing, hlimit, -, -, -, -, rfl⟩ := enterFrame_eq_entered h
  obtain rfl := Except.ok.inj (hmethod.symm.trans (Machine.sizing_eq_ok hsizing).1)
  refine ⟨s, hsizing, rfl, rfl, ?_⟩
  rw [← hlimit]
  rfl

/-- A frame is refused with an error that is not plain only by the walk. -/
theorem enterFrame_eq_error {method : Method} {name : String} {r : Request} {m m' : Machine}
    {e : Error} (h : enterFrame method name r m = .error e m') (he : ¬ e.isPlain = true) :
    m.sizing r.method = .error e := by
  rcases bind_eq_error.mp h with h | ⟨⟨depth, evaluation⟩, m₁, -, h⟩
  · rcases bind_eq_error.mp h with h | ⟨⟨_, _⟩, m₁, -, h⟩
    · exact (query_eq_error.mp h).1
    · cases h
  · have hplain : RaisesPlain (do
        let reserve ← query (·.nativeReserve r.method)
        let locals ← query (·.slotsOf method.locals)
        let arguments ← query (·.slotsOf method.parameters)
        let slots ← query fun _ => Size.fit .panic ((locals ++ arguments).map (·.2)).sum
        record (.framePlanned name slots evaluation reserve)
        let totalSize ← query fun _ => Size.fit .panic (slots + evaluation + reserve)
        pushFrame
          { method := some r.method
            totalSize
            maxDepth := depth
            receiver := r.receiver
            locals
            arguments }) := by
      refine (Keeps.query fun m _ => (m.raisesData_nativeReserve r.method).isPlain).bind fun reserve => ?_
      refine (Keeps.query fun m _ => (m.raisesData_slotsOf method.locals).isPlain).bind fun locals => ?_
      refine (Keeps.query fun m _ => (m.raisesData_slotsOf method.parameters).isPlain).bind fun arguments => ?_
      refine (Keeps.query fun _ _ => (RaisesData.fit _).isPlain).bind fun slots => ?_
      refine (Keeps.modify fun _ => trivial).bind fun _ => ?_
      exact (Keeps.query fun _ _ => (RaisesData.fit _).isPlain).bind fun _ => raisesPlain_pushFrame _
    exact absurd (hplain.of_error h).2 he

theorem capture_eq_ok {result : Option Value} {captured : Option (Value × List UInt8)} {m m' : Machine}
    (h : capture result m = .ok captured m') : captured.isSome = result.isSome := by
  unfold capture at h
  split at h
  · cases h
    rfl
  · split at h
    · cases h
      rfl
    · obtain ⟨_, _, _, h⟩ := bind_eq_ok.mp h
      cases h
      rfl

/-- **The result of a body**: a value exactly if the method returns one. -/
theorem takeResult_at {g : Ground} {n : Nat} {m : Machine} (hm : g.At n m) (method : Method) :
    match takeResult method m with
    | .ok result m' => (∃ n', g.At n' m') ∧ m.returnsValue method = .ok result.isSome
    | .error e _ => e.isPlain = true := by
  obtain ⟨f, rest, hframes, hdepth, -⟩ := frame_at hm
  have hframe : currentFrame m = .ok f m := query_of_ok (current_of_frames hframes)
  unfold takeResult
  rw [bind_of_ok hframe]
  cases hreturns : m.returnsValue method with
  | error e =>
    rw [bind_of_error (query_of_error hreturns)]
    exact (m.raisesData_returnsValue method).isPlain hreturns
  | ok returns =>
    rw [bind_of_ok (query_of_ok hreturns), hdepth]
    cases returns with
    | false =>
      cases n with
      | zero => exact ⟨⟨0, hm⟩, rfl⟩
      | succ n => rfl
    | true =>
      match n, hm with
      | 0, _ => rfl
      | n + 2, _ => rfl
      | 1, hm =>
        rcases pop_at hm with ⟨hzero, -⟩ | ⟨v, m', k, -, hpop, hm'⟩
        · cases hzero
        · have hsome := map_of_ok some hpop
          show match (some <$> pop : Exec (Option Value)) m with
            | .ok result m' => (∃ n', g.At n' m') ∧ (.ok true : Except Error Bool) = .ok result.isSome
            | .error e _ => e.isPlain = true
          rw [hsome]
          exact ⟨⟨k, hm'⟩, rfl⟩

/-- **A request that is accepted** has a method, goes by its qualified name and passes the check; the
machine only notes it. -/
theorem accepted_of_accept {r : Request} {method : Method} {name : String} {m m' : Machine}
    (h : accept r m = .ok (method, name) m') : m.methodAt r.method = .ok method ∧
      name = m.qualifiedName method ∧ m.checkRequest method name r = .ok ⟨⟩ ∧
      m' = m.noting (.invoking name) := by
  obtain ⟨method', m₁, hfound, h⟩ := bind_eq_ok.mp h
  obtain ⟨name', m₂, hnamed, h⟩ := bind_eq_ok.mp h
  obtain ⟨_, m₃, hchecked, h⟩ := bind_eq_ok.mp h
  obtain ⟨hmethod, rfl⟩ := query_eq_ok.mp hfound
  obtain ⟨hname, rfl⟩ := query_eq_ok.mp hnamed
  obtain ⟨hcheck, rfl⟩ := query_eq_ok.mp hchecked
  cases h
  exact ⟨hmethod, (Except.ok.inj hname).symm, hcheck, rfl⟩

theorem accept_eq_ok {r : Request} {method : Method} {name : String} {m m' : Machine}
    (h : accept r m = .ok (method, name) m') : m.methodAt r.method = .ok method ∧ m.SameShape m' := by
  obtain ⟨hmethod, -, -, rfl⟩ := accepted_of_accept h
  exact ⟨hmethod, m.sameShape_noting _⟩

/-- What a native has returned fits its declaration. -/
theorem invokeNative_eq_ok [Host] {method : Method} {name : String} {r : Request} {result : Option Value}
    {m m' : Machine} (h : invokeNative method name r m = .ok result m') :
    m'.returnsValue method = .ok result.isSome := by
  obtain ⟨owner, m₁, -, h⟩ := bind_eq_ok.mp h
  obtain ⟨found, m₂, -, h⟩ := bind_eq_ok.mp h
  cases found with
  | none => cases h
  | some native =>
    dsimp only at h
    by_cases harity : r.arguments.length ≠ native.arity
    · rw [if_pos harity] at h
      cases h
    rw [if_neg harity] at h
    obtain ⟨result', m₃, -, h⟩ := bind_eq_ok.mp h
    obtain ⟨returns, m₄, hquery, h⟩ := bind_eq_ok.mp h
    obtain ⟨hreturns, rfl⟩ := query_eq_ok.mp hquery
    cases returns <;> cases result' <;> cases h <;> exact hreturns

theorem raisesPlain_popFrame : RaisesPlain popFrame := by
  refine (Keeps.query fun m _ => m.stack.raisesData_popFrame.isPlain).bind fun ⟨f, stack⟩ => ?_
  refine (Keeps.modify fun _ => trivial).bind fun _ => (Keeps.modify fun _ => trivial).bind fun _ => ?_
  exact .pure f

theorem popFrame_eq_ok {g : Ground} {n : Nat} {m m' : Machine} {f : Frame} (hm : g.At n m)
    (h : popFrame m = .ok f m') :
    m'.image = g.program.image ∧ m'.types = g.program.types ∧ m'.shape = g.below := by
  obtain ⟨⟨f', stack⟩, m₁, hquery, h⟩ := bind_eq_ok.mp h
  obtain ⟨hpop, rfl⟩ := query_eq_ok.mp hquery
  cases h
  refine ⟨hm.image, hm.types, ?_⟩
  obtain ⟨f₀, rest, hframes, -, hrest⟩ := List.map_eq_cons_iff.mp hm.shape
  unfold FrameStack.popFrame at hpop
  rw [hframes] at hpop
  cases hpop
  exact hrest

/-- What is left to do once the frame is gone. -/
def afterFrame (references : List Address) (captured : Option (Value × List UInt8)) :
    Exec (Option Value) := do
  match captured with
  | none =>
    release references
    return none
  | some (v, bytes) =>
    let v ← rehome v bytes
    pin v
    leaveFrame.held (release references)
    return some v

theorem keepsShape_afterFrame (references : List Address) (captured : Option (Value × List UInt8)) :
    KeepsShape (afterFrame references captured) := by
  have hrelease : KeepsShape (release references) := (touches_release (r := .objects) references).keepsShape
  unfold afterFrame
  split
  · exact hrelease.bind fun _ => .pure none
  · refine (touches_rehome _ _).keepsShape.bind fun v => ?_
    have hpinned := keeps_pinned (v := v) (fun h => ⟨h.image, h.types, h.shape⟩) hrelease
    exact (congrArg KeepsShape (bind_assoc _ _ _)).mp (hpinned.bind fun _ => .pure (some v))

theorem isSome_afterFrame {references : List Address} {captured : Option (Value × List UInt8)}
    {result : Option Value} {m m' : Machine} (h : afterFrame references captured m = .ok result m') :
    result.isSome = captured.isSome := by
  unfold afterFrame at h
  split at h
  · obtain ⟨_, _, _, h⟩ := bind_eq_ok.mp h
    cases h
    rfl
  · obtain ⟨_, _, _, h⟩ := bind_eq_ok.mp h
    obtain ⟨_, _, _, h⟩ := bind_eq_ok.mp h
    obtain ⟨_, _, _, h⟩ := bind_eq_ok.mp h
    cases h
    rfl

theorem leaveFrame_eq (outcome : Except Error (Option (Value × List UInt8))) :
    leaveFrame outcome = (do
      let references ← query fun m => .ok m.frameReferences
      discard popFrame
      let captured ← query fun _ => outcome
      let references ← query fun _ => references
      afterFrame references captured) := rfl

/-- **Leaving a frame** uncovers the frames below, and answers with what was captured. -/
theorem leaveFrame_eq_ok {m m' : Machine} {result : Option Value}
    {outcome : Except Error (Option (Value × List UInt8))}
    (h : leaveFrame outcome m = .ok result m') :
    (∃ captured, outcome = .ok captured ∧ result.isSome = captured.isSome) ∧
      ∀ {g : Ground} {n : Nat}, g.At n m →
        m'.image = g.program.image ∧ m'.types = g.program.types ∧ m'.shape = g.below := by
  rw [leaveFrame_eq] at h
  obtain ⟨references, m₁, hreferences, h⟩ := bind_eq_ok.mp h
  obtain ⟨_, m₂, hdiscard, h⟩ := bind_eq_ok.mp h
  obtain ⟨captured, m₃, hcaptured, h⟩ := bind_eq_ok.mp h
  obtain ⟨references', m₄, hreferences', h⟩ := bind_eq_ok.mp h
  obtain ⟨-, rfl⟩ := query_eq_ok.mp hreferences
  obtain ⟨houtcome, rfl⟩ := query_eq_ok.mp hcaptured
  obtain ⟨-, rfl⟩ := query_eq_ok.mp hreferences'
  refine ⟨⟨captured, houtcome, isSome_afterFrame h⟩, fun hm => ?_⟩
  obtain ⟨f, hpop, -⟩ := map_eq_ok.mp hdiscard
  obtain ⟨himage, htypes, hshape⟩ := popFrame_eq_ok hm hpop
  have hsame := (keepsShape_afterFrame references' captured).of_ok h
  exact ⟨hsame.image.trans himage, hsame.types.trans htypes, hsame.shape.trans hshape⟩

/-- Leaving a frame fails with an error that is not plain only if the body did. -/
theorem leaveFrame_eq_error {m m' : Machine} {e : Error}
    {outcome : Except Error (Option (Value × List UInt8))}
    (h : leaveFrame outcome m = .error e m') (he : ¬ e.isPlain = true) : outcome = .error e := by
  rw [leaveFrame_eq] at h
  rcases bind_eq_error.mp h with h | ⟨references, m₁, hreferences, h⟩
  · cases (query_eq_error.mp h).1
  obtain ⟨hfound, rfl⟩ := query_eq_ok.mp hreferences
  rcases bind_eq_error.mp h with h | ⟨_, m₂, -, h⟩
  · exact absurd (raisesPlain_popFrame.discard.of_error h).2 he
  rcases bind_eq_error.mp h with h | ⟨captured, m₃, -, h⟩
  · exact (query_eq_error.mp h).1
  rcases bind_eq_error.mp h with h | ⟨references', m₄, -, h⟩
  · exact absurd (m.raisesData_frameReferences.isPlain ((Except.ok.inj hfound).trans (query_eq_error.mp h).1)) he
  · exact absurd ((keepsShape_afterFrame references' captured).of_error h).2 he

end Exec

/-! ## Whole invocations -/

namespace Run

variable {nested : Invoke} {m m' : Machine}

theorem Ends.at {g : Ground} {method : Method} {s : Sizing.State} {name : String}
    (hnested : Returns nested) (hm : g.At 0 m)
    (hwalk : Sizing.walk g.program method method.body = .ok s)
    (hends : Ends nested name method.body m (.ok () m')) : ∃ n, g.At n m' := by
  have hbranches : BranchesAgree (fun _ _ => True) g.program method := fun _ _ _ _ _ _ => trivial
  cases hends with
  | behind hvisits =>
    obtain ⟨n, hm', -⟩ := hvisits.depth hnested stable_true hm hwalk hbranches
    exact ⟨n, hm'⟩
  | @returned index i m₁ _ hvisits hi hstep =>
    obtain ⟨n, hm₁, -⟩ := hvisits.depth hnested stable_true hm hwalk hbranches
    obtain ⟨ef, hef, -⟩ := Sizing.depthBefore_succ hwalk hi
    have hm₁ := hm₁.sameShape (m₁.sameShape_noting (.executing name index i))
    obtain ⟨⟨n', hm', -⟩, -⟩ := step_ok hnested hef hm₁ hstep
    exact ⟨n', hm'⟩

/-- **What a body in its frame can do**: fail to bind its arguments, end with a fault, or end well
and have its result taken. -/
theorem execute_cases {steps : Nat} {method : Method} {name : String} {arguments : List Value}
    {r : EStateM.Result Error Machine (Option (Value × List UInt8))}
    (h : execute nested steps method name arguments m = some r) :
    (∃ e m₁, Exec.bindArguments 0 arguments m = .error e m₁ ∧ r = .error e m₁) ∨
      ∃ m₁, Exec.bindArguments 0 arguments m = .ok ⟨⟩ m₁ ∧
        ((∃ e m₂, Ends nested name method.body m₁ (.error e m₂) ∧ r = .error e m₂) ∨
          ∃ m₂, Ends nested name method.body m₁ (.ok () m₂) ∧
            r = (Exec.takeResult method >>= Exec.capture) m₂) := by
  unfold execute at h
  rw [bind_lift] at h
  cases hbind : Exec.bindArguments 0 arguments m with
  | error e m₁ =>
    rw [hbind] at h
    exact .inl ⟨e, m₁, rfl, (Option.some.inj h).symm⟩
  | ok u m₁ =>
    rw [hbind] at h
    refine .inr ⟨m₁, rfl, ?_⟩
    dsimp only at h
    rw [bind_eq] at h
    cases hbody : body nested name method.body steps 0 m₁ with
    | none =>
      rw [hbody] at h
      cases h
    | some outcome =>
      have hends := ends_of_body .start hbody
      rw [hbody] at h
      cases outcome with
      | error e m₂ => exact .inl ⟨e, m₂, hends, (Option.some.inj h).symm⟩
      | ok u m₂ =>
        dsimp only at h
        rw [bind_lift_lift] at h
        exact .inr ⟨m₂, hends, (Option.some.inj h).symm⟩

/-- **A body that ends well** answers with a value exactly if its method returns one. -/
theorem execute_eq_ok {g : Ground} {method : Method} {s : Sizing.State} {steps : Nat} {name : String}
    {arguments : List Value} {captured : Option (Value × List UInt8)} (hnested : Returns nested)
    (hm : g.At 0 m) (hwalk : Sizing.walk g.program method method.body = .ok s)
    (h : execute nested steps method name arguments m = some (.ok captured m')) :
    (∃ n, g.At n m') ∧ g.program.returnsValue method = .ok captured.isSome := by
  rcases execute_cases h with ⟨e, m₁, -, hr⟩ | ⟨m₁, hbind, ⟨e, m₂, -, hr⟩ | ⟨m₂, hends, hr⟩⟩
  · cases hr
  · cases hr
  · have hbound := hm.sameShape ((Exec.touches_bindArguments 0 arguments).keepsShape.of_ok hbind)
    obtain ⟨n, hm₂⟩ := hends.at hnested hbound hwalk
    obtain ⟨result, m₃, htake, hcapture⟩ := Exec.bind_eq_ok.mp hr.symm
    have hresult := Exec.takeResult_at hm₂ method
    rw [htake] at hresult
    obtain ⟨⟨n', hm₃⟩, hreturns⟩ := hresult
    refine ⟨⟨n', hm₃.sameShape ((Exec.touches_capture (r := .objects) result).keepsShape.of_ok hcapture)⟩, ?_⟩
    rw [Exec.capture_eq_ok hcapture, ← hreturns, Machine.returnsValue_congr hm₂.types]

/-- **What a body fails with**, unless it is a plain error, comes from one of its instructions. -/
theorem execute_eq_error {g : Ground} {method : Method} {s : Sizing.State} {steps : Nat}
    {name : String} {arguments : List Value} {e : Error} (hnested : Returns nested)
    (hm : g.At 0 m) (hwalk : Sizing.walk g.program method method.body = .ok s)
    (h : execute nested steps method name arguments m = some (.error e m'))
    (he : ¬ e.isPlain = true) :
    ∃ m₁, Exec.bindArguments 0 arguments m = .ok ⟨⟩ m₁ ∧
      Ends nested name method.body m₁ (.error e m') := by
  rcases execute_cases h with ⟨e', m₁, hbind, hr⟩ | ⟨m₁, hbind, ⟨e', m₂, hends, hr⟩ | ⟨m₂, hends, hr⟩⟩
  · cases hr
    exact absurd ((Exec.touches_bindArguments 0 arguments).keepsShape.of_error hbind).2 he
  · cases hr
    exact ⟨m₁, hbind, hends⟩
  · have hbound := hm.sameShape ((Exec.touches_bindArguments 0 arguments).keepsShape.of_ok hbind)
    obtain ⟨n, hm₂⟩ := hends.at hnested hbound hwalk
    rcases Exec.bind_eq_error.mp hr.symm with htake | ⟨result, m₃, -, hcapture⟩
    · have hresult := Exec.takeResult_at hm₂ method
      rw [htake] at hresult
      exact absurd hresult he
    · exact absurd ((Exec.touches_capture (r := .objects) result).keepsShape.of_error hcapture).2 he

variable [Host]

/-- **What an invocation can do**: be refused before it begins, run a native, fail to enter a frame,
or run a body in its frame and leave it, whatever the body came to. -/
theorem invokeOne_cases {steps : Nat} {r : Request} {res : EStateM.Result Error Machine (Option Value)}
    (h : invokeOne nested steps r m = some res) :
    (∃ e m₁, Exec.accept r m = .error e m₁ ∧ res = .error e m₁) ∨
      ∃ method name m₁, Exec.accept r m = .ok (method, name) m₁ ∧
        (method.isNative = true ∧ res = Exec.invokeNative method name r m₁ ∨
          (∃ e m₂, Exec.enterFrame method name r m₁ = .error e m₂ ∧ res = .error e m₂) ∨
          ∃ m₂ m₃, Exec.enterFrame method name r m₁ = .ok ⟨⟩ m₂ ∧
            ((∃ captured, execute nested steps method name r.arguments m₂ = some (.ok captured m₃) ∧
                res = Exec.leaveFrame (.ok captured) m₃) ∨
              ∃ e, execute nested steps method name r.arguments m₂ = some (.error e m₃) ∧
                res = Exec.leaveFrame (.error e) m₃)) := by
  unfold invokeOne at h
  rw [bind_lift] at h
  cases haccept : Exec.accept r m with
  | error e m₁ =>
    rw [haccept] at h
    exact .inl ⟨e, m₁, rfl, (Option.some.inj h).symm⟩
  | ok found m₁ =>
    obtain ⟨method, name⟩ := found
    rw [haccept] at h
    refine .inr ⟨method, name, m₁, rfl, ?_⟩
    dsimp only at h
    by_cases hnative : method.isNative = true
    · rw [if_pos hnative] at h
      exact .inl ⟨hnative, (Option.some.inj h).symm⟩
    · rw [if_neg hnative, bind_lift] at h
      refine .inr ?_
      cases henter : Exec.enterFrame method name r m₁ with
      | error e m₂ =>
        rw [henter] at h
        exact .inl ⟨e, m₂, rfl, (Option.some.inj h).symm⟩
      | ok u m₂ =>
        rw [henter] at h
        dsimp only at h
        rw [bind_attempt] at h
        cases hexecute : execute nested steps method name r.arguments m₂ with
        | none =>
          rw [hexecute] at h
          cases h
        | some outcome =>
          rw [hexecute] at h
          cases outcome with
          | ok captured m₃ =>
            exact .inr ⟨m₂, m₃, rfl, .inl ⟨captured, hexecute, (Option.some.inj h).symm⟩⟩
          | error e m₃ =>
            exact .inr ⟨m₂, m₃, rfl, .inr ⟨e, hexecute, (Option.some.inj h).symm⟩⟩

variable [Host.Orderly]

/-- What the invocation of an accepted request comes to, if it returns. -/
theorem invokeOne_returns (hnested : Returns nested) {steps : Nat} {r : Request} {result : Option Value}
    (h : invokeOne nested steps r m = some (.ok result m')) :
    ∃ method, m.methodAt r.method = .ok method ∧ m.SameShape m' ∧
      m.returnsValue method = .ok result.isSome := by
  rcases invokeOne_cases h with ⟨e, m₁, -, hr⟩ | ⟨method, name, m₁, haccept, hcases⟩
  · cases hr
  obtain ⟨hmethod, hsame⟩ := Exec.accept_eq_ok haccept
  rw [← Machine.returnsValue_congr hsame.types]
  refine ⟨method, hmethod, ?_⟩
  rcases hcases with ⟨-, hr⟩ | ⟨e, m₂, -, hr⟩ |
    ⟨m₂, m₃, henter, ⟨captured, hexecute, hr⟩ | ⟨e, -, hr⟩⟩
  · have hnative := (Exec.touches_invokeNative method name r).keepsShape.of_ok hr.symm
    refine ⟨Machine.Lasting.trans hsame hnative, ?_⟩
    rw [← Machine.returnsValue_congr hnative.types]
    exact Exec.invokeNative_eq_ok hr.symm
  · cases hr
  · rw [← Machine.methodAt_congr hsame.image] at hmethod
    obtain ⟨s, hsizing, hm₂⟩ := Exec.enterFrame_eq_ok hmethod henter
    obtain ⟨-, hwalk⟩ := Machine.sizing_eq_ok hsizing
    obtain ⟨⟨n, hm₃⟩, hreturns⟩ := execute_eq_ok hnested hm₂ hwalk hexecute
    obtain ⟨⟨captured', hcaptured, hsome⟩, hleft⟩ := Exec.leaveFrame_eq_ok hr.symm
    cases hcaptured
    obtain ⟨himage, htypes, hshape⟩ := hleft hm₃
    exact ⟨Machine.Lasting.trans hsame ⟨himage, htypes, hshape⟩, hsome ▸ hreturns⟩
  · obtain ⟨⟨captured, hcaptured, -⟩, -⟩ := Exec.leaveFrame_eq_ok hr.symm
    cases hcaptured

/-- Why an invocation complains about depth, without a fault around the complaint. -/
theorem invokeOne_refused (hnested : Returns nested) {steps : Nat} {r : Request} {e : Error}
    (h : invokeOne nested steps r m = some (.error e m')) (hdepth : e.isDepth = true) :
    m.sizing r.method = .error e := by
  have he := Error.not_isPlain_of_isDepth hdepth
  rcases invokeOne_cases h with ⟨e', m₁, haccept, hr⟩ | ⟨method, name, m₁, haccept, hcases⟩
  · cases hr
    exact absurd ((Exec.touches_accept (r := .objects) r).keepsShape.of_error haccept).2 he
  obtain ⟨hmethod, hsame⟩ := Exec.accept_eq_ok haccept
  rw [← Machine.sizing_congr hsame.image hsame.types]
  rcases hcases with ⟨-, hr⟩ | ⟨e', m₂, henter, hr⟩ |
    ⟨m₂, m₃, henter, ⟨captured, -, hr⟩ | ⟨e', hexecute, hr⟩⟩
  · exact absurd ((Exec.touches_invokeNative method name r).keepsShape.of_error hr.symm).2 he
  · cases hr
    exact Exec.enterFrame_eq_error henter he
  · cases Exec.leaveFrame_eq_error hr.symm he
  · cases Exec.leaveFrame_eq_error hr.symm he
    rw [← Machine.methodAt_congr hsame.image] at hmethod
    obtain ⟨s, hsizing, hm₂⟩ := Exec.enterFrame_eq_ok hmethod henter
    obtain ⟨-, hwalk⟩ := Machine.sizing_eq_ok hsizing
    obtain ⟨m₄, -, hends⟩ := execute_eq_error hnested hm₂ hwalk hexecute he
    -- A body wraps its place around every error.
    cases hends
    cases hdepth

/-- **Invocations return to the frames they were made from**, however deep they are nested. -/
theorem returns_invokeNested (steps depth : Nat) : Returns (invokeNested steps depth) := by
  induction depth with
  | zero => refine ⟨fun h => ?_, fun h _ => ?_⟩ <;> cases h
  | succ depth ih =>
    refine ⟨fun h => ?_, fun h hdepth => invokeOne_refused ih h hdepth⟩
    obtain ⟨method, hmethod, hsame, hreturns⟩ := invokeOne_returns ih h
    refine ⟨hsame, fun method' hmethod' => ?_⟩
    obtain rfl := Except.ok.inj (hmethod.symm.trans hmethod')
    exact hreturns

end Run

end ManagedVm
