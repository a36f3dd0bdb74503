import ManagedVm.Proofs.Machine.Instructions
import ManagedVm.Proofs.Machine.Sizing

/-!
# The places that a body visits

What a body does is told by the places that it visits (`Run.Visits`) and by how it ends (`Run.Ends`);
the loop that runs it does just that. At each place the innermost frame is the body's own, with some
depth, and the frames below it have the shape they had at the start: an instruction keeps it
(`Run.step_ok`), also one that invokes a method, provided that invocations do (`Run.Returns`). If
the branches of the body agree with the walk over it, then the depths do, too (`Run.Visits.depth`).
-/

namespace ManagedVm

/-! ## Runs taken apart -/

namespace Run

variable {α β : Type} {m : Machine}

theorem bind_eq (x : Run α) (f : α → Run β) : (x >>= f) m =
    match x m with
    | none => none
    | some (.ok a m') => f a m'
    | some (.error e m') => some (.error e m') := rfl

theorem bind_lift (x : Exec α) (f : α → Run β) : ((liftM x : Run α) >>= f) m =
    match x m with
    | .ok a m' => f a m'
    | .error e m' => some (.error e m') := by
  have hlift : (liftM x : Run α) m = some (x m) := rfl
  rw [bind_eq, hlift]
  cases x m <;> rfl

theorem bind_lift_lift (x : Exec α) (f : α → Exec β) :
    ((liftM x : Run α) >>= fun a => (liftM (f a) : Run β)) m = some ((x >>= f) m) := by
  rw [bind_lift]
  cases h : x m with
  | ok a m' =>
    rw [Exec.bind_of_ok h]
    rfl
  | error e m' => rw [Exec.bind_of_error h]

theorem bind_attempt (x : Run α) (f : Except Error α → Run β) : (attempt x >>= f) m =
    match x m with
    | none => none
    | some (.ok a m') => f (.ok a) m'
    | some (.error e m') => f (.error e) m' := by
  rw [bind_eq, attempt]
  cases x m with
  | none => rfl
  | some r => cases r <;> rfl

/-- The value that a run returns, if it succeeds. -/
def value? (x : Run α) (m : Machine) : Option α :=
  match x m with
  | some (.ok a _) => some a
  | _ => none

theorem eq_ok_of_value? {x : Run α} {a : α} (h : x.value? m = some a) :
    ∃ m', x m = some (.ok a m') := by
  unfold value? at h
  split at h
  · rename_i m' hx
    cases h
    exact ⟨m', hx⟩
  · cases h

end Run

theorem Exec.unpinPending_eq (p : Pending) (m : Machine) : ∃ m', unpinPending p m = .ok ⟨⟩ m' := by
  unfold unpinPending
  split
  · exact ⟨_, rfl⟩
  · exact ⟨_, rfl⟩
  · exact ⟨_, rfl⟩

namespace Run

variable {nested : Invoke} {m m' : Machine} {length : Nat} {i : Instruction}

/-- **What one instruction can do**: fail, go on, or wait for an invocation, which returns or
fails. -/
theorem step_cases {r : EStateM.Result Error Machine Flow} (h : step nested length i m = some r) :
    (∃ e m₁, Exec.step length i m = .error e m₁ ∧ r = .error e m₁) ∨
    (∃ flow m₁, Exec.step length i m = .ok flow m₁ ∧ (∀ request p, flow ≠ .invoke request p) ∧
      r = .ok flow m₁) ∨
    ∃ request p m₁, Exec.step length i m = .ok (.invoke request p) m₁ ∧
      ((∃ result m₂, nested request m₁ = some (.ok result m₂) ∧ r = (do
          Exec.unpinPending p
          Exec.complete result p
          return .next : Exec Flow) m₂) ∨
        ∃ e m₂ m₃, nested request m₁ = some (.error e m₂) ∧
          Exec.unpinPending p m₂ = .ok ⟨⟩ m₃ ∧ r = .error e m₃) := by
  unfold step at h
  rw [bind_lift] at h
  cases hstep : Exec.step length i m with
  | error e m₁ =>
    rw [hstep] at h
    exact .inl ⟨e, m₁, rfl, (Option.some.inj h).symm⟩
  | ok flow m₁ =>
    rw [hstep] at h
    cases flow with
    | next => exact .inr (.inl ⟨_, _, rfl, by simp, (Option.some.inj h).symm⟩)
    | jump target => exact .inr (.inl ⟨_, _, rfl, by simp, (Option.some.inj h).symm⟩)
    | finish => exact .inr (.inl ⟨_, _, rfl, by simp, (Option.some.inj h).symm⟩)
    | invoke request p =>
      refine .inr (.inr ⟨request, p, m₁, rfl, ?_⟩)
      dsimp only at h
      rw [bind_attempt] at h
      cases hnested : nested request m₁ with
      | none =>
        rw [hnested] at h
        cases h
      | some outcome =>
        rw [hnested] at h
        cases outcome with
        | ok result m₂ =>
          obtain ⟨m₃, hunpin⟩ := Exec.unpinPending_eq p m₂
          refine .inl ⟨result, m₂, rfl, ?_⟩
          dsimp only at h
          rw [bind_lift, hunpin] at h
          rw [Exec.bind_of_ok hunpin]
          dsimp only at h ⊢
          rw [bind_lift] at h
          cases hcomplete : Exec.complete result p m₃ with
          | ok a m₄ =>
            rw [hcomplete] at h
            rw [Exec.bind_of_ok hcomplete]
            exact (Option.some.inj h).symm
          | error e m₄ =>
            rw [hcomplete] at h
            rw [Exec.bind_of_error hcomplete]
            exact (Option.some.inj h).symm
        | error e m₂ =>
          obtain ⟨m₃, hunpin⟩ := Exec.unpinPending_eq p m₂
          refine .inr ⟨e, m₂, m₃, rfl, hunpin, ?_⟩
          dsimp only at h
          rw [bind_lift, hunpin] at h
          exact (Option.some.inj h).symm

/-! ## One instruction -/

/-- **An invocation leaves the frames below as they are**, and answers with a value exactly if the
method returns one. If it complains about depth, then because the method was refused. -/
structure Returns (nested : Invoke) : Prop where
  ok : ∀ {r : Request} {m m' : Machine} {result : Option Value},
    nested r m = some (.ok result m') → m.SameShape m' ∧
      ∀ method, m.methodAt r.method = .ok method → m.returnsValue method = .ok result.isSome
  error : ∀ {r : Request} {m m' : Machine} {e : Error},
    nested r m = some (.error e m') → e.isDepth = true → m.sizing r.method = .error e

variable {g : Ground} {ef : Effect} {n : Nat}

/-- What an instruction that waits for an invocation has taken. -/
theorem taken_of_invoke (hef : g.program.effect i = .ok ef) (hm : g.At n m) {request : Request}
    {p : Pending} {m₁ : Machine} (h : Exec.step length i m = .ok (.invoke request p) m₁) :
    ∃ n₁, g.At n₁ m₁ ∧ n₁ + ef.takes = n := by
  have hop : i.op ∈ [.newobj, .call] := by
    cases Exec.leads_of_step h with
    | call hop => simp [hop]
    | construct hop => simp [hop]
  have hrun := Exec.does_invocation hef hop length m hm
  rw [h] at hrun
  obtain ⟨n₁, hm₁, hdone⟩ := hrun
  exact ⟨n₁, hm₁, hdone.depth⟩

/-- What an invocation gives is what the table says. -/
theorem gives_of_invoke (hnested : Returns nested) (hef : g.program.effect i = .ok ef)
    (hm : g.At n m) {request : Request} {p : Pending} {m₁ m₂ : Machine} {n₁ : Nat}
    {result : Option Value} (h : Exec.step length i m = .ok (.invoke request p) m₁)
    (hm₁ : g.At n₁ m₁) (hresult : nested request m₁ = some (.ok result m₂)) :
    ef.gives = p.gives result := by
  obtain ⟨op, operand⟩ := i
  cases Exec.leads_of_step h with
  | call hop hmethod =>
    cases hop
    obtain ⟨index, hindex, hef⟩ := except_bind_ok.mp hef
    obtain ⟨callee, hcallee, hef⟩ := except_bind_ok.mp hef
    obtain ⟨type, htype, heffect⟩ := except_bind_ok.mp hef
    rw [Machine.methodOf_congr hm.image] at hmethod
    obtain rfl := Except.ok.inj (hmethod.symm.trans hindex)
    have hreturns := (hnested.ok hresult).2 callee (by rw [Machine.methodAt_congr hm₁.image, hcallee])
    have hvoid : m₁.returnsValue callee = .ok (!g.program.isVoid type) := by
      unfold Machine.returnsValue Machine.isVoid
      rw [Machine.declaredType_congr hm₁.types, htype, hm₁.types]
      rfl
    have hgives := congrArg Effect.gives (Except.ok.inj heffect)
    have hsome := Except.ok.inj (hvoid.symm.trans hreturns)
    dsimp only at hgives
    rw [← hgives]
    cases result <;> simp_all [Pending.gives]
  | construct hop =>
    cases hop
    obtain ⟨_, _, hef⟩ := except_bind_ok.mp hef
    obtain ⟨_, _, hef⟩ := except_bind_ok.mp hef
    exact (congrArg Effect.gives (Except.ok.inj hef)).symm

/-- What comes after an invocation that has returned. -/
theorem does_after_invoke (hnested : Returns nested) (hef : g.program.effect i = .ok ef)
    (hm : g.At n m) {request : Request} {p : Pending} {m₁ m₂ : Machine} {result : Option Value}
    (h : Exec.step length i m = .ok (.invoke request p) m₁)
    (hresult : nested request m₁ = some (.ok result m₂)) : ∃ n₁, g.At n₁ m₂ ∧
      Exec.Does g ef n n₁ (do
        Exec.unpinPending p
        Exec.complete result p
        return Flow.next) := by
  obtain ⟨n₁, hm₁, htaken⟩ := taken_of_invoke hef hm h
  have hgives := gives_of_invoke hnested hef hm h hm₁ hresult
  refine ⟨n₁, hm₁.sameShape (hnested.ok hresult).1, ?_⟩
  refine .bind_of_keepsShape (Exec.keepsShape_unpinPending p) fun _ => .andThen ?_ fun _ => .pure _
  have hdoes := Exec.does_complete (g := g) htaken result p
  rwa [← hgives] at hdoes

theorem not_invocation_of_isBranch {op : Opcode} (h : op.isBranch = true) : op ∉ [.newobj, .call] := by
  cases op <;> first | decide | cases h

/-- **An instruction that succeeds has its effect**; if it jumps, then to the target of a branch. -/
theorem step_ok (hnested : Returns nested) (hef : g.program.effect i = .ok ef) (hm : g.At n m)
    {flow : Flow} (h : step nested length i m = some (.ok flow m')) :
    (∃ n', g.At n' m' ∧ ef.Done n n') ∧
      ∀ target, flow = .jump target →
        i.op.isBranch = true ∧ branchTarget i.operand length = .ok target := by
  rcases step_cases h with ⟨e, m₁, -, hr⟩ | ⟨flow', m₁, hstep, hflow, hr⟩ |
      ⟨request, p, m₁, hstep, ⟨result, m₂, hresult, hr⟩ | ⟨e, m₂, m₃, -, -, hr⟩⟩
  · cases hr
  · cases hr
    have hleads := Exec.leads_of_step hstep
    have hop : i.op ∉ [.newobj, .call] := by
      cases hleads with
      | next hop => exact hop
      | finish hop => simp [hop]
      | jump hbranch => exact not_invocation_of_isBranch hbranch
      | call => exact absurd rfl (hflow _ _)
      | construct => exact absurd rfl (hflow _ _)
    have hdoes := Exec.does_step hef hop length m hm
    rw [hstep] at hdoes
    refine ⟨hdoes, ?_⟩
    rintro target rfl
    cases hleads with
    | jump hbranch htarget => exact ⟨hbranch, htarget⟩
  · obtain ⟨n₁, hm₂, hdoes⟩ := does_after_invoke hnested hef hm hstep hresult
    have hrun := hdoes m₂ hm₂
    rw [← hr] at hrun
    refine ⟨hrun, ?_⟩
    rintro target rfl
    obtain ⟨_, _, _, hr⟩ := Exec.bind_eq_ok.mp hr.symm
    obtain ⟨_, _, _, hr⟩ := Exec.bind_eq_ok.mp hr
    cases hr
  · cases hr

/-- What the instruction itself fails with, without what it invokes: no fault, and a complaint about
depth for a reason only. -/
theorem stops_of_step (hef : g.program.effect i = .ok ef) (hm : g.At n m) {e : Error}
    (h : Exec.step length i m = .error e m') : e.isFault = false ∧
      (e.isDepth = true → ∃ n', g.At n' m' ∧ ef.Stops g.limit n e n') := by
  by_cases hop : i.op ∈ [.newobj, .call]
  · have hrun := Exec.does_invocation hef hop length m hm
    rw [h] at hrun
    obtain ⟨hfault, hreason⟩ := hrun
    refine ⟨hfault, fun hdepth => ?_⟩
    obtain ⟨n', hm', hstops⟩ := hreason hdepth
    exact ⟨n', hm', hstops.mono (Nat.zero_le _)⟩
  · have hdoes := Exec.does_step hef hop length m hm
    rw [h] at hdoes
    exact hdoes

/-- **Why an instruction complains about depth**: for its own effect, or because the method that it
invokes was refused. -/
theorem step_error (hnested : Returns nested) (hef : g.program.effect i = .ok ef) (hm : g.At n m)
    {e : Error} (h : step nested length i m = some (.error e m')) (hdepth : e.isDepth = true) :
    (∃ n', g.At n' m' ∧ ef.Stops g.limit n e n') ∨
      ∃ request p m₁, Exec.step length i m = .ok (.invoke request p) m₁ ∧
        g.program.sizing request.method = .error e := by
  rcases step_cases h with ⟨e', m₁, hstep, hr⟩ | ⟨flow', m₁, -, -, hr⟩ |
      ⟨request, p, m₁, hstep, ⟨result, m₂, hresult, hr⟩ | ⟨e', m₂, m₃, hfail, -, hr⟩⟩
  · cases hr
    exact .inl ((stops_of_step hef hm hstep).2 hdepth)
  · cases hr
  · obtain ⟨n₁, hm₂, hdoes⟩ := does_after_invoke hnested hef hm hstep hresult
    have hrun := hdoes m₂ hm₂
    rw [← hr] at hrun
    exact .inl (hrun.2 hdepth)
  · cases hr
    obtain ⟨n₁, hm₁, -⟩ := taken_of_invoke hef hm hstep
    refine .inr ⟨request, p, m₁, hstep, ?_⟩
    rw [← Machine.sizing_congr hm₁.image hm₁.types]
    exact hnested.error hfail hdepth

end Run

/-! ## A body -/

/-- The machine with an event in its journal. -/
def Machine.noting (m : Machine) (e : Event) : Machine := { m with journal := m.journal.record e }

theorem Machine.sameShape_noting (m : Machine) (e : Event) : m.SameShape (m.noting e) := ⟨rfl, rfl, rfl⟩

/-- The place where a body goes on. -/
def Flow.place (index : Nat) : Flow → Nat
  | .jump target => target
  | _ => index + 1

namespace Run

variable {nested : Invoke} {name : String} {code : Array Instruction} {m : Machine}

/-- One instruction of a body, at its place. -/
def stepAt (nested : Invoke) (name : String) (code : Array Instruction) (index : Nat)
    (i : Instruction) : Run Flow := fun m => step nested code.size i (m.noting (.executing name index i))

/-- **Control is at a place of the body**, in a machine, some instructions after the start. -/
inductive Visits (nested : Invoke) (name : String) (code : Array Instruction) (m : Machine) :
    Nat → Machine → Prop
  | start : Visits nested name code m 0 m
  | step {index : Nat} {i : Instruction} {flow : Flow} {m₁ m₂ : Machine} :
      Visits nested name code m index m₁ → code[index]? = some i →
        stepAt nested name code index i m₁ = some (.ok flow m₂) → flow ≠ .finish →
        Visits nested name code m (flow.place index) m₂

/-- **The body has ended**: behind its last instruction, at a return, or at an instruction that
failed. -/
inductive Ends (nested : Invoke) (name : String) (code : Array Instruction) (m : Machine) :
    EStateM.Result Error Machine Unit → Prop
  | behind {index : Nat} {m₁ : Machine} :
      Visits nested name code m index m₁ → code[index]? = none → Ends nested name code m (.ok () m₁)
  | returned {index : Nat} {i : Instruction} {m₁ m₂ : Machine} :
      Visits nested name code m index m₁ → code[index]? = some i →
        stepAt nested name code index i m₁ = some (.ok .finish m₂) →
        Ends nested name code m (.ok () m₂)
  | failed {index : Nat} {i : Instruction} {e : Error} {m₁ m₂ m₃ : Machine} :
      Visits nested name code m index m₁ → code[index]? = some i →
        stepAt nested name code index i m₁ = some (.error e m₂) →
        Ends nested name code m (.error (.fault name index i e) m₃)

theorem fail_eq (name : String) (index : Nat) (i : Instruction) (e : Error) (m : Machine) :
    ∃ m', fail name index i e m = .error (.fault name index i e) m' := by
  unfold fail
  dsimp only
  by_cases hfault : (!e.isFault) = true
  · rw [if_pos hfault]
    exact ⟨_, rfl⟩
  · rw [if_neg hfault]
    exact ⟨_, rfl⟩

/-- The loop ends behind the last instruction. -/
theorem body_of_none {steps index : Nat} (hi : code[index]? = none) :
    body nested name code steps index = pure () := by
  unfold body
  rw [hi]

/-- One round of the loop. -/
theorem body_succ {steps index : Nat} {i : Instruction} (hi : code[index]? = some i) :
    body nested name code (steps + 1) index m =
      match stepAt nested name code index i m with
      | none => none
      | some (.ok .finish m') => some (.ok () m')
      | some (.ok flow m') => body nested name code steps (flow.place index) m'
      | some (.error e m') => some (fail name index i e m') := by
  have hrecord : Exec.record (.executing name index i) m =
      .ok ⟨⟩ (m.noting (.executing name index i)) := rfl
  conv => lhs; unfold body
  rw [hi]
  dsimp only
  rw [bind_lift, hrecord]
  dsimp only
  rw [bind_attempt]
  unfold stepAt
  cases step nested code.size i (m.noting (.executing name index i)) with
  | none => rfl
  | some outcome =>
    cases outcome with
    | error e m' => rfl
    | ok flow m' => cases flow <;> rfl

/-- **The loop visits what there is to visit**, unless its steps are used up. -/
theorem ends_of_body {steps index : Nat} {m₁ : Machine} {r : EStateM.Result Error Machine Unit}
    (hvisits : Visits nested name code m index m₁)
    (h : body nested name code steps index m₁ = some r) : Ends nested name code m r := by
  induction steps generalizing index m₁ with
  | zero =>
    unfold body at h
    cases hi : code[index]? with
    | none =>
      rw [hi] at h
      cases h
      exact .behind hvisits hi
    | some i =>
      rw [hi] at h
      cases h
  | succ steps ih =>
    cases hi : code[index]? with
    | none =>
      unfold body at h
      rw [hi] at h
      cases h
      exact .behind hvisits hi
    | some i =>
      rw [body_succ hi] at h
      cases hstep : stepAt nested name code index i m₁ with
      | none =>
        rw [hstep] at h
        cases h
      | some outcome =>
        rw [hstep] at h
        cases outcome with
        | error e m₂ =>
          obtain ⟨m₃, hfail⟩ := fail_eq name index i e m₂
          cases hfail.symm.trans (Option.some.inj h)
          exact .failed hvisits hi hstep
        | ok flow m₂ =>
          cases flow with
          | finish =>
            cases h
            exact .returned hvisits hi hstep
          | next => exact ih (hvisits.step hi hstep (by simp)) h
          | jump target => exact ih (hvisits.step hi hstep (by simp)) h
          | invoke request p => exact ih (hvisits.step hi hstep (by simp)) h

/-! ## The depth at each place -/

/-- A relation between two depths that every effect keeps and that composes. -/
structure Stable (R : Nat → Nat → Prop) : Prop where
  zero : R 0 0
  effect : ∀ {ef : Effect} {n n' d d' : Nat}, R n d → ef.Done n n' → ef.Done d d' → R n' d'
  trans : ∀ {a b c : Nat}, R a b → R b c → R a c

theorem stable_le : Stable (· ≤ ·) where
  zero := Nat.le_refl 0
  effect hn hdone hwalked := by
    have hdepth := hdone.depth
    have hdepth' := hwalked.depth
    omega
  trans := Nat.le_trans

theorem stable_eq : Stable (· = ·) where
  zero := rfl
  effect hn hdone hwalked := by
    have hdepth := hdone.depth
    have hdepth' := hwalked.depth
    omega
  trans := Eq.trans

/-- Without a condition on the branches there is still some depth everywhere. -/
theorem stable_true : Stable fun _ _ => True :=
  ⟨trivial, fun _ _ _ => trivial, fun _ _ => trivial⟩

/-- **Branches agree with the walk**: the depth behind a branch, where the walk goes on, is related
to the depth that the walk has at the branch's target. -/
def BranchesAgree (R : Nat → Nat → Prop) (m : Machine) (method : Method) : Prop :=
  ∀ index i target, method.body[index]? = some i → i.op.isBranch = true →
    branchTarget i.operand method.body.size = .ok target →
      R (Sizing.depthBefore m method (index + 1)) (Sizing.depthBefore m method target)

theorem branchesAgree_iff {R : Nat → Nat → Prop} {method : Method} : BranchesAgree R m method ↔
    ∀ p ∈ method.body.toList.zipIdx, p.1.op.isBranch = true →
      ∀ target ∈ (branchTarget p.1.operand method.body.size).toOption,
        R (Sizing.depthBefore m method (p.2 + 1)) (Sizing.depthBefore m method target) := by
  constructor
  · rintro h ⟨i, index⟩ hp hbranch target htarget
    rw [List.mem_zipIdx_iff_getElem?, Array.getElem?_toList] at hp
    cases hbranchTarget : branchTarget i.operand method.body.size with
    | error e =>
      rw [hbranchTarget] at htarget
      cases htarget
    | ok target' =>
      rw [hbranchTarget] at htarget
      cases htarget
      exact h index i target hp hbranch hbranchTarget
  · intro h index i target hi hbranch htarget
    refine h (i, index) ?_ hbranch target ?_
    · rw [List.mem_zipIdx_iff_getElem?, Array.getElem?_toList]
      exact hi
    · rw [htarget]
      rfl

instance decidableBranchesAgree {R : Nat → Nat → Prop} [DecidableRel R] {method : Method} :
    Decidable (BranchesAgree R m method) :=
  decidable_of_iff _ branchesAgree_iff.symm

/-- **At each place that a body visits, its frame has a depth** that is related to the one of the
walk, if branches agree with the walk. -/
theorem Visits.depth {g : Ground} {method : Method} {s : Sizing.State} {R : Nat → Nat → Prop}
    {index : Nat} {m₁ : Machine} (hnested : Returns nested) (hR : Stable R)
    (hm : g.At 0 m) (hwalk : Sizing.walk g.program method method.body = .ok s)
    (hbranches : BranchesAgree R g.program method)
    (hvisits : Visits nested name method.body m index m₁) :
    ∃ n, g.At n m₁ ∧ R n (Sizing.depthBefore g.program method index) := by
  induction hvisits with
  | start => exact ⟨0, hm, hR.zero⟩
  | @step index i flow m₁ m₂ _ hi hstep _ ih =>
    obtain ⟨n, hm₁, hn⟩ := ih
    obtain ⟨ef, hef, hwalked⟩ := Sizing.depthBefore_succ hwalk hi
    have hm₁ := hm₁.sameShape (m₁.sameShape_noting (.executing name index i))
    obtain ⟨⟨n', hm₂, hdone⟩, hjump⟩ := step_ok hnested hef hm₁ hstep
    have hnext := hR.effect hn hdone hwalked
    refine ⟨n', hm₂, ?_⟩
    cases flow with
    | jump target =>
      obtain ⟨hbranch, htarget⟩ := hjump target rfl
      exact hR.trans hnext (hbranches index i target hi hbranch htarget)
    | next => exact hnext
    | finish => exact hnext
    | invoke request p => exact hnext

end Run

end ManagedVm
