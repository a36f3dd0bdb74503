import Mathlib.Data.List.MinMax
import ManagedVm.Proofs.Machine.Nesting

/-!
# Programs that branch onward end

A method whose branches all lead onward carries out each of its instructions at most once, and
invocations are nested no deeper than the limit on the call depth allows. So an invocation in such a
program ends, also when its methods invoke each other without end, and it carries out no more
instructions than a budget that the lengths of the bodies and the limit determine
(`Run.ends_of_forward`).

An end is reached with a number of steps that is the same for all frames (`Run.answers_invokeNested`),
and a run that has ended is unchanged by more of them (`Run.extends_invokeNested`). What an
instruction releases is bounded by the number of live objects, and this bound is never the reason why
a release ends (`Exec.releaseUpTo_eq`).
-/

namespace ManagedVm

open scoped Naturals
open ManagedVm.Frame (Onward Steady)

/-! ## Programs -/

/-- **The branches of a method lead onward**: the target of each lies behind it, or is no place. -/
def Method.Forward (method : Method) : Prop :=
  ∀ index, ∀ h : index < method.body.size, method.body[index].op.isBranch = true →
    method.body[index].operand.toInt < 0 ∨ index < method.body[index].operand.toInt

instance (method : Method) : Decidable method.Forward :=
  inferInstanceAs (Decidable (∀ index, ∀ _ : index < method.body.size, _ → _))

namespace Image

variable (image : Image)

/-- The branches of all methods lead onward. -/
def Forward : Prop := ∀ method ∈ image.methods, method.Forward

instance : Decidable image.Forward := inferInstanceAs (Decidable (∀ method ∈ image.methods, _))

/-- The number of instructions of the longest body. -/
def longestBody : Nat := (image.methods.toList.map (·.body.size)).foldr max 0

/-- **The number of instructions that an invocation carries out at most**, those of the invocations
nested in it included, where there is room for so many frames. -/
def budget : (room : Nat) → Nat
  | 0 => 0
  | room + 1 => image.longestBody * (1 + budget room)

variable {image}

theorem size_le_longestBody {method : Method} (h : method ∈ image.methods) :
    method.body.size ≤ image.longestBody := by
  have hmem : method.body.size ∈ image.methods.toList.map (·.body.size) :=
    List.mem_map_of_mem (Array.mem_toList_iff.mpr h)
  exact List.le_max_of_le' 0 hmem (Nat.le_refl _)

theorem budget_mono {room room' : Nat} (h : room ≤ room') : image.budget room ≤ image.budget room' := by
  induction room generalizing room' with
  | zero => exact Nat.zero_le _
  | succ room ih =>
    obtain ⟨more, rfl⟩ := Nat.exists_eq_add_of_le' h
    have hrest : image.budget room ≤ image.budget (more + room) := ih (Nat.le_add_left _ _)
    exact Nat.mul_le_mul_left _ (Nat.add_le_add_left hrest 1)

end Image

theorem Machine.mem_of_methodAt {m : Machine} {index : Nat} {method : Method}
    (h : m.methodAt index = .ok method) : method ∈ m.image.methods := by
  unfold methodAt at h
  split at h
  · rename_i hfound
    cases h
    exact Array.mem_of_getElem? hfound
  · cases h

/-- A branch that leads onward and is taken arrives behind itself. -/
theorem lt_of_branchTarget {operand : Int32} {length index target : Nat}
    (hforward : operand.toInt < 0 ∨ index < operand.toInt)
    (h : branchTarget operand length = .ok target) : index < target := by
  unfold branchTarget at h
  split at h
  · rename_i hrange
    cases h
    have hnonneg : 0 ≤ operand.toInt := by simpa using Int32.le_iff_toInt_le.mp hrange.1
    omega
  · cases h

/-! ## Releases -/

namespace Exec

variable {m m' : Machine}

theorem firstDead_of_no_objects (hnil : m.heap.objects = []) (targets : List Address) :
    m.firstDead targets = .ok none := by
  induction targets with
  | nil => rfl
  | cons target targets ih =>
    unfold Machine.firstDead
    cases hget : m.heap.get target with
    | error e => exact ih
    | ok o =>
      have hmem := (Heap.get_eq_ok hget).1
      rw [hnil] at hmem
      cases hmem

/-- Freeing an object makes the live objects fewer. -/
theorem length_of_freeObject {a : Address} {o : Heap.Object} (h : freeObject a m = .ok o m') :
    m'.heap.objects.length < m.heap.objects.length := by
  obtain ⟨⟨o', heap⟩, m₁, hquery, h⟩ := bind_eq_ok.mp h
  obtain ⟨hfree, rfl⟩ := query_eq_ok.mp hquery
  obtain ⟨hget, rfl⟩ := Heap.free_eq_ok (except_mapError_ok.mp hfree)
  cases h
  refine List.length_filter_lt_length_iff_exists.mpr ⟨o, (Heap.get_eq_ok hget).1, ?_⟩
  simp

/-- One more round changes nothing where there are as many as live objects. -/
theorem releaseUpTo_succ {count : Nat} {targets : List Address}
    (h : m.heap.objects.length ≤ count) :
    releaseUpTo (count + 1) targets m = releaseUpTo count targets m := by
  induction count generalizing targets m with
  | zero =>
    have hnil := List.length_eq_zero_iff.mp (Nat.le_zero.mp h)
    have hnone : query (·.firstDead targets) m = .ok none m :=
      query_of_ok (firstDead_of_no_objects hnil targets)
    exact bind_of_ok hnone
  | succ count ih =>
    rw [releaseUpTo, releaseUpTo]
    cases hfirst : query (·.firstDead targets) m with
    | error e m₁ => rw [bind_of_error hfirst, bind_of_error hfirst]
    | ok found m₁ =>
      obtain ⟨-, rfl⟩ := query_eq_ok.mp hfirst
      rw [bind_of_ok hfirst, bind_of_ok hfirst]
      cases found with
      | none => rfl
      | some found =>
        obtain ⟨o, rest⟩ := found
        dsimp only
        cases hinner : query (·.referencesOf o) m with
        | error e m₁ => rw [bind_of_error hinner, bind_of_error hinner]
        | ok inner m₁ =>
          obtain ⟨-, rfl⟩ := query_eq_ok.mp hinner
          rw [bind_of_ok hinner, bind_of_ok hinner]
          cases hfree : freeObject o.address m with
          | error e m₁ => rw [bind_of_error (discard_of_error hfree), bind_of_error (discard_of_error hfree)]
          | ok o' m₁ =>
            have hless := length_of_freeObject hfree
            have hrecord : record (.released o.kind o.address) m₁ =
                .ok ⟨⟩ (m₁.noting (.released o.kind o.address)) := rfl
            rw [bind_of_ok (discard_of_ok hfree), bind_of_ok (discard_of_ok hfree),
              bind_of_ok hrecord, bind_of_ok hrecord]
            refine ih ?_
            show m₁.heap.objects.length ≤ count
            omega

/-- **A release ends by itself**: more rounds than there are live objects are never made. -/
theorem releaseUpTo_eq {count : Nat} (targets : List Address) (h : m.heap.objects.length ≤ count) :
    releaseUpTo count targets.reverse m = release targets m := by
  obtain ⟨more, rfl⟩ := Nat.exists_eq_add_of_le h
  induction more with
  | zero => rfl
  | succ more ih =>
    rw [← Nat.add_assoc, releaseUpTo_succ (Nat.le_add_right _ _)]
    exact ih (Nat.le_add_right _ _)

end Exec

namespace Run

variable {nested nested' : Invoke} {name : String} {code : Array Instruction} {m m' : Machine}

/-! ## More steps change nothing -/

/-- **What the one way to invoke comes to, the other does.** -/
def Extends (nested nested' : Invoke) : Prop :=
  ∀ {r : Request} {m : Machine} {res : EStateM.Result Error Machine (Option Value)},
    nested r m = some res → nested' r m = some res

theorem step_extends (hnested : Extends nested nested') {length : Nat} {i : Instruction}
    {res : EStateM.Result Error Machine Flow} (h : step nested length i m = some res) :
    step nested' length i m = some res := by
  unfold step at h ⊢
  rw [bind_lift] at h ⊢
  cases hstep : Exec.step length i m with
  | error e m₁ =>
    rw [hstep] at h
    exact h
  | ok flow m₁ =>
    rw [hstep] at h
    cases flow with
    | next => exact h
    | jump target => exact h
    | finish => exact h
    | invoke request p =>
      dsimp only at h ⊢
      rw [bind_attempt] at h ⊢
      cases hresult : nested request m₁ with
      | none =>
        rw [hresult] at h
        cases h
      | some result =>
        rw [hresult] at h
        rw [hnested hresult]
        exact h

theorem body_extends (hnested : Extends nested nested') {steps steps' index : Nat}
    (hsteps : steps ≤ steps') {res : EStateM.Result Error Machine Unit}
    (h : body nested name code steps index m = some res) :
    body nested' name code steps' index m = some res := by
  induction steps generalizing steps' index m with
  | zero =>
    unfold body at h ⊢
    cases hi : code[index]? with
    | none =>
      rw [hi] at h
      exact h
    | some i =>
      rw [hi] at h
      cases h
  | succ steps ih =>
    obtain ⟨more, rfl⟩ := Nat.exists_eq_add_of_le' hsteps
    cases hi : code[index]? with
    | none =>
      unfold body at h ⊢
      rw [hi] at h ⊢
      exact h
    | some i =>
      rw [← Nat.add_assoc, body_succ hi]
      rw [body_succ hi] at h
      cases hstep : stepAt nested name code index i m with
      | none =>
        rw [hstep] at h
        cases h
      | some outcome =>
        have hstep' : stepAt nested' name code index i m = some outcome := step_extends hnested hstep
        rw [hstep] at h
        rw [hstep']
        cases outcome with
        | error e m₁ => exact h
        | ok flow m₁ =>
          cases flow with
          | finish => exact h
          | next => exact ih (Nat.le_add_left _ _) h
          | jump target => exact ih (Nat.le_add_left _ _) h
          | invoke request p => exact ih (Nat.le_add_left _ _) h

theorem execute_extends (hnested : Extends nested nested') {steps steps' : Nat} (hsteps : steps ≤ steps')
    {method : Method} {arguments : List Value}
    {res : EStateM.Result Error Machine (Option (Value × List UInt8))}
    (h : execute nested steps method name arguments m = some res) :
    execute nested' steps' method name arguments m = some res := by
  unfold execute at h ⊢
  rw [bind_lift] at h ⊢
  cases hbound : Exec.bindArguments 0 arguments m with
  | error e m₁ =>
    rw [hbound] at h
    exact h
  | ok u m₁ =>
    rw [hbound] at h
    dsimp only at h ⊢
    rw [bind_eq] at h ⊢
    cases hbody : body nested name method.body steps 0 m₁ with
    | none =>
      rw [hbody] at h
      cases h
    | some outcome =>
      rw [hbody] at h
      rw [body_extends hnested hsteps hbody]
      exact h

theorem extends_invokeOne [Host] (hnested : Extends nested nested') {steps steps' : Nat}
    (hsteps : steps ≤ steps') : Extends (invokeOne nested steps) (invokeOne nested' steps') := by
  intro r m res h
  unfold invokeOne at h ⊢
  rw [bind_lift] at h ⊢
  cases haccept : Exec.accept r m with
  | error e m₁ =>
    rw [haccept] at h
    exact h
  | ok accepted m₁ =>
    rw [haccept] at h
    dsimp only at h ⊢
    by_cases hnative : accepted.1.isNative = true
    · rw [if_pos hnative] at h ⊢
      exact h
    · rw [if_neg hnative, bind_lift] at h ⊢
      cases henter : Exec.enterFrame accepted.1 accepted.2 r m₁ with
      | error e m₂ =>
        rw [henter] at h
        exact h
      | ok u m₂ =>
        rw [henter] at h
        dsimp only at h ⊢
        rw [bind_attempt] at h ⊢
        cases hexecute : execute nested steps accepted.1 accepted.2 r.arguments m₂ with
        | none =>
          rw [hexecute] at h
          cases h
        | some outcome =>
          rw [hexecute] at h
          rw [execute_extends hnested hsteps hexecute]
          exact h

/-- **A run that has ended is unchanged by more steps.** -/
theorem extends_invokeNested [Host] {steps steps' : Nat} (hsteps : steps ≤ steps') (depth : Nat) :
    Extends (invokeNested steps depth) (invokeNested steps' depth) := by
  induction depth with
  | zero =>
    intro r m res h
    cases h
  | succ depth ih => exact extends_invokeOne ih hsteps

/-! ## Invocations end -/

/-- **In a program that branches onward, every instruction leads to a later one.** -/
theorem lt_place {method : Method} (hforward : method.Forward) {index : Nat} {i : Instruction}
    {flow : Flow} (hi : method.body[index]? = some i)
    (h : stepAt nested name method.body index i m = some (.ok flow m')) : index < flow.place index := by
  rcases step_cases h with ⟨e, m₁, -, hr⟩ | ⟨flow, m₁, hstep, -, hr⟩ |
    ⟨request, p, m₁, -, ⟨result, m₂, -, hr⟩ | ⟨e, m₂, m₃, -, -, hr⟩⟩
  · cases hr
  · cases hr
    cases Exec.leads_of_step hstep with
    | jump hbranch htarget =>
      obtain ⟨hindex, rfl⟩ := Array.getElem?_eq_some_iff.mp hi
      exact lt_of_branchTarget (hforward index hindex hbranch) htarget
    | next => exact Nat.lt_succ_self index
    | finish => exact Nat.lt_succ_self index
    | call => exact Nat.lt_succ_self index
    | construct => exact Nat.lt_succ_self index
  · obtain ⟨_, _, _, hr⟩ := Exec.bind_eq_ok.mp hr.symm
    obtain ⟨_, _, _, hr⟩ := Exec.bind_eq_ok.mp hr
    cases hr
    exact Nat.lt_succ_self index
  · cases hr

/-- **Invocations from the frame of the machine end.** -/
def Answers (nested : Invoke) (m : Machine) : Prop :=
  ∀ (r : Request) (m' : Machine), m.InFrame m' → ∃ res, nested r m' = some res

theorem Answers.inFrame (h : Answers nested m) (hm : m.InFrame m') : Answers nested m' :=
  fun r m'' hm' => h r m'' (hm.trans hm')

theorem answers_step (h : Answers nested m) (length : Nat) (i : Instruction) :
    ∃ res, step nested length i m = some res := by
  unfold step
  rw [bind_lift]
  cases hstep : Exec.step length i m with
  | error e m₁ => exact ⟨_, rfl⟩
  | ok flow m₁ =>
    cases flow with
    | next => exact ⟨_, rfl⟩
    | jump target => exact ⟨_, rfl⟩
    | finish => exact ⟨_, rfl⟩
    | invoke request p =>
      obtain ⟨res, hres⟩ := h request m₁ (Exec.inFrame_of_invoke hstep)
      dsimp only
      rw [bind_attempt, hres]
      cases res with
      | error e m₂ =>
        obtain ⟨m₃, hunpin⟩ := Exec.unpinPending_eq p m₂
        dsimp only
        rw [bind_lift, hunpin]
        exact ⟨_, rfl⟩
      | ok result m₂ =>
        obtain ⟨m₃, hunpin⟩ := Exec.unpinPending_eq p m₂
        dsimp only
        rw [bind_lift, hunpin]
        dsimp only
        rw [bind_lift]
        cases Exec.complete result p m₃ with
        | error e m₄ => exact ⟨_, rfl⟩
        | ok u m₄ => exact ⟨_, rfl⟩

/-- **A body that branches onward ends**, with a step for each of its instructions. -/
theorem answers_body (hnested : KeepsFrames nested) {method : Method} (hforward : method.Forward)
    {steps index : Nat} (hsteps : method.body.size ≤ index + steps) (h : Answers nested m) :
    ∃ res, body nested name method.body steps index m = some res := by
  induction steps generalizing index m with
  | zero =>
    have hnone : method.body[index]? = none := Array.getElem?_eq_none hsteps
    unfold body
    rw [hnone]
    exact ⟨_, rfl⟩
  | succ steps ih =>
    cases hi : method.body[index]? with
    | none =>
      unfold body
      rw [hi]
      exact ⟨_, rfl⟩
    | some i =>
      rw [body_succ hi]
      obtain ⟨outcome, hstep⟩ : ∃ outcome, stepAt nested name method.body index i m = some outcome :=
        answers_step (h.inFrame (m.inFrame_noting _)) method.body.size i
      rw [hstep]
      cases outcome with
      | error e m₁ => exact ⟨_, rfl⟩
      | ok flow m₁ =>
        have hlater := lt_place hforward hi hstep
        have hm₁ := h.inFrame (moved_stepAt hnested hstep).inFrame
        cases flow with
        | finish => exact ⟨_, rfl⟩
        | next => exact ih (by omega) hm₁
        | jump target => exact ih (by omega) hm₁
        | invoke request p => exact ih (by omega) hm₁

theorem answers_execute (hnested : KeepsFrames nested) {method : Method} (hforward : method.Forward)
    {steps : Nat} (hsteps : method.body.size ≤ steps) (h : Answers nested m) (arguments : List Value) :
    ∃ res, execute nested steps method name arguments m = some res := by
  unfold execute
  rw [bind_lift]
  cases hbound : Exec.bindArguments 0 arguments m with
  | error e m₁ => exact ⟨_, rfl⟩
  | ok u m₁ =>
    have hm₁ := ((Exec.touches_bindArguments 0 arguments).steady.of_ok hbound).inFrame
    have hsteps' : method.body.size ≤ 0 + steps := by omega
    obtain ⟨outcome, hbody⟩ : ∃ outcome, body nested name method.body steps 0 m₁ = some outcome :=
      answers_body hnested hforward hsteps' (h.inFrame hm₁)
    dsimp only
    rw [bind_eq, hbody]
    cases outcome with
    | error e m₂ => exact ⟨_, rfl⟩
    | ok u m₂ =>
      dsimp only
      rw [bind_lift_lift]
      exact ⟨_, rfl⟩

theorem answers_invokeOne [Host] (hnested : KeepsFrames nested) (hforward : m.image.Forward) {steps : Nat}
    (hsteps : m.image.longestBody ≤ steps) {r : Request}
    (h : m.stack.depth ≤ m.settings.maxCallDepth → ∀ request m', m.Deeper m' →
      ∃ res, nested request m' = some res) :
    ∃ res, invokeOne nested steps r m = some res := by
  unfold invokeOne
  rw [bind_lift]
  cases haccept : Exec.accept r m with
  | error e m₁ => exact ⟨_, rfl⟩
  | ok accepted m₁ =>
    obtain ⟨method, name⟩ := accepted
    have hmethod := Machine.mem_of_methodAt (Exec.accept_eq_ok haccept).1
    dsimp only
    by_cases hnative : method.isNative = true
    · rw [if_pos hnative]
      exact ⟨_, rfl⟩
    rw [if_neg hnative, bind_lift]
    cases henter : Exec.enterFrame method name r m₁ with
    | error e m₂ => exact ⟨_, rfl⟩
    | ok u m₂ =>
      have hroom := Exec.room_of_accept haccept
      have hanswers : Answers nested m₂ := fun request m' hm' =>
        h hroom request m' ((Exec.deeper_of_enterFrame haccept henter).inFrame hm')
      have hlong := Nat.le_trans (Image.size_le_longestBody hmethod) hsteps
      obtain ⟨outcome, hexecute⟩ :
          ∃ outcome, execute nested steps method name r.arguments m₂ = some outcome :=
        answers_execute hnested (hforward method hmethod) hlong hanswers r.arguments
      dsimp only
      rw [bind_attempt, hexecute]
      cases outcome with
      | error e m₃ => exact ⟨_, rfl⟩
      | ok captured m₃ => exact ⟨_, rfl⟩

/-- **An invocation in a program that branches onward ends**, if the nesting can reach the limit on the
call depth. -/
theorem answers_invokeNested [Host] [Host.Orderly] {steps depth : Nat} (hforward : m.image.Forward)
    (hsteps : m.image.longestBody ≤ steps) (h : m.settings.maxCallDepth < m.stack.depth + depth)
    (r : Request) : ∃ res, invokeNested steps (depth + 1) r m = some res := by
  induction depth generalizing r m with
  | zero =>
    refine answers_invokeOne (keepsFrames_invokeNested steps 0) hforward hsteps fun hroom => ?_
    omega
  | succ depth ih =>
    refine answers_invokeOne (keepsFrames_invokeNested steps (depth + 1)) hforward hsteps ?_
    intro hroom request m' hm'
    refine ih (hm'.image ▸ hforward) (hm'.image ▸ hsteps) ?_ request
    rw [hm'.depth, hm'.settings]
    omega

/-! ## The instructions that are carried out -/

/-- A number of instructions for each invocation. -/
abbrev Count := Request → Machine → Nat

/-- The number of instructions that one instruction stands for: itself, and those of the invocation
that it asks for. -/
def stepCount (counted : Count) (length : Nat) (i : Instruction) (m : Machine) : Nat :=
  match Exec.step length i m with
  | .ok (.invoke request _) m₁ => 1 + counted request m₁
  | _ => 1

/-- The number of instructions that a body carries out from a place on. -/
def bodyCount (nested : Invoke) (counted : Count) (name : String) (code : Array Instruction) :
    (steps index : Nat) → Machine → Nat
  | 0, _, _ => 0
  | steps + 1, index, m =>
    match code[index]? with
    | none => 0
    | some i =>
      stepCount counted code.size i (m.noting (.executing name index i)) +
        match stepAt nested name code index i m with
        | some (.ok .finish _) => 0
        | some (.ok flow m₁) => bodyCount nested counted name code steps (flow.place index) m₁
        | _ => 0

/-- **The number of instructions that an invocation carries out**, those of the invocations nested in
it included, whether or not it comes to an end. -/
def invokeCount [Host] (steps : Nat) : (depth : Nat) → Count
  | 0, _, _ => 0
  | depth + 1, r, m =>
    match Exec.accept r m with
    | .error .. => 0
    | .ok (method, name) m₁ =>
      if method.isNative then 0
      else
        match (Exec.enterFrame method name r >>= fun _ => Exec.bindArguments 0 r.arguments) m₁ with
        | .error .. => 0
        | .ok _ m₂ =>
          bodyCount (invokeNested steps depth) (invokeCount steps depth) name method.body steps 0 m₂

variable {counted : Count} {bound : Nat}

theorem stepCount_le (h : ∀ r m', m.InFrame m' → counted r m' ≤ bound) (length : Nat)
    (i : Instruction) : stepCount counted length i m ≤ 1 + bound := by
  unfold stepCount
  split
  · rename_i request p m₁ hstep
    exact Nat.add_le_add_left (h request m₁ (Exec.inFrame_of_invoke hstep)) 1
  · exact Nat.le_add_right 1 bound

/-- **A body that branches onward carries out each of its instructions once at most.** -/
theorem bodyCount_le (hnested : KeepsFrames nested) {method : Method} (hforward : method.Forward)
    {steps index : Nat} (h : ∀ r m', m.InFrame m' → counted r m' ≤ bound) :
    bodyCount nested counted name method.body steps index m ≤
      (method.body.size - index) * (1 + bound) := by
  induction steps generalizing index m with
  | zero => exact Nat.zero_le _
  | succ steps ih =>
    unfold bodyCount
    cases hi : method.body[index]? with
    | none => exact Nat.zero_le _
    | some i =>
      obtain ⟨hindex, -⟩ := Array.getElem?_eq_some_iff.mp hi
      have hone : stepCount counted method.body.size i (m.noting (.executing name index i)) ≤ 1 + bound :=
        stepCount_le (fun r m' hm' => h r m' ((m.inFrame_noting _).trans hm')) _ i
      -- What is left behind this place is at least one instruction shorter.
      have hrest : ∀ later, index < later →
          1 + bound + (method.body.size - later) * (1 + bound) ≤
            (method.body.size - index) * (1 + bound) := by
        intro later hlater
        obtain ⟨left, hleft⟩ : ∃ left, method.body.size - index = left + 1 :=
          ⟨method.body.size - index - 1, by omega⟩
        rw [hleft, Nat.succ_mul, Nat.add_comm]
        exact Nat.add_le_add_right (Nat.mul_le_mul_right _ (by omega)) _
      have hnone : 1 + bound ≤ (method.body.size - index) * (1 + bound) :=
        Nat.le_mul_of_pos_left _ (by omega)
      dsimp only
      split
      · omega
      · rename_i flow m₁ _ hstep
        have hlater := lt_place hforward hi hstep
        have hm₁ : m.InFrame m₁ := (moved_stepAt hnested hstep).inFrame
        have hcount : bodyCount nested counted name method.body steps (flow.place index) m₁ ≤
            (method.body.size - flow.place index) * (1 + bound) :=
          ih fun r m' hm' => h r m' (hm₁.trans hm')
        have hsum := hrest _ hlater
        omega
      · omega

/-- **An invocation keeps to its budget**, by induction on how deep invocations are nested. -/
theorem invokeCount_le [Host] [Host.Orderly] (steps depth : Nat) (hforward : m.image.Forward) (r : Request) :
    invokeCount steps depth r m ≤ m.image.budget (m.settings.maxCallDepth + 1 - m.stack.depth) := by
  induction depth generalizing r m with
  | zero => exact Nat.zero_le _
  | succ depth ih =>
    unfold invokeCount
    split
    · exact Nat.zero_le _
    · rename_i method name m₁ haccept
      have hroom := Exec.room_of_accept haccept
      have hmethod := Machine.mem_of_methodAt (Exec.accept_eq_ok haccept).1
      split
      · exact Nat.zero_le _
      · split
        · exact Nat.zero_le _
        · rename_i u m₃ hready
          obtain ⟨_, m₂, henter, hbind⟩ := Exec.bind_eq_ok.mp hready
          have hbound := ((Exec.touches_bindArguments 0 r.arguments).steady.of_ok hbind).inFrame
          have hm₃ := (Exec.deeper_of_enterFrame haccept henter).inFrame hbound
          have hnested : ∀ request m', m₃.InFrame m' → invokeCount steps depth request m' ≤
              m.image.budget (m.settings.maxCallDepth - m.stack.depth) := by
            intro request m' hframe
            have hm' := hm₃.inFrame hframe
            have hcount := ih (m := m') (hm'.image ▸ hforward) request
            rw [hm'.depth, hm'.settings, hm'.image, Nat.add_sub_add_right] at hcount
            exact hcount
          have hbody : bodyCount (invokeNested steps depth) (invokeCount steps depth) name method.body
              steps 0 m₃ ≤ method.body.size *
                (1 + m.image.budget (m.settings.maxCallDepth - m.stack.depth)) :=
            bodyCount_le (keepsFrames_invokeNested steps depth) (hforward method hmethod) hnested
          rw [Nat.succ_sub hroom, Image.budget]
          exact Nat.le_trans hbody (Nat.mul_le_mul_right _ (Image.size_le_longestBody hmethod))

/-! ## The main statement -/

/-- **Programs that branch onward end.** Let the branches of every method lead onward, and let no native
of the host invoke one. Then each invocation, from any machine, comes to an end, which is the same for every number of steps that
suffices for the longest body and every bound on the nesting above the call depth; no run of it, of
whatever length, carries out more instructions than the budget; and no release is cut short. -/
theorem ends_of_forward [Host] [Host.Orderly] (hforward : m.image.Forward) (r : Request) :
    (∃ res, ∀ steps depth, m.image.longestBody ≤ steps → m.settings.maxCallDepth + 2 ≤ depth →
        invokeNested steps depth r m = some res) ∧
      (∀ steps depth, invokeCount steps depth r m ≤ m.image.budget (m.settings.maxCallDepth + 1)) ∧
      ∀ (m' : Machine) (targets : List Address) (count : Nat), m'.heap.objects.length ≤ count →
        Exec.releaseUpTo count targets.reverse m' = Exec.release targets m' := by
  refine ⟨?_, ?_, fun m' targets count => Exec.releaseUpTo_eq targets⟩
  · have hroom : m.settings.maxCallDepth < m.stack.depth + (m.settings.maxCallDepth + 1) := by omega
    obtain ⟨res, hres⟩ := answers_invokeNested hforward (Nat.le_refl _) hroom r
    refine ⟨res, fun steps depth hsteps hdepth => ?_⟩
    rw [invokeNested_eq_invoke steps r hdepth]
    exact extends_invokeNested hsteps _ hres
  · intro steps depth
    exact Nat.le_trans (invokeCount_le steps depth hforward r) (Image.budget_mono (Nat.sub_le _ _))

/-- Two methods that invoke each other without end, the second one behind a branch, and a machine with
room for three frames beside that of its host. -/
def endless : Machine :=
  let image : Image :=
    { constants := #[⟨.primitive .bool, 0⟩]
      pool := #[0]
      types := #[
        { name := "Endless", category := .object, isStatic := true },
        { name := "void", category := .void }]
      memberRefs := #[⟨0, .method 0⟩, ⟨0, .method 1⟩]
      methods := #[
        { name := "ping", owner := 0, returnType := 1, isStatic := true
          body := #[⟨.call, 1⟩, ⟨.ret, 0⟩] },
        { name := "pong", owner := 0, returnType := 1, isStatic := true
          body := #[⟨.ldc, 0⟩, ⟨.brfalse, 3⟩, ⟨.ret, 0⟩, ⟨.call, 0⟩, ⟨.ret, 0⟩] }] }
  { image
    types := (TypeTable.ofImage image).toOption.getD {}
    settings := { maxCallDepth := 3 }
    heap := { settings := { initialSize := 64 }, arena := .zeroed 64 }
    stack := (FrameStack.create 256 256).enter { totalSize := 16, maxDepth := 1 } 256 }

open scoped Host in
/-- Five instructions are carried out: a call, three of the other method, and a call again, in which
the next one is refused. -/
theorem ends_of_forward_endless : endless.image.Forward ∧
    (endless.image.longestBody = 5 ∧ endless.image.budget 4 = 780) ∧
    invokeCount 5 5 { method := 0 } endless = 5 ∧
    (∃ res, ∀ steps depth, 5 ≤ steps → 5 ≤ depth →
      invokeNested steps depth { method := 0 } endless = some res) ∧
    ∀ steps depth, invokeCount steps depth { method := 0 } endless ≤ 780 := by
  have hforward : endless.image.Forward := by decide +kernel
  obtain ⟨hends, hcount, -⟩ := ends_of_forward hforward { method := 0 }
  exact ⟨hforward, by decide +kernel, by decide +kernel, hends, hcount⟩

end Run

end ManagedVm
