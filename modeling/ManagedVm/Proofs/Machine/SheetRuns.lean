import ManagedVm.Proofs.Machine.SheetSteps

/-!
# Runs on a sheet

The rules by which instructions change a sheet (`ArrayScene.Step`), and the paths through a body that they make
(`ArrayScene.Path`). A machine that shows the sheet at the begin of a path comes to show the one at its end, if
the scratch for that fits in the arena, and fails for want of scratch on the way otherwise
(`ArrayScene.Path.body`). The cursor never goes back on a path, so it is the cursor at the end that decides.
-/

namespace ManagedVm

open scoped Naturals

namespace ArrayScene

open Exec

/-! ## The rules -/

/-- **How an instruction changes a sheet**, in a body of the given length, and how the body goes on. -/
inductive Step (g : ArrayScene) (length : Nat) (t : Sheet) : Instruction → Flow → Sheet → Prop
  | constant {x : Int32} {w : Cell} :
      g.image.cell? x = some w → t.values.length < g.depth →
      Step g length t ⟨.ldc, x⟩ .next (t.put (.cell w))
  | load {x : Int32} {c : Content} :
      t.local? x = some c → c ≠ .null → t.values.length < g.depth →
      Step g length t ⟨.ldloc, x⟩ .next (t.put c)
  | store {x : Int32} {s old : Scalar} {cs : List Content} :
      t.values = .number s :: cs → t.local? x = some (.number old) → s.kind = old.kind →
      Step g length t ⟨.stloc, x⟩ .next ({ t with values := cs }.setLocal x (.number s))
  | keep {x : Int32} {ws : List Scalar} {cs : List Content} :
      t.values = .array :: cs → t.array = some ws → t.local? x = some .null →
      Step g length t ⟨.stloc, x⟩ .next ({ t with values := cs }.setLocal x .array)
  | binary {i : Instruction} {operator : Scalar.Operator} {a b s : Scalar} {cs : List Content} :
      i.op.operator? = some operator → t.values = .number b :: .number a :: cs →
      Scalar.binary operator a b = .ok s → cs.length < g.depth →
      Step g length t i .next ({ t with values := cs }.put (.number s))
  | compare {i : Instruction} {c : Scalar.Comparison} {a b : Scalar} {holds : Bool} {cs : List Content} :
      i.op.comparison? = some c → t.values = .number b :: .number a :: cs →
      Scalar.compare c a b = .ok holds → cs.length < g.depth →
      Step g length t i .next ({ t with values := cs }.put (.number (.bool holds)))
  | jump {x : Int32} {target : Nat} :
      branchTarget x length = .ok target → Step g length t ⟨.br, x⟩ (.jump target) t
  | branch (wanted : Bool) {x : Int32} {target : Nat} {s : Scalar} {cs : List Content} :
      branchTarget x length = .ok target → t.values = .number s :: cs →
      Step g length t ⟨if wanted then .brtrue else .brfalse, x⟩
        (if s.isTruthy = wanted then .jump target else .next) { t with values := cs }
  | newArray {x : Int32} {type : TypeId} {s : Scalar} {n : Nat} {cs : List Content} :
      t.values = .number s :: cs → t.array = none → ¬ x < 0 →
      g.types.declared? x.toInt.toNat = .ok type → g.Suits type .array →
      WordKind.long.value (s.toWord .long) = n → n < UInt32.size →
      Heap.alignment + Heap.reserved (g.arraySize n) ≤ g.settings.maxSize.toNat → cs.length < g.depth →
      Step g length t ⟨.newarr, x⟩ .next
        { t with values := .array :: cs, array := some (List.replicate n (.zero g.kind)) }
  | length {x : Int32} {ws : List Scalar} {cs : List Content} :
      t.values = .array :: cs → t.array = some ws → .array ∈ t.locals → cs.length < g.depth →
      Step g length t ⟨.ldlen, x⟩ .next ({ t with values := cs }.put (.number (.ofInt .int ws.length)))
  | element {x : Int32} {ws : List Scalar} {i : Nat} {k w : Scalar} {cs : List Content} :
      t.values = .array :: .number k :: cs → t.array = some ws → .array ∈ t.locals →
      WordKind.long.value (k.toWord .long) = i → ws[i]? = some w → cs.length < g.depth →
      Step g length t ⟨.ldelem, x⟩ .next ({ t with values := cs }.put (.number w))
  | setElement {x : Int32} {ws : List Scalar} {i : Nat} {k s : Scalar} {cs : List Content} :
      t.values = .array :: .number k :: .number s :: cs → t.array = some ws → .array ∈ t.locals →
      WordKind.long.value (k.toWord .long) = i → i < ws.length → s.kind = g.kind →
      Step g length t ⟨.stelem, x⟩ .next { t with values := cs, array := some (ws.set i s) }

section Sound

variable {g : ArrayScene} {m : Machine} {t t' : Sheet} {i : Instruction} {flow : Flow} {length : Nat}

/-- An instruction that is followed by the next one. -/
theorem step_next (hstep : Exec.step length i = (perform i >>= fun _ => pure .next))
    (h : g.Delivers t' (perform i m)) :
    g.Yields t'.cursor (fun flow m' => flow = .next ∧ g.Shows m' t') (Exec.step length i m) := by
  rw [hstep]
  exact h.bind fun _ m' h' => ⟨_, m', rfl, rfl, h'⟩

/-- An instruction that asks for no scratch. -/
theorem step_shown (h : ∃ m', Exec.step length i m = .ok flow m' ∧ g.Shows m' t') :
    g.Yields t'.cursor (fun flow' m' => flow' = flow ∧ g.Shows m' t') (Exec.step length i m) := by
  obtain ⟨m', heq, h'⟩ := h
  rw [heq]
  exact .ok ⟨rfl, h'⟩

/-- An instruction that asks for no scratch and is followed by the next one. -/
theorem step_next_shown (hstep : Exec.step length i = (perform i >>= fun _ => pure .next))
    (h : ∃ m', perform i m = .ok ⟨⟩ m' ∧ g.Shows m' t') :
    g.Yields t'.cursor (fun flow m' => flow = .next ∧ g.Shows m' t') (Exec.step length i m) := by
  obtain ⟨m', heq, h'⟩ := h
  refine step_shown ⟨m', ?_, h'⟩
  rw [hstep]
  exact bind_of_ok heq

/-- **The rules are sound.** -/
theorem Step.sound (hstep : g.Step length t i flow t') (h : g.Shows m t) :
    g.Yields t'.cursor (fun flow' m' => flow' = flow ∧ g.Shows m' t') (Exec.step length i m) := by
  cases hstep with
  | constant hs hroom => exact step_next rfl (constant_delivers h hs hroom)
  | @load x c hx hnull hroom =>
    cases c with
    | cell w => exact step_next rfl (load_cell_delivers h hx hroom)
    | array => exact step_next_shown rfl (load_array_shows h hx hroom)
    | null => exact absurd rfl hnull
  | store hvalues hx hkind => exact step_next_shown rfl (store_number_shows h hvalues hx hkind)
  | keep hvalues harray hx => exact step_next_shown rfl (store_array_shows h hvalues harray hx)
  | binary hop hvalues hs hroom =>
    refine step_next ?_ (binary_delivers h hop hvalues hs hroom)
    obtain ⟨op, x⟩ := i
    cases op <;> first | rfl | cases hop
  | compare hop hvalues hholds hroom =>
    have hcompare := compare_delivers h i.op hvalues hholds hroom
    obtain ⟨op, x⟩ := i
    cases op <;> cases hop <;> exact step_next rfl hcompare
  | jump htarget =>
    have hquery : query (fun _ => branchTarget _ length) m = .ok _ m := query_of_ok htarget
    exact step_shown ⟨m, bind_of_ok hquery, h⟩
  | branch wanted htarget hvalues =>
    have hbranch := branchIf_shows h wanted htarget hvalues
    cases wanted with
    | true => exact step_shown hbranch
    | false => exact step_shown hbranch
  | newArray hvalues harray hx htype hsuits hlength hshort hfits hroom =>
    exact step_next_shown rfl (newArray_shows h hvalues harray hx htype hsuits hlength hshort hfits hroom)
  | length hvalues harray hmem hroom => exact step_next rfl (length_delivers h harray hmem hvalues hroom _)
  | element hvalues harray hmem hk hi hroom =>
    exact step_next rfl (element_delivers h harray hmem hvalues hk hi hroom _)
  | setElement hvalues harray hmem hk hi hkind =>
    exact step_next_shown rfl (setElement_shows h harray hmem hvalues hk hi hkind _)

theorem Step.cursor_le (hstep : g.Step length t i flow t') : t.cursor ≤ t'.cursor := by
  cases hstep <;> first | exact Nat.le_refl _ | exact Nat.le_add_right _ _

/-- No rule ends the body or invokes a method. -/
theorem Step.goes_on (hstep : g.Step length t i flow t') : flow = .next ∨ ∃ target, flow = .jump target := by
  cases hstep with
  | jump => exact .inr ⟨_, rfl⟩
  | branch =>
    split
    · exact .inr ⟨_, rfl⟩
    · exact .inl rfl
  | _ => exact .inl rfl

end Sound

/-! ## Paths -/

/-- **A path through a body**: so many instructions lead from a place with a sheet to another one. -/
inductive Path (g : ArrayScene) (code : Array Instruction) : Nat → Nat → Sheet → Nat → Sheet → Prop
  | refl {k : Nat} {t : Sheet} : Path g code 0 k t k t
  | step {n k k' : Nat} {t t' t'' : Sheet} {i : Instruction} {flow : Flow} :
      code[k]? = some i → g.Step code.size t i flow t' → Path g code n (flow.place k) t' k' t'' →
        Path g code (n + 1) k t k' t''

section Path

variable {g : ArrayScene} {code : Array Instruction} {n n' k k' k'' : Nat} {t t' t'' : Sheet}

theorem Path.trans (hpath : g.Path code n k t k' t') (hpath' : g.Path code n' k' t' k'' t'') :
    g.Path code (n + n') k t k'' t'' := by
  induction hpath with
  | refl =>
    rw [Nat.zero_add]
    exact hpath'
  | step hi hstep _ ih =>
    rw [Nat.add_right_comm]
    exact .step hi hstep (ih hpath')

theorem Path.cursor_le (hpath : g.Path code n k t k' t') : t.cursor ≤ t'.cursor := by
  induction hpath with
  | refl => exact Nat.le_refl _
  | step _ hstep _ ih => exact hstep.cursor_le.trans ih

end Path

end ArrayScene

/-! ## Bodies -/

namespace Run

variable (nested : Invoke) {name : String} {code : Array Instruction} {k : Nat} {m m' : Machine}
  {i : Instruction}

/-- An instruction that the body goes on after. -/
theorem body_of_goes_on {flow : Flow} (hi : code[k]? = some i)
    (hstep : Exec.step code.size i (m.noting (.executing name k i)) = .ok flow m')
    (hflow : flow = .next ∨ ∃ target, flow = .jump target) (steps : Nat) :
    body nested name code (steps + 1) k m = body nested name code steps (flow.place k) m' := by
  have hstepAt : stepAt nested name code k i m = some (.ok flow m') := by
    unfold stepAt step
    rw [bind_lift, hstep]
    rcases hflow with rfl | ⟨target, rfl⟩ <;> rfl
  rw [body_succ hi, hstepAt]
  rcases hflow with rfl | ⟨target, rfl⟩ <;> rfl

/-- An instruction that fails. -/
theorem body_of_error {e : Error} (hi : code[k]? = some i)
    (hstep : Exec.step code.size i (m.noting (.executing name k i)) = .error e m') :
    ∃ m'', ∀ steps, body nested name code (steps + 1) k m = some (.error (.fault name k i e) m'') := by
  have hstepAt : stepAt nested name code k i m = some (.error e m') := by
    unfold stepAt step
    rw [bind_lift, hstep]
  obtain ⟨m'', hfail⟩ := fail_eq name k i e m'
  refine ⟨m'', fun steps => ?_⟩
  rw [body_succ hi, hstepAt]
  exact congrArg some hfail

/-- The body ends at a return. -/
theorem body_of_ret {x : Int32} (hi : code[k]? = some ⟨.ret, x⟩) (steps : Nat) :
    body nested name code (steps + 1) k m = some (.ok () (m.noting (.executing name k ⟨.ret, x⟩))) := by
  rw [body_succ hi]
  rfl

end Run

namespace ArrayScene

variable {g : ArrayScene} {code : Array Instruction} {n k k' : Nat} {t t' : Sheet} {m : Machine}

/-- **A machine follows a path** to its end if the scratch for it fits, and fails on the way if not. -/
theorem Path.body (hpath : g.Path code n k t k' t') (h : g.Shows m t) (nested : Run.Invoke)
    (name : String) :
    (t'.cursor ≤ g.limit ∧ ∃ m', g.Shows m' t' ∧ ∀ steps,
      Run.body nested name code (n + steps) k m = Run.body nested name code steps k' m') ∨
    (g.limit < t'.cursor ∧ ∃ e m' needed, e.rootCause = .stackOverflow needed g.limit ∧ ∀ steps,
      Run.body nested name code (n + steps) k m = some (.error e m')) := by
  induction hpath generalizing m with
  | refl =>
    refine .inl ⟨h.cursor_le, m, h, fun steps => ?_⟩
    rw [Nat.zero_add]
  | @step n k k' t t' t'' i flow hi hstep hpath ih =>
    have hyields := hstep.sound (h.noting (.executing name k i))
    generalize hr : Exec.step code.size i (m.noting (.executing name k i)) = r at hyields
    cases hyields with
    | lacking hover =>
      obtain ⟨m'', hbody⟩ := Run.body_of_error nested hi hr
      refine .inr ⟨hover.trans_le hpath.cursor_le, .fault name k i (.stackOverflow t'.cursor g.limit), m'',
        t'.cursor, rfl, fun steps => ?_⟩
      rw [Nat.add_right_comm]
      exact hbody _
    | ok hQ =>
      obtain ⟨rfl, h'⟩ := hQ
      have hbody := Run.body_of_goes_on nested hi hr hstep.goes_on
      rcases ih h' with ⟨hfits', m'', h'', heq⟩ | ⟨hover, e, m'', needed, hroot, heq⟩
      · refine .inl ⟨hfits', m'', h'', fun steps => ?_⟩
        rw [Nat.add_right_comm, hbody, heq]
      · refine .inr ⟨hover, e, m'', needed, hroot, fun steps => ?_⟩
        rw [Nat.add_right_comm, hbody, heq]

end ArrayScene

end ManagedVm
