import Mathlib.Data.List.Induction
import ManagedVm.Assembler.Basic
import ManagedVm.Proofs.Machine.Body

/-!
# Labels and their branches

A routine is written from front to back, and a branch may lead to a label that has no place yet, or
that gets another one later. So the assembler keeps a list of branches and writes the places in when
the method is added. What a reader of the program expects is said here of the edits alone, without
that list: a label stands where it was bound last (`BoundAt`), every instruction stands where it was
added, and a branch leads to its label (`Item.Becomes`). The routine follows the edits one by one
(`Mirrors`), and from it the finished method is known (`patched_of_scoped`).

An operand has 32 bits. Whatever place it can name is one that the branch may lead to, so that a branch
to a label never faults for its target, whatever the state of the machine. The places from `2 ^ 31` on
cannot be named, and nothing keeps a body from being so long: of such a place the operand holds the low
32 bits, and the branch leads to another instruction or faults in every machine (`Strays`).
-/

namespace ManagedVm

namespace Assembler.Routine

/-! ## Edits -/

/-- The branches that lead to a label. -/
inductive Jump
  | always
  | ifTrue
  | ifFalse
  deriving DecidableEq

/-- The opcode of the branch. -/
def Jump.opcode : Jump → Opcode
  | always => .br
  | ifTrue => .brtrue
  | ifFalse => .brfalse

/-- What is done to a routine. -/
inductive Edit
  | addParameter (name : String) (type : Nat)
  | addLocal (name : String) (type : Nat)
  | emit (i : Instruction)
  | addLabel
  | bind (l : Label)
  | branch (jump : Jump) (l : Label)
  deriving DecidableEq

namespace Edit

/-- Makes the edit. -/
def apply (r : Routine) : Edit → Routine
  | addParameter name type => r.addParameter name type
  | addLocal name type => r.addLocal name type
  | emit i => r.emit i
  | addLabel => r.addLabel.2
  | bind l => r.bind l
  | branch jump l => r.branch jump.opcode l

/-- The label that the edit uses. -/
def label? : Edit → Option Label
  | bind l | branch _ l => some l
  | _ => none

/-- The parameter that the edit adds. -/
def parameter? : Edit → Option Variable
  | addParameter name type => some ⟨name, type⟩
  | _ => none

/-- The local that the edit adds. -/
def local? : Edit → Option Variable
  | addLocal name type => some ⟨name, type⟩
  | _ => none

end Edit

/-- The routine that edits make of a method, from an empty body on. -/
def edited (m : Method) (edits : List Edit) : Routine :=
  edits.foldl Edit.apply { method := { m with body := #[] } }

/-- **The edits use labels of their own routine only**: a label is there before it is used. -/
def Scoped (edits : List Edit) : Prop :=
  ∀ k < edits.length, ∀ l ∈ edits[k]? >>= Edit.label?, l.number < (edits.take k).count .addLabel

instance (edits : List Edit) : Decidable (Scoped edits) := by
  unfold Scoped
  infer_instance

/-! ## What the edits say -/

/-- What the body has at one place: an instruction as it was given, or a branch to a label. -/
inductive Item
  | plain (i : Instruction)
  | branch (jump : Jump) (l : Label)

/-- What the edit adds to the body. -/
def Edit.item? : Edit → Option Item
  | emit i => some (.plain i)
  | branch jump l => some (.branch jump l)
  | _ => none

/-- What the edits add to the body, in order. -/
def items (edits : List Edit) : List Item := edits.filterMap Edit.item?

/-- **The last place of a label**: how much of the body was there when it was bound for the last time. -/
def BoundAt (edits : List Edit) (l : Label) (place : Nat) : Prop :=
  ∃ before after, edits = before ++ .bind l :: after ∧ .bind l ∉ after ∧ place = (items before).length

/-- **What becomes of an item** in a finished body of a size. -/
inductive Item.Becomes (edits : List Edit) (size : Nat) : Item → Instruction → Prop
  | plain (i : Instruction) : Becomes edits size (.plain i) i
  | branch {jump : Jump} {l : Label} {place : Nat} : BoundAt edits l place → place ≤ size →
      Becomes edits size (.branch jump l) ⟨jump.opcode, .ofNat place⟩

/-- The method that the edits declare, with a body. -/
def declared (m : Method) (edits : List Edit) (body : Array Instruction) : Method :=
  { m with
    parameters := m.parameters ++ edits.filterMap Edit.parameter?
    locals := m.locals ++ edits.filterMap Edit.local?
    body }

theorem items_concat (edits : List Edit) (e : Edit) :
    items (edits ++ [e]) = items edits ++ e.item?.toList := by
  unfold items
  rw [List.filterMap_append]
  cases h : e.item? <;> simp [h]

section Bound

variable {edits : List Edit} {e : Edit} {l : Label} {place : Nat}

theorem boundAt_concat : BoundAt (edits ++ [e]) l place ↔
    e = .bind l ∧ place = (items edits).length ∨ e ≠ .bind l ∧ BoundAt edits l place := by
  constructor
  · rintro ⟨before, after, heq, hlast, rfl⟩
    rcases List.eq_nil_or_concat after with rfl | ⟨after, e', rfl⟩
    · obtain ⟨rfl, he⟩ := List.append_inj' heq rfl
      exact .inl ⟨List.singleton_inj.mp he, rfl⟩
    · rw [List.concat_eq_append] at heq hlast
      have hsplit : edits ++ [e] = (before ++ .bind l :: after) ++ [e'] := by simpa using heq
      obtain ⟨rfl, he⟩ := List.append_inj' hsplit rfl
      obtain rfl := List.singleton_inj.mp he
      simp only [List.mem_append, List.mem_singleton, not_or] at hlast
      exact .inr ⟨fun h => hlast.2 h.symm, before, after, rfl, hlast.1, rfl⟩
  · rintro (⟨rfl, rfl⟩ | ⟨hne, before, after, rfl, hlast, rfl⟩)
    · exact ⟨edits, [], rfl, List.not_mem_nil, rfl⟩
    · refine ⟨before, after ++ [e], by simp, ?_, rfl⟩
      simp only [List.mem_append, List.mem_singleton, not_or]
      exact ⟨hlast, fun h => hne h.symm⟩

theorem exists_boundAt : (∃ place, BoundAt edits l place) ↔ .bind l ∈ edits := by
  constructor
  · rintro ⟨place, before, after, rfl, -⟩
    simp
  · intro hmem
    induction edits using List.reverseRecOn with
    | nil => cases hmem
    | append_singleton edits e ih =>
      by_cases he : e = .bind l
      · exact ⟨_, boundAt_concat.mpr (.inl ⟨he, rfl⟩)⟩
      · have hmem : Edit.bind l ∈ edits := by
          rcases List.mem_append.mp hmem with hmem | hmem
          · exact hmem
          · exact absurd (List.mem_singleton.mp hmem).symm he
        obtain ⟨place, hplace⟩ := ih hmem
        exact ⟨place, boundAt_concat.mpr (.inr ⟨he, hplace⟩)⟩

theorem BoundAt.le (h : BoundAt edits l place) : place ≤ (items edits).length := by
  obtain ⟨before, after, rfl, -, rfl⟩ := h
  simp [items]

end Bound

theorem scoped_concat {edits : List Edit} {e : Edit} (h : Scoped (edits ++ [e])) :
    Scoped edits ∧ ∀ l ∈ e.label?, l.number < edits.count .addLabel := by
  constructor
  · intro k hk l hl
    have hscoped := h k (by simp; omega) l (by rwa [List.getElem?_append_left hk])
    rwa [List.take_append_of_le_length (Nat.le_of_lt hk)] at hscoped
  · intro l hl
    have hscoped := h edits.length (by simp) l (by simpa using hl)
    rwa [List.take_left] at hscoped

/-! ## Places of branches -/

/-- The label that the item leads to. -/
def Item.label? : Item → Option Label
  | plain _ => none
  | branch _ l => some l

/-- The instruction that stands for the item until the labels are placed. -/
def Item.draft : Item → Instruction
  | plain i => i
  | branch jump _ => ⟨jump.opcode, -1⟩

/-- The places of the branches among items, with the labels they lead to. -/
def sites (xs : List Item) : List (Nat × Label) :=
  xs.zipIdx.filterMap fun p => p.1.label?.map (p.2, ·)

theorem sites_concat (xs : List Item) (x : Item) :
    sites (xs ++ [x]) = sites xs ++ (x.label?.map (xs.length, ·)).toList := by
  unfold sites
  rw [List.zipIdx_append, List.filterMap_append]
  cases h : x.label? <;> simp [h]

theorem mem_sites {xs : List Item} {k : Nat} {l : Label} :
    (k, l) ∈ sites xs ↔ ∃ jump, xs[k]? = some (.branch jump l) := by
  simp only [sites, List.mem_filterMap, Option.map_eq_some_iff]
  constructor
  · rintro ⟨⟨x, j⟩, hx, l', hl, heq⟩
    cases heq
    rw [List.mem_zipIdx_iff_getElem?] at hx
    cases x with
    | plain i => cases hl
    | branch jump l =>
      cases hl
      exact ⟨jump, hx⟩
  · rintro ⟨jump, hx⟩
    exact ⟨(.branch jump l, k), List.mem_zipIdx_iff_getElem?.mpr hx, l, rfl, rfl⟩

/-- The branches are listed in the order of their places. -/
theorem pairwise_sites (xs : List Item) : (sites xs).Pairwise fun s t => s.1 < t.1 := by
  have hplaces : (xs.zipIdx).Pairwise fun p q => p.2 < q.2 := by
    rw [← List.pairwise_map (f := Prod.snd), List.zipIdx_map_snd]
    exact List.pairwise_lt_range' 1
  apply hplaces.filterMap
  rintro p q hlt s hs t ht
  obtain ⟨_, -, rfl⟩ := Option.map_eq_some_iff.mp hs
  obtain ⟨_, -, rfl⟩ := Option.map_eq_some_iff.mp ht
  exact hlt

/-! ## The routine follows the edits -/

section Apply

variable (r : Routine) (e : Edit)

theorem method_apply : (e.apply r).method = declared r.method [e] (e.apply r).method.body := by
  cases e <;> simp [declared, List.filterMap, Edit.apply, Edit.parameter?, Edit.local?, addParameter,
    addLocal, emit, addLabel, Routine.bind, branch]

theorem body_apply :
    (e.apply r).method.body.toList = r.method.body.toList ++ (e.item?.map Item.draft).toList := by
  cases e <;> simp [Edit.apply, Edit.item?, Item.draft, addParameter, addLocal, emit, addLabel,
    Routine.bind, branch]

theorem size_labels_apply : (e.apply r).labels.size = r.labels.size + [e].count .addLabel := by
  cases e <;> simp [Edit.apply, addParameter, addLocal, emit, addLabel, Routine.bind, branch]

theorem branches_apply : (e.apply r).branches.toList =
    r.branches.toList ++ ((e.item?.bind Item.label?).map (r.position, ·)).toList := by
  cases e <;> simp [Edit.apply, Edit.item?, Item.label?, addParameter, addLocal, emit, addLabel,
    Routine.bind, branch]

theorem place?_addLabel (l : Label) : (r.addLabel.2).place? l = r.place? l := by
  unfold place? addLabel
  dsimp only
  rw [Array.getElem?_push]
  split
  · rename_i hlast
    rw [hlast, Array.getElem?_size]
    rfl
  · rfl

theorem place?_bind {l : Label} (hl : l.number < r.labels.size) (l' : Label) :
    (r.bind l).place? l' = if l = l' then some r.position else r.place? l' := by
  unfold place? Routine.bind
  dsimp only
  rw [Array.getElem?_setIfInBounds]
  by_cases hsame : l = l'
  · subst hsame
    simp [hl]
  · have hne : l.number ≠ l'.number := fun hnumber => hsame (by cases l; cases l'; cases hnumber; rfl)
    simp [hne, hsame]

/-- Only binding a label moves one. -/
theorem place?_apply (hlabel : ∀ l ∈ e.label?, l.number < r.labels.size) (l : Label) :
    (e.apply r).place? l = if e = .bind l then some r.position else r.place? l := by
  cases e with
  | bind l' =>
    rw [Edit.apply, place?_bind r (hlabel l' rfl)]
    simp
  | addLabel => exact place?_addLabel r l
  | addParameter | addLocal | emit | branch => rfl

end Apply

theorem declared_concat (m : Method) (edits : List Edit) (e : Edit) (body body' : Array Instruction) :
    declared m (edits ++ [e]) body = declared (declared m edits body') [e] body := by
  simp [declared, List.filterMap_append]

/-- **A routine that is as the edits say.** -/
structure Mirrors (m : Method) (edits : List Edit) (r : Routine) : Prop where
  method : r.method = declared m edits r.method.body
  body : r.method.body.toList = (items edits).map Item.draft
  count : r.labels.size = edits.count .addLabel
  places : ∀ l place, r.place? l = some place ↔ BoundAt edits l place
  branches : r.branches.toList = sites (items edits)

section Follow

variable {m : Method} {edits : List Edit} {r : Routine}

theorem Mirrors.position (h : Mirrors m edits r) : r.position = (items edits).length := by
  unfold Routine.position
  rw [← Array.length_toList, h.body, List.length_map]

/-- **One edit.** The label that it uses must be there. -/
theorem Mirrors.edit (h : Mirrors m edits r) {e : Edit}
    (hlabel : ∀ l ∈ e.label?, l.number < edits.count .addLabel) :
    Mirrors m (edits ++ [e]) (e.apply r) := by
  constructor
  case method => rw [declared_concat m edits e _ r.method.body, ← h.method, ← method_apply]
  case body =>
    rw [body_apply, items_concat, List.map_append, h.body]
    cases e.item? <;> rfl
  case count => rw [size_labels_apply, List.count_append, h.count]
  case places =>
    intro l place
    rw [place?_apply r e (h.count ▸ hlabel), boundAt_concat, h.position, ← h.places]
    by_cases hbind : e = .bind l
    · simp [hbind, eq_comm]
    · simp [hbind]
  case branches =>
    rw [branches_apply, items_concat, h.branches, h.position]
    cases hitem : e.item? with
    | none => simp
    | some x => exact (sites_concat (items edits) x).symm

/-- **All edits**, by induction on them from the last. -/
theorem mirrors_edited (m : Method) (hscoped : Scoped edits) : Mirrors m edits (edited m edits) := by
  induction edits using List.reverseRecOn with
  | nil =>
    constructor
    case places =>
      intro l place
      have hnone : ¬ BoundAt [] l place := fun h => by simpa using exists_boundAt.mp ⟨place, h⟩
      simp [edited, place?, hnone]
    all_goals simp [edited, declared, items, sites]
  | append_singleton edits e ih =>
    obtain ⟨hscoped, hlabel⟩ := scoped_concat hscoped
    unfold edited at ih ⊢
    rw [List.foldl_append]
    exact (ih hscoped).edit hlabel

end Follow

/-! ## Writing the places in -/

section Patch

variable {r : Routine} {body body' : Array Instruction} {todo : List (Nat × Label)} {e : Error}

theorem size_patch (h : r.patch body todo = .ok body') : body'.size = body.size := by
  fun_induction patch r body todo with
  | case1 body => cases h; rfl
  | case2 => cases h
  | case3 body index label rest place hplace ih => rw [ih h, Array.size_modify]

/-- What is written at a place of which no branch remains stays. -/
theorem patch_elsewhere (h : r.patch body todo = .ok body') {k : Nat} (hk : ∀ s ∈ todo, s.1 ≠ k) :
    body'[k]? = body[k]? := by
  fun_induction patch r body todo with
  | case1 body => cases h; rfl
  | case2 => cases h
  | case3 body index label rest place hplace ih =>
    obtain ⟨hhere, hrest⟩ := List.forall_mem_cons.mp hk
    rw [ih h hrest, Array.getElem?_modify, if_neg hhere]

/-- Each branch gets the place of its label, and nothing else of it changes. -/
theorem patch_ok (h : r.patch body todo = .ok body') (horder : todo.Pairwise fun s t => s.1 < t.1)
    {k : Nat} {l : Label} (hs : (k, l) ∈ todo) :
    ∃ place, r.place? l = some place ∧
      body'[k]? = body[k]?.map fun i => { i with operand := .ofNat place } := by
  fun_induction patch r body todo with
  | case1 body => cases hs
  | case2 => cases h
  | case3 body index label rest place hplace ih =>
    obtain ⟨hfirst, horder⟩ := List.pairwise_cons.mp horder
    rcases List.mem_cons.mp hs with heq | hs
    · cases heq
      refine ⟨place, hplace, ?_⟩
      rw [patch_elsewhere h fun t ht => Nat.ne_of_gt (hfirst t ht), Array.getElem?_modify, if_pos rfl]
    · obtain ⟨place', hplace', hk⟩ := ih h horder hs
      have hne : index ≠ k := Nat.ne_of_lt (hfirst _ hs)
      exact ⟨place', hplace', by rw [hk, Array.getElem?_modify, if_neg hne]⟩

/-- The error is that of the first branch whose label has no place. -/
theorem patch_error (h : r.patch body todo = .error e) :
    ∃ front k l back, todo = front ++ (k, l) :: back ∧ r.place? l = none ∧
      (∀ s ∈ front, ∃ place, r.place? s.2 = some place) ∧ e = .unboundLabel r.method.name l.number := by
  fun_induction patch r body todo with
  | case1 body => cases h
  | case2 body index label rest hplace =>
    cases h
    exact ⟨[], index, label, rest, rfl, hplace, fun s hs => (nomatch hs), rfl⟩
  | case3 body index label rest place hplace ih =>
    obtain ⟨front, k, l, back, rfl, hnone, hfront, rfl⟩ := ih h
    exact ⟨(index, label) :: front, k, l, back, rfl, hnone,
      List.forall_mem_cons.mpr ⟨⟨place, hplace⟩, hfront⟩, rfl⟩

end Patch

end Assembler.Routine

/-! ## Branches that stay in their body -/

section Branch

variable {m m' : Machine} {operand : Int32} {length target : Nat} {e : Error}

/-- An operand holds the low bits of a place. The branch leads there, if it is a number below the sign
bit, and leads nowhere otherwise. -/
theorem branchTarget_ofNat {place : Nat} (hplace : place ≤ length) :
    branchTarget (.ofNat place) length =
      if ((place % UInt32.size : Nat) : Int) ≤ Int32.maxValue.toInt then .ok (place % UInt32.size)
      else .error (.branchOutOfRange (.ofNat place)) := by
  have hmax : Int32.maxValue.toInt = 2147483647 := by decide
  have hzero : (0 : Int32).toInt = 0 := by decide
  have hvalue : (Int32.ofNat place).toInt = (place : Int).bmod 4294967296 := Int32.toInt_ofNat' ..
  rw [Int.bmod_def] at hvalue
  unfold branchTarget
  simp only [Int32.le_iff_toInt_le, hzero, hmax, UInt32.size]
  by_cases hlow : ((place % 4294967296 : Nat) : Int) ≤ 2147483647
  · have hsame : (Int32.ofNat place).toInt = (place % 4294967296 : Nat) := by
      split at hvalue <;> omega
    have hle : place % 4294967296 ≤ length := Nat.le_trans (Nat.mod_le ..) hplace
    rw [if_pos hlow, hsame, Int.toNat_natCast, if_pos ⟨Int.natCast_nonneg _, hle⟩]
  · have hnegative : (Int32.ofNat place).toInt < 0 := by
      split at hvalue <;> omega
    rw [if_neg hlow, if_neg fun h => absurd h.1 (Int.not_le.mpr hnegative)]

/-- A place that fits an operand is where the branch leads. -/
theorem branchTarget_of_fits {place : Nat} (hplace : place ≤ length)
    (hfits : (place : Int) ≤ Int32.maxValue.toInt) : branchTarget (.ofNat place) length = .ok place := by
  have hmax : Int32.maxValue.toInt = 2147483647 := by decide
  have hlow : place % UInt32.size = place := Nat.mod_eq_of_lt (by rw [UInt32.size]; omega)
  rw [branchTarget_ofNat hplace, hlow, if_pos hfits]

namespace Exec

/-- Popping a value complains about frames and depth only. -/
theorem not_isStray_of_pop (h : pop m = .error e m') : e.isFault = false ∧ e.isStray = false := by
  rcases bind_eq_error.mp h with hpop | ⟨_, _, -, h⟩
  · rcases except_bind_error.mp (query_eq_error.mp hpop).1 with hframe | ⟨f, -, h⟩
    · unfold FrameStack.current at hframe
      split at hframe <;> cases hframe
      exact ⟨rfl, rfl⟩
    · rcases except_bind_error.mp h with hvalue | ⟨_, -, h⟩
      · unfold Frame.pop at hvalue
        split at hvalue <;> cases hvalue
        exact ⟨rfl, rfl⟩
      · cases h
  · rcases bind_eq_error.mp h with h | ⟨_, _, -, h⟩ <;> cases h

theorem not_isStray_of_isData (h : e.isData = true) : e.isFault = false ∧ e.isStray = false :=
  ⟨(Error.isPlain_iff.mp (Error.isData_iff.mp h).1).2, (Error.isData_iff.mp h).2.2⟩

/-- **A branch with a target fails for other reasons only.** -/
theorem not_isStray_of_branchIf {wanted : Bool} (htarget : branchTarget operand length = .ok target)
    (h : branchIf wanted operand length m = .error e m') : e.isFault = false ∧ e.isStray = false := by
  rcases bind_eq_error.mp h with h | ⟨_, m₁, -, h⟩
  · cases (query_eq_error.mp h).1.symm.trans htarget
  rcases bind_eq_error.mp h with h | ⟨condition, m₂, -, h⟩
  · exact not_isStray_of_pop h
  rcases bind_eq_error.mp h with h | ⟨truthy, m₃, -, h⟩
  · exact not_isStray_of_isData (m₂.raisesData_isTruthy condition e (query_eq_error.mp h).1)
  rcases bind_eq_error.mp h with h | ⟨_, m₄, -, h⟩
  · exact not_isStray_of_isData ((touches_releaseValue (r := .objects) condition).of_error h).2
  · cases h

end Exec

/-- **Such a branch never faults for its target**, whatever the machine. -/
theorem Run.inRange_of_step {nested : Invoke} {jump : Assembler.Routine.Jump}
    (htarget : branchTarget operand length = .ok target)
    (h : step nested length ⟨jump.opcode, operand⟩ m = some (.error e m')) (stray : Int32) :
    e.rootCause ≠ .branchOutOfRange stray := by
  have hstep : Exec.step length ⟨jump.opcode, operand⟩ m = .error e m' := by
    rcases step_cases h with ⟨_, _, hstep, hr⟩ | ⟨_, _, -, -, hr⟩ | ⟨_, _, _, hstep, -⟩
    · cases hr
      exact hstep
    · cases hr
    · cases Exec.leads_of_step hstep with
      | call hop => cases jump <;> cases hop
      | construct hop => cases jump <;> cases hop
  have hcause : e.isFault = false ∧ e.isStray = false := by
    cases jump with
    | always =>
      rcases Exec.bind_eq_error.mp hstep with hquery | ⟨_, _, -, h⟩
      · cases (Exec.query_eq_error.mp hquery).1.symm.trans htarget
      · cases h
    | ifTrue => exact Exec.not_isStray_of_branchIf htarget hstep
    | ifFalse => exact Exec.not_isStray_of_branchIf htarget hstep
  intro hroot
  cases e with
  | fault => cases hcause.1
  | _ => cases hroot <;> cases hcause.2

/-- A branch without a target faults before it does anything else. -/
theorem Run.step_of_branchTarget_error (nested : Invoke) (jump : Assembler.Routine.Jump) (m : Machine)
    (h : branchTarget operand length = .error e) :
    step nested length ⟨jump.opcode, operand⟩ m = some (.error e m) := by
  have hstep : Exec.step length ⟨jump.opcode, operand⟩ m = .error e m := by
    cases jump <;> exact Exec.bind_of_error (Exec.query_of_error h)
  unfold step
  rw [bind_lift, hstep]

end Branch

/-! ## The finished method -/

namespace Assembler

namespace Routine

/-- **Where a branch goes whose label no operand can name.** -/
inductive Strays (size : Nat) (i : Instruction) (place : Nat) : Prop
  /-- The low bits of the place are read as another place. -/
  | elsewhere : ((place % UInt32.size : Nat) : Int) ≤ Int32.maxValue.toInt →
      branchTarget i.operand size = .ok (place % UInt32.size) → Strays size i place
  /-- The low bits are read as a negative number, which is no place. -/
  | faults : Int32.maxValue.toInt < (place % UInt32.size : Nat) →
      (∀ nested m, Run.step nested size i m = some (.error (.branchOutOfRange i.operand) m)) →
      Strays size i place

/-- **A finished body**: each item in its place, and every branch to a label within reach. -/
structure Finished (edits : List Edit) (body : Array Instruction) : Prop where
  /-- The instructions stand in the order in which they were added. -/
  becomes : List.Forall₂ (Item.Becomes edits body.size) (items edits) body.toList
  /-- A branch to a label leads there, if an operand can say so, and never faults for its target. If no
  operand can, it strays. -/
  reaches : ∀ (k : Nat) jump l, (items edits)[k]? = some (.branch jump l) →
    ∃ i place, body[k]? = some i ∧ BoundAt edits l place ∧
      ((place : Int) ≤ Int32.maxValue.toInt → branchTarget i.operand body.size = .ok place ∧
        ∀ nested m e m', Run.step nested body.size i m = some (.error e m') →
          ∀ target, e.rootCause ≠ .branchOutOfRange target) ∧
      (Int32.maxValue.toInt < place → Strays body.size i place)

/-- **How a routine is added to an image.** -/
structure Patched (m : Method) (edits : List Edit) (draft : Draft) : Prop where
  /-- It is added exactly if every label that a branch leads to was bound, before or after the branch. -/
  accepted : (∃ index draft', addMethod (edited m edits) draft = .ok index draft') ↔
    ∀ jump l, .branch jump l ∈ edits → .bind l ∈ edits
  /-- Otherwise the error names the label of the first branch that leads nowhere, and the image stays. -/
  refused : ∀ e draft', addMethod (edited m edits) draft = .error e draft' → draft' = draft ∧
    ∃ (k : Nat) (jump : Jump) (l : Label), (items edits)[k]? = some (.branch jump l) ∧ .bind l ∉ edits ∧
      (∀ j < k, ∀ jump' l', (items edits)[j]? = some (.branch jump' l') → .bind l' ∈ edits) ∧
      e = .unboundLabel m.name l.number
  /-- The method is added as declared, with a finished body. -/
  stored : ∀ index draft', addMethod (edited m edits) draft = .ok index draft' →
    index = draft.image.methods.size ∧ ∃ body, Finished edits body ∧
      draft' = { draft with image.methods := draft.image.methods.push (declared m edits body) }

section Finish

variable {m : Method} {edits : List Edit} {r : Routine} {body : Array Instruction}

theorem branch_mem_iff {jump : Jump} {l : Label} :
    .branch jump l ∈ edits ↔ ∃ k : Nat, (items edits)[k]? = some (.branch jump l) := by
  rw [← List.mem_iff_getElem?]
  simp only [items, List.mem_filterMap]
  constructor
  · intro hmem
    exact ⟨_, hmem, rfl⟩
  · rintro ⟨e, hmem, he⟩
    cases e <;> cases he
    exact hmem

theorem Mirrors.exists_place (h : Mirrors m edits r) {l : Label} :
    (∃ place, r.place? l = some place) ↔ .bind l ∈ edits := by
  rw [← exists_boundAt]
  exact exists_congr fun place => h.places l place

/-- **The places that are written in are those of the labels.** -/
theorem Mirrors.becomes (h : Mirrors m edits r)
    (hpatch : r.patch r.method.body r.branches.toList = .ok body) :
    List.Forall₂ (Item.Becomes edits body.size) (items edits) body.toList := by
  have hsize : body.size = (items edits).length := by rw [size_patch hpatch, ← h.position, Routine.position]
  have hdraft : ∀ k : Nat, r.method.body[k]? = (items edits)[k]?.map Item.draft := by
    intro k
    rw [← Array.getElem?_toList, h.body, List.getElem?_map]
  rw [List.forall₂_iff_get]
  refine ⟨by simpa using hsize.symm, fun k hk hk' => ?_⟩
  have hitem : (items edits)[k]? = some ((items edits).get ⟨k, hk⟩) := List.getElem?_eq_getElem hk
  have hbody : body[k]? = some (body.toList.get ⟨k, hk'⟩) := by
    rw [← Array.getElem?_toList]
    exact List.getElem?_eq_getElem hk'
  generalize (items edits).get ⟨k, hk⟩ = x at hitem
  generalize body.toList.get ⟨k, hk'⟩ = i at hbody
  cases x with
  | plain i' =>
    have hnone : ∀ s ∈ r.branches.toList, s.1 ≠ k := by
      rintro ⟨j, l⟩ hs rfl
      rw [h.branches] at hs
      obtain ⟨jump, hbranch⟩ := mem_sites.mp hs
      cases hitem.symm.trans hbranch
    have hsame := patch_elsewhere hpatch hnone
    rw [hbody, hdraft, hitem] at hsame
    cases hsame
    exact .plain i'
  | branch jump l =>
    have hsite : (k, l) ∈ r.branches.toList := h.branches ▸ mem_sites.mpr ⟨jump, hitem⟩
    obtain ⟨place, hplace, hwritten⟩ := patch_ok hpatch (h.branches ▸ pairwise_sites _) hsite
    rw [hbody, hdraft, hitem] at hwritten
    cases hwritten
    have hbound := (h.places l place).mp hplace
    exact .branch hbound (hsize ▸ hbound.le)

theorem strays_of_le {size place : Nat} (jump : Jump) (hle : place ≤ size) :
    Strays size ⟨jump.opcode, .ofNat place⟩ place := by
  have htarget := branchTarget_ofNat hle
  by_cases hlow : ((place % UInt32.size : Nat) : Int) ≤ Int32.maxValue.toInt
  · exact .elsewhere hlow (htarget.trans (if_pos hlow))
  · refine .faults (Int.not_le.mp hlow) fun nested m => ?_
    exact Run.step_of_branchTarget_error nested jump m (htarget.trans (if_neg hlow))

/-- What becomes of a body keeps its branches within reach. -/
theorem finished_of_becomes
    (h : List.Forall₂ (Item.Becomes edits body.size) (items edits) body.toList) : Finished edits body where
  becomes := h
  reaches := by
    intro k jump l hitem
    obtain ⟨hk, heq⟩ := List.getElem?_eq_some_iff.mp hitem
    have hk' : k < body.toList.length := h.length_eq ▸ hk
    have hbecomes := (List.forall₂_iff_get.mp h).2 k hk hk'
    have hi : body[k]? = some (body.toList.get ⟨k, hk'⟩) := by
      rw [← Array.getElem?_toList]
      exact List.getElem?_eq_getElem hk'
    generalize body.toList.get ⟨k, hk'⟩ = i at hi hbecomes
    rw [List.get_eq_getElem, heq] at hbecomes
    cases hbecomes with
    | @branch _ _ place hbound hle =>
      refine ⟨_, place, hi, hbound, fun hfits => ?_, fun _ => strays_of_le jump hle⟩
      have htarget := branchTarget_of_fits hle hfits
      exact ⟨htarget, fun _ _ _ _ hstep => Run.inRange_of_step htarget hstep⟩

theorem finish_ok (h : r.patch r.method.body r.branches.toList = .ok body) :
    r.finish = .ok { r.method with body } := except_bind_ok.mpr ⟨body, h, rfl⟩

theorem finish_error {e : Error} (h : r.patch r.method.body r.branches.toList = .error e) :
    r.finish = .error e := except_bind_error.mpr (.inl h)

end Finish

end Routine

theorem addMethod_of_ok {r : Routine} {method : Method} (h : r.finish = .ok method) (draft : Draft) :
    addMethod r draft =
      .ok draft.image.methods.size { draft with image.methods := draft.image.methods.push method } := by
  unfold addMethod
  rw [h]
  rfl

theorem addMethod_of_error {r : Routine} {e : Error} (h : r.finish = .error e) (draft : Draft) :
    addMethod r draft = .error e draft := by
  unfold addMethod
  rw [h]
  rfl

namespace Routine

/-- Branches forwards and backwards, a branch with an operand of its own, a label that is bound twice and
one that is bound behind the last instruction. -/
def winding : List Edit :=
  [.addLabel, .addLabel, .addLabel, .bind ⟨0⟩, .branch .always ⟨1⟩, .emit ⟨.ldc, 7⟩, .bind ⟨1⟩,
    .emit ⟨.br, 0⟩, .branch .ifTrue ⟨0⟩, .addLocal "i" 0, .bind ⟨1⟩, .branch .ifFalse ⟨1⟩,
    .branch .always ⟨2⟩, .bind ⟨2⟩]

/-- Of two branches that lead nowhere the first is named. -/
example : addMethod (edited { name := "main", owner := 0, returnType := 0 }
    [.addLabel, .addLabel, .addLabel, .branch .always ⟨2⟩, .branch .ifTrue ⟨1⟩, .branch .ifTrue ⟨0⟩, .bind ⟨2⟩])
    {} = .error (.unboundLabel "main" 1) {} := by
  rfl

end Routine

end Assembler

end ManagedVm
