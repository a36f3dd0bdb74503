import ManagedVm.Proofs.Machine.CellSteps

/-!
# Bodies that compute run on cells

A body of a method with primitive slots that computes with primitive values only is a program on cells
(`Machine.program?`), and the machine does with handles, frames and bytes what the program does with
cells. After any number of instructions both are at the same place, with the same cells on the
evaluation stack, in the locals and in the arguments, or have ended with the same result, or have
failed there with the same error (`Run.shows_cells`).

The arena is the one difference: cells cost nothing, values cost scratch. A long loop can use the arena
up, but no sooner than its instructions together have asked for more bytes than there are.
-/

namespace ManagedVm

open scoped Naturals

/-! ## What can be seen of a machine -/

namespace Machine

variable (m : Machine)

/-- The cell that a value is a handle on. -/
def cell? (v : Value) : Option Cell :=
  match v with
  | .primitive type a =>
    match (m.descriptor type).category with
    | .primitive kind => (m.read a kind.size).toOption.bind (Cell.ofBytes? kind)
    | _ => none
  | _ => none

/-- **The cells of the innermost frame**, with control at a place. -/
def cells? (pc : Nat) : Option Cells.State := do
  let f ← m.stack.current.toOption
  let values ← f.values.mapM m.cell?
  let locals ← f.locals.mapM fun b => m.cell? (.primitive b.type b.address)
  let arguments ← f.arguments.mapM fun b => m.cell? (.primitive b.type b.address)
  return { pc, values, locals, arguments }

/-- The kind of a variable of a primitive type. -/
def kind? (v : Variable) : Option Kind := do
  let type ← (m.declaredType v.type).toOption
  match (m.descriptor type).category with
  | .primitive kind => some kind
  | _ => none

/-- **The program on cells that a method is**, if all that it computes with are primitive values. -/
def program? (index : Nat) (method : Method) : Option Cells.Program := do
  let code ← method.body.toList.mapM m.image.operation?
  let locals ← method.locals.mapM m.kind?
  let parameters ← method.parameters.mapM m.kind?
  let sized ← (m.sizing index).toOption
  return { code, depth := sized.2.maxDepth, locals, parameters, returns := m.returnsValue method }

theorem cell?_of_read {m : Machine} {type : TypeId} {a : Address} {c : Cell}
    (hcategory : (m.descriptor type).category = .primitive c.kind)
    (hread : m.read a c.kind.size = .ok c.bytes) : m.cell? (.primitive type a) = some c := by
  unfold cell?
  dsimp only
  rw [hcategory]
  dsimp only
  rw [hread]
  show Cell.ofBytes? c.kind c.bytes = some c
  unfold Cell.ofBytes?
  rw [dif_pos c.length_bytes]

theorem cell?_eq_some {m : Machine} {v : Value} {c : Cell} (h : m.cell? v = some c) :
    ∃ type a, v = .primitive type a ∧ (m.descriptor type).category = .primitive c.kind ∧
      m.read a c.kind.size = .ok c.bytes := by
  unfold cell? at h
  split at h
  · rename_i type a
    split at h
    · rename_i kind hcategory
      obtain ⟨bytes, hbytes, hc⟩ := Option.bind_eq_some_iff.mp h
      unfold Cell.ofBytes? at hc
      split at hc
      · cases hc
        refine ⟨type, a, rfl, hcategory, ?_⟩
        cases hread : m.read a kind.size with
        | error e =>
          rw [hread] at hbytes
          cases hbytes
        | ok bytes' =>
          rw [hread] at hbytes
          cases hbytes
          rfl
      · cases hc
    · cases h
  · cases h

end Machine

/-- A machine that mirrors a state shows it. -/
theorem Scene.Mirrors.cells?_eq {g : Scene} {o : Outside} {held : List (Value × Cell)} {cursor : Nat}
    {m : Machine} {s : Cells.State} (h : g.Mirrors g.cells o held cursor m s.contents) :
    m.cells? s.pc = some s := by
  obtain ⟨f, hframes, hf⟩ := h.frame
  obtain ⟨middle, hlocals, harguments⟩ := hf.slots
  have hcursor := hf.cursor_eq
  have hscratch := hf.scratch_le
  have hmiddle := harguments.le
  have hcell : ∀ {type : TypeId} {place : Nat} {c : Cell},
      (g.types.descriptor type).category = .primitive c.kind → m.stack.arena.Holds place c.bytes →
        place + c.kind.size ≤ cursor → m.cell? (.primitive type (.stack place)) = some c := by
    intro type place c hcategory hholds hplace
    refine Machine.cell?_of_read ?_ (h.read_holds hholds hplace)
    rw [h.descriptor, hcategory]
  have hrow : ∀ {start stop : Nat} {bs : List Binding} {cs : List Cell},
      g.cells.Slots m.stack.arena start bs cs stop → stop ≤ cursor →
        bs.mapM (fun b => m.cell? (.primitive b.type b.address)) = some cs := by
    intro start stop bs cs hslots hle
    rw [option_mapM_some]
    induction hslots with
    | nil => exact .nil
    | @cons start stop type bs c cs hcategory hholds hrest ih =>
      have hend : start + c.bytes.length ≤ stop := hrest.le
      rw [c.length_bytes] at hend
      exact .cons (hcell hcategory hholds (by omega)) (ih hle)
  have hvalues : f.values.mapM m.cell? = some s.values := by
    rw [option_mapM_some]
    apply hf.values.imp
    intro v c hv
    obtain ⟨type, place, rfl, hcategory, hholds, -, hplace⟩ := Coding.Stands.of_cell (k := g.cells) hv
    exact hcell hcategory hholds (by omega)
  have hcurrent : m.stack.current.toOption = some f := by
    unfold FrameStack.current
    rw [hframes]
    rfl
  unfold Machine.cells?
  rw [hcurrent]
  show (f.values.mapM m.cell?).bind _ = _
  rw [hvalues]
  show (f.locals.mapM fun b => m.cell? (.primitive b.type b.address)).bind _ = _
  rw [hrow hlocals (by omega)]
  show (f.arguments.mapM fun b => m.cell? (.primitive b.type b.address)).bind _ = _
  rw [hrow harguments (by omega)]
  rfl

/-! ## Entering the frame -/

namespace Machine

variable {m : Machine}

/-- The slots of variables of primitive types begin as zeros. -/
theorem opens_slotsOf {g : Scene} (htypes : m.types = g.types) {vars : List Variable}
    {slots : List (TypeId × Nat)} {kinds : List Kind} (hslots : m.slotsOf vars = .ok slots)
    (hkinds : vars.mapM m.kind? = some kinds) : List.Forall₂ g.cells.Opens slots (kinds.map .zero) := by
  unfold slotsOf at hslots
  rw [except_mapM_ok] at hslots
  rw [option_mapM_some] at hkinds
  induction hslots generalizing kinds with
  | nil =>
    cases hkinds
    exact .nil
  | cons hslot hrest ih =>
    cases hkinds with
    | @cons _ kind _ _ hkind hkinds =>
      refine .cons ?_ (ih hkinds)
      obtain ⟨type, htype, hslot⟩ := except_bind_ok.mp hslot
      cases hslot
      obtain ⟨type', htype', hkind⟩ := Option.bind_eq_some_iff.mp hkind
      rw [htype] at htype'
      cases htype'
      unfold descriptor at hkind ⊢
      rw [htypes] at hkind ⊢
      split at hkind
      · rename_i hcategory
        cases hkind
        have hsize : (Cell.zero kind).bytes.length = kind.size := (Cell.zero kind).length_bytes
        refine ⟨hcategory, (g.size_eq hcategory).trans hsize.symm, ?_⟩
        show _ = List.replicate (Cell.zero kind).bytes.length 0
        rw [hsize]
        rfl
      · cases hkind

theorem program?_eq_some {index : Nat} {method : Method} {p : Cells.Program}
    (h : m.program? index method = some p) :
    List.Forall₂ (fun i o => m.image.operation? i = some o) method.body.toList p.code ∧
      method.locals.mapM m.kind? = some p.locals ∧
      method.parameters.mapM m.kind? = some p.parameters ∧
      (∀ method' sized, m.sizing index = .ok (method', sized) → p.depth = sized.maxDepth) ∧
      p.returns = m.returnsValue method := by
  obtain ⟨code, hcode, h⟩ := Option.bind_eq_some_iff.mp h
  obtain ⟨locals, hlocals, h⟩ := Option.bind_eq_some_iff.mp h
  obtain ⟨parameters, hparameters, h⟩ := Option.bind_eq_some_iff.mp h
  obtain ⟨sized, hsized, h⟩ := Option.bind_eq_some_iff.mp h
  cases h
  refine ⟨option_mapM_some.mp hcode, hlocals, hparameters, ?_, rfl⟩
  intro method' sized' hsizing
  rw [hsizing] at hsized
  cases hsized
  rfl

/-- What stays as it is while a body runs in a frame on top of a machine's frames. -/
def scene (m : Machine) (htyped : m.Typed) (hagree : m.image.BuiltinsAgree) (depth : Nat) : Scene where
  image := m.image
  types := m.types
  limit := m.stack.limit.toNat
  base := m.stack.top
  depth := depth
  size_eq h := TypeTable.size_of_ofImage htyped (by rw [h]; rfl)
  category_builtin := TypeTable.category_primitive htyped hagree

/-- **The next value has an address**: the arena, or the frames and the eight bytes of another value, end
where addresses do. -/
def InReach (m : Machine) (limit : Nat) : Prop :=
  min limit (m.stack.top + 8) ≤ Address.stackStart.toNat

end Machine

namespace Exec

variable {m m' : Machine} {method : Method} {name : String} {r : Request}

/-- **A new frame mirrors cells of zeros.** -/
theorem enterFrame_mirrors (htyped : m.Typed) (hagree : m.image.BuiltinsAgree) {p : Cells.Program}
    (hp : m.program? r.method method = some p) (h : enterFrame method name r m = .ok ⟨⟩ m')
    (hreach : m'.InReach m.stack.limit.toNat) :
    ∃ o, (m.scene htyped hagree p.depth).Mirrors (m.scene htyped hagree p.depth).cells o []
      (m.stack.top + p.slotBytes) m'
      { locals := p.locals.map .zero, arguments := p.parameters.map .zero } := by
  obtain ⟨-, hlocals, hparameters, hdepth, -⟩ := Machine.program?_eq_some hp
  obtain ⟨method', sized, layout, size, journal, hsizing, hmaxDepth, -, hslots, hslots', hreserve, rfl⟩ :=
    enterFrame_eq_entered h
  have hrow := Machine.opens_slotsOf (g := m.scene htyped hagree p.depth) rfl hslots hlocals
  have hrow' := Machine.opens_slotsOf (g := m.scene htyped hagree p.depth) rfl hslots' hparameters
  have hsizes : ∀ kinds : List Kind,
      (kinds.map Cell.zero).map (m.scene htyped hagree p.depth).cells.size = kinds.map Kind.size := by
    intro kinds
    rw [List.map_map]
    exact List.map_congr_left fun kind _ => (Cell.zero kind).length_bytes
  have hbytes : layout.slotBytes = p.slotBytes := by
    unfold FrameLayout.slotBytes Cells.Program.slotBytes
    rw [List.map_append, List.map_append, Coding.map_size_of_opens hrow, Coding.map_size_of_opens hrow',
      hsizes, hsizes]
  have hfits : (layout.frameAt m.stack.top).stop ≤ m.stack.limit.toNat := by
    unfold FrameStack.reserve at hreserve
    split at hreserve
    · cases hreserve
    · omega
  have hnear : m.stack.top + layout.slotBytes ≤ Address.stackStart.toNat := by
    have hstop : (layout.frameAt m.stack.top).stop =
        m.stack.top + max layout.totalSize layout.slotBytes := by rw [layout.frameAt_eq]
    have hmin : min m.stack.limit.toNat ((layout.frameAt m.stack.top).stop + 8) ≤
        Address.stackStart.toNat := hreach
    omega
  rw [← hbytes]
  exact ⟨_, Scene.mirrors_enter rfl rfl rfl rfl (hmaxDepth.trans (hdepth method' sized hsizing).symm) hrow hrow'
    hfits hnear size journal⟩

/-! ## Binding the arguments -/

/-- **A value is given from outside the frame**: its bytes lie on the heap or in the frames below. -/
structure Given (g : Scene) (m : Machine) (v : Value) (c : Cell) : Prop where
  lies : ∃ type a, v = .primitive type a ∧ (g.types.descriptor type).category = .primitive c.kind ∧
    m.read a c.kind.size = .ok c.bytes ∧ (a.space = .stack → a.offset + c.kind.size ≤ g.base)

theorem read_congr_below {a : Address} {count base : Nat} {bytes : List UInt8}
    (hread : m.read a count = .ok bytes) (hbelow : a.space = .stack → a.offset + count ≤ base)
    (hheap : m'.heap = m.heap) (htop : base ≤ m'.stack.top)
    (hbytes : ∀ i < base, m'.stack.arena.byte i = m.stack.arena.byte i) :
    m'.read a count = .ok bytes := by
  unfold Machine.read at hread ⊢
  split
  · rw [if_pos ‹_›] at hread
    cases hread
  · rw [if_neg ‹_›] at hread
    cases hspace : a.space with
    | heap =>
      rw [hspace] at hread
      dsimp only at hread ⊢
      rw [hheap]
      exact hread
    | stack =>
      rw [hspace] at hread
      dsimp only at hread ⊢
      have hend := hbelow hspace
      unfold FrameStack.bytes at hread ⊢
      split at hread
      · cases hread
        have hrange : m'.stack.inRange a count = true :=
          FrameStack.inRange_iff.mpr ⟨hspace, hend.trans htop⟩
        rw [if_pos hrange]
        exact congrArg Except.ok (Arena.read_congr fun i _ hi => hbytes i (by omega))
      · cases hread

theorem offset_add_le_top {a : Address} {count : Nat} {bytes : List UInt8}
    (hread : m.read a count = .ok bytes) (hspace : a.space = .stack) :
    a.offset + count ≤ m.stack.top := by
  unfold Machine.read at hread
  split at hread
  · cases hread
  · rw [hspace] at hread
    dsimp only at hread
    unfold FrameStack.bytes at hread
    split at hread
    · rename_i hrange
      exact (FrameStack.inRange_iff.mp hrange).2
    · cases hread

/-- **A caller's values are given** to the frame that it enters. -/
theorem given_of_enterFrame (htyped : m.Typed) (hagree : m.image.BuiltinsAgree) (depth : Nat)
    (h : enterFrame method name r m = .ok ⟨⟩ m') {v : Value} {c : Cell} (hv : m.cell? v = some c) :
    Given (m.scene htyped hagree depth) m' v c := by
  obtain ⟨type, a, rfl, hcategory, hread⟩ := Machine.cell?_eq_some hv
  obtain ⟨method', sized, layout, size, journal, -, -, -, -, -, hreserve, hm'⟩ := enterFrame_eq_entered h
  have hbelow := offset_add_le_top hread
  refine ⟨type, a, rfl, hcategory, read_congr_below hread hbelow ?_ ?_ ?_, hbelow⟩
  · rw [hm']
  · rw [hm']
    show m.stack.top ≤ (layout.frameAt m.stack.top).stop
    rw [layout.frameAt_eq]
    exact Nat.le_add_right ..
  · intro i hi
    rw [hm']
    show ((m.stack.arena.resize size).clear m.stack.top (layout.frameAt m.stack.top).stop).byte i = _
    rw [Arena.byte_clear, if_neg (by omega), Arena.byte_resize]

theorem Given.written {g : Scene} {v : Value} {c : Cell} (h : Given g m v c)
    (htop : g.base ≤ m.stack.top) {place : Nat} (hplace : g.base ≤ place) (data : List UInt8) :
    Given g (m.written place data) v c := by
  obtain ⟨type, a, hv, hcategory, hread, hbelow⟩ := h.lies
  refine ⟨type, a, hv, hcategory, read_congr_below hread hbelow rfl htop ?_, hbelow⟩
  intro i hi
  exact Arena.byte_write_of_lt (by omega) data

variable {g : Scene} {o : Outside} {cursor : Nat} {s : Cells.State}

theorem Given.valueBytes {v : Value} {c : Cell} (h : Given g m v c)
    (hm : g.Mirrors g.cells o [] cursor m s.contents) :
    v.isAddress = false ∧ m.valueBytes v = .ok c.bytes := by
  obtain ⟨type, a, rfl, hcategory, hread, -⟩ := h.lies
  refine ⟨rfl, ?_⟩
  show m.read a (m.descriptor type).size = _
  rw [hm.descriptor, g.size_eq hcategory]
  exact hread

/-- **Arguments are bound as cells are.** -/
theorem tracks_bindArguments {O : Error → Prop} {vs : List Value} {cs : List Cell}
    (h : g.Mirrors g.cells o [] cursor m s.contents) (hgiven : List.Forall₂ (Given g m) vs cs)
    (index : Nat) :
    Tracks O (fun _ m' s' => g.Mirrors g.cells o [] cursor m' s'.contents) (bindArguments index vs m)
      (Cells.Program.bind s index cs) := by
  induction vs generalizing m s cs index with
  | nil =>
    cases hgiven
    exact .ok h
  | cons v vs ih =>
    cases hgiven with
    | @cons _ c _ cs hv hvs =>
      obtain ⟨hinline, hbytes⟩ := hv.valueBytes h
      have htop : g.base ≤ m.stack.top := by
        obtain ⟨f, hframes, hf⟩ := h.frame
        unfold FrameStack.top
        rw [hframes, ← hf.base]
        exact hf.toMirror.base_le.trans (hf.scratch_le.trans hf.cursor_le)
      have hbind : bindArguments index (v :: vs) = (do
          let b ← query (·.slot (Cells.Bank.arguments.choose (.ofNat index)))
          store b.address b.type v) >>= fun _ => bindArguments (index + 1) vs := by
        rw [bind_assoc]
        rfl
      rw [hbind]
      refine (tracks_store h .arguments (.ofNat index) hinline hbytes).bind fun _ m' s' hstored => ?_
      obtain ⟨hm', place, data, hplace, rfl⟩ := hstored
      exact ih hm' (hvs.imp fun _ _ hw => hw.written htop hplace data) (index + 1)

/-! ## The result -/

/-- A result is the value of a cell, with the cell's bytes. -/
def Captured (captured : Option (Value × List UInt8)) (m : Machine) (result : Option Cell) : Prop :=
  captured.map (fun p => ((m.descriptor p.1.type).category, p.2)) =
    result.map fun c => (.primitive c.kind, c.bytes)

/-- **The result of a body** is that of the program. -/
theorem tracks_result {O : Error → Prop} {p : Cells.Program}
    (h : g.Mirrors g.cells o [] cursor m s.contents) (hreturns : m.returnsValue method = p.returns) :
    Tracks O Captured ((takeResult method >>= capture) m) (p.result s) := by
  -- With one cell left and a result to return the cell is captured; all else is told by the depth.
  by_cases hresult : ∃ c, s.values = [c] ∧ p.returns = .ok true
  · obtain ⟨c, hvalues, hreturned⟩ := hresult
    obtain ⟨type, a, m', htaken, h', hcategory⟩ :=
      result_mirrors (k := g.cells) h hvalues (hreturns.trans hreturned)
    have hresult : p.result s = .ok (some c) := by
      unfold Cells.Program.result
      rw [hreturned, hvalues]
      rfl
    rw [htaken, hresult]
    refine .ok (congrArg (fun category => some (category, c.bytes)) ?_)
    show (m'.descriptor type).category = _
    rw [h'.descriptor, hcategory]
  · obtain ⟨f, hcurrent, hdepth⟩ := currentFrame_depth h
    have hdepth : f.depth = s.values.length := hdepth
    unfold takeResult Cells.Program.result
    simp only [bind_assoc]
    rw [bind_of_ok hcurrent, hdepth]
    refine (Tracks.query hreturns).bind fun returns m returns' hreturned => ?_
    obtain ⟨rfl, rfl, hreturned⟩ := hreturned
    match hvalues : s.values, returns with
    | [], false => exact .ok rfl
    | [], true => exact .error
    | c :: cs, false => exact .error
    | [c], true => exact absurd ⟨c, hvalues, hreturned⟩ hresult
    | c :: c' :: cs, true => exact .error

end Exec

/-! ## Running the body -/

/-- Control at a place of a body, in a machine. -/
structure Control where
  index : Nat
  machine : Machine

namespace Run

section

variable (nested : Invoke) (name : String) (code : Array Instruction)

/-- The instruction that control is at. -/
def fetch (c : Control) : Option Instruction := code[c.index]?

/-- One round of the loop that runs a body. -/
def round (i : Instruction) (c : Control) : Stage Control :=
  match stepAt nested name code c.index i c.machine with
  | none => .exhausted
  | some (.error e m) => .failed ⟨c.index, m⟩ e
  | some (.ok .finish m) => .finished ⟨c.index, m⟩
  | some (.ok flow m) => .running ⟨flow.place c.index, m⟩

/-- **Where a body is after a number of instructions.** -/
def after (count : Nat) (c : Control) : Stage Control :=
  Stage.after (fetch code) (round nested name code) count c

/-- In the machine that a body has come to the next value has an address. -/
def InReach (limit : Nat) : Stage Control → Prop
  | .running c | .finished c | .failed c _ => c.machine.InReach limit
  | .exhausted => True

/-- What the loop answers with, and then what comes after it. -/
def answer {α : Type} (k : Exec α) : Stage Control → Option (EStateM.Result Error Machine α)
  | .running _ => none
  | .finished c => some (k c.machine)
  | .failed c e => code[c.index]?.map fun i => (fail name c.index i e >>= fun _ => k) c.machine
  | .exhausted => none

end

variable {nested : Invoke} {name : String} {code : Array Instruction}

/-- **The loop answers according to where it is** when its steps are used up. -/
theorem body_bind_eq_answer {α : Type} (k : Exec α) (count : Nat) (c : Control) :
    (body nested name code count c.index >>= fun _ => (liftM k : Run α)) c.machine =
      answer name code k (after nested name code count c) := by
  unfold after
  induction count generalizing c with
  | zero =>
    cases hfetch : fetch code c with
    | none =>
      rw [body_of_none hfetch, Stage.after_of_none hfetch]
      rfl
    | some i =>
      have hi : code[c.index]? = some i := hfetch
      rw [bind_eq, Stage.after_zero hfetch]
      unfold body
      rw [hi]
      rfl
  | succ count ih =>
    cases hfetch : fetch code c with
    | none =>
      rw [body_of_none hfetch, Stage.after_of_none hfetch]
      rfl
    | some i =>
      have hi : code[c.index]? = some i := hfetch
      rw [bind_eq, body_succ hi, Stage.after_succ hfetch, round]
      cases stepAt nested name code c.index i c.machine with
      | none => rfl
      | some outcome =>
        cases outcome with
        | error e m =>
          obtain ⟨m', hfail⟩ := fail_eq name c.index i e m
          show _ = code[c.index]?.map _
          rw [hi, Option.map_some, Exec.bind_of_error hfail]
          dsimp only
          rw [hfail]
        | ok flow m =>
          cases flow with
          | finish => rfl
          | next => exact ih ⟨_, m⟩
          | jump target => exact ih ⟨_, m⟩
          | invoke request pending => exact ih ⟨_, m⟩

/-- An instruction that is an operation on cells invokes nothing. -/
theorem step_of_tracks {length : Nat} {i : Instruction} {g : Scene} {o : Outside} {cursor : Nat}
    {m : Machine} {O : Error → Prop} {p : Cells.Program} {s : Cells.State} {operation : Cells.Operation}
    (h : Exec.Tracks O (Exec.Follows g o cursor) (Exec.step length i m) (p.act s operation)) :
    step nested length i m = some (Exec.step length i m) := by
  unfold step
  rw [bind_lift]
  generalize Exec.step length i m = r at h
  generalize ht : p.act s operation = t at h
  cases h with
  | error => rfl
  | excused hO => rfl
  | @ok flow m' b hfollows =>
    obtain ⟨flow', s'⟩ := b
    obtain ⟨rfl, -⟩ := hfollows
    rcases Cells.Program.act_eq_ok ht with rfl | ⟨target, rfl⟩ | ⟨rfl, -⟩
    · rfl
    · rfl
    · rfl

variable {p : Cells.Program} {method : Method} {g : Scene} {o : Outside} {cursor : Nat} {m : Machine}
  {s : Cells.State}

/-- **What one round of the loop can do beside an operation on cells**: go on from machines that mirror
the states, end in such ones, fail alike, or use up the arena. -/
theorem round_cases {i : Instruction} {operation : Cells.Operation}
    (h : g.Mirrors g.cells o [] cursor m s.contents) (hnear : g.Near cursor) (hdepth : p.depth = g.depth)
    (hlength : code.size = p.code.length) (hi : g.image.operation? i = some operation) :
    (∃ m' s', g.Reaches o cursor m' s' ∧
      round nested name code i ⟨s.pc, m⟩ = .running ⟨s'.pc, m'⟩ ∧ p.step operation s = .running s') ∨
    (∃ m', g.Reaches o cursor m' s ∧
      round nested name code i ⟨s.pc, m⟩ = .finished ⟨s.pc, m'⟩ ∧ p.step operation s = .finished s) ∨
    (∃ m' e, round nested name code i ⟨s.pc, m⟩ = .failed ⟨s.pc, m'⟩ e ∧
      p.step operation s = .failed s e) ∨
    ∃ m' e, round nested name code i ⟨s.pc, m⟩ = .failed ⟨s.pc, m'⟩ e ∧ g.Overflows (cursor + 8) e := by
  have htracks := Exec.tracks_step (h.noting (.executing name s.pc i)) hnear hdepth hi
  have hstep : stepAt nested name code s.pc i m =
      some (Exec.step p.code.length i (m.noting (.executing name s.pc i))) := by
    unfold stepAt
    rw [hlength]
    exact step_of_tracks htracks
  unfold round Cells.Program.step
  rw [hstep]
  generalize Exec.step p.code.length i (m.noting (.executing name s.pc i)) = r at htracks
  generalize hact : p.act s operation = t at htracks
  cases htracks with
  | @error e m' => exact .inr (.inr (.inl ⟨m', e, rfl, rfl⟩))
  | @excused _ m' _ hoverflow =>
    exact .inr (.inr (.inr ⟨m', _, rfl, hoverflow⟩))
  | @ok flow m' b hfollows =>
    obtain ⟨flow', s'⟩ := b
    obtain ⟨rfl, hreaches⟩ := hfollows
    rcases Cells.Program.act_eq_ok hact with rfl | ⟨target, rfl⟩ | ⟨rfl, rfl⟩
    · exact .inl ⟨m', { s' with pc := Flow.next.place s.pc }, hreaches, rfl, rfl⟩
    · exact .inl ⟨m', { s' with pc := (Flow.jump target).place s.pc }, hreaches, rfl, rfl⟩
    · exact .inr (.inl ⟨m', hreaches, rfl, rfl⟩)

/-- **A run of the machine shows a run on cells**: it is at the same place with the same cells, or has
ended with the same result or the same error. The machine may instead have used up the arena, if there
is room for less than the run can have asked for. -/
inductive Shows (p : Cells.Program) (method : Method) (limit room : Nat) :
    Stage Control → Stage Cells.State → Prop
  | running {c : Control} {s : Cells.State} :
      c.machine.cells? c.index = some s → Shows p method limit room (.running c) (.running s)
  | finished {c : Control} {s : Cells.State} :
      c.machine.cells? c.index = some s →
      Exec.Tracks (fun _ => False) Exec.Captured
        ((Exec.takeResult method >>= Exec.capture) c.machine) (p.result s) →
      Shows p method limit room (.finished c) (.finished s)
  | failed {c : Control} {s : Cells.State} {e : Error} :
      c.index = s.pc → Shows p method limit room (.failed c e) (.failed s e)
  | overflowed {c : Control} {stage : Stage Cells.State} {needed : Nat} :
      limit < needed → needed ≤ room →
      Shows p method limit room (.failed c (.stackOverflow needed limit)) stage

theorem Shows.mono {limit room room' : Nat} {stage : Stage Control} {stage' : Stage Cells.State}
    (h : Shows p method limit room stage stage') (hroom : room ≤ room') :
    Shows p method limit room' stage stage' := by
  cases h with
  | running hcells => exact .running hcells
  | finished hcells hresult => exact .finished hcells hresult
  | failed hindex => exact .failed hindex
  | overflowed hlimit hneeded => exact .overflowed hlimit (hneeded.trans hroom)

/-- Control is at an operation on cells, or behind the body in both. -/
theorem fetch_cases {image : Image} {operations : List Cells.Operation}
    (h : List.Forall₂ (fun i o => image.operation? i = some o) code.toList operations) (index : Nat) :
    (code[index]? = none ∧ operations[index]? = none) ∨
      ∃ i o, code[index]? = some i ∧ operations[index]? = some o ∧ image.operation? i = some o := by
  rw [← Array.getElem?_toList]
  generalize code.toList = instructions at h ⊢
  induction h generalizing index with
  | nil => exact .inl ⟨rfl, rfl⟩
  | @cons i o is os hi _ ih =>
    cases index with
    | zero => exact .inr ⟨i, o, rfl, rfl, hi⟩
    | succ index => exact ih index

theorem near_of_inReach (h : g.Mirrors g.cells o [] cursor m s.contents) (hreach : m.InReach g.limit) :
    g.Near cursor := by
  obtain ⟨f, hframes, hf⟩ := h.frame
  have hcursor := hf.cursor_eq
  have hinside := hf.cursor_le
  have htop : m.stack.top = f.stop := by
    unfold FrameStack.top
    rw [hframes]
  unfold Machine.InReach at hreach
  unfold Scene.Near
  omega

/-- **Runs of the machine show runs on cells**, as far as new values have addresses. Each instruction asks
for at most eight bytes. -/
theorem shows_after (hdepth : p.depth = g.depth)
    (hcode : List.Forall₂ (fun i o => g.image.operation? i = some o) method.body.toList p.code)
    (hreturns : ∀ {m' : Machine}, m'.types = g.types → m'.returnsValue method = p.returns)
    (h : g.Mirrors g.cells o [] cursor m s.contents) {count : Nat}
    (hreach : ∀ k < count, InReach g.limit (after nested name method.body k ⟨s.pc, m⟩)) :
    Shows p method g.limit (cursor + 8 * count) (after nested name method.body count ⟨s.pc, m⟩)
      (p.after count s) := by
  have hlength : method.body.size = p.code.length := by
    rw [← Array.length_toList]
    exact hcode.length_eq
  have hfinished : ∀ {cursor m s}, g.Mirrors g.cells o [] cursor m s.contents → ∀ room,
      Shows p method g.limit room (.finished ⟨s.pc, m⟩) (.finished s) := by
    intro cursor m s h room
    exact .finished h.cells?_eq (Exec.tracks_result h (hreturns h.types))
  unfold after at hreach ⊢
  unfold Cells.Program.after
  induction count generalizing cursor m s with
  | zero =>
    rcases fetch_cases hcode s.pc with ⟨hi, ho⟩ | ⟨i, operation, hi, ho, -⟩
    · have hfetch : fetch method.body ⟨s.pc, m⟩ = none := hi
      have hfetch' : p.fetch s = none := ho
      rw [Stage.after_of_none hfetch, Stage.after_of_none hfetch']
      exact hfinished h _
    · have hfetch : fetch method.body ⟨s.pc, m⟩ = some i := hi
      have hfetch' : p.fetch s = some operation := ho
      rw [Stage.after_zero hfetch, Stage.after_zero hfetch']
      exact .running h.cells?_eq
  | succ count ih =>
    rcases fetch_cases hcode s.pc with ⟨hi, ho⟩ | ⟨i, operation, hi, ho, hio⟩
    · have hfetch : fetch method.body ⟨s.pc, m⟩ = none := hi
      have hfetch' : p.fetch s = none := ho
      rw [Stage.after_of_none hfetch, Stage.after_of_none hfetch']
      exact hfinished h _
    · have hfetch : fetch method.body ⟨s.pc, m⟩ = some i := hi
      have hfetch' : p.fetch s = some operation := ho
      have hfirst := hreach 0 (Nat.succ_pos _)
      rw [Stage.after_zero hfetch] at hfirst
      rw [Stage.after_succ hfetch, Stage.after_succ hfetch']
      rcases round_cases h (near_of_inReach h hfirst) hdepth hlength hio with
        ⟨m', s', ⟨cursor', hcursor, hm'⟩, hround, hstep⟩ | ⟨m', ⟨cursor', -, hm'⟩, hround, hstep⟩ |
        ⟨m', e, hround, hstep⟩ | ⟨m', e, hround, needed, rfl, hlimit, hneeded⟩
      · have hrest : ∀ k < count, InReach g.limit
            (Stage.after (fetch method.body) (round nested name method.body) k ⟨s'.pc, m'⟩) := by
          intro k hk
          have hlater := hreach (k + 1) (Nat.succ_lt_succ hk)
          rw [Stage.after_succ hfetch, hround] at hlater
          exact hlater
        rw [hround, hstep]
        exact (ih hm' hrest).mono (by omega)
      · rw [hround, hstep]
        exact hfinished hm' _
      · rw [hround, hstep]
        exact .failed rfl
      · rw [hround]
        exact .overflowed hlimit (by omega)

theorem execute_eq_answer {framed : Machine} {arguments : List Value}
    (hbind : Exec.bindArguments 0 arguments framed = .ok ⟨⟩ m) (count : Nat) :
    execute nested count method name arguments framed =
      answer name method.body (Exec.takeResult method >>= Exec.capture)
        (after nested name method.body count ⟨0, m⟩) := by
  unfold execute
  rw [bind_lift, hbind]
  have htake : (fun _ => do
      let result ← Exec.takeResult method
      Exec.capture result : Unit → Run _) = fun _ => liftM (Exec.takeResult method >>= Exec.capture) := by
    funext _ m
    exact bind_lift_lift ..
  dsimp only
  rw [htake]
  exact body_bind_eq_answer _ count ⟨0, m⟩

/-- **Bodies that compute run on cells.** The machine binds the arguments of a method with primitive
slots as its program on cells does, or fails to with the same error. From there on, after any number of
instructions, it shows what the program does, and what it answers with follows from that. The stack may be
allowed to grow beyond what addresses can tell apart: what is shown is shown until it has. -/
theorem shows_cells {caller framed : Machine} {r : Request} {arguments : List Cell}
    (htyped : caller.Typed) (hagree : caller.image.BuiltinsAgree)
    (hp : caller.program? r.method method = some p)
    (harguments : r.arguments.mapM caller.cell? = some arguments)
    (henter : Exec.enterFrame method name r caller = .ok ⟨⟩ framed)
    (hreach : framed.InReach caller.stack.limit.toNat) (nested : Invoke) :
    (∃ e m, p.start arguments = .error e ∧
      ∀ count, execute nested count method name r.arguments framed = some (.error e m)) ∨
    ∃ s m, p.start arguments = .ok s ∧ Exec.bindArguments 0 r.arguments framed = .ok ⟨⟩ m ∧
      ∀ count, ((∀ k < count, InReach caller.stack.limit.toNat (after nested name method.body k ⟨0, m⟩)) →
          Shows p method caller.stack.limit.toNat (caller.stack.top + p.slotBytes + 8 * count)
            (after nested name method.body count ⟨0, m⟩) (p.after count s)) ∧
        execute nested count method name r.arguments framed =
          answer name method.body (Exec.takeResult method >>= Exec.capture)
            (after nested name method.body count ⟨0, m⟩) := by
  obtain ⟨hcode, -, -, -, hreturns⟩ := Machine.program?_eq_some hp
  obtain ⟨o, hframed⟩ := Exec.enterFrame_mirrors htyped hagree hp henter hreach
  have hgiven : List.Forall₂ (Exec.Given (caller.scene htyped hagree p.depth) framed)
      r.arguments arguments := by
    apply (option_mapM_some.mp harguments).imp
    intro v c hv
    exact Exec.given_of_enterFrame htyped hagree p.depth henter hv
  have hbound := Exec.tracks_bindArguments (O := fun _ => False)
    (s := { locals := p.locals.map .zero, arguments := p.parameters.map .zero }) hframed hgiven 0
  generalize hbind : Exec.bindArguments 0 r.arguments framed = bound at hbound
  generalize hstart : Cells.Program.bind _ 0 arguments = start at hbound
  cases hbound with
  | excused hfalse => exact hfalse.elim
  | @error e m =>
    refine .inl ⟨e, m, hstart, ?_⟩
    intro count
    unfold execute
    rw [bind_lift, hbind]
  | @ok _ m s hm =>
    refine .inr ⟨s, m, hstart, rfl, ?_⟩
    intro count
    refine ⟨?_, execute_eq_answer hbind count⟩
    have hpc : s.pc = 0 := Cells.Program.pc_bind hstart
    rw [← hpc]
    intro hstages
    apply shows_after rfl hcode _ hm hstages
    intro m' htypes
    rw [hreturns]
    unfold Machine.returnsValue Machine.isVoid Machine.declaredType
    rw [htypes]
    rfl

/-- Adds up the numbers from its argument down to one. -/
def total : Method :=
  { name := "total", owner := 0, returnType := 1, isStatic := true
    parameters := [⟨"last", 1⟩]
    locals := [⟨"sum", 1⟩]
    body := #[
      ⟨.ldarg, 0⟩, ⟨.brfalse, 11⟩,
      ⟨.ldloc, 0⟩, ⟨.ldarg, 0⟩, ⟨.add, 0⟩, ⟨.stloc, 0⟩,
      ⟨.ldarg, 0⟩, ⟨.ldc, 0⟩, ⟨.sub, 0⟩, ⟨.starg, 0⟩, ⟨.br, 0⟩,
      ⟨.ldloc, 0⟩, ⟨.ret, 0⟩] }

/-- A machine for the method, with a frame of its host in which lies the number three. -/
def sums : Machine :=
  let image : Image :=
    { constants := #[⟨.primitive (.word .int), 0⟩]
      pool := #[1, 0, 0, 0]
      types := #[
        { name := "Sums", category := .object, isStatic := true },
        { name := "int", category := .primitive (.word .int) }]
      methods := #[total] }
  let stack := (FrameStack.create 512 512).enter { totalSize := 16, maxDepth := 1 } 512
  { image
    types := (TypeTable.ofImage image).toOption.getD {}
    heap := { settings := { initialSize := 64 }, arena := .zeroed 64 }
    stack := { stack with arena := stack.arena.write 0 [3, 0, 0, 0] } }

/-- The request for the sum up to the number in the host's frame. -/
def sumRequest : Request := { method := 0, arguments := [.primitive ⟨1⟩ (.stack 0)] }

/-- The cell of a small number. -/
def small (n : UInt8) : Cell := ⟨.word .int, [n, 0, 0, 0], rfl⟩

/-- The method as a program on cells. -/
def totalCells : Cells.Program where
  code := [
    .load .arguments 0, .branch false 11,
    .load .locals 0, .load .arguments 0, .binary .add, .store .locals 0,
    .load .arguments 0, .constant (small 1), .binary .sub, .store .arguments 0, .jump 0,
    .load .locals 0, .ret]
  depth := 2
  locals := [.word .int]
  parameters := [.word .int]
  returns := .ok true

/-- On cells the sum is six after three rounds of the loop, and the arena has room for what so many
instructions can ask for, so that six is what the machine answers with. -/
theorem shows_cells_sums : sums.Typed ∧ sums.image.BuiltinsAgree ∧
    sums.program? sumRequest.method total = some totalCells ∧
    sumRequest.arguments.mapM sums.cell? = some [small 3] ∧
    ∃ framed, Exec.enterFrame total "Sums::total" sumRequest sums = .ok ⟨⟩ framed ∧
      framed.InReach sums.stack.limit.toNat ∧ ∀ nested, ∃ captured m,
        execute nested 37 total "Sums::total" sumRequest.arguments framed = some (.ok captured m) ∧
          Exec.Captured captured m (some (small 6)) := by
  have htyped : sums.Typed := by
    unfold Machine.Typed
    decide
  have hagree : sums.image.BuiltinsAgree := by decide
  have hreach : ∀ {m : Machine}, m.InReach sums.stack.limit.toNat :=
    Nat.le_trans (Nat.min_le_left _ _) (by decide)
  have hp : sums.program? sumRequest.method total = some totalCells := rfl
  have harguments : sumRequest.arguments.mapM sums.cell? = some [small 3] := by decide
  have henter := Exec.eq_ok_of_value?
    (x := Exec.enterFrame total "Sums::total" sumRequest) (m := sums) (a := ⟨⟩) (by decide)
  refine ⟨htyped, hagree, hp, harguments, _, henter, hreach, ?_⟩
  intro nested
  have hstart : totalCells.start [small 3] = .ok ⟨0, [], [small 0], [small 3]⟩ := rfl
  rcases shows_cells htyped hagree hp harguments henter hreach nested with
    ⟨e, m, herror, -⟩ | ⟨s, m, hs, -, hshows⟩
  · rw [hstart] at herror
    cases herror
  · rw [hstart] at hs
    cases hs
    obtain ⟨hshows, hexecute⟩ := hshows 37
    have hstages : ∀ stage, InReach sums.stack.limit.toNat stage := by
      intro stage
      cases stage with
      | exhausted => trivial
      | _ => exact hreach
    have hshows := hshows fun k _ => hstages _
    have hafter : totalCells.after 37 ⟨0, [], [small 0], [small 3]⟩ =
        .finished ⟨12, [small 6], [small 6], [small 0]⟩ := rfl
    rw [hafter] at hshows
    generalize after nested "Sums::total" total.body 37 ⟨0, m⟩ = stage at hshows hexecute
    cases hshows with
    | overflowed hover hroom =>
      have hlimit : sums.stack.limit.toNat = 512 := rfl
      have htop : sums.stack.top + totalCells.slotBytes = 24 := rfl
      omega
    | finished _ hresult =>
      rw [hexecute, answer]
      have hsix : totalCells.result ⟨12, [small 6], [small 6], [small 0]⟩ = .ok (some (small 6)) := rfl
      rw [hsix] at hresult
      generalize (Exec.takeResult total >>= Exec.capture) _ = taken at hresult ⊢
      cases hresult with
      | excused hfalse => exact hfalse.elim
      | @ok captured m' _ hcaptured => exact ⟨captured, m', rfl, hcaptured⟩

end Run

end ManagedVm
