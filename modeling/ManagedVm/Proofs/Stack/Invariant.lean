import ManagedVm.Proofs.Machine.Exec
import ManagedVm.Proofs.Stack.Frames

/-!
# The frame stack's invariant

What every frame stack satisfies that is made by `create` and changed by its operations alone. The
frames lie side by side from the first byte of the arena on; in each of them come the locals, the
arguments, the scratch handed out and the bytes still free, in this order; and the arena holds them
all and keeps to its limit.

The frames do not record how large their slots were declared, nor which scratch was handed out. A
*ledger* does: it is written beside the stack as the calls are made, and has an entry for each frame.
-/

namespace ManagedVm.FrameStack

/-! ## Histories -/

/-- What a user of the frame stack asks of it. -/
inductive Call
  | pushFrame (layout : FrameLayout)
  | popFrame
  | push (v : Value)
  | pop
  | allocate (count : Nat)
  | resetScratch
  | write (address : Address) (data : List UInt8)

/-- The stack after a call that succeeds. -/
def Call.run [Build] (s : FrameStack) : Call → Except Error FrameStack
  | pushFrame layout => s.pushFrame layout
  | popFrame => s.popFrame.map (·.2)
  | push v => s.push v
  | pop => s.pop.map (·.2)
  | allocate count => (s.allocate count).map (·.2)
  | resetScratch => s.resetScratch.map (·.2)
  | write address data => s.write address data

/-- The stack after a call. One that fails changes nothing. -/
def after [Build] (s : FrameStack) (c : Call) : FrameStack :=
  match c.run s with
  | .ok s' => s'
  | .error _ => s

/-- Bytes that somebody was given. -/
structure Block where
  address : Address
  size : Nat
  deriving DecidableEq

/-- What is known of a frame from the calls made: the layout it was made from, and the scratch that
was handed out and not taken back, newest first. -/
structure Entry where
  layout : FrameLayout
  blocks : List Block := []
  deriving DecidableEq

/-- The ledger after a call that succeeds. -/
def Call.note [Build] (s : FrameStack) (ledger : List Entry) : Call → List Entry
  | pushFrame layout => { layout } :: ledger
  | popFrame => ledger.tail
  | allocate count =>
    match s.allocate count with
    | .ok (address, _) => ledger.modifyHead fun e => { e with blocks := ⟨address, count⟩ :: e.blocks }
    | .error _ => ledger
  | resetScratch => ledger.modifyHead fun e => { e with blocks := [] }
  | push _ | pop | write .. => ledger

/-- The ledger after a call. -/
def noted [Build] (s : FrameStack) (ledger : List Entry) (c : Call) : List Entry :=
  match c.run s with
  | .ok _ => c.note s ledger
  | .error _ => ledger

/-- **The frame stacks that calls lead to**, each with its ledger: one newly made, or one after a
call on such a stack that may be made there. -/
inductive Reached [Build] (May : FrameStack → Call → Prop) (initialSize : Nat) (limit : UInt64) :
    FrameStack → List Entry → Prop
  | created : Reached May initialSize limit (create initialSize limit) []
  | called {s : FrameStack} {ledger : List Entry} (c : Call) :
      Reached May initialSize limit s ledger → May s c →
        Reached May initialSize limit (s.after c) (s.noted ledger c)

/-! ## What a call does -/

/-- **The changes that calls make**, when they succeed. -/
inductive Step [Build] (s : FrameStack) : Call → FrameStack → Prop
  | pushFrame {layout : FrameLayout} {size : Nat} :
      s.reserve (layout.frameAt s.top).stop = .ok size →
        Step s (.pushFrame layout) (s.enter layout size)
  | popFrame {f : Frame} {rest : List Frame} :
      s.frames = f :: rest → Step s .popFrame { s with frames := rest }
  | push {f : Frame} {rest : List Frame} (v : Value) :
      s.frames = f :: rest → f.depth < f.maxDepth →
        Step s (.push v) { s with frames := { f with values := v :: f.values } :: rest }
  | pop {f : Frame} {rest : List Frame} {v : Value} {values : List Value} :
      s.frames = f :: rest → f.values = v :: values →
        Step s .pop { s with frames := { f with values } :: rest }
  | allocate {count : Nat} {c : Carving} :
      s.planCarving count = .ok c → Step s (.allocate count) (s.carve c)
  | resetScratch {f : Frame} {rest : List Frame} :
      s.frames = f :: rest → Step s .resetScratch (s.rewind f)
  | write {address : Address} {data : List UInt8} :
      s.inRange address data.length = true → Step s (.write address data) (s.poke address data)

variable {s s' : FrameStack} {c : Call}

theorem current_eq_ok {f : Frame} : s.current = .ok f ↔ ∃ rest, s.frames = f :: rest := by
  unfold current
  cases s.frames with
  | nil => simp
  | cons g rest => simp

theorem top_of_frames {f : Frame} {rest : List Frame} (h : s.frames = f :: rest) :
    s.top = f.stop := by
  unfold top
  rw [h]

section

variable [Build]

theorem allocate_of_planCarving {count : Nat} {c : Carving} (h : s.planCarving count = .ok c) :
    s.allocate count = .ok (.stack c.start, s.carve c) := by
  unfold FrameStack.allocate
  rw [h]
  rfl

theorem allocate_eq_ok {count : Nat} {a : Address} (h : s.allocate count = .ok (a, s')) :
    ∃ c, s.planCarving count = .ok c ∧ a = .stack c.start ∧ s' = s.carve c := by
  obtain ⟨c, hplan, h⟩ := except_bind_ok.mp h
  obtain ⟨haddress, hstack⟩ := Prod.mk.inj (Except.ok.inj h)
  exact ⟨c, hplan, haddress.symm, hstack.symm⟩

theorem step_of_run (h : c.run s = .ok s') : Step s c s' := by
  cases c with
  | pushFrame layout =>
    obtain ⟨size, hplan, h⟩ := except_bind_ok.mp h
    cases h
    exact .pushFrame (reserve_of_planFrame hplan)
  | popFrame =>
    obtain ⟨⟨f, popped⟩, hpop, rfl⟩ := except_map_ok.mp h
    unfold FrameStack.popFrame at hpop
    split at hpop
    · cases hpop
    · rename_i hframes
      cases hpop
      exact .popFrame hframes
  | push v =>
    obtain ⟨f, hcurrent, h⟩ := except_bind_ok.mp h
    obtain ⟨f', hpush, h⟩ := except_bind_ok.mp h
    obtain ⟨rest, hframes⟩ := current_eq_ok.mp hcurrent
    cases h
    unfold Frame.push at hpush
    split at hpush
    · cases hpush
    · cases hpush
      simp only [setCurrent, hframes, List.tail_cons]
      exact .push v hframes (by omega)
  | pop =>
    obtain ⟨⟨v, popped⟩, hpop, rfl⟩ := except_map_ok.mp h
    obtain ⟨f, hcurrent, hpop⟩ := except_bind_ok.mp hpop
    obtain ⟨⟨v', f'⟩, hvalue, hpop⟩ := except_bind_ok.mp hpop
    obtain ⟨rest, hframes⟩ := current_eq_ok.mp hcurrent
    cases hpop
    unfold Frame.pop at hvalue
    split at hvalue
    · cases hvalue
    · rename_i hvalues
      cases hvalue
      simp only [setCurrent, hframes, List.tail_cons]
      exact .pop hframes hvalues
  | allocate count =>
    obtain ⟨⟨a, carved⟩, hallocate, rfl⟩ := except_map_ok.mp h
    obtain ⟨c, hplan, -, rfl⟩ := allocate_eq_ok hallocate
    exact .allocate hplan
  | resetScratch =>
    obtain ⟨⟨values, rewound⟩, hreset, rfl⟩ := except_map_ok.mp h
    obtain ⟨f, hcurrent, hreset⟩ := except_bind_ok.mp hreset
    obtain ⟨rest, hframes⟩ := current_eq_ok.mp hcurrent
    dsimp only at hreset
    split at hreset
    · cases hreset
    · cases hreset
      exact .resetScratch hframes
  | write address data =>
    have hwrite : s.write address data = .ok s' := h
    unfold FrameStack.write at hwrite
    split at hwrite
    · rename_i hrange
      cases hwrite
      exact .write hrange
    · cases hwrite

theorem Step.limit_eq (h : Step s c s') : s'.limit = s.limit := by
  cases h with
  | allocate hplan => exact limit_carve s _
  | _ => rfl

/-- A call succeeds, or it changes neither the stack nor the ledger. -/
theorem after_cases (s : FrameStack) (ledger : List Entry) (c : Call) :
    (∃ s', Step s c s' ∧ s.after c = s' ∧ s.noted ledger c = c.note s ledger) ∨
      s.after c = s ∧ s.noted ledger c = ledger := by
  unfold after noted
  cases h : c.run s with
  | ok s' => exact .inl ⟨s', step_of_run h, rfl, rfl⟩
  | error e => exact .inr ⟨rfl, rfl⟩

end

/-! ## The invariant -/

/-- **Slots that lie side by side** from one byte to another, with the types and sizes declared. -/
inductive Tiled : Nat → List Binding → List (TypeId × Nat) → Nat → Prop
  | nil {start : Nat} : Tiled start [] [] start
  | cons {start stop : Nat} {type : TypeId} {size : Nat} {bindings : List Binding}
      {slots : List (TypeId × Nat)} :
      Tiled (start + size) bindings slots stop →
        Tiled start (⟨type, .stack start⟩ :: bindings) ((type, size) :: slots) stop

theorem tiled_bind (start : Nat) (slots : List (TypeId × Nat)) :
    Tiled start (FrameLayout.bind start slots).1 slots (FrameLayout.bind start slots).2 := by
  induction slots generalizing start with
  | nil => exact .nil
  | cons slot slots ih =>
    apply Tiled.cons
    apply ih

theorem Tiled.le {start stop : Nat} {bindings : List Binding} {slots : List (TypeId × Nat)}
    (h : Tiled start bindings slots stop) : start ≤ stop := by
  induction h with
  | nil => exact Nat.le_refl _
  | cons _ ih => omega

theorem Tiled.append {start middle stop : Nat} {bs bs' : List Binding}
    {slots slots' : List (TypeId × Nat)} (h : Tiled start bs slots middle)
    (h' : Tiled middle bs' slots' stop) : Tiled start (bs ++ bs') (slots ++ slots') stop := by
  induction h with
  | nil => exact h'
  | cons _ ih => exact .cons (ih h')

/-- **The frame is as its entry says**: its slots are those of the layout, the scratch handed out
lies behind them and below the cursor, and the evaluation stack keeps to its bound. -/
structure Fits (f : Frame) (e : Entry) : Prop where
  slots : ∃ middle, Tiled f.base f.locals e.layout.locals middle ∧
    Tiled middle f.arguments e.layout.arguments f.scratch
  scratch_le : f.scratch ≤ f.cursor
  cursor_le : f.cursor ≤ f.stop
  bounded : f.depth ≤ f.maxDepth
  maxDepth_eq : f.maxDepth = e.layout.maxDepth
  blocks : ∀ b ∈ e.blocks, ∃ start, b.address = .stack start ∧ f.scratch ≤ start ∧
    start + b.size ≤ f.cursor

theorem Fits.base_le {f : Frame} {e : Entry} (h : Fits f e) : f.base ≤ f.scratch := by
  obtain ⟨middle, hlocals, harguments⟩ := h.slots
  exact Nat.le_trans hlocals.le harguments.le

theorem Fits.base_le_stop {f : Frame} {e : Entry} (h : Fits f e) : f.base ≤ f.stop :=
  Nat.le_trans h.base_le (Nat.le_trans h.scratch_le h.cursor_le)

/-- Frames side by side up to a byte, each as its entry says. -/
inductive Stacked : List Frame → List Entry → Nat → Prop
  | nil : Stacked [] [] 0
  | cons {f : Frame} {e : Entry} {frames : List Frame} {ledger : List Entry} :
      Stacked frames ledger f.base → Fits f e → Stacked (f :: frames) (e :: ledger) f.stop

theorem Stacked.top_eq {ledger : List Entry} {stop : Nat} (h : Stacked s.frames ledger stop) :
    s.top = stop := by
  unfold top
  generalize s.frames = frames at h
  cases h with
  | nil => rfl
  | cons hbelow hfits => rfl

/-- **The invariant** in the form that the calls preserve. -/
structure Inv (s : FrameStack) (ledger : List Entry) : Prop where
  stacked : Stacked s.frames ledger s.top
  inside : s.top ≤ s.arena.size
  limited : s.arena.size ≤ s.limit.toNat

theorem fits_frameAt (layout : FrameLayout) (base : Nat) :
    Fits (layout.frameAt base) { layout } where
  slots := ⟨_, tiled_bind base layout.locals, tiled_bind _ layout.arguments⟩
  scratch_le := Nat.le_refl _
  cursor_le := by
    rw [layout.frameAt_eq]
    dsimp only
    omega
  bounded := Nat.zero_le _
  maxDepth_eq := rfl
  blocks := List.forall_mem_nil _

theorem Carving.base_after (c : Carving) : c.after.base = c.frame.base := by
  unfold after
  split
  · rfl
  · rfl

/-- The frame that hands out scratch fits its entry with the new block. -/
theorem Fits.carve {c : Carving} {e : Entry} {count : Nat} (h : Fits c.frame e)
    (hstop : c.stop = c.frame.cursor + count) :
    Fits c.after { e with blocks := ⟨.stack c.frame.cursor, count⟩ :: e.blocks } := by
  have hcursor := c.cursor_after
  have hsame : c.after.base = c.frame.base ∧ c.after.scratch = c.frame.scratch ∧
      c.after.locals = c.frame.locals ∧ c.after.arguments = c.frame.arguments ∧
      c.after.depth = c.frame.depth ∧ c.after.maxDepth = c.frame.maxDepth := by
    unfold Carving.after
    split <;> simp [Frame.depth]
  obtain ⟨hbase, hscratch, hlocals, harguments, hdepth, hmax⟩ := hsame
  have hscratch_le := h.scratch_le
  constructor
  · rw [hbase, hlocals, harguments, hscratch]
    exact h.slots
  · omega
  · rw [hcursor]
    unfold Carving.after
    split
    · exact Nat.le_refl _
    · rename_i hfits
      simpa [Carving.outgrows] using hfits
  · rw [hdepth, hmax]
    exact h.bounded
  · rw [hmax]
    exact h.maxDepth_eq
  · intro b hb
    rcases List.mem_cons.mp hb with rfl | hb
    · exact ⟨c.frame.cursor, rfl, by omega, by dsimp only; omega⟩
    · obtain ⟨start, haddress, hle, hend⟩ := h.blocks b hb
      exact ⟨start, haddress, by omega, by omega⟩

theorem inv_create (initialSize : Nat) (limit : UInt64) :
    (create initialSize limit).Inv [] where
  stacked := .nil
  inside := Nat.zero_le _
  limited := Nat.min_le_right _ _

/-- The innermost frame and what is below it. -/
theorem Inv.uncons {ledger : List Entry} {f : Frame} {rest : List Frame} (inv : s.Inv ledger)
    (hframes : s.frames = f :: rest) :
    ∃ e below, ledger = e :: below ∧ Fits f e ∧ Stacked rest below f.base ∧ s.top = f.stop := by
  have hstacked := inv.stacked
  have htop := top_of_frames hframes
  rw [hframes, htop] at hstacked
  generalize hstop : f.stop = stop at hstacked
  cases hstacked with
  | cons hbelow hfits => exact ⟨_, _, rfl, hfits, hbelow, htop.trans hstop⟩

/-- What handing out scratch does to the arena's size. -/
theorem size_carve {count : Nat} {c : Carving} (hplan : s.planCarving count = .ok c)
    (hinside : c.frame.stop ≤ s.arena.size) (hlimited : s.arena.size ≤ s.limit.toNat) :
    c.after.stop ≤ (s.carve c).arena.size ∧ s.arena.size ≤ (s.carve c).arena.size ∧
      (s.carve c).arena.size ≤ s.limit.toNat := by
  by_cases hgrows : c.frame.stop < c.stop
  · have houtgrows : c.outgrows = true := by simpa [Carving.outgrows] using hgrows
    have hreserve := reserve_of_planCarving hplan hgrows
    simp only [carve, Carving.after, if_pos houtgrows]
    exact reserve_eq_ok hreserve hlimited
  · have hfits : ¬ c.outgrows = true := by simpa [Carving.outgrows] using hgrows
    simp only [carve, Carving.after, if_neg hfits]
    exact ⟨hinside, Nat.le_refl _, hlimited⟩

/-- **One call preserves the invariant.** -/
theorem Inv.step {ledger : List Entry} (inv : s.Inv ledger) (h : Step s c s') :
    s'.Inv (c.note s ledger) := by
  have hinside := inv.inside
  have hlimited := inv.limited
  cases h with
  | @pushFrame layout size hreserve =>
    obtain ⟨hstop, -, hsize⟩ := reserve_eq_ok hreserve hlimited
    exact ⟨.cons inv.stacked (fits_frameAt layout s.top), hstop, hsize⟩
  | @popFrame f rest hframes =>
    obtain ⟨e, below, rfl, hfits, hbelow, htop⟩ := inv.uncons hframes
    have hrest : ({ s with frames := rest } : FrameStack).top = f.base := hbelow.top_eq
    constructor
    · rw [hrest]
      exact hbelow
    · rw [hrest]
      exact Nat.le_trans hfits.base_le_stop (htop ▸ hinside)
    · exact hlimited
  | @push f rest v hframes hdepth =>
    obtain ⟨e, below, rfl, hfits, hbelow, htop⟩ := inv.uncons hframes
    exact ⟨.cons hbelow { hfits with bounded := hdepth }, htop ▸ hinside, hlimited⟩
  | @pop f rest v values hframes hvalues =>
    obtain ⟨e, below, rfl, hfits, hbelow, htop⟩ := inv.uncons hframes
    have hbounded := hfits.bounded
    have hdepth : f.depth = values.length + 1 := by rw [Frame.depth, hvalues, List.length_cons]
    have hshorter : values.length ≤ f.maxDepth := by omega
    exact ⟨.cons hbelow { hfits with bounded := hshorter }, htop ▸ hinside, hlimited⟩
  | @allocate count c hplan =>
    obtain ⟨rest, hframes, hstart, hstop⟩ := planCarving_eq_ok hplan
    obtain ⟨e, below, rfl, hfits, hbelow, htop⟩ := inv.uncons hframes
    have hnote : (Call.allocate count).note s (e :: below) =
        { e with blocks := ⟨.stack c.frame.cursor, count⟩ :: e.blocks } :: below := by
      simp only [Call.note, allocate_of_planCarving hplan, hstart, List.modifyHead_cons]
    have hcarved : (s.carve c).frames = c.after :: rest := by
      rw [frames_carve, hframes, List.tail_cons]
    obtain ⟨hend, -, hsize⟩ := size_carve hplan (htop ▸ hinside) hlimited
    constructor
    · rw [hcarved, hnote, top_of_frames hcarved]
      exact .cons (c.base_after ▸ hbelow) (hfits.carve hstop)
    · rw [top_of_frames hcarved]
      exact hend
    · rw [limit_carve]
      exact hsize
  | @resetScratch f rest hframes =>
    obtain ⟨e, below, rfl, hfits, hbelow, htop⟩ := inv.uncons hframes
    have hrewound : Fits { f with cursor := f.scratch, values := [] } { e with blocks := [] } :=
      { hfits with
        scratch_le := Nat.le_refl _
        cursor_le := Nat.le_trans hfits.scratch_le hfits.cursor_le
        bounded := Nat.zero_le _
        blocks := List.forall_mem_nil _ }
    constructor
    · simp only [rewind, hframes, List.tail_cons]
      exact .cons hbelow hrewound
    · show f.stop ≤ s.arena.size
      exact htop ▸ hinside
    · exact hlimited
  | write hrange => exact ⟨inv.stacked, hinside, hlimited⟩

/-- **Every run preserves the invariant.** -/
theorem Reached.inv {May : FrameStack → Call → Prop} {initialSize : Nat} {limit : UInt64} {ledger : List Entry}
    (h : Reached May initialSize limit s ledger) : s.Inv ledger ∧ s.limit = limit := by
  induction h with
  | created => exact ⟨inv_create initialSize limit, rfl⟩
  | @called s ledger c _ _ ih =>
    obtain ⟨inv, hlimit⟩ := ih
    rcases after_cases s ledger c with ⟨s', hstep, hafter, hnoted⟩ | ⟨hafter, hnoted⟩
    · rw [hafter, hnoted]
      exact ⟨inv.step hstep, hstep.limit_eq.trans hlimit⟩
    · rw [hafter, hnoted]
      exact ⟨inv, hlimit⟩

/-! ## Calls on a machine -/

/-- The call as an operation of the machine. -/
def Call.exec : Call → Exec Unit
  | pushFrame layout => Exec.pushFrame layout
  | popFrame => discard Exec.popFrame
  | push v => Exec.push v
  | pop => discard Exec.pop
  | allocate count => discard (Exec.carve count)
  | resetScratch => discard Exec.resetScratch
  | write address data => Exec.writeStack address data

open Exec (bind_of_ok bind_of_error query_of_ok query_of_error discard_of_ok discard_of_error)

/-- A call that succeeds changes the stack of the machine, and its journal at most. -/
theorem exec_of_ok {m : Machine} (h : c.run m.stack = .ok s') :
    ∃ journal, c.exec m = .ok ⟨⟩ { m with stack := s', journal } := by
  cases c with
  | pushFrame layout =>
    obtain ⟨size, hreserve, h⟩ := except_bind_ok.mp h
    cases h
    have hframe : Exec.pushFrame layout m = _ := bind_of_ok (a := layout.frameAt m.stack.top) rfl
    exact ⟨_, hframe.trans (bind_of_ok (query_of_ok hreserve))⟩
  | popFrame =>
    obtain ⟨⟨f, popped⟩, hpop, rfl⟩ := except_map_ok.mp h
    have hexec : Exec.popFrame m = _ := bind_of_ok (query_of_ok hpop)
    exact ⟨_, discard_of_ok hexec⟩
  | push v =>
    have hexec : Exec.push v m = _ := bind_of_ok (query_of_ok h)
    exact ⟨_, hexec⟩
  | pop =>
    obtain ⟨⟨v, popped⟩, hpop, rfl⟩ := except_map_ok.mp h
    have hexec : Exec.pop m = _ := bind_of_ok (query_of_ok hpop)
    exact ⟨_, discard_of_ok hexec⟩
  | allocate count =>
    obtain ⟨⟨a, carved⟩, hallocate, rfl⟩ := except_map_ok.mp h
    obtain ⟨c, hplan, -, rfl⟩ := allocate_eq_ok hallocate
    obtain ⟨journal, hcarve⟩ := Exec.carve_eq hplan
    exact ⟨journal, discard_of_ok hcarve⟩
  | resetScratch =>
    obtain ⟨⟨values, rewound⟩, hreset, rfl⟩ := except_map_ok.mp h
    obtain ⟨f, hcurrent, hreset⟩ := except_bind_ok.mp hreset
    cases hreset
    have hexec : Exec.resetScratch m = _ := bind_of_ok (query_of_ok hcurrent)
    exact ⟨_, discard_of_ok hexec⟩
  | write address data =>
    cases step_of_run h with
    | write hrange =>
      have hexec : Exec.writeStack address data m = _ :=
        bind_of_ok (a := m.stack.inRange address data.length) rfl
      rw [if_pos hrange] at hexec
      exact ⟨_, hexec⟩

/-- **A call that fails changes nothing** of the machine. -/
theorem exec_of_error {m : Machine} {e : Error} (h : c.run m.stack = .error e) :
    c.exec m = .error e m := by
  cases c with
  | pushFrame layout =>
    have hreserve := except_map_error.mp h
    have hframe : Exec.pushFrame layout m = _ := bind_of_ok (a := layout.frameAt m.stack.top) rfl
    exact hframe.trans (bind_of_error (query_of_error hreserve))
  | popFrame =>
    have hpop := except_map_error.mp h
    exact discard_of_error (bind_of_error (query_of_error hpop))
  | push v => exact bind_of_error (query_of_error h)
  | pop =>
    have hpop := except_map_error.mp h
    exact discard_of_error (bind_of_error (query_of_error hpop))
  | allocate count =>
    have hplan := except_map_error.mp (except_map_error.mp h)
    exact discard_of_error (bind_of_error (query_of_error hplan))
  | resetScratch =>
    have hcurrent := except_map_error.mp (except_map_error.mp h)
    exact discard_of_error (bind_of_error (query_of_error hcurrent))
  | write address data =>
    have hwrite : m.stack.write address data = .error e := h
    unfold FrameStack.write at hwrite
    split at hwrite
    · cases hwrite
    · rename_i hrange
      cases hwrite
      have hexec : Exec.writeStack address data m = _ :=
        bind_of_ok (a := m.stack.inRange address data.length) rfl
      rw [if_neg hrange] at hexec
      exact hexec

/-! ## The readable form -/

/-- **A well-formed frame stack**, with a ledger of the calls made on it. -/
structure WellFormed (limit : UInt64) (s : FrameStack) (ledger : List Entry) : Prop where
  /-- The outermost frame starts at the first byte. -/
  first : ∀ f, s.frames.getLast? = some f → f.base = 0
  /-- Each frame starts where the one below it ends. -/
  contiguous : s.frames.IsChain fun f below => f.base = below.stop
  ordered : ∀ f ∈ s.frames, f.base ≤ f.scratch ∧ f.scratch ≤ f.cursor ∧ f.cursor ≤ f.stop
  /-- The locals and then the arguments take up the bytes from the base to the scratch. -/
  tiled : List.Forall₂ (fun f e => ∃ middle, Tiled f.base f.locals e.layout.locals middle ∧
    Tiled middle f.arguments e.layout.arguments f.scratch) s.frames ledger
  bounded : List.Forall₂ (fun f e => f.depth ≤ f.maxDepth ∧ f.maxDepth = e.layout.maxDepth)
    s.frames ledger
  inside : s.top ≤ s.arena.size
  limited : s.arena.size ≤ limit.toNat

theorem Stacked.fits {frames : List Frame} {ledger : List Entry} {stop : Nat}
    (h : Stacked frames ledger stop) : List.Forall₂ Fits frames ledger := by
  induction h with
  | nil => exact .nil
  | cons _ hfits ih => exact .cons hfits ih

theorem Stacked.contiguous {frames : List Frame} {ledger : List Entry} {stop : Nat}
    (h : Stacked frames ledger stop) :
    (∀ f, frames.getLast? = some f → f.base = 0) ∧
      frames.IsChain fun f below => f.base = below.stop := by
  induction h with
  | nil => simp
  | @cons f e frames ledger hbelow hfits ih =>
    obtain ⟨hfirst, hchain⟩ := ih
    generalize hbase : f.base = base at hbelow
    cases hbelow with
    | nil => simp [hbase]
    | cons _ _ => simp_all

/-- **Every frame stack that calls lead to is well formed**, and each further call, made on a machine
that has this stack, changes the stack as the run of calls says and the machine not at all if it
fails. -/
theorem wellFormed_of_calls {May : FrameStack → Call → Prop} {initialSize : Nat} {limit : UInt64}
    {ledger : List Entry} (hr : Reached May initialSize limit s ledger) :
    s.WellFormed limit ledger ∧
      ∀ (c : Call) (m : Machine), m.stack = s →
        (c.exec.final m).stack = s.after c ∧ ∀ e m', c.exec m = .error e m' → m' = m := by
  obtain ⟨inv, hlimit⟩ := hr.inv
  obtain ⟨hfirst, hcontiguous⟩ := inv.stacked.contiguous
  constructor
  · constructor
    · exact hfirst
    · exact hcontiguous
    · intro f hf
      obtain ⟨e, -, hfits⟩ := exists_of_forall₂_mem inv.stacked.fits hf
      exact ⟨hfits.base_le, hfits.scratch_le, hfits.cursor_le⟩
    · exact inv.stacked.fits.imp fun f e hfits => hfits.slots
    · exact inv.stacked.fits.imp fun f e hfits => ⟨hfits.bounded, hfits.maxDepth_eq⟩
    · exact inv.inside
    · exact hlimit ▸ inv.limited
  · intro c m hstack
    subst hstack
    unfold after Exec.final
    cases hrun : c.run m.stack with
    | ok s' =>
      obtain ⟨journal, hexec⟩ := exec_of_ok hrun
      rw [hexec]
      exact ⟨rfl, nofun⟩
    | error e =>
      rw [exec_of_error hrun]
      refine ⟨rfl, ?_⟩
      intro e' m' h
      cases h
      rfl

/-- A frame with a local of four bytes and an argument of eight. -/
def twoSlots : FrameLayout where
  totalSize := 12
  maxDepth := 1
  locals := [(⟨0⟩, 4)]
  arguments := [(⟨1⟩, 8)]

/-- Two frames. The outer one was extended for its scratch and holds one value, as many as it may:
the second push failed, and so did a frame that the limit has no room for. -/
theorem wellFormed_after_growth :
    ∃ s ledger, Reached (fun _ _ => True) 16 64 s ledger ∧
      (s.frames.map fun f => (f.base, f.scratch, f.cursor, f.stop, f.depth)) =
        [(20, 20, 20, 24, 0), (0, 12, 20, 20, 1)] ∧
      s.arena.size = 32 ∧ ledger.map (·.blocks) = [[], [⟨.stack 12, 8⟩]] ∧ s.WellFormed 64 ledger := by
  have hframe : Reached (fun _ _ => True) 16 64 _ _ := .called (.pushFrame twoSlots) .created trivial
  have hgrown := hframe.called (.allocate 8) trivial
  have hfull := (hgrown.called (.push (.pointer ⟨0⟩ .null)) trivial).called
    (.push (.pointer ⟨0⟩ .null)) trivial
  have hrefused := hfull.called (.pushFrame { totalSize := 100 }) trivial
  have hnested := hrefused.called (.pushFrame { totalSize := 4 }) trivial
  exact ⟨_, _, hnested, by decide, by decide, by decide, (wellFormed_of_calls hnested).1⟩

/-- Without overflow checks a request for nearly all the words there are takes the scratch back, and
bytes of slots with it. -/
theorem overdrawn_not_wellFormed :
    ∃ s ledger, @Reached .unchecked (fun _ _ => True) 16 64 s ledger ∧
      (s.frames.map fun f => (f.base, f.scratch, f.cursor, f.stop)) = [(0, 12, 8, 24)] ∧
      ¬ s.WellFormed 64 ledger := by
  have hcreated : @Reached .unchecked (fun _ _ => True) 16 64 _ [] :=
    @Reached.created .unchecked _ _ _
  have hframe := @Reached.called .unchecked _ _ _ _ _ (.pushFrame { twoSlots with totalSize := 24 })
    hcreated trivial
  have hoverdrawn := @Reached.called .unchecked _ _ _ _ _ (.allocate (UInt64.size - 4)) hframe trivial
  refine ⟨_, _, hoverdrawn, by decide, fun hformed => ?_⟩
  obtain ⟨-, hcursor, -⟩ := hformed.ordered _ (.head _)
  exact absurd hcursor (by decide)

end ManagedVm.FrameStack
