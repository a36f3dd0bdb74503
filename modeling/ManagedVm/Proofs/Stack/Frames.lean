import ManagedVm.Proofs.Arena
import ManagedVm.Proofs.Outcome
import ManagedVm.Proofs.Size
import ManagedVm.Stack.FrameStack

/-!
# Frames and their scratch

What the parts of the frame stack's operations do: where the slots of a new frame lie, how far the
arena is extended, and which bytes of the innermost frame are handed out next.
-/

namespace ManagedVm

open scoped Naturals

/-! ## Addresses of the stack -/

namespace Address

theorem toNat_stack (n : Nat) :
    (stack n).raw.toNat = n % stackStart.toNat + stackStart.toNat := by
  have hstart : stackStart.toNat = 9223372036854775808 := rfl
  show (n.toUInt64 % stackStart + stackStart).toNat = _
  have hn : n.toUInt64.toNat = n % 18446744073709551616 := rfl
  rw [UInt64.toNat_add, UInt64.toNat_mod, hn, hstart]
  omega

@[simp] theorem space_stack (n : Nat) : (stack n).space = .stack := by
  unfold space
  rw [if_neg]
  rw [UInt64.lt_iff_toNat_lt, toNat_stack]
  omega

@[simp] theorem isNull_stack (n : Nat) : (stack n).isNull = false := by
  have hstart : stackStart.toNat = 9223372036854775808 := rfl
  have hne : (stack n).raw ≠ 0 := by
    intro h
    have hzero := toNat_stack n
    rw [h, hstart] at hzero
    have h0 : (0 : UInt64).toNat = 0 := rfl
    omega
  unfold isNull
  simpa using hne

theorem offset_stack {n : Nat} (h : n < stackStart.toNat) : (stack n).offset = n := by
  unfold offset
  rw [UInt64.toNat_mod, toNat_stack, Nat.mod_eq_of_lt h, Nat.add_mod_right, Nat.mod_eq_of_lt h]

end Address

/-! ## Slots -/

namespace Frame

variable {f : Frame} {index : Int32} {b : Binding}

theorem getLocal_eq_ok : f.getLocal index = .ok b ↔ slotAt? f.locals index = some b := by
  unfold getLocal
  cases slotAt? f.locals index <;> simp

theorem getArgument_eq_ok : f.getArgument index = .ok b ↔ slotAt? f.arguments index = some b := by
  unfold getArgument
  cases slotAt? f.arguments index <;> simp

end Frame

/-! ## Layouts -/

namespace FrameLayout

theorem bind_snd (start : Nat) (slots : List (TypeId × Nat)) :
    (bind start slots).2 = start + (slots.map (·.2)).sum := by
  induction slots generalizing start with
  | nil => rfl
  | cons slot slots ih =>
    show (bind (start + slot.2) slots).2 = _
    rw [ih, List.map_cons, List.sum_cons, Nat.add_assoc]

/-- **Where the parts of a frame are**: the locals at its base, the arguments behind them, and then the
scratch. -/
theorem frameAt_eq (l : FrameLayout) (base : Nat) : l.frameAt base =
    { method := l.method
      base
      stop := base + max l.totalSize l.slotBytes
      scratch := base + l.slotBytes
      cursor := base + l.slotBytes
      maxDepth := l.maxDepth
      receiver := l.receiver
      locals := (bind base l.locals).1
      arguments := (bind (bind base l.locals).2 l.arguments).1 } := by
  have hscratch : (bind (bind base l.locals).2 l.arguments).2 = base + l.slotBytes := by
    unfold slotBytes
    rw [bind_snd, bind_snd, List.map_append, List.sum_append, Nat.add_assoc]
  rw [← hscratch]
  rfl

/-- There is scratch in a new frame behind its slots. -/
theorem scratch_add_le_stop {l : FrameLayout} {count : Nat} (h : l.slotBytes + count ≤ l.totalSize)
    (base : Nat) : (l.frameAt base).scratch + count ≤ (l.frameAt base).stop := by
  rw [l.frameAt_eq]
  dsimp only
  omega

end FrameLayout

/-! ## Scratch -/

namespace FrameStack

theorem inRange_iff {s : FrameStack} {a : Address} {length : Nat} : s.inRange a length = true ↔
    a.space = .stack ∧ a.offset + length ≤ s.top := by
  simp [inRange]

/-- **What is reserved**: an arena that holds the bytes, is no smaller than before, and keeps to the
limit. -/
theorem reserve_eq_ok [Build] {s : FrameStack} {stop size : Nat} (h : s.reserve stop = .ok size)
    (hlimit : s.arena.size ≤ s.limit.toNat) :
    stop ≤ size ∧ s.arena.size ≤ size ∧ size ≤ s.limit.toNat := by
  unfold reserve at h
  split at h
  · cases h
  · split at h
    · cases h
      omega
    · cases h
      omega

variable {s : FrameStack} {count : Nat} {c : Carving}

/-- The frame in place of the innermost one after scratch was handed out. -/
def Carving.after (c : Carving) : Frame :=
  if c.outgrows then { c.frame with cursor := c.stop, stop := c.stop, grown := true }
  else { c.frame with cursor := c.stop }

theorem frames_carve (s : FrameStack) (c : Carving) :
    (s.carve c).frames = c.after :: s.frames.tail := by
  unfold carve Carving.after
  split
  · rfl
  · rfl

/-- **What a carving is**: it takes the bytes behind the cursor of the innermost frame. -/
theorem carving_of_planCarving [Build] (h : s.planCarving count = .ok c) :
    ∃ rest, s.frames = c.frame :: rest ∧ c.start = c.frame.cursor ∧
      c.stop = Size.word (c.frame.cursor + count) := by
  obtain ⟨f, hcurrent, h⟩ := except_bind_ok.mp h
  have hc : c.frame = f ∧ c.start = f.cursor ∧ c.stop = Size.word (f.cursor + count) := by
    dsimp only at h
    split at h
    · obtain ⟨size, -, h⟩ := except_bind_ok.mp h
      cases h
      exact ⟨rfl, rfl, rfl⟩
    · cases h
      exact ⟨rfl, rfl, rfl⟩
  obtain ⟨rfl, hstart, hstop⟩ := hc
  unfold current at hcurrent
  cases hframes : s.frames with
  | nil =>
    rw [hframes] at hcurrent
    cases hcurrent
  | cons f rest =>
    rw [hframes] at hcurrent
    cases hcurrent
    exact ⟨rest, rfl, hstart, hstop⟩

/-- **What a carving is** with overflow checks. -/
theorem planCarving_eq_ok (h : s.planCarving count = .ok c) :
    ∃ rest, s.frames = c.frame :: rest ∧ c.start = c.frame.cursor ∧
      c.stop = c.frame.cursor + count := carving_of_planCarving h

/-- A carving that outgrows the frame has reserved the bytes. -/
theorem reserve_of_planCarving [Build] (h : s.planCarving count = .ok c) (hgrows : c.frame.stop < c.stop) :
    s.reserve c.stop = .ok c.arenaSize := by
  obtain ⟨f, -, h⟩ := except_bind_ok.mp h
  dsimp only at h
  split at h
  · obtain ⟨size, hreserve, h⟩ := except_bind_ok.mp h
    cases h
    exact hreserve
  · rename_i hfits
    cases h
    exact absurd hgrows hfits

theorem Carving.cursor_after (c : Carving) : c.after.cursor = c.stop := by
  unfold after
  split
  · rfl
  · rfl

theorem limit_carve (s : FrameStack) (c : Carving) : (s.carve c).limit = s.limit := by
  unfold carve
  split
  · rfl
  · rfl

/-- A frame that is extended keeps its bytes. -/
theorem byte_carve {i : Nat} (hi : i < c.frame.stop) : (s.carve c).arena.byte i = s.arena.byte i := by
  unfold carve
  split
  · show ((s.arena.resize c.arenaSize).clear c.frame.stop c.stop).byte i = _
    rw [Arena.byte_clear, if_neg (by omega), Arena.byte_resize]
  · rfl

theorem stop_after_le {limit : Nat} (hframe : c.frame.stop ≤ limit)
    (hstop : c.frame.stop < c.stop → c.stop ≤ limit) : c.after.stop ≤ limit := by
  unfold Carving.after
  split
  · rename_i houtgrows
    exact hstop (by simpa [Carving.outgrows] using houtgrows)
  · exact hframe

theorem reserve_of_planFrame [Build] {layout : FrameLayout} {size : Nat}
    (h : s.planFrame layout = .ok size) : s.reserve (layout.frameAt s.top).stop = .ok size := by
  obtain ⟨size', hreserve, h⟩ := except_bind_ok.mp h
  split at h
  · cases h
  · cases h
    exact hreserve

theorem planFrame_checked (s : FrameStack) (layout : FrameLayout) :
    s.planFrame layout = s.reserve (layout.frameAt s.top).stop := by
  show (s.reserve (layout.frameAt s.top).stop >>= pure) = _
  exact bind_pure _

theorem planCarving_of_frames {f : Frame} {rest : List Frame} (hframes : s.frames = f :: rest)
    (count : Nat) : s.planCarving count =
      (if f.stop < f.cursor + count then s.reserve (f.cursor + count) else .ok s.arena.size).map
        fun arenaSize => { frame := f, start := f.cursor, stop := f.cursor + count, arenaSize } := by
  have hcurrent : s.current = .ok f := by
    unfold current
    rw [hframes]
  unfold planCarving
  rw [hcurrent]
  show (if f.stop < f.cursor + count then _ else _) = _
  rw [Size.word_checked]
  split
  · cases s.reserve (f.cursor + count) <;> rfl
  · rfl

/-- **When scratch can be handed out**: unless the arena would exceed its limit. -/
theorem planCarving_cases {f : Frame} {rest : List Frame} (hframes : s.frames = f :: rest)
    (count : Nat) :
    (s.planCarving count = .error (if UInt64.size ≤ f.cursor + count then .panic
          else .stackOverflow (f.cursor + count) s.limit.toNat) ∧
        s.limit.toNat < f.cursor + count) ∨
      ∃ c, s.planCarving count = .ok c ∧ c.frame = f ∧ c.start = f.cursor ∧
        c.stop = f.cursor + count ∧ (f.stop < f.cursor + count → f.cursor + count ≤ s.limit.toNat) := by
  rw [planCarving_of_frames hframes]
  by_cases hgrows : f.stop < f.cursor + count
  · rw [if_pos hgrows]
    unfold reserve
    by_cases hlimit : s.limit.toNat < f.cursor + count
    · rw [if_pos hlimit]
      refine .inl ⟨?_, hlimit⟩
      simp [Except.map]
    · rw [if_neg hlimit]
      refine .inr ?_
      split
      · exact ⟨_, rfl, rfl, rfl, rfl, fun _ => by omega⟩
      · exact ⟨_, rfl, rfl, rfl, rfl, fun _ => by omega⟩
  · rw [if_neg hgrows]
    exact .inr ⟨_, rfl, rfl, rfl, rfl, fun h => absurd h hgrows⟩

/-- **Scratch that the frame has is handed out**, whatever the limit of the arena, and only the cursor
moves. -/
theorem carve_of_fits {f : Frame} {rest : List Frame} (hframes : s.frames = f :: rest)
    (hfits : f.cursor + count ≤ f.stop) : ∃ c, s.planCarving count = .ok c ∧
      (s.carve c).frames = { f with cursor := f.cursor + count } :: rest := by
  have hplan := planCarving_of_frames hframes count
  rw [if_neg (Nat.not_lt_of_le hfits)] at hplan
  refine ⟨_, hplan, ?_⟩
  rw [frames_carve, hframes]
  unfold Carving.after Carving.outgrows
  rw [if_neg (by simpa using hfits)]
  rfl

end FrameStack

end ManagedVm
