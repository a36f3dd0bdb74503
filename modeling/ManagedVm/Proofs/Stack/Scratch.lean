import ManagedVm.Proofs.Stack.Invariant

/-!
# Fresh scratch

Scratch is handed out once and zeroed. Nothing clears bytes when they are handed out from the reserve
of a frame: they are zero because the frame was made of zeros, because scratch that is taken back is
cleared, and because nobody wrote to them. The last is up to the users of the stack, who may write
where something was given to them: to the bytes below the cursor of a frame (`Call.Tidy`).

The invariant is `Clean`: the bytes of a frame behind its cursor are zero.
-/

namespace ManagedVm.FrameStack

variable {s s' : FrameStack} {c : Call}

/-! ## Blocks -/

/-- The byte is one of the block's. -/
def Block.Has (b : Block) (i : Nat) : Prop := b.address.offset ≤ i ∧ i < b.address.offset + b.size

/-- The blocks have no byte in common. -/
def Block.Apart (b b' : Block) : Prop := ∀ i, b.Has i → ¬ b'.Has i

/-- Slots as blocks, of the sizes declared. -/
def slotBlocks (bindings : List Binding) (slots : List (TypeId × Nat)) : List Block :=
  List.zipWith (fun b slot => ⟨b.address, slot.2⟩) bindings slots

/-- The locals and arguments of a frame. -/
def Entry.slots (f : Frame) (e : Entry) : List Block :=
  slotBlocks (f.locals ++ f.arguments) (e.layout.locals ++ e.layout.arguments)

/-- **All that is given to somebody**: the slots of the frames, and their scratch that was handed out
and not taken back. -/
def given (frames : List Frame) (ledger : List Entry) : List Block :=
  (List.zipWith (fun f e => e.slots f ++ e.blocks) frames ledger).flatten

/-- A block lies in the stack arena between two bytes. -/
def Block.Within (low high : Nat) (b : Block) : Prop :=
  ∃ start, b.address = .stack start ∧ low ≤ start ∧ start + b.size ≤ high

theorem Block.Within.mono {low low' high high' : Nat} {b : Block} (h : b.Within low high)
    (hlow : low' ≤ low) (hhigh : high ≤ high') : b.Within low' high' := by
  obtain ⟨start, haddress, hstart, hend⟩ := h
  exact ⟨start, haddress, by omega, by omega⟩

theorem Tiled.within {start stop : Nat} {bindings : List Binding} {slots : List (TypeId × Nat)}
    (h : Tiled start bindings slots stop) : ∀ b ∈ slotBlocks bindings slots, b.Within start stop := by
  induction h with
  | nil => exact List.forall_mem_nil _
  | @cons start stop type size bindings slots hrest ih =>
    intro b hb
    rcases List.mem_cons.mp hb with rfl | hb
    · exact ⟨start, rfl, Nat.le_refl _, hrest.le⟩
    · exact (ih b hb).mono (by omega) (Nat.le_refl _)

/-- What is given of a frame lies between its base and its cursor. -/
theorem Fits.within {f : Frame} {e : Entry} (h : Fits f e) :
    ∀ b ∈ e.slots f ++ e.blocks, b.Within f.base f.cursor := by
  intro b hb
  rcases List.mem_append.mp hb with hslot | hblock
  · obtain ⟨middle, hlocals, harguments⟩ := h.slots
    exact ((hlocals.append harguments).within b hslot).mono (Nat.le_refl _) h.scratch_le
  · obtain ⟨start, haddress, hstart, hend⟩ := h.blocks b hblock
    exact ⟨start, haddress, Nat.le_trans h.base_le hstart, hend⟩

theorem Stacked.within {frames : List Frame} {ledger : List Entry} {stop : Nat}
    (h : Stacked frames ledger stop) : ∀ b ∈ given frames ledger, b.Within 0 stop := by
  induction h with
  | nil => exact List.forall_mem_nil _
  | @cons f e frames ledger hbelow hfits ih =>
    have hstop := hfits.base_le_stop
    intro b hb
    rcases List.mem_append.mp hb with hown | hbelow
    · exact (hfits.within b hown).mono (Nat.zero_le _) hfits.cursor_le
    · exact (ih b hbelow).mono (Nat.le_refl _) hstop

/-- What is given lies below the innermost cursor. -/
theorem Inv.within {ledger : List Entry} {f : Frame} {rest : List Frame} (inv : s.Inv ledger)
    (hframes : s.frames = f :: rest) : ∀ b ∈ given s.frames ledger, b.Within 0 f.cursor := by
  obtain ⟨e, below, rfl, hfits, hbelow, -⟩ := inv.uncons hframes
  have hcursor := Nat.le_trans hfits.base_le hfits.scratch_le
  rw [hframes]
  intro b hb
  rcases List.mem_append.mp hb with hown | hrest
  · exact (hfits.within b hown).mono (Nat.zero_le _) (Nat.le_refl _)
  · exact (hbelow.within b hrest).mono (Nat.le_refl _) hcursor

/-! ## Frames do not overlap -/

theorem Stacked.stop_le {frames : List Frame} {ledger : List Entry} {stop : Nat}
    (h : Stacked frames ledger stop) : ∀ f ∈ frames, f.stop ≤ stop := by
  induction h with
  | nil => exact List.forall_mem_nil _
  | @cons f e frames ledger hbelow hfits ih =>
    intro g hg
    rcases List.mem_cons.mp hg with rfl | hg
    · exact Nat.le_refl _
    · exact Nat.le_trans (ih g hg) hfits.base_le_stop

/-- A byte lies in one frame at most. -/
theorem Stacked.eq_of_byte {frames : List Frame} {ledger : List Entry} {stop i : Nat}
    (h : Stacked frames ledger stop) {f g : Frame} (hf : f ∈ frames) (hg : g ∈ frames)
    (hif : f.base ≤ i ∧ i < f.stop) (hig : g.base ≤ i ∧ i < g.stop) : f = g := by
  induction h with
  | nil => cases hf
  | @cons top e frames ledger hbelow hfits ih =>
    rcases List.mem_cons.mp hf with rfl | hf' <;> rcases List.mem_cons.mp hg with rfl | hg'
    · rfl
    · have hstop := hbelow.stop_le g hg'
      omega
    · have hstop := hbelow.stop_le f hf'
      omega
    · exact ih hf' hg'

/-! ## The bytes behind the cursors -/

/-- **Users write where something was given to them**: each byte that is written lies below the
cursor of a frame. -/
def Call.Tidy (s : FrameStack) : Call → Prop
  | .write address data => s.inRange address data.length = true →
      ∀ i, address.offset ≤ i → i < address.offset + data.length →
        ∃ f ∈ s.frames, f.base ≤ i ∧ i < f.cursor
  | _ => True

/-- The bytes of the frame behind its cursor are zero. -/
def CleanIn (arena : Arena) (f : Frame) : Prop := ∀ i, f.cursor ≤ i → i < f.stop → arena.byte i = 0

theorem CleanIn.congr {arena arena' : Arena} {f : Frame} (h : CleanIn arena f)
    (hbytes : ∀ i < f.stop, arena.byte i = 0 → arena'.byte i = 0) : CleanIn arena' f := by
  intro i hcursor hstop
  exact hbytes i hstop (h i hcursor hstop)

/-- **The scratch that was not handed out is zero.** -/
def Clean (s : FrameStack) : Prop := ∀ f ∈ s.frames, CleanIn s.arena f

/-- A new frame is made of zeros. -/
theorem byte_enter {layout : FrameLayout} {size i : Nat} (hbase : s.top ≤ i)
    (hstop : i < (layout.frameAt s.top).stop) : (s.enter layout size).arena.byte i = 0 := by
  show ((s.arena.resize size).clear s.top (layout.frameAt s.top).stop).byte i = 0
  rw [Arena.byte_clear, if_pos ⟨hbase, hstop⟩]

/-- Clearing bytes leaves every zero. -/
theorem byte_clear_of_zero {arena : Arena} {start stop i : Nat} (h : arena.byte i = 0) :
    (arena.clear start stop).byte i = 0 := by
  rw [Arena.byte_clear]
  split
  · rfl
  · exact h

/-- The frame that hands out scratch is clean behind it. -/
theorem cleanIn_carve {c : Carving} (h : CleanIn s.arena c.frame) (hle : c.frame.cursor ≤ c.stop) :
    CleanIn (s.carve c).arena c.after := by
  intro i hcursor hstop
  rw [c.cursor_after] at hcursor
  have hinside : i < c.frame.stop := by
    unfold Carving.after at hstop
    split at hstop
    · dsimp only at hstop
      omega
    · exact hstop
  rw [byte_carve hinside]
  exact h i (by omega) hinside

/-- **One tidy call keeps the stack clean.** -/
theorem Clean.step {ledger : List Entry} (clean : s.Clean) (inv : s.Inv ledger)
    (htidy : c.Tidy s) (h : Step s c s') : s'.Clean := by
  intro g hg
  cases h with
  | @pushFrame layout size hreserve =>
    rcases List.mem_cons.mp hg with rfl | hg
    · intro i hcursor hstop
      have hfits := fits_frameAt layout s.top
      have hbase : s.top ≤ (layout.frameAt s.top).cursor := Nat.le_trans hfits.base_le hfits.scratch_le
      exact byte_enter (Nat.le_trans hbase hcursor) hstop
    · apply (clean g hg).congr
      intro i _ hzero
      exact byte_clear_of_zero hzero
  | @popFrame f rest hframes => exact clean g (hframes ▸ .tail _ hg)
  | @push f rest v hframes hdepth =>
    rcases List.mem_cons.mp hg with rfl | hg
    · exact clean f (hframes ▸ .head _)
    · exact clean g (hframes ▸ .tail _ hg)
  | @pop f rest v values hframes hvalues =>
    rcases List.mem_cons.mp hg with rfl | hg
    · exact clean f (hframes ▸ .head _)
    · exact clean g (hframes ▸ .tail _ hg)
  | @allocate count c hplan =>
    obtain ⟨rest, hframes, hstart, hstop⟩ := planCarving_eq_ok hplan
    obtain ⟨e, below, rfl, hfits, hbelow, -⟩ := inv.uncons hframes
    rw [frames_carve, hframes, List.tail_cons] at hg
    rcases List.mem_cons.mp hg with rfl | hg
    · exact cleanIn_carve (clean _ (hframes ▸ .head _)) (by omega)
    · have hend := Nat.le_trans (hbelow.stop_le g hg) hfits.base_le_stop
      apply (clean g (hframes ▸ .tail _ hg)).congr
      intro i hi hzero
      rw [byte_carve (by omega)]
      exact hzero
  | @resetScratch f rest hframes =>
    simp only [rewind, hframes, List.tail_cons] at hg
    rcases List.mem_cons.mp hg with rfl | hg
    · intro i hcursor hstop
      show (s.arena.clear f.scratch f.cursor).byte i = 0
      by_cases hold : f.cursor ≤ i
      · exact byte_clear_of_zero (clean f (hframes ▸ .head _) i hold hstop)
      · rw [Arena.byte_clear, if_pos ⟨hcursor, by omega⟩]
    · apply (clean g (hframes ▸ .tail _ hg)).congr
      intro i _ hzero
      exact byte_clear_of_zero hzero
  | @write address data hrange =>
    intro i hcursor hstop
    have hzero := clean g hg i hcursor hstop
    show (s.arena.write address.offset data).byte i = 0
    by_cases hbefore : i < address.offset
    · rw [Arena.byte_write_of_lt hbefore, hzero]
    · by_cases hbehind : address.offset + data.length ≤ i
      · rw [Arena.byte_write_of_le hbehind, hzero]
      · -- The byte would lie in two frames, behind one's cursor and below the other's.
        obtain ⟨f, hf, hbase, hbelow⟩ := htidy hrange i (by omega) (by omega)
        obtain ⟨e, -, hfits⟩ := exists_of_forall₂_mem inv.stacked.fits hf
        obtain ⟨e', -, hfits'⟩ := exists_of_forall₂_mem inv.stacked.fits hg
        have hcursor_le := hfits.cursor_le
        have hbase_le := Nat.le_trans hfits'.base_le hfits'.scratch_le
        have heq : f = g := inv.stacked.eq_of_byte (i := i) hf hg (by omega) (by omega)
        subst heq
        omega

/-- **Every run of tidy calls keeps the stack clean.** -/
theorem Reached.clean {initialSize : Nat} {limit : UInt64} {ledger : List Entry}
    (h : Reached (fun s c => c.Tidy s) initialSize limit s ledger) : s.Clean := by
  induction h with
  | created => exact List.forall_mem_nil _
  | @called s ledger c hr htidy ih =>
    rcases after_cases s ledger c with ⟨s', hstep, hafter, -⟩ | ⟨hafter, -⟩
    · rw [hafter]
      exact ih.step hr.inv.1 htidy hstep
    · rw [hafter]
      exact ih

/-! ## Reading what is new -/

/-- Bytes of the frames that are all zero read as zeros. -/
theorem bytes_of_zero {start count : Nat} (hsize : s.arena.size < Address.stackStart.toNat)
    (hinside : s.top ≤ s.arena.size) (hend : start + count ≤ s.top)
    (hzero : ∀ i, start ≤ i → i < start + count → s.arena.byte i = 0) :
    s.bytes (.stack start) count = .ok (List.replicate count 0) := by
  have hoffset : (Address.stack start).offset = start := Address.offset_stack (by omega)
  have hrange : s.inRange (.stack start) count = true :=
    inRange_iff.mpr ⟨Address.space_stack start, by rwa [hoffset]⟩
  unfold bytes
  rw [if_pos hrange, hoffset, Arena.read_eq_zero hzero]

/-- **What is handed out is zero.** -/
theorem bytes_carve {count : Nat} {c : Carving} {ledger : List Entry} (inv : s.Inv ledger)
    (clean : s.Clean) (hplan : s.planCarving count = .ok c)
    (hsize : (s.carve c).arena.size < Address.stackStart.toNat) :
    (s.carve c).bytes (.stack c.start) count = .ok (List.replicate count 0) := by
  obtain ⟨rest, hframes, hstart, hstop⟩ := planCarving_eq_ok hplan
  have inv' := inv.step (.allocate hplan)
  have hcarved : (s.carve c).frames = c.after :: rest := by
    rw [frames_carve, hframes, List.tail_cons]
  obtain ⟨e, below, -, hfits, -, htop⟩ := inv'.uncons hcarved
  have hcursor := hfits.cursor_le
  rw [c.cursor_after] at hcursor
  apply bytes_of_zero hsize inv'.inside
  · omega
  · intro i hi hend
    by_cases hreserved : i < c.frame.stop
    · rw [byte_carve hreserved]
      exact clean c.frame (hframes ▸ .head _) i (by omega) hreserved
    · have houtgrows : c.outgrows = true := by simp only [Carving.outgrows, decide_eq_true_eq]; omega
      rw [carve, if_pos houtgrows]
      show ((s.arena.resize c.arenaSize).clear c.frame.stop c.stop).byte i = 0
      rw [Arena.byte_clear, if_pos (by omega)]

/-- **What is handed out was given to nobody.** -/
theorem apart_carve {count : Nat} {c : Carving} {ledger : List Entry} (inv : s.Inv ledger)
    (hplan : s.planCarving count = .ok c)
    (hsize : (s.carve c).arena.size < Address.stackStart.toNat) :
    ∀ b ∈ given s.frames ledger, b.Apart ⟨.stack c.start, count⟩ := by
  obtain ⟨rest, hframes, hstart, -⟩ := planCarving_eq_ok hplan
  obtain ⟨e, below, -, hfits, -, htop⟩ := inv.uncons hframes
  have hinside := htop ▸ inv.inside
  obtain ⟨-, hgrows, -⟩ := size_carve hplan hinside inv.limited
  have hcursor := hfits.cursor_le
  intro b hb i hold hnew
  obtain ⟨start, haddress, -, hend⟩ := inv.within hframes b hb
  have hoffset : b.address.offset = start := by
    rw [haddress]
    exact Address.offset_stack (by omega)
  have hoffset' : (Address.stack c.start).offset = c.start := Address.offset_stack (by omega)
  unfold Block.Has at hold hnew
  dsimp only at hnew
  omega

theorem names_tiled {start stop : Nat} {bindings : List Binding} {slots : List (TypeId × Nat)}
    (h : Tiled start bindings slots stop) : bindings.map (·.type) = slots.map (·.1) := by
  induction h with
  | nil => rfl
  | cons _ ih => rw [List.map_cons, List.map_cons, ih]

/-- The ledger's entry tells the slots of the frame, each with its type. -/
def Entry.Names (f : Frame) (e : Entry) : Prop :=
  f.locals.map (·.type) = e.layout.locals.map (·.1) ∧
    f.arguments.map (·.type) = e.layout.arguments.map (·.1)

theorem Fits.names {f : Frame} {e : Entry} (h : Fits f e) : e.Names f := by
  obtain ⟨middle, hlocals, harguments⟩ := h.slots
  exact ⟨names_tiled hlocals, names_tiled harguments⟩

/-- **The slots of a new frame are zero.** -/
theorem bytes_enter {layout : FrameLayout} {size : Nat} {ledger : List Entry} (inv : s.Inv ledger)
    (hreserve : s.reserve (layout.frameAt s.top).stop = .ok size)
    (hsize : (s.enter layout size).arena.size < Address.stackStart.toNat) :
    ∀ b ∈ Entry.slots (layout.frameAt s.top) { layout },
      (s.enter layout size).bytes b.address b.size = .ok (List.replicate b.size 0) := by
  have inv' := inv.step (.pushFrame hreserve)
  have hfits := fits_frameAt layout s.top
  intro b hb
  obtain ⟨start, haddress, hstart, hend⟩ := hfits.within b (List.mem_append_left _ hb)
  have hcursor := hfits.cursor_le
  have htop : (s.enter layout size).top = (layout.frameAt s.top).stop := rfl
  have hbase : (layout.frameAt s.top).base = s.top := rfl
  rw [haddress]
  apply bytes_of_zero hsize inv'.inside
  · omega
  · intro i hi hlast
    exact byte_enter (by omega) (by omega)

/-- **Scratch is fresh and zeroed.** On a machine whose stack was reached by calls that write only
where something was given, scratch that is handed out reads as zeros and shares no byte with a slot
or with other scratch that is in use, and the slots of a new frame read as zeros. The arena is a run
of bytes in memory, so it is never as long as half the words there are. -/
theorem scratch_fresh {initialSize : Nat} {limit : UInt64} {ledger : List Entry} {m : Machine}
    (hr : Reached (fun s c => c.Tidy s) initialSize limit m.stack ledger) :
    List.Forall₂ (fun f e => e.Names f) m.stack.frames ledger ∧
      (∀ count a m', Exec.carve count m = .ok a m' →
        m'.stack.arena.size < Address.stackStart.toNat →
          m'.stack.bytes a count = .ok (List.replicate count 0) ∧
            ∀ b ∈ given m.stack.frames ledger, b.Apart ⟨a, count⟩) ∧
      ∀ layout m', Exec.pushFrame layout m = .ok ⟨⟩ m' →
        m'.stack.arena.size < Address.stackStart.toNat →
          ∃ f, m'.stack.frames = f :: m.stack.frames ∧ Entry.Names f { layout } ∧
            ∀ b ∈ Entry.slots f { layout },
              m'.stack.bytes b.address b.size = .ok (List.replicate b.size 0) := by
  obtain ⟨inv, -⟩ := hr.inv
  refine ⟨inv.stacked.fits.imp fun f e hfits => hfits.names, ?_, ?_⟩
  · intro count a m' hcarve hsize
    obtain ⟨c, hplan, rfl, hstack⟩ := Exec.planCarving_of_carve hcarve
    rw [hstack] at hsize ⊢
    exact ⟨bytes_carve inv hr.clean hplan hsize, apart_carve inv hplan hsize⟩
  · intro layout m' hpush hsize
    obtain ⟨size, hreserve, hstack⟩ := Exec.reserve_of_pushFrame hpush
    rw [hstack] at hsize ⊢
    exact ⟨_, rfl, (fits_frameAt layout _).names, bytes_enter inv hreserve hsize⟩

/-- A frame with scratch in use, in which scratch was written to before and taken back. The next block
is larger than what is left of the frame. -/
theorem scratch_fresh_reused :
    ∃ (m : Machine) (ledger : List Entry) (m' : Machine),
      Reached (fun s c => c.Tidy s) 16 64 m.stack ledger ∧
        given m.stack.frames ledger = [⟨.stack 0, 4⟩, ⟨.stack 4, 8⟩, ⟨.stack 12, 4⟩] ∧
        Exec.carve 16 m = .ok (.stack 16) m' ∧
        m'.stack.bytes (.stack 16) 16 = .ok (List.replicate 16 0) ∧
        ∀ b ∈ given m.stack.frames ledger, b.Apart ⟨.stack 16, 16⟩ := by
  have hframe : Reached (fun s c => c.Tidy s) 16 64 _ _ :=
    .called (.pushFrame { twoSlots with totalSize := 24 }) .created trivial
  have hcarved := hframe.called (.allocate 12) trivial
  have hwritten := hcarved.called (.write (.stack 14) [1, 2, 3, 4]) fun _ i _ hi =>
    ⟨_, .head _, Nat.zero_le i, Nat.lt_of_lt_of_le hi (by decide)⟩
  have hreset := hwritten.called .resetScratch trivial
  have hr := hreset.called (.allocate 4) trivial
  have hfresh := (scratch_fresh (m := { (default : Machine) with stack := _ }) hr).2.1 16 (.stack 16)
  exact ⟨_, _, _, hr, by decide, rfl, hfresh _ rfl (by decide)⟩

/-- Without overflow checks a request for nearly all the words there are takes the scratch back, and
the next block is part of a slot. -/
theorem overdrawn_not_fresh :
    ∃ (m : Machine) (ledger : List Entry) (m' : Machine),
      @Reached .unchecked (fun s c => c.Tidy s) 16 64 m.stack ledger ∧
        given m.stack.frames ledger = [⟨.stack 0, 4⟩, ⟨.stack 4, 8⟩, ⟨.stack 12, UInt64.size - 4⟩] ∧
        @Exec.carve .unchecked 1 m = .ok (.stack 8) m' ∧
        ¬ Block.Apart ⟨.stack 4, 8⟩ ⟨.stack 8, 1⟩ := by
  have hcreated : @Reached .unchecked (fun s c => c.Tidy s) 16 64 _ [] :=
    @Reached.created .unchecked _ _ _
  have hframe := @Reached.called .unchecked _ _ _ _ _ (.pushFrame { twoSlots with totalSize := 24 })
    hcreated trivial
  have hoverdrawn := @Reached.called .unchecked _ _ _ _ _ (.allocate (UInt64.size - 4)) hframe trivial
  refine ⟨{ (default : Machine) with stack := _ }, _, _, hoverdrawn, by decide,
    Exec.eq_ok_of_value? (by decide), fun hapart => ?_⟩
  exact hapart 8 ⟨by decide, by decide⟩ ⟨by decide, by decide⟩

end ManagedVm.FrameStack
