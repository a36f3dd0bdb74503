import Mathlib.Logic.Relation
import ManagedVm.Proofs.Heap.Regions
import ManagedVm.Proofs.Outcome

/-!
# The heap's invariant

What every heap satisfies that is made by `create` and changed by its operations alone. The regions
of the live objects and the holes tile the bytes from the alignment up to the top; the holes are
sorted, apart from each other and from the top; the table of objects, the tombstones and the
counters agree with each other.

`Inv` is the form that the operations preserve: it counts, for each byte, the regions that have it.
`WellFormed` is the form to be read, and follows from it.
-/

namespace ManagedVm

/-! ## Addresses of the heap -/

namespace Address

theorem toNat_stackStart : stackStart.toNat = 9223372036854775808 := rfl

theorem offset_heap {n : Nat} (h : n < stackStart.toNat) : (heap n).offset = n := by
  rw [toNat_stackStart] at h
  simp only [heap, offset, UInt64.toNat_mod, toNat_stackStart, Nat.toUInt64_eq,
    UInt64.toNat_ofNat']
  omega

theorem space_heap {n : Nat} (h : n < stackStart.toNat) : (heap n).space = .heap := by
  rw [toNat_stackStart] at h
  simp only [heap, space, UInt64.lt_iff_toNat_lt, toNat_stackStart, Nat.toUInt64_eq,
    UInt64.toNat_ofNat']
  rw [if_pos (by omega)]

/-- The word of a heap address is its offset. -/
theorem offset_eq_raw {a : Address} (h : a.space = .heap) : a.offset = a.raw.toNat := by
  have hlt : a.raw.toNat < 9223372036854775808 := by
    unfold space at h
    split at h
    · rename_i hlt
      exact UInt64.lt_iff_toNat_lt.mp hlt
    · cases h
  simp only [offset, UInt64.toNat_mod, toNat_stackStart]
  omega

/-- A heap address is the one at its offset. -/
theorem heap_offset {a : Address} (h : a.space = .heap) : heap a.offset = a := by
  rw [offset_eq_raw h]
  simp [heap]

@[simp] theorem add_zero (a : Address) : a.add 0 = a := by
  simp [add]

theorem add_add (a : Address) (x y : Nat) : (a.add x).add y = a.add (x + y) := by
  simp [add, UInt64.add_assoc]

/-- **An address further on** in the same arena, whichever it is. -/
theorem add_inside {a : Address} {k : Nat} (h : a.offset + k < stackStart.toNat) :
    (a.add k).space = a.space ∧ (a.add k).offset = a.offset + k := by
  have hraw : (a.add k).raw.toNat = (a.raw.toNat + k) % 18446744073709551616 := by
    simp [add, UInt64.toNat_add, Nat.toUInt64_eq]
  have hlt := a.raw.toNat_lt
  unfold offset space at *
  simp only [UInt64.toNat_mod, UInt64.lt_iff_toNat_lt, hraw, toNat_stackStart] at h ⊢
  constructor
  · congr 1
    apply propext
    omega
  · omega

/-- Null is offset zero of the heap. -/
theorem isNull_eq_false {a : Address} (h : a.space = .stack ∨ 0 < a.offset) : a.isNull = false := by
  apply Bool.eq_false_iff.mpr
  intro hnull
  have hraw : a.raw = 0 := by simpa [isNull] using hnull
  unfold space offset at h
  rw [hraw] at h
  revert h
  decide

theorem add?_eq_some {a b : Address} {k : Nat} :
    a.add? k = some b ↔ a.offset + k < stackStart.toNat ∧ a.add k = b := by
  simp [add?]

end Address

namespace Heap

theorem inRange_iff {h : Heap} {a : Address} {length : Nat} : h.inRange a length = true ↔
    a.space = .heap ∧ alignment ≤ a.offset ∧ a.offset + length ≤ h.top ∧
      a.offset + length ≤ h.arena.size := by
  simp [inRange, and_assoc]

theorem rangeError_eq (h : Heap) (a : Address) (length : Nat) : h.rangeError a length =
    if a.space ≠ .heap ∨ a.offset < alignment ∨
        (a.offset + length < UInt64.size ∧ h.top < a.offset + length) then
      .invalidRange a length
    else
      .panic := by
  simp [rangeError]

/-! ## Histories -/

/-- What a user of the heap asks of it. -/
inductive Call
  | allocate (size : Nat) (type : TypeId) (kind : ObjectKind)
  | free (address : Address)
  | write (address : Address) (data : List UInt8)
  /-- Bytes lent to be changed in place, each by its position and its value. -/
  | change (address : Address) (length : Nat) (new : Nat → UInt8 → UInt8)

/-- The heap after a call that succeeds. -/
def Call.run [Build] (h : Heap) : Call → Except Error Heap
  | allocate size type kind => (h.allocate size type kind).map (·.2)
  | free address => (h.free address).map (·.2)
  | write address data => h.write address data
  | change address length new =>
    (h.bytes address length).map fun bytes => h.poke address (bytes.mapIdx new)

/-- The heap after a call. One that fails changes nothing. -/
def after [Build] (h : Heap) (c : Call) : Heap :=
  match c.run h with
  | .ok h' => h'
  | .error _ => h

/-- **The heaps that settings lead to**: one newly made, or one after a call on such a heap. The
arena is a run of bytes in memory, so it is never as long as half the words there are. -/
inductive Reached [Build] (settings : Settings) : Heap → Prop
  | created {h : Heap} : create settings = .ok h → Reached settings h
  | called {h : Heap} (c : Call) : Reached settings h →
      (h.after c).arena.size < Address.stackStart.toNat → Reached settings (h.after c)

/-! ## The invariant -/

/-- The regions of the live objects, and the holes. -/
def regions (h : Heap) : List Hole := h.objects.map Object.region ++ h.holes

/-- **The invariant** in the form that the operations preserve. -/
structure Inv (h : Heap) : Prop where
  tiled : Tiles h.regions h.top
  aligned : ∀ r ∈ h.regions, r.Aligned
  top_ge : alignment ≤ h.top
  top_dvd : alignment ∣ h.top
  sorted : Sorted h.objects
  spaced : Spaced h.holes
  below : ∀ r ∈ h.holes, r.stop ≠ h.top
  /-- A heap on which nothing was ever allocated may have a shorter arena. -/
  inside : h.top ≤ max alignment h.arena.size
  limited : h.arena.size ≤ h.settings.maxSize.toNat
  /-- Every offset below the top makes an address. -/
  short : h.top ≤ Address.stackStart.toNat
  keyed : ∀ o ∈ h.objects, o.address = .heap o.start
  buried : ∀ o ∈ h.objects, o.start ∉ h.tombstones
  graves : h.tombstones.Pairwise (· < ·)
  counted : h.allocations = h.frees + h.objects.length

/-- A region lies between the alignment and the top. -/
theorem Inv.bounds {h : Heap} (inv : h.Inv) {r : Hole} (hr : r ∈ h.regions) :
    alignment ≤ r.start ∧ r.stop ≤ h.top :=
  inv.tiled.bounds hr (inv.aligned r hr).size_pos

/-- Once something was allocated the arena reaches up to the top. -/
theorem Inv.top_le_arena {h : Heap} (inv : h.Inv) {r : Hole} (hr : r ∈ h.regions) : h.top ≤ h.arena.size := by
  obtain ⟨hge, hstop⟩ := inv.bounds hr
  have hpos := (inv.aligned r hr).size_pos
  have hinside := inv.inside
  unfold Hole.stop at hstop
  omega

/-- **Bytes that are not in range** are refused. Only if their end is no word, or if there are none of
them, the program may stop. -/
theorem Inv.rangeError_cases {h : Heap} (inv : h.Inv) {a : Address} {length : Nat}
    (hrange : ¬ h.inRange a length = true) : h.rangeError a length = .invalidRange a length ∨
      h.rangeError a length = .panic ∧ (UInt64.size ≤ a.offset + length ∨ length = 0) := by
  have hinside := inv.inside
  rw [inRange_iff] at hrange
  rw [rangeError_eq]
  by_cases hrefused : a.space ≠ .heap ∨ a.offset < alignment ∨
      (a.offset + length < UInt64.size ∧ h.top < a.offset + length)
  · exact .inl (if_pos hrefused)
  · refine .inr ⟨if_neg hrefused, ?_⟩
    simp only [not_or, not_and, ne_eq, not_not, Nat.not_lt] at hrefused hrange
    obtain ⟨hspace, hge, hstop⟩ := hrefused
    by_contra hword
    rw [not_or] at hword
    have htop := hstop (Nat.lt_of_not_le hword.1)
    have hshort := hrange hspace hge htop
    omega

theorem region_mem {h : Heap} {o : Object} (ho : o ∈ h.objects) : o.region ∈ h.regions :=
  List.mem_append_left _ (List.mem_map_of_mem ho)

theorem hole_mem {h : Heap} {r : Hole} (hr : r ∈ h.holes) : r ∈ h.regions :=
  List.mem_append_right _ hr

/-! ## Creation -/

theorem create_eq_ok {settings : Settings} {h : Heap} (e : create settings = .ok h) :
    settings.initialSize ≤ settings.maxSize.toNat ∧
      h = { settings, arena := .zeroed settings.initialSize } := by
  unfold create at e
  split at e
  · cases e
  · rename_i hfault
    refine ⟨?_, (Except.ok.inj e).symm⟩
    unfold Settings.fault? at hfault
    split at hfault
    · cases hfault
    · split at hfault
      · cases hfault
      · omega

theorem Inv.create {settings : Settings} {h : Heap} (e : create settings = .ok h) : h.Inv := by
  obtain ⟨hsize, rfl⟩ := create_eq_ok e
  have hnone : ∀ r, r ∉ regions { settings, arena := .zeroed settings.initialSize } := by
    simp [regions]
  exact
    { tiled := fun x => by
        rw [if_neg (by simp)]
        rfl
      aligned := fun r hr => absurd hr (hnone r)
      top_ge := Nat.le_refl _
      top_dvd := Nat.dvd_refl _
      sorted := List.Pairwise.nil
      spaced := List.Pairwise.nil
      below := fun r hr => nomatch hr
      inside := Nat.le_max_left _ _
      limited := hsize
      short := show alignment ≤ Address.stackStart.toNat by decide
      keyed := fun o ho => nomatch ho
      buried := fun o ho => nomatch ho
      graves := List.Pairwise.nil
      counted := rfl }

/-! ## Allocation -/

theorem grownSize_bounds {h : Heap} {stop : Nat} (hlimit : h.arena.size ≤ h.settings.maxSize.toNat)
    (hstop : stop ≤ h.settings.maxSize.toNat) :
    stop ≤ h.grownSize stop ∧ h.grownSize stop ≤ h.settings.maxSize.toNat := by
  dsimp only [grownSize]
  split <;> omega

section

variable {h : Heap} {size : Nat}

theorem plan_of_overflow (hpadded : UInt64.size ≤ padded size) : h.plan size = .error .panic := by
  simp [plan, hpadded]

theorem plan_of_hole (hpadded : padded size < UInt64.size) {start : Nat} {holes : List Hole}
    (htake : takeHole? (reserved size) h.holes = some (start, holes)) :
    h.plan size = .ok { start, holes, top := h.top, arenaSize := h.arena.size } := by
  simp [plan, Nat.not_le_of_lt hpadded, htake]

theorem plan_of_room (hpadded : padded size < UInt64.size)
    (htake : takeHole? (reserved size) h.holes = none)
    (hroom : h.top + reserved size ≤ h.settings.maxSize.toNat) :
    h.plan size = .ok {
      start := h.top
      holes := h.holes
      top := h.top + reserved size
      arenaSize := h.grownSize (h.top + reserved size) } := by
  have hstop := Nat.lt_of_le_of_lt hroom h.settings.maxSize.toNat_lt_size
  simp [plan, Nat.not_le_of_lt hpadded, htake, Nat.not_le_of_lt hstop, Nat.not_lt_of_le hroom]

/-- The limit is exceeded; the program stops if the end of the region is not even a word. -/
theorem plan_of_full (hpadded : padded size < UInt64.size)
    (htake : takeHole? (reserved size) h.holes = none)
    (hfull : h.settings.maxSize.toNat < h.top + reserved size) :
    h.plan size = .error (if UInt64.size ≤ h.top + reserved size then .panic
      else .outOfMemory size h.settings.maxSize.toNat) := by
  simp only [plan, Size.overflows_checked, Size.word_checked, Nat.not_le_of_lt hpadded, htake, hfull,
    decide_false, Bool.false_eq_true, if_false, decide_eq_true_eq, if_true]
  split <;> rfl

/-- **What a plan can be**: the front of a hole, or the bytes behind the top. -/
theorem plan_cases [Build] {p : Plan} (e : h.plan size = .ok p) :
    (∃ start holes, takeHole? (reserved size) h.holes = some (start, holes) ∧
        p = { start, holes, top := h.top, arenaSize := h.arena.size }) ∨
      ∃ stop, stop = Size.word (h.top + reserved size) ∧ stop ≤ h.settings.maxSize.toNat ∧
        p = { start := h.top, holes := h.holes, top := stop, arenaSize := h.grownSize stop } := by
  dsimp only [plan] at e
  split at e
  · cases e
  · split at e
    · rename_i start holes htake
      exact .inl ⟨start, holes, htake, (Except.ok.inj e).symm⟩
    · split at e
      · cases e
      · split at e
        · cases e
        · rename_i hroom
          split at e
          · cases e
          · exact .inr ⟨_, rfl, Nat.le_of_not_lt hroom, (Except.ok.inj e).symm⟩

/-- **What a plan is** with overflow checks. -/
theorem plan_eq_ok {p : Plan} (e : h.plan size = .ok p) : padded size < UInt64.size ∧
    ((∃ start holes, takeHole? (reserved size) h.holes = some (start, holes) ∧
        p = { start, holes, top := h.top, arenaSize := h.arena.size }) ∨
      (takeHole? (reserved size) h.holes = none ∧ h.top + reserved size ≤ h.settings.maxSize.toNat ∧
        p = {
          start := h.top
          holes := h.holes
          top := h.top + reserved size
          arenaSize := h.grownSize (h.top + reserved size) })) := by
  rcases Nat.lt_or_ge (padded size) UInt64.size with hpadded | hpadded
  · refine ⟨hpadded, ?_⟩
    cases htake : takeHole? (reserved size) h.holes with
    | some found =>
      rw [plan_of_hole hpadded htake] at e
      exact .inl ⟨found.1, found.2, rfl, (Except.ok.inj e).symm⟩
    | none =>
      rcases Nat.lt_or_ge h.settings.maxSize.toNat (h.top + reserved size) with hfull | hroom
      · rw [plan_of_full hpadded htake hfull] at e
        cases e
      · rw [plan_of_room hpadded htake hroom] at e
        exact .inr ⟨rfl, hroom, (Except.ok.inj e).symm⟩
  · rw [plan_of_overflow hpadded] at e
    cases e

end

/-- **A place for a new object**: what a plan promises of the region it found and of what it leaves.
-/
structure Plan.Sound (p : Plan) (h : Heap) (size : Nat) : Prop where
  cover : ∀ x, cover (⟨p.start, reserved size⟩ :: p.holes) x =
    cover h.holes x + if h.top ≤ x ∧ x < p.top then 1 else 0
  aligned : (⟨p.start, reserved size⟩ : Hole).Aligned
  holes_aligned : ∀ r ∈ p.holes, r.Aligned
  spaced : Spaced p.holes
  below : ∀ r ∈ p.holes, r.stop ≠ p.top
  top_ge : h.top ≤ p.top
  top_dvd : alignment ∣ p.top
  inside : p.top ≤ max alignment p.arenaSize
  limited : p.arenaSize ≤ h.settings.maxSize.toNat

theorem Inv.plan_sound {h : Heap} (inv : h.Inv) {size : Nat} {p : Plan}
    (e : h.plan size = .ok p) : p.Sound h size := by
  obtain ⟨hpos, hdvd⟩ := reserved_aligned size
  have hholes : ∀ r ∈ h.holes, r.Aligned := fun r hr => inv.aligned r (hole_mem hr)
  obtain ⟨-, ⟨start, rest, htake, rfl⟩ | ⟨-, hlimit, rfl⟩⟩ := plan_eq_ok e
  · -- Bytes of a hole: the top stays.
    obtain ⟨hrest, hnew⟩ := aligned_takeHole? htake hholes
    exact
      { cover := fun x => by
          rw [cover_takeHole? htake, if_neg (by simp)]
          rfl
        aligned := hnew
        holes_aligned := hrest
        spaced := spaced_takeHole? htake inv.spaced
        below := fun r hr => by
          obtain ⟨s, hs, hstop, -⟩ := mem_takeHole? htake hr
          exact hstop ▸ inv.below s hs
        top_ge := Nat.le_refl _
        top_dvd := inv.top_dvd
        inside := inv.inside
        limited := inv.limited }
  · -- Bytes behind the top: the holes stay.
    obtain ⟨hgrown, hcap⟩ := grownSize_bounds inv.limited hlimit
    have htop := inv.top_ge
    exact
      { cover := fun x => by rw [cover_cons]; rfl
        aligned :=
          ⟨Nat.lt_of_lt_of_le (by decide) htop, inv.top_dvd, hpos, hdvd⟩
        holes_aligned := hholes
        spaced := inv.spaced
        below := fun r hr => by
          have := (inv.bounds (hole_mem hr)).2
          dsimp only
          omega
        top_ge := Nat.le_add_right _ _
        top_dvd := Nat.dvd_add inv.top_dvd hdvd
        inside := Nat.le_trans hgrown (Nat.le_max_right _ _)
        limited := hcap }

/-- The new region and the old ones tile the bytes up to the new top. -/
theorem Plan.Sound.tiles {h : Heap} {p : Plan} {size : Nat} (hp : p.Sound h size) (inv : h.Inv) :
    Tiles (⟨p.start, reserved size⟩ :: (h.objects.map Object.region ++ p.holes)) p.top := by
  intro x
  have hnew := hp.cover x
  have hold := inv.tiled x
  have htop := hp.top_ge
  have hge := inv.top_ge
  rw [regions, cover_append] at hold
  rw [cover_cons] at hnew
  rw [cover_cons, cover_append]
  grind

theorem Inv.occupy {h : Heap} (inv : h.Inv) {size : Nat} {p : Plan} (hp : p.Sound h size)
    (type : TypeId) (kind : ObjectKind) (hfits : p.arenaSize < Address.stackStart.toNat) :
    (h.occupy p size type kind).Inv := by
  have htiles := hp.tiles inv
  have hregion : (⟨p.start, reserved size⟩ : Hole).Aligned := hp.aligned
  have haligned : ∀ r ∈ (⟨p.start, reserved size⟩ : Hole) :: (h.objects.map Object.region ++ p.holes),
      r.Aligned := by
    intro r hr
    rcases List.mem_cons.mp hr with rfl | hr
    · exact hregion
    · rcases List.mem_append.mp hr with hr | hr
      · exact inv.aligned r (List.mem_append_left _ hr)
      · exact hp.holes_aligned r hr
  have hapart := htiles.pairwise_apart fun r hr => (haligned r hr).size_pos
  have hshort : p.top ≤ Address.stackStart.toNat := by
    have := hp.inside
    have halign : alignment ≤ Address.stackStart.toNat := by decide
    omega
  -- The new region lies below the top, so its start is the offset of its address.
  have hlt : p.start < p.top := by
    have hstop := (htiles.bounds (.head _) hregion.size_pos).2
    exact Nat.lt_of_lt_of_le (Nat.lt_add_of_pos_right hregion.size_pos) hstop
  have hstart : (Address.heap p.start).offset = p.start :=
    Address.offset_heap (Nat.lt_of_lt_of_le hlt hshort)
  have hfresh : ∀ o ∈ h.objects, p.start ≠ o.start := fun o ho heq => by
    have hr : o.region ∈ h.objects.map Object.region ++ p.holes :=
      List.mem_append_left _ (List.mem_map_of_mem ho)
    have hside := (List.pairwise_cons.mp hapart).1 o.region hr
    have hpos := (haligned o.region (.tail _ hr)).size_pos
    have hpos' := hregion.size_pos
    simp only [Hole.Apart, Hole.stop, Object.region] at hside hpos hpos'
    omega
  have hperm := insertObject_perm { address := .heap p.start, type, size, kind } h.objects
  have hregions : (h.occupy p size type kind).regions.Perm
      (⟨p.start, reserved size⟩ :: (h.objects.map Object.region ++ p.holes)) := by
    have hmap := (hperm.map Object.region).append_right p.holes
    simp only [List.map_cons, Object.region, Object.start, hstart] at hmap
    exact hmap
  exact
    { tiled := htiles.perm hregions
      aligned := fun r hr => haligned r (hregions.mem_iff.mp hr)
      top_ge := Nat.le_trans inv.top_ge hp.top_ge
      top_dvd := hp.top_dvd
      sorted := sorted_insertObject inv.sorted fun o ho heq => hfresh o ho (hstart.symm.trans heq)
      spaced := hp.spaced
      below := hp.below
      inside := hp.inside
      limited := hp.limited
      short := hshort
      keyed := fun o ho => by
        rcases List.mem_cons.mp (hperm.mem_iff.mp ho) with rfl | ho
        · exact congrArg Address.heap hstart.symm
        · exact inv.keyed o ho
      buried := fun o ho hmem => by
        obtain ⟨hmem, hne⟩ := List.mem_filter.mp hmem
        rcases List.mem_cons.mp (hperm.mem_iff.mp ho) with rfl | ho
        · exact of_decide_eq_true hne hstart
        · exact inv.buried o ho hmem
      graves := List.Pairwise.filter _ inv.graves
      counted := by
        have hlength := hperm.length_eq
        have := inv.counted
        simp only [Heap.occupy, keptBeside_checked, List.length_cons] at *
        omega }

/-! ## Freeing -/

/-- The holes once an object's region is one of them. -/
theorem Inv.tiles_insertHole {h : Heap} (inv : h.Inv) {o : Object} (ho : o ∈ h.objects) :
    Tiles ((h.objects.filter (·.start ≠ o.start)).map Object.region ++
      insertHole o.region h.holes) h.top := by
  intro x
  have hold := inv.tiled x
  have hperm := (inv.sorted.perm_cons_filter ho).map Object.region
  rw [regions, cover_append, cover_perm hperm, List.map_cons, cover_cons] at hold
  rw [cover_append, cover_insertHole, cover_cons]
  omega

theorem Inv.spaced_insertHole {h : Heap} (inv : h.Inv) {o : Object} (ho : o ∈ h.objects) :
    Spaced (insertHole o.region h.holes) := by
  have hregion := inv.aligned _ (region_mem ho)
  have hapart := inv.tiled.pairwise_apart fun r hr => (inv.aligned r hr).size_pos
  refine Heap.spaced_insertHole inv.spaced hregion.size_pos
    (fun r hr => (inv.aligned r (hole_mem hr)).size_pos) fun r hr => ?_
  exact (List.pairwise_append.mp hapart).2.2 _ (List.mem_map_of_mem ho) r hr

/-- **Giving back keeps the tiling**, and afterwards no hole ends at the top. -/
theorem giveBack_spec {objects : List Object} {holes : List Hole} {top : Nat}
    (htiles : Tiles (objects.map Object.region ++ holes) top) (hspaced : Spaced holes)
    (haligned : ∀ r ∈ holes, r.Aligned) (htop : alignment ≤ top) (hdvd : alignment ∣ top) :
    Tiles (objects.map Object.region ++ (giveBack top holes).2) (giveBack top holes).1 ∧
      Spaced (giveBack top holes).2 ∧ (∀ r ∈ (giveBack top holes).2, r.Aligned) ∧
      (∀ r ∈ (giveBack top holes).2, r.stop ≠ (giveBack top holes).1) ∧
      alignment ≤ (giveBack top holes).1 ∧ alignment ∣ (giveBack top holes).1 := by
  rcases giveBack_cases top holes with ⟨heq, hlast⟩ | ⟨front, last, rfl, hstop, heq⟩
  · rw [heq]
    refine ⟨htiles, hspaced, haligned, fun r (hr : r ∈ holes) hend => ?_, htop, hdvd⟩
    -- A hole that ends at the top is the last one: the others stop before the last one starts.
    obtain ⟨last, hgetLast⟩ : ∃ last, holes.getLast? = some last :=
      ⟨_, List.getLast?_eq_some_getLast (List.ne_nil_of_mem hr)⟩
    have hsplit := List.dropLast_append_getLast? last hgetLast
    have hmem : last ∈ holes := List.mem_of_getLast? hgetLast
    have hpos := (haligned last hmem).size_pos
    have hbound := (htiles.bounds (List.mem_append_right _ hmem) hpos).2
    rw [← hsplit] at hr hspaced
    rcases List.mem_append.mp hr with hr | hr
    · have hgap := (List.pairwise_append.mp hspaced).2.2 r hr last (.head _)
      unfold Hole.stop at *
      omega
    · exact hlast last hgetLast (List.mem_singleton.mp hr ▸ hend)
  · rw [heq]
    have hmem : last ∈ front ++ [last] := List.mem_append_right _ (.head _)
    have hpart := haligned last hmem
    have hbound := htiles.bounds (List.mem_append_right _ hmem) hpart.size_pos
    obtain ⟨hfront, -, hgap⟩ := List.pairwise_append.mp hspaced
    refine ⟨fun x => ?_, hfront, fun r hr => haligned r (List.mem_append_left _ hr),
      fun r hr => Nat.ne_of_lt (hgap r hr last (.head _)), hbound.1, hpart.start_dvd⟩
    have hx := htiles x
    have hone : cover (objects.map Object.region ++ (front ++ [last])) x =
        cover (objects.map Object.region ++ front) x +
          if last.start ≤ x ∧ x < last.stop then 1 else 0 := by
      simp only [cover_append, cover_cons, cover_nil]
      omega
    have hpos : last.start < last.stop := Nat.lt_add_of_pos_right hpart.size_pos
    have hge := hbound.1
    rw [hone, ← hstop] at hx
    dsimp only
    grind

theorem Inv.vacate {h : Heap} (inv : h.Inv) {o : Object} (ho : o ∈ h.objects) :
    (h.vacate o).Inv := by
  have hholes : ∀ r ∈ insertHole o.region h.holes, r.Aligned :=
    aligned_insertHole (inv.aligned _ (region_mem ho)) fun r hr => inv.aligned r (hole_mem hr)
  obtain ⟨htiles, hspaced, haligned, hbelow, hge, hdvd⟩ :=
    giveBack_spec (inv.tiles_insertHole ho) (inv.spaced_insertHole ho) hholes inv.top_ge inv.top_dvd
  have hle := giveBack_le h.top (insertHole o.region h.holes)
  have hperm := inv.sorted.perm_cons_filter ho
  exact
    { tiled := htiles
      aligned := fun r hr => by
        rcases List.mem_append.mp hr with hr | hr
        · obtain ⟨p, hp, rfl⟩ := List.mem_map.mp hr
          exact inv.aligned _ (region_mem (List.mem_filter.mp hp).1)
        · exact haligned r hr
      top_ge := hge
      top_dvd := hdvd
      sorted := inv.sorted.filter _
      spaced := hspaced
      below := hbelow
      inside := Nat.le_trans hle inv.inside
      limited := inv.limited
      short := Nat.le_trans hle inv.short
      keyed := fun p hp => inv.keyed p (List.mem_filter.mp hp).1
      buried := fun p hp hmem => by
        obtain ⟨hp, hne⟩ := List.mem_filter.mp hp
        rcases mem_insertTombstone.mp hmem with heq | hmem
        · exact of_decide_eq_true hne heq
        · exact inv.buried p hp hmem
      graves := pairwise_insertTombstone inv.graves
      counted := by
        have hlength := hperm.length_eq
        have := inv.counted
        simp only [Heap.vacate, List.length_cons] at *
        omega }

/-! ## Every call -/

theorem objectAt?_eq_some {h : Heap} {n : Nat} {o : Object} (e : h.objectAt? n = some o) :
    o ∈ h.objects ∧ o.start = n := by
  unfold objectAt? at e
  exact ⟨List.mem_of_find?_eq_some e, by simpa using List.find?_some e⟩

theorem objectAt?_of_get {h : Heap} {a : Address} {o : Object} (e : h.get a = .ok o) :
    isForeign a = false ∧ h.objectAt? a.offset = some o := by
  unfold get at e
  split at e
  · cases e
  · rename_i hforeign
    split at e
    · rename_i p hp
      cases e
      exact ⟨Bool.eq_false_iff.mpr hforeign, hp⟩
    · split at e <;> cases e

/-- The object that a heap address names: it is live and starts there. -/
theorem get_eq_ok {h : Heap} {a : Address} {o : Object} (e : h.get a = .ok o) :
    o ∈ h.objects ∧ o.start = a.offset ∧ isForeign a = false := by
  obtain ⟨hforeign, hobject⟩ := objectAt?_of_get e
  obtain ⟨hmem, hstart⟩ := objectAt?_eq_some hobject
  exact ⟨hmem, hstart, hforeign⟩

/-- Of an object that an address names, its own address names no other. -/
theorem eq_of_get {h : Heap} {a : Address} {o o' : Object} (e : h.get a = .ok o)
    (e' : h.get o.address = .ok o') : o' = o := by
  have hobject := (objectAt?_of_get e).2
  have hobject' : h.objectAt? o.start = some o' := (objectAt?_of_get e').2
  rw [(get_eq_ok e).2.1] at hobject'
  exact Option.some.inj (hobject'.symm.trans hobject)

section

variable [Build]

theorem allocate_eq_map (h : Heap) (size : Nat) (type : TypeId) (kind : ObjectKind) :
    h.allocate size type kind =
      (h.plan size).map fun p => (.heap p.start, h.occupy p size type kind) := by
  unfold allocate
  cases h.plan size <;> rfl

theorem free_eq_map (h : Heap) (a : Address) :
    h.free a = (h.get a).map fun o => (o, h.vacate o) := by
  unfold free
  cases h.get a <;> rfl

theorem allocate_eq_ok {h h' : Heap} {size : Nat} {type : TypeId} {kind : ObjectKind} {a : Address}
    (e : h.allocate size type kind = .ok (a, h')) :
    ∃ p, h.plan size = .ok p ∧ a = .heap p.start ∧ h' = h.occupy p size type kind := by
  rw [allocate_eq_map] at e
  obtain ⟨p, hplan, heq⟩ := except_map_ok.mp e
  cases heq
  exact ⟨p, hplan, rfl, rfl⟩

theorem free_eq_ok {h h' : Heap} {a : Address} {o : Object} (e : h.free a = .ok (o, h')) :
    h.get a = .ok o ∧ h' = h.vacate o := by
  rw [free_eq_map] at e
  obtain ⟨p, hget, heq⟩ := except_map_ok.mp e
  cases heq
  exact ⟨hget, rfl⟩

theorem Call.run_cases {h h' : Heap} {c : Call} (e : c.run h = .ok h') :
    (∃ size type kind p, h.plan size = .ok p ∧ h' = h.occupy p size type kind) ∨
      (∃ o ∈ h.objects, h' = h.vacate o) ∨ ∃ a data, h' = h.poke a data := by
  cases c with
  | allocate size type kind =>
    obtain ⟨⟨a, h₁⟩, halloc, rfl⟩ := except_map_ok.mp e
    obtain ⟨p, hplan, -, heq⟩ := allocate_eq_ok halloc
    exact .inl ⟨size, type, kind, p, hplan, heq⟩
  | free a =>
    obtain ⟨⟨o, h₁⟩, hfree, rfl⟩ := except_map_ok.mp e
    obtain ⟨hget, heq⟩ := free_eq_ok hfree
    exact .inr (.inl ⟨o, (get_eq_ok hget).1, heq⟩)
  | write a data =>
    dsimp only [Call.run, Heap.write] at e
    split at e
    · cases e
      exact .inr (.inr ⟨a, data, rfl⟩)
    · cases e
  | change a length new =>
    obtain ⟨bytes, -, rfl⟩ := except_map_ok.mp e
    exact .inr (.inr ⟨a, bytes.mapIdx new, rfl⟩)

/-- **What a call can do**: nothing, make an object, free one, or write bytes. -/
theorem after_cases (h : Heap) (c : Call) :
    h.after c = h ∨ (∃ size type kind p, h.plan size = .ok p ∧ h.after c = h.occupy p size type kind) ∨
      (∃ o ∈ h.objects, h.after c = h.vacate o) ∨ ∃ a data, h.after c = h.poke a data := by
  unfold after
  cases hrun : c.run h with
  | error err => exact .inl rfl
  | ok h' => exact .inr (Call.run_cases hrun)

theorem settings_after (h : Heap) (c : Call) : (h.after c).settings = h.settings := by
  rcases after_cases h c with heq | ⟨size, type, kind, p, -, heq⟩ | ⟨o, -, heq⟩ | ⟨a, data, heq⟩ <;>
    rw [heq] <;> rfl

end

/-- Writing bytes touches nothing that the invariant speaks of. -/
theorem Inv.poke {h : Heap} (inv : h.Inv) (a : Address) (data : List UInt8) :
    (h.poke a data).Inv :=
  { inv with }

/-- **One step**: a call keeps the invariant as long as the arena fits into memory. -/
theorem Inv.after {h : Heap} (inv : h.Inv) (c : Call)
    (hfits : (h.after c).arena.size < Address.stackStart.toNat) : (h.after c).Inv := by
  rcases after_cases h c with heq | ⟨size, type, kind, p, hplan, heq⟩ | ⟨o, ho, heq⟩ | ⟨a, data, heq⟩
  · rw [heq]
    exact inv
  · rw [heq] at hfits ⊢
    exact inv.occupy (inv.plan_sound hplan) type kind hfits
  · rw [heq]
    exact inv.vacate ho
  · rw [heq]
    exact inv.poke a data

/-- **Every run**: the invariant holds of every heap that settings lead to. -/
theorem Reached.inv {settings : Settings} {h : Heap} (hr : Reached settings h) : h.Inv := by
  induction hr with
  | created e => exact Inv.create e
  | called c _ hfits ih => exact ih.after c hfits

theorem Reached.settings_eq [Build] {settings : Settings} {h : Heap} (hr : Reached settings h) :
    h.settings = settings := by
  induction hr with
  | created e => exact (create_eq_ok e).2 ▸ rfl
  | called c _ _ ih => exact (settings_after _ c).trans ih

/-! ## Runs of calls -/

section

variable [Build]

theorem arena_le_plan {h : Heap} (hlimit : h.arena.size ≤ h.settings.maxSize.toNat) {size : Nat} {p : Plan}
    (e : h.plan size = .ok p) : h.arena.size ≤ p.arenaSize ∧ p.arenaSize ≤ h.settings.maxSize.toNat := by
  obtain ⟨start, rest, -, rfl⟩ | ⟨stop, -, hstop, rfl⟩ := plan_cases e
  · exact ⟨Nat.le_refl _, hlimit⟩
  · refine ⟨?_, (grownSize_bounds hlimit hstop).2⟩
    dsimp only [grownSize]
    split <;> omega

/-- The arena never shrinks, and no call takes it past the limit of its settings. -/
theorem arena_after {h : Heap} (hlimit : h.arena.size ≤ h.settings.maxSize.toNat) (c : Call) :
    h.arena.size ≤ (h.after c).arena.size ∧ (h.after c).arena.size ≤ h.settings.maxSize.toNat := by
  rcases after_cases h c with heq | ⟨size, type, kind, p, hplan, heq⟩ | ⟨o, -, heq⟩ |
    ⟨a, data, heq⟩ <;> rw [heq]
  · exact ⟨Nat.le_refl _, hlimit⟩
  · exact arena_le_plan hlimit hplan
  · exact ⟨Nat.le_refl _, hlimit⟩
  · exact ⟨Nat.le_refl _, hlimit⟩

theorem Reached.limited {settings : Settings} {h : Heap} (hr : Reached settings h) :
    h.arena.size ≤ settings.maxSize.toNat := by
  induction hr with
  | created e =>
    obtain ⟨hsize, rfl⟩ := create_eq_ok e
    exact hsize
  | called c hr _ ih =>
    rw [← hr.settings_eq] at ih ⊢
    exact (arena_after ih c).2

/-- The arena of a heap with a limit that fits into memory fits too, so nothing restricts its calls.
-/
theorem Reached.foldl_after {settings : Settings} {h : Heap} (hr : Reached settings h)
    (hmax : settings.maxSize.toNat < Address.stackStart.toNat) (calls : List Call) :
    Reached settings (calls.foldl Heap.after h) := by
  induction calls generalizing h with
  | nil => exact hr
  | cons c calls ih =>
    have hle := (arena_after (hr.settings_eq ▸ hr.limited) c).2
    rw [hr.settings_eq] at hle
    exact ih (hr.called c (Nat.lt_of_le_of_lt hle hmax))

end

/-- **Calls lead from one heap to another**, each of which was allowed where it was made. -/
def LeadsTo (May : Heap → Call → Prop) : Heap → Heap → Prop :=
  Relation.ReflTransGen fun h h' => ∃ c, May h c ∧ h' = h.after c

section LeadsTo

variable {May : Heap → Call → Prop} {h h' h'' : Heap}

theorem LeadsTo.refl (h : Heap) : LeadsTo May h h := Relation.ReflTransGen.refl

theorem LeadsTo.trans (hled : LeadsTo May h h') (hled' : LeadsTo May h' h'') : LeadsTo May h h'' :=
  Relation.ReflTransGen.trans hled hled'

theorem LeadsTo.mono {May' : Heap → Call → Prop} (hmay : ∀ h c, May h c → May' h c)
    (hled : LeadsTo May h h') : LeadsTo May' h h' := by
  induction hled with
  | refl => exact .refl h
  | tail _ hcall ih =>
    obtain ⟨c, hc, heq⟩ := hcall
    exact .tail ih ⟨c, hmay _ c hc, heq⟩

/-- A call that succeeds leads to what it leaves. -/
theorem leadsTo_of_run {c : Call} (hrun : c.run h = .ok h') (hmay : May h c) : LeadsTo May h h' := by
  apply Relation.ReflTransGen.single
  refine ⟨c, hmay, ?_⟩
  unfold after
  rw [hrun]

theorem leadsTo_occupy {size : Nat} {type : TypeId} {kind : ObjectKind} {p : Plan}
    (hplan : h.plan size = .ok p) (hmay : May h (.allocate size type kind)) :
    LeadsTo May h (h.occupy p size type kind) := by
  apply leadsTo_of_run _ hmay
  simp only [Call.run, allocate_eq_map, hplan, Except.map]

theorem leadsTo_vacate {a : Address} {o : Object} (hget : h.get a = .ok o) (hmay : May h (.free a)) :
    LeadsTo May h (h.vacate o) := by
  apply leadsTo_of_run _ hmay
  simp only [Call.run, free_eq_map, hget, Except.map]

theorem leadsTo_poke {a : Address} {data : List UInt8} (hinside : h.inRange a data.length = true)
    (hmay : May h (.write a data)) : LeadsTo May h (h.poke a data) :=
  leadsTo_of_run (c := .write a data) (if_pos hinside) hmay

/-- Along a run of calls the arena never shrinks, and never grows past its limit. -/
theorem LeadsTo.arena (hled : LeadsTo May h h') (hlimit : h.arena.size ≤ h.settings.maxSize.toNat) :
    h.arena.size ≤ h'.arena.size ∧ h'.arena.size ≤ h'.settings.maxSize.toNat := by
  induction hled with
  | refl => exact ⟨Nat.le_refl _, hlimit⟩
  | tail _ hcall ih =>
    obtain ⟨c, -, rfl⟩ := hcall
    obtain ⟨hle, hlimit'⟩ := ih
    rw [settings_after]
    obtain ⟨hle', hcap⟩ := arena_after hlimit' c
    exact ⟨Nat.le_trans hle hle', hcap⟩

variable {settings : Settings}

/-- **Every run of calls**: what each allowed call keeps, they all keep. The arena is never larger
than at the end, so it is enough that it fits into memory then. -/
theorem Reached.run {P : Heap → Prop} (hr : Reached settings h) (hP : P h)
    (hstep : ∀ {h : Heap} {c : Call}, h.Inv → May h c → P h → P (h.after c)) (hled : LeadsTo May h h')
    (hfits : h'.arena.size < Address.stackStart.toNat) : Reached settings h' ∧ P h' := by
  induction hled with
  | refl => exact ⟨hr, hP⟩
  | tail hled hcall ih =>
    obtain ⟨c, hmay, rfl⟩ := hcall
    have hlimit := (LeadsTo.arena hled hr.inv.limited).2
    have hle := (arena_after hlimit c).1
    obtain ⟨hr', hP'⟩ := ih (by omega)
    exact ⟨hr'.called c hfits, hstep hr'.inv hmay hP'⟩

theorem Reached.leadsTo (hr : Reached settings h) (hled : LeadsTo May h h')
    (hfits : h'.arena.size < Address.stackStart.toNat) : Reached settings h' := by
  exact (hr.run (P := fun _ => True) trivial (fun _ _ _ => trivial) hled hfits).1

end LeadsTo

/-! ## The invariant as it is read -/

/-- **A well-formed heap**, for settings it was made with. -/
structure WellFormed (settings : Settings) (h : Heap) : Prop where
  /-- No byte is in two regions. -/
  disjoint : h.regions.Pairwise Hole.Apart
  /-- The bytes of the regions are those between the alignment and the top. -/
  covered : ∀ x, (∃ r ∈ h.regions, r.start ≤ x ∧ x < r.stop) ↔ alignment ≤ x ∧ x < h.top
  aligned : ∀ r ∈ h.regions, r.Aligned
  holes_sorted : h.holes.Pairwise fun r s => r.start < s.start
  holes_joined : ∀ r ∈ h.holes, ∀ s ∈ h.holes, r.stop ≠ s.start
  holes_below : ∀ r ∈ h.holes, r.stop ≠ h.top
  inside : ∀ r ∈ h.regions, r.stop ≤ h.arena.size
  limited : h.arena.size ≤ settings.maxSize.toNat
  /-- An object's address is that of its place in the table, where a lookup finds it. -/
  keyed : ∀ o ∈ h.objects, o.address = .heap o.start ∧ h.objectAt? o.start = some o
  buried : ∀ o ∈ h.objects, o.start ∉ h.tombstones
  counted : h.allocations = h.frees + h.objects.length

theorem Inv.objectAt?_start {h : Heap} (inv : h.Inv) {o : Object} (ho : o ∈ h.objects) :
    h.objectAt? o.start = some o := by
  unfold objectAt?
  cases hfind : h.objects.find? (·.start == o.start) with
  | none => exact absurd (List.find?_eq_none.mp hfind o ho) (by simp)
  | some p =>
    have hp : p.start = o.start := by simpa using List.find?_some hfind
    exact congrArg some (inv.sorted.eq_of_start (List.mem_of_find?_eq_some hfind) ho hp)

/-- Of two holes, wherever they stand, neither ends where the other starts. -/
theorem Spaced.stop_ne_start {holes : List Hole} (hs : Spaced holes)
    (hpos : ∀ r ∈ holes, 0 < r.size) {r s : Hole} (hr : r ∈ holes) (hmem : s ∈ holes) :
    r.stop ≠ s.start := by
  have hposr := hpos r hr
  have hposs := hpos s hmem
  have hside := hs.eq_or_gap hr hmem
  unfold Hole.stop at *
  rcases hside with rfl | h | h <;> omega

/-- **The heap invariant.** Every heap that is made with accepted settings and then changed by any
calls, failing ones included, is well formed. -/
theorem wellFormed_of_reached {settings : Settings} {h : Heap} (hr : Reached settings h) :
    WellFormed settings h := by
  have inv := hr.inv
  have hpos : ∀ r ∈ h.regions, 0 < r.size := fun r hr => (inv.aligned r hr).size_pos
  exact
    { disjoint := inv.tiled.pairwise_apart hpos
      covered := fun x => inv.tiled.mem_iff
      aligned := inv.aligned
      holes_sorted := List.Pairwise.imp_of_mem (fun {r s} hr _ hlt => by
        have := hpos r (hole_mem hr)
        unfold Hole.stop at hlt
        omega) inv.spaced
      holes_joined := fun r hr s hs =>
        inv.spaced.stop_ne_start (fun r hr => hpos r (hole_mem hr)) hr hs
      holes_below := inv.below
      inside := fun r hr => by
        have := inv.bounds hr
        have := hpos r hr
        have := inv.inside
        unfold Hole.stop at *
        omega
      limited := hr.settings_eq ▸ inv.limited
      keyed := fun o ho => ⟨inv.keyed o ho, inv.objectAt?_start ho⟩
      buried := inv.buried
      counted := inv.counted }

/-- Three objects in an arena that must grow for them; the first two are freed, which joins their
regions to one hole, and an object is put into the front of it. -/
theorem wellFormed_after_reuse :
    let h := [.allocate 20 ⟨1⟩ .string, .allocate 8 ⟨2⟩ .object, .allocate 0 ⟨1⟩ .string,
      .free (.heap 32), .free (.heap 8), .free (.heap 8), .allocate 9 ⟨1⟩ .string].foldl Heap.after
        { settings := { initialSize := 16 }, arena := .zeroed 16 }
    (h.holes = [⟨24, 16⟩] ∧ h.top = 48 ∧ h.objects.map (·.start) = [8, 40] ∧ h.frees = 2) ∧
      WellFormed { initialSize := 16 } h :=
  ⟨by decide, wellFormed_of_reached <|
    Reached.foldl_after (.created (by decide)) (by decide) _⟩

/-- Without overflow checks the largest size there is takes up no byte, since its padding is cut to
nothing. The object behind it starts at the same place and takes its entry in the table. -/
theorem emptied_not_wellFormed :
    let settings : Settings := { initialSize := 64, maxSize := 64 }
    let h := [.allocate (UInt64.size - 1) ⟨0⟩ .string, .allocate 8 ⟨0⟩ .string].foldl
      (@after .unchecked) { settings, arena := .zeroed 64 }
    @Reached .unchecked settings h ∧ (h.allocations = 2 ∧ h.frees = 0 ∧ h.objects.length = 1) ∧
      ¬ WellFormed settings h := by
  intro settings h
  have hcreated : @Reached .unchecked settings { settings, arena := .zeroed 64 } :=
    @Reached.created .unchecked _ _ (by decide)
  exact ⟨@Reached.foldl_after .unchecked _ _ hcreated (by decide) _, by decide,
    fun hformed => absurd hformed.counted (by decide)⟩

end Heap

end ManagedVm
