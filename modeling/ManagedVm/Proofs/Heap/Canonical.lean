import Mathlib.Data.List.Sort
import ManagedVm.Proofs.Heap.Lookup

/-!
# The heap is determined by its objects

The regions of the objects fix the layout of the rest: the holes are the runs of bytes below the top
that no object takes up, each as long as it can be (`mem_iff_run`), and the top is where the last
object ends, since no hole ends there. Two heaps that are left of one heap and have the same objects
are therefore the same heap, in whatever order the others were freed.
-/

namespace ManagedVm.Heap

/-! ## Holes as runs of free bytes -/

/-- The region is a run of covered bytes that cannot be made longer on either side. -/
structure Hole.Run (r : Hole) (regions : List Hole) : Prop where
  size_pos : 0 < r.size
  inner : ∀ x, r.start ≤ x → x < r.stop → 0 < cover regions x
  before : ∀ x, x + 1 = r.start → cover regions x = 0
  behind : cover regions r.stop = 0

theorem Spaced.cover_eq_zero {holes : List Hole} (hs : Spaced holes) {r : Hole} (hr : r ∈ holes)
    {x : Nat} (hx : x + 1 = r.start ∨ x = r.stop) : cover holes x = 0 := by
  by_contra hne
  obtain ⟨s, hmem, hge, hlt⟩ := cover_pos_iff.mp (Nat.pos_of_ne_zero hne)
  have hside := hs.eq_or_gap hr hmem
  unfold Hole.stop at *
  rcases hside with rfl | h | h <;> omega

/-- **The holes of a list with gaps are its runs.** -/
theorem Spaced.mem_iff_run {holes : List Hole} (hs : Spaced holes)
    (hpos : ∀ r ∈ holes, 0 < r.size) {r : Hole} : r ∈ holes ↔ r.Run holes := by
  constructor
  · intro hr
    exact
      { size_pos := hpos r hr
        inner := fun x hge hlt => cover_pos_iff.mpr ⟨r, hr, hge, hlt⟩
        before := fun x hx => hs.cover_eq_zero hr (.inl hx)
        behind := hs.cover_eq_zero hr (.inr rfl) }
  · intro hrun
    have hstop : r.start < r.stop := Nat.lt_add_of_pos_right hrun.size_pos
    -- The hole that has the run's first byte begins and ends where the run does.
    obtain ⟨s, hmem, hge, hlt⟩ := cover_pos_iff.mp (hrun.inner r.start (Nat.le_refl _) hstop)
    have hstart : s.start = r.start := by
      by_contra hne
      have hzero := hrun.before (r.start - 1) (by omega)
      have hin : 0 < cover holes (r.start - 1) := cover_pos_iff.mpr ⟨s, hmem, by omega, by omega⟩
      omega
    have hend : s.stop = r.stop := by
      rcases Nat.lt_trichotomy s.stop r.stop with h | h | h
      · have hin := hrun.inner s.stop (by omega) h
        have hzero := hs.cover_eq_zero hmem (.inr rfl)
        omega
      · exact h
      · have hin : 0 < cover holes r.stop := cover_pos_iff.mpr ⟨s, hmem, by omega, h⟩
        have hzero := hrun.behind
        omega
    have heq : s = r := by
      cases s
      cases r
      simp only [Hole.stop, Hole.mk.injEq] at *
      omega
    exact heq ▸ hmem

/-- Lists with gaps that cover the same bytes are equal. -/
theorem Spaced.eq_of_cover {rs ss : List Hole} (hrs : Spaced rs) (hss : Spaced ss)
    (hrpos : ∀ r ∈ rs, 0 < r.size) (hspos : ∀ s ∈ ss, 0 < s.size)
    (hcover : cover rs = cover ss) : rs = ss := by
  have : Std.Irrefl fun r s : Hole => r.stop < s.start := ⟨fun r h => by unfold Hole.stop at h; omega⟩
  have : Std.Antisymm fun r s : Hole => r.stop < s.start :=
    ⟨fun r s h h' => by unfold Hole.stop at h h'; omega⟩
  refine List.Pairwise.eq_of_mem_iff hrs hss fun r => ?_
  rw [hrs.mem_iff_run hrpos, hss.mem_iff_run hspos]
  constructor
  · rintro ⟨hpos, hinner, hbefore, hbehind⟩
    exact ⟨hpos, hcover ▸ hinner, hcover ▸ hbefore, hcover ▸ hbehind⟩
  · rintro ⟨hpos, hinner, hbefore, hbehind⟩
    exact ⟨hpos, hcover ▸ hinner, hcover ▸ hbefore, hcover ▸ hbehind⟩

/-! ## Top and holes from the objects -/

variable {h h' : Heap}

/-- The last byte below the top is an object's. -/
theorem Inv.top_le (inv : h.Inv) (inv' : h'.Inv)
    (hregions : h.objects.map Object.region = h'.objects.map Object.region) : h.top ≤ h'.top := by
  by_contra hlt
  have hge := inv'.top_ge
  obtain ⟨r, hr, hle, hlast⟩ := (inv.tiled.mem_iff (x := h.top - 1)).mpr (by omega)
  have hstop := (inv.bounds hr).2
  rcases List.mem_append.mp hr with hr | hr
  · rw [hregions] at hr
    have := (inv'.bounds (List.mem_append_left _ hr)).2
    omega
  · exact inv.below r hr (by omega)

theorem Inv.top_eq (inv : h.Inv) (inv' : h'.Inv)
    (hregions : h.objects.map Object.region = h'.objects.map Object.region) : h.top = h'.top :=
  Nat.le_antisymm (inv.top_le inv' hregions) (inv'.top_le inv hregions.symm)

theorem Inv.holes_eq (inv : h.Inv) (inv' : h'.Inv)
    (hregions : h.objects.map Object.region = h'.objects.map Object.region) :
    h.holes = h'.holes := by
  have hpos : ∀ {h : Heap}, h.Inv → ∀ r ∈ h.holes, 0 < r.size := fun inv r hr =>
    (inv.aligned r (hole_mem hr)).size_pos
  refine inv.spaced.eq_of_cover inv'.spaced (hpos inv) (hpos inv') (funext fun x => ?_)
  have htiles := inv.tiled x
  have htiles' := inv'.tiled x
  rw [regions, cover_append] at htiles htiles'
  rw [hregions, inv.top_eq inv' hregions] at htiles
  omega

/-! ## What is left of a heap, in whatever order -/

theorem Sorted.eq_of_mem_iff {os ps : List Object} (hos : Sorted os) (hps : Sorted ps)
    (hiff : ∀ o, o ∈ os ↔ o ∈ ps) : os = ps := by
  have : Std.Irrefl fun o p : Object => o.start < p.start := ⟨fun o => Nat.lt_irrefl _⟩
  have : Std.Antisymm fun o p : Object => o.start < p.start :=
    ⟨fun o p h h' => absurd h (Nat.lt_asymm h')⟩
  exact List.Pairwise.eq_of_mem_iff hos hps hiff

/-- **The objects that are left determine the heap.** -/
theorem Shrunk.eq_of_mem_iff {h₀ : Heap} (hs : Shrunk h₀ h) (hs' : Shrunk h₀ h')
    (hiff : ∀ o, o ∈ h.objects ↔ o ∈ h'.objects) : h = h' := by
  have hobjects : h.objects = h'.objects := hs.after.sorted.eq_of_mem_iff hs'.after.sorted hiff
  have htombstones : h.tombstones = h'.tombstones := by
    refine List.Pairwise.eq_of_mem_iff hs.after.graves hs'.after.graves fun x => ?_
    rw [hs.tombstones, hs'.tombstones, hobjects]
  have hallocations : h.allocations = h'.allocations := hs.allocations.trans hs'.allocations.symm
  have hfrees : h.frees = h'.frees := by
    have := hs.after.counted
    have := hs'.after.counted
    rw [hobjects] at *
    omega
  have hregions := congrArg (List.map Object.region) hobjects
  have htop := hs.after.top_eq hs'.after hregions
  have hholes := hs.after.holes_eq hs'.after hregions
  have hsettings := hs.settings.trans hs'.settings.symm
  have harena := hs.arena.trans hs'.arena.symm
  cases h
  cases h'
  simp_all only

end ManagedVm.Heap
