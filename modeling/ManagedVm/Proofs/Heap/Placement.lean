import Mathlib.Order.Bounds.Basic
import ManagedVm.Proofs.Heap.Canonical

/-!
# Where objects are placed

An allocation searches a list of holes and then takes the space behind the last region. What it
finds is said without either: it is the least place from which on no live object has a byte of the
new region (`isLeast_place`). A hole that is too small ends at an object, because holes are apart
from each other and from the top; so a region that begins in it runs into that object.

Hence the live regions alone decide where the next object goes, and the holes and the top are a
function of them: two heaps whose histories end with the same live regions agree on both, whatever
the histories were.
-/

namespace ManagedVm.Heap

variable {h : Heap}

/-- No live object has a byte of the region. -/
def Vacant (h : Heap) (start length : Nat) : Prop :=
  ∀ x, start ≤ x → x < start + length →
    ∀ o ∈ h.objects, ¬ (o.start ≤ x ∧ x < o.start + reserved o.size)

/-- The place of a new object: in the first hole that has room, or else at the top. -/
def place (h : Heap) (size : Nat) : Nat :=
  match takeHole? (reserved size) h.holes with
  | some (start, _) => start
  | none => h.top

/-! ## The search -/

theorem takeHole?_eq_none {n : Nat} {holes : List Hole} (h : takeHole? n holes = none) :
    ∀ r ∈ holes, r.size < n := by
  induction holes with
  | nil =>
    intro r hr
    cases hr
  | cons hole holes ih =>
    unfold takeHole? at h
    split at h
    · cases h
    · rename_i hlt
      have hrest := ih (Option.map_eq_none_iff.mp h)
      exact List.forall_mem_cons.mpr ⟨Nat.lt_of_not_le hlt, hrest⟩

/-- The holes that stand before the one the bytes are taken from are too small. -/
theorem size_lt_of_takeHole? {n start : Nat} {holes rest : List Hole}
    (h : takeHole? n holes = some (start, rest)) (hs : Spaced holes) :
    ∀ r ∈ holes, r.start < start → r.size < n := by
  induction holes generalizing rest with
  | nil => cases h
  | cons hole holes ih =>
    obtain ⟨hnext, hrest⟩ := List.pairwise_cons.mp hs
    unfold takeHole? at h
    split at h
    · -- The first hole has room, and the others start behind it.
      obtain ⟨rfl, -⟩ := Prod.mk.inj (Option.some.inj h)
      intro r hr hlt
      rcases List.mem_cons.mp hr with rfl | hr
      · exact absurd hlt (Nat.lt_irrefl _)
      · have hgap := hnext r hr
        unfold Hole.stop at hgap
        omega
    · rename_i hsmall
      obtain ⟨⟨start', rest'⟩, htake, heq⟩ := Option.map_eq_some_iff.mp h
      obtain ⟨rfl, -⟩ := Prod.mk.inj heq
      exact List.forall_mem_cons.mpr ⟨fun _ => Nat.lt_of_not_le hsmall, ih htake hrest⟩

theorem place_of_some {size start : Nat} {rest : List Hole}
    (htake : takeHole? (reserved size) h.holes = some (start, rest)) : h.place size = start := by
  unfold place
  rw [htake]

theorem place_of_none {size : Nat} (htake : takeHole? (reserved size) h.holes = none) :
    h.place size = h.top := by
  unfold place
  rw [htake]

/-- Every hole that starts before the place is too small. -/
theorem Inv.size_lt_of_place (inv : h.Inv) {size : Nat} {r : Hole} (hr : r ∈ h.holes)
    (hlt : r.start < h.place size) : r.size < reserved size := by
  cases htake : takeHole? (reserved size) h.holes with
  | none => exact takeHole?_eq_none htake r hr
  | some found =>
    obtain ⟨start, rest⟩ := found
    rw [place_of_some htake] at hlt
    exact size_lt_of_takeHole? htake inv.spaced r hr hlt

/-! ## The place is the first one -/

theorem vacant_iff {start length : Nat} : h.Vacant start length ↔
    ∀ x, start ≤ x → x < start + length → cover (h.objects.map Object.region) x = 0 := by
  refine forall_congr' fun x => forall_congr' fun _ => forall_congr' fun _ => ?_
  rw [← Nat.le_zero_eq, ← Nat.not_lt, cover_pos_iff]
  simp [Object.region, Hole.stop]

/-- A place in a hole has the hole's start, and the hole has room. -/
theorem exists_hole_of_some {size start : Nat} {rest : List Hole}
    (htake : takeHole? (reserved size) h.holes = some (start, rest)) :
    ∃ hole ∈ h.holes, hole.start = start ∧ start + reserved size ≤ hole.stop := by
  obtain ⟨before, hole, after, hholes, rfl, hle, -⟩ := takeHole?_eq_some htake
  have hmem : hole ∈ h.holes := hholes ▸ List.mem_append_right _ (.head _)
  exact ⟨hole, hmem, rfl, Nat.add_le_add_left hle _⟩

theorem Inv.place_bounds (inv : h.Inv) (size : Nat) :
    alignment ≤ h.place size ∧ h.place size ≤ h.top := by
  cases htake : takeHole? (reserved size) h.holes with
  | none =>
    rw [place_of_none htake]
    exact ⟨inv.top_ge, Nat.le_refl _⟩
  | some found =>
    obtain ⟨start, rest⟩ := found
    obtain ⟨hole, hmem, hstart, hroom⟩ := exists_hole_of_some htake
    obtain ⟨hge, hstop⟩ := inv.bounds (hole_mem hmem)
    rw [place_of_some htake]
    omega

/-- **The place is vacant**: it is in a hole, which no object has a byte of, or behind them all. -/
theorem Inv.vacant_place (inv : h.Inv) (size : Nat) : h.Vacant (h.place size) (reserved size) := by
  apply vacant_iff.mpr
  intro x hge hlt
  have hone := inv.tiled x
  rw [regions, cover_append] at hone
  cases htake : takeHole? (reserved size) h.holes with
  | none =>
    rw [place_of_none htake] at hge
    rw [if_neg (by omega)] at hone
    omega
  | some found =>
    obtain ⟨start, rest⟩ := found
    obtain ⟨hole, hmem, hstart, hroom⟩ := exists_hole_of_some htake
    rw [place_of_some htake] at hge hlt
    have hin : 0 < cover h.holes x := cover_pos_iff.mpr ⟨hole, hmem, by omega, by omega⟩
    split at hone <;> omega

/-- **A region that starts earlier runs into an object.** -/
theorem Inv.place_le (inv : h.Inv) {size start : Nat} (hge : alignment ≤ start)
    (hvacant : h.Vacant start (reserved size)) : h.place size ≤ start := by
  by_contra hnot
  have hlt : start < h.place size := Nat.lt_of_not_le hnot
  have htop := (inv.place_bounds size).2
  have hpos := (reserved_aligned size).1
  rw [vacant_iff] at hvacant
  -- The first byte is below the top and no object's, so a hole has it.
  have hfirst := inv.tiled start
  rw [regions, cover_append, hvacant start (Nat.le_refl _) (by omega), if_pos (by omega)] at hfirst
  have hhole : 0 < cover h.holes start := by omega
  obtain ⟨r, hr, hrle, hrlt⟩ := cover_pos_iff.mp hhole
  -- The hole is too small, so the region has the byte behind it, which is an object's.
  have hsmall := inv.size_lt_of_place hr (Nat.lt_of_le_of_lt hrle hlt)
  have hinside : r.stop < start + reserved size := by
    unfold Hole.stop
    omega
  have hstop := (inv.bounds (hole_mem hr)).2
  have hbelow := inv.below r hr
  have hbehind := inv.tiled r.stop
  rw [regions, cover_append, inv.spaced.cover_eq_zero hr (.inr rfl),
    hvacant r.stop (Nat.le_of_lt hrlt) hinside, if_pos (by omega)] at hbehind
  cases hbehind

/-- **First fit over the holes is the least vacant place.** -/
theorem Inv.isLeast_place (inv : h.Inv) (size : Nat) :
    IsLeast {start | alignment ≤ start ∧ h.Vacant start (reserved size)} (h.place size) := by
  constructor
  · exact ⟨(inv.place_bounds size).1, inv.vacant_place size⟩
  · rintro start ⟨hge, hvacant⟩
    exact inv.place_le hge hvacant

/-! ## What an allocation does -/

theorem plan_of_le {size : Nat} (hfits : h.place size + reserved size ≤ h.settings.maxSize.toNat) :
    ∃ p, h.plan size = .ok p ∧ p.start = h.place size := by
  have hmax := h.settings.maxSize.toNat_lt_size
  have hpadded : padded size < UInt64.size := reserved_lt_iff.mp (by omega)
  cases htake : takeHole? (reserved size) h.holes with
  | none =>
    rw [place_of_none htake] at hfits ⊢
    exact ⟨_, plan_of_room hpadded htake hfits, rfl⟩
  | some found =>
    rw [place_of_some htake]
    exact ⟨_, plan_of_hole hpadded htake, rfl⟩

/-- A hole with room ends within the limit, so what does not fit was to go to the top. -/
theorem Inv.plan_of_lt (inv : h.Inv) {size : Nat}
    (hfull : h.settings.maxSize.toNat < h.place size + reserved size) :
    h.plan size = .error (if UInt64.size ≤ h.place size + reserved size then .panic
      else .outOfMemory size h.settings.maxSize.toNat) := by
  by_cases hpadded : padded size < UInt64.size
  · cases htake : takeHole? (reserved size) h.holes with
    | none =>
      rw [place_of_none htake] at hfull ⊢
      exact plan_of_full hpadded htake hfull
    | some found =>
      obtain ⟨start, rest⟩ := found
      obtain ⟨hole, hmem, hstart, hroom⟩ := exists_hole_of_some htake
      obtain ⟨hge, hstop⟩ := inv.bounds (hole_mem hmem)
      have hpos := (reserved_aligned size).1
      have hinside := inv.inside
      have hlimit := inv.limited
      rw [place_of_some htake] at hfull
      omega
  · have hreserved := mt reserved_lt_iff.mp hpadded
    rw [if_pos (by omega)]
    exact plan_of_overflow (Nat.le_of_not_lt hpadded)

/-- **An allocation within the limit** puts its object at the place and keeps the others. -/
theorem allocate_of_le {size : Nat} (hfits : h.place size + reserved size ≤ h.settings.maxSize.toNat)
    (type : TypeId) (kind : ObjectKind) :
    ∃ h', h.allocate size type kind = .ok (.heap (h.place size), h') ∧
      h'.objects.Perm (⟨.heap (h.place size), type, size, kind⟩ :: h.objects) := by
  obtain ⟨p, hplan, hstart⟩ := plan_of_le hfits
  refine ⟨h.occupy p size type kind, ?_, ?_⟩
  · rw [allocate_eq_map, hplan, ← hstart]
    rfl
  · rw [← hstart]
    exact insertObject_perm _ h.objects

/-- **An allocation beyond the limit** leaves the heap as it was. It fails, unless the end of the
region is no word: then the program stops. -/
theorem Inv.allocate_of_lt (inv : h.Inv) {size : Nat}
    (hfull : h.settings.maxSize.toNat < h.place size + reserved size) (type : TypeId) (kind : ObjectKind) :
    h.allocate size type kind =
        .error (if UInt64.size ≤ h.place size + reserved size then .panic
          else .outOfMemory size h.settings.maxSize.toNat) ∧
      h.after (.allocate size type kind) = h := by
  have hfail := congrArg (Except.map fun p => (Address.heap p.start, h.occupy p size type kind))
    (inv.plan_of_lt hfull)
  rw [← allocate_eq_map] at hfail
  refine ⟨hfail, ?_⟩
  simp only [Heap.after, Call.run, hfail, Except.map]

/-! ## The live regions determine the layout -/

/-- The live regions, which the objects list by increasing start, are one list for one set. -/
theorem Inv.regions_eq {h' : Heap} (inv : h.Inv) (inv' : h'.Inv)
    (hiff : ∀ r, r ∈ h.objects.map Object.region ↔ r ∈ h'.objects.map Object.region) :
    h.objects.map Object.region = h'.objects.map Object.region := by
  have : Std.Irrefl fun r s : Hole => r.start < s.start := ⟨fun r => Nat.lt_irrefl _⟩
  have : Std.Antisymm fun r s : Hole => r.start < s.start :=
    ⟨fun r s h h' => absurd h (Nat.lt_asymm h')⟩
  have hsorted : ∀ {h : Heap}, h.Inv →
      (h.objects.map Object.region).Pairwise fun r s => r.start < s.start :=
    fun inv => List.pairwise_map.mpr inv.sorted
  exact List.Pairwise.eq_of_mem_iff (hsorted inv) (hsorted inv') hiff

/-! ## Freeing two objects -/

/-- The heap after two objects are freed, one after the other. -/
def freeBoth (h : Heap) (first second : Address) : Except Error Heap := do
  let (_, h) ← h.free first
  let (_, h) ← h.free second
  return h

theorem Inv.freeBoth_eq_ok (inv : h.Inv) {o p : Object} (ho : o ∈ h.objects) (hp : p ∈ h.objects)
    (hne : o ≠ p) : h.freeBoth o.address p.address = .ok ((h.vacate o).vacate p) := by
  have hfirst : h.get o.address = .ok o := (get_eq_ok_iff inv).mpr ⟨ho, rfl⟩
  have hleft : p ∈ (h.vacate o).objects := (mem_objects_vacate inv ho).mpr ⟨hp, hne.symm⟩
  have hsecond : (h.vacate o).get p.address = .ok p :=
    (get_eq_ok_iff (inv.vacate ho)).mpr ⟨hleft, rfl⟩
  simp only [freeBoth, free, hfirst, hsecond, bind, Except.bind, pure, Except.pure]

/-- **Two objects may be freed in either order.** -/
theorem Inv.vacate_comm (inv : h.Inv) {o p : Object} (ho : o ∈ h.objects) (hp : p ∈ h.objects)
    (hne : o ≠ p) : (h.vacate o).vacate p = (h.vacate p).vacate o := by
  have hpo : p ∈ (h.vacate o).objects := (mem_objects_vacate inv ho).mpr ⟨hp, hne.symm⟩
  have hop : o ∈ (h.vacate p).objects := (mem_objects_vacate inv hp).mpr ⟨ho, hne⟩
  have hs := (Shrunk.vacate inv ho).trans (.vacate (inv.vacate ho) hpo)
  have hs' := (Shrunk.vacate inv hp).trans (.vacate (inv.vacate hp) hop)
  refine hs.eq_of_mem_iff hs' fun q => ?_
  rw [mem_objects_vacate (inv.vacate ho) hpo, mem_objects_vacate inv ho,
    mem_objects_vacate (inv.vacate hp) hop, mem_objects_vacate inv hp]
  exact and_right_comm

/-! ## Placement by the live regions -/

/-- The least place, from the alignment on, where no live object has a byte of the region. -/
def LeastVacant (h : Heap) (size start : Nat) : Prop :=
  IsLeast {start | alignment ≤ start ∧ h.Vacant start (reserved size)} start

theorem Inv.leastVacant_iff (inv : h.Inv) {size start : Nat} :
    h.LeastVacant size start ↔ start = h.place size := by
  constructor
  · intro hleast
    exact hleast.unique (inv.isLeast_place size)
  · rintro rfl
    exact inv.isLeast_place size

/-- **A heap whose live regions say where the next object goes**, for settings it was made with. -/
structure PlacedByRegions (settings : Settings) (h : Heap) : Prop where
  exists_least : ∀ size, ∃ start, h.LeastVacant size start
  /-- Within the limit the new object starts there, and the others stay. -/
  placed : ∀ size type kind start, h.LeastVacant size start →
    start + reserved size ≤ settings.maxSize.toNat → ∃ h',
      h.allocate size type kind = .ok (.heap start, h') ∧
        h'.objects.Perm (⟨.heap start, type, size, kind⟩ :: h.objects)
  /-- Beyond the limit nothing changes, as long as the end of the region is a word. -/
  refused : ∀ size type kind start, h.LeastVacant size start →
    settings.maxSize.toNat < start + reserved size → start + reserved size < UInt64.size →
      h.allocate size type kind = .error (.outOfMemory size settings.maxSize.toNat) ∧
        h.after (.allocate size type kind) = h
  /-- If it is none, the program stops. -/
  stopped : ∀ size type kind start, h.LeastVacant size start →
    UInt64.size ≤ start + reserved size → h.allocate size type kind = .error .panic
  /-- Another history that ends with the same live regions ends with the same layout. -/
  layout : ∀ h', Reached settings h' →
    (∀ r, r ∈ h.objects.map Object.region ↔ r ∈ h'.objects.map Object.region) →
      h.holes = h'.holes ∧ h.top = h'.top
  freed : ∀ o ∈ h.objects, ∀ p ∈ h.objects, o ≠ p → ∃ h',
    h.freeBoth o.address p.address = .ok h' ∧ h.freeBoth p.address o.address = .ok h'

end ManagedVm.Heap
