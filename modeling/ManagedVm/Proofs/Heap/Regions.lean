import Mathlib.Data.List.Basic
import ManagedVm.Heap.Operations
import ManagedVm.Proofs.Size

/-!
# Regions and holes

What the list operations of the heap do to the bytes that regions take up. The view is `cover`: how
many regions of a list have a given byte. Taking bytes from a hole, joining two holes and putting a
hole in its place all keep the count, and this alone carries most of the heap's invariant: a byte
with count one belongs to exactly one region.

What `cover` cannot see is how the free bytes are cut into holes. That is `Spaced`: between two
holes there is at least one byte that is in neither.
-/

namespace ManagedVm.Heap

/-! ## Regions -/

/-- The region that a live object takes up; freeing the object makes it a hole. -/
def Object.region (o : Object) : Hole := ⟨o.start, reserved o.size⟩

/-- The byte is one of the region's. -/
def Hole.has (r : Hole) (x : Nat) : Bool := decide (r.start ≤ x ∧ x < r.stop)

/-- The regions have no byte in common. -/
def Hole.Apart (r s : Hole) : Prop := r.stop ≤ s.start ∨ s.stop ≤ r.start

/-- The region starts at a multiple of the alignment and is one long, and neither is zero. -/
structure Hole.Aligned (r : Hole) : Prop where
  start_pos : 0 < r.start
  start_dvd : alignment ∣ r.start
  size_pos : 0 < r.size
  size_dvd : alignment ∣ r.size

/-- How many of the regions have the byte. -/
def cover (regions : List Hole) (x : Nat) : Nat := regions.countP (·.has x)

/-- **Holes with something between them**: each stops before the next one starts. -/
def Spaced (holes : List Hole) : Prop := holes.Pairwise fun r s => r.stop < s.start

@[simp] theorem cover_nil (x : Nat) : cover [] x = 0 := rfl

theorem cover_cons (r : Hole) (rs : List Hole) (x : Nat) :
    cover (r :: rs) x = cover rs x + if r.start ≤ x ∧ x < r.stop then 1 else 0 := by
  simp [cover, Hole.has, List.countP_cons]

theorem cover_append (rs ss : List Hole) (x : Nat) :
    cover (rs ++ ss) x = cover rs x + cover ss x :=
  List.countP_append

theorem cover_perm {rs ss : List Hole} (h : rs.Perm ss) (x : Nat) : cover rs x = cover ss x :=
  h.countP_eq _

theorem cover_pos_iff {rs : List Hole} {x : Nat} :
    0 < cover rs x ↔ ∃ r ∈ rs, r.start ≤ x ∧ x < r.stop := by
  simp [cover, Hole.has, List.countP_pos_iff]

/-- Regions of which no byte has two are apart. -/
theorem pairwise_apart_of_cover {rs : List Hole} (hpos : ∀ r ∈ rs, 0 < r.size)
    (hcover : ∀ x, cover rs x ≤ 1) : rs.Pairwise Hole.Apart := by
  induction rs with
  | nil => exact List.Pairwise.nil
  | cons r rs ih =>
    refine List.pairwise_cons.mpr ⟨fun s hs => ?_, ih (fun s hs => hpos s (.tail _ hs)) fun x => ?_⟩
    · -- The later of the two starts would be a byte of both.
      have hx := hcover (max r.start s.start)
      have hr := hpos r (.head _)
      have hsp := hpos s (.tail _ hs)
      rw [cover_cons] at hx
      unfold Hole.Apart
      by_cases hapart : r.stop ≤ s.start ∨ s.stop ≤ r.start
      · exact hapart
      · have hin : 0 < cover rs (max r.start s.start) :=
          cover_pos_iff.mpr ⟨s, hs, by unfold Hole.stop at *; omega⟩
        rw [if_pos (by unfold Hole.stop at *; omega)] at hx
        omega
    · have := hcover x
      rw [cover_cons] at this
      omega

theorem reserved_aligned (size : Nat) : 0 < reserved size ∧ alignment ∣ reserved size := by
  simp only [reserved, Size.word_checked, padded, alignment]
  omega

/-- The alignment divides the number of words, so the padding alone overflows nothing. -/
theorem reserved_lt_iff {size : Nat} : reserved size < UInt64.size ↔ padded size < UInt64.size := by
  simp only [reserved, Size.word_checked, alignment, UInt64.size]
  omega

/-- **The regions tile the heap up to a top**: each byte between the alignment and the top is in one
of them, all others in none. -/
def Tiles (regions : List Hole) (top : Nat) : Prop :=
  ∀ x, cover regions x = if alignment ≤ x ∧ x < top then 1 else 0

theorem Tiles.perm {rs ss : List Hole} {top : Nat} (ht : Tiles rs top) (h : ss.Perm rs) :
    Tiles ss top :=
  fun x => (cover_perm h x).trans (ht x)

theorem Tiles.pairwise_apart {rs : List Hole} {top : Nat} (ht : Tiles rs top)
    (hpos : ∀ r ∈ rs, 0 < r.size) : rs.Pairwise Hole.Apart := by
  refine pairwise_apart_of_cover hpos fun x => ?_
  rw [ht]
  split <;> omega

theorem Tiles.mem_iff {rs : List Hole} {top : Nat} (ht : Tiles rs top) {x : Nat} :
    (∃ r ∈ rs, r.start ≤ x ∧ x < r.stop) ↔ alignment ≤ x ∧ x < top := by
  rw [← cover_pos_iff, ht]
  split <;> simp_all

/-- A tile lies between the alignment and the top. -/
theorem Tiles.bounds {rs : List Hole} {top : Nat} (ht : Tiles rs top) {r : Hole} (hr : r ∈ rs)
    (hpos : 0 < r.size) : alignment ≤ r.start ∧ r.stop ≤ top := by
  have hfirst := ht.mem_iff.mp ⟨r, hr, Nat.le_refl _, by unfold Hole.stop; omega⟩
  have hlast := ht.mem_iff (x := r.stop - 1) |>.mp
    ⟨r, hr, by unfold Hole.stop; omega, by unfold Hole.stop; omega⟩
  omega

/-- Two holes are one, or there is a byte between them, wherever they stand in the list. -/
theorem Spaced.eq_or_gap {holes : List Hole} (hs : Spaced holes) {r s : Hole} (hr : r ∈ holes)
    (hmem : s ∈ holes) : r = s ∨ r.stop < s.start ∨ s.stop < r.start :=
  List.Pairwise.forall_of_forall_of_flip
    (R := fun r s => r = s ∨ r.stop < s.start ∨ s.stop < r.start) (fun _ _ => .inl rfl)
    (hs.imp fun h => .inr (.inl h)) (hs.imp fun h => .inr (.inr h)) hr hmem

/-! ## Taking bytes from a hole -/

/-- **Where the bytes come from**: the first hole that has them, which loses them at its front. -/
theorem takeHole?_eq_some {n start : Nat} {holes rest : List Hole}
    (h : takeHole? n holes = some (start, rest)) :
    ∃ before hole after, holes = before ++ hole :: after ∧ hole.start = start ∧ n ≤ hole.size ∧
      rest = before ++ if hole.size - n = 0 then after
        else ⟨hole.start + n, hole.size - n⟩ :: after := by
  induction holes generalizing rest with
  | nil => cases h
  | cons hole holes ih =>
    unfold takeHole? at h
    split at h
    · rename_i hle
      obtain ⟨rfl, rfl⟩ := Prod.mk.inj (Option.some.inj h)
      exact ⟨[], hole, holes, rfl, rfl, hle, rfl⟩
    · obtain ⟨⟨start', rest'⟩, htake, heq⟩ := Option.map_eq_some_iff.mp h
      obtain ⟨rfl, rfl⟩ := Prod.mk.inj heq
      obtain ⟨before, hole', after, rfl, hstart, hle, rfl⟩ := ih htake
      exact ⟨hole :: before, hole', after, rfl, hstart, hle, rfl⟩

/-- Taking bytes leaves every byte covered as often as before, the taken ones counted. -/
theorem cover_takeHole? {n start : Nat} {holes rest : List Hole}
    (h : takeHole? n holes = some (start, rest)) (x : Nat) :
    cover (⟨start, n⟩ :: rest) x = cover holes x := by
  obtain ⟨before, hole, after, rfl, rfl, hle, rfl⟩ := takeHole?_eq_some h
  split
  · simp only [cover_cons, cover_append, Hole.stop]
    grind
  · simp only [cover_cons, cover_append, Hole.stop]
    grind

/-- What is left of the holes stops where the holes stopped, and starts no earlier. -/
theorem mem_takeHole? {n start : Nat} {holes rest : List Hole}
    (h : takeHole? n holes = some (start, rest)) {r : Hole} (hr : r ∈ rest) :
    ∃ s ∈ holes, s.stop = r.stop ∧ s.start ≤ r.start := by
  obtain ⟨before, hole, after, rfl, rfl, hle, rfl⟩ := takeHole?_eq_some h
  rcases List.mem_append.mp hr with hr | hr
  · exact ⟨r, List.mem_append_left _ hr, rfl, Nat.le_refl _⟩
  · split at hr
    · exact ⟨r, List.mem_append_right _ (.tail _ hr), rfl, Nat.le_refl _⟩
    · rcases List.mem_cons.mp hr with rfl | hr
      · exact ⟨hole, List.mem_append_right _ (.head _), by simp only [Hole.stop]; omega,
          Nat.le_add_right _ _⟩
      · exact ⟨r, List.mem_append_right _ (.tail _ hr), rfl, Nat.le_refl _⟩

theorem spaced_takeHole? {n start : Nat} {holes rest : List Hole}
    (h : takeHole? n holes = some (start, rest)) (hs : Spaced holes) : Spaced rest := by
  obtain ⟨before, hole, after, rfl, rfl, hle, rfl⟩ := takeHole?_eq_some h
  obtain ⟨hbefore, htail, hacross⟩ := List.pairwise_append.mp hs
  obtain ⟨hhead, hafter⟩ := List.pairwise_cons.mp htail
  have hstart : ∀ r ∈ before, r.stop < hole.start := fun r hr => hacross r hr hole (.head _)
  split
  · exact List.pairwise_append.mpr ⟨hbefore, hafter, fun r hr s hs => hacross r hr s (.tail _ hs)⟩
  · refine List.pairwise_append.mpr ⟨hbefore, List.pairwise_cons.mpr ⟨fun s hs => ?_, hafter⟩, ?_⟩
    · have := hhead s hs
      simp only [Hole.stop] at *
      omega
    · intro r hr s hs
      rcases List.mem_cons.mp hs with rfl | hs
      · exact Nat.lt_of_lt_of_le (hstart r hr) (Nat.le_add_right _ _)
      · exact hacross r hr s (.tail _ hs)

theorem aligned_takeHole? {size start : Nat} {holes rest : List Hole}
    (h : takeHole? (reserved size) holes = some (start, rest)) (ha : ∀ r ∈ holes, r.Aligned) :
    (∀ r ∈ rest, r.Aligned) ∧ (⟨start, reserved size⟩ : Hole).Aligned := by
  obtain ⟨before, hole, after, rfl, rfl, hle, rfl⟩ := takeHole?_eq_some h
  obtain ⟨hpos, hdvd⟩ := reserved_aligned size
  have hhole : hole.Aligned := ha hole (List.mem_append_right _ (.head _))
  refine ⟨fun r hr => ?_, ⟨hhole.start_pos, hhole.start_dvd, hpos, hdvd⟩⟩
  rcases List.mem_append.mp hr with hr | hr
  · exact ha r (List.mem_append_left _ hr)
  · split at hr
    · exact ha r (List.mem_append_right _ (.tail _ hr))
    · rcases List.mem_cons.mp hr with rfl | hr
      · exact ⟨Nat.add_pos_left hhole.start_pos _, Nat.dvd_add hhole.start_dvd hdvd,
          Nat.pos_of_ne_zero (by assumption), Nat.dvd_sub hhole.size_dvd hdvd⟩
      · exact ha r (List.mem_append_right _ (.tail _ hr))

/-! ## Putting a hole in its place -/

theorem cover_joinHole (r : Hole) (holes : List Hole) (x : Nat) :
    cover (joinHole r holes) x = cover (r :: holes) x := by
  unfold joinHole
  split
  · rfl
  · split
    · simp only [cover_cons, Hole.stop] at *
      grind
    · rfl

theorem cover_insertHole (r : Hole) (holes : List Hole) (x : Nat) :
    cover (insertHole r holes) x = cover (r :: holes) x := by
  induction holes with
  | nil => rfl
  | cons next rest ih =>
    unfold insertHole
    split
    · exact cover_joinHole r (next :: rest) x
    · split
      · rw [cover_cons, ih, cover_cons, cover_cons, cover_cons]
        omega
      · rw [cover_joinHole, cover_cons, ih, cover_cons, cover_cons, cover_cons]
        omega

theorem Hole.Aligned.join {r s : Hole} (hr : r.Aligned) (hs : s.Aligned) :
    (⟨r.start, r.size + s.size⟩ : Hole).Aligned :=
  ⟨hr.start_pos, hr.start_dvd, Nat.add_pos_left hr.size_pos _, Nat.dvd_add hr.size_dvd hs.size_dvd⟩

/-- What holds of the given holes and of two joined ones holds of every hole afterwards. -/
theorem forall_joinHole {P : Hole → Prop} {r : Hole} {holes : List Hole}
    (hjoin : ∀ r s, P r → P s → P ⟨r.start, r.size + s.size⟩) (hr : P r)
    (hs : ∀ s ∈ holes, P s) : ∀ s ∈ joinHole r holes, P s := by
  unfold joinHole
  split
  · exact fun s hs => List.mem_singleton.mp hs ▸ hr
  · rename_i next rest
    split
    · intro s hmem
      rcases List.mem_cons.mp hmem with rfl | hmem
      · exact hjoin r next hr (hs next (.head _))
      · exact hs s (.tail _ hmem)
    · intro s hmem
      rcases List.mem_cons.mp hmem with rfl | hmem
      · exact hr
      · exact hs s hmem

theorem forall_insertHole {P : Hole → Prop} {r : Hole} {holes : List Hole}
    (hjoin : ∀ r s, P r → P s → P ⟨r.start, r.size + s.size⟩) (hr : P r)
    (hs : ∀ s ∈ holes, P s) : ∀ s ∈ insertHole r holes, P s := by
  induction holes with
  | nil => exact fun s hs => List.mem_singleton.mp hs ▸ hr
  | cons next rest ih =>
    unfold insertHole
    split
    · exact forall_joinHole hjoin hr hs
    · have hrest := ih fun s hmem => hs s (.tail _ hmem)
      split
      · exact List.forall_mem_cons.mpr ⟨hs next (.head _), hrest⟩
      · exact forall_joinHole hjoin (hs next (.head _)) hrest

theorem aligned_insertHole {r : Hole} {holes : List Hole} (hr : r.Aligned)
    (ha : ∀ s ∈ holes, s.Aligned) : ∀ s ∈ insertHole r holes, s.Aligned :=
  forall_insertHole (fun _ _ => Hole.Aligned.join) hr ha

theorem pos_insertHole {r : Hole} {holes : List Hole} (hr : 0 < r.size)
    (hpos : ∀ s ∈ holes, 0 < s.size) : ∀ s ∈ insertHole r holes, 0 < s.size :=
  forall_insertHole (P := fun s => 0 < s.size) (fun _ _ h _ => Nat.add_pos_left h _) hr hpos

/-- Joining makes no start: whatever bounds the starts of the given holes bounds those of all. -/
theorem le_start_insertHole {r : Hole} {holes : List Hole} {n : Nat} (hr : n ≤ r.start)
    (hs : ∀ s ∈ holes, n ≤ s.start) : ∀ s ∈ insertHole r holes, n ≤ s.start :=
  forall_insertHole (P := fun s => n ≤ s.start) (fun _ _ h _ => h) hr hs

/-- A hole joined with spaced ones, none of which starts before it stops. Only the first of them can
touch it, because the others stand behind a gap. -/
theorem spaced_joinHole {r : Hole} {holes : List Hole} (hs : Spaced holes)
    (hpos : ∀ s ∈ holes, 0 < s.size) (hbehind : ∀ s ∈ holes, r.stop ≤ s.start) :
    Spaced (joinHole r holes) := by
  unfold joinHole
  split
  · exact List.pairwise_singleton _ _
  · rename_i next rest
    obtain ⟨hnext, hrest⟩ := List.pairwise_cons.mp hs
    have hsize := hpos next (.head _)
    split
    · refine List.pairwise_cons.mpr ⟨fun s hs => ?_, hrest⟩
      have := hnext s hs
      simp only [Hole.stop] at *
      omega
    · refine List.pairwise_cons.mpr ⟨fun s hs => ?_, hs⟩
      have hle := hbehind next (.head _)
      rcases List.mem_cons.mp hs with rfl | hs
      · omega
      · have := hnext s hs
        simp only [Hole.stop] at *
        omega

/-- **Insertion keeps the spacing**, for a hole that is apart from the others. -/
theorem spaced_insertHole {r : Hole} {holes : List Hole} (hs : Spaced holes) (hr : 0 < r.size)
    (hpos : ∀ s ∈ holes, 0 < s.size) (hapart : ∀ s ∈ holes, r.Apart s) :
    Spaced (insertHole r holes) := by
  induction holes with
  | nil => exact List.pairwise_singleton _ _
  | cons next rest ih =>
    obtain ⟨hnext, hrest⟩ := List.pairwise_cons.mp hs
    have hsize := hpos next (.head _)
    have hposRest : ∀ s ∈ rest, 0 < s.size := fun s hs => hpos s (.tail _ hs)
    have hside := hapart next (.head _)
    unfold insertHole
    split
    · -- The new hole comes first, so it stops before every other one starts.
      rename_i hle
      refine spaced_joinHole hs hpos fun s hs => ?_
      have hle : r.stop ≤ next.start := by
        unfold Hole.Apart Hole.stop at hside
        unfold Hole.stop
        omega
      rcases List.mem_cons.mp hs with rfl | hs
      · exact hle
      · have := hnext s hs
        unfold Hole.stop at *
        omega
    · rename_i hgt
      have hle : next.stop ≤ r.start := by
        unfold Hole.Apart Hole.stop at hside
        unfold Hole.stop
        omega
      have hspaced := ih hrest hposRest fun s hs => hapart s (.tail _ hs)
      split
      · -- Another hole stands before the new one, and the first stops before that.
        rename_i hbetween
        obtain ⟨second, hsecond, hlt⟩ := (Option.any_eq_true _ _).mp hbetween
        have hgap := hnext second (List.mem_of_mem_head? hsecond)
        have hlt : second.start < r.start := of_decide_eq_true hlt
        exact List.pairwise_cons.mpr ⟨le_start_insertHole (by omega) hnext, hspaced⟩
      · exact spaced_joinHole hspaced (pos_insertHole hr hposRest)
          (le_start_insertHole hle fun s hs => Nat.le_of_lt (hnext s hs))

/-! ## The hole at the top -/

/-- **The hole at the top goes back**: there is none, or it was the last hole. -/
theorem giveBack_cases (top : Nat) (holes : List Hole) :
    (giveBack top holes = (top, holes) ∧ ∀ last, holes.getLast? = some last → last.stop ≠ top) ∨
      ∃ front last, holes = front ++ [last] ∧ last.stop = top ∧
        giveBack top holes = (last.start, front) := by
  unfold giveBack
  cases hlast : holes.getLast? with
  | none => exact .inl ⟨rfl, fun last h => nomatch h⟩
  | some last =>
    by_cases hstop : last.stop = top
    · refine .inr ⟨holes.dropLast, last, ?_, hstop, by simp [hstop]⟩
      exact (List.dropLast_append_getLast? last hlast).symm
    · refine .inl ⟨by simp [hstop], fun last' h => ?_⟩
      exact Option.some.inj h ▸ hstop

theorem giveBack_le (top : Nat) (holes : List Hole) : (giveBack top holes).1 ≤ top := by
  rcases giveBack_cases top holes with ⟨heq, -⟩ | ⟨front, last, -, hstop, heq⟩
  · exact Nat.le_of_eq (congrArg Prod.fst heq)
  · rw [heq, ← hstop]
    exact Nat.le_add_right _ _

/-! ## Objects and tombstones -/

@[simp] theorem keptBeside_checked (start : Nat) (objects : List Object) :
    keptBeside start objects = objects := rfl

theorem insertObject_perm (o : Object) (objects : List Object) :
    (insertObject o objects).Perm (o :: objects) := by
  induction objects with
  | nil => exact List.Perm.refl _
  | cons next rest ih =>
    unfold insertObject
    split
    · exact List.Perm.refl _
    · exact (ih.cons next).trans (List.Perm.swap o next rest)

/-- The objects by increasing start. -/
def Sorted (objects : List Object) : Prop := objects.Pairwise fun o p => o.start < p.start

theorem sorted_insertObject {o : Object} {objects : List Object} (hs : Sorted objects)
    (hne : ∀ p ∈ objects, o.start ≠ p.start) : Sorted (insertObject o objects) := by
  induction objects with
  | nil => exact List.pairwise_singleton _ _
  | cons next rest ih =>
    obtain ⟨hnext, hrest⟩ := List.pairwise_cons.mp hs
    unfold insertObject
    split
    · rename_i hlt
      refine List.pairwise_cons.mpr ⟨fun p hp => ?_, hs⟩
      rcases List.mem_cons.mp hp with rfl | hp
      · exact hlt
      · exact Nat.lt_trans hlt (hnext p hp)
    · rename_i hge
      refine List.pairwise_cons.mpr ⟨fun p hp => ?_, ih hrest fun p hp => hne p (.tail _ hp)⟩
      rcases List.mem_cons.mp ((insertObject_perm o rest).mem_iff.mp hp) with rfl | hp
      · have := hne next (.head _)
        omega
      · exact hnext p hp

/-- Two objects of a sorted list with one start are one. -/
theorem Sorted.eq_of_start {objects : List Object} (hs : Sorted objects) {o p : Object}
    (ho : o ∈ objects) (hp : p ∈ objects) (h : o.start = p.start) : o = p := by
  induction objects with
  | nil => cases ho
  | cons next rest ih =>
    obtain ⟨hnext, hrest⟩ := List.pairwise_cons.mp hs
    rcases List.mem_cons.mp ho with rfl | ho' <;> rcases List.mem_cons.mp hp with rfl | hp'
    · rfl
    · exact absurd h (Nat.ne_of_lt (hnext p hp'))
    · exact absurd h.symm (Nat.ne_of_lt (hnext o ho'))
    · exact ih hrest ho' hp'

/-- Leaving out the object of a start takes one object from a sorted list. -/
theorem Sorted.perm_cons_filter {objects : List Object} (hs : Sorted objects) {o : Object}
    (ho : o ∈ objects) : objects.Perm (o :: objects.filter (·.start ≠ o.start)) := by
  induction objects with
  | nil => cases ho
  | cons next rest ih =>
    obtain ⟨hnext, hrest⟩ := List.pairwise_cons.mp hs
    rcases List.mem_cons.mp ho with rfl | ho
    · rw [List.filter_cons_of_neg (by simp), List.filter_eq_self.mpr]
      exact fun p hp => by simpa using (Nat.ne_of_lt (hnext p hp)).symm
    · rw [List.filter_cons_of_pos (by simpa using Nat.ne_of_lt (hnext o ho))]
      exact ((ih hrest ho).cons next).trans (List.Perm.swap o next _)

theorem Sorted.filter {objects : List Object} (hs : Sorted objects) (p : Object → Bool) :
    Sorted (objects.filter p) :=
  List.Pairwise.filter p hs

@[simp] theorem mem_insertTombstone {n x : Nat} {tombstones : List Nat} :
    x ∈ insertTombstone n tombstones ↔ x = n ∨ x ∈ tombstones := by
  induction tombstones with
  | nil => simp [insertTombstone]
  | cons next rest ih =>
    unfold insertTombstone
    split
    · simp
    · split
      · rename_i heq
        simp [heq]
      · simp only [List.mem_cons, ih]
        exact or_left_comm

theorem pairwise_insertTombstone {n : Nat} {tombstones : List Nat}
    (hs : tombstones.Pairwise (· < ·)) : (insertTombstone n tombstones).Pairwise (· < ·) := by
  induction tombstones with
  | nil => exact List.pairwise_singleton _ _
  | cons next rest ih =>
    obtain ⟨hnext, hrest⟩ := List.pairwise_cons.mp hs
    unfold insertTombstone
    split
    · rename_i hlt
      refine List.pairwise_cons.mpr ⟨fun x hx => ?_, hs⟩
      rcases List.mem_cons.mp hx with rfl | hx
      · exact hlt
      · exact Nat.lt_trans hlt (hnext x hx)
    · split
      · exact hs
      · refine List.pairwise_cons.mpr ⟨fun x hx => ?_, ih hrest⟩
        rcases mem_insertTombstone.mp hx with rfl | hx
        · omega
        · exact hnext x hx

end ManagedVm.Heap
