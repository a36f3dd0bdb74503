import ManagedVm.Proofs.Heap.Invariant

/-!
# Finding objects

What the lookups of the heap find, said by the table of objects alone: the object that starts at an
address, and the one that an address points into. Regions are apart, so the second is unique, and
which it is does not depend on the other objects.
-/

namespace ManagedVm.Heap

theorem le_reserved (size : Nat) : size ≤ reserved size := by
  simp only [reserved, Size.word_checked, padded, alignment]
  omega

/-- An address is foreign, or it is the heap address of an offset that is not zero. -/
theorem isForeign_eq_false {a : Address} : isForeign a = false ↔ a.space = .heap ∧ a.isNull = false := by
  simp [isForeign]

theorem get_eq_ok_iff {h : Heap} (inv : h.Inv) {a : Address} {o : Object} :
    h.get a = .ok o ↔ o ∈ h.objects ∧ o.address = a := by
  constructor
  · intro e
    obtain ⟨hmem, hstart, hforeign⟩ := get_eq_ok e
    refine ⟨hmem, ?_⟩
    rw [inv.keyed o hmem, hstart, Address.heap_offset (isForeign_eq_false.mp hforeign).1]
  · rintro ⟨hmem, rfl⟩
    obtain ⟨hge, hstop⟩ := inv.bounds (region_mem hmem)
    have hlt : o.start < Address.stackStart.toNat := by
      have hpos := (inv.aligned _ (region_mem hmem)).size_pos
      have := inv.short
      simp only [Object.region, Hole.stop] at *
      omega
    have hspace : o.address.space = .heap := inv.keyed o hmem ▸ Address.space_heap hlt
    have hnull : o.address.isNull = false :=
      Address.isNull_eq_false (.inr (inv.aligned _ (region_mem hmem)).start_pos)
    have hforeign : isForeign o.address = false := isForeign_eq_false.mpr ⟨hspace, hnull⟩
    have hfind : h.objectAt? o.address.offset = some o := inv.objectAt?_start hmem
    unfold get
    rw [if_neg (by simp [hforeign]), hfind]

/-- Objects at one address are one. -/
theorem Inv.eq_of_address {h : Heap} (inv : h.Inv) {o p : Object} (ho : o ∈ h.objects)
    (hp : p ∈ h.objects) (heq : o.address = p.address) : o = p :=
  inv.sorted.eq_of_start ho hp (congrArg Address.offset heq)

/-- Different objects have no byte in common. -/
theorem Inv.apart {h : Heap} (inv : h.Inv) {o p : Object} (ho : o ∈ h.objects) (hp : p ∈ h.objects)
    (hne : o ≠ p) : o.region.Apart p.region := by
  have hapart := inv.tiled.pairwise_apart fun r hr => (inv.aligned r hr).size_pos
  have hobjects := List.pairwise_map.mp (List.pairwise_append.mp hapart).1
  have hflip : h.objects.Pairwise fun o p => p.region.Apart o.region := hobjects.imp Or.symm
  exact List.Pairwise.forall_of_forall_of_flip (R := fun o p => o = p ∨ o.region.Apart p.region)
    (fun _ _ => .inl rfl) (hobjects.imp .inr) (hflip.imp .inr) ho hp |>.resolve_left hne

/-- The greatest element of a sorted list is its last one. -/
theorem Sorted.getLast?_eq {objects : List Object} (hs : Sorted objects) {o : Object}
    (ho : o ∈ objects) (hmax : ∀ p ∈ objects, p.start ≤ o.start) : objects.getLast? = some o := by
  cases hlast : objects.getLast? with
  | none =>
    rw [List.getLast?_eq_none_iff.mp hlast] at ho
    cases ho
  | some last =>
    have hsplit := List.dropLast_append_getLast? last hlast
    have hle := hmax last (List.mem_of_getLast? hlast)
    rw [← hsplit] at ho hs
    rcases List.mem_append.mp ho with ho | ho
    · have hlt := (List.pairwise_append.mp hs).2.2 o ho last (.head _)
      omega
    · rw [List.mem_singleton.mp ho]

/-- **The object an address points into** is the live one that has the byte, or starts at it. -/
theorem containing?_eq_some_iff {h : Heap} (inv : h.Inv) {a : Address} {o : Object} :
    h.containing? a = some o ↔ isForeign a = false ∧ o ∈ h.objects ∧ o.start ≤ a.offset ∧
      (a.offset = o.start ∨ a.offset < o.start + o.size) := by
  unfold containing?
  by_cases hforeign : isForeign a = true
  · simp [hforeign]
  · rw [if_neg hforeign]
    dsimp only
    constructor
    · intro e
      split at e
      · rename_i p hp
        split at e
        · rename_i hrange
          cases e
          obtain ⟨hmem, hle⟩ := List.mem_filter.mp (List.mem_of_getLast? hp)
          exact ⟨Bool.eq_false_iff.mpr hforeign, hmem, of_decide_eq_true hle, hrange⟩
        · cases e
      · cases e
    · rintro ⟨-, hmem, hle, hrange⟩
      have hlast : (h.objects.filter (·.start ≤ a.offset)).getLast? = some o := by
        refine (inv.sorted.filter _).getLast?_eq
          (List.mem_filter.mpr ⟨hmem, decide_eq_true hle⟩) fun p hp => ?_
        -- An object that starts later would start inside the region of this one.
        obtain ⟨hp, hpa⟩ := List.mem_filter.mp hp
        have hpa := of_decide_eq_true hpa
        by_cases heq : p = o
        · exact heq ▸ Nat.le_refl _
        · have hside := inv.apart hmem hp (Ne.symm heq)
          have hsize := le_reserved o.size
          have hpos := (reserved_aligned o.size).1
          have hpos' := (reserved_aligned p.size).1
          simp only [Hole.Apart, Hole.stop, Object.region] at hside
          omega
      rw [hlast]
      exact if_pos hrange

/-! ## What is left of a heap -/

/-- **The second heap is the first after some of its objects have been freed.** -/
structure Shrunk (h₀ h : Heap) : Prop where
  before : h₀.Inv
  after : h.Inv
  settings : h.settings = h₀.settings
  arena : h.arena = h₀.arena
  allocations : h.allocations = h₀.allocations
  top_le : h.top ≤ h₀.top
  objects : ∀ o ∈ h.objects, o ∈ h₀.objects
  tombstones : ∀ x, x ∈ h.tombstones ↔
    x ∈ h₀.tombstones ∨ ∃ o ∈ h₀.objects, o ∉ h.objects ∧ o.start = x

theorem Shrunk.refl {h : Heap} (inv : h.Inv) : Shrunk h h :=
  { before := inv
    after := inv
    settings := rfl
    arena := rfl
    allocations := rfl
    top_le := Nat.le_refl _
    objects := fun _ ho => ho
    tombstones := fun _ => ⟨.inl, fun hx => hx.resolve_right fun ⟨_, ho, hgone, _⟩ => hgone ho⟩ }

theorem Shrunk.trans {h₀ h₁ h : Heap} (hs : Shrunk h₀ h₁) (hs' : Shrunk h₁ h) : Shrunk h₀ h :=
  { before := hs.before
    after := hs'.after
    settings := hs'.settings.trans hs.settings
    arena := hs'.arena.trans hs.arena
    allocations := hs'.allocations.trans hs.allocations
    top_le := Nat.le_trans hs'.top_le hs.top_le
    objects := fun o ho => hs.objects o (hs'.objects o ho)
    tombstones := fun x => by
      rw [hs'.tombstones, hs.tombstones]
      constructor
      · rintro ((hx | ⟨o, ho, hgone, heq⟩) | ⟨o, ho, hgone, heq⟩)
        · exact .inl hx
        · exact .inr ⟨o, ho, fun hmem => hgone (hs'.objects o hmem), heq⟩
        · exact .inr ⟨o, hs.objects o ho, hgone, heq⟩
      · rintro (hx | ⟨o, ho, hgone, heq⟩)
        · exact .inl (.inl hx)
        · by_cases hmem : o ∈ h₁.objects
          · exact .inr ⟨o, hmem, hgone, heq⟩
          · exact .inl (.inr ⟨o, ho, hmem, heq⟩) }

theorem mem_objects_vacate {h : Heap} (inv : h.Inv) {o p : Object} (ho : o ∈ h.objects) :
    p ∈ (h.vacate o).objects ↔ p ∈ h.objects ∧ p ≠ o := by
  have hiff : p ∈ (h.vacate o).objects ↔ p ∈ h.objects ∧ p.start ≠ o.start := by
    simp [vacate]
  rw [hiff]
  refine and_congr_right fun hp => not_congr ⟨fun heq => ?_, fun heq => heq ▸ rfl⟩
  exact inv.sorted.eq_of_start hp ho heq

theorem mem_occupy {h : Heap} {p : Plan} {size : Nat} {type : TypeId} {kind : ObjectKind}
    {o : Object} : o ∈ (h.occupy p size type kind).objects ↔
      o = ⟨.heap p.start, type, size, kind⟩ ∨ o ∈ h.objects :=
  (insertObject_perm _ _).mem_iff.trans List.mem_cons

/-- **Which objects are live after a call**: those before, with a new one after an allocation and
without one after freeing it. -/
theorem mem_after {h : Heap} (inv : h.Inv) (c : Call) {o : Object} :
    (o ∈ (h.after c).objects → o ∈ h.objects ∨ ∃ size type kind a,
      c = .allocate size type kind ∧ o = ⟨a, type, size, kind⟩) ∧
    (o ∈ h.objects → o ∈ (h.after c).objects ∨ ∃ a, c = .free a ∧ h.get a = .ok o) := by
  cases hrun : c.run h with
  | error e =>
    have hsame : h.after c = h := by
      unfold after
      rw [hrun]
    rw [hsame]
    exact ⟨.inl, .inl⟩
  | ok h' =>
    have hafter : h.after c = h' := by
      unfold after
      rw [hrun]
    rw [hafter]
    cases c with
    | allocate size type kind =>
      obtain ⟨⟨a, h₁⟩, hallocate, rfl⟩ := except_map_ok.mp hrun
      obtain ⟨p, -, -, rfl⟩ := allocate_eq_ok hallocate
      constructor
      · intro ho
        rcases mem_occupy.mp ho with rfl | ho
        · exact .inr ⟨size, type, kind, _, rfl, rfl⟩
        · exact .inl ho
      · exact fun ho => .inl (mem_occupy.mpr (.inr ho))
    | free a =>
      obtain ⟨⟨p, h₁⟩, hfree, rfl⟩ := except_map_ok.mp hrun
      obtain ⟨hget, rfl⟩ := free_eq_ok hfree
      have hp := (get_eq_ok hget).1
      constructor
      · exact fun ho => .inl ((mem_objects_vacate inv hp).mp ho).1
      · intro ho
        by_cases heq : o = p
        · exact .inr ⟨a, rfl, heq ▸ hget⟩
        · exact .inl ((mem_objects_vacate inv hp).mpr ⟨ho, heq⟩)
    | write a data =>
      dsimp only [Call.run, Heap.write] at hrun
      split at hrun
      · cases hrun
        exact ⟨.inl, .inl⟩
      · cases hrun
    | change a length new =>
      obtain ⟨bytes, -, rfl⟩ := except_map_ok.mp hrun
      exact ⟨.inl, .inl⟩

/-- **One step**: freeing a live object. -/
theorem Shrunk.vacate {h : Heap} (inv : h.Inv) {o : Object} (ho : o ∈ h.objects) :
    Shrunk h (h.vacate o) where
  before := inv
  after := inv.vacate ho
  settings := rfl
  arena := rfl
  allocations := rfl
  top_le := giveBack_le _ _
  objects := fun p hp => ((mem_objects_vacate inv ho).mp hp).1
  tombstones := fun x => by
    have hmem : x ∈ (h.vacate o).tombstones ↔ x = o.start ∨ x ∈ h.tombstones :=
      mem_insertTombstone
    rw [hmem, or_comm]
    refine or_congr_right ⟨?_, ?_⟩
    · rintro rfl
      exact ⟨o, ho, fun hgone => ((mem_objects_vacate inv ho).mp hgone).2 rfl, rfl⟩
    · rintro ⟨p, hp, hgone, rfl⟩
      by_cases heq : p = o
      · rw [heq]
      · exact absurd ((mem_objects_vacate inv ho).mpr ⟨hp, heq⟩) hgone

end ManagedVm.Heap
