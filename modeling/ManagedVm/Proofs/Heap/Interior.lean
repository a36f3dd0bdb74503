import ManagedVm.Proofs.Heap.History

/-!
# Addresses inside objects

A pointer may point anywhere into an object, and the heap finds the object again by the last one that
starts at or before the address. That this one is the right one, and that no other could be, rests on
the regions being apart. An object owns its bytes, or its start if it has none; the rest of its region
is padding. Every other byte below the top is in a hole.

So an address has one owner or none (`interior_of_recorded`). It has none if it is foreign, outside
the part of the arena in use, in a hole or in padding, and for no other reason. The bytes of an object
that was freed have no owner either, until an object that has them is made.
-/

namespace ManagedVm.Heap

/-! ## The bytes of an object -/

/-- The object owns the byte at an offset. One without bytes owns its start. -/
def Object.Owns (o : Object) (x : Nat) : Prop := o.start ≤ x ∧ x < o.start + max o.size 1

/-- The byte at an offset is padding of the object's region. -/
def Object.Pads (o : Object) (x : Nat) : Prop := o.start + max o.size 1 ≤ x ∧ x < o.region.stop

variable {h : Heap} {o p : Object} {a : Address} {x : Nat}

/-- A byte of a region is its object's own, or padding. -/
theorem Object.owns_or_pads_iff (o : Object) (x : Nat) :
    o.Owns x ∨ o.Pads x ↔ o.region.start ≤ x ∧ x < o.region.stop := by
  have hsize := le_reserved o.size
  have hpos := (reserved_aligned o.size).1
  simp only [Object.Owns, Object.Pads, Object.region, Hole.stop]
  omega

theorem Object.not_pads_of_owns (hx : o.Owns x) : ¬ o.Pads x := by
  unfold Object.Owns Object.Pads at *
  omega

theorem Inv.eq_of_region (inv : h.Inv) (ho : o ∈ h.objects) (hp : p ∈ h.objects)
    (hox : o.region.start ≤ x ∧ x < o.region.stop) (hpx : p.region.start ≤ x ∧ x < p.region.stop) :
    o = p := by
  by_contra hne
  have hapart := inv.apart ho hp hne
  unfold Hole.Apart at hapart
  omega

/-- **A byte has at most one owner.** -/
theorem Inv.eq_of_owns (inv : h.Inv) (ho : o ∈ h.objects) (hp : p ∈ h.objects) (hox : o.Owns x)
    (hpx : p.Owns x) : o = p :=
  inv.eq_of_region ho hp ((o.owns_or_pads_iff x).mp (.inl hox)) ((p.owns_or_pads_iff x).mp (.inl hpx))

/-- No byte of a hole is in the region of an object. -/
theorem Inv.hole_apart (inv : h.Inv) (ho : o ∈ h.objects) {r : Hole} (hr : r ∈ h.holes) :
    o.region.Apart r := by
  have hapart := inv.tiled.pairwise_apart fun r hr => (inv.aligned r hr).size_pos
  exact (List.pairwise_append.mp hapart).2.2 _ (List.mem_map_of_mem ho) r hr

/-- **Where a byte lies that no object owns.** -/
theorem Inv.unowned_iff (inv : h.Inv) : (∀ o ∈ h.objects, ¬ o.Owns x) ↔
    x < alignment ∨ h.top ≤ x ∨ (∃ r ∈ h.holes, r.start ≤ x ∧ x < r.stop) ∨
      ∃ o ∈ h.objects, o.Pads x := by
  constructor
  · intro hnone
    by_cases hlow : x < alignment
    · exact .inl hlow
    by_cases hhigh : h.top ≤ x
    · exact .inr (.inl hhigh)
    -- The byte is in one of the tiles, which is a hole or the region of an object.
    obtain ⟨r, hr, hrx⟩ := inv.tiled.mem_iff.mpr ⟨Nat.le_of_not_lt hlow, Nat.lt_of_not_le hhigh⟩
    rcases List.mem_append.mp hr with hr | hr
    · obtain ⟨o, ho, rfl⟩ := List.mem_map.mp hr
      have hpads := ((o.owns_or_pads_iff x).mpr hrx).resolve_left (hnone o ho)
      exact .inr (.inr (.inr ⟨o, ho, hpads⟩))
    · exact .inr (.inr (.inl ⟨r, hr, hrx⟩))
  · intro hplace o ho hx
    have hox := (o.owns_or_pads_iff x).mp (.inl hx)
    obtain ⟨hge, hstop⟩ := inv.bounds (region_mem ho)
    rcases hplace with hlow | hhigh | ⟨r, hr, hrx⟩ | ⟨p, hp, hpads⟩
    · omega
    · omega
    · have hapart := inv.hole_apart ho hr
      unfold Hole.Apart at hapart
      omega
    · obtain rfl := inv.eq_of_region ho hp hox ((p.owns_or_pads_iff x).mp (.inr hpads))
      exact Object.not_pads_of_owns hx hpads

/-! ## The lookup -/

/-- **The lookup finds the owner.** -/
theorem Inv.containing?_iff_owns (inv : h.Inv) : h.containing? a = some o ↔
    (a.space = .heap ∧ a ≠ .null) ∧ o ∈ h.objects ∧ o.Owns a.offset := by
  have hforeign : isForeign a = false ↔ a.space = .heap ∧ a ≠ .null := by
    have hnull : a.isNull = false ↔ a ≠ .null := by
      obtain ⟨raw⟩ := a
      simp [Address.isNull, Address.null]
    rw [isForeign_eq_false, hnull]
  have howns : o.Owns a.offset ↔
      o.start ≤ a.offset ∧ (a.offset = o.start ∨ a.offset < o.start + o.size) := by
    unfold Object.Owns
    omega
  rw [containing?_eq_some_iff inv, hforeign, howns]

theorem Inv.containing?_eq_none_iff (inv : h.Inv) : h.containing? a = none ↔
    a.space ≠ .heap ∨ a = .null ∨ ∀ o ∈ h.objects, ¬ o.Owns a.offset := by
  rw [Option.eq_none_iff_forall_ne_some]
  constructor
  · intro hnone
    by_contra! hother
    obtain ⟨hspace, hnull, o, ho, hx⟩ := hother
    exact hnone o (inv.containing?_iff_owns.mpr ⟨⟨hspace, hnull⟩, ho, hx⟩)
  · intro hplace o hfound
    obtain ⟨⟨hspace, hnull⟩, ho, hx⟩ := inv.containing?_iff_owns.mp hfound
    rcases hplace with h | h | h
    · exact h hspace
    · exact hnull h
    · exact h o ho hx

/-! ## Freed objects -/

variable {settings : Settings} {before since : History}

/-- **Each entry of a history** is what a call answered on the heap that the calls before it had led
to. -/
theorem Recorded.entry {entry : Call × Except Error Answer}
    (hr : Recorded settings (before ++ entry :: since) h) :
    ∃ h₀ c, Recorded settings before h₀ ∧ entry = (c, c.answer h₀) := by
  generalize hall : before ++ entry :: since = history at hr
  induction hr generalizing since with
  | created hcreate => simp at hall
  | @called history h c hr hsize ih =>
    rcases List.eq_nil_or_concat since with rfl | ⟨since', newest, rfl⟩
    · obtain ⟨rfl, hentry⟩ := List.append_inj' hall rfl
      exact ⟨h, c, hr, (List.cons.inj hentry).1⟩
    · rw [List.concat_eq_append, ← List.cons_append, ← List.append_assoc] at hall
      obtain ⟨hall, -⟩ := List.append_inj' hall rfl
      exact ih hall

/-- What is live was made since a moment of the past, or was live at that moment. -/
theorem liveIn_append (hlive : LiveIn (before ++ since) p) : made p ∈ since ∨ LiveIn before p := by
  induction since using List.reverseRecOn with
  | nil => exact .inr (List.append_nil before ▸ hlive)
  | append_singleton since entry ih =>
    rw [← List.append_assoc] at hlive
    rcases liveIn_concat.mp hlive with rfl | ⟨hlive, -⟩
    · exact .inl (by simp)
    · exact (ih hlive).imp_left (List.mem_append_left _)

/-- **The bytes of a freed object have no owner** as long as no object is made that has them. -/
theorem Recorded.unowned_of_freed
    (hr : Recorded settings (before ++ (.free o.address, .ok (.header o)) :: since) h)
    (hx : o.Owns x) (hnew : ∀ p, made p ∈ since → ¬ p.Owns x) : ∀ p ∈ h.objects, ¬ p.Owns x := by
  intro p hp hpx
  obtain ⟨h₀, c, hr₀, hentry⟩ := hr.entry
  have hfreed : o ∈ h₀.objects := by
    obtain ⟨rfl, hanswer⟩ := Prod.mk.inj hentry
    simp only [Call.answer, free_eq_map] at hanswer
    obtain ⟨⟨o', h₁⟩, hfree, heq⟩ := except_map_ok.mp hanswer.symm
    obtain ⟨o'', hget, heq'⟩ := except_map_ok.mp hfree
    cases heq
    cases heq'
    exact (get_eq_ok hget).1
  have hlive : LiveIn (before ++ [(.free o.address, .ok (.header o))] ++ since) p := by
    rw [List.append_assoc]
    exact (hr.tracks.live p).mp hp
  rcases liveIn_append hlive with hmade | hlive
  · exact hnew p hmade hpx
  · -- The other object was live together with the freed one, so it is that one.
    rcases liveIn_concat.mp hlive with hentry | ⟨hlive, -, hkept⟩
    · cases hentry
    · have hp₀ := (hr₀.tracks.live p).mpr hlive
      obtain rfl := hr₀.reached.inv.eq_of_owns hfreed hp₀ hx hpx
      exact hkept o rfl

/-! ## What is found at an address -/

/-- **An address has one owner or none.** -/
structure Interior [Build] (history : History) (h : Heap) (a : Address) : Prop where
  /-- What is found is the live object that owns the byte. -/
  found : ∀ o, h.containing? a = some o ↔
    (a.space = .heap ∧ a ≠ .null) ∧ o ∈ h.objects ∧ o.start ≤ a.offset ∧
      a.offset < o.start + max o.size 1
  /-- There is no other such object. -/
  unique : ∀ o ∈ h.objects, ∀ p ∈ h.objects, o.Owns a.offset → p.Owns a.offset → o = p
  /-- Nothing is found at a foreign address, outside the part in use, in a hole and in padding. -/
  nothing : h.containing? a = none ↔
    (a.space ≠ .heap ∨ a = .null) ∨ a.offset < alignment ∨ h.top ≤ a.offset ∨
      (∃ r ∈ h.holes, r.start ≤ a.offset ∧ a.offset < r.stop) ∨ ∃ o ∈ h.objects, o.Pads a.offset
  /-- Nothing is found in an object that was freed, until one that has the byte is made. -/
  freed : ∀ before o since, history = before ++ (.free o.address, .ok (.header o)) :: since →
    o.Owns a.offset → (∀ p, made p ∈ since → ¬ p.Owns a.offset) → h.containing? a = none

/-- **Addresses find their owners**, after any calls on a heap and for every address. -/
theorem interior_of_recorded {history : History} (hr : Recorded settings history h) (a : Address) :
    Interior history h a := by
  have inv := hr.reached.inv
  constructor
  case found => exact fun o => inv.containing?_iff_owns
  case unique => exact fun o ho p hp => inv.eq_of_owns ho hp
  case nothing =>
    rw [inv.containing?_eq_none_iff, inv.unowned_iff, or_assoc]
  case freed =>
    rintro before o since rfl hx hnew
    rw [inv.containing?_eq_none_iff]
    exact .inr (.inr (hr.unowned_of_freed hx hnew))

/-- An object of three bytes, one of twelve and one without bytes. The second is freed, and a shorter
one is put where it was. Found are the bytes of the first and the start of the third; not found are the
padding behind the first, the bytes of the second that the new object left, and what lies at the top. -/
theorem interior_of_recorded_reused :
    ∃ history h, Recorded { initialSize := 16, maxSize := 64 } history h ∧
      h.holes = [⟨24, 8⟩] ∧ h.top = 40 ∧
      [8, 10, 11, 16, 20, 24, 27, 32, 33, 40].map (fun x => (h.containing? (.heap x)).map (·.start)) =
        [some 8, some 8, none, some 16, some 16, none, none, some 32, none, none] ∧
      ∀ x, Interior history h (.heap x) := by
  have hcreated : Recorded { initialSize := 16, maxSize := 64 } []
      { settings := { initialSize := 16, maxSize := 64 }, arena := .zeroed 16 } :=
    .created (by decide)
  have hfirst := hcreated.called (.allocate 3 ⟨1⟩ .object) (by decide)
  have hsecond := hfirst.called (.allocate 12 ⟨1⟩ .object) (by decide)
  have hthird := hsecond.called (.allocate 0 ⟨1⟩ .object) (by decide)
  have hfreed := hthird.called (.free (.heap 16)) (by decide)
  have hreused := hfreed.called (.allocate 5 ⟨2⟩ .string) (by decide)
  exact ⟨_, _, hreused, by decide, by decide, by decide,
    fun x => interior_of_recorded hreused (.heap x)⟩

/-- Without overflow checks the end of an object of the largest size lies before its start, and its
second byte is not found to be in it. -/
theorem emptied_not_interior :
    let settings : Settings := { initialSize := 64, maxSize := 64 }
    ∃ history h, @Recorded .unchecked settings history h ∧
      h.objects = [⟨.heap 8, ⟨0⟩, UInt64.size - 1, .string⟩] ∧
      @containing? .unchecked h (.heap 9) = none ∧ ¬ @Interior .unchecked history h (.heap 9) := by
  intro settings
  have hcreated : @Recorded .unchecked settings [] { settings, arena := .zeroed 64 } :=
    @Recorded.created .unchecked _ _ (by decide)
  have hlargest := @Recorded.called .unchecked _ _ _ (.allocate (UInt64.size - 1) ⟨0⟩ .string) hcreated
    (by decide)
  refine ⟨_, _, hlargest, by decide, by decide, fun hinterior => ?_⟩
  have hfound := (@Interior.found .unchecked _ _ _ hinterior ⟨.heap 8, ⟨0⟩, UInt64.size - 1, .string⟩).mpr
    ⟨by decide, by decide, by decide, by decide⟩
  exact absurd hfound (by decide)

end ManagedVm.Heap
