import Mathlib.Order.Bounds.Basic
import ManagedVm.Proofs.Heap.Canonical
import ManagedVm.Proofs.Machine.Release

/-!
# Releasing does not depend on the order

What a release frees, said without the loop: the least set of objects with which no object is left
that was asked for, or that a freed object refers to, and that only freed objects refer to
(`ReleaseClosed`). A target that is passed over because something refers to it is not forgotten: when
the last object that refers to it is freed, it is a target again (`Drains.kept_of_mem`).

The least set depends on which targets there are and not on their order or number, and the heap is
determined by the objects that are left; so is the machine, but for the journal, which tells the
order.
-/

namespace ManagedVm.Machine

open Exec (outcome)

variable {m₀ m m' : Machine}

/-- **The set is closed under becoming garbage.** It holds only objects that may be freed, and every
object that is a target or referred to from the set, and that nothing outside the set refers to but
the object itself. -/
structure ReleaseClosed (m : Machine) (targets : List Address) (freed : Set Heap.Object) : Prop where
  live : ∀ o ∈ freed, o ∈ m.heap.objects ∧ o.kind ≠ .statics
  closed : ∀ o ∈ m.heap.objects, o.kind ≠ .statics →
    (o.address ∈ targets ∨ ∃ p ∈ freed, m.ObjectRefers p o.address) →
    ¬ m.RootRefers o.address →
    (∀ p ∈ m.heap.objects, p ≠ o → m.ObjectRefers p o.address → p ∈ freed) → o ∈ freed

theorem ReleaseClosed.congr {targets targets' : List Address} {freed : Set Heap.Object}
    (hiff : ∀ a, a ∈ targets ↔ a ∈ targets') (h : m.ReleaseClosed targets freed) :
    m.ReleaseClosed targets' freed :=
  ⟨h.live, fun o ho hkind hwhy => h.closed o ho hkind (hwhy.imp_left (hiff _).mpr)⟩

/-! ## What is freed had to be -/

/-- **The loop frees nothing outside a closed set**, as long as all its targets were asked for or are
referred to from the set. -/
theorem Drains.mem_of_closed {targets ws : List Address} {freed : Set Heap.Object}
    {r : EStateM.Result Error Machine Unit} (hd : Drains m ws r) (hs : Shrunk m₀ m)
    (htyped : m₀.Typed) (hclosed : m₀.ReleaseClosed targets freed)
    (hws : ∀ a ∈ ws, a ∈ targets ∨ ∃ p ∈ freed, m₀.ObjectRefers p a)
    (hgone : ∀ o ∈ m₀.heap.objects, o ∉ m.heap.objects → o ∈ freed) {o : Heap.Object}
    (ho : o ∈ m₀.heap.objects) (hfreed : o ∉ (outcome r).heap.objects) : o ∈ freed := by
  induction hd with
  | done m => exact hgone o ho hfreed
  | skip _ _ ih => exact ih hs (fun a ha => hws a (.tail _ ha)) hgone hfreed
  | keep _ _ _ ih => exact ih hs (fun a ha => hws a (.tail _ ha)) hgone hfreed
  | unknown => exact hgone o ho hfreed
  | unreadable => exact hgone o ho hfreed
  | @free m target p rest inner r hc href hinner _ ih =>
    obtain ⟨hmem, rfl⟩ := hc.mem hs.heap.after
    have hmem₀ := hs.heap.objects p hmem
    obtain ⟨hroot, hothers⟩ :=
      not_referenced_of_isReferenced hs (hs.typed htyped) ⟨p, hmem, rfl⟩ href
    -- Whatever referred to the object at the start is gone by now, hence in the set.
    have hp : p ∈ freed := by
      refine hclosed.closed p hmem₀ hc.2 (hws _ (.head _)) hroot fun q hq hne hrefers => ?_
      refine hgone q hq fun hqm => hothers q hqm (fun haddress => hne ?_) hrefers
      exact hs.heap.before.eq_of_address hq hmem₀ haddress
    have hstep := Shrunk.afterRelease hs.heap.after hmem
    refine ih (hs.trans hstep) (fun a ha => ?_) (fun q hq hqgone => ?_) hfreed
    · rcases List.mem_append.mp ha with ha | ha
      · exact .inr ⟨p, hp, (objectRefers_of_mem hinner (List.mem_reverse.mp ha)).of_shrunk hs⟩
      · exact hws a (.tail _ ha)
    · by_cases heq : q = p
      · exact heq ▸ hp
      · refine hgone q hq fun hqm => hqgone ?_
        exact (Heap.mem_objects_vacate hs.heap.after hmem).mpr ⟨hqm, heq⟩

/-! ## What had to be freed is -/

/-- A root or another object of the second machine refers to the object. -/
def KeptBy (m₀ m : Machine) (o : Heap.Object) : Prop :=
  m₀.RootRefers o.address ∨ ∃ p ∈ m.heap.objects, p ≠ o ∧ m₀.ObjectRefers p o.address

/-- **No target is forgotten.** An object that is left when the loop has ended well, and that was a
target or is referred to from an object that the loop freed, is kept by something that is left. -/
theorem Drains.kept_of_mem {ws : List Address} {r : EStateM.Result Error Machine Unit}
    (hd : Drains m ws r) (hr : r = .ok () m') (hs : Shrunk m₀ m) (htyped : m₀.Typed)
    {o : Heap.Object} (ho : o ∈ m'.heap.objects) (hkind : o.kind ≠ .statics)
    (hwhy : o.address ∈ ws ∨
      ∃ q ∈ m.heap.objects, q ∉ m'.heap.objects ∧ m₀.ObjectRefers q o.address) :
    KeptBy m₀ m' o := by
  induction hd with
  | done m =>
    cases hr
    rcases hwhy with hnil | ⟨q, hq, hgone, -⟩
    · cases hnil
    · exact absurd hq hgone
  | unknown => cases hr
  | unreadable => cases hr
  | @skip m target rest r hnone hrest ih =>
    refine ih hr hs (hwhy.imp_left fun ha => ?_)
    refine (List.mem_cons.mp ha).resolve_left ?_
    rintro rfl
    have hleft : Shrunk m m' := by simpa [hr] using hrest.shrunk hs.heap.after
    exact hnone o ⟨(Heap.get_eq_ok_iff hs.heap.after).mpr ⟨hleft.heap.objects o ho, rfl⟩, hkind⟩
  | @keep m target p rest r hc href _ ih =>
    rcases hwhy with ha | hwhy
    · rcases List.mem_cons.mp ha with rfl | ha
      · rcases referenced_of_isReferenced href with hroot | ⟨q, hq, hne, hrefers⟩
        · exact .inl (hroot.of_shrunk hs)
        · -- What refers to it now is left, or it is freed later and makes it a target again.
          have hrefers₀ := hrefers.of_shrunk hs
          by_cases hleft : q ∈ m'.heap.objects
          · exact .inr ⟨q, hleft, fun heq => hne (heq ▸ rfl), hrefers₀⟩
          · exact ih hr hs (.inr ⟨q, hq, hleft, hrefers₀⟩)
      · exact ih hr hs (.inl ha)
    · exact ih hr hs (.inr hwhy)
  | @free m target p rest inner r hc href hinner hrest ih =>
    obtain ⟨hmem, rfl⟩ := hc.mem hs.heap.after
    have hstep := Shrunk.afterRelease hs.heap.after hmem
    have hleft : Shrunk (m.afterRelease p) m' := by simpa [hr] using hrest.shrunk hstep.heap.after
    obtain ⟨hom, hne⟩ :=
      (Heap.mem_objects_vacate hs.heap.after hmem).mp (hleft.heap.objects o ho)
    refine ih hr (hs.trans hstep) ?_
    rcases hwhy with ha | ⟨q, hq, hgone, hrefers⟩
    · refine .inl (List.mem_append_right _ ((List.mem_cons.mp ha).resolve_left fun haddress => hne ?_))
      exact hs.heap.after.eq_of_address hom hmem haddress
    · by_cases heq : q = p
      · have hin := mem_of_objectRefers hs (hs.typed htyped) hinner (heq ▸ hrefers) ⟨o, hom, rfl⟩
        exact .inl (List.mem_append_left _ (List.mem_reverse.mpr hin))
      · exact .inr ⟨q, (Heap.mem_objects_vacate hs.heap.after hmem).mpr ⟨hq, heq⟩, hgone, hrefers⟩

/-! ## The whole release -/

/-- The objects of the first machine that the second one does not have. -/
def freed (m m' : Machine) : Set Heap.Object := {o | o ∈ m.heap.objects ∧ o ∉ m'.heap.objects}

/-- **A release frees the least closed set.** -/
theorem isLeast_freed (inv : m.heap.Inv) (htyped : m.Typed) {targets : List Address}
    (h : Exec.release targets m = .ok () m') :
    IsLeast {F | m.ReleaseClosed targets F} (m.freed m') := by
  have hd := Exec.drains_release inv targets
  rw [h] at hd
  have hs : Shrunk m m' := hd.shrunk inv
  refine ⟨⟨fun o ho => ⟨ho.1, fun hstatics => ?_⟩, fun o ho hkind hwhy hroot hothers => ?_⟩, ?_⟩
  · exact ho.2 (hd.keeps_statics inv ho.1 hstatics)
  · refine ⟨ho, fun hleft => ?_⟩
    have hkept : KeptBy m m' o := by
      refine hd.kept_of_mem rfl (.refl inv) htyped hleft hkind ?_
      rcases hwhy with ha | ⟨p, hp, hrefers⟩
      · exact .inl (List.mem_reverse.mpr ha)
      · exact .inr ⟨p, hp.1, hp.2, hrefers⟩
    rcases hkept with h | ⟨p, hp, hne, hrefers⟩
    · exact hroot h
    · exact (hothers p (hs.heap.objects p hp) hne hrefers).2 hp
  · intro F hF o ho
    refine hd.mem_of_closed (.refl inv) htyped hF (fun a ha => .inl (List.mem_reverse.mp ha))
      (fun q hq hgone => absurd hq hgone) ho.1 ho.2

theorem Shrunk.mem_iff_not_freed (hs : Shrunk m₀ m) {o : Heap.Object} :
    o ∈ m.heap.objects ↔ o ∈ m₀.heap.objects ∧ o ∉ m₀.freed m := by
  refine ⟨fun ho => ⟨hs.heap.objects o ho, fun hgone => hgone.2 ho⟩, fun ⟨ho, hkept⟩ => ?_⟩
  by_contra hgone
  exact hkept ⟨ho, hgone⟩

/-- The objects that were freed determine the machine, but for the journal. -/
theorem Shrunk.eq_of_freed {m'' : Machine} (hs : Shrunk m m') (hs' : Shrunk m m'')
    (hfreed : m.freed m'' = m.freed m') : { m'' with journal := m'.journal } = m' := by
  have hheap : m''.heap = m'.heap := hs'.heap.eq_of_mem_iff hs.heap fun o => by
    rw [hs'.mem_iff_not_freed, hs.mem_iff_not_freed, hfreed]
  have hrest := hs'.rest.trans hs.rest.symm
  calc { m'' with journal := m'.journal }
      = { { m'' with heap := m.heap, journal := m.journal } with
          heap := m''.heap, journal := m'.journal } := rfl
    _ = { { m' with heap := m.heap, journal := m.journal } with
          heap := m'.heap, journal := m'.journal } := by rw [hrest, hheap]
    _ = m' := rfl

/-- When the last release with the targets has ended well, there is nothing left to free. -/
theorem outcome_eq_of_kept {ws : List Address} {r : EStateM.Result Error Machine Unit}
    (hd : Drains m ws r) (inv : m.heap.Inv)
    (hkept : ∀ o, o.address ∈ ws → m.Candidate o.address o → m.isReferenced o.address ≠ .ok false) :
    outcome r = m := by
  induction hd with
  | done m => rfl
  | skip _ _ ih => exact ih inv fun o ha => hkept o (.tail _ ha)
  | keep _ _ _ ih => exact ih inv fun o ha => hkept o (.tail _ ha)
  | unknown => rfl
  | unreadable => rfl
  | free hc href =>
    obtain ⟨-, rfl⟩ := hc.mem inv
    exact absurd href (hkept _ (.head _) hc)

/-- **Releasing does not depend on the order.** The loop over the targets comes to an end. If it ends
well, what it freed is the least closed set; for the same targets in another order, or some of them
more often, it leaves the same machine, but for the journal; and doing it again changes nothing. -/
theorem release_order_independent {m : Machine} {settings : Heap.Settings}
    (hheap : Heap.Reached settings m.heap) (htyped : m.Typed) (targets : List Address) :
    Drains m targets.reverse (Exec.release targets m) ∧
      ∀ m', Exec.release targets m = .ok () m' →
        IsLeast {F | m.ReleaseClosed targets F} (m.freed m') ∧
        (∀ targets' m'', (∀ a, a ∈ targets' ↔ a ∈ targets) →
          Exec.release targets' m = .ok () m'' → { m'' with journal := m'.journal } = m') ∧
        (Exec.release targets).final m' = m' := by
  have inv := hheap.inv
  have hd := Exec.drains_release inv targets
  refine ⟨hd, fun m' h => ⟨isLeast_freed inv htyped h, fun targets' m'' hiff h' => ?_, ?_⟩⟩
  · have hleast := isLeast_freed inv htyped h
    have hleast' : IsLeast {F | m.ReleaseClosed targets F} (m.freed m'') := by
      have hsame : {F | m.ReleaseClosed targets F} = {F | m.ReleaseClosed targets' F} :=
        Set.ext fun F => ⟨.congr fun a => (hiff a).symm, .congr hiff⟩
      rw [hsame]
      exact isLeast_freed inv htyped h'
    have hs : Shrunk m m' := by simpa [h] using hd.shrunk inv
    have hs' : Shrunk m m'' := by simpa [h'] using (Exec.drains_release inv targets').shrunk inv
    exact hs.eq_of_freed hs' (hleast'.unique hleast)
  · rw [h] at hd
    have hs : Shrunk m m' := hd.shrunk inv
    refine outcome_eq_of_kept (Exec.drains_release hs.heap.after targets) hs.heap.after ?_
    intro o ha hc hdead
    have ho := (hc.mem hs.heap.after).1
    obtain ⟨hroot, hothers⟩ :=
      not_referenced_of_isReferenced hs (hs.typed htyped) ⟨o, ho, rfl⟩ hdead
    rcases hd.kept_of_mem rfl (.refl inv) htyped ho hc.2 (.inl ha) with h | ⟨p, hp, hne, hrefers⟩
    · exact hroot h
    · refine hothers p hp (fun haddress => hne ?_) hrefers
      exact hs.heap.after.eq_of_address hp ho haddress

/-- The first node is garbage, the last one is held by a root. Asked for in this order or the other
one, and one of them twice, the three nodes that only garbage refers to are freed. -/
theorem release_order_independent_linkedNodes :
    ∃ m' m'', Exec.release [.heap 8, .heap 56] linkedNodes = .ok () m' ∧
      Exec.release [.heap 56, .heap 8, .heap 8] linkedNodes = .ok () m'' ∧
      m'.heap.objects.map (·.start) = [56] ∧ m'.heap.holes = [⟨8, 48⟩] ∧
      IsLeast {F | linkedNodes.ReleaseClosed [.heap 8, .heap 56] F} (linkedNodes.freed m') ∧
      { m'' with journal := m'.journal } = m' ∧
      (Exec.release [.heap 8, .heap 56]).final m' = m' := by
  have hnodes : Exec.release [.heap 8, .heap 56] linkedNodes = .ok () _ :=
    Exec.eq_ok_of_value? (by decide +kernel)
  have hnodes' : Exec.release [.heap 56, .heap 8, .heap 8] linkedNodes = .ok () _ :=
    Exec.eq_ok_of_value? (by decide +kernel)
  obtain ⟨-, hall⟩ :=
    release_order_independent linkedNodes_reached linkedNodes_typed [.heap 8, .heap 56]
  obtain ⟨hleast, hsame, hagain⟩ := hall _ hnodes
  refine ⟨_, _, hnodes, hnodes', ?_, ?_, hleast, ?_, hagain⟩
  · decide +kernel
  · decide +kernel
  · exact hsame _ _ (by simp [or_comm]) hnodes'

/-- Two strings beside each other, of which the second has the largest size there is. Without overflow
checks it takes up no byte of the hole that it was put into. -/
def emptied : Machine where
  image := {}
  types := (TypeTable.ofImage {}).toOption.getD {}
  heap := [.allocate 8 ⟨0⟩ .string, .allocate 8 ⟨0⟩ .string, .allocate 8 ⟨0⟩ .string, .free (.heap 16),
    .allocate (UInt64.size - 1) ⟨0⟩ .string].foldl (@Heap.after .unchecked)
      { settings := { initialSize := 64 }, arena := .zeroed 64 }
  stack := .create 0 0

/-- Without overflow checks the order matters: if the region without bytes is given back last, it stays
a hole of its own. -/
theorem emptied_release_order : @Heap.Reached .unchecked { initialSize := 64 } emptied.heap ∧
    emptied.Typed ∧ ∃ m' m'', @Exec.release .unchecked [.heap 8, .heap 16] emptied = .ok () m' ∧
      @Exec.release .unchecked [.heap 16, .heap 8] emptied = .ok () m'' ∧
      m'.heap.holes = [⟨8, 16⟩] ∧ m''.heap.holes = [⟨8, 16⟩, ⟨16, 0⟩] := by
  have hcreated : @Heap.Reached .unchecked { initialSize := 64 }
      { settings := { initialSize := 64 }, arena := .zeroed 64 } :=
    @Heap.Reached.created .unchecked _ _ (by decide +kernel)
  have htyped : emptied.Typed := by
    unfold Typed
    decide +kernel
  refine ⟨@Heap.Reached.foldl_after .unchecked _ _ hcreated (by decide) _, htyped, _, _,
    Exec.eq_ok_of_value? (by decide +kernel), Exec.eq_ok_of_value? (by decide +kernel), ?_, ?_⟩
  · decide +kernel
  · decide +kernel

end ManagedVm.Machine
