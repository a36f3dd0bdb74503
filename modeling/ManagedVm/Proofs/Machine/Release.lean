import ManagedVm.Machine.Release
import ManagedVm.Proofs.Machine.Exec
import ManagedVm.Proofs.Machine.References

/-!
# Releasing is safe

The release of objects as a loop over a list of targets (`Drains`), one rule for each way in which a
round can go. `release` is that loop: the bound on the rounds that it takes from the number of live
objects is never the reason why it ends (`drains_release`).

On the loop safety is an induction. A round frees at most one object, at a moment when nothing
refers to it; later rounds only make references fewer; so at the end nothing refers to any object
that was freed, whether or not all rounds succeeded. Where a pointer leads is asked of the heap before
the first round (`StillRefers`): afterwards a pointer into a freed object would lead nowhere, and
not be seen.
-/

namespace ManagedVm

/-! ## The loop -/

namespace Machine

/-- The machine after an object was released. -/
def afterRelease (m : Machine) (o : Heap.Object) : Machine :=
  { m with
    heap := m.heap.vacate o
    journal := (m.journal.record (.freed o.address o.kind)).record (.released o.kind o.address) }

/-- The target is an object that could be freed: live and no block of static fields. -/
def Candidate (m : Machine) (target : Address) (o : Heap.Object) : Prop :=
  m.heap.get target = .ok o ∧ o.kind ≠ .statics

/-- **The loop over the targets**, the next one first, with what it leads to. -/
inductive Drains : Machine → List Address → EStateM.Result Error Machine Unit → Prop
  | done (m : Machine) : Drains m [] (.ok () m)
  /-- The target is no object, or a block of static fields. -/
  | skip {m : Machine} {target : Address} {rest : List Address}
      {r : EStateM.Result Error Machine Unit} :
      (∀ o, ¬ m.Candidate target o) → Drains m rest r → Drains m (target :: rest) r
  /-- Something refers to the object. -/
  | keep {m : Machine} {target : Address} {o : Heap.Object} {rest : List Address}
      {r : EStateM.Result Error Machine Unit} :
      m.Candidate target o → m.isReferenced target = .ok true → Drains m rest r →
        Drains m (target :: rest) r
  /-- Not everything that may refer to the object can be read. -/
  | unknown {m : Machine} {target : Address} {o : Heap.Object} {rest : List Address} {e : Error} :
      m.Candidate target o → m.isReferenced target = .error e →
        Drains m (target :: rest) (.error e m)
  /-- The object itself cannot be read. -/
  | unreadable {m : Machine} {target : Address} {o : Heap.Object} {rest : List Address}
      {e : Error} :
      m.Candidate target o → m.isReferenced target = .ok false → m.referencesOf o = .error e →
        Drains m (target :: rest) (.error e m)
  /-- The object is freed, and what it referred to comes next. -/
  | free {m : Machine} {target : Address} {o : Heap.Object} {rest inner : List Address}
      {r : EStateM.Result Error Machine Unit} :
      m.Candidate target o → m.isReferenced target = .ok false → m.referencesOf o = .ok inner →
        Drains (m.afterRelease o) (inner.reverse ++ rest) r → Drains m (target :: rest) r

theorem Candidate.mem {m : Machine} {target : Address} {o : Heap.Object}
    (hc : m.Candidate target o) (inv : m.heap.Inv) : o ∈ m.heap.objects ∧ o.address = target :=
  (Heap.get_eq_ok_iff inv).mp hc.1

/-! ## The function is the loop -/

/-- What the search for the next object to free decides is what the loop does up to there. -/
theorem drains_of_firstDead {m : Machine} (inv : m.heap.Inv) (ws : List Address) :
    match m.firstDead ws with
    | .error e => Drains m ws (.error e m)
    | .ok none => Drains m ws (.ok () m)
    | .ok (some (o, rest)) => m.Candidate o.address o ∧ m.isReferenced o.address = .ok false ∧
        ∀ r, Drains m (o.address :: rest) r → Drains m ws r := by
  induction ws with
  | nil => exact .done m
  | cons target ws ih =>
    -- A target that is passed over leaves the search where the rest of the list starts.
    have passed : (∀ r, Drains m ws r → Drains m (target :: ws) r) →
        match m.firstDead ws with
        | .error e => Drains m (target :: ws) (.error e m)
        | .ok none => Drains m (target :: ws) (.ok () m)
        | .ok (some (o, rest)) => m.Candidate o.address o ∧ m.isReferenced o.address = .ok false ∧
            ∀ r, Drains m (o.address :: rest) r → Drains m (target :: ws) r := by
      intro hpass
      generalize m.firstDead ws = found at ih ⊢
      match found, ih with
      | .error e, ih => exact hpass _ ih
      | .ok none, ih => exact hpass _ ih
      | .ok (some (o, rest)), ⟨hc, href, hrest⟩ => exact ⟨hc, href, fun r hr => hpass r (hrest r hr)⟩
    unfold firstDead
    cases hget : m.heap.get target with
    | error e => exact passed fun r hr => .skip (fun o hc => by cases hget.symm.trans hc.1) hr
    | ok o =>
      dsimp only
      by_cases hstatics : o.kind = .statics
      · rw [if_pos hstatics]
        refine passed fun r hr => .skip (fun p hc => ?_) hr
        cases hget.symm.trans hc.1
        exact hc.2 hstatics
      · rw [if_neg hstatics]
        have hc : m.Candidate target o := ⟨hget, hstatics⟩
        cases href : m.isReferenced target with
        | error e => exact .unknown hc href
        | ok b =>
          cases b with
          | true => exact passed fun r hr => .keep hc href hr
          | false =>
            obtain ⟨-, rfl⟩ := hc.mem inv
            exact ⟨hc, href, fun r hr => hr⟩

/-- Without objects there is nothing to free. -/
theorem drains_of_no_objects {m : Machine} (inv : m.heap.Inv) (hnil : m.heap.objects = [])
    (ws : List Address) : Drains m ws (.ok () m) := by
  induction ws with
  | nil => exact .done m
  | cons target ws ih =>
    refine .skip (fun o hc => ?_) ih
    have hmem := (hc.mem inv).1
    rw [hnil] at hmem
    cases hmem

end Machine

namespace Exec

open Machine

theorem length_vacate {h : Heap} (inv : h.Inv) {o : Heap.Object} (ho : o ∈ h.objects) :
    (h.vacate o).objects.length + 1 = h.objects.length :=
  (inv.sorted.perm_cons_filter ho).length_eq.symm

theorem drains_releaseUpTo {count : Nat} {ws : List Address} {m : Machine} (inv : m.heap.Inv)
    (hcount : m.heap.objects.length ≤ count) : Drains m ws (releaseUpTo count ws m) := by
  induction count generalizing ws m with
  | zero => exact drains_of_no_objects inv (List.length_eq_zero_iff.mp (Nat.le_zero.mp hcount)) ws
  | succ count ih =>
    have hfirst := drains_of_firstDead inv ws
    unfold releaseUpTo
    cases hfound : m.firstDead ws with
    | error e =>
      rw [hfound] at hfirst
      rw [bind_of_error (query_of_error hfound)]
      exact hfirst
    | ok found =>
      rw [hfound] at hfirst
      rw [bind_of_ok (query_of_ok hfound)]
      cases found with
      | none => exact hfirst
      | some found =>
        obtain ⟨o, rest⟩ := found
        obtain ⟨hc, href, hrest⟩ := hfirst
        refine hrest _ ?_
        dsimp only
        cases hinner : m.referencesOf o with
        | error e =>
          rw [bind_of_error (query_of_error hinner)]
          exact .unreadable hc href hinner
        | ok inner =>
          have hmem := (hc.mem inv).1
          rw [bind_of_ok (query_of_ok hinner), bind_of_ok (discard_of_ok (freeObject_of_ok hc.1))]
          refine .free hc href hinner (ih (inv.vacate hmem) ?_)
          have hlength := length_vacate inv hmem
          show (m.heap.vacate o).objects.length ≤ count
          omega

/-- **The function is the loop.** However many targets there are and whatever they refer to, the
loop comes to an end, and with the result of `release`. -/
theorem drains_release {m : Machine} (inv : m.heap.Inv) (targets : List Address) :
    Drains m targets.reverse (release targets m) :=
  drains_releaseUpTo inv (Nat.le_refl _)

end Exec

/-! ## Safety -/

namespace Machine

open Exec (outcome)

variable {m₀ m : Machine}

/-- **One round**: freeing an object leaves a machine less that object. -/
theorem Shrunk.afterRelease (inv : m.heap.Inv) {o : Heap.Object} (ho : o ∈ m.heap.objects) :
    Shrunk m (m.afterRelease o) :=
  ⟨rfl, .vacate inv ho⟩

theorem Drains.shrunk {ws : List Address} {r : EStateM.Result Error Machine Unit}
    (hd : Drains m ws r) (inv : m.heap.Inv) : Shrunk m (outcome r) := by
  induction hd with
  | done m => exact .refl inv
  | skip _ _ ih => exact ih inv
  | keep _ _ _ ih => exact ih inv
  | unknown => exact .refl inv
  | unreadable => exact .refl inv
  | free hc _ _ _ ih =>
    have hs := Shrunk.afterRelease inv (hc.mem inv).1
    exact hs.trans (ih hs.heap.after)

theorem Drains.keeps_statics {ws : List Address} {r : EStateM.Result Error Machine Unit}
    (hd : Drains m ws r) (inv : m.heap.Inv) {o : Heap.Object} (ho : o ∈ m.heap.objects)
    (hstatics : o.kind = .statics) : o ∈ (outcome r).heap.objects := by
  induction hd with
  | done m => exact ho
  | skip _ _ ih => exact ih inv ho
  | keep _ _ _ ih => exact ih inv ho
  | unknown => exact ho
  | unreadable => exact ho
  | free hc _ _ _ ih =>
    obtain ⟨hmem, -⟩ := hc.mem inv
    refine ih (inv.vacate hmem) ((Heap.mem_objects_vacate inv hmem).mpr ⟨ho, ?_⟩)
    rintro rfl
    exact hc.2 hstatics

/-- A reference is held somewhere: by a root or by a live object, the object itself included. -/
def Refers (m : Machine) (target : Address) : Prop :=
  m.RootRefers target ∨ ∃ o ∈ m.heap.objects, m.ObjectRefers o target

/-- **A reference to an object is left over**: a root holds it, or an object that the second machine
still has. It is the first machine that says where pointers lead, so a pointer into an object that
was freed in between counts as a reference to it. -/
def StillRefers (m₀ m : Machine) (target : Address) : Prop :=
  m₀.RootRefers target ∨ ∃ o ∈ m.heap.objects, m₀.ObjectRefers o target

theorem Refers.stillRefers (hs : Shrunk m₀ m) {target : Address} (h : m.Refers target) :
    StillRefers m₀ m target := by
  rcases h with h | ⟨o, ho, h⟩
  · exact .inl (h.of_shrunk hs)
  · exact .inr ⟨o, ho, h.of_shrunk hs⟩

theorem StillRefers.refers (hs : Shrunk m₀ m) {target : Address} (h : StillRefers m₀ m target) :
    m₀.Refers target := by
  rcases h with h | ⟨o, ho, h⟩
  · exact .inl h
  · exact .inr ⟨o, hs.heap.objects o ho, h⟩

theorem Shrunk.typed (hs : Shrunk m₀ m) (htyped : m₀.Typed) : m.Typed := by
  have himage := congrArg Machine.image hs.rest
  unfold Typed at htyped ⊢
  rw [hs.types, ← htyped]
  exact congrArg TypeTable.ofImage himage

/-- **Nothing refers to what was freed**, as pointers led before the first round. When an object is
freed every root and every other object was looked at, and later rounds leave fewer objects. -/
theorem Drains.not_stillRefers {ws : List Address} {r : EStateM.Result Error Machine Unit}
    (hd : Drains m ws r) (hs : Shrunk m₀ m) (htyped : m.Typed) {o : Heap.Object}
    (ho : o ∈ m.heap.objects) (hgone : o ∉ (outcome r).heap.objects) :
    ¬ StillRefers m₀ (outcome r) o.address := by
  induction hd with
  | done m => exact absurd ho hgone
  | skip _ _ ih => exact ih hs htyped ho hgone
  | keep _ _ _ ih => exact ih hs htyped ho hgone
  | unknown => exact absurd ho hgone
  | unreadable => exact absurd ho hgone
  | @free m target p rest inner r hc href _ hrest ih =>
    have inv := hs.heap.after
    obtain ⟨hmem, rfl⟩ := hc.mem inv
    have hstep := Shrunk.afterRelease inv hmem
    by_cases heq : o = p
    · subst heq
      obtain ⟨hroot, hobjects⟩ := not_referenced_of_isReferenced hs htyped ⟨o, ho, rfl⟩ href
      rintro (h | ⟨q, hq, h⟩)
      · exact hroot h
      · -- The freed object is not among those left, so this is another one.
        have hleft := (hrest.shrunk hstep.heap.after).heap.objects q hq
        obtain ⟨hq, hne⟩ := (Heap.mem_objects_vacate inv hmem).mp hleft
        exact hobjects q hq (fun haddress => hne (inv.eq_of_address hq hmem haddress)) h
    · exact ih (hs.trans hstep) (hstep.typed htyped)
        ((Heap.mem_objects_vacate inv hmem).mpr ⟨ho, heq⟩) hgone

/-- The bytes of an object that is left are in range, and what they were. -/
theorem Shrunk.bytes (hs : Shrunk m₀ m) {o : Heap.Object} (ho : o ∈ m.heap.objects) :
    ∃ data, m.heap.bytes o.address o.size = .ok data ∧ m₀.heap.bytes o.address o.size = .ok data := by
  have hrange : ∀ {h : Heap}, h.Inv → o ∈ h.objects → h.inRange o.address o.size = true := by
    intro h inv ho
    obtain ⟨hge, hstop⟩ := inv.bounds (Heap.region_mem ho)
    have hspace := (Heap.isForeign_eq_false.mp
      (Heap.get_eq_ok ((Heap.get_eq_ok_iff inv).mpr ⟨ho, rfl⟩)).2.2).1
    have hsize := Heap.le_reserved o.size
    have htop := inv.top_le_arena (Heap.region_mem ho)
    simp only [Heap.Object.region, Heap.Hole.stop, Heap.Object.start] at hge hstop
    exact Heap.inRange_iff.mpr ⟨hspace, hge, by omega, by omega⟩
  refine ⟨m.heap.arena.read o.address.offset o.size, ?_, ?_⟩
  · exact if_pos (hrange hs.heap.after ho)
  · rw [hs.heap.arena]
    exact if_pos (hrange hs.heap.before (hs.heap.objects o ho))

/-- Four instances of a class with a reference and a pointer. The first refers to the second; the
second refers to the fourth and points into the third; the third refers to itself; the fourth is
held by a value in flight. -/
def linkedNodes : Machine :=
  let image : Image :=
    { types := #[
        { name := "Node", category := .object, fields := [⟨"next", 0, false⟩, ⟨"inner", 1, false⟩] },
        { name := "Node*", category := .pointer, underlying := some 0 }] }
  { image
    types := (TypeTable.ofImage image).toOption.getD {}
    heap := [.allocate 16 ⟨0⟩ .object, .allocate 16 ⟨0⟩ .object, .allocate 16 ⟨0⟩ .object,
      .allocate 16 ⟨0⟩ .object, .write (.heap 8) (Address.heap 24).toBytes,
      .write (.heap 24) (Address.heap 56).toBytes, .write (.heap 32) (Address.heap 44).toBytes,
      .write (.heap 40) (Address.heap 40).toBytes].foldl Heap.after
        { settings := { initialSize := 128 }, arena := .zeroed 128 }
    stack := .create 0 0
    inFlight := [.reference ⟨0⟩ (.heap 56)] }

theorem linkedNodes_reached : Heap.Reached { initialSize := 128 } linkedNodes.heap :=
  Heap.Reached.foldl_after (.created (by decide +kernel)) (by decide) _

theorem linkedNodes_typed : linkedNodes.Typed := by
  unfold Typed
  decide +kernel

end Machine

end ManagedVm
