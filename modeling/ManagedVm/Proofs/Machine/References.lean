import ManagedVm.Proofs.Heap.Lookup
import ManagedVm.Proofs.Types.Nesting

/-!
# References as a relation

What it means that something refers to an object, said without the scans: a slot refers to the
object whose address it holds or, if it is a pointer, points into; a struct refers to whatever one
of its fields refers to, at any depth. A scan that succeeds lists exactly what is referred to; one
that meets unreadable bytes fails, and then says nothing.

The relations are compared between two machines of which the second is the first less some objects
(`Shrunk`). Freeing leaves all bytes as they are, so what is referred to can only become less
(`RootRefers.of_shrunk`, `ObjectRefers.of_shrunk`); and of what was referred to before, a scan that
still succeeds finds all that is still live (`mem_of_slotRefers` and what follows it).
-/

namespace ManagedVm.Machine

/-! ## The relations -/

/-- **A slot of a type refers to an object**, given by its address. -/
inductive SlotRefers (m : Machine) : Address → TypeId → Address → Prop
  /-- The slot holds the address of the object. -/
  | held {a target : Address} {type : TypeId} :
      (m.descriptor type).category.isReference = true → m.storedAddress a = .ok target →
        target.isNull = false → target.space = .heap → SlotRefers m a type target
  /-- The slot is a pointer into the object. -/
  | pointed {a p : Address} {type : TypeId} {o : Heap.Object} :
      (m.descriptor type).category = .pointer → m.storedAddress a = .ok p →
        m.heap.containing? p = some o → SlotRefers m a type o.address
  /-- The slot is a struct, and one of its fields refers to the object. -/
  | field {a target : Address} {type : TypeId} {f : FieldLayout} :
      (m.descriptor type).category = .struct → f ∈ (m.descriptor type).instanceFields →
        SlotRefers m (a.add f.offset) f.type target → SlotRefers m a type target

/-- A value refers to an object. -/
def ValueRefers (m : Machine) (v : Value) (target : Address) : Prop :=
  match v with
  | .primitive .. => False
  | .struct type a => m.SlotRefers a type target
  | .pointer _ p => ∃ o, m.heap.containing? p = some o ∧ o.address = target
  | .string _ a | .reference _ a | .array _ a => a.isNull = false ∧ a = target

/-- A live object refers to an object, through one of its fields or elements. -/
def ObjectRefers (m : Machine) (o : Heap.Object) (target : Address) : Prop :=
  match o.kind with
  | .string => False
  | .object => ∃ f ∈ (m.descriptor o.type).instanceFields,
      m.SlotRefers (o.address.add f.offset) f.type target
  | .statics => ∃ f ∈ (m.descriptor o.type).staticFields,
      m.SlotRefers (o.address.add f.offset) f.type target
  | .array element length => ∃ i < length,
      m.SlotRefers ((o.address.add lengthSize).add (i * (m.descriptor element).size)) element target

/-- A frame refers to an object, through its instance, a value, a local or an argument. -/
def FrameRefers (m : Machine) (f : Frame) (target : Address) : Prop :=
  (∃ v ∈ f.receiver.toList ++ f.values, m.ValueRefers v target) ∨
    ∃ b ∈ f.locals ++ f.arguments, m.SlotRefers b.address b.type target

/-- **A root refers to an object**: a frame or a value in flight. -/
def RootRefers (m : Machine) (target : Address) : Prop :=
  (∃ f ∈ m.stack.frames, m.FrameRefers f target) ∨ ∃ v ∈ m.inFlight, m.ValueRefers v target

/-! ## What is left of a machine -/

/-- **The second machine is the first less some objects.** -/
structure Shrunk (m₀ m : Machine) : Prop where
  /-- Nothing but the heap and the journal differs. -/
  rest : { m with heap := m₀.heap, journal := m₀.journal } = m₀
  heap : Heap.Shrunk m₀.heap m.heap

namespace Shrunk

variable {m₀ m : Machine}

theorem refl (inv : m.heap.Inv) : Shrunk m m := ⟨rfl, .refl inv⟩

theorem trans {m₁ : Machine} (hs : Shrunk m₀ m₁) (hs' : Shrunk m₁ m) : Shrunk m₀ m := by
  refine ⟨?_, hs.heap.trans hs'.heap⟩
  conv => rhs; rw [← hs.rest, ← hs'.rest]

theorem types (hs : Shrunk m₀ m) : m.types = m₀.types := by
  have heq := congrArg Machine.types hs.rest
  exact heq

theorem stack (hs : Shrunk m₀ m) : m.stack = m₀.stack := by
  have heq := congrArg Machine.stack hs.rest
  exact heq

theorem inFlight (hs : Shrunk m₀ m) : m.inFlight = m₀.inFlight := by
  have heq := congrArg Machine.inFlight hs.rest
  exact heq

theorem descriptor (hs : Shrunk m₀ m) (t : TypeId) : m.descriptor t = m₀.descriptor t := by
  unfold Machine.descriptor
  rw [hs.types]

/-- Bytes that can still be read are what they were. -/
theorem read (hs : Shrunk m₀ m) {a : Address} {n : Nat} {bytes : List UInt8}
    (h : m.read a n = .ok bytes) : m₀.read a n = .ok bytes := by
  unfold Machine.read at h ⊢
  split at h
  · cases h
  · rename_i hnull
    rw [if_neg hnull]
    split at h
    · -- Below a lower top the same bytes are in range.
      have hbytes := except_mapError_ok.mp h
      refine except_mapError_ok.mpr ?_
      unfold Heap.bytes at hbytes ⊢
      split at hbytes
      · rename_i hrange
        have hrange' : m₀.heap.inRange a n = true := by
          obtain ⟨hspace, hge, hend, harena⟩ := Heap.inRange_iff.mp hrange
          exact Heap.inRange_iff.mpr ⟨hspace, hge, Nat.le_trans hend hs.heap.top_le, hs.heap.arena ▸ harena⟩
        rw [if_pos hrange', ← hs.heap.arena]
        exact hbytes
      · cases hbytes
    · rw [← hs.stack]
      exact h

theorem storedAddress (hs : Shrunk m₀ m) {a target : Address}
    (h : m.storedAddress a = .ok target) : m₀.storedAddress a = .ok target := by
  obtain ⟨bytes, hbytes, h⟩ := except_bind_ok.mp h
  exact except_bind_ok.mpr ⟨bytes, hs.read hbytes, h⟩

/-- A pointer points into the same object as before, or into none. -/
theorem containing? (hs : Shrunk m₀ m) {p : Address} {o : Heap.Object}
    (h : m.heap.containing? p = some o) : m₀.heap.containing? p = some o := by
  obtain ⟨hforeign, hmem, hrange⟩ := (Heap.containing?_eq_some_iff hs.heap.after).mp h
  exact (Heap.containing?_eq_some_iff hs.heap.before).mpr ⟨hforeign, hs.heap.objects o hmem, hrange⟩

/-- A pointer into an object that is left still points into it. -/
theorem containing?_of_mem (hs : Shrunk m₀ m) {p : Address} {o : Heap.Object}
    (h : m₀.heap.containing? p = some o) (ho : o ∈ m.heap.objects) :
    m.heap.containing? p = some o := by
  obtain ⟨hforeign, -, hrange⟩ := (Heap.containing?_eq_some_iff hs.heap.before).mp h
  exact (Heap.containing?_eq_some_iff hs.heap.after).mpr ⟨hforeign, ho, hrange⟩

end Shrunk

/-! ## What is referred to becomes less -/

variable {m₀ m : Machine} {target : Address}

theorem SlotRefers.of_shrunk (hs : Shrunk m₀ m) {a : Address} {type : TypeId}
    (h : m.SlotRefers a type target) : m₀.SlotRefers a type target := by
  induction h with
  | held href hstored hnull hspace =>
    exact .held (hs.descriptor _ ▸ href) (hs.storedAddress hstored) hnull hspace
  | pointed hpointer hstored hcontaining =>
    exact .pointed (hs.descriptor _ ▸ hpointer) (hs.storedAddress hstored)
      (hs.containing? hcontaining)
  | field hstruct hf _ ih => exact .field (hs.descriptor _ ▸ hstruct) (hs.descriptor _ ▸ hf) ih

theorem ValueRefers.of_shrunk (hs : Shrunk m₀ m) {v : Value} (h : m.ValueRefers v target) :
    m₀.ValueRefers v target := by
  cases v with
  | primitive => exact h
  | struct => exact SlotRefers.of_shrunk hs h
  | pointer =>
    obtain ⟨o, ho, heq⟩ := h
    exact ⟨o, hs.containing? ho, heq⟩
  | string => exact h
  | reference => exact h
  | array => exact h

theorem ObjectRefers.of_shrunk (hs : Shrunk m₀ m) {o : Heap.Object}
    (h : m.ObjectRefers o target) : m₀.ObjectRefers o target := by
  unfold ObjectRefers at h ⊢
  split at h
  · exact h
  · obtain ⟨f, hf, hrefers⟩ := h
    exact ⟨f, hs.descriptor _ ▸ hf, hrefers.of_shrunk hs⟩
  · obtain ⟨f, hf, hrefers⟩ := h
    exact ⟨f, hs.descriptor _ ▸ hf, hrefers.of_shrunk hs⟩
  · obtain ⟨i, hi, hrefers⟩ := h
    exact ⟨i, hi, hs.descriptor _ ▸ hrefers.of_shrunk hs⟩

theorem RootRefers.of_shrunk (hs : Shrunk m₀ m) (h : m.RootRefers target) :
    m₀.RootRefers target := by
  rcases h with ⟨f, hf, h⟩ | ⟨v, hv, h⟩
  · refine .inl ⟨f, hs.stack ▸ hf, ?_⟩
    rcases h with ⟨v, hv, h⟩ | ⟨b, hb, h⟩
    · exact .inl ⟨v, hv, h.of_shrunk hs⟩
    · exact .inr ⟨b, hb, h.of_shrunk hs⟩
  · exact .inr ⟨v, hs.inFlight ▸ hv, h.of_shrunk hs⟩

/-! ## Scans list only what is referred to -/

theorem mem_ownedTarget {a t : Address} :
    t ∈ ownedTarget a ↔ (a.isNull = false ∧ a.space = .heap) ∧ t = a := by
  unfold ownedTarget
  cases hspace : a.space <;> cases hnull : a.isNull <;> simp

theorem mem_pointedTarget {m : Machine} {p t : Address} :
    t ∈ m.pointedTarget p ↔ ∃ o, m.heap.containing? p = some o ∧ o.address = t := by
  unfold pointedTarget
  cases m.heap.containing? p <;> simp [eq_comm]

theorem slotRefers_of_mem {fuel : Nat} {a : Address} {type : TypeId} {refs : List Address}
    (h : m.referencesAt fuel a type = .ok refs) (ht : target ∈ refs) :
    m.SlotRefers a type target := by
  induction fuel generalizing a type refs with
  | zero =>
    cases h
    cases ht
  | succ fuel ih =>
    have held : (m.descriptor type).category.isReference = true →
        (m.storedAddress a).map ownedTarget = .ok refs → m.SlotRefers a type target := by
      intro href h
      obtain ⟨t, hstored, rfl⟩ := except_map_ok.mp h
      obtain ⟨⟨hnull, hspace⟩, rfl⟩ := mem_ownedTarget.mp ht
      exact .held href hstored hnull hspace
    unfold referencesAt at h
    dsimp only at h
    split at h
    · rename_i hcategory
      exact held (by rw [hcategory]; rfl) h
    · rename_i hcategory
      exact held (by rw [hcategory]; rfl) h
    · rename_i hcategory
      exact held (by rw [hcategory]; rfl) h
    · rename_i hcategory
      obtain ⟨p, hstored, rfl⟩ := except_map_ok.mp h
      obtain ⟨o, ho, rfl⟩ := mem_pointedTarget.mp ht
      exact .pointed hcategory hstored ho
    · rename_i hcategory
      obtain ⟨found, hfound, h⟩ := except_bind_ok.mp h
      cases h
      obtain ⟨part, hpart, ht⟩ := List.mem_flatten.mp ht
      obtain ⟨f, hf, hscan⟩ := exists_of_mem_forall₂ (except_mapM_ok.mp hfound) hpart
      exact .field hcategory hf (ih hscan ht)
    · cases h
      cases ht
    · cases h
      cases ht

theorem valueRefers_of_mem {v : Value} {refs : List Address} (h : m.ownedTargets v = .ok refs)
    (ht : target ∈ refs) : m.ValueRefers v target := by
  have owned : ∀ a : Address, (if a.isNull then [] else [a]) = refs →
      a.isNull = false ∧ a = target := by
    rintro a rfl
    cases hnull : a.isNull <;> simp [hnull] at ht
    exact ⟨rfl, ht.symm⟩
  cases v with
  | primitive =>
    cases h
    cases ht
  | struct => exact slotRefers_of_mem h ht
  | pointer =>
    cases h
    exact mem_pointedTarget.mp ht
  | string type a => exact owned a (Except.ok.inj h)
  | reference type a => exact owned a (Except.ok.inj h)
  | array type a => exact owned a (Except.ok.inj h)

/-- **The scan of elements in a row** succeeds if that of each element does, and lists what they
list behind what was found before. -/
theorem referencesOfElements_eq_ok {element : TypeId} {size count : Nat} {a : Address}
    {found : List (List Address)} {refs : List Address}
    (h : m.referencesOfElements element size count a found = .ok refs) :
    (∀ i < count, ∃ part, m.referencesIn (a.add (i * size)) element = .ok part ∧ part ⊆ refs) ∧
      (∀ part ∈ found, part ⊆ refs) ∧
      ∀ t ∈ refs, (∃ part ∈ found, t ∈ part) ∨
        ∃ i < count, ∃ part, m.referencesIn (a.add (i * size)) element = .ok part ∧ t ∈ part := by
  induction count generalizing a found with
  | zero =>
    cases h
    refine ⟨fun i hi => absurd hi (Nat.not_lt_zero i), fun part hpart t ht => ?_, fun t ht => ?_⟩
    · exact List.mem_flatten.mpr ⟨part, List.mem_reverse.mpr hpart, ht⟩
    · obtain ⟨part, hpart, ht⟩ := List.mem_flatten.mp ht
      exact .inl ⟨part, List.mem_reverse.mp hpart, ht⟩
  | succ count ih =>
    obtain ⟨here, hhere, h⟩ := except_bind_ok.mp h
    obtain ⟨hscan, hfound, hrefs⟩ := ih h
    have hshift : ∀ i, (a.add size).add (i * size) = a.add ((i + 1) * size) := fun i => by
      rw [Address.add_add, Nat.succ_mul, Nat.add_comm]
    refine ⟨fun i hi => ?_, fun part hpart => hfound part (.tail _ hpart), fun t ht => ?_⟩
    · cases i with
      | zero => exact ⟨here, by simpa using hhere, hfound here (.head _)⟩
      | succ i => exact hshift i ▸ hscan i (Nat.lt_of_succ_lt_succ hi)
    · rcases hrefs t ht with ⟨part, hpart, ht⟩ | ⟨i, hi, hrest⟩
      · rcases List.mem_cons.mp hpart with rfl | hpart
        · exact .inr ⟨0, Nat.succ_pos _, part, by simpa using hhere, ht⟩
        · exact .inl ⟨part, hpart, ht⟩
      · exact .inr ⟨i + 1, Nat.succ_lt_succ hi, hshift i ▸ hrest⟩

theorem referencesOfFields_eq_ok {a : Address} {fields : List FieldLayout} {refs : List Address}
    (h : m.referencesOfFields a fields = .ok refs) :
    (∀ f ∈ fields, ∃ part, m.referencesIn (a.add f.offset) f.type = .ok part ∧ part ⊆ refs) ∧
      ∀ t ∈ refs, ∃ f ∈ fields, ∃ part,
        m.referencesIn (a.add f.offset) f.type = .ok part ∧ t ∈ part := by
  obtain ⟨found, hfound, h⟩ := except_bind_ok.mp h
  cases h
  have hall := except_mapM_ok.mp hfound
  refine ⟨fun f hf => ?_, fun t ht => ?_⟩
  · obtain ⟨part, hpart, hscan⟩ := exists_of_forall₂_mem hall hf
    exact ⟨part, hscan, fun t ht => List.mem_flatten.mpr ⟨part, hpart, ht⟩⟩
  · obtain ⟨part, hpart, ht⟩ := List.mem_flatten.mp ht
    obtain ⟨f, hf, hscan⟩ := exists_of_mem_forall₂ hall hpart
    exact ⟨f, hf, part, hscan, ht⟩

theorem objectRefers_of_mem {o : Heap.Object} {refs : List Address}
    (h : m.referencesOf o = .ok refs) (ht : target ∈ refs) : m.ObjectRefers o target := by
  unfold referencesOf at h
  unfold ObjectRefers
  generalize o.kind = kind at h ⊢
  cases kind with
  | string =>
    cases h
    cases ht
  | object =>
    obtain ⟨f, hf, part, hscan, ht⟩ := (referencesOfFields_eq_ok h).2 target ht
    exact ⟨f, hf, slotRefers_of_mem hscan ht⟩
  | statics =>
    obtain ⟨f, hf, part, hscan, ht⟩ := (referencesOfFields_eq_ok h).2 target ht
    exact ⟨f, hf, slotRefers_of_mem hscan ht⟩
  | array element length =>
    dsimp only at h
    split at h
    · rcases (referencesOfElements_eq_ok h).2.2 target ht with
        ⟨part, hpart, -⟩ | ⟨i, hi, part, hscan, ht⟩
      · cases hpart
      · exact ⟨i, hi, slotRefers_of_mem hscan ht⟩
    · cases h
      cases ht

/-! ## Scans that succeed list all that is referred to and still live -/

/-- A live object starts at the address. -/
def Live (m : Machine) (a : Address) : Prop := ∃ o ∈ m.heap.objects, o.address = a

/-- The machine's types are those of its image. -/
def Typed (m : Machine) : Prop := TypeTable.ofImage m.image = .ok m.types

theorem Shrunk.mem_of_live (hs : Shrunk m₀ m) {o : Heap.Object} (ho : o ∈ m₀.heap.objects)
    (hlive : m.Live o.address) : o ∈ m.heap.objects := by
  obtain ⟨p, hp, heq⟩ := hlive
  rwa [← hs.heap.before.eq_of_address (hs.heap.objects p hp) ho heq]

theorem isReference_cases {c : Category} (h : c.isReference = true) :
    c = .string ∨ c = .object ∨ c = .array := by
  cases c <;> simp_all [Category.isReference]

theorem mem_of_slotRefers (hs : Shrunk m₀ m) {fuel : Nat} {a : Address} {type : TypeId}
    {refs : List Address} (hn : m.types.NestedWithin fuel type)
    (h : m.referencesAt fuel a type = .ok refs) (hrefers : m₀.SlotRefers a type target)
    (hlive : m.Live target) : target ∈ refs := by
  induction fuel generalizing a type refs with
  | zero => exact hn.elim
  | succ fuel ih =>
    unfold referencesAt at h
    cases hrefers with
    | held href hstored hnull hspace =>
      rw [← hs.descriptor] at href
      have hmap : (m.storedAddress a).map ownedTarget = .ok refs := by
        rcases isReference_cases href with hc | hc | hc <;> simpa only [hc] using h
      obtain ⟨t, ht, rfl⟩ := except_map_ok.mp hmap
      cases (hs.storedAddress ht).symm.trans hstored
      exact mem_ownedTarget.mpr ⟨⟨hnull, hspace⟩, rfl⟩
    | @pointed _ p _ o hpointer hstored hcontaining =>
      rw [← hs.descriptor] at hpointer
      have hmap : (m.storedAddress a).map m.pointedTarget = .ok refs := by
        simpa only [hpointer] using h
      obtain ⟨t, ht, rfl⟩ := except_map_ok.mp hmap
      cases (hs.storedAddress ht).symm.trans hstored
      have ho : o ∈ m.heap.objects :=
        hs.mem_of_live ((Heap.containing?_eq_some_iff hs.heap.before).mp hcontaining).2.1 hlive
      exact mem_pointedTarget.mpr ⟨o, hs.containing?_of_mem hcontaining ho, rfl⟩
    | field hstruct hf hrefers =>
      rw [← hs.descriptor] at hstruct hf
      simp only [hstruct] at h
      obtain ⟨found, hfound, h⟩ := except_bind_ok.mp h
      cases h
      obtain ⟨part, hpart, hscan⟩ := exists_of_forall₂_mem (except_mapM_ok.mp hfound) hf
      have hinner := hn _ ⟨hstruct, _, hf, rfl⟩
      exact List.mem_flatten.mpr ⟨part, hpart, ih hinner hscan hrefers⟩

/-- A slot of a type that may not refer to anything does not, whatever its bytes are. -/
theorem mayRefer_of_slotRefers (hs : Shrunk m₀ m) {fuel : Nat} {a : Address} {type : TypeId}
    (hn : m.types.NestedWithin fuel type) (hrefers : m₀.SlotRefers a type target) :
    m.mayRefer fuel type = true := by
  induction fuel generalizing a type with
  | zero => exact hn.elim
  | succ fuel ih =>
    unfold mayRefer
    cases hrefers with
    | held href =>
      rw [← hs.descriptor] at href
      simp [Category.holdsAddress, href]
    | pointed hpointer =>
      rw [← hs.descriptor] at hpointer
      simp [Category.holdsAddress, hpointer]
    | field hstruct hf hrefers =>
      rw [← hs.descriptor] at hstruct hf
      have hinner := ih (hn _ ⟨hstruct, _, hf, rfl⟩) hrefers
      simp only [hstruct, beq_self_eq_true, Bool.true_and, Bool.or_eq_true, List.any_eq_true]
      exact .inr ⟨_, hf, hinner⟩

theorem mem_of_valueRefers (hs : Shrunk m₀ m) (htyped : m.Typed) {v : Value} {refs : List Address}
    (h : m.ownedTargets v = .ok refs) (hrefers : m₀.ValueRefers v target) (hlive : m.Live target) :
    target ∈ refs := by
  have owned : ∀ a : Address, (if a.isNull then [] else [a]) = refs →
      a.isNull = false ∧ a = target → target ∈ refs := by
    rintro a rfl ⟨hnull, rfl⟩
    simp [hnull]
  cases v with
  | primitive => exact hrefers.elim
  | struct type a => exact mem_of_slotRefers hs (nestedWithin_nesting htyped type) h hrefers hlive
  | pointer type p =>
    cases h
    obtain ⟨o, ho, rfl⟩ := hrefers
    have hmem := hs.mem_of_live ((Heap.containing?_eq_some_iff hs.heap.before).mp ho).2.1 hlive
    exact mem_pointedTarget.mpr ⟨o, hs.containing?_of_mem ho hmem, rfl⟩
  | string type a => exact owned a (Except.ok.inj h) hrefers
  | reference type a => exact owned a (Except.ok.inj h) hrefers
  | array type a => exact owned a (Except.ok.inj h) hrefers

theorem mem_of_objectRefers (hs : Shrunk m₀ m) (htyped : m.Typed) {o : Heap.Object}
    {refs : List Address} (h : m.referencesOf o = .ok refs) (hrefers : m₀.ObjectRefers o target)
    (hlive : m.Live target) : target ∈ refs := by
  have slot : ∀ {a type part}, m.referencesIn a type = .ok part → m₀.SlotRefers a type target →
      target ∈ part := fun {_ type _} hscan hrefers =>
    mem_of_slotRefers hs (nestedWithin_nesting htyped type) hscan hrefers hlive
  unfold referencesOf at h
  unfold ObjectRefers at hrefers
  generalize o.kind = kind at h hrefers
  cases kind with
  | string => exact hrefers.elim
  | object =>
    obtain ⟨f, hf, hrefers⟩ := hrefers
    obtain ⟨part, hscan, hsub⟩ := (referencesOfFields_eq_ok h).1 f (hs.descriptor _ ▸ hf)
    exact hsub (slot hscan hrefers)
  | statics =>
    obtain ⟨f, hf, hrefers⟩ := hrefers
    obtain ⟨part, hscan, hsub⟩ := (referencesOfFields_eq_ok h).1 f (hs.descriptor _ ▸ hf)
    exact hsub (slot hscan hrefers)
  | array element length =>
    obtain ⟨i, hi, hrefers⟩ := hrefers
    have hscanned : m.holdsReferences element = true :=
      mayRefer_of_slotRefers hs (nestedWithin_nesting htyped element) hrefers
    dsimp only at h
    rw [if_pos hscanned] at h
    obtain ⟨part, hscan, hsub⟩ := (referencesOfElements_eq_ok h).1 i hi
    rw [hs.descriptor] at hscan
    exact hsub (slot hscan hrefers)

/-! ## The whole question -/

/-- The object is referred to by a root or by another live object. What an object holds of itself
does not count. -/
def Referenced (m : Machine) (target : Address) : Prop :=
  m.RootRefers target ∨ ∃ o ∈ m.heap.objects, o.address ≠ target ∧ m.ObjectRefers o target

theorem frameRefers_of_true {f : Frame} (h : m.frameRefersTo target f = .ok true) :
    m.FrameRefers f target := by
  obtain ⟨b, hvalues, h⟩ := except_bind_ok.mp h
  cases b with
  | true =>
    obtain ⟨v, hv, hscan⟩ := except_anyM_true hvalues
    obtain ⟨refs, hrefs, hmem⟩ := except_map_ok.mp hscan
    refine .inl ⟨v, ?_, valueRefers_of_mem hrefs (List.contains_iff_mem.mp hmem)⟩
    simpa using hv
  | false =>
    obtain ⟨b, hb, hscan⟩ := except_anyM_true h
    obtain ⟨refs, hrefs, hmem⟩ := except_map_ok.mp hscan
    exact .inr ⟨b, hb, slotRefers_of_mem hrefs (List.contains_iff_mem.mp hmem)⟩

/-- **The answer yes is right.** -/
theorem referenced_of_isReferenced (h : m.isReferenced target = .ok true) : m.Referenced target := by
  obtain ⟨b, hframes, h⟩ := except_bind_ok.mp h
  cases b with
  | true =>
    obtain ⟨f, hf, hframe⟩ := except_anyM_true hframes
    exact .inl (.inl ⟨f, List.mem_reverse.mp hf, frameRefers_of_true hframe⟩)
  | false =>
    obtain ⟨b, hvalues, h⟩ := except_bind_ok.mp h
    cases b with
    | true =>
      obtain ⟨v, hv, hscan⟩ := except_anyM_true hvalues
      obtain ⟨refs, hrefs, hmem⟩ := except_map_ok.mp hscan
      exact .inl (.inr ⟨v, List.mem_reverse.mp hv,
        valueRefers_of_mem hrefs (List.contains_iff_mem.mp hmem)⟩)
    | false =>
      obtain ⟨o, ho, hscan⟩ := except_anyM_true h
      split at hscan
      · cases hscan
      · rename_i hne
        obtain ⟨refs, hrefs, hmem⟩ := except_map_ok.mp hscan
        exact .inr ⟨o, ho, hne, objectRefers_of_mem hrefs (List.contains_iff_mem.mp hmem)⟩

theorem not_mem_of_false {x : Except Error (List Address)}
    (h : x.map (·.contains target) = .ok false) : ∃ refs, x = .ok refs ∧ target ∉ refs := by
  obtain ⟨refs, hrefs, hmem⟩ := except_map_ok.mp h
  exact ⟨refs, hrefs, by simpa using hmem⟩

theorem not_frameRefers_of_false (hs : Shrunk m₀ m) (htyped : m.Typed) (hlive : m.Live target)
    {f : Frame} (h : m.frameRefersTo target f = .ok false) : ¬ m₀.FrameRefers f target := by
  obtain ⟨b, hvalues, h⟩ := except_bind_ok.mp h
  cases b with
  | true => cases h
  | false =>
    rintro (⟨v, hv, hrefers⟩ | ⟨b, hb, hrefers⟩)
    · have hscan := except_anyM_false hvalues v (by simpa using hv)
      obtain ⟨refs, hrefs, hnot⟩ := not_mem_of_false hscan
      exact hnot (mem_of_valueRefers hs htyped hrefs hrefers hlive)
    · obtain ⟨refs, hrefs, hnot⟩ := not_mem_of_false (except_anyM_false h b hb)
      exact hnot (mem_of_slotRefers hs (nestedWithin_nesting htyped b.type) hrefs hrefers hlive)

/-- **The answer no is right**, also for what was referred to before objects were freed: every place
was looked at, and could still be read. -/
theorem not_referenced_of_isReferenced (hs : Shrunk m₀ m) (htyped : m.Typed)
    (hlive : m.Live target) (h : m.isReferenced target = .ok false) :
    ¬ m₀.RootRefers target ∧
      ∀ o ∈ m.heap.objects, o.address ≠ target → ¬ m₀.ObjectRefers o target := by
  obtain ⟨b, hframes, h⟩ := except_bind_ok.mp h
  cases b with
  | true => cases h
  | false =>
    obtain ⟨b, hvalues, h⟩ := except_bind_ok.mp h
    cases b with
    | true => cases h
    | false =>
      refine ⟨?_, fun o ho hne hrefers => ?_⟩
      · rintro (⟨f, hf, hrefers⟩ | ⟨v, hv, hrefers⟩)
        · rw [← hs.stack] at hf
          have hframe := except_anyM_false hframes f (List.mem_reverse.mpr hf)
          exact not_frameRefers_of_false hs htyped hlive hframe hrefers
        · rw [← hs.inFlight] at hv
          have hscan := except_anyM_false hvalues v (List.mem_reverse.mpr hv)
          obtain ⟨refs, hrefs, hnot⟩ := not_mem_of_false hscan
          exact hnot (mem_of_valueRefers hs htyped hrefs hrefers hlive)
      · have hscan := except_anyM_false h o ho
        rw [if_neg hne] at hscan
        obtain ⟨refs, hrefs, hnot⟩ := not_mem_of_false hscan
        exact hnot (mem_of_objectRefers hs htyped hrefs hrefers hlive)

end ManagedVm.Machine
