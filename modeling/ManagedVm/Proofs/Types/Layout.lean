import ManagedVm.Proofs.Types.Sizes

/-!
# Where fields are

The fields of a type are packed in the order of their declaration, those of instances and the static
ones apart from each other (`Packed`, `packed_placeFields`). So every field lies inside the bytes that
its kind takes up, with as many bytes as a slot of its type has, and the instance fields take up what
they have together. For a struct that is the size of a slot (`Described.size_eq`): the sizes come from
one walk and the offsets from another, and they agree.
-/

namespace ManagedVm.Layout

open scoped Naturals

variable {sizes : List Nat} {i s : Nat} {f : FieldDeclaration} {fields : List FieldDeclaration}
  {r : List FieldLayout × Nat × Nat}

/-- The first field is put where its kind is, and the others behind it. -/
theorem placeFields_cons [Build] (h : placeFields sizes i s (f :: fields) = .ok r) :
    ∃ size r', sizes[f.type]? = some size ∧
      Size.overflows ((if f.isStatic then s else i) + size) = false ∧
      placeFields sizes (if f.isStatic then i else Size.word (i + size))
        (if f.isStatic then Size.word (s + size) else s) fields = .ok r' ∧
      r = (⟨f.name, ⟨f.type⟩, if f.isStatic then s else i, size, f.isStatic⟩ :: r'.1, r'.2) := by
  unfold placeFields at h
  split at h
  · cases h
  · rename_i size hsize
    cases hstatic : f.isStatic with
    | true =>
      rw [hstatic] at h
      obtain ⟨next, hnext, h⟩ := except_bind_ok.mp h
      obtain ⟨hover, rfl⟩ := Size.fit_eq_ok_iff.mp hnext
      obtain ⟨r', hr', h⟩ := except_bind_ok.mp h
      exact ⟨size, r', hsize, hover, hr', (Except.ok.inj h).symm⟩
    | false =>
      rw [hstatic] at h
      obtain ⟨next, hnext, h⟩ := except_bind_ok.mp h
      obtain ⟨hover, rfl⟩ := Size.fit_eq_ok_iff.mp hnext
      obtain ⟨r', hr', h⟩ := except_bind_ok.mp h
      exact ⟨size, r', hsize, hover, hr', (Except.ok.inj h).symm⟩

/-- **Fields in a row** from one offset up to another: each starts where the one before it stops. -/
inductive Packed : (start stop : Nat) → List FieldLayout → Prop
  | nil {start : Nat} : Packed start start []
  | cons {stop : Nat} {l : FieldLayout} {rest : List FieldLayout} :
      Packed (l.offset + l.size) stop rest → Packed l.offset stop (l :: rest)

namespace Packed

variable {start stop : Nat} {row : List FieldLayout}

/-- A row is as long as its fields together. -/
theorem total (h : Packed start stop row) : stop = start + (row.map (·.size)).sum := by
  induction h with
  | nil => rfl
  | cons _ ih =>
    rw [List.map_cons, List.sum_cons, ih]
    omega

theorem inside (h : Packed start stop row) {l : FieldLayout} (hl : l ∈ row) :
    start ≤ l.offset ∧ l.offset + l.size ≤ stop := by
  induction h with
  | nil => cases hl
  | cons hrest ih =>
    have htotal := hrest.total
    rcases List.mem_cons.mp hl with rfl | hl
    · omega
    · have hinside := ih hl
      omega

end Packed

/-- A field where it was put: the declared one, with as many bytes as a slot of its type has. -/
structure Places (sizes : List Nat) (f : FieldDeclaration) (l : FieldLayout) : Prop where
  name : l.name = f.name
  type : l.type = ⟨f.type⟩
  isStatic : l.isStatic = f.isStatic
  size : sizes[f.type]? = some l.size

/-- **Fields are packed in the order of their declaration**, those of instances and the static ones
apart from each other. -/
theorem packed_placeFields (h : placeFields sizes i s fields = .ok r) :
    List.Forall₂ (Places sizes) fields r.1 ∧ Packed i r.2.1 (r.1.filter (!·.isStatic)) ∧
      Packed s r.2.2 (r.1.filter (·.isStatic)) := by
  induction fields generalizing i s r with
  | nil =>
    cases h
    exact ⟨.nil, .nil, .nil⟩
  | cons f fields ih =>
    obtain ⟨size, r', hsize, -, hr', rfl⟩ := placeFields_cons h
    obtain ⟨hplaces, hinstances, hstatics⟩ := ih hr'
    refine ⟨.cons ⟨rfl, rfl, rfl, hsize⟩ hplaces, ?_⟩
    simp only [List.filter_cons]
    cases hstatic : f.isStatic with
    | true =>
      rw [hstatic] at hinstances hstatics
      exact ⟨hinstances, .cons (l := ⟨f.name, ⟨f.type⟩, s, size, true⟩) hstatics⟩
    | false =>
      rw [hstatic] at hinstances hstatics
      exact ⟨.cons (l := ⟨f.name, ⟨f.type⟩, i, size, false⟩) hinstances, hstatics⟩

/-- **The descriptor of a declaration.** -/
structure Described (sizes : List Nat) (decl : TypeDeclaration) (index : Nat) (d : Descriptor) : Prop where
  id : d.id = ⟨index⟩
  name : d.name = decl.name
  category : d.category = decl.category
  size : d.size = sizes[index]?.getD 0
  underlying : d.underlying = decl.underlying.map TypeId.mk
  isStatic : d.isStatic = decl.isStatic
  fields : List.Forall₂ (Places sizes) decl.fields d.fields
  instances : Packed 0 d.instanceSize d.instanceFields
  statics : Packed 0 d.staticSize d.staticFields

theorem described_of_describe {decl : TypeDeclaration} {index : Nat} {d : Descriptor}
    (h : describe sizes decl index = .ok d) : Described sizes decl index d := by
  obtain ⟨placed, hplaced, h⟩ := except_bind_ok.mp h
  cases h
  obtain ⟨hfields, hinstances, hstatics⟩ := packed_placeFields hplaced
  exact
    { id := rfl
      name := rfl
      category := rfl
      size := rfl
      underlying := rfl
      isStatic := rfl
      fields := hfields
      instances := hinstances
      statics := hstatics }

namespace Described

variable {types : Array TypeDeclaration} {decl : TypeDeclaration} {index : Nat} {d : Descriptor}

/-- A field has the type of a declared one, and as many bytes as its slots have. -/
theorem field (h : Described sizes decl index d) {l : FieldLayout} (hl : l ∈ d.fields) :
    ∃ f ∈ decl.fields, l.type = ⟨f.type⟩ ∧ l.isStatic = f.isStatic ∧ sizes[f.type]? = some l.size := by
  obtain ⟨f, hf, hplaces⟩ := exists_of_mem_forall₂ h.fields hl
  exact ⟨f, hf, hplaces.type, hplaces.isStatic, hplaces.size⟩

/-- **Every field lies inside the bytes of its kind.** -/
theorem inside (h : Described sizes decl index d) {l : FieldLayout} (hl : l ∈ d.fields) :
    l.offset + l.size ≤ if l.isStatic then d.staticSize else d.instanceSize := by
  cases hstatic : l.isStatic with
  | true => exact (h.statics.inside (List.mem_filter.mpr ⟨hl, hstatic⟩)).2
  | false => exact (h.instances.inside (List.mem_filter.mpr ⟨hl, by simp [hstatic]⟩)).2

theorem known (h : Described sizes decl index d) {f : FieldDeclaration} (hf : f ∈ decl.fields) :
    ∃ size, sizes[f.type]? = some size := by
  obtain ⟨l, -, hplaces⟩ := exists_of_forall₂_mem h.fields hf
  exact ⟨l.size, hplaces.size⟩

/-- **The instance fields take up what they have together.** -/
theorem total (h : Described sizes decl index d) :
    d.instanceSize = (decl.instanceFields.map fun f => sizes[f.type]?.getD 0).sum := by
  have hsizes : ∀ {fs ls}, List.Forall₂ (Places sizes) fs ls → (ls.filter (!·.isStatic)).map (·.size) =
      (fs.filter (!·.isStatic)).map fun f => sizes[f.type]?.getD 0 := by
    intro fs ls hplaces
    induction hplaces with
    | nil => rfl
    | cons hplace _ ih =>
      rw [List.filter_cons, List.filter_cons, hplace.isStatic]
      split
      · rw [List.map_cons, List.map_cons, ih, hplace.size]
        rfl
      · exact ih
  rw [h.instances.total, Nat.zero_add, Descriptor.instanceFields, hsizes h.fields]
  rfl

/-- The size of a descriptor is that of its declaration. -/
theorem sized (h : Described sizes decl index d) (hdecl : types[index]? = some decl)
    (hsizes : slotSizes types = .ok sizes) : Sized types index d.size := by
  obtain ⟨hlength, hsized⟩ := sized_of_slotSizes hsizes
  have hlt : index < types.size := (Array.getElem?_eq_some_iff.mp hdecl).1
  apply hsized
  rw [h.size, List.getElem?_eq_getElem (hlength ▸ hlt)]
  rfl

/-- **A slot of a struct has the bytes of its instance fields.** -/
theorem size_eq (h : Described sizes decl index d) (hdecl : types[index]? = some decl)
    (hsizes : slotSizes types = .ok sizes) (hstruct : d.category = .struct) :
    d.size = d.instanceSize := by
  obtain ⟨-, hsized⟩ := sized_of_slotSizes hsizes
  apply (h.sized hdecl hsizes).unique
  rw [h.total]
  apply Sized.fields (fun type => sizes[type]?.getD 0) hdecl
  · rw [← h.category, hstruct]
    rfl
  · intro f hf
    obtain ⟨size, hsize⟩ := h.known (List.mem_filter.mp hf).1
    rw [hsize]
    exact hsized _ _ hsize

end Described

end ManagedVm.Layout
