import ManagedVm.Proofs.Types.Nesting

/-!
# Which declarations make a table

A table is made of declarations in which every index leads somewhere, every array and every pointer has
an underlying type, no struct contains itself, and no built-in name is declared twice (`Image.Sound`).
An error of the table is a fault of the declarations (`Image.Faulty`), so a table is refused for a
reason, and in particular a layout is called recursive only if some struct contains itself.

Structs can double from one to the next, so a few dozen sound declarations have sizes that no word
holds. A build without overflow checks makes a table of them all the same; one with overflow checks
stops (`Image.Overflows`, `towering_stops`).
-/

namespace ManagedVm

/-- The names of the types that the machine itself makes values of. -/
def BuiltinName (name : String) : Prop :=
  name = "void" ∨ name = "string" ∨ ∃ k : Kind, name = k.name

/-- **Declarations that make a table.** -/
structure Image.Sound (image : Image) : Prop where
  underlying : ∀ d ∈ image.types, ∀ u, d.underlying = some u → u < image.types.size
  based : ∀ d ∈ image.types, d.category = .array ∨ d.category = .pointer → ∃ u, d.underlying = some u
  /-- The fields of all types, static ones included. -/
  fields : ∀ d ∈ image.types, ∀ f ∈ d.fields, f.type < image.types.size
  /-- No struct contains itself, however many structs lie between. -/
  acyclic : ∀ i, ¬ Relation.TransGen (Layout.Inline image.types) i i
  once : ∀ name, BuiltinName name → (image.types.toList.map (·.name)).count name ≤ 1

/-- **A field stops beyond the words**: it and the fields of its kind before it take up more bytes
than a word counts, and the build takes notice. -/
def Image.Overflows [Build] (image : Image) : Prop :=
  ∃ d ∈ image.types, ∃ front f back bytes, d.fields = front ++ f :: back ∧
    Layout.Summed image.types (front.filter (·.isStatic == f.isStatic) ++ [f]) bytes ∧
      Size.overflows bytes = true

theorem Image.not_overflows_unchecked (image : Image) : ¬ @Image.Overflows .unchecked image := by
  rintro ⟨d, -, front, f, back, bytes, -, -, hover⟩
  cases hover

/-- **What is wrong with declarations**, by the error that says so. -/
inductive Image.Faulty [Build] (image : Image) : TypeError → Prop
  | underlying {d : TypeDeclaration} {u : Nat} : d ∈ image.types → d.underlying = some u →
      image.types.size ≤ u → Faulty image (.unknownType u)
  | baseless {d : TypeDeclaration} : d ∈ image.types → d.category = .array ∨ d.category = .pointer →
      d.underlying = none → Faulty image (.missingUnderlyingType d.name)
  | field {d : TypeDeclaration} {f : FieldDeclaration} : d ∈ image.types → f ∈ d.fields →
      image.types.size ≤ f.type → Faulty image (.unknownType f.type)
  | recursive {i : Nat} {d : TypeDeclaration} : image.types[i]? = some d →
      Relation.TransGen (Layout.Inline image.types) i i → Faulty image (.recursiveLayout d.name)
  | duplicate {name : String} : BuiltinName name →
      1 < (image.types.toList.map (·.name)).count name → Faulty image (.duplicateBuiltin name)
  | overflow : image.Overflows → Faulty image .panic

theorem Image.Sound.not_faulty [Build] {image : Image} (h : image.Sound) (hfits : ¬ image.Overflows)
    {e : TypeError} : ¬ image.Faulty e := by
  intro hfault
  cases hfault with
  | underlying hd hu hge => exact absurd (h.underlying _ hd _ hu) (Nat.not_lt.mpr hge)
  | baseless hd hcategory hnone =>
    obtain ⟨u, hu⟩ := h.based _ hd hcategory
    cases hnone.symm.trans hu
  | field hd hf hge => exact absurd (h.fields _ hd _ hf) (Nat.not_lt.mpr hge)
  | recursive _ hcycle => exact h.acyclic _ hcycle
  | duplicate hname hcount => exact absurd (h.once _ hname) (Nat.not_le.mpr hcount)
  | overflow hover => exact hfits hover

namespace Layout

/-! ## Faults -/

theorem category_of_slotSize? {c : Category} (h : c.slotSize? = none) : c = .struct := by
  cases c with
  | struct => rfl
  | void | string | object | array | pointer => cases h
  | primitive k => cases h

section

variable {image : Image}

/-- The walk comes to a declaration that was asked for, inside of structs that all contain it. -/
structure Under (image : Image) (path : List Nat) (index : Nat) : Prop where
  asked : index < image.types.size ∨ ∃ d ∈ image.types, ∃ f ∈ d.fields, f.type = index
  inside : ∀ outer ∈ path, Relation.TransGen (Inline image.types) index outer

/-- The fields of a struct are inside of it, and of whatever it is inside of. -/
theorem Under.fields {path : List Nat} {index : Nat} {d : TypeDeclaration}
    (h : Under image path index) (hd : image.types[index]? = some d)
    (hstruct : d.category.slotSize? = none) {f : FieldDeclaration} (hf : f ∈ d.instanceFields) :
    Under image (index :: path) f.type := by
  have hinline : Inline image.types f.type index :=
    ⟨d, hd, category_of_slotSize? hstruct, f, hf, rfl⟩
  constructor
  · exact .inr ⟨d, Array.mem_of_getElem? hd, f, (List.mem_filter.mp hf).1, rfl⟩
  · intro outer houter
    rcases List.mem_cons.mp houter with rfl | houter
    · exact .single hinline
    · exact .head hinline (h.inside outer houter)

variable [Build]

/-- What the walk has before it are declarations that it may come to: fields in a row are the last of
a type, and the total is what the ones before them take up. -/
def Task.Under (image : Image) (path : List Nat) : Task → Prop
  | slot index => Layout.Under image path index
  | row total fields => (∀ f ∈ fields, Layout.Under image path f.type) ∧ ∃ d ∈ image.types,
      ∃ front bytes, d.instanceFields = front ++ fields ∧ Summed image.types front bytes ∧
        total = Size.word bytes

/-- An instance field that stops beyond the words. -/
theorem overflows_of_instances {d : TypeDeclaration} (hd : d ∈ image.types)
    {front back : List FieldDeclaration} {f : FieldDeclaration} {bytes : Nat}
    (hsplit : d.instanceFields = front ++ f :: back) (hsummed : Summed image.types (front ++ [f]) bytes)
    (hover : Size.overflows bytes = true) : image.Overflows := by
  -- The field stands behind the same instance fields among all fields, with static ones between.
  obtain ⟨first, rest, hfields, rfl, hrest⟩ := List.filter_eq_append_iff.mp hsplit
  obtain ⟨skipped, back', rfl, hskipped, hf, -⟩ := List.filter_eq_cons_iff.mp hrest
  refine ⟨d, hd, first ++ skipped, f, back', bytes, by rw [hfields, List.append_assoc], ?_, hover⟩
  have hinstance : f.isStatic = false := by simpa using hf
  have hnone : skipped.filter (·.isStatic == f.isStatic) = [] := by
    rw [List.filter_eq_nil_iff]
    intro g hg
    simpa [hinstance] using hskipped g hg
  have hsame : first.filter (·.isStatic == f.isStatic) = first.filter (!·.isStatic) := by
    simp [hinstance]
  rw [List.filter_append, hnone, List.append_nil, hsame]
  exact hsummed

/-- **The walk fails for a fault only**, by induction on its rules: to come to a struct again is to come
to it from inside of it. -/
theorem faulty_of_walks {path : List Nat} {known : Sizes} {task : Task} {e : TypeError}
    (h : Walks image.types path known task (.error e)) (hs : Measured image.types known)
    (hunder : task.Under image path) : image.Faulty e := by
  generalize houtcome : (Except.error e : Except TypeError (Nat × Sizes)) = outcome at h
  induction h with
  | undeclared hnone =>
    cases houtcome
    have hge := Array.getElem?_eq_none_iff.mp hnone
    rcases hunder.asked with hlt | ⟨d, hd, f, hf, rfl⟩
    · exact absurd hlt (Nat.not_lt.mpr hge)
    · exact .field hd hf hge
  | known | fixed | struct | done => cases houtcome
  | again hd _ hmem =>
    cases houtcome
    exact .recursive hd (hunder.inside _ hmem)
  | refused hd _ _ hstruct _ ih =>
    exact ih hs ⟨fun f hf => hunder.fields hd hstruct hf, _, Array.mem_of_getElem? hd, [], 0, rfl, .nil,
      Size.word_zero.symm⟩ houtcome
  | onward hslot _ _ _ ih =>
    obtain ⟨hfields, d, hd, front, bytes, hsplit, hsummed, rfl⟩ := hunder
    obtain ⟨⟨size, hsized, rfl⟩, hs'⟩ := found_of_walks hslot hs
    exact ih hs' ⟨fun g hg => hfields g (.tail _ hg), d, hd, front ++ [_], bytes + size, by simpa using hsplit,
      hsummed.append (.single hsized), Size.word_add_word bytes size⟩ houtcome
  | overflow hslot hover =>
    cases houtcome
    obtain ⟨-, d, hd, front, bytes, hsplit, hsummed, rfl⟩ := hunder
    obtain ⟨⟨size, hsized, rfl⟩, -⟩ := found_of_walks hslot hs
    rw [Size.overflows_add_word] at hover
    exact .overflow (overflows_of_instances hd hsplit (hsummed.append (.single hsized)) hover)
  | stopped _ ih => exact ih hs (hunder.1 _ (.head _)) houtcome

theorem faulty_of_slotSizes {e : TypeError} (h : slotSizes image.types = .error e) : image.Faulty e := by
  rcases except_bind_error.mp h with hfold | ⟨r, -, h⟩
  · obtain ⟨index, hindex, s, hs, hstep⟩ := except_foldlM_error (P := fun s => Measured image.types s.2)
      (fun index _ s s' hs hstep => by
        obtain ⟨r, hr, hstep⟩ := except_bind_ok.mp hstep
        cases hstep
        have hwalk := walks_from_start image.types s.2 index
        rw [hr] at hwalk
        exact (found_of_walks hwalk hs).2) (measured_replicate _) hfold
    rcases except_bind_error.mp hstep with hslot | ⟨r, -, hstep⟩
    · have hwalk := walks_from_start image.types s.2 index
      rw [hslot] at hwalk
      exact faulty_of_walks hwalk hs ⟨.inl (List.mem_range.mp hindex), fun outer houter => nomatch houter⟩
    · cases hstep
  · cases h

theorem faulty_of_checkUnderlying {d : TypeDeclaration} (hd : d ∈ image.types) {e : TypeError}
    (h : checkUnderlying image.types.size d = .error e) : image.Faulty e := by
  unfold checkUnderlying at h
  split at h
  · rename_i u hu
    split at h
    · cases h
    · rename_i hge
      cases h
      exact .underlying hd hu (Nat.not_lt.mp hge)
  · rename_i hnone
    split at h
    · rename_i hcategory
      cases h
      exact .baseless hd hcategory hnone
    · cases h

/-! ## Fields that stop beyond the words -/

/-- The next bytes of instance and of static fields, behind the fields in front. -/
def Cursors (types : Array TypeDeclaration) (front : List FieldDeclaration) (i s : Nat) : Prop :=
  ∀ isStatic : Bool, ∃ bytes, Summed types (front.filter (·.isStatic == isStatic)) bytes ∧
    (if isStatic then s else i) = Size.word bytes

/-- The sizes are those of the declarations, cut to words. -/
def AreSizes (types : Array TypeDeclaration) (sizes : List Nat) : Prop :=
  ∀ i size, sizes[i]? = some size → ∃ bytes, Sized types i bytes ∧ size = Size.word bytes

namespace Cursors

variable {types : Array TypeDeclaration} {sizes : List Nat} {front : List FieldDeclaration}
  {f : FieldDeclaration} {i s size : Nat}

/-- Where a field stops. -/
theorem stop (h : Cursors types front i s) (hsizes : AreSizes types sizes)
    (hsize : sizes[f.type]? = some size) : ∃ bytes,
      Summed types (front.filter (·.isStatic == f.isStatic) ++ [f]) bytes ∧
      Size.overflows ((if f.isStatic then s else i) + size) = Size.overflows bytes ∧
      Size.word ((if f.isStatic then s else i) + size) = Size.word bytes := by
  obtain ⟨before, hsummed, hat⟩ := h f.isStatic
  obtain ⟨bytes, hsized, rfl⟩ := hsizes f.type size hsize
  refine ⟨before + bytes, hsummed.append (.single hsized), ?_, ?_⟩
  · rw [hat, Size.overflows_add_word]
  · rw [hat, Size.word_add_word]

/-- The cursors behind one more field. -/
theorem next (h : Cursors types front i s) (hsizes : AreSizes types sizes)
    (hsize : sizes[f.type]? = some size) :
    Cursors types (front ++ [f]) (if f.isStatic then i else Size.word (i + size))
      (if f.isStatic then Size.word (s + size) else s) := by
  intro isStatic
  rw [List.filter_append]
  by_cases hkind : f.isStatic = isStatic
  · subst hkind
    obtain ⟨bytes, hsummed, -, hword⟩ := h.stop hsizes hsize
    refine ⟨bytes, by simpa using hsummed, ?_⟩
    rw [← hword]
    cases f.isStatic <;> rfl
  · obtain ⟨bytes, hsummed, hat⟩ := h isStatic
    refine ⟨bytes, by simpa [hkind] using hsummed, ?_⟩
    rw [← hat]
    cases isStatic <;> simp_all

end Cursors

/-- Fields cannot be placed only if one has a type that is not there, or stops beyond the words. -/
theorem placeFields_error {types : Array TypeDeclaration} {sizes : List Nat}
    {front fields : List FieldDeclaration} {i s : Nat} {e : TypeError} (hsizes : AreSizes types sizes)
    (hcursors : Cursors types front i s) (h : placeFields sizes i s fields = .error e) :
    (∃ f ∈ fields, sizes.length ≤ f.type ∧ e = .unknownType f.type) ∨
      (e = .panic ∧ ∃ middle f back bytes, fields = middle ++ f :: back ∧
        Summed types ((front ++ middle).filter (·.isStatic == f.isStatic) ++ [f]) bytes ∧
          Size.overflows bytes = true) := by
  induction fields generalizing front i s with
  | nil => cases h
  | cons f fields ih =>
    unfold placeFields at h
    split at h
    · rename_i hnone
      cases h
      exact .inl ⟨f, .head _, List.getElem?_eq_none_iff.mp hnone, rfl⟩
    · rename_i size hsize
      obtain ⟨bytes, hsummed, hover, -⟩ := hcursors.stop hsizes hsize
      have hcases : (e = .panic ∧ Size.overflows ((if f.isStatic then s else i) + size) = true) ∨
          placeFields sizes (if f.isStatic then i else Size.word (i + size))
            (if f.isStatic then Size.word (s + size) else s) fields = .error e := by
        cases hstatic : f.isStatic with
        | true =>
          rw [hstatic] at h
          rcases except_bind_error.mp h with hstop | ⟨next, hnext, h⟩
          · exact .inl (Size.fit_eq_error_iff.mp hstop).symm
          · obtain ⟨-, rfl⟩ := Size.fit_eq_ok_iff.mp hnext
            exact .inr ((except_bind_error.mp h).resolve_right fun ⟨r, _, hr⟩ => nomatch hr)
        | false =>
          rw [hstatic] at h
          rcases except_bind_error.mp h with hstop | ⟨next, hnext, h⟩
          · exact .inl (Size.fit_eq_error_iff.mp hstop).symm
          · obtain ⟨-, rfl⟩ := Size.fit_eq_ok_iff.mp hnext
            exact .inr ((except_bind_error.mp h).resolve_right fun ⟨r, _, hr⟩ => nomatch hr)
      rcases hcases with ⟨rfl, hstop⟩ | hrest
      · exact .inr ⟨rfl, [], f, fields, bytes, rfl, by simpa using hsummed, hover ▸ hstop⟩
      · rcases ih (hcursors.next hsizes hsize) hrest with ⟨g, hg, hge, rfl⟩ |
          ⟨rfl, middle, g, back, bytes', rfl, hsummed', hover'⟩
        · exact .inl ⟨g, .tail _ hg, hge, rfl⟩
        · exact .inr ⟨rfl, f :: middle, g, back, bytes', rfl, by simpa using hsummed', hover'⟩

/-- Fields that have been placed have types that are there. -/
theorem placeFields_known {sizes : List Nat} {fields : List FieldDeclaration} {i s : Nat}
    {r : List FieldLayout × Nat × Nat} (h : placeFields sizes i s fields = .ok r) {f : FieldDeclaration}
    (hf : f ∈ fields) : f.type < sizes.length := by
  induction fields generalizing i s r with
  | nil => cases hf
  | cons g fields ih =>
    obtain ⟨size, r', hsize, -, hr', -⟩ := placeFields_cons h
    rcases List.mem_cons.mp hf with rfl | hf
    · exact (List.getElem?_eq_some_iff.mp hsize).1
    · exact ih hr' hf

/-- Fields that have been placed stop within the words. -/
theorem placeFields_fits {types : Array TypeDeclaration} {sizes : List Nat}
    {front fields : List FieldDeclaration} {i s : Nat} {r : List FieldLayout × Nat × Nat}
    (hsizes : AreSizes types sizes) (hcursors : Cursors types front i s)
    (h : placeFields sizes i s fields = .ok r) {middle back : List FieldDeclaration}
    {f : FieldDeclaration} (hsplit : fields = middle ++ f :: back) {bytes : Nat}
    (hsummed : Summed types ((front ++ middle).filter (·.isStatic == f.isStatic) ++ [f]) bytes) :
    Size.overflows bytes = false := by
  induction fields generalizing front i s r middle with
  | nil => simp at hsplit
  | cons g fields ih =>
    obtain ⟨size, r', hsize, hfits, hr', -⟩ := placeFields_cons h
    cases middle with
    | nil =>
      obtain ⟨rfl, rfl⟩ := List.cons.inj hsplit
      obtain ⟨bytes', hsummed', hover, -⟩ := hcursors.stop hsizes hsize
      rw [List.append_nil] at hsummed
      obtain rfl := hsummed.unique hsummed'
      exact hover ▸ hfits
    | cons first middle =>
      obtain ⟨rfl, hrest⟩ := List.cons.inj hsplit
      exact ih (hcursors.next hsizes hsize) hr' hrest (by simpa using hsummed)

theorem cursors_start (types : Array TypeDeclaration) : Cursors types [] 0 0 := by
  intro isStatic
  exact ⟨0, .nil, by simp⟩

theorem faulty_of_describe {sizes : List Nat} (hsizes : slotSizes image.types = .ok sizes)
    {d : TypeDeclaration} (hd : d ∈ image.types) {index : Nat} {e : TypeError}
    (h : describe sizes d index = .error e) : image.Faulty e := by
  obtain ⟨hlength, hwords⟩ := words_of_slotSizes hsizes
  rcases except_bind_error.mp h with hplace | ⟨r, -, h⟩
  · rcases placeFields_error hwords (cursors_start image.types) hplace with ⟨f, hf, hge, rfl⟩ |
      ⟨rfl, front, f, back, bytes, hsplit, hsummed, hover⟩
    · rw [hlength] at hge
      exact .field hd hf hge
    · exact .overflow ⟨d, hd, front, f, back, bytes, hsplit, hsummed, hover⟩
  · cases h

end

/-! ## Built-in names -/

theorem isBuiltinName_iff {name : String} : isBuiltinName name = true ↔ BuiltinName name := by
  simp only [isBuiltinName, List.any_eq_true, beq_iff_eq, BuiltinName]
  constructor
  · rintro ⟨b, hb, rfl⟩
    rcases List.mem_cons.mp hb with rfl | hb
    · exact .inl rfl
    rcases List.mem_cons.mp hb with rfl | hb
    · exact .inr (.inl rfl)
    obtain ⟨k, -, rfl⟩ := List.mem_map.mp hb
    exact .inr (.inr ⟨k, rfl⟩)
  · rintro (rfl | rfl | ⟨k, rfl⟩)
    · exact ⟨_, .head _, rfl⟩
    · exact ⟨_, .tail _ (.head _), rfl⟩
    · exact ⟨_, TypeTable.mem_builtinTypes k, rfl⟩

/-- How often a name is there, among the names before and those of the list. -/
def occurrences (seen names : List String) (name : String) : Nat :=
  names.count name + if name ∈ seen then 1 else 0

theorem occurrences_cons {seen names : List String} {next name : String}
    (h : ¬ (name = next ∧ name ∈ seen)) :
    occurrences (next :: seen) names name = occurrences seen (next :: names) name := by
  unfold occurrences
  by_cases heq : name = next
  · have hseen : name ∉ seen := fun hmem => h ⟨heq, hmem⟩
    subst heq
    simp [hseen]
  · have hne : next ≠ name := fun hsame => heq hsame.symm
    simp [heq, List.count_cons_of_ne hne]

theorem duplicateBuiltin?_none {seen names : List String} (h : duplicateBuiltin? seen names = none)
    {name : String} (hname : isBuiltinName name = true) : occurrences seen names name ≤ 1 := by
  induction names generalizing seen with
  | nil =>
    unfold occurrences
    split <;> simp
  | cons next names ih =>
    unfold duplicateBuiltin? at h
    split at h
    · cases h
    · rename_i hnot
      rw [← occurrences_cons]
      · exact ih h
      · rintro ⟨rfl, hseen⟩
        exact hnot (by simp [hseen, hname])

theorem duplicateBuiltin?_some {seen names : List String} {name : String}
    (h : duplicateBuiltin? seen names = some name) :
    isBuiltinName name = true ∧ 1 < occurrences seen names name := by
  induction names generalizing seen with
  | nil => cases h
  | cons next names ih =>
    unfold duplicateBuiltin? at h
    split at h
    · rename_i hboth
      cases h
      simp only [List.contains_iff_mem, Bool.and_eq_true] at hboth
      refine ⟨hboth.2, ?_⟩
      simp [occurrences, hboth.1]
    · rename_i hnot
      obtain ⟨hbuiltin, hcount⟩ := ih h
      refine ⟨hbuiltin, ?_⟩
      rw [← occurrences_cons]
      · exact hcount
      · rintro ⟨rfl, hseen⟩
        exact hnot (by simp [hseen, hbuiltin])

theorem occurrences_nil (names : List String) (name : String) :
    occurrences [] names name = names.count name := by
  simp [occurrences]

end Layout

/-! ## The table -/

namespace TypeTable

/-- **A table is refused for a fault.** -/
theorem faulty_of_ofImage [Build] {image : Image} {e : TypeError} (h : ofImage image = .error e) :
    image.Faulty e := by
  rcases except_bind_error.mp h with hcheck | ⟨-, -, h⟩
  · obtain ⟨d, hd, hcheck⟩ := except_forM_error hcheck
    exact Layout.faulty_of_checkUnderlying (Array.mem_def.mpr hd) hcheck
  rcases except_bind_error.mp h with hsizes | ⟨sizes, hsizes, h⟩
  · exact Layout.faulty_of_slotSizes hsizes
  rcases except_bind_error.mp h with hrows | ⟨rows, -, h⟩
  · obtain ⟨front, ⟨d, index⟩, back, hsplit, hrow, -⟩ := except_mapM_error hrows
    have hmem : (d, index) ∈ image.types.toList.zipIdx := by rw [hsplit]; simp
    have hd : d ∈ image.types.toList := (List.mem_zipIdx' hmem).2 ▸ List.getElem_mem _
    exact Layout.faulty_of_describe hsizes (Array.mem_def.mpr hd) hrow
  split at h
  · rename_i name hname
    cases h
    obtain ⟨hbuiltin, hcount⟩ := Layout.duplicateBuiltin?_some hname
    rw [Layout.occurrences_nil] at hcount
    exact .duplicate (Layout.isBuiltinName_iff.mp hbuiltin) hcount
  · cases h

/-- Each declaration of a table had its fields placed. -/
theorem placeFields_of_rows [Build] {image : Image} {sizes : List Nat} {rows : List Descriptor}
    (h : image.types.toList.zipIdx.mapM (fun p => Layout.describe sizes p.1 p.2) = .ok rows)
    {d : TypeDeclaration} (hd : d ∈ image.types) :
    ∃ placed, Layout.placeFields sizes 0 0 d.fields = .ok placed := by
  obtain ⟨i, hi⟩ := List.getElem?_of_mem (Array.mem_def.mp hd)
  have hmem : (d, i) ∈ image.types.toList.zipIdx := List.mk_mem_zipIdx_iff_getElem?.mpr hi
  obtain ⟨row, -, hrow⟩ := exists_of_forall₂_mem (except_mapM_ok.mp h) hmem
  obtain ⟨placed, hplaced, -⟩ := except_bind_ok.mp hrow
  exact ⟨placed, hplaced⟩

/-- **A table is made of sound declarations.** -/
theorem sound_of_ofImage [Build] {image : Image} {t : TypeTable} (h : ofImage image = .ok t) :
    image.Sound := by
  obtain ⟨hchecked, sizes, rows, hsizes, hrows, hnone, -⟩ := passes_of_ofImage h
  obtain ⟨hlength, -⟩ := Layout.words_of_slotSizes hsizes
  have hchecked : ∀ d ∈ image.types, Layout.checkUnderlying image.types.size d = .ok ⟨⟩ :=
    fun d hd => except_forM_ok.mp hchecked d (Array.mem_def.mp hd)
  constructor
  case underlying =>
    intro d hd u hu
    have hcheck := hchecked d hd
    unfold Layout.checkUnderlying at hcheck
    rw [hu] at hcheck
    by_contra hge
    simp [hge] at hcheck
  case based =>
    intro d hd hcategory
    have hcheck := hchecked d hd
    unfold Layout.checkUnderlying at hcheck
    cases hu : d.underlying with
    | some u => exact ⟨u, rfl⟩
    | none => simp [hu, hcategory] at hcheck
  case fields =>
    intro d hd f hf
    obtain ⟨placed, hplaced⟩ := placeFields_of_rows hrows hd
    exact hlength ▸ Layout.placeFields_known hplaced hf
  case acyclic =>
    intro i hcycle
    exact (Layout.wellFounded_inline hsizes).transGen.irrefl.irrefl i hcycle
  case once =>
    intro name hname
    have hcount := Layout.duplicateBuiltin?_none hnone (Layout.isBuiltinName_iff.mpr hname)
    rwa [Layout.occurrences_nil] at hcount

/-- The fields of a table stop within the words. -/
theorem not_overflows_of_ofImage [Build] {image : Image} {t : TypeTable} (h : ofImage image = .ok t) :
    ¬ image.Overflows := by
  rintro ⟨d, hd, front, f, back, bytes, hsplit, hsummed, hover⟩
  obtain ⟨-, sizes, rows, hsizes, hrows, -, -⟩ := passes_of_ofImage h
  obtain ⟨placed, hplaced⟩ := placeFields_of_rows hrows hd
  have hfits := Layout.placeFields_fits (Layout.words_of_slotSizes hsizes).2
    (Layout.cursors_start image.types) hplaced hsplit hsummed
  cases hfits.symm.trans hover

/-- **How declarations are judged.** -/
structure Judged [Build] (image : Image) : Prop where
  /-- A table is made exactly of sound declarations whose fields stop within the words, where the
  build takes notice of that. -/
  accepted : (∃ t, ofImage image = .ok t) ↔ image.Sound ∧ ¬ image.Overflows
  /-- Every error names a fault. -/
  refused : ∀ e, ofImage image = .error e → image.Faulty e
  /-- A layout is called recursive only for a struct that contains itself. -/
  recursive : ∀ name, ofImage image = .error (.recursiveLayout name) → ∃ i d,
    image.types[i]? = some d ∧ d.name = name ∧ Relation.TransGen (Layout.Inline image.types) i i
  /-- The walk through the structs ends by its own rules, wherever it starts and whatever it knows. -/
  ends : ∀ known index, Layout.Walks image.types [] known (.slot index)
    (Layout.slotSize image.types (image.types.size + 1) [] known index)

/-- **Exactly the sound declarations make a table**, in every build, as long as their fields stop within
the words. -/
theorem judged_by_soundness [Build] (image : Image) : Judged image := by
  constructor
  case accepted =>
    constructor
    · rintro ⟨t, ht⟩
      exact ⟨sound_of_ofImage ht, not_overflows_of_ofImage ht⟩
    · rintro ⟨hsound, hfits⟩
      cases h : ofImage image with
      | ok t => exact ⟨t, rfl⟩
      | error e => exact absurd (faulty_of_ofImage h) (hsound.not_faulty hfits)
  case refused => exact fun e => faulty_of_ofImage
  case recursive =>
    intro name h
    cases faulty_of_ofImage h with
    | recursive hd hcycle => exact ⟨_, _, hd, rfl, hcycle⟩
  case ends => exact Layout.walks_from_start image.types

/-- **Sound declarations that stop the program**, if it was built with overflow checks: the sixteenth
level takes up eight times the words there are. Without them they make a table. -/
theorem towering_stops :
    (Layout.towering 16).Sound ∧ @ofImage .checked (Layout.towering 16) = .error .panic ∧
      ∃ t, @ofImage .unchecked (Layout.towering 16) = .ok t := by
  have hstops : @ofImage .checked (Layout.towering 16) = .error .panic := by decide
  have hmade : (@ofImage .unchecked (Layout.towering 16)).toOption.isSome = true := by decide
  cases ht : @ofImage .unchecked (Layout.towering 16) with
  | error e =>
    rw [ht] at hmade
    cases hmade
  | ok t => exact ⟨@sound_of_ofImage .unchecked _ t ht, hstops, t, rfl⟩

end TypeTable

end ManagedVm
