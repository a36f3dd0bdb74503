import ManagedVm.Proofs.Types.Layout

/-!
# The rows of a type table

A table has a row for each declared type and one for each built-in type that was not declared; what
holds of both holds of every type (`rows_of_ofImage`). So a slot of a type has the size that its
category fixes, if it fixes any (`size_of_ofImage`).

A table also knows the built-in type of each kind. It is a declared type of the kind's name, or an
added one; if the declared types of such names are what their names say, it is a type of that kind
(`category_primitive`).
-/

namespace ManagedVm

/-! ## The types that are added -/

namespace TypeTable

variable {t : TypeTable} {name : String} {c : Category}

/-- The types of a table have numbers by their places, whatever else holds of them. -/
structure Rows (P : Descriptor → Prop) (t : TypeTable) : Prop where
  id : ∀ (i : Nat) (d : Descriptor), t.descriptors[i]? = some d → d.id = ⟨i⟩
  each : ∀ (i : Nat) (d : Descriptor), t.descriptors[i]? = some d → P d

/-- The second table has the types of the first, and others behind them. -/
def Grows (t t' : TypeTable) : Prop :=
  ∀ (i : Nat) (d : Descriptor), t.descriptors[i]? = some d → t'.descriptors[i]? = some d

theorem Grows.trans {u v : TypeTable} (h : Grows t u) (h' : Grows u v) : Grows t v :=
  fun i d hd => h' i d (h i d hd)

/-- The type that is added for a name that is not there. -/
def added (name : String) (c : Category) (index : Nat) : Descriptor :=
  { id := ⟨index⟩, name, category := c, size := c.slotSize?.getD 0 }

/-- **What adding a built-in type comes to**: the name is there, or it is there afterwards. -/
theorem addBuiltin_cases (t : TypeTable) (name : String) (c : Category) :
    (∃ d, d ∈ t.descriptors ∧ d.name = name ∧ t.addBuiltin name c = (d.id, t)) ∨
      ((∀ d ∈ t.descriptors, d.name ≠ name) ∧ t.addBuiltin name c = (⟨t.descriptors.size⟩,
        { t with descriptors := t.descriptors.push (added name c t.descriptors.size) })) := by
  unfold addBuiltin
  cases hfind : t.find? name with
  | none =>
    refine .inr ⟨?_, rfl⟩
    intro d hd
    have hnone := Option.map_eq_none_iff.mp hfind
    rw [Array.findRev?_eq_find?_reverse, Array.find?_eq_none] at hnone
    simpa using hnone d (by simpa using hd)
  | some id =>
    obtain ⟨d, hd, rfl⟩ := Option.map_eq_some_iff.mp hfind
    rw [Array.findRev?_eq_find?_reverse] at hd
    have hname := Array.find?_some hd
    have hmem := Array.mem_of_find?_eq_some hd
    exact .inl ⟨d, by simpa using hmem, by simpa using hname, rfl⟩

theorem grows_addBuiltin (t : TypeTable) (name : String) (c : Category) :
    Grows t (t.addBuiltin name c).2 := by
  intro i d hd
  rcases addBuiltin_cases t name c with ⟨_, -, -, heq⟩ | ⟨-, heq⟩
  · rw [heq]
    exact hd
  · rw [heq]
    have hlt := (Array.getElem?_eq_some_iff.mp hd).1
    show (t.descriptors.push _)[i]? = some d
    rw [Array.getElem?_push, if_neg (Nat.ne_of_lt hlt)]
    exact hd

theorem Rows.addBuiltin {P : Descriptor → Prop} (h : t.Rows P) (hnew : ∀ i, P (added name c i)) :
    (t.addBuiltin name c).2.Rows P := by
  rcases addBuiltin_cases t name c with ⟨_, -, -, heq⟩ | ⟨-, heq⟩
  · rw [heq]
    exact h
  · have hrow : ∀ (i : Nat) (d : Descriptor),
        (t.descriptors.push (added name c t.descriptors.size))[i]? = some d →
          t.descriptors[i]? = some d ∨ d = added name c i := by
      intro i d hd
      rw [Array.getElem?_push] at hd
      split at hd
      · rename_i hi
        cases hd
        exact .inr (by rw [hi])
      · exact .inl hd
    rw [heq]
    refine ⟨fun i d hd => ?_, fun i d hd => ?_⟩
    · rcases hrow i d hd with hold | rfl
      · exact h.id i d hold
      · rfl
    · rcases hrow i d hd with hold | rfl
      · exact h.each i d hold
      · exact hnew i

/-- The built-in type of a name is a row of the table, with that name. -/
theorem Rows.addBuiltin_row {P : Descriptor → Prop} (h : t.Rows P) (name : String) (c : Category) :
    ∃ d, (t.addBuiltin name c).2.descriptors[(t.addBuiltin name c).1.index]? = some d ∧
      d.name = name := by
  rcases addBuiltin_cases t name c with ⟨d, hmem, hname, heq⟩ | ⟨-, heq⟩
  · obtain ⟨i, hi⟩ := Array.getElem?_of_mem hmem
    have hid := h.id i d hi
    rw [heq, hid]
    exact ⟨d, hi, hname⟩
  · rw [heq]
    exact ⟨added name c t.descriptors.size, Array.getElem?_push_size, rfl⟩

/-! ## All of them -/

/-- Adds the built-in type of a kind. -/
def addKind (s : Array TypeId × TypeTable) (k : Kind) : Array TypeId × TypeTable :=
  (s.1.push (s.2.addBuiltin k.name (.primitive k)).1, (s.2.addBuiltin k.name (.primitive k)).2)

/-- The table with the built-in types that are not primitive. -/
def addOthers (t : TypeTable) : TypeTable :=
  ((t.addBuiltin "void" .void).2.addBuiltin "string" .string).2

theorem addBuiltins_eq (t : TypeTable) (s : Array TypeId × TypeTable)
    (hs : Kind.all.foldl addKind (#[], t.addOthers) = s) :
    t.addBuiltins.descriptors = s.2.descriptors ∧ t.addBuiltins.declared = s.2.declared ∧
      t.addBuiltins.builtins.primitives = s.1 := by
  rw [← hs]
  unfold addBuiltins
  -- With a list that is not known the two folds are compared, not run.
  generalize Kind.all = kinds
  exact ⟨rfl, rfl, rfl⟩

/-- The types of the kinds, added one by one, are rows with the kinds' names. -/
theorem foldl_addKind {P : Descriptor → Prop}
    (hnew : ∀ (k : Kind) i, P (added k.name (.primitive k) i)) (kinds : List Kind)
    (s : Array TypeId × TypeTable) (h : s.2.Rows P) :
    (kinds.foldl addKind s).2.Rows P ∧ Grows s.2 (kinds.foldl addKind s).2 ∧
      ∃ found, (kinds.foldl addKind s).1.toList = s.1.toList ++ found ∧
        List.Forall₂ (fun k (id : TypeId) => ∃ d,
          (kinds.foldl addKind s).2.descriptors[id.index]? = some d ∧ d.name = k.name) kinds found := by
  induction kinds generalizing s with
  | nil => exact ⟨h, fun _ _ hd => hd, [], by simp, .nil⟩
  | cons k kinds ih =>
    obtain ⟨hrows, hgrows, found, hids, hfound⟩ := ih (addKind s k) (h.addBuiltin (hnew k))
    obtain ⟨d, hd, hname⟩ := h.addBuiltin_row k.name (.primitive k)
    refine ⟨hrows, (grows_addBuiltin s.2 k.name (.primitive k)).trans hgrows,
      (s.2.addBuiltin k.name (.primitive k)).1 :: found, ?_, .cons ⟨d, hgrows _ d hd, hname⟩ hfound⟩
    rw [List.foldl_cons, hids]
    simp [addKind]

theorem mem_builtinTypes (k : Kind) : (k.name, Category.primitive k) ∈ builtinTypes := by
  have hk : k ∈ Kind.all := List.mem_of_getElem? k.getElem?_all_ordinal
  exact .tail _ (.tail _ (List.mem_map.mpr ⟨k, hk, rfl⟩))

/-- **The table with its built-in types**: what holds of the old rows and of the new ones holds of
all, the old rows are where they were, and the type of each kind is a row with the kind's name. -/
theorem Rows.addBuiltins {P : Descriptor → Prop} (h : t.Rows P)
    (hnew : ∀ b ∈ builtinTypes, ∀ i, P (added b.1 b.2 i)) :
    t.addBuiltins.Rows P ∧ Grows t t.addBuiltins ∧ ∀ k : Kind, ∃ d,
      t.addBuiltins.descriptors[(t.addBuiltins.builtins.primitive k).index]? = some d ∧
        d.name = k.name := by
  have hvoid := h.addBuiltin (hnew ("void", .void) (.head _))
  have hothers : t.addOthers.Rows P :=
    hvoid.addBuiltin (hnew ("string", .string) (.tail _ (.head _)))
  have hgrows : Grows t t.addOthers :=
    Grows.trans (grows_addBuiltin t "void" .void) (grows_addBuiltin _ "string" .string)
  obtain ⟨hrows, hgrows', found, hids, hfound⟩ :=
    foldl_addKind (fun k => hnew _ (mem_builtinTypes k)) Kind.all (#[], t.addOthers) hothers
  -- The fold itself plays no part any more.
  generalize hs : Kind.all.foldl addKind (#[], t.addOthers) = s at hrows hgrows' hids hfound
  obtain ⟨hdescriptors, -, hprimitives⟩ := addBuiltins_eq t s hs
  generalize t.addBuiltins = u at hdescriptors hprimitives ⊢
  refine ⟨⟨hdescriptors ▸ hrows.id, hdescriptors ▸ hrows.each⟩, ?_, fun k => ?_⟩
  · intro i d hd
    rw [hdescriptors]
    exact hgrows' i d (hgrows i d hd)
  have hget := List.forall₂_iff_get.mp hfound
  obtain ⟨hlt, hk⟩ := List.getElem?_eq_some_iff.mp k.getElem?_all_ordinal
  have hlt' : k.ordinal < found.length := hget.1 ▸ hlt
  have hrow := hget.2 k.ordinal hlt hlt'
  have hprimitive : u.builtins.primitive k = found[k.ordinal] := by
    unfold Builtins.primitive
    rw [hprimitives, ← Array.getElem?_toList, hids, List.nil_append, List.getElem?_eq_getElem hlt']
    rfl
  rw [hprimitive, hdescriptors]
  simp only [List.get_eq_getElem, hk] at hrow
  exact hrow

/-! ## The table of an image -/

end TypeTable

/-- The declared types of built-in names are what their names say. -/
def Image.BuiltinsAgree (image : Image) : Prop :=
  ∀ d ∈ image.types, ∀ c, (d.name, c) ∈ builtinTypes → d.category = c

instance (image : Image) : Decidable image.BuiltinsAgree :=
  decidable_of_iff (∀ d ∈ image.types, ∀ b ∈ builtinTypes, b.1 = d.name → d.category = b.2)
    ⟨fun h d hd c hc => h d hd (d.name, c) hc rfl, fun h d hd b hb hname => h d hd b.2 (hname ▸ hb)⟩

namespace TypeTable

/-- The size of a type is the one that its category fixes, if it fixes any. -/
def SizeFixed (d : Descriptor) : Prop := ∀ fixed, d.category.slotSize? = some fixed → d.size = fixed

/-- A type of a built-in name is what the name says. -/
def NameAgrees (d : Descriptor) : Prop := ∀ c, (d.name, c) ∈ builtinTypes → d.category = c

theorem sizeFixed_added (name : String) (c : Category) (i : Nat) : SizeFixed (added name c i) := by
  intro fixed hfixed
  have hsize : c.slotSize? = some fixed := hfixed
  show c.slotSize?.getD 0 = fixed
  rw [hsize]
  rfl

/-- No name is built in twice. -/
theorem category_eq_of_mem_builtinTypes {name : String} {c c' : Category}
    (h : (name, c) ∈ builtinTypes) (h' : (name, c') ∈ builtinTypes) : c = c' := by
  have hall : ∀ b ∈ builtinTypes, ∀ b' ∈ builtinTypes, b.1 = b'.1 → b.2 = b'.2 := by decide
  exact hall _ h _ h' rfl

/-- **The passes that make a table** have all succeeded if there is one. -/
theorem passes_of_ofImage [Build] {image : Image} {t : TypeTable} (h : ofImage image = .ok t) :
    image.types.toList.forM (Layout.checkUnderlying image.types.toList.length) = .ok ⟨⟩ ∧
      ∃ sizes rows, Layout.slotSizes image.types = .ok sizes ∧
        image.types.toList.zipIdx.mapM (fun p => Layout.describe sizes p.1 p.2) = .ok rows ∧
        Layout.duplicateBuiltin? [] (image.types.toList.map (·.name)) = none ∧
        t = addBuiltins { descriptors := rows.toArray, declared := image.types.toList.length } := by
  obtain ⟨⟨⟩, hchecked, h⟩ := except_bind_ok.mp h
  obtain ⟨sizes, hsizes, h⟩ := except_bind_ok.mp h
  obtain ⟨rows, hrows, h⟩ := except_bind_ok.mp h
  split at h
  · cases h
  · rename_i hnone
    exact ⟨hchecked, sizes, rows, hsizes, hrows, hnone, (Except.ok.inj h).symm⟩

/-- **How the table of an image is made**: a row for each declaration, then the built-in types. -/
theorem ofImage_eq_addBuiltins {image : Image} {t : TypeTable} (h : ofImage image = .ok t) :
    ∃ sizes t₀, Layout.slotSizes image.types = .ok sizes ∧ t = addBuiltins t₀ ∧
      t₀.descriptors.size = image.types.size ∧ t₀.declared = image.types.size ∧
        ∀ i decl, image.types[i]? = some decl →
          ∃ d, t₀.descriptors[i]? = some d ∧ Layout.Described sizes decl i d := by
  obtain ⟨-, sizes, rows, hsizes, hrows, -, ht⟩ := passes_of_ofImage h
  have hall := List.forall₂_iff_get.mp (except_mapM_ok.mp hrows)
  have hlength : image.types.size = rows.length := by
    have hcount := hall.1
    rw [List.length_zipIdx, Array.length_toList] at hcount
    exact hcount
  refine ⟨sizes, { descriptors := rows.toArray, declared := image.types.toList.length },
    hsizes, ht, hlength.symm, Array.length_toList, ?_⟩
  intro i decl hdecl
  obtain ⟨hlt, rfl⟩ := Array.getElem?_eq_some_iff.mp hdecl
  have hdescribe := hall.2 i (by simpa using hlt) (hlength ▸ hlt)
  simp only [List.get_eq_getElem, List.getElem_zipIdx, Nat.zero_add] at hdescribe
  refine ⟨rows[i], ?_, Layout.described_of_describe hdescribe⟩
  show rows.toArray[i]? = some rows[i]
  rw [List.getElem?_toArray, List.getElem?_eq_getElem]

/-- Every declared type of a table has a size. -/
theorem slotSizes_of_ofImage {image : Image} {t : TypeTable} (h : ofImage image = .ok t) :
    ∃ sizes, Layout.slotSizes image.types = .ok sizes := by
  obtain ⟨sizes, -, hsizes, -⟩ := ofImage_eq_addBuiltins h
  exact ⟨sizes, hsizes⟩

section Rows

variable {image : Image} {sizes : List Nat} {P : Descriptor → Prop} (h : ofImage image = .ok t)
  (hsizes : Layout.slotSizes image.types = .ok sizes)
  (hold : ∀ i decl d, image.types[i]? = some decl → Layout.Described sizes decl i d → P d)
  (hnew : ∀ b ∈ builtinTypes, ∀ i, P (added b.1 b.2 i))

include h hsizes hold hnew

/-- **What is known of every type of an image's table.** -/
theorem rows_of_ofImage :
    t.Rows P ∧
      (∀ i decl, image.types[i]? = some decl →
        ∃ d, t.descriptors[i]? = some d ∧ Layout.Described sizes decl i d) ∧
      ∀ k : Kind, ∃ d, t.descriptors[(t.builtins.primitive k).index]? = some d ∧ d.name = k.name := by
  obtain ⟨sizes', t₀, hsizes', ht, hsize, -, hrow⟩ := ofImage_eq_addBuiltins h
  cases hsizes.symm.trans hsizes'
  have hdescribed : ∀ (i : Nat) (d : Descriptor), t₀.descriptors[i]? = some d →
      ∃ decl, image.types[i]? = some decl ∧ Layout.Described sizes decl i d := by
    intro i d hd
    have hlt : i < image.types.size := hsize ▸ (Array.getElem?_eq_some_iff.mp hd).1
    obtain ⟨d', hd', hdescribed⟩ := hrow i image.types[i] (Array.getElem?_eq_getElem hlt)
    cases hd.symm.trans hd'
    exact ⟨_, Array.getElem?_eq_getElem hlt, hdescribed⟩
  have hrows : t₀.Rows P := by
    constructor
    · intro i d hd
      obtain ⟨decl, -, hd⟩ := hdescribed i d hd
      exact hd.id
    · intro i d hd
      obtain ⟨decl, hdecl, hd⟩ := hdescribed i d hd
      exact hold i decl d hdecl hd
  obtain ⟨hall, hgrows, hkinds⟩ := hrows.addBuiltins hnew
  rw [← ht] at hall hgrows hkinds
  refine ⟨hall, ?_, hkinds⟩
  intro i decl hdecl
  obtain ⟨d, hd, hdescribed⟩ := hrow i decl hdecl
  exact ⟨d, hgrows i d hd, hdescribed⟩

/-- What holds of every row, and of a type that is none, holds of every type. -/
theorem descriptor_of_ofImage (hnone : P default) (type : TypeId) : P (t.descriptor type) := by
  obtain ⟨hrows, -⟩ := rows_of_ofImage h hsizes hold hnew
  unfold descriptor
  cases hd : t.descriptors[type.index]? with
  | none => exact hnone
  | some d => exact hrows.each type.index d hd

end Rows

/-- The rows of a table have numbers by their places. -/
theorem id_of_ofImage {image : Image} (h : ofImage image = .ok t) :
    ∀ (i : Nat) (d : Descriptor), t.descriptors[i]? = some d → d.id = ⟨i⟩ := by
  obtain ⟨sizes, hsizes⟩ := slotSizes_of_ofImage h
  obtain ⟨hrows, -⟩ := rows_of_ofImage (P := fun _ => True) h hsizes (fun _ _ _ _ _ => trivial)
    fun _ _ _ => trivial
  exact hrows.id

/-- A row is the descriptor of its number. -/
theorem descriptor_id {image : Image} (h : ofImage image = .ok t) {d : Descriptor}
    (hd : d ∈ t.descriptors) : t.descriptor d.id = d := by
  obtain ⟨i, hi⟩ := Array.getElem?_of_mem hd
  unfold descriptor
  rw [id_of_ofImage h i d hi, hi]
  rfl

/-- A type is a row of the table, or nothing is known of it. -/
theorem descriptor_cases {image : Image} (h : ofImage image = .ok t) (type : TypeId) :
    t.descriptor type = default ∨
      t.descriptor type ∈ t.descriptors ∧ (t.descriptor type).id = type := by
  unfold descriptor
  cases hd : t.descriptors[type.index]? with
  | none => exact .inl rfl
  | some d => exact .inr ⟨Array.mem_of_getElem? hd, id_of_ofImage h type.index d hd⟩

/-- **A slot of a type has the size that the type's category fixes.** -/
theorem size_of_ofImage {image : Image} (h : ofImage image = .ok t) {type : TypeId} {fixed : Nat}
    (hfixed : (t.descriptor type).category.slotSize? = some fixed) :
    (t.descriptor type).size = fixed := by
  obtain ⟨sizes, hsizes⟩ := slotSizes_of_ofImage h
  apply descriptor_of_ofImage (P := SizeFixed) h hsizes _ _ _ type fixed hfixed
  · intro i decl d hdecl hd fixed hfixed
    exact (hd.sized hdecl hsizes).unique (.fixed hdecl (hd.category ▸ hfixed))
  · exact fun b _ => sizeFixed_added b.1 b.2
  · intro fixed hfixed
    cases hfixed
    rfl

/-- **The built-in type of a kind is of that kind.** -/
theorem category_primitive {image : Image} {t : TypeTable} (h : ofImage image = .ok t)
    (hagree : image.BuiltinsAgree) (k : Kind) :
    (t.descriptor (t.builtins.primitive k)).category = .primitive k := by
  obtain ⟨sizes, hsizes⟩ := slotSizes_of_ofImage h
  obtain ⟨hrows, -, hbuiltin⟩ := rows_of_ofImage (P := NameAgrees) h hsizes
    (fun i decl d hdecl hd c hc => by
      rw [hd.category]
      exact hagree decl (Array.mem_of_getElem? hdecl) c (hd.name ▸ hc))
    fun b hb i c hc => category_eq_of_mem_builtinTypes hb hc
  obtain ⟨d, hd, hname⟩ := hbuiltin k
  unfold descriptor
  rw [hd]
  exact hrows.each _ d hd _ (hname ▸ mem_builtinTypes k)

/-! ## Fields -/

section Fields

variable {image : Image} (h : ofImage image = .ok t)

include h

/-- **A slot of a struct has the bytes of its instance fields.** -/
theorem size_of_struct {type : TypeId} (hstruct : (t.descriptor type).category = .struct) :
    (t.descriptor type).size = (t.descriptor type).instanceSize := by
  obtain ⟨sizes, hsizes⟩ := slotSizes_of_ofImage h
  apply descriptor_of_ofImage (P := fun d => d.category = .struct → d.size = d.instanceSize)
    h hsizes _ _ _ type hstruct
  · intro i decl d hdecl hd hstruct
    exact hd.size_eq hdecl hsizes hstruct
  · have hnone : ∀ b ∈ builtinTypes, b.2 ≠ .struct := by decide
    intro b hb i hstruct
    exact absurd hstruct (hnone b hb)
  · intro hstruct
    cases hstruct

/-- The size of a declared type in the table is the one found for its declaration. -/
theorem size_of_declared {sizes : List Nat} (hsizes : Layout.slotSizes image.types = .ok sizes)
    {i size : Nat} (hsize : sizes[i]? = some size) : (t.descriptor ⟨i⟩).size = size := by
  obtain ⟨hlength, -⟩ := Layout.sized_of_slotSizes hsizes
  have hlt : i < image.types.size := hlength ▸ (List.getElem?_eq_some_iff.mp hsize).1
  obtain ⟨-, hrow, -⟩ := rows_of_ofImage (P := fun _ => True) h hsizes (fun _ _ _ _ _ => trivial)
    fun _ _ _ => trivial
  obtain ⟨d, hd, hdescribed⟩ := hrow i _ (Array.getElem?_eq_getElem hlt)
  unfold descriptor
  rw [hd, Option.getD_some, hdescribed.size, hsize, Option.getD_some]

/-- **A field lies inside the bytes of its kind**, with as many bytes as a slot of its type has. -/
theorem field_inside {type : TypeId} {f : FieldLayout} (hf : f ∈ (t.descriptor type).fields) :
    f.offset + (t.descriptor f.type).size ≤
      if f.isStatic then (t.descriptor type).staticSize else (t.descriptor type).instanceSize := by
  obtain ⟨sizes, hsizes⟩ := slotSizes_of_ofImage h
  apply descriptor_of_ofImage (P := fun d => ∀ f ∈ d.fields, f.offset + (t.descriptor f.type).size ≤
    if f.isStatic then d.staticSize else d.instanceSize) h hsizes _ _ _ type f hf
  · intro i decl d hdecl hd f hf
    obtain ⟨g, -, htype, -, hsize⟩ := hd.field hf
    have hslot : (t.descriptor f.type).size = f.size := htype ▸ size_of_declared h hsizes hsize
    rw [hslot]
    exact hd.inside hf
  · intro b _ i f hf
    cases hf
  · intro f hf
    cases hf

end Fields

end TypeTable

end ManagedVm
