import ManagedVm.Proofs.Types.Builtins

/-!
# The layout of a table is exact

Every address that the machine computes rests on the layout of types, so the layout is pinned down here
completely. The size of a slot is what the declarations say, worked out struct by struct with nothing
remembered (`Layout.Sized`), although the table is made by a walk that remembers and meets the types in
any order. The fields of a type, instance fields and static fields apart, lie in the order of their
declaration without gap or overlap, so that each byte belongs to one field (`Layout.Tiles`). The
built-in types that were not declared come behind the declared ones, in their own order, and nothing
else does (`addBuiltins_rows`).
-/

namespace ManagedVm

open scoped Naturals

namespace Layout

/-! ## Bytes and fields -/

/-- The byte at an offset belongs to the field. -/
def Covers (l : FieldLayout) (x : Nat) : Prop := l.offset ≤ x ∧ x < l.offset + l.size

/-- A byte of a row belongs to one field. -/
theorem Packed.existsUnique {start stop x : Nat} {row : List FieldLayout} (h : Packed start stop row)
    (hstart : start ≤ x) (hstop : x < stop) :
    ∃! k : Nat, ∃ l, row[k]? = some l ∧ Covers l x := by
  induction h with
  | nil => omega
  | @cons stop l rest hrest ih =>
    by_cases hfirst : x < l.offset + l.size
    · refine ⟨0, ⟨l, rfl, hstart, hfirst⟩, ?_⟩
      rintro k ⟨l', hl', hle, -⟩
      cases k with
      | zero => rfl
      | succ k =>
        -- A later field starts behind the first one.
        have hinside := hrest.inside (List.mem_of_getElem? hl')
        omega
    · obtain ⟨k, hk, hunique⟩ := ih (Nat.not_lt.mp hfirst) hstop
      refine ⟨k + 1, hk, ?_⟩
      rintro j ⟨l', hl', hle, hlt⟩
      cases j with
      | zero =>
        cases hl'
        exact absurd hlt hfirst
      | succ j => rw [hunique j ⟨l', hl', hle, hlt⟩]

/-- **Fields that tile the bytes below an offset**: they lie in a row from the first byte on, and so each
byte belongs to one of them and none ends too late. -/
structure Tiles (stop : Nat) (row : List FieldLayout) : Prop where
  packed : Packed 0 stop row
  covered : ∀ x < stop, ∃! k : Nat, ∃ l, row[k]? = some l ∧ Covers l x
  inside : ∀ l ∈ row, l.offset + l.size ≤ stop

theorem Packed.tiles {stop : Nat} {row : List FieldLayout} (h : Packed 0 stop row) : Tiles stop row where
  packed := h
  covered _ hx := h.existsUnique (Nat.zero_le _) hx
  inside _ hl := (h.inside hl).2

end Layout

namespace TypeTable

/-! ## The rows that are added -/

/-- The names of the types of a table. -/
def names (t : TypeTable) : List String := t.descriptors.toList.map (·.name)

/-- Rows for built-in types, with numbers from one on. -/
def addedRows (start : Nat) (builtins : List (String × Category)) : List Descriptor :=
  (builtins.zipIdx start).map fun b => added b.1.1 b.1.2 b.2

/-- The built-in types whose names are not among some names. -/
def missing (names : List String) (builtins : List (String × Category)) : List (String × Category) :=
  builtins.filter fun b => !names.contains b.1

/-- Adds built-in types, one after the other. -/
def addAll (t : TypeTable) (builtins : List (String × Category)) : TypeTable :=
  builtins.foldl (fun t b => (t.addBuiltin b.1 b.2).2) t

theorem addAll_cons (t : TypeTable) (b : String × Category) (builtins : List (String × Category)) :
    t.addAll (b :: builtins) = (t.addBuiltin b.1 b.2).2.addAll builtins := rfl

/-- **Each name is looked for among all that came before**, but since no built-in name comes twice, those
of the first table decide. -/
theorem addAll_rows (t : TypeTable) {builtins : List (String × Category)}
    (hnodup : (builtins.map (·.1)).Nodup) :
    (t.addAll builtins).descriptors.toList =
        t.descriptors.toList ++ addedRows t.descriptors.size (missing t.names builtins) ∧
      (t.addAll builtins).declared = t.declared := by
  induction builtins generalizing t with
  | nil => simp [addAll, missing, addedRows]
  | cons b builtins ih =>
    obtain ⟨hfresh, hnodup⟩ := List.nodup_cons.mp hnodup
    obtain ⟨hrows, hdeclared⟩ := ih (t.addBuiltin b.1 b.2).2 hnodup
    rw [addAll_cons, hrows, hdeclared]
    rcases addBuiltin_cases t b.1 b.2 with ⟨d, hd, hname, heq⟩ | ⟨hnone, heq⟩
    · have hthere : b.1 ∈ t.names := hname ▸ List.mem_map_of_mem (Array.mem_def.mp hd)
      rw [heq]
      simp [missing, hthere]
    · have hnot : b.1 ∉ t.names := by
        intro hmem
        obtain ⟨d, hd, hname⟩ := List.mem_map.mp hmem
        exact hnone d (Array.mem_def.mpr hd) hname
      have hrest : missing (t.names ++ [b.1]) builtins = missing t.names builtins := by
        apply List.filter_congr
        intro c hc
        have hne : c.1 ≠ b.1 := fun hsame => hfresh (List.mem_map.mpr ⟨c, hc, hsame⟩)
        simp [hne]
      have hnames : ((t.addBuiltin b.1 b.2).2).names = t.names ++ [b.1] := by
        rw [heq]
        simp [names, added]
      rw [hnames, hrest, heq]
      simp [missing, hnot, addedRows]

theorem foldl_addKind_snd (kinds : List Kind) (s : Array TypeId × TypeTable) :
    (kinds.foldl addKind s).2 = s.2.addAll (kinds.map fun k => (k.name, .primitive k)) := by
  induction kinds generalizing s with
  | nil => rfl
  | cons k kinds ih =>
    rw [List.foldl_cons, ih, List.map_cons, addAll_cons]
    rfl

/-- **The table with its built-in types**: the rows it had, and behind them those of the built-in types
that were missing. -/
theorem addBuiltins_rows (t : TypeTable) :
    t.addBuiltins.descriptors.toList =
        t.descriptors.toList ++ addedRows t.descriptors.size (missing t.names builtinTypes) ∧
      t.addBuiltins.declared = t.declared := by
  have hnodup : (builtinTypes.map (·.1)).Nodup := by decide
  have hall : t.addAll builtinTypes = (Kind.all.foldl addKind (#[], t.addOthers)).2 := by
    rw [foldl_addKind_snd, builtinTypes, addAll_cons, addAll_cons, addOthers]
  obtain ⟨hdescriptors, hdeclared, -⟩ := addBuiltins_eq t _ rfl
  rw [hdescriptors, hdeclared, ← hall]
  exact addAll_rows t hnodup

/-! ## The table of an image -/

/-- **A declared type as it is laid out.** -/
structure LaidOut (image : Image) (t : TypeTable) (decl : TypeDeclaration) (index : Nat)
    (d : Descriptor) : Prop where
  id : d.id = ⟨index⟩
  name : d.name = decl.name
  category : d.category = decl.category
  underlying : d.underlying = decl.underlying.map TypeId.mk
  isStatic : d.isStatic = decl.isStatic
  void : decl.category = .void → d.size = 0
  primitive : ∀ k, decl.category = .primitive k → d.size = k.size
  address : decl.category ∈ [.string, .object, .array, .pointer] → d.size = 8
  /-- A struct has the bytes of its instance fields. -/
  struct : decl.category = .struct → d.size = d.instanceSize ∧
    d.size = (decl.instanceFields.map fun f => (t.descriptor ⟨f.type⟩).size).sum
  /-- The size is what the declarations say, struct by struct. -/
  sized : Layout.Sized image.types index d.size
  /-- The fields are the declared ones in their order, with the bytes of slots of their types. -/
  fields : List.Forall₂ (fun (f : FieldDeclaration) (l : FieldLayout) => l.name = f.name ∧
    l.type = ⟨f.type⟩ ∧ l.isStatic = f.isStatic ∧ l.size = (t.descriptor l.type).size) decl.fields d.fields
  instances : Layout.Tiles d.instanceSize d.instanceFields
  statics : Layout.Tiles d.staticSize d.staticFields

/-- **An exact table**: the declared types by their numbers, each laid out as declared, and behind them
the built-in types that were not declared. -/
structure Exact (image : Image) (t : TypeTable) : Prop where
  declared : t.declared = image.types.size
  types : ∀ i decl, image.types[i]? = some decl →
    ∃ d, t.descriptors[i]? = some d ∧ t.descriptor ⟨i⟩ = d ∧ LaidOut image t decl i d
  behind : ∃ rows, rows.length = image.types.size ∧ t.descriptors.toList =
    rows ++ addedRows image.types.size (missing (image.types.toList.map (·.name)) builtinTypes)

section Layout

variable {image : Image} {t : TypeTable} {sizes : List Nat} {decl : TypeDeclaration} {index : Nat}
  {d : Descriptor}

theorem laidOut_of_described (h : ofImage image = .ok t)
    (hsizes : Layout.slotSizes image.types = .ok sizes) (hdecl : image.types[index]? = some decl)
    (hd : Layout.Described sizes decl index d) : LaidOut image t decl index d := by
  have hsized := hd.sized hdecl hsizes
  have hfixed : ∀ {size : Nat}, decl.category.slotSize? = some size → d.size = size :=
    fun hsize => hsized.unique (.fixed hdecl hsize)
  constructor
  case id => exact hd.id
  case name => exact hd.name
  case category => exact hd.category
  case underlying => exact hd.underlying
  case isStatic => exact hd.isStatic
  case void =>
    intro hvoid
    exact hfixed (by rw [hvoid]; rfl)
  case primitive =>
    intro k hk
    exact hfixed (by rw [hk]; rfl)
  case address =>
    intro haddress
    apply hfixed
    simp only [List.mem_cons, List.not_mem_nil, or_false] at haddress
    rcases haddress with hc | hc | hc | hc <;> (rw [hc]; rfl)
  case struct =>
    intro hstruct
    have hsize := hd.size_eq hdecl hsizes (hd.category.trans hstruct)
    refine ⟨hsize, ?_⟩
    rw [hsize, hd.total]
    congr 1
    apply List.map_congr_left
    intro f hf
    obtain ⟨size, hfield⟩ := hd.known (List.mem_filter.mp hf).1
    rw [hfield, size_of_declared h hsizes hfield]
    rfl
  case sized => exact hsized
  case fields =>
    refine hd.fields.imp ?_
    intro f l hplaces
    refine ⟨hplaces.name, hplaces.type, hplaces.isStatic, ?_⟩
    rw [hplaces.type, size_of_declared h hsizes hplaces.size]
  case instances => exact hd.instances.tiles
  case statics => exact hd.statics.tiles

/-- **The table of an image is exact.** -/
theorem exact_of_ofImage (h : ofImage image = .ok t) : Exact image t := by
  obtain ⟨sizes, t₀, hsizes, ht, hsize, hdeclared, hrow⟩ := ofImage_eq_addBuiltins h
  obtain ⟨hrows, hsame⟩ := addBuiltins_rows t₀
  rw [← ht] at hrows hsame
  have hnames : t₀.names = image.types.toList.map (·.name) := by
    apply List.ext_getElem?
    intro i
    unfold names
    simp only [List.getElem?_map, Array.getElem?_toList]
    cases hdecl : image.types[i]? with
    | some decl =>
      obtain ⟨d, hd, hdescribed⟩ := hrow i decl hdecl
      rw [hd, Option.map_some, Option.map_some, hdescribed.name]
    | none =>
      have hge := Array.getElem?_eq_none_iff.mp hdecl
      rw [Array.getElem?_eq_none (hsize ▸ hge)]
      rfl
  constructor
  case declared => rw [hsame, hdeclared]
  case types =>
    intro i decl hdecl
    obtain ⟨d, hd, hdescribed⟩ := hrow i decl hdecl
    have hhere : t.descriptors[i]? = some d := by
      have hlt := (Array.getElem?_eq_some_iff.mp hd).1
      rw [← Array.getElem?_toList, hrows, List.getElem?_append_left (by simpa using hlt),
        Array.getElem?_toList, hd]
    refine ⟨d, hhere, ?_, laidOut_of_described h hsizes hdecl hdescribed⟩
    unfold descriptor
    rw [hhere]
    rfl
  case behind =>
    refine ⟨t₀.descriptors.toList, by rw [Array.length_toList, hsize], ?_⟩
    rw [hrows, hnames, hsize]

end Layout

/-- A struct declared before the one inside it, a field without bytes, static fields between the others,
and only some of the built-in types. -/
def nested : Image where
  types := #[
    { name := "Outer", category := .struct,
      fields := [⟨"nothing", 3, false⟩, ⟨"shared", 1, true⟩, ⟨"first", 1, false⟩, ⟨"count", 2, true⟩,
        ⟨"second", 1, false⟩] },
    { name := "Inner", category := .struct, fields := [⟨"tag", 2, false⟩, ⟨"next", 4, false⟩] },
    { name := "byte", category := .primitive (.word .byte) },
    { name := "void", category := .void },
    { name := "Node", category := .object, fields := [⟨"value", 0, false⟩] },
    { name := "Outer[]", category := .array, underlying := some 0 }]

theorem exact_of_ofImage_nested : ∃ t, ofImage nested = .ok t ∧
    t.descriptors.toList.map (·.size) = [18, 9, 1, 0, 8, 8, 8, 1, 2, 2, 4, 4, 8, 8, 4, 8, 1, 2] ∧
    (t.descriptor ⟨0⟩).fields.map (fun l => (l.name, l.offset, l.size)) =
      [("nothing", 0, 0), ("shared", 0, 9), ("first", 0, 9), ("count", 9, 1), ("second", 9, 9)] ∧
    Exact nested t := by
  have hrun : (ofImage nested).toOption.any (fun t =>
      t.descriptors.toList.map (·.size) = [18, 9, 1, 0, 8, 8, 8, 1, 2, 2, 4, 4, 8, 8, 4, 8, 1, 2] ∧
      (t.descriptor ⟨0⟩).fields.map (fun l => (l.name, l.offset, l.size)) =
        [("nothing", 0, 0), ("shared", 0, 9), ("first", 0, 9), ("count", 9, 1), ("second", 9, 9)]) = true := by
    decide +kernel
  cases h : ofImage nested with
  | error e =>
    rw [h] at hrun
    cases hrun
  | ok t =>
    rw [h] at hrun
    obtain ⟨hsizes, hfields⟩ := of_decide_eq_true hrun
    exact ⟨t, rfl, hsizes, hfields, exact_of_ofImage h⟩

/-- **Without overflow checks the sizes are cut to words.** The highest of sixteen levels has no bytes
then, and its sixteen fields share two places. -/
theorem towering_not_exact : ∃ t, @ofImage .unchecked (Layout.towering 16) = .ok t ∧
    Layout.Sized (Layout.towering 16).types 16 (8 * UInt64.size) ∧ (t.descriptor ⟨16⟩).size = 0 ∧
    (t.descriptor ⟨16⟩).fields.map (·.offset) = (List.replicate 8 [0, UInt64.size / 2]).flatten ∧
    ¬ Exact (Layout.towering 16) t := by
  have hrun : (@ofImage .unchecked (Layout.towering 16)).toOption.any (fun t =>
      (t.descriptor ⟨16⟩).size = 0 ∧ (t.descriptor ⟨16⟩).fields.map (·.offset) =
        (List.replicate 8 [0, UInt64.size / 2]).flatten) = true := by
    decide +kernel
  have hsized : Layout.Sized (Layout.towering 16).types 16 (8 * UInt64.size) :=
    Layout.sized_towering (Nat.le_refl 16)
  cases h : @ofImage .unchecked (Layout.towering 16) with
  | error e =>
    rw [h] at hrun
    cases hrun
  | ok t =>
    rw [h] at hrun
    obtain ⟨hsize, hoffsets⟩ := of_decide_eq_true hrun
    refine ⟨t, rfl, hsized, hsize, hoffsets, fun hexact => ?_⟩
    obtain ⟨d, -, rfl, hlaid⟩ := hexact.types 16 (Layout.sixteen 15) rfl
    cases hsize.symm.trans (hlaid.sized.unique hsized)

end TypeTable

end ManagedVm
