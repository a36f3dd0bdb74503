import Mathlib.Data.List.NodupEquivFin
import ManagedVm.Proofs.Machine.Cells
import ManagedVm.Proofs.Machine.Storing
import ManagedVm.Proofs.Types.Acceptance
import ManagedVm.Proofs.Types.Packing

/-!
# Built-in types and the scalars that are made of them

The built-in types of a table are found by their names. A type that was declared under such a name is
taken whatever its category is; declarations are refused only if they repeat the name. So a built-in type
has its category exactly if the declaration of its name has, where there is one
(`BuiltinsServe.each`). Scalars are made as values of these types, and a scalar is read back from the
value that was made of it exactly if the type of its kind is of that kind (`BuiltinsServe.scalars`).
-/

namespace ManagedVm

/-- What stands at most once in a list stands at one place. -/
theorem eq_of_count_le_one {names : List String} {name : String} (h : names.count name ≤ 1)
    {i j : Nat} (hi : names[i]? = some name) (hj : names[j]? = some name) : i = j := by
  have hnot : ∀ {i j : Nat}, names[i]? = some name → names[j]? = some name → ¬ i < j := by
    intro i j hi hj hlt
    obtain ⟨hi, hi'⟩ := List.getElem?_eq_some_iff.mp hi
    obtain ⟨hj, hj'⟩ := List.getElem?_eq_some_iff.mp hj
    have hduplicate : List.Duplicate name names :=
      List.duplicate_iff_exists_distinct_get.mpr ⟨⟨i, hi⟩, ⟨j, hj⟩, hlt, hi'.symm, hj'.symm⟩
    have htwo := List.duplicate_iff_two_le_count.mp hduplicate
    omega
  exact Nat.le_antisymm (Nat.not_lt.mp (hnot hj hi)) (Nat.not_lt.mp (hnot hi hj))

/-! ## Rows of built-in names -/

/-- The type that serves as the built-in type of a category. -/
inductive Builtins.Serves (b : Builtins) : Category → TypeId → Prop
  | void : b.Serves .void b.void
  | string : b.Serves .string b.string
  | primitive (k : Kind) : b.Serves (.primitive k) (b.primitive k)

namespace TypeTable

theorem name_eq_of_mem_builtinTypes {name name' : String} {c : Category} (h : (name, c) ∈ builtinTypes)
    (h' : (name', c) ∈ builtinTypes) : name = name' := by
  have hall : ∀ b ∈ builtinTypes, ∀ b' ∈ builtinTypes, b.2 = b'.2 → b.1 = b'.1 := by decide
  exact hall _ h _ h' rfl

/-- Every built-in type is served. -/
theorem exists_serves {name : String} {c : Category} (h : (name, c) ∈ builtinTypes) (b : Builtins) :
    ∃ id, b.Serves c id := by
  rcases List.mem_cons.mp h with heq | h
  · cases heq
    exact ⟨_, .void⟩
  rcases List.mem_cons.mp h with heq | h
  · cases heq
    exact ⟨_, .string⟩
  · obtain ⟨k, -, heq⟩ := List.mem_map.mp h
    cases heq
    exact ⟨_, .primitive k⟩

theorem builtins_addBuiltins (t : TypeTable) :
    t.addBuiltins.builtins.void = (t.addBuiltin "void" .void).1 ∧
      t.addBuiltins.builtins.string = ((t.addBuiltin "void" .void).2.addBuiltin "string" .string).1 := by
  unfold addBuiltins
  -- With a list that is not known the fold is not run.
  generalize Kind.all = kinds
  exact ⟨rfl, rfl⟩

/-- The built-in types that are not primitive are rows with their names, too. -/
theorem Rows.addBuiltins_others {P : Descriptor → Prop} {t : TypeTable} (h : t.Rows P)
    (hnew : ∀ b ∈ builtinTypes, ∀ i, P (added b.1 b.2 i)) :
    (∃ d, t.addBuiltins.descriptors[t.addBuiltins.builtins.void.index]? = some d ∧ d.name = "void") ∧
      ∃ d, t.addBuiltins.descriptors[t.addBuiltins.builtins.string.index]? = some d ∧
        d.name = "string" := by
  have hvoid := h.addBuiltin (hnew ("void", .void) (.head _))
  have hothers : t.addOthers.Rows P :=
    hvoid.addBuiltin (hnew ("string", .string) (.tail _ (.head _)))
  obtain ⟨-, hgrows, -⟩ :=
    foldl_addKind (fun k => hnew _ (mem_builtinTypes k)) Kind.all (#[], t.addOthers) hothers
  generalize hs : Kind.all.foldl addKind (#[], t.addOthers) = s at hgrows
  obtain ⟨hdescriptors, -, -⟩ := addBuiltins_eq t s hs
  rw [(builtins_addBuiltins t).1, (builtins_addBuiltins t).2, hdescriptors]
  obtain ⟨d, hd, hname⟩ := h.addBuiltin_row "void" .void
  obtain ⟨d', hd', hname'⟩ := hvoid.addBuiltin_row "string" .string
  exact ⟨⟨d, hgrows _ d (grows_addBuiltin _ "string" .string _ d hd), hname⟩,
    ⟨d', hgrows _ d' hd', hname'⟩⟩

section Accepted

variable {image : Image} {t : TypeTable} (h : ofImage image = .ok t)

include h

/-- A type that serves is a row with the name of the built-in type. -/
theorem row_of_serves {c : Category} {id : TypeId} (hserves : t.builtins.Serves c id) :
    ∃ d, t.descriptors[id.index]? = some d ∧ (d.name, c) ∈ builtinTypes := by
  obtain ⟨sizes, hsizes⟩ := slotSizes_of_ofImage h
  obtain ⟨hrows, -, hkinds⟩ := rows_of_ofImage (P := fun _ => True) h hsizes
    (fun _ _ _ _ _ => trivial) fun _ _ _ => trivial
  have hothers : (∃ d, t.descriptors[t.builtins.void.index]? = some d ∧ d.name = "void") ∧
      ∃ d, t.descriptors[t.builtins.string.index]? = some d ∧ d.name = "string" := by
    obtain ⟨sizes', t₀, -, ht, hsize, -, hrow⟩ := ofImage_eq_addBuiltins h
    have hrows₀ : t₀.Rows fun _ => True := by
      refine ⟨fun i d hd => ?_, fun _ _ _ => trivial⟩
      have hlt : i < image.types.size := hsize ▸ (Array.getElem?_eq_some_iff.mp hd).1
      obtain ⟨d', hd', hdescribed⟩ := hrow i _ (Array.getElem?_eq_getElem hlt)
      cases hd.symm.trans hd'
      exact hdescribed.id
    have hnamed := hrows₀.addBuiltins_others fun _ _ _ => trivial
    rwa [← ht] at hnamed
  cases hserves with
  | void =>
    obtain ⟨d, hd, hname⟩ := hothers.1
    exact ⟨d, hd, hname ▸ .head _⟩
  | string =>
    obtain ⟨d, hd, hname⟩ := hothers.2
    exact ⟨d, hd, hname ▸ .tail _ (.head _)⟩
  | primitive k =>
    obtain ⟨d, hd, hname⟩ := hkinds k
    exact ⟨d, hd, hname ▸ mem_builtinTypes k⟩

/-- **A declared type of a built-in name is the only row of that name.** -/
theorem eq_of_builtin_row {name : String} (hbuiltin : BuiltinName name) {i j : Nat}
    {decl : TypeDeclaration} {d : Descriptor} (hdecl : image.types[i]? = some decl)
    (hname : decl.name = name) (hd : t.descriptors[j]? = some d) (hname' : d.name = name) : j = i := by
  have honce := (sound_of_ofImage h).once name hbuiltin
  obtain ⟨sizes, t₀, -, ht, hsize, -, hrow⟩ := ofImage_eq_addBuiltins h
  obtain ⟨hrows, -⟩ := addBuiltins_rows t₀
  rw [← ht] at hrows
  rw [← Array.getElem?_toList, hrows] at hd
  by_cases hj : j < t₀.descriptors.toList.length
  · -- both are declared, and the declarations do not repeat the name
    rw [List.getElem?_append_left hj, Array.getElem?_toList] at hd
    have hlt : j < image.types.size := by
      rw [Array.length_toList, hsize] at hj
      exact hj
    obtain ⟨d', hd', hdescribed⟩ := hrow j _ (Array.getElem?_eq_getElem hlt)
    cases hd.symm.trans hd'
    refine eq_of_count_le_one honce ?_ ?_
    · rw [List.getElem?_map, Array.getElem?_toList, Array.getElem?_eq_getElem hlt, Option.map_some,
        ← hdescribed.name, hname']
    · rw [List.getElem?_map, Array.getElem?_toList, hdecl, Option.map_some, hname]
  · -- what is added has a name that no declared type has
    rw [List.getElem?_append_right (Nat.not_lt.mp hj)] at hd
    obtain ⟨d', hd', hdescribed⟩ := hrow i decl hdecl
    have hmem : name ∈ t₀.names := by
      rw [← hname, ← hdescribed.name]
      exact List.mem_map_of_mem (Array.mem_def.mp (Array.mem_of_getElem? hd'))
    obtain ⟨b, hb, rfl⟩ := List.mem_map.mp (List.mem_of_getElem? hd)
    have hmissing := (List.mem_filter.mp (List.fst_mem_of_mem_zipIdx hb)).2
    have hb : b.1.1 = name := hname'
    rw [hb] at hmissing
    simp [hmem] at hmissing

/-- **A built-in type has its category exactly if what is declared under its name has.** -/
theorem category_of_serves_iff {c : Category} {id : TypeId} (hserves : t.builtins.Serves c id) :
    (t.descriptor id).category = c ↔
      ∀ decl ∈ image.types, (decl.name, c) ∈ builtinTypes → decl.category = c := by
  obtain ⟨sizes, hsizes⟩ := slotSizes_of_ofImage h
  obtain ⟨d, hd, hbuiltin⟩ := row_of_serves h hserves
  have hdescriptor : t.descriptor id = d := by
    unfold descriptor
    rw [hd]
    rfl
  rw [hdescriptor]
  constructor
  · intro hcategory decl hmem hdecl
    obtain ⟨i, hi⟩ := Array.getElem?_of_mem hmem
    obtain ⟨-, hrow, -⟩ := rows_of_ofImage (P := fun _ => True) h hsizes
      (fun _ _ _ _ _ => trivial) fun _ _ _ => trivial
    have hname : BuiltinName decl.name :=
      Layout.isBuiltinName_iff.mp (List.any_eq_true.mpr ⟨_, hdecl, by simp⟩)
    have hplace := eq_of_builtin_row h hname hi rfl hd (name_eq_of_mem_builtinTypes hbuiltin hdecl)
    obtain ⟨d', hd', hdescribed⟩ := hrow i decl hi
    rw [← hplace] at hd'
    cases hd.symm.trans hd'
    exact hdescribed.category.symm.trans hcategory
  · intro hdeclared
    obtain ⟨hrows, -⟩ := rows_of_ofImage (P := fun r => r.name = d.name → r.category = c) h hsizes
      (fun i decl r hdecl hr hname => by
        rw [hr.category]
        refine hdeclared decl (Array.mem_of_getElem? hdecl) ?_
        rw [← hr.name, hname]
        exact hbuiltin)
      fun b hb i hname => by
        have hb : (d.name, b.2) ∈ builtinTypes := hname ▸ hb
        exact category_eq_of_mem_builtinTypes hb hbuiltin
    exact hrows.each _ d hd rfl

theorem size_of_primitive {type : TypeId} {kind : Kind}
    (hcategory : (t.descriptor type).category = .primitive kind) :
    (t.descriptor type).size = kind.size := by
  apply size_of_ofImage h
  rw [hcategory]
  rfl

end Accepted

end TypeTable

/-! ## Scalars -/

namespace Machine

/-- The innermost frame has so many bytes of scratch left, or may be extended to have them. -/
def HasScratch (m : Machine) (count : Nat) : Prop :=
  ∃ f rest, m.stack.frames = f :: rest ∧
    (f.cursor + count ≤ f.stop ∨ f.cursor + count ≤ m.stack.limit.toNat)

/-- A value is made of the scalar, and the scalar is read back from it. -/
def KeepsScalar (m : Machine) (s : Scalar) : Prop :=
  ∃ v m', Exec.makeScalar s m = .ok v m' ∧ m'.readScalar v = .ok s

end Machine

namespace Exec

variable {m m' : Machine} {type : TypeId} {s : Scalar} {kind : Kind} {v : Value}

theorem carve_of_hasScratch {count : Nat} (h : m.HasScratch count) : ∃ a m', carve count m = .ok a m' := by
  obtain ⟨f, rest, hframes, hroom⟩ := h
  have hplan : ∃ c, m.stack.planCarving count = .ok c := by
    rcases hroom with hfits | hlimit
    · obtain ⟨c, hplan, -⟩ := FrameStack.carve_of_fits hframes hfits
      exact ⟨c, hplan⟩
    · rcases FrameStack.planCarving_cases hframes count with ⟨-, hover⟩ | ⟨c, hplan, -⟩
      · omega
      · exact ⟨c, hplan⟩
  obtain ⟨c, hplan⟩ := hplan
  obtain ⟨journal, hcarve⟩ := carve_eq hplan
  exact ⟨_, _, hcarve⟩

theorem makeScalar_apply (s : Scalar) (m : Machine) :
    makeScalar s m = makePrimitive (m.types.builtins.primitive s.kind) s m := rfl

/-- What is made of a scalar has a primitive type. -/
theorem category_of_makePrimitive (h : makePrimitive type s m = .ok v m') :
    ∃ kind, (m.descriptor type).category = .primitive kind := by
  have hquery : query (fun m => .ok (m.descriptor type).category) m =
      .ok (m.descriptor type).category m := query_of_ok rfl
  unfold makePrimitive at h
  rw [bind_of_ok hquery] at h
  cases hcategory : (m.descriptor type).category with
  | primitive kind => exact ⟨kind, rfl⟩
  | _ =>
    rw [hcategory] at h
    cases h

section Primitive

variable (hcategory : (m.descriptor type).category = .primitive kind)

include hcategory

theorem makePrimitive_apply : makePrimitive type s m = (do
    let a ← carve kind.size
    write a (s.convert kind).encode
    return Value.primitive type a : Exec Value) m := by
  have hquery : query (fun m => .ok (m.descriptor type).category) m = .ok (.primitive kind) m :=
    query_of_ok (congrArg Except.ok hcategory)
  unfold makePrimitive
  rw [bind_of_ok hquery]
  dsimp only
  rw [Scalar.length_encode, Scalar.kind_convert]

/-- **A value of a primitive type is made** in scratch of the size of its kind, if there is as much. -/
theorem makePrimitive_eq_ok : makePrimitive type s m = .ok v m' ↔
    ∃ a m₁, carve kind.size m = .ok a m₁ ∧ v = .primitive type a ∧
      m' = m₁.poked a (s.convert kind).encode := by
  have hwrite : ∀ {a m₁}, carve kind.size m = .ok a m₁ →
      write a (s.convert kind).encode m₁ = .ok ⟨⟩ (m₁.poked a (s.convert kind).encode) := by
    intro a m₁ hcarve
    apply write_of_accessible
    rw [Scalar.length_encode, Scalar.kind_convert]
    exact accessible_carved hcarve
  rw [makePrimitive_apply hcategory]
  constructor
  · intro h
    obtain ⟨a, m₁, hcarve, h⟩ := bind_eq_ok.mp h
    rw [bind_of_ok (hwrite hcarve)] at h
    obtain ⟨rfl, rfl⟩ := EStateM.Result.ok.inj h
    exact ⟨a, m₁, hcarve, rfl, rfl⟩
  · rintro ⟨a, m₁, hcarve, rfl, rfl⟩
    rw [bind_of_ok hcarve, bind_of_ok (hwrite hcarve)]
    rfl

/-- **What is read back is the scalar as one of the type's kind.** -/
theorem readScalar_of_makePrimitive (hsize : (m.descriptor type).size = kind.size)
    (h : makePrimitive type s m = .ok v m') : m'.readScalar v = .ok (s.convert kind) := by
  obtain ⟨a, m₁, hcarve, rfl, rfl⟩ := (makePrimitive_eq_ok hcategory).mp h
  have htypes : m₁.types = m.types := by
    obtain ⟨c, journal, -, -, rfl⟩ := eq_of_carve hcarve
    rfl
  have hdescriptor : (m₁.poked a (s.convert kind).encode).descriptor type = m.descriptor type := by
    unfold Machine.descriptor
    rw [Machine.types_poked, htypes]
  have hlength : (s.convert kind).encode.length = kind.size := by
    rw [Scalar.length_encode, Scalar.kind_convert]
  have hread : (m₁.poked a (s.convert kind).encode).read a kind.size = .ok (s.convert kind).encode := by
    rw [Machine.read_of_accessible (accessible_carved hcarve).poked, ← hlength, Machine.bytesAt_poked]
  have hdecode := (s.convert kind).decode?_encode
  rw [Scalar.kind_convert] at hdecode
  unfold Machine.readScalar
  dsimp only
  rw [hdescriptor, hcategory, hsize]
  dsimp only
  rw [hread]
  dsimp only [bind, Except.bind]
  rw [hdecode]
  rfl

end Primitive

end Exec

/-! ## Both -/

/-- **What the built-in types of a table are good for.** -/
structure BuiltinsServe (image : Image) (t : TypeTable) : Prop where
  /-- Each has its category exactly if what is declared under its name has. -/
  each : ∀ c id, t.builtins.Serves c id → ((t.descriptor id).category = c ↔
    ∀ decl ∈ image.types, (decl.name, c) ∈ builtinTypes → decl.category = c)
  /-- All have theirs exactly if all such declarations are what their names say. -/
  all : (∀ c id, t.builtins.Serves c id → (t.descriptor id).category = c) ↔ image.BuiltinsAgree
  /-- A slot of the type of a kind then has the kind's size. -/
  size : ∀ k : Kind, (t.descriptor (t.builtins.primitive k)).category = .primitive k →
    (t.descriptor (t.builtins.primitive k)).size = k.size
  /-- A scalar is made and read back exactly if the type of its kind is of that kind. -/
  scalars : ∀ (m : Machine) (s : Scalar), m.types = t → m.HasScratch s.kind.size →
    (m.KeepsScalar s ↔ (t.descriptor (t.builtins.primitive s.kind)).category = .primitive s.kind)

/-- A scalar is kept exactly by a type of its kind. -/
theorem Machine.keepsScalar_iff {image : Image} {m : Machine} {s : Scalar}
    (h : TypeTable.ofImage image = .ok m.types) (hscratch : m.HasScratch s.kind.size) :
    m.KeepsScalar s ↔ (m.descriptor (m.types.builtins.primitive s.kind)).category = .primitive s.kind := by
  constructor
  · rintro ⟨v, m', hmake, hread⟩
    rw [Exec.makeScalar_apply] at hmake
    obtain ⟨kind, hcategory⟩ := Exec.category_of_makePrimitive hmake
    have hback :=
      Exec.readScalar_of_makePrimitive hcategory (TypeTable.size_of_primitive h hcategory) hmake
    have hkind : s.kind = kind := by
      rw [Except.ok.inj (hread.symm.trans hback), Scalar.kind_convert]
    rw [hcategory, hkind]
  · intro hcategory
    obtain ⟨a, m₁, hcarve⟩ := Exec.carve_of_hasScratch hscratch
    have hmake := (Exec.makePrimitive_eq_ok (s := s) hcategory).mpr ⟨a, m₁, hcarve, rfl, rfl⟩
    have hread :=
      Exec.readScalar_of_makePrimitive hcategory (TypeTable.size_of_primitive h hcategory) hmake
    exact ⟨_, _, hmake, hread.trans (congrArg Except.ok s.convert_kind)⟩

theorem builtinsServe_of_ofImage {image : Image} {t : TypeTable} (h : TypeTable.ofImage image = .ok t) :
    BuiltinsServe image t where
  each _ _ hserves := TypeTable.category_of_serves_iff h hserves
  all := by
    constructor
    · intro hall decl hdecl c hc
      obtain ⟨id, hserves⟩ := TypeTable.exists_serves hc t.builtins
      exact (TypeTable.category_of_serves_iff h hserves).mp (hall c id hserves) decl hdecl hc
    · intro hagree c id hserves
      exact (TypeTable.category_of_serves_iff h hserves).mpr fun decl hdecl => hagree decl hdecl c
  size _ hcategory := TypeTable.size_of_primitive h hcategory
  scalars m s htypes hscratch := by
    subst htypes
    exact Machine.keepsScalar_iff h hscratch

/-- A machine with one frame of four bytes, which may be extended. -/
def idle (image : Image) (t : TypeTable) : Machine where
  image := image
  types := t
  heap := default
  stack :=
    { arena := Arena.zeroed 4
      frames := [{ base := 0, stop := 4, scratch := 0, cursor := 0, maxDepth := 1 }]
      limit := 64 }

theorem hasScratch_idle (image : Image) (t : TypeTable) : (idle image t).HasScratch 8 := by
  refine ⟨_, _, rfl, .inr ?_⟩
  show 0 + 8 ≤ 64
  decide

/-- The corners declare one built-in type, which is what its name says. The frame is extended for the
scalar. -/
theorem builtinsServe_of_ofImage_corners : ∃ t, TypeTable.ofImage Machine.corners = .ok t ∧
    Machine.corners.BuiltinsAgree ∧ BuiltinsServe Machine.corners t ∧
    (idle Machine.corners t).KeepsScalar (.ofInt .long (-2)) := by
  have haccepted : (TypeTable.ofImage Machine.corners).toOption.isSome = true := by decide
  have hagree : Machine.corners.BuiltinsAgree := by decide
  cases htypes : TypeTable.ofImage Machine.corners with
  | error e =>
    rw [htypes] at haccepted
    cases haccepted
  | ok t =>
    have hserve := builtinsServe_of_ofImage htypes
    have hkeeps := hserve.scalars (idle Machine.corners t) (.ofInt .long (-2)) rfl (hasScratch_idle _ t)
    exact ⟨t, rfl, hagree, hserve,
      hkeeps.mpr (hserve.all.mpr hagree _ _ (.primitive (.word .long)))⟩

/-- A long that is declared under the name of the ints. -/
def mislabelled : Image where
  types := #[{ name := "int", category := .primitive (.word .long) }]

/-- **A type that is declared under a built-in name is taken for the built-in type**: of an int a long is
made. -/
theorem long_made_of_int : ∃ t, TypeTable.ofImage mislabelled = .ok t ∧
    (t.descriptor (t.builtins.primitive (.word .int))).category = .primitive (.word .long) ∧
    ∃ v m', Exec.makeScalar (.ofInt .int 5) (idle mislabelled t) = .ok v m' ∧
      m'.readScalar v = .ok (.ofInt .long 5) := by
  have hrun : (TypeTable.ofImage mislabelled).toOption.any (fun t =>
      (t.descriptor (t.builtins.primitive (.word .int))).category = .primitive (.word .long)) = true := by
    decide
  cases htypes : TypeTable.ofImage mislabelled with
  | error e =>
    rw [htypes] at hrun
    cases hrun
  | ok t =>
    rw [htypes] at hrun
    have hcategory : ((idle mislabelled t).descriptor (t.builtins.primitive (.word .int))).category =
        .primitive (.word .long) := of_decide_eq_true hrun
    obtain ⟨a, m₁, hcarve⟩ := Exec.carve_of_hasScratch (hasScratch_idle mislabelled t)
    have hmake := (Exec.makePrimitive_eq_ok (s := .ofInt .int 5) hcategory).mpr
      ⟨a, m₁, hcarve, rfl, rfl⟩
    exact ⟨t, rfl, hcategory, _, _, hmake, Exec.readScalar_of_makePrimitive hcategory
      (TypeTable.size_of_primitive htypes hcategory) hmake⟩

end ManagedVm
