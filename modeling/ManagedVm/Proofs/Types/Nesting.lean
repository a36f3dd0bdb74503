import Mathlib.Data.List.Nodup
import Mathlib.Data.List.Perm.Subperm
import Mathlib.Data.List.Range
import Mathlib.Logic.Relation
import Mathlib.Order.WellFounded
import ManagedVm.Machine.References
import ManagedVm.Proofs.Types.Builtins

/-!
# How deep structs are nested

A struct lies inline in every slot of its type, so a struct that contains itself has no size. The
type table refuses such declarations: it finds a size for each, and what has a size has the sizes of
all its fields before it (`Sized.acc`). Read as a statement about the table, containment is well founded
(`wellFounded_contains`), and since a chain of structs that contain each other repeats no type, no
chain is longer than the table (`nestedWithin_nesting`).

This is why functions that follow the nesting may take the number of types as their fuel.
-/

namespace ManagedVm

namespace Layout

/-- Declaration `outer` is a struct with an instance field of declaration `inner`. -/
def Inline (types : Array TypeDeclaration) (inner outer : Nat) : Prop :=
  ∃ d, types[outer]? = some d ∧ d.category = .struct ∧ ∃ f ∈ d.instanceFields, f.type = inner

/-- A declaration that has a size contains structs to a finite depth only. -/
theorem Sized.acc {types : Array TypeDeclaration} {index size : Nat} (h : Sized types index size) :
    Acc (Inline types) index := by
  induction h with
  | @fixed index size d hd hfixed =>
    constructor
    rintro inner ⟨d', hd', hstruct, -⟩
    cases hd.symm.trans hd'
    rw [hstruct] at hfixed
    cases hfixed
  | @fields index d size hd hnone _ ih =>
    constructor
    rintro inner ⟨d', hd', -, f, hf, rfl⟩
    cases hd.symm.trans hd'
    exact ih f hf

/-- Declarations that all have a size contain no struct without end. -/
theorem wellFounded_inline [Build] {types : Array TypeDeclaration} {sizes : List Nat}
    (h : slotSizes types = .ok sizes) : WellFounded (Inline types) := by
  obtain ⟨hlength, hwords⟩ := words_of_slotSizes h
  constructor
  intro i
  by_cases hi : i < types.size
  · obtain ⟨bytes, hsized, -⟩ := hwords i _ (List.getElem?_eq_getElem (hlength ▸ hi))
    exact hsized.acc
  · constructor
    rintro inner ⟨d, hd, -⟩
    rw [Array.getElem?_eq_none (Nat.le_of_not_lt hi)] at hd
    cases hd

end Layout

namespace TypeTable

/-- Type `outer` is a struct with an instance field of type `inner`. -/
def Contains (t : TypeTable) (inner outer : TypeId) : Prop :=
  (t.descriptor outer).category = .struct ∧ ∃ f ∈ (t.descriptor outer).instanceFields, f.type = inner

/-- A struct with fields is a declared one, and contains what its declaration does. -/
theorem inline_of_contains {image : Image} {t : TypeTable} (h : ofImage image = .ok t)
    {inner outer : TypeId} (hc : t.Contains inner outer) :
    Layout.Inline image.types inner.index outer.index := by
  obtain ⟨sizes, hsizes⟩ := slotSizes_of_ofImage h
  obtain ⟨hrows, -⟩ := rows_of_ofImage h hsizes
    (P := fun d => d.category = .struct → ∀ l ∈ d.instanceFields,
      Layout.Inline image.types l.type.index d.id.index)
    (fun i decl d hdecl hd hstruct l hl => by
      obtain ⟨hl, hinstance⟩ := List.mem_filter.mp hl
      obtain ⟨f, hf, htype, hsame, -⟩ := hd.field hl
      rw [hd.id, htype]
      exact ⟨decl, hdecl, hd.category ▸ hstruct, f, List.mem_filter.mpr ⟨hf, hsame ▸ hinstance⟩, rfl⟩)
    (fun b _ i _ l hl => nomatch hl)
  obtain ⟨hstruct, l, hl, rfl⟩ := hc
  unfold descriptor at hstruct hl
  cases hd : t.descriptors[outer.index]? with
  | none =>
    rw [hd] at hl
    cases hl
  | some d =>
    rw [hd] at hstruct hl
    have hinline := hrows.each outer.index d hd hstruct l hl
    rw [hrows.id outer.index d hd] at hinline
    exact hinline

/-- **Containment is well founded** in every table made from an image. -/
theorem wellFounded_contains {image : Image} {t : TypeTable} (h : ofImage image = .ok t) :
    WellFounded t.Contains := by
  obtain ⟨sizes, hsizes⟩ := slotSizes_of_ofImage h
  exact Subrelation.wf (inline_of_contains h) (InvImage.wf TypeId.index (Layout.wellFounded_inline hsizes))

/-! ## The depth of nesting -/

/-- Structs are nested in the type no deeper than a number of levels. -/
def NestedWithin (t : TypeTable) : (levels : Nat) → TypeId → Prop
  | 0, _ => False
  | levels + 1, outer => ∀ inner, t.Contains inner outer → t.NestedWithin levels inner

theorem index_lt_of_contains {t : TypeTable} {inner outer : TypeId} (hc : t.Contains inner outer) :
    outer.index < t.descriptors.size := by
  obtain ⟨-, l, hl, -⟩ := hc
  by_cases hlt : outer.index < t.descriptors.size
  · exact hlt
  · rw [descriptor, Array.getElem?_eq_none (Nat.le_of_not_lt hlt)] at hl
    cases hl

/-- The types on the way down to a type are all different, because containment is well founded, and
all in the table; so the way is no longer than the table, which leaves a level for each type that
is not on it. -/
theorem nestedWithin_of_path {t : TypeTable} (hwf : WellFounded t.Contains) (a : TypeId) :
    ∀ path : List TypeId, path.Nodup → (∀ b ∈ path, b.index < t.descriptors.size) →
      (∀ b ∈ path, Relation.TransGen t.Contains a b) →
        ∀ levels, t.descriptors.size < path.length + levels → t.NestedWithin levels a := by
  induction a using hwf.induction with
  | _ a ih =>
    intro path hnodup hbound hpath levels hlevels
    have hlength : path.length ≤ t.descriptors.size := by
      have hsub : path.map TypeId.index ⊆ List.range t.descriptors.size := by
        intro i hi
        obtain ⟨b, hb, rfl⟩ := List.mem_map.mp hi
        exact List.mem_range.mpr (hbound b hb)
      have hinj : (path.map TypeId.index).Nodup :=
        hnodup.map fun b c heq => by cases b; cases c; exact congrArg TypeId.mk heq
      simpa using (hinj.subperm hsub).length_le
    cases levels with
    | zero => omega
    | succ levels =>
      intro inner hc
      have hfresh : a ∉ path := fun ha => hwf.transGen.irrefl.irrefl a (hpath a ha)
      refine ih inner hc (a :: path) (List.nodup_cons.mpr ⟨hfresh, hnodup⟩) ?_ ?_ levels ?_
      · intro b hb
        rcases List.mem_cons.mp hb with rfl | hb
        · exact index_lt_of_contains hc
        · exact hbound b hb
      · intro b hb
        rcases List.mem_cons.mp hb with rfl | hb
        · exact .single hc
        · exact .head hc (hpath b hb)
      · rw [List.length_cons]
        omega

end TypeTable

/-- **The fuel suffices**: structs are nested in no type deeper than the number of levels that the
machine follows. -/
theorem Machine.nestedWithin_nesting {m : Machine} {image : Image}
    (h : TypeTable.ofImage image = .ok m.types) (a : TypeId) :
    m.types.NestedWithin m.nesting a :=
  TypeTable.nestedWithin_of_path (TypeTable.wellFounded_contains h) a [] .nil
    (fun b hb => nomatch hb) (fun b hb => nomatch hb) _ (by simp [nesting])

end ManagedVm
