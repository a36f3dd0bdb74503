import ManagedVm.Machine.Memory
import ManagedVm.Proofs.Heap.Lookup

/-!
# The shape of objects

The header of an object says how many bytes it has and what it is. The heap itself does not compare
the two; a machine makes objects only with headers that fit the type table (`TypeTable.Shaped`), and
it never frees a block of static fields. These are the calls that a table allows
(`TypeTable.Allows`). Whatever calls of this kind are made, every live object has its shape and the
static blocks stay (`Heap.Reached.shaped`), for neither writing nor freeing changes a header.
-/

namespace ManagedVm

namespace TypeTable

/-- **The size and the type of an object fit its kind.** -/
def Shaped (t : TypeTable) (type : TypeId) (size : Nat) : ObjectKind → Prop
  | .string => Machine.lengthSize ≤ size
  | .object =>
    (t.descriptor type).category = .object ∧ size = (t.descriptor type).instanceSize
  | .array element length =>
    (t.descriptor type).category = .array ∧ (t.descriptor type).underlying = some element ∧
      size = Machine.lengthSize + length * (t.descriptor element).size
  | .statics => size = (t.descriptor type).staticSize

/-- The calls of a machine with the types. -/
def Allows (t : TypeTable) (h : Heap) : Heap.Call → Prop
  | .allocate size type kind => t.Shaped type size kind
  | .free a => ∀ o, h.get a = .ok o → o.kind ≠ .statics
  | .write .. | .change .. => True

end TypeTable

theorem Machine.underlying_eq_ok {d : Descriptor} {element : TypeId} :
    underlying d = .ok element ↔ d.underlying = some element := by
  unfold underlying
  cases d.underlying with
  | none => simp
  | some u => simp

namespace Heap

/-- Every live object has the shape that the types give it. -/
def ShapedBy (t : TypeTable) (h : Heap) : Prop := ∀ o ∈ h.objects, t.Shaped o.type o.size o.kind

variable {t : TypeTable} {h h' : Heap} {c : Call}

/-- **One step**: an object that is new was asked for with its shape. -/
theorem ShapedBy.after (hs : h.ShapedBy t) (inv : h.Inv) (hallows : t.Allows h c) :
    (h.after c).ShapedBy t := by
  intro o ho
  rcases (mem_after inv c).1 ho with ho | ⟨size, type, kind, a, rfl, rfl⟩
  · exact hs o ho
  · exact hallows

/-- **One step**: a block of static fields is not freed. -/
theorem statics_after (inv : h.Inv) (hallows : t.Allows h c) {o : Object} (ho : o ∈ h.objects)
    (hkind : o.kind = .statics) : o ∈ (h.after c).objects := by
  rcases (mem_after inv c).2 ho with ho | ⟨a, rfl, hget⟩
  · exact ho
  · exact absurd hkind (hallows o hget)

/-- **Every run**: objects have their shapes, and blocks of static fields stay. -/
theorem Reached.shaped {settings : Settings} (hr : Reached settings h) (hs : h.ShapedBy t)
    (hled : LeadsTo t.Allows h h') (hfits : h'.arena.size < Address.stackStart.toNat) :
    Reached settings h' ∧ h'.ShapedBy t ∧ ∀ o ∈ h.objects, o.kind = .statics → o ∈ h'.objects := by
  apply hr.run (P := fun h' => h'.ShapedBy t ∧ ∀ o ∈ h.objects, o.kind = .statics → o ∈ h'.objects) _ _
    hled hfits
  · exact ⟨hs, fun o ho _ => ho⟩
  · rintro h₁ c inv hallows ⟨hs₁, hstatics⟩
    refine ⟨hs₁.after inv hallows, ?_⟩
    intro o ho hkind
    exact statics_after inv hallows (hstatics o ho hkind) hkind

end Heap

end ManagedVm
