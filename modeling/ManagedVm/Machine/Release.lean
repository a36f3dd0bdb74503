import ManagedVm.Machine.References

/-!
# Releasing objects

There is no collector. Whenever a value leaves the evaluation stack or a slot is overwritten, the
objects it referred to are freed unless something else still refers to them, and then what they
referred to is looked at in turn. Blocks of static fields are never freed.
-/

namespace ManagedVm

/-- The first of the targets that is an object to free, and the targets behind it. Targets are
skipped that are no live object, a block of static fields, or referred to. -/
def Machine.firstDead [Build] (m : Machine) :
    List Address → Except Error (Option (Heap.Object × List Address))
  | [] => .ok none
  | target :: rest =>
    match m.heap.get target with
    | .error _ => m.firstDead rest
    | .ok o =>
      if o.kind = .statics then
        m.firstDead rest
      else do
        if ← m.isReferenced target then
          m.firstDead rest
        else
          return some (o, rest)

namespace Exec

variable [Build]

/-- Frees up to `count` objects, starting with the targets; the targets come last one first. -/
def releaseUpTo : (count : Nat) → (targets : List Address) → Exec Unit
  | 0, _ => pure ()
  | count + 1, targets => do
    match ← query (·.firstDead targets) with
    | none => pure ()
    | some (o, rest) =>
      let inner ← query (·.referencesOf o)
      discard <| freeObject o.address
      record (.released o.kind o.address)
      releaseUpTo count (inner.reverse ++ rest)

/-- Frees every target that nothing refers to, and whatever only the freed objects referred to. Each
round frees an object, so the number of live objects bounds the rounds. -/
def release (targets : List Address) : Exec Unit := do
  releaseUpTo (← query fun m => .ok m.heap.objects.length) targets.reverse

/-- Frees what a value that has been dropped kept alive. -/
def releaseValue (v : Value) : Exec Unit := do
  release (← query (·.ownedTargets v))

/-- Stores a value in a slot, and frees what the slot referred to before. -/
def assign (address : Address) (type : TypeId) (v : Value) : Exec Unit := do
  let previous ← query (·.referencesIn address type)
  store address type v
  release previous

/-- Stores a value in a local or an argument of the innermost frame, and frees what the slot
referred to before. -/
def assignSlot (choose : Frame → Except Error Binding) (v : Value) : Exec Unit := do
  let b ← query (·.slot choose)
  assign b.address b.type v

end Exec

end ManagedVm
