import ManagedVm.Machine.Invoke

/-!
# The host's side

Starting a machine, and what the host does with it between invocations. The host has a frame of its
own at the bottom of the stack, in which it receives results and keeps values alive.
-/

namespace ManagedVm

namespace Exec

variable [Build]

/-- Makes the block of static fields of each type that has some. -/
def makeStatics : List Descriptor → Exec Unit
  | [] => pure ()
  | d :: rest => do
    if 0 < d.staticSize then
      let block ← allocateObject d.staticSize d.id .statics
      record (.staticBlock d.name block)
      modify fun m => { m with statics := m.statics ++ [(d.id, block)] }
    makeStatics rest

/-- Makes the static fields and the host's frame. -/
def boot : Exec Unit := do
  makeStatics (← query fun m => .ok m.types.descriptors.toList)
  let settings ← query fun m => .ok m.settings
  pushFrame { totalSize := settings.hostScratch, maxDepth := settings.hostDepth }

/-- Drops every value that the host's frame holds and takes its scratch back. This is only possible
between invocations. -/
def clearHostFrame : Exec Unit := do
  let depth ← query fun m => .ok m.stack.depth
  if depth ≠ 1 then
    throw (.hostFrameBusy depth)
  let held ← query fun m => do
    let f ← m.stack.current
    return (← f.values.reverse.mapM m.ownedTargets).flatten
  let dropped ← resetScratch
  record (.hostCleared dropped.length)
  release held

/-- Takes the lines written so far. -/
def takeOutput : Exec (Array String) := do
  let lines ← query fun m => .ok m.output
  modify fun m => { m with output := #[] }
  return lines

end Exec

namespace Machine

/-- A machine for a program, ready to run. -/
def create [Build] (image : Image) (settings : Settings) (threshold : Option Level) :
    Except Error Machine := do
  let types ← (TypeTable.ofImage image).mapError .type
  let heap ← (Heap.create settings.heap).mapError .heap
  let stack := FrameStack.create settings.stackSize settings.maxStackSize
  match Exec.boot { image, types, settings, heap, stack, journal := { threshold } } with
  | .ok _ m => return m
  | .error e _ => throw e

/-- More steps than any frame takes in practice. -/
def ampleSteps : Nat := UInt64.size / 4

end Machine

end ManagedVm
