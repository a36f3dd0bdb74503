/-!
# Arithmetic of naturals

Powers and sums of naturals mean the same wherever they stand. An algebra library in scope would
offer other instances for them; those of the language itself come first in every module that opens
this namespace.
-/

namespace ManagedVm.Naturals

scoped instance (priority := 10000) power : Pow Nat Nat := instPowNat

scoped instance (priority := 10000) zero : Zero Nat := Zero.ofOfNat0

end ManagedVm.Naturals
