import Mathlib.Algebra.BigOperators.Group.Finset.Basic
import ManagedVm.Demo
import ManagedVm.Proofs.Machine.HostProgram
import ManagedVm.Proofs.Scalar.Numbers

/-!
# The array demo

The demo makes an array of `n` numbers, fills it with the squares of their indices in one loop, and adds
them up in another. In each round of either loop the array is taken from the evaluation stack, by the
instruction that looks at its length and by the one that reads or writes an element; each time it is let
go of, and stays because a local still refers to it. It goes with the frame when the method returns.

Both loops are followed on a sheet, block by block. What holds at the top of the first one (`path_fill`)
ties the numbers in the array to the rounds made, what holds at the top of the second one (`path_add`) the
sum. Both say where the cursor is, so they tell as well when the scratch no longer fits in the stack arena.
-/

namespace ManagedVm.Demo.FillArray

open scoped Naturals

/-! ## The program -/

/-- The body of the method. The local 0 is the array, the local 1 counts, and the local 2 is the sum. -/
def code : Array Instruction := #[
  ⟨.ldc, 2⟩, ⟨.newarr, 1⟩, ⟨.stloc, 0⟩, ⟨.ldc, 0⟩, ⟨.stloc, 1⟩,
  ⟨.ldloc, 1⟩, ⟨.ldloc, 0⟩, ⟨.ldlen, 0⟩, ⟨.clt, 0⟩, ⟨.brfalse, 21⟩,
  ⟨.ldloc, 1⟩, ⟨.ldloc, 1⟩, ⟨.mul, 0⟩, ⟨.ldloc, 1⟩, ⟨.ldloc, 0⟩, ⟨.stelem, 0⟩,
  ⟨.ldloc, 1⟩, ⟨.ldc, 1⟩, ⟨.add, 0⟩, ⟨.stloc, 1⟩, ⟨.br, 5⟩,
  ⟨.ldc, 0⟩, ⟨.stloc, 2⟩, ⟨.ldc, 0⟩, ⟨.stloc, 1⟩,
  ⟨.ldloc, 1⟩, ⟨.ldloc, 0⟩, ⟨.ldlen, 0⟩, ⟨.clt, 0⟩, ⟨.brfalse, 41⟩,
  ⟨.ldloc, 2⟩, ⟨.ldloc, 1⟩, ⟨.ldloc, 0⟩, ⟨.ldelem, 0⟩, ⟨.add, 0⟩, ⟨.stloc, 2⟩,
  ⟨.ldloc, 1⟩, ⟨.ldc, 1⟩, ⟨.add, 0⟩, ⟨.stloc, 1⟩, ⟨.br, 25⟩,
  ⟨.ldloc, 2⟩, ⟨.ret, 0⟩]

def main : Method :=
  { name := "main", owner := 2, returnType := 0, isStatic := true
    locals := [⟨"a", 1⟩, ⟨"i", 0⟩, ⟨"sum", 0⟩], body := code }

/-- The program without the bytes of its constants. -/
def program : Image :=
  { constants := #[⟨.primitive (.word .int), 0⟩, ⟨.primitive (.word .int), 4⟩, ⟨.primitive (.word .int), 8⟩]
    types := #[
      { name := "int", category := .primitive (.word .int) },
      { name := "int[]", category := .array, underlying := some 0 },
      { name := "Program", category := .object, isStatic := true }]
    methods := #[main] }

/-- The program, with zero, one and the length as its constants. -/
def image (n : Int) : Image :=
  { program with pool := ([0, 0, 0, 0, 1, 0, 0, 0] ++ (Scalar.ofInt .int n).encode).toArray }

theorem assemble_eq (n : Int) : Assembler.assemble (fillArray n) = .ok (0, image n) := rfl

def types : TypeTable := (TypeTable.ofImage program).toOption.getD {}

theorem ofImage_program : TypeTable.ofImage program = .ok types := by decide

theorem agree_program : program.BuiltinsAgree := by decide

theorem noStatics_types : ∀ d ∈ types.descriptors.toList, d.staticSize = 0 := by decide

theorem declared_int : types.declared? 0 = .ok ⟨0⟩ := by decide

theorem category_int : (types.descriptor ⟨0⟩).category = .primitive (.word .int) := by decide

theorem declared_array : types.declared? 1 = .ok ⟨1⟩ := by decide

theorem array_of_int : (types.descriptor ⟨1⟩).category = .array ∧
    (types.descriptor ⟨1⟩).size = Address.slotSize ∧ (types.descriptor ⟨1⟩).underlying = some ⟨0⟩ := by
  decide

/-- The program with the default settings. -/
def hosted (n : Int) : HostProgram :=
  .standard (image n) ofImage_program agree_program noStatics_types category_int

/-- The locals of a new frame. -/
def zeros : List Content := [.null, .number (.ofInt .int 0), .number (.ofInt .int 0)]

theorem enters (n : Int) : (hosted n).Enters 0 main 3 zeros where
  found := rfl
  isStatic := rfl
  isNative := rfl
  parameters := rfl
  leaf := by decide
  returns := ⟨⟨0⟩, declared_int, category_int ▸ nofun⟩
  locals := .cons ⟨⟨1⟩, declared_array, array_of_int, rfl⟩ <|
    .cons ⟨⟨0⟩, declared_int, category_int, rfl⟩ <| .cons ⟨⟨0⟩, declared_int, category_int, rfl⟩ .nil
  sizing := by
    intro m himage htypes
    have hwalk : program.walk types 0 = .ok (main, ⟨[.value ⟨0⟩], 3, 134⟩) := by decide
    exact ⟨_, (Machine.sizing_eq_walk himage htypes 0).trans hwalk, rfl,
      show 1024 + (16 + 134) ≤ 8388608 by decide⟩

/-- The constants. -/
theorem cell_zero (n : Int) : (image n).cell? 0 = some (.ofScalar (.ofInt .int 0)) := rfl

theorem cell_one (n : Int) : (image n).cell? 1 = some (.ofScalar (.ofInt .int 1)) := rfl

theorem cell_length (n : Int) : (image n).cell? 2 = some (.ofScalar (.ofInt .int n)) := rfl

/-! ## Its blocks -/

/-- The sheet between blocks, once the array is made. -/
def sheet (ws : List Scalar) (i sum : Int) (cursor : Nat) : Sheet :=
  { locals := [.array, .number (.ofInt .int i), .number (.ofInt .int sum)], array := some ws, cursor }

/-- The two loops. They begin with the same test and end by counting on. -/
inductive Loop
  | fill
  | add

namespace Loop

/-- Where a loop begins. -/
def top : Loop → Nat
  | fill => 5
  | add => 25

/-- Where the method goes on after a loop. -/
def exit : Loop → Nat
  | fill => 21
  | add => 41

/-- The count is compared with the length of the array. -/
theorem path_test (l : Loop) (n : Int) {ws : List Scalar} {i : Int} (sum : Int) (c : Nat)
    (hi : WordKind.int.Holds i) (hlength : WordKind.int.Holds ws.length) :
    ((hosted n).scene 3).Path code 5 l.top (sheet ws i sum c) (if i < ws.length then l.top + 5 else l.exit)
      (sheet ws i sum (c + 9)) := by
  have hcompare := Scalar.compare_lt_ofInt hi hlength
  -- the same instructions are followed in each case; only the last one leads elsewhere
  by_cases hlt : i < ws.length
  all_goals
    simp only [hlt, decide_true, decide_false, if_true, if_false] at hcompare ⊢
    cases l
  all_goals
    exact .step rfl (.load rfl nofun (show 0 < 3 by decide)) <|
      .step rfl (.load rfl nofun (show 1 < 3 by decide)) <|
      .step rfl (.length rfl rfl List.mem_cons_self (show 1 < 3 by decide)) <|
      .step rfl (.compare rfl rfl hcompare (show 0 < 3 by decide)) <|
      .step rfl (.branch false rfl rfl) .refl

/-- One is added to the count, and the loop begins again. -/
theorem path_count (l : Loop) (n i sum : Int) (ws : List Scalar) (c : Nat) :
    ((hosted n).scene 3).Path code 5 (l.top + 11) (sheet ws i sum c) l.top (sheet ws (i + 1) sum (c + 12)) := by
  cases l
  all_goals
    exact .step rfl (.load rfl nofun (show 0 < 3 by decide)) <|
      .step rfl (.constant (cell_one n) (show 1 < 3 by decide)) <|
      .step rfl (.binary rfl rfl (Scalar.binary_add_ofInt ..) (show 0 < 3 by decide)) <|
      .step rfl (.store rfl rfl rfl) <|
      .step rfl (.jump rfl) .refl

end Loop

/-- The array is made, which fits in the heap with up to 67108861 numbers, and the count begins with zero. -/
theorem path_make {n : Nat} (hn : n ≤ 67108861) :
    ((hosted n).scene 3).Path code 5 0 ((hosted n).sheet zeros) 5
      (sheet (List.replicate n (.ofInt .int 0)) 0 0 1048) := by
  have hlength : WordKind.long.value ((Scalar.ofInt .int n).toWord .long) = n :=
    Scalar.long_value_ofInt (by rw [WordKind.holds_int]; omega)
  have hshort : n < UInt32.size := Nat.lt_of_le_of_lt hn (by decide)
  have hfits : 8 + (max (4 + 4 * n) 1 + (8 - 1)) / 8 * 8 ≤ 268435456 := by omega
  exact .step rfl (.constant (cell_length n) (show 0 < 3 by decide)) <|
    .step rfl (.newArray rfl rfl (show ¬ (1 : Int32) < 0 by decide) declared_array array_of_int hlength
      hshort hfits (show 0 < 3 by decide)) <|
    .step rfl (.keep rfl rfl rfl) <|
    .step rfl (.constant (cell_zero n) (show 0 < 3 by decide)) <|
    .step rfl (.store rfl rfl rfl) .refl

/-- The square of the count is written at its place. -/
theorem path_square (n sum : Int) {ws : List Scalar} {i : Nat} (c : Nat) (hi : WordKind.int.Holds i)
    (hlt : i < ws.length) :
    ((hosted n).scene 3).Path code 6 10 (sheet ws i sum c) 16
      (sheet (ws.set i (.ofInt .int (i * i))) i sum (c + 16)) :=
  .step rfl (.load rfl nofun (show 0 < 3 by decide)) <|
  .step rfl (.load rfl nofun (show 1 < 3 by decide)) <|
  .step rfl (.binary rfl rfl (Scalar.binary_mul_ofInt ..) (show 0 < 3 by decide)) <|
  .step rfl (.load rfl nofun (show 1 < 3 by decide)) <|
  .step rfl (.load rfl nofun (show 2 < 3 by decide)) <|
  .step rfl (.setElement rfl rfl List.mem_cons_self (Scalar.long_value_ofInt hi) hlt rfl) .refl

/-- The sum and the count begin with zero. -/
theorem path_reset (n i sum : Int) (ws : List Scalar) (c : Nat) :
    ((hosted n).scene 3).Path code 4 21 (sheet ws i sum c) 25 (sheet ws 0 0 (c + 8)) :=
  .step rfl (.constant (cell_zero n) (show 0 < 3 by decide)) <|
  .step rfl (.store rfl rfl rfl) <|
  .step rfl (.constant (cell_zero n) (show 0 < 3 by decide)) <|
  .step rfl (.store rfl rfl rfl) .refl

/-- The number at the place of the count is added to the sum. -/
theorem path_take (n sum : Int) {ws : List Scalar} {i : Nat} {v : Int} (c : Nat)
    (hi : WordKind.int.Holds i) (hv : ws[i]? = some (.ofInt .int v)) :
    ((hosted n).scene 3).Path code 6 30 (sheet ws i sum c) 36 (sheet ws i (sum + v) (c + 16)) :=
  .step rfl (.load rfl nofun (show 0 < 3 by decide)) <|
  .step rfl (.load rfl nofun (show 1 < 3 by decide)) <|
  .step rfl (.load rfl nofun (show 2 < 3 by decide)) <|
  .step rfl (.element rfl rfl List.mem_cons_self (Scalar.long_value_ofInt hi) hv (show 1 < 3 by decide)) <|
  .step rfl (.binary rfl rfl (Scalar.binary_add_ofInt ..) (show 0 < 3 by decide)) <|
  .step rfl (.store rfl rfl rfl) .refl

/-- The sum is left on the evaluation stack. -/
theorem path_end (n i sum : Int) (ws : List Scalar) (c : Nat) :
    ((hosted n).scene 3).Path code 1 41 (sheet ws i sum c) 42
      { sheet ws i sum (c + 4) with values := [.number (.ofInt .int sum)] } :=
  .step rfl (.load rfl nofun (show 0 < 3 by decide)) .refl

/-! ## The array and the sum -/

/-- The numbers in the array once so many of the squares are written. -/
def filled (n j : Nat) : List Scalar :=
  (List.range n).map fun i => .ofInt .int (if i < j then i * i else 0)

theorem length_filled (n j : Nat) : (filled n j).length = n := by
  rw [filled, List.length_map, List.length_range]

theorem getElem?_filled (n j i : Nat) :
    (filled n j)[i]? = if i < n then some (.ofInt .int (if i < j then i * i else 0)) else none := by
  rw [filled, List.getElem?_map]
  by_cases hi : i < n
  · rw [List.getElem?_range hi, if_pos hi, Option.map_some]
  · rw [List.getElem?_eq_none (by rw [List.length_range]; omega), if_neg hi, Option.map_none]

theorem filled_zero (n : Nat) : filled n 0 = List.replicate n (.ofInt .int 0) := by
  simp only [filled, Nat.not_lt_zero, if_false, List.map_const', List.length_range]

theorem set_filled {n j : Nat} (hj : j < n) :
    (filled n j).set j (.ofInt .int (j * j)) = filled n (j + 1) := by
  apply List.ext_getElem?
  intro i
  rw [List.getElem?_set, length_filled, getElem?_filled, getElem?_filled, if_pos hj]
  by_cases heq : j = i
  · subst heq
    rw [if_pos rfl, if_pos hj, if_pos (Nat.lt_succ_self j)]
  · have hlt : i < j ↔ i < j + 1 := by omega
    simp only [if_neg heq, hlt]

/-- The sum of the squares below one. -/
def squares (j : Nat) : Int := ∑ i ∈ Finset.range j, (i : Int) * i

theorem squares_succ (j : Nat) : squares (j + 1) = squares j + j * j :=
  Finset.sum_range_succ ..

/-! ## The loops -/

section Loops

variable {n j : Nat} (hn : n ≤ 67108861)

include hn

theorem holds_of_le (hj : j ≤ n) : WordKind.int.Holds j := by
  rw [WordKind.holds_int]
  omega

/-- The test of a loop, with an array of the given length. -/
theorem Loop.path_test_filled (l : Loop) (i : Nat) (hj : j ≤ n) (sum : Int) (c : Nat) :
    ((hosted n).scene 3).Path code 5 l.top (sheet (filled n i) j sum c) (if j < n then l.top + 5 else l.exit)
      (sheet (filled n i) j sum (c + 9)) := by
  have hlength : ((filled n i).length : Int) = n := by rw [length_filled]
  have htest := l.path_test n sum c (holds_of_le hn hj) (hlength ▸ holds_of_le hn (Nat.le_refl n))
  simp only [hlength, Int.ofNat_lt] at htest
  exact htest

/-- **What holds at the top of the first loop** after so many rounds: as many squares are written. -/
theorem path_fill (hj : j ≤ n) :
    ((hosted n).scene 3).Path code (5 + 16 * j) 0 ((hosted n).sheet zeros) 5
      (sheet (filled n j) j 0 (1048 + 37 * j)) := by
  induction j with
  | zero =>
    rw [filled_zero]
    exact path_make hn
  | succ j ih =>
    have hlt : j < n := hj
    have hle := Nat.le_of_lt hlt
    have htest := Loop.fill.path_test_filled hn j hle 0 (1048 + 37 * j)
    rw [if_pos hlt] at htest
    have hsquare := path_square n 0 (1048 + 37 * j + 9) (holds_of_le hn hle) ((length_filled n j).symm ▸ hlt)
    rw [set_filled hlt] at hsquare
    have hcount := Loop.fill.path_count n j 0 (filled n (j + 1)) (1048 + 37 * j + 9 + 16)
    have hsteps : 5 + 16 * (j + 1) = 5 + 16 * j + (5 + (6 + 5)) := by omega
    have hcursor : 1048 + 37 * (j + 1) = 1048 + 37 * j + 9 + 16 + 12 := by omega
    rw [hsteps, hcursor, Nat.cast_add_one]
    exact (ih hle).trans (htest.trans (hsquare.trans hcount))

/-- **What holds at the top of the second loop** after so many rounds: as many squares are added up. -/
theorem path_add (hj : j ≤ n) :
    ((hosted n).scene 3).Path code (14 + 16 * n + 16 * j) 0 ((hosted n).sheet zeros) 25
      (sheet (filled n n) j (squares j) (1065 + 37 * n + 37 * j)) := by
  induction j with
  | zero =>
    have htest := Loop.fill.path_test_filled hn n (Nat.le_refl n) 0 (1048 + 37 * n)
    rw [if_neg (Nat.lt_irrefl n)] at htest
    have hreset := path_reset n n 0 (filled n n) (1048 + 37 * n + 9)
    have hsteps : 14 + 16 * n + 16 * 0 = 5 + 16 * n + (5 + 4) := by omega
    have hcursor : 1065 + 37 * n + 37 * 0 = 1048 + 37 * n + 9 + 8 := by omega
    rw [hsteps, hcursor]
    exact (path_fill hn (Nat.le_refl n)).trans (htest.trans hreset)
  | succ j ih =>
    have hlt : j < n := hj
    have hle := Nat.le_of_lt hlt
    have htest := Loop.add.path_test_filled hn n hle (squares j) (1065 + 37 * n + 37 * j)
    rw [if_pos hlt] at htest
    have hsquare := getElem?_filled n n j
    rw [if_pos hlt, if_pos hlt] at hsquare
    have htake := path_take n (squares j) (1065 + 37 * n + 37 * j + 9) (holds_of_le hn hle) hsquare
    rw [← squares_succ] at htake
    have hcount := Loop.add.path_count n j (squares (j + 1)) (filled n n) (1065 + 37 * n + 37 * j + 9 + 16)
    have hsteps : 14 + 16 * n + 16 * (j + 1) = 14 + 16 * n + 16 * j + (5 + (6 + 5)) := by omega
    have hcursor : 1065 + 37 * n + 37 * (j + 1) = 1065 + 37 * n + 37 * j + 9 + 16 + 12 := by omega
    rw [hsteps, hcursor, Nat.cast_add_one]
    exact (ih hle).trans (htest.trans (htake.trans hcount))

/-- **The path through the body** when both loops have come to their end. -/
theorem path_all :
    ((hosted n).scene 3).Path code (32 * n + 20) 0 ((hosted n).sheet zeros) 42
      { sheet (filled n n) n (squares n) (1078 + 74 * n) with
        values := [.number (.ofInt .int (squares n))] } := by
  have htest := Loop.add.path_test_filled hn n (Nat.le_refl n) (squares n) (1065 + 37 * n + 37 * n)
  rw [if_neg (Nat.lt_irrefl n)] at htest
  have hend := path_end n n (squares n) (filled n n) (1065 + 37 * n + 37 * n + 9)
  have hsteps : 32 * n + 20 = 14 + 16 * n + 16 * n + (5 + 1) := by omega
  have hcursor : 1078 + 74 * n = 1065 + 37 * n + 37 * n + 9 + 4 := by omega
  rw [hsteps, hcursor]
  exact (path_add hn (Nat.le_refl n)).trans (htest.trans hend)

end Loops

/-! ## A negative length -/

/-- The length is all that is pushed before the array is made. -/
theorem path_length (n : Int) :
    ((hosted n).scene 3).Path code 1 0 ((hosted n).sheet zeros) 1
      { locals := zeros, values := [.number (.ofInt .int n)], cursor := 1044 } :=
  .step rfl (.constant (cell_length n) (show 0 < 3 by decide)) .refl

/-- No array is made with a negative length. -/
theorem step_negative {n : Int} (hn : WordKind.int.Holds n) (hneg : n < 0) {m : Machine}
    (h : ((hosted n).scene 3).Shows m
      { locals := zeros, values := [.number (.ofInt .int n)], cursor := 1044 }) :
    ∃ m', Exec.step code.size ⟨.newarr, 1⟩ m = .error (.negativeArrayLength n) m' := by
  obtain ⟨m', herror⟩ := ArrayScene.newArray_negative h rfl (show ¬ (1 : Int32) < 0 by decide) declared_array
    (Scalar.long_value_ofInt hn) hneg
  exact ⟨m', Exec.bind_of_error herror⟩

end ManagedVm.Demo.FillArray

namespace ManagedVm.Demo

open FillArray
open scoped Naturals

/-- **The array demo returns the sum of the squares, and leaves no array behind.** With a new machine of the
default settings a negative length is refused. Otherwise, if the rounds fit in the stack arena, the sum is
returned as a 32-bit number, and the one object that was allocated is freed. -/
theorem fillArray_sums [Host] [Host.Orderly] (n : Int32) (threshold : Option Level) {steps : Nat}
    (hsteps : 32 * n.toInt.toNat + 21 ≤ steps) :
    ∃ entry image m, Assembler.assemble (fillArray n.toInt) = .ok (entry, image) ∧
      Machine.create image {} threshold = .ok m ∧
      (n.toInt < 0 → ∃ e m', Run.invoke steps { method := entry } m = some (.error e m') ∧
        e.rootCause = .negativeArrayLength n.toInt) ∧
      (0 ≤ n.toInt → 1078 + 74 * n.toInt ≤ 8388608 →
        ∃ v m', Run.invoke steps { method := entry } m = some (.ok (some v) m') ∧
          m'.readScalar v = .ok (.ofInt .int (∑ i ∈ Finset.range n.toInt.toNat, (i : Int) * i)) ∧
          m'.heap.objects = [] ∧ m'.heap.allocations = 1 ∧ m'.heap.frees = 1) := by
  have hn := WordKind.holds_toInt n
  obtain ⟨m, hcreate, hm⟩ := (hosted n.toInt).create threshold
  refine ⟨0, image n.toInt, m, assemble_eq n.toInt, hcreate, ?negative, ?sums⟩
  case negative =>
    intro hneg
    obtain ⟨e, m', hinvoke, hroot, -⟩ := HostProgram.invoke_fails hm (enters n.toInt) (path_length n.toInt) rfl
      (fun _ => step_negative hn hneg) (show 1044 ≤ 8388608 by decide) (show 1 < steps by omega)
    exact ⟨e, m', hinvoke, hroot⟩
  case sums =>
    intro hpos hfits
    obtain ⟨length, hlength⟩ := Int.eq_ofNat_of_zero_le hpos
    rw [hlength] at hm hfits hsteps ⊢
    rw [Int.toNat_natCast] at hsteps ⊢
    obtain ⟨v, m', hinvoke, hread, hclean, -⟩ := HostProgram.invoke_returns hm (enters length)
      (path_all (n := length) (by omega)) rfl rfl rfl (show 1078 + 74 * length ≤ 8388608 by omega) hsteps
    exact ⟨v, m', hinvoke, hread, hclean⟩

open scoped Host in
/-- The squares below five add up to 30, and there is no array of minus one numbers. -/
theorem fillArray_sums_five_not_neg_one :
    (∃ entry image m v m', Assembler.assemble (fillArray 5) = .ok (entry, image) ∧
      Machine.create image {} none = .ok m ∧
      Run.invoke Machine.ampleSteps { method := entry } m = some (.ok (some v) m') ∧
      m'.readScalar v = .ok (.ofInt .int 30) ∧
      m'.heap.objects = [] ∧ m'.heap.allocations = 1 ∧ m'.heap.frees = 1) ∧
    ∃ entry image m e m', Assembler.assemble (fillArray (-1)) = .ok (entry, image) ∧
      Machine.create image {} none = .ok m ∧
      Run.invoke Machine.ampleSteps { method := entry } m = some (.error e m') ∧
      e.rootCause = .negativeArrayLength (-1) := by
  constructor
  · obtain ⟨entry, image, m, hassemble, hcreate, -, hsums⟩ := fillArray_sums 5 none
      (show 32 * (5 : Int32).toInt.toNat + 21 ≤ Machine.ampleSteps by decide)
    obtain ⟨v, m', hinvoke, hread, hclean⟩ := hsums (by decide) (by decide)
    have hsum : ∑ i ∈ Finset.range (5 : Int32).toInt.toNat, (i : Int) * i = 30 := by decide
    rw [hsum] at hread
    exact ⟨entry, image, m, v, m', hassemble, hcreate, hinvoke, hread, hclean⟩
  · obtain ⟨entry, image, m, hassemble, hcreate, hnegative, -⟩ := fillArray_sums (-1) none
      (show 32 * (-1 : Int32).toInt.toNat + 21 ≤ Machine.ampleSteps by decide)
    obtain ⟨e, m', hinvoke, hroot⟩ := hnegative (by decide)
    exact ⟨entry, image, m, e, m', hassemble, hcreate, hinvoke, hroot⟩

/-- The bound is exact: if the array fits in the heap, but the rounds do not fit in the stack arena, the
invocation fails for want of scratch. -/
theorem fillArray_overflows [Host] [Host.Orderly] {n : Nat} (hover : 8388608 < 1078 + 74 * n) (hn : n ≤ 67108861)
    (threshold : Option Level) {steps : Nat} (hsteps : 32 * n + 21 ≤ steps) :
    ∃ entry image m e m' needed, Assembler.assemble (fillArray n) = .ok (entry, image) ∧
      Machine.create image {} threshold = .ok m ∧
      Run.invoke steps { method := entry } m = some (.error e m') ∧
      e.rootCause = .stackOverflow needed 8388608 := by
  obtain ⟨m, hcreate, hm⟩ := (hosted n).create threshold
  suffices h : ∃ e m' needed, Run.invoke steps { method := 0 } m = some (.error e m') ∧
      e.rootCause = .stackOverflow needed 8388608 by
    obtain ⟨e, m', needed, hinvoke, hroot⟩ := h
    exact ⟨0, image n, m, e, m', needed, assemble_eq n, hcreate, hinvoke, hroot⟩
  -- a long array uses up the arena in the first loop already
  by_cases hlong : 226692 ≤ n
  · obtain ⟨e, m', needed, hinvoke, hroot, -⟩ := HostProgram.invoke_overflows hm (enters n)
      (path_fill hn hlong) (show 8388608 < 1048 + 37 * 226692 by decide)
      (show 5 + 16 * 226692 ≤ steps by omega)
    exact ⟨e, m', needed, hinvoke, hroot⟩
  · obtain ⟨e, m', needed, hinvoke, hroot, -⟩ := HostProgram.invoke_overflows hm (enters n)
      (path_add hn (Nat.le_refl n)) (show 8388608 < 1065 + 37 * n + 37 * n by omega)
      (show 14 + 16 * n + 16 * n ≤ steps by omega)
    exact ⟨e, m', needed, hinvoke, hroot⟩

end ManagedVm.Demo
