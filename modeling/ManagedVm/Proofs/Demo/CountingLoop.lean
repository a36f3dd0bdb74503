import ManagedVm.Demo
import ManagedVm.Proofs.Machine.HostProgram
import ManagedVm.Proofs.Scalar.Numbers

/-!
# The counting loop

The demo adds up the numbers from one to `n`. Each round of its loop pushes values that take 33 bytes of
scratch, and none of that is given back before the method returns. So the sum is returned only as long as
the rounds fit in the stack arena, and beyond that the loop fails.

The loop is followed on a sheet, block by block (`path_start`, `path_test`, `path_round`, `path_end`). What
holds at its top after `j` rounds (`path_loop`) ties both locals and the cursor to `j`.
-/

namespace ManagedVm.Demo.CountingLoop

open scoped Naturals

/-! ## The program -/

/-- The body of the method. The local 0 counts, and the local 1 is the sum. -/
def code : Array Instruction := #[
  ⟨.ldc, 0⟩, ⟨.stloc, 1⟩, ⟨.ldc, 1⟩, ⟨.stloc, 0⟩,
  ⟨.ldloc, 0⟩, ⟨.ldc, 2⟩, ⟨.cgt, 0⟩, ⟨.brtrue, 17⟩,
  ⟨.ldloc, 1⟩, ⟨.ldloc, 0⟩, ⟨.add, 0⟩, ⟨.stloc, 1⟩,
  ⟨.ldloc, 0⟩, ⟨.ldc, 1⟩, ⟨.add, 0⟩, ⟨.stloc, 0⟩, ⟨.br, 4⟩,
  ⟨.ldloc, 1⟩, ⟨.ret, 0⟩]

def main : Method :=
  { name := "main", owner := 1, returnType := 0, isStatic := true
    locals := [⟨"i", 0⟩, ⟨"sum", 0⟩], body := code }

/-- The program without the bytes of its constants. -/
def program : Image :=
  { constants := #[⟨.primitive (.word .int), 0⟩, ⟨.primitive (.word .int), 4⟩, ⟨.primitive (.word .int), 8⟩]
    types := #[
      { name := "int", category := .primitive (.word .int) },
      { name := "Program", category := .object, isStatic := true }]
    methods := #[main] }

/-- The program, with zero, one and the limit as its constants. -/
def image (n : Int) : Image :=
  { program with pool := ([0, 0, 0, 0, 1, 0, 0, 0] ++ (Scalar.ofInt .int n).encode).toArray }

theorem assemble_eq (n : Int) : Assembler.assemble (countingLoop n) = .ok (0, image n) := rfl

def types : TypeTable := (TypeTable.ofImage program).toOption.getD {}

theorem ofImage_program : TypeTable.ofImage program = .ok types := by decide

theorem agree_program : program.BuiltinsAgree := by decide

theorem noStatics_types : ∀ d ∈ types.descriptors.toList, d.staticSize = 0 := by decide

theorem declared_int : types.declared? 0 = .ok ⟨0⟩ := by decide

theorem category_int : (types.descriptor ⟨0⟩).category = .primitive (.word .int) := by decide

/-- The program with the default settings. -/
def hosted (n : Int) : HostProgram :=
  .standard (image n) ofImage_program agree_program noStatics_types category_int

/-- The locals of a new frame. -/
def zeros : List Content := [.number (.ofInt .int 0), .number (.ofInt .int 0)]

theorem enters (n : Int) : (hosted n).Enters 0 main 2 zeros where
  found := rfl
  isStatic := rfl
  isNative := rfl
  parameters := rfl
  leaf := by decide
  returns := ⟨⟨0⟩, declared_int, category_int ▸ nofun⟩
  locals := .cons ⟨⟨0⟩, declared_int, category_int, rfl⟩ (.cons ⟨⟨0⟩, declared_int, category_int, rfl⟩ .nil)
  sizing := by
    intro m himage htypes
    have hwalk : program.walk types 0 = .ok (main, ⟨[.value ⟨0⟩], 2, 45⟩) := by decide
    exact ⟨_, (Machine.sizing_eq_walk himage htypes 0).trans hwalk, rfl,
      show 1024 + (8 + 45) ≤ 8388608 by decide⟩

/-! ## Its blocks -/

/-- The constants. -/
theorem cell_zero (n : Int) : (image n).cell? 0 = some (.ofScalar (.ofInt .int 0)) := rfl

theorem cell_one (n : Int) : (image n).cell? 1 = some (.ofScalar (.ofInt .int 1)) := rfl

theorem cell_limit (n : Int) : (image n).cell? 2 = some (.ofScalar (.ofInt .int n)) := rfl

/-- The sheet between blocks. -/
def sheet (i sum : Int) (cursor : Nat) : Sheet :=
  { locals := [.number (.ofInt .int i), .number (.ofInt .int sum)], cursor }

/-- The sum begins with zero, and the count with one. -/
theorem path_start (n : Int) :
    ((hosted n).scene 2).Path code 4 0 ((hosted n).sheet zeros) 4 (sheet 1 0 1040) :=
  .step rfl (.constant (cell_zero n) Nat.zero_lt_two) <|
  .step rfl (.store rfl rfl rfl) <|
  .step rfl (.constant (cell_one n) Nat.zero_lt_two) <|
  .step rfl (.store rfl rfl rfl) .refl

/-- The count is compared with the limit. -/
theorem path_test {n i : Int} (hn : WordKind.int.Holds n) (hi : WordKind.int.Holds i) (sum : Int) (c : Nat) :
    ((hosted n).scene 2).Path code 4 4 (sheet i sum c) (if n < i then 17 else 8) (sheet i sum (c + 9)) := by
  have hcompare := Scalar.compare_gt_ofInt hi hn
  -- the same instructions are followed either way; only the last one leads elsewhere
  by_cases hlt : n < i
  all_goals
    simp only [hlt, decide_true, decide_false, if_true, if_false] at hcompare ⊢
    exact .step rfl (.load rfl nofun Nat.zero_lt_two) <|
      .step rfl (.constant (cell_limit n) Nat.one_lt_two) <|
      .step rfl (.compare rfl rfl hcompare Nat.zero_lt_two) <|
      .step rfl (.branch true rfl rfl) .refl

/-- The count is added to the sum, and one to the count. -/
theorem path_round (n i sum : Int) (c : Nat) :
    ((hosted n).scene 2).Path code 9 8 (sheet i sum c) 4 (sheet (i + 1) (sum + i) (c + 24)) :=
  .step rfl (.load rfl nofun Nat.zero_lt_two) <|
  .step rfl (.load rfl nofun Nat.one_lt_two) <|
  .step rfl (.binary rfl rfl (Scalar.binary_add_ofInt ..) Nat.zero_lt_two) <|
  .step rfl (.store rfl rfl rfl) <|
  .step rfl (.load rfl nofun Nat.zero_lt_two) <|
  .step rfl (.constant (cell_one n) Nat.one_lt_two) <|
  .step rfl (.binary rfl rfl (Scalar.binary_add_ofInt ..) Nat.zero_lt_two) <|
  .step rfl (.store rfl rfl rfl) <|
  .step rfl (.jump rfl) .refl

/-- The sum is left on the evaluation stack. -/
theorem path_end (n i sum : Int) (c : Nat) :
    ((hosted n).scene 2).Path code 1 17 (sheet i sum c) 18
      { sheet i sum (c + 4) with values := [.number (.ofInt .int sum)] } :=
  .step rfl (.load rfl nofun Nat.zero_lt_two) .refl

/-! ## The loop -/

/-- The sum of the numbers up to one. -/
def triangle (j : Nat) : Int := j * (j + 1) / 2

theorem triangle_succ (j : Nat) : triangle (j + 1) = triangle j + (j + 1) := by
  have hstep : ((j + 1 : Nat) : Int) * ((j + 1 : Nat) + 1) = j * (j + 1) + (j + 1) * 2 := by
    push_cast
    ring
  rw [triangle, hstep, Int.add_mul_ediv_right _ _ two_ne_zero, triangle]

/-- **What holds at the top of the loop** after so many rounds. -/
theorem path_loop {n : Int} (hn : WordKind.int.Holds n) {j : Nat} (hj : (j : Int) ≤ max n 0) :
    ((hosted n).scene 2).Path code (4 + 13 * j) 0 ((hosted n).sheet zeros) 4
      (sheet (j + 1) (triangle j) (1040 + 33 * j)) := by
  induction j with
  | zero => exact path_start n
  | succ j ih =>
    push_cast at hj
    have hle : (j : Int) + 1 ≤ n := by omega
    have hi : WordKind.int.Holds (j + 1) := by
      rw [WordKind.holds_int] at hn ⊢
      omega
    have htest := path_test hn hi (triangle j) (1040 + 33 * j)
    rw [if_neg (by omega)] at htest
    have hround := htest.trans (path_round n (j + 1) (triangle j) (1040 + 33 * j + 9))
    have hcount : 4 + 13 * (j + 1) = 4 + 13 * j + (4 + 9) := by omega
    have hcursor : 1040 + 33 * (j + 1) = 1040 + 33 * j + 9 + 24 := by omega
    rw [hcount, hcursor, triangle_succ, Nat.cast_add_one]
    exact (ih (by omega)).trans hround

/-- **The path through the body** when the loop has come to its end. -/
theorem path_all {n : Int} (hn : WordKind.int.Holds n) (hlast : n < WordKind.int.greatest) :
    ((hosted n).scene 2).Path code (13 * n.toNat + 9) 0 ((hosted n).sheet zeros) 18
      { sheet (n.toNat + 1) (triangle n.toNat) (1053 + 33 * n.toNat) with
        values := [.number (.ofInt .int (triangle n.toNat))] } := by
  have hi : WordKind.int.Holds (n.toNat + 1) := by
    have hgreatest : WordKind.int.greatest = 2147483647 := rfl
    rw [WordKind.holds_int]
    omega
  have htest := path_test hn hi (triangle n.toNat) (1040 + 33 * n.toNat)
  rw [if_pos (by omega)] at htest
  have hend := htest.trans (path_end n (n.toNat + 1) (triangle n.toNat) (1040 + 33 * n.toNat + 9))
  have hcount : 13 * n.toNat + 9 = 4 + 13 * n.toNat + (4 + 1) := by omega
  have hcursor : 1053 + 33 * n.toNat = 1040 + 33 * n.toNat + 9 + 4 := by omega
  rw [hcount, hcursor]
  exact (path_loop hn (by omega)).trans hend

/-- The sum as it is written for a limit that may be negative. -/
theorem triangle_toNat (n : Int) : triangle n.toNat = if n ≤ 0 then 0 else n * (n + 1) / 2 := by
  split
  · rename_i hle
    rw [Int.toNat_of_nonpos hle]
    rfl
  · rename_i hgt
    rw [triangle, Int.toNat_of_nonneg (by omega)]

end ManagedVm.Demo.CountingLoop

namespace ManagedVm.Demo

open CountingLoop

/-- **The counting loop returns the sum as long as its scratch fits in the stack arena.** With a new machine
of the default settings, the sum up to `n` is returned as a 32-bit number if the rounds for it fit, and the
invocation fails for want of scratch otherwise. Both ways only the host's frame is left. -/
theorem countingLoop_sums [Host] [Host.Orderly] (n : Int32) (threshold : Option Level) {steps : Nat}
    (hsteps : 13 * n.toInt.toNat + 10 ≤ steps) :
    ∃ entry image m m', Assembler.assemble (countingLoop n.toInt) = .ok (entry, image) ∧
      Machine.create image {} threshold = .ok m ∧ m'.stack.depth = 1 ∧
      if 1053 + 33 * max n.toInt 0 ≤ 8388608 then
        ∃ v, Run.invoke steps { method := entry } m = some (.ok (some v) m') ∧
          m'.readScalar v =
            .ok (.ofInt .int (if n.toInt ≤ 0 then 0 else n.toInt * (n.toInt + 1) / 2))
      else
        ∃ e needed, Run.invoke steps { method := entry } m = some (.error e m') ∧
          e.rootCause = .stackOverflow needed 8388608 := by
  have hn := WordKind.holds_toInt n
  obtain ⟨m, hcreate, hm⟩ := (hosted n.toInt).create threshold
  by_cases hfits : 1053 + 33 * max n.toInt 0 ≤ 8388608
  · have hlast : n.toInt < WordKind.int.greatest := by
      have hgreatest : WordKind.int.greatest = 2147483647 := rfl
      omega
    obtain ⟨v, m', hinvoke, hread, -, hdepth⟩ := HostProgram.invoke_returns hm (enters n.toInt)
      (path_all hn hlast) rfl rfl rfl (show 1053 + 33 * n.toInt.toNat ≤ 8388608 by omega) hsteps
    refine ⟨0, image n.toInt, m, m', assemble_eq n.toInt, hcreate, hdepth, ?_⟩
    rw [if_pos hfits]
    rw [triangle_toNat] at hread
    exact ⟨v, hinvoke, hread⟩
  · obtain ⟨e, m', needed, hinvoke, hroot, hdepth⟩ := HostProgram.invoke_overflows hm (enters n.toInt)
      (path_loop (j := 254169) hn (by omega)) (show 8388608 < 1040 + 33 * 254169 by decide)
      (show 4 + 13 * 254169 ≤ steps by omega)
    refine ⟨0, image n.toInt, m, m', assemble_eq n.toInt, hcreate, hdepth, ?_⟩
    rw [if_neg hfits]
    exact ⟨e, needed, hinvoke, hroot⟩

open scoped Host in
/-- The sum up to ten is 55, and 254169 is the first limit for which the arena is too small. -/
theorem countingLoop_sums_ten_not_254169 :
    (∃ entry image m m' v, Assembler.assemble (countingLoop 10) = .ok (entry, image) ∧
      Machine.create image {} none = .ok m ∧ m'.stack.depth = 1 ∧
      Run.invoke Machine.ampleSteps { method := entry } m = some (.ok (some v) m') ∧
      m'.readScalar v = .ok (.ofInt .int 55)) ∧
    ∃ entry image m m' e needed, Assembler.assemble (countingLoop 254169) = .ok (entry, image) ∧
      Machine.create image {} none = .ok m ∧ m'.stack.depth = 1 ∧
      Run.invoke Machine.ampleSteps { method := entry } m = some (.error e m') ∧
      e.rootCause = .stackOverflow needed 8388608 := by
  constructor
  · obtain ⟨entry, image, m, m', hassemble, hcreate, hdepth, h⟩ := countingLoop_sums 10 none
      (show 13 * (10 : Int32).toInt.toNat + 10 ≤ Machine.ampleSteps by decide)
    rw [if_pos (by decide)] at h
    obtain ⟨v, hinvoke, hread⟩ := h
    exact ⟨entry, image, m, m', v, hassemble, hcreate, hdepth, hinvoke, hread⟩
  · obtain ⟨entry, image, m, m', hassemble, hcreate, hdepth, h⟩ := countingLoop_sums 254169 none
      (show 13 * (254169 : Int32).toInt.toNat + 10 ≤ Machine.ampleSteps by decide)
    rw [if_neg (by decide)] at h
    obtain ⟨e, needed, hinvoke, hroot⟩ := h
    exact ⟨entry, image, m, m', e, needed, hassemble, hcreate, hdepth, hinvoke, hroot⟩

end ManagedVm.Demo
