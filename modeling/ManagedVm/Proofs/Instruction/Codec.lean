import Mathlib.Data.Set.Function
import ManagedVm.Instruction.Codec
import ManagedVm.Proofs.Outcome

/-!
# The language of encoded instructions

A stream of bytes is cut into units of five, and each unit is read on its own: it is an instruction, or
it begins with a byte that is no code, or the stream ends inside it. `Holds` says this of the bytes
alone. Reading unit by unit goes through the units in order, whatever they hold, and ends behind the
last one; reading a whole stream stops at the first unit that is no instruction.

So the streams that can be read are those of whole units that all begin with a code, and between them
and the bodies encoding is one-to-one (`encode_bijOn_and_reads`).
-/

namespace ManagedVm.Instruction

open scoped Naturals

/-- A stream of whole units, each of which begins with a code. -/
structure WellFormed (bytes : List UInt8) : Prop where
  whole : unitSize ∣ bytes.length
  codes : ∀ (offset : Nat) (byte : UInt8), unitSize ∣ offset → bytes[offset]? = some byte →
    byte.toNat < Opcode.count

/-- The number of units of a stream; a last one that is too short is one of them. -/
def unitCount (bytes : List UInt8) : Nat := (bytes.length + (unitSize - 1)) / unitSize

/-- **What a unit of a stream is.** -/
inductive Holds (bytes : List UInt8) (n : Nat) : Except DecodeError Instruction → Prop
  /-- The five bytes of an instruction. -/
  | instruction (i : Instruction) : (bytes.drop (unitSize * n)).take unitSize = i.toUnit →
      Holds bytes n (.ok i)
  /-- Five bytes of which the first is no code. -/
  | unknown (byte : UInt8) : unitSize * n + unitSize ≤ bytes.length →
      bytes[unitSize * n]? = some byte → Opcode.count ≤ byte.toNat →
        Holds bytes n (.error (.unknownOpcode (unitSize * n) byte))
  /-- Some bytes, but fewer than five. -/
  | short : unitSize * n < bytes.length → bytes.length < unitSize * n + unitSize →
      Holds bytes n (.error (.truncated (unitSize * n)))

/-- **The first unit that is no instruction**, with what is wrong with it. -/
structure FirstBad (bytes : List UInt8) (n : Nat) (e : DecodeError) : Prop where
  bad : Holds bytes n (.error e)
  first : ∀ k < n, ∃ i, Holds bytes k (.ok i)

/-- The position after a number of calls. -/
def Decoder.after (d : Decoder) : (calls : Nat) → Decoder
  | 0 => d
  | calls + 1 => d.next.2.after calls

/-! ## One unit -/

@[simp] theorem length_toUnit (i : Instruction) : i.toUnit.length = unitSize := by
  simp [toUnit, unitSize]

theorem toNat_code_lt (op : Opcode) : op.code.toNat < Opcode.count := by
  rw [← Opcode.isSome_ofCode?_iff, Opcode.ofCode?_code]
  rfl

/-- **Five bytes are an instruction** exactly if they are its encoding. -/
theorem ofUnit_eq_ok_iff {offset : Nat} {code a b c e : UInt8} {i : Instruction} :
    ofUnit offset code [a, b, c, e] = .ok i ↔ [code, a, b, c, e] = i.toUnit := by
  have hword : LittleEndian.decode [a, b, c, e] < 4294967296 := by
    simpa using LittleEndian.decode_lt [a, b, c, e]
  unfold ofUnit
  constructor
  · intro h
    split at h
    · rename_i op hop
      cases h
      have hback : LittleEndian.encode 4 (LittleEndian.decode [a, b, c, e]) = [a, b, c, e] :=
        LittleEndian.encode_decode [a, b, c, e]
      rw [toUnit, ← (Opcode.ofCode?_eq_some_iff code op).mp hop]
      simp only [Int32.toBitVec_ofBitVec, BitVec.toNat_ofNat, Nat.reducePow, Nat.mod_eq_of_lt hword,
        hback]
    · cases h
  · intro h
    obtain ⟨hcode, hoperand⟩ := List.cons.inj h
    have hnumber : LittleEndian.decode [a, b, c, e] = i.operand.toBitVec.toNat := by
      rw [hoperand, LittleEndian.decode_encode]
      exact Nat.mod_eq_of_lt i.operand.toBitVec.isLt
    rw [hcode, Opcode.ofCode?_code, hnumber]
    simp

theorem ofUnit_eq_error_iff {offset : Nat} {code : UInt8} {operand : List UInt8} {e : DecodeError} :
    ofUnit offset code operand = .error e ↔
      Opcode.count ≤ code.toNat ∧ e = .unknownOpcode offset code := by
  have hcode := Opcode.isSome_ofCode?_iff code
  unfold ofUnit
  split
  · rename_i op hop
    rw [hop] at hcode
    have hlt := hcode.mp rfl
    exact ⟨(nomatch ·), fun h => absurd hlt (Nat.not_lt.mpr h.1)⟩
  · rename_i hnone
    rw [hnone] at hcode
    have hge : Opcode.count ≤ code.toNat := Nat.not_lt.mp fun hlt => nomatch hcode.mpr hlt
    exact ⟨fun h => ⟨hge, (Except.error.inj h).symm⟩, fun h => h.2 ▸ rfl⟩

theorem Holds.nonempty {bytes : List UInt8} {n : Nat} {r : Except DecodeError Instruction}
    (h : Holds bytes n r) : unitSize * n < bytes.length := by
  cases h with
  | instruction i hunit =>
    have hlength := congrArg List.length hunit
    simp only [List.length_take, List.length_drop, length_toUnit, unitSize] at hlength ⊢
    omega
  | unknown byte hwhole _ _ => exact Nat.lt_of_lt_of_le (Nat.lt_add_of_pos_right (by decide)) hwhole
  | short hsome _ => exact hsome

/-- An instruction takes up its unit, and begins it with its code. -/
theorem Holds.whole {bytes : List UInt8} {n : Nat} {i : Instruction} (h : Holds bytes n (.ok i)) :
    unitSize * n + unitSize ≤ bytes.length ∧ bytes[unitSize * n]? = some i.op.code := by
  have hsome := h.nonempty
  cases h with
  | instruction _ hunit =>
    have hlength := congrArg List.length hunit
    have hhead := congrArg (·[0]?) hunit
    simp only [List.length_take, List.length_drop, length_toUnit, unitSize] at hlength hsome ⊢
    have hfirst : bytes[5 * n]? = some i.op.code := by
      simpa [unitSize, toUnit, List.getElem?_take] using hhead
    exact ⟨by omega, hfirst⟩

/-- **A unit is one thing only.** -/
theorem Holds.unique {bytes : List UInt8} {n : Nat} {r r' : Except DecodeError Instruction}
    (h : Holds bytes n r) (h' : Holds bytes n r') : r = r' := by
  have hcode : ∀ {i : Instruction} {byte : UInt8}, Holds bytes n (.ok i) →
      bytes[unitSize * n]? = some byte → byte.toNat < Opcode.count := by
    intro i byte hi hbyte
    cases hi.whole.2.symm.trans hbyte
    exact toNat_code_lt i.op
  cases h with
  | instruction i hunit =>
    cases h' with
    | instruction i' hunit' =>
      have hsame := hunit.symm.trans hunit'
      have hback : ofUnit 0 i.op.code (LittleEndian.encode 4 i.operand.toBitVec.toNat) = .ok i :=
        ofUnit_eq_ok_iff.mpr rfl
      have hback' : ofUnit 0 i.op.code (LittleEndian.encode 4 i.operand.toBitVec.toNat) = .ok i' :=
        ofUnit_eq_ok_iff.mpr hsame
      exact hback.symm.trans hback'
    | unknown byte _ hbyte hge => exact absurd (hcode (.instruction i hunit) hbyte) (Nat.not_lt.mpr hge)
    | short _ hlt => exact absurd (Holds.instruction i hunit).whole.1 (Nat.not_le.mpr hlt)
  | unknown byte hwhole hbyte hge =>
    cases h' with
    | instruction i hunit => exact absurd (hcode (.instruction i hunit) hbyte) (Nat.not_lt.mpr hge)
    | unknown byte' _ hbyte' _ =>
      cases hbyte.symm.trans hbyte'
      rfl
    | short _ hlt => exact absurd hwhole (Nat.not_le.mpr hlt)
  | short _ hlt =>
    cases h' with
    | instruction i hunit => exact absurd (Holds.instruction i hunit).whole.1 (Nat.not_le.mpr hlt)
    | unknown byte hwhole _ _ => exact absurd hwhole (Nat.not_le.mpr hlt)
    | short _ _ => rfl

/-! ## Call after call -/

namespace Decoder

/-- **What a call does**: nothing at the end, else it uses up a unit or what is left of one. -/
theorem next_cases (d : Decoder) :
    (d.rest = [] ∧ d.next = (none, d)) ∨
      (∃ code a b c e rest, d.rest = code :: a :: b :: c :: e :: rest ∧
        d.next = (some (ofUnit d.offset code [a, b, c, e]), ⟨d.offset + unitSize, rest⟩)) ∨
      (0 < d.rest.length ∧ d.rest.length < unitSize ∧
        d.next = (some (.error (.truncated d.offset)), ⟨d.offset + d.rest.length, []⟩)) := by
  obtain ⟨offset, rest⟩ := d
  match rest with
  | [] => exact .inl ⟨rfl, rfl⟩
  | code :: a :: b :: c :: e :: rest => exact .inr (.inl ⟨code, a, b, c, e, rest, rfl, rfl⟩)
  | [_] | [_, _] | [_, _, _] | [_, _, _, _] => exact .inr (.inr ⟨by simp, by simp [unitSize], rfl⟩)

/-- A call moves to the next unit, or to the end. -/
theorem next_snd (d : Decoder) :
    d.next.2 = ⟨d.offset + min unitSize d.rest.length, d.rest.drop unitSize⟩ := by
  rcases d.next_cases with ⟨hrest, hnext⟩ | ⟨code, a, b, c, e, rest, hrest, hnext⟩ | ⟨-, hlt, hnext⟩
  · rw [hnext, hrest]
    obtain ⟨offset, _⟩ := d
    cases hrest
    rfl
  · rw [hnext, hrest]
    simp [unitSize]
  · rw [hnext, List.drop_eq_nil_of_le (Nat.le_of_lt hlt), Nat.min_eq_right (Nat.le_of_lt hlt)]

/-- **Where the calls lead**, by induction on their number: to the multiples of five, and no further
than to the end. -/
theorem after_eq (d : Decoder) (n : Nat) :
    d.after n = ⟨d.offset + min (unitSize * n) d.rest.length, d.rest.drop (unitSize * n)⟩ := by
  induction n generalizing d with
  | zero => simp [after]
  | succ n ih =>
    rw [after, ih, next_snd]
    simp only [mk.injEq, List.length_drop, List.drop_drop, Nat.mul_succ]
    exact ⟨by omega, by rw [Nat.add_comm]⟩

theorem after_ofBytes (bytes : List UInt8) (n : Nat) :
    (ofBytes bytes).after n = ⟨min (unitSize * n) bytes.length, bytes.drop (unitSize * n)⟩ := by
  rw [after_eq]
  simp [ofBytes]

end Decoder

theorem lt_unitCount_iff {bytes : List UInt8} {n : Nat} :
    n < unitCount bytes ↔ unitSize * n < bytes.length := by
  simp only [unitCount, unitSize]
  omega

/-- **What a call gives is what the unit is.** -/
theorem holds_of_next {bytes : List UInt8} {n : Nat} {d : Decoder} {r : Except DecodeError Instruction}
    (hoffset : d.offset = unitSize * n) (hrest : d.rest = bytes.drop (unitSize * n))
    (h : d.next.1 = some r) : Holds bytes n r := by
  have hlength : d.rest.length = bytes.length - unitSize * n := by rw [hrest, List.length_drop]
  rcases d.next_cases with ⟨-, hnext⟩ | ⟨code, a, b, c, e, rest, hunit, hnext⟩ | ⟨hsome, hlt, hnext⟩
  · rw [hnext] at h
    cases h
  · rw [hnext] at h
    rw [hunit, List.length_cons] at hlength
    rw [hrest] at hunit
    have hwhole : unitSize * n + unitSize ≤ bytes.length := by
      simp only [List.length_cons, unitSize] at hlength ⊢
      omega
    cases r with
    | ok i =>
      apply Holds.instruction
      rw [hunit]
      exact ofUnit_eq_ok_iff.mp (Option.some.inj h)
    | error err =>
      obtain ⟨hge, rfl⟩ := ofUnit_eq_error_iff.mp (Option.some.inj h)
      rw [hoffset]
      apply Holds.unknown code hwhole _ hge
      have hhead := congrArg (·[0]?) hunit
      simpa using hhead
  · rw [hnext] at h
    cases h
    rw [hoffset]
    exact .short (by omega) (by omega)

/-- **There is a call for each unit.** -/
theorem holds_of_call {bytes : List UInt8} {n : Nat} (h : n < unitCount bytes) :
    ∃ r, ((Decoder.ofBytes bytes).after n).next.1 = some r ∧ Holds bytes n r := by
  rw [lt_unitCount_iff] at h
  rw [Decoder.after_ofBytes, Nat.min_eq_left (Nat.le_of_lt h)]
  generalize hd : (⟨unitSize * n, bytes.drop (unitSize * n)⟩ : Decoder) = d
  have hoffset : d.offset = unitSize * n := by rw [← hd]
  have hrest : d.rest = bytes.drop (unitSize * n) := by rw [← hd]
  cases hnext : d.next.1 with
  | some r => exact ⟨r, rfl, holds_of_next hoffset hrest hnext⟩
  | none =>
    -- Only at the end is there no item, and the unit is not there yet.
    rcases d.next_cases with ⟨hnil, -⟩ | ⟨_, _, _, _, _, _, -, hcall⟩ | ⟨-, -, hcall⟩
    · rw [hrest, List.drop_eq_nil_iff] at hnil
      omega
    · rw [hcall] at hnext
      cases hnext
    · rw [hcall] at hnext
      cases hnext

/-- After the last unit there is nothing any more. -/
theorem next_of_unitCount_le {bytes : List UInt8} {n : Nat} (h : unitCount bytes ≤ n) :
    ((Decoder.ofBytes bytes).after n).next.1 = none := by
  have hend : bytes.length ≤ unitSize * n := by
    rw [← Nat.not_lt, ← lt_unitCount_iff]
    exact Nat.not_lt.mpr h
  rw [Decoder.after_ofBytes, List.drop_eq_nil_of_le hend]
  rfl

/-! ## The items of a stream -/

/-- The items begin with what a call gives and go on from where it leads. -/
theorem itemsFrom_eq (d : Decoder) :
    itemsFrom d.offset d.rest =
      (d.next.1.map fun r => (d.offset, r) :: itemsFrom d.next.2.offset d.next.2.rest).getD [] := by
  obtain ⟨offset, rest⟩ := d
  match rest with
  | [] => rfl
  | _ :: _ :: _ :: _ :: _ :: _ => rfl
  | [_] | [_, _] | [_, _, _] | [_, _, _, _] => rfl

/-- **The items are what the calls give**, each with the position before its call. -/
theorem getElem?_itemsFrom (d : Decoder) (n : Nat) :
    (itemsFrom d.offset d.rest)[n]? = (d.after n).next.1.map ((d.after n).offset, ·) := by
  induction n generalizing d with
  | zero =>
    rw [itemsFrom_eq, Decoder.after]
    cases d.next.1 <;> rfl
  | succ n ih =>
    rw [Decoder.after, ← ih, itemsFrom_eq d]
    cases hnext : d.next.1 with
    | some r => rfl
    | none =>
      -- At the end a call leads nowhere, so there are no items from there on either.
      rcases d.next_cases with ⟨hnil, hcall⟩ | ⟨_, _, _, _, _, _, -, hcall⟩ | ⟨-, -, hcall⟩
      · rw [hcall, hnil]
        rfl
      · rw [hcall] at hnext
        cases hnext
      · rw [hcall] at hnext
        cases hnext

theorem getElem?_items (bytes : List UInt8) (n : Nat) :
    (items bytes)[n]? = ((Decoder.ofBytes bytes).after n).next.1.map
      (((Decoder.ofBytes bytes).after n).offset, ·) :=
  getElem?_itemsFrom (Decoder.ofBytes bytes) n

/-- An item is what its unit is. -/
theorem holds_of_item {bytes : List UInt8} {n : Nat} {item : Nat × Except DecodeError Instruction}
    (h : (items bytes)[n]? = some item) : Holds bytes n item.2 := by
  rw [getElem?_items] at h
  obtain ⟨r, hr, rfl⟩ := Option.map_eq_some_iff.mp h
  by_cases hlt : n < unitCount bytes
  · obtain ⟨r', hr', hholds⟩ := holds_of_call hlt
    cases hr.symm.trans hr'
    exact hholds
  · rw [next_of_unitCount_le (Nat.not_lt.mp hlt)] at hr
    cases hr

theorem length_items (bytes : List UInt8) : (items bytes).length = unitCount bytes := by
  apply Nat.le_antisymm
  · apply List.getElem?_eq_none_iff.mp
    rw [getElem?_items, next_of_unitCount_le (Nat.le_refl _)]
    rfl
  · apply Nat.not_lt.mp
    intro hlt
    obtain ⟨r, hr, -⟩ := holds_of_call hlt
    have hitem := getElem?_items bytes (items bytes).length
    rw [hr, List.getElem?_eq_none (Nat.le_refl _)] at hitem
    cases hitem

/-! ## Whole streams -/

theorem itemsFrom_append (offset : Nat) (i : Instruction) (rest : List UInt8) :
    itemsFrom offset (i.toUnit ++ rest) = (offset, .ok i) :: itemsFrom (offset + unitSize) rest := by
  have hunit : ofUnit offset i.op.code (LittleEndian.encode 4 i.operand.toBitVec.toNat) = .ok i :=
    ofUnit_eq_ok_iff.mpr rfl
  exact congrArg (fun r => (offset, r) :: itemsFrom (offset + unitSize) rest) hunit

/-- What was encoded is read back, wherever it stands. -/
theorem itemsFrom_encode (offset : Nat) (body : List Instruction) :
    (itemsFrom offset (encode body)).mapM (·.2) = .ok body := by
  induction body generalizing offset with
  | nil => rfl
  | cons i body ih =>
    have hencode : encode (i :: body) = i.toUnit ++ encode body := List.flatMap_cons
    rw [hencode, itemsFrom_append, except_mapM_ok]
    exact .cons rfl (except_mapM_ok.mp (ih _))

theorem decode_encode (body : List Instruction) : decode (encode body) = .ok body :=
  itemsFrom_encode 0 body

/-- What is read is what encodes to the bytes, by induction on the units. -/
theorem encode_of_itemsFrom {offset : Nat} {bytes : List UInt8} {body : List Instruction}
    (h : (itemsFrom offset bytes).mapM (·.2) = .ok body) : encode body = bytes := by
  fun_induction itemsFrom offset bytes generalizing body with
  | case1 offset =>
    cases h
    rfl
  | case2 offset code a b c e rest ih =>
    cases except_mapM_ok.mp h with
    | cons hunit hrest =>
      rw [encode, List.flatMap_cons, ← ofUnit_eq_ok_iff.mp hunit, ← ih (except_mapM_ok.mpr hrest)]
      rfl
  | case3 offset bytes =>
    cases except_mapM_ok.mp h with
    | cons hunit _ => cases hunit

theorem encode_of_decode {bytes : List UInt8} {body : List Instruction} (h : decode bytes = .ok body) :
    encode body = bytes :=
  encode_of_itemsFrom h

/-- A stream that is read has an instruction in each unit. -/
theorem holds_of_decode {bytes : List UInt8} {body : List Instruction} (h : decode bytes = .ok body)
    {n : Nat} (hn : n < unitCount bytes) : ∃ i, Holds bytes n (.ok i) := by
  rw [← length_items] at hn
  have hitem := holds_of_item (List.getElem?_eq_getElem hn)
  obtain ⟨i, -, hi⟩ := exists_of_forall₂_mem (except_mapM_ok.mp h) (List.getElem_mem hn)
  rw [hi] at hitem
  exact ⟨i, hitem⟩

/-- A stream that is not read fails with its first unit that is no instruction. -/
theorem firstBad_of_decode {bytes : List UInt8} {e : DecodeError} (h : decode bytes = .error e) :
    ∃ n, FirstBad bytes n e := by
  obtain ⟨front, item, back, hsplit, hitem, hfront⟩ := except_mapM_error h
  refine ⟨front.length, ?_, ?_⟩
  · have hbad : (items bytes)[front.length]? = some item := by rw [hsplit]; simp
    rw [← hitem]
    exact holds_of_item hbad
  · intro k hk
    have hgood : (items bytes)[k]? = some front[k] := by
      rw [hsplit, List.getElem?_append_left hk, List.getElem?_eq_getElem hk]
    obtain ⟨i, hi⟩ := hfront front[k] (List.getElem_mem hk)
    refine ⟨i, ?_⟩
    rw [← hi]
    exact holds_of_item hgood

theorem FirstBad.unique {bytes : List UInt8} {n n' : Nat} {e e' : DecodeError} (h : FirstBad bytes n e)
    (h' : FirstBad bytes n' e') : e = e' := by
  rcases Nat.lt_trichotomy n n' with hlt | rfl | hgt
  · obtain ⟨i, hi⟩ := h'.first n hlt
    cases hi.unique h.bad
  · cases h.bad.unique h'.bad
    rfl
  · obtain ⟨i, hi⟩ := h.first n' hgt
    cases hi.unique h'.bad

theorem decode_eq_error_iff {bytes : List UInt8} {e : DecodeError} :
    decode bytes = .error e ↔ ∃ n, FirstBad bytes n e := by
  refine ⟨firstBad_of_decode, fun ⟨n, hbad⟩ => ?_⟩
  cases hdecode : decode bytes with
  | error e' =>
    obtain ⟨n', hbad'⟩ := firstBad_of_decode hdecode
    rw [hbad'.unique hbad]
  | ok body =>
    obtain ⟨i, hi⟩ := holds_of_decode hdecode (lt_unitCount_iff.mpr hbad.bad.nonempty)
    cases hi.unique hbad.bad

/-- **The streams that are read** are the well-formed ones. -/
theorem decode_ok_iff_wellFormed {bytes : List UInt8} :
    (∃ body, decode bytes = .ok body) ↔ WellFormed bytes := by
  constructor
  · rintro ⟨body, hdecode⟩
    have hunits : ∀ n, unitSize * n < bytes.length → ∃ i, Holds bytes n (.ok i) :=
      fun n hn => holds_of_decode hdecode (lt_unitCount_iff.mpr hn)
    refine ⟨?_, ?_⟩
    · -- A rest that is no whole unit would be one, which is no instruction.
      by_contra hrest
      have hlt : unitSize * (bytes.length / unitSize) < bytes.length := by
        simp only [unitSize] at hrest ⊢
        omega
      obtain ⟨i, hi⟩ := hunits _ hlt
      have hwhole := hi.whole.1
      simp only [unitSize] at hwhole
      omega
    · rintro offset byte ⟨n, rfl⟩ hbyte
      obtain ⟨i, hi⟩ := hunits n (List.getElem?_eq_some_iff.mp hbyte).1
      cases hi.whole.2.symm.trans hbyte
      exact toNat_code_lt i.op
  · rintro ⟨hwhole, hcodes⟩
    cases hdecode : decode bytes with
    | ok body => exact ⟨body, rfl⟩
    | error e =>
      obtain ⟨n, ⟨hbad, -⟩⟩ := firstBad_of_decode hdecode
      cases hbad with
      | unknown byte _ hbyte hge =>
        exact absurd (hcodes _ byte (Nat.dvd_mul_right unitSize n) hbyte) (Nat.not_lt.mpr hge)
      | short hsome hshort =>
        simp only [unitSize] at hwhole hsome hshort
        omega

/-! ## The codec -/

/-- **The bytes of an instruction**: the code, and the operand as a number below 2³² in four bytes, the
least significant first. A negative operand is counted from 2³² down. -/
structure Spelled (i : Instruction) (code a b c d : UInt8) : Prop where
  unit : i.toUnit = [code, a, b, c, d]
  code : Opcode.ofCode? code = some i.op
  operand : (a.toNat + 256 * b.toNat + 65536 * c.toNat + 16777216 * d.toNat : Int) =
    i.operand.toInt % 4294967296

/-- **How a stream is read**, call by call and as a whole. -/
structure Reads (bytes : List UInt8) : Prop where
  /-- What is read is what encodes to the stream. -/
  accepted : ∀ body, decode bytes = .ok body ↔ encode body = bytes
  /-- The streams that are read are the well-formed ones. -/
  language : (∃ body, decode bytes = .ok body) ↔ WellFormed bytes
  /-- Any other fails with its first unit that is no instruction. -/
  refused : ∀ e, decode bytes = .error e ↔ ∃ n, FirstBad bytes n e
  /-- Each call starts at the next multiple of five, or at the end, whatever the calls before found. -/
  offset : ∀ n, ((Decoder.ofBytes bytes).after n).offset = min (unitSize * n) bytes.length
  /-- There is a call for each unit, which gives what the unit is. -/
  call : ∀ n < unitCount bytes, ∃ r, ((Decoder.ofBytes bytes).after n).next.1 = some r ∧ Holds bytes n r
  /-- All further calls give nothing. -/
  ended : ∀ n, unitCount bytes ≤ n → ((Decoder.ofBytes bytes).after n).next.1 = none
  /-- The items are what the calls give. -/
  items : ∀ n, (items bytes)[n]? = ((Decoder.ofBytes bytes).after n).next.1.map
    (((Decoder.ofBytes bytes).after n).offset, ·)

theorem reads (bytes : List UInt8) : Reads bytes where
  accepted body := ⟨encode_of_decode, fun h => h ▸ decode_encode body⟩
  language := decode_ok_iff_wellFormed
  refused _ := decode_eq_error_iff
  offset n := by rw [Decoder.after_ofBytes]
  call _ hn := holds_of_call hn
  ended _ hn := next_of_unitCount_le hn
  items := getElem?_items bytes

theorem exists_spelled (i : Instruction) : ∃ code a b c d, Spelled i code a b c d := by
  refine ⟨_, _, _, _, _, rfl, Opcode.ofCode?_code i.op, ?_⟩
  have hlt := i.operand.toBitVec.isLt
  have htoInt : i.operand.toInt % 4294967296 = i.operand.toBitVec.toNat := by
    rw [← Int32.toInt_toBitVec, BitVec.toInt_eq_toNat_cond]
    split <;> omega
  rw [htoInt]
  simp only [UInt8.toNat_ofNat']
  omega

/-- **Encoding is one-to-one between bodies and well-formed streams**, decoding is its inverse, and every
stream is read unit by unit. -/
theorem encode_bijOn_and_reads :
    Set.BijOn encode Set.univ {bytes | WellFormed bytes} ∧
      (∀ body, decode (encode body) = .ok body) ∧
      (∀ i, ∃ code a b c d, Spelled i code a b c d) ∧
      ∀ bytes, Reads bytes := by
  refine ⟨⟨?_, ?_, ?_⟩, decode_encode, exists_spelled, reads⟩
  · intro body _
    exact decode_ok_iff_wellFormed.mp ⟨body, decode_encode body⟩
  · intro body _ body' _ heq
    have hback := decode_encode body
    rw [heq, decode_encode] at hback
    exact (Except.ok.inj hback).symm
  · intro bytes hbytes
    obtain ⟨body, hbody⟩ := decode_ok_iff_wellFormed.mpr hbytes
    exact ⟨body, trivial, encode_of_decode hbody⟩

end ManagedVm.Instruction
