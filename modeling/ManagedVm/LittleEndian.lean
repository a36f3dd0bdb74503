import ManagedVm.Naturals

/-!
# Little-endian numbers

Every number the machine keeps in memory, in the constant pool or in an encoded instruction is a
run of bytes with the least significant byte first. `encode` cuts a number to a given count of
bytes, `decode` reads a run of any length back. The laws say that each undoes the other, up to the
part of the number that does not fit.
-/

namespace ManagedVm.LittleEndian

open scoped Naturals

/-- The lowest `count` bytes of `n`, least significant first. -/
def encode : (count n : Nat) → List UInt8
  | 0, _ => []
  | count + 1, n => UInt8.ofNat n :: encode count (n / 256)

/-- The number a run of bytes spells, least significant first. -/
def decode : List UInt8 → Nat
  | [] => 0
  | b :: bs => b.toNat + 256 * decode bs

@[simp] theorem length_encode (count n : Nat) : (encode count n).length = count := by
  induction count generalizing n with
  | zero => rfl
  | succ count ih => simp [encode, ih]

@[simp] theorem take_encode (count n : Nat) : (encode count n).take count = encode count n :=
  List.take_of_length_le (Nat.le_of_eq (length_encode count n))

theorem decode_lt (bs : List UInt8) : decode bs < 256 ^ bs.length := by
  induction bs with
  | nil => simp [decode]
  | cons b bs ih =>
    have := b.toNat_lt
    simp only [decode, List.length_cons, Nat.pow_succ]
    omega

/-- Reading back gives the number, less what the bytes could not hold. -/
theorem decode_encode (count n : Nat) : decode (encode count n) = n % 256 ^ count := by
  induction count generalizing n with
  | zero => simp [encode, decode, Nat.mod_one]
  | succ count ih =>
    have low : (UInt8.ofNat n).toNat = n % 256 := by simp
    rw [encode, decode, ih, low, Nat.pow_succ, Nat.mul_comm (256 ^ count) 256, Nat.mod_mul]

/-- A run of bytes is the only one of its length that spells its number. -/
theorem encode_decode (bs : List UInt8) : encode bs.length (decode bs) = bs := by
  induction bs with
  | nil => rfl
  | cons b bs ih =>
    have hb := b.toNat_lt
    have low : UInt8.ofNat (b.toNat + 256 * decode bs) = b := by
      apply UInt8.toNat.inj
      simp only [UInt8.toNat_ofNat']
      omega
    have high : (b.toNat + 256 * decode bs) / 256 = decode bs := by omega
    simp only [List.length_cons, encode, decode, low, high, ih]

end ManagedVm.LittleEndian
