/-!
# UTF-8

Strings are kept on the heap in UTF-8. Reading them back never fails: bytes that are not the code of
a character are replaced by U+FFFD, one for each longest beginning of a code. `decode` follows the
table of well-formed byte sequences: the first byte fixes the length and the range of the second,
and every later byte is a continuation byte.
-/

namespace ManagedVm.Utf8

/-- The bytes of a text. -/
def encode (s : String) : List UInt8 := s.toList.flatMap String.utf8EncodeChar

/-- The byte continues a code. -/
def isContinuation (b : UInt8) : Bool := 0x80 ≤ b && b ≤ 0xBF

/-- The first byte of a code of two bytes. -/
def isLead2 (b : UInt8) : Bool := 0xC2 ≤ b && b ≤ 0xDF

/-- The first byte of a code of three bytes. -/
def isLead3 (b : UInt8) : Bool := 0xE0 ≤ b && b ≤ 0xEF

/-- The first byte of a code of four bytes. -/
def isLead4 (b : UInt8) : Bool := 0xF0 ≤ b && b ≤ 0xF4

/-- The second byte fits the first one of a code of three bytes: no overlong code, no surrogate. -/
def fits3 (lead b : UInt8) : Bool :=
  isContinuation b && (lead != 0xE0 || 0xA0 ≤ b) && (lead != 0xED || b ≤ 0x9F)

/-- The second byte fits the first one of a code of four bytes: no overlong code, nothing above
U+10FFFF. -/
def fits4 (lead b : UInt8) : Bool :=
  isContinuation b && (lead != 0xF0 || 0x90 ≤ b) && (lead != 0xF4 || b ≤ 0x8F)

/-- The six bits a continuation byte carries. -/
def payload (b : UInt8) : Nat := b.toNat % 64

/-- What stands for bytes that are no code. -/
def replacement : Char := '\uFFFD'

/-- The characters of a run of bytes. -/
def decodeChars : List UInt8 → List Char
  | [] => []
  | a :: rest =>
    if a < 0x80 then
      Char.ofNat a.toNat :: decodeChars rest
    else if isLead2 a then
      match rest with
      | b :: rest1 =>
        if isContinuation b then
          Char.ofNat (a.toNat % 32 * 64 + payload b) :: decodeChars rest1
        else
          replacement :: decodeChars (b :: rest1)
      | [] => [replacement]
    else if isLead3 a then
      match rest with
      | b :: rest1 =>
        if fits3 a b then
          match rest1 with
          | c :: rest2 =>
            if isContinuation c then
              Char.ofNat ((a.toNat % 16 * 64 + payload b) * 64 + payload c) :: decodeChars rest2
            else
              replacement :: decodeChars (c :: rest2)
          | [] => [replacement]
        else
          replacement :: decodeChars (b :: rest1)
      | [] => [replacement]
    else if isLead4 a then
      match rest with
      | b :: rest1 =>
        if fits4 a b then
          match rest1 with
          | c :: rest2 =>
            if isContinuation c then
              match rest2 with
              | d :: rest3 =>
                if isContinuation d then
                  Char.ofNat
                    (((a.toNat % 8 * 64 + payload b) * 64 + payload c) * 64 + payload d) ::
                    decodeChars rest3
                else
                  replacement :: decodeChars (d :: rest3)
              | [] => [replacement]
            else
              replacement :: decodeChars (c :: rest2)
          | [] => [replacement]
        else
          replacement :: decodeChars (b :: rest1)
      | [] => [replacement]
    else
      replacement :: decodeChars rest

/-- The text of a run of bytes. -/
def decode (bytes : List UInt8) : String := String.ofList (decodeChars bytes)

end ManagedVm.Utf8
