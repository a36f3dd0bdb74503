import Mathlib.Data.List.Basic
import ManagedVm.Utf8

/-!
# Text through its bytes

Every text reads back from its bytes (`Utf8.decode_encode`), so that reading replaces nothing in what
was written as text. The first byte of a code falls in the range of its length, and the tests on the
second byte refuse no code of a character: a code that is too long for its character, or one of half a
surrogate pair, is never written.
-/

namespace ManagedVm.Utf8

/-! ## Bytes given as numbers -/

section Bytes

variable {lead n : Nat}

theorem toNat_ofNat (h : n < 256) : (UInt8.ofNat n).toNat = n := by
  rw [UInt8.toNat_ofNat']
  exact Nat.mod_eq_of_lt h

theorem le_ofNat {low : UInt8} (h : n < 256) : low ≤ UInt8.ofNat n ↔ low.toNat ≤ n := by
  rw [UInt8.le_iff_toNat_le, toNat_ofNat h]

theorem ofNat_le {high : UInt8} (h : n < 256) : UInt8.ofNat n ≤ high ↔ n ≤ high.toNat := by
  rw [UInt8.le_iff_toNat_le, toNat_ofNat h]

theorem ofNat_lt {high : UInt8} (h : n < 256) : UInt8.ofNat n < high ↔ n < high.toNat := by
  rw [UInt8.lt_iff_toNat_lt, toNat_ofNat h]

theorem ofNat_ne {b : UInt8} (h : n < 256) : UInt8.ofNat n ≠ b ↔ n ≠ b.toNat := by
  rw [Ne, ← UInt8.toNat_inj, toNat_ofNat h]

theorem isContinuation_ofNat (h : n < 64) : isContinuation (UInt8.ofNat (n + 128)) = true := by
  simp only [isContinuation, Bool.and_eq_true, decide_eq_true_eq, le_ofNat (n := n + 128) (by omega),
    ofNat_le (n := n + 128) (by omega), UInt8.reduceToNat]
  omega

theorem payload_ofNat (h : n < 64) : payload (UInt8.ofNat (n + 128)) = n := by
  rw [payload, toNat_ofNat (by omega)]
  omega

/-- The second byte fits, unless the code would be too long or half of a pair. -/
theorem fits3_ofNat (hlead : lead < 256) (h : n < 64) (hlong : lead = 0xE0 → 32 ≤ n)
    (hhalf : lead = 0xED → n < 32) : fits3 (UInt8.ofNat lead) (UInt8.ofNat (n + 128)) = true := by
  simp only [fits3, isContinuation_ofNat h, Bool.true_and, Bool.and_eq_true, Bool.or_eq_true, bne_iff_ne,
    decide_eq_true_eq, ofNat_ne hlead, le_ofNat (n := n + 128) (by omega),
    ofNat_le (n := n + 128) (by omega), UInt8.reduceToNat]
  omega

/-- The second byte fits, unless the code would be too long or that of no character. -/
theorem fits4_ofNat (hlead : lead < 256) (h : n < 64) (hlong : lead = 0xF0 → 16 ≤ n)
    (hcap : lead = 0xF4 → n < 16) : fits4 (UInt8.ofNat lead) (UInt8.ofNat (n + 128)) = true := by
  simp only [fits4, isContinuation_ofNat h, Bool.true_and, Bool.and_eq_true, Bool.or_eq_true, bne_iff_ne,
    decide_eq_true_eq, ofNat_ne hlead, le_ofNat (n := n + 128) (by omega),
    ofNat_le (n := n + 128) (by omega), UInt8.reduceToNat]
  omega

end Bytes

/-! ## Codes by their length -/

section Codes

variable {lead n k l : Nat} (rest : List UInt8)

/-- **Which length a first byte announces.** -/
theorem lead_cases (h : lead < 256) :
    (UInt8.ofNat lead < 0x80 ↔ lead < 0x80) ∧
      (isLead2 (UInt8.ofNat lead) = true ↔ 0xC2 ≤ lead ∧ lead ≤ 0xDF) ∧
      (isLead3 (UInt8.ofNat lead) = true ↔ 0xE0 ≤ lead ∧ lead ≤ 0xEF) ∧
      (isLead4 (UInt8.ofNat lead) = true ↔ 0xF0 ≤ lead ∧ lead ≤ 0xF4) := by
  simp only [isLead2, isLead3, isLead4, Bool.and_eq_true, decide_eq_true_eq, ofNat_lt h, le_ofNat h,
    ofNat_le h, UInt8.reduceToNat, and_self]

theorem decodeChars_one (h : lead < 0x80) :
    decodeChars (UInt8.ofNat lead :: rest) = Char.ofNat lead :: decodeChars rest := by
  obtain ⟨hone, -⟩ := lead_cases (show lead < 256 by omega)
  conv => lhs; unfold decodeChars
  rw [if_pos (hone.mpr h), toNat_ofNat (by omega)]

theorem decodeChars_two (hlow : 0xC2 ≤ lead) (hhigh : lead ≤ 0xDF) (hn : n < 64) :
    decodeChars (UInt8.ofNat lead :: UInt8.ofNat (n + 128) :: rest) =
      Char.ofNat (lead % 32 * 64 + n) :: decodeChars rest := by
  obtain ⟨hone, htwo, -⟩ := lead_cases (show lead < 256 by omega)
  conv => lhs; unfold decodeChars
  rw [if_neg (by rw [hone]; omega), if_pos (htwo.mpr ⟨hlow, hhigh⟩)]
  dsimp only
  rw [if_pos (isContinuation_ofNat hn), toNat_ofNat (by omega), payload_ofNat hn]

theorem decodeChars_three (hlow : 0xE0 ≤ lead) (hhigh : lead ≤ 0xEF) (hn : n < 64) (hk : k < 64)
    (hlong : lead = 0xE0 → 32 ≤ n) (hhalf : lead = 0xED → n < 32) :
    decodeChars (UInt8.ofNat lead :: UInt8.ofNat (n + 128) :: UInt8.ofNat (k + 128) :: rest) =
      Char.ofNat ((lead % 16 * 64 + n) * 64 + k) :: decodeChars rest := by
  obtain ⟨hone, htwo, hthree, -⟩ := lead_cases (show lead < 256 by omega)
  conv => lhs; unfold decodeChars
  rw [if_neg (by rw [hone]; omega), if_neg (by rw [htwo]; omega), if_pos (hthree.mpr ⟨hlow, hhigh⟩)]
  dsimp only
  rw [if_pos (fits3_ofNat (by omega) hn hlong hhalf), if_pos (isContinuation_ofNat hk),
    toNat_ofNat (by omega), payload_ofNat hn, payload_ofNat hk]

theorem decodeChars_four (hlow : 0xF0 ≤ lead) (hhigh : lead ≤ 0xF4) (hn : n < 64) (hk : k < 64)
    (hl : l < 64) (hlong : lead = 0xF0 → 16 ≤ n) (hcap : lead = 0xF4 → n < 16) :
    decodeChars (UInt8.ofNat lead :: UInt8.ofNat (n + 128) :: UInt8.ofNat (k + 128) ::
        UInt8.ofNat (l + 128) :: rest) =
      Char.ofNat (((lead % 8 * 64 + n) * 64 + k) * 64 + l) :: decodeChars rest := by
  obtain ⟨hone, htwo, hthree, hfour⟩ := lead_cases (show lead < 256 by omega)
  conv => lhs; unfold decodeChars
  rw [if_neg (by rw [hone]; omega), if_neg (by rw [htwo]; omega), if_neg (by rw [hthree]; omega),
    if_pos (hfour.mpr ⟨hlow, hhigh⟩)]
  dsimp only
  rw [if_pos (fits4_ofNat (by omega) hn hlong hcap), if_pos (isContinuation_ofNat hk),
    if_pos (isContinuation_ofNat hl), toNat_ofNat (by omega), payload_ofNat hn, payload_ofNat hk,
    payload_ofNat hl]

end Codes

/-! ## Texts -/

/-- **A character reads back from its code**, whatever stands behind it. -/
theorem decodeChars_append (c : Char) (rest : List UInt8) :
    decodeChars (String.utf8EncodeChar c ++ rest) = c :: decodeChars rest := by
  have hvalid : c.toNat < 0xD800 ∨ 0xDFFF < c.toNat ∧ c.toNat < 0x110000 := c.valid
  have hc : ∀ {n : Nat}, n = c.toNat → Char.ofNat n = c := by
    rintro n rfl
    exact Char.ofNat_toNat c
  have hv : c.val.toNat = c.toNat := rfl
  unfold String.utf8EncodeChar
  dsimp only
  rw [hv]
  split
  · rw [List.singleton_append, decodeChars_one rest (by omega), hc rfl]
  split
  · refine (decodeChars_two rest (by omega) (by omega) (by omega)).trans ?_
    rw [hc (by omega)]
  split
  · refine (decodeChars_three rest (by omega) (by omega) (by omega) (by omega) (by omega)
      (by omega)).trans ?_
    rw [hc (by omega)]
  · refine (decodeChars_four rest (by omega) (by omega) (by omega) (by omega) (by omega) (by omega)
      (by omega)).trans ?_
    rw [hc (by omega)]

/-- **A text reads back from its bytes.** -/
theorem decode_encode (s : String) : decode (encode s) = s := by
  have hchars : ∀ cs : List Char, decodeChars (cs.flatMap String.utf8EncodeChar) = cs := by
    intro cs
    induction cs with
    | nil => rfl
    | cons c cs ih => rw [List.flatMap_cons, decodeChars_append, ih]
  rw [decode, encode, hchars, String.ofList_toList]

end ManagedVm.Utf8
