import ManagedVm.Proofs.Assembler.Calls

/-!
# Constants keep their meaning

All primitive constants share one pool of bytes and all string constants one table of strings, and a
constant is an offset into one of them. Whatever is assembled later, the constant that a call returned
stands for what the call was given (`Means`), in the finished image as at once: pool and table only
grow. Equal strings share an entry, because a text leads to the one entry that holds it.
-/

namespace ManagedVm

namespace Image

/-- The bytes of a primitive constant are those that the pool has at its offset. -/
theorem constantBytes?_eq_some_iff {image : Image} {c : Constant} {data : List UInt8} :
    image.constantBytes? c = some data ↔ ∃ kind, c.kind = .primitive kind ∧ data.length = kind.size ∧
      ∃ front back, image.pool.toList = front ++ data ++ back ∧ front.length = c.offset := by
  unfold constantBytes?
  cases hkind : c.kind with
  | string => simp
  | primitive kind =>
    have hpool : (image.pool.extract c.offset (c.offset + kind.size)).toList =
        (image.pool.toList.drop c.offset).take kind.size := by
      rw [Array.toList_extract, List.extract_eq_take_drop, Nat.add_sub_cancel_left]
    simp only [hpool, ConstantKind.primitive.injEq, exists_eq_left']
    constructor
    · intro h
      split at h
      · rename_i hinside
        cases h
        refine ⟨by simp; omega, image.pool.toList.take c.offset,
          (image.pool.toList.drop c.offset).drop kind.size, ?_, by simp; omega⟩
        rw [List.append_assoc, List.take_append_drop, List.take_append_drop]
      · cases h
    · rintro ⟨hlength, front, back, hsplit, hfront⟩
      have hsize : c.offset + kind.size ≤ image.pool.size := by
        rw [← Array.length_toList, hsplit, List.length_append, List.length_append, hfront, hlength]
        omega
      rw [if_pos hsize, hsplit, List.append_assoc, ← hfront, List.drop_left, ← hlength, List.take_left]

end Image

namespace Assembler

/-! ## What a constant stands for -/

/-- What a constant is made of: bytes for a value of a kind, or a text. -/
inductive Literal
  | bytes (kind : Kind) (data : List UInt8)
  | text (s : String)

/-- **The constant stands for the literal** in an image. Bytes that are not as many as a value of the
kind has are no value. -/
inductive Means (image : Image) (c : Constant) : Literal → Prop
  | bytes {kind : Kind} {data : List UInt8} : c.kind = .primitive kind →
      (data.length = kind.size → image.constantBytes? c = some data) → Means image c (.bytes kind data)
  | text {s : String} : c.kind = .string → image.strings[c.offset]? = some s → Means image c (.text s)

/-- The literal of which a call makes a constant. -/
def Call.literal? : Call → Option Literal
  | addConstant kind data => some (.bytes kind data)
  | scalarConstant s => some (.bytes s.kind s.encode)
  | charConstant c => some (.bytes (.word .char) (Scalar.ofInt .char (firstUnit c)).encode)
  | stringConstant s => some (.text s)
  | _ => none

section Meaning

variable {image image' : Image} {c : Constant} {literal : Literal} {declared : List TypeDeclaration}

theorem getElem?_kept {α : Type} {xs ys : Array α} (h : xs.toList <+: ys.toList) {i : Nat} {a : α}
    (ha : xs[i]? = some a) : ys[i]? = some a := by
  rw [← Array.getElem?_toList] at ha ⊢
  obtain ⟨rest, hrest⟩ := h
  rw [← hrest, List.getElem?_append_left (List.getElem?_eq_some_iff.mp ha).1, ha]

/-- **What a constant stands for stays**, whatever is added. -/
theorem Means.extend (h : Means image c literal) (hext : image.Extends image' declared) :
    Means image' c literal := by
  cases h with
  | bytes hkind hdata =>
    refine .bytes hkind fun hlength => ?_
    obtain ⟨kind, hkind, hlength, front, back, hsplit, hfront⟩ :=
      Image.constantBytes?_eq_some_iff.mp (hdata hlength)
    obtain ⟨rest, hrest⟩ := hext.pool
    refine Image.constantBytes?_eq_some_iff.mpr ⟨kind, hkind, hlength, front, back ++ rest, ?_, hfront⟩
    rw [← hrest, hsplit, List.append_assoc (front ++ _)]
  | text hkind hs => exact .text hkind (getElem?_kept hext.strings hs)

end Meaning

/-! ## One constant -/

/-- The operation adds a constant for the literal, and returns its index. -/
def Puts (x : Assembler Nat) (draft : Draft) (literal : Literal) : Prop :=
  ∃ draft' c, x draft = .ok draft.image.constants.size draft' ∧
    draft'.image.constants = draft.image.constants.push c ∧ Means draft'.image c literal

section Put

variable {draft : Draft}

theorem puts_addConstant (draft : Draft) (kind : Kind) (data : List UInt8) :
    Puts (addConstant kind data) draft (.bytes kind data) := by
  refine ⟨_, _, rfl, rfl, .bytes rfl fun hlength => ?_⟩
  refine Image.constantBytes?_eq_some_iff.mpr ⟨kind, rfl, hlength, draft.image.pool.toList, [], ?_, ?_⟩
  · simp
  · exact Array.length_toList

/-- A named type before the constant does not matter. -/
theorem puts_after_namedType (hstep : draft.InStep) (d : TypeDeclaration) {x : Assembler Nat}
    {literal : Literal} (hx : ∀ {draft : Draft}, draft.InStep → Puts x draft literal) :
    Puts (discard (namedType d) >>= fun _ => x) draft literal := by
  obtain ⟨index, draft', h, hsame⟩ := namedType_ok draft d
  have hstep' := (adds_namedType draft d).inStep hstep
  rw [final_of_ok h] at hstep'
  obtain ⟨draft'', c, hput, hconstants, hmeans⟩ := hx hstep'
  rw [hsame] at hput hconstants
  exact ⟨draft'', c, (bind_of_ok (discard_of_ok h)).trans hput, hconstants, hmeans⟩

theorem puts_scalarConstant (hstep : draft.InStep) (s : Scalar) :
    Puts (scalarConstant s) draft (.bytes s.kind s.encode) :=
  puts_after_namedType hstep _ fun {draft} _ => puts_addConstant draft s.kind s.encode

/-- An interned string is in the table, where it was or behind the others. -/
theorem internString_ok (hstep : draft.InStep) (text : String) : ∃ offset draft',
    internString text draft = .ok offset draft' ∧ draft'.image.constants = draft.image.constants ∧
      draft'.image.strings[offset]? = some text := by
  cases hfind : draft.stringsByValue.find? text with
  | some offset =>
    exact ⟨offset, draft, internString_of_some draft hfind, rfl, (hstep.strings text offset).mp hfind⟩
  | none =>
    exact ⟨_, draft.pushString text, internString_of_none draft hfind, rfl, Array.getElem?_push_size⟩

theorem puts_stringConstant (hstep : draft.InStep) (text : String) :
    Puts (stringConstant text) draft (.text text) := by
  refine puts_after_namedType hstep _ fun {draft} hstep => ?_
  obtain ⟨offset, draft', hintern, hconstants, htext⟩ := internString_ok hstep text
  refine ⟨{ draft' with image.constants := draft'.image.constants.push ⟨.string, offset⟩ },
    ⟨.string, offset⟩, ?_, ?_, .text rfl htext⟩
  · rw [bind_of_ok hintern, ← hconstants]
    rfl
  · rw [hconstants]

/-- **A call for a constant returns one that stands for its literal.** -/
theorem puts_call (hstep : draft.InStep) {c : Call} {literal : Literal} (h : c.literal? = some literal) :
    Puts c.run draft literal := by
  cases c with
  | addConstant kind data =>
    cases h
    exact puts_addConstant draft kind data
  | scalarConstant s =>
    cases h
    exact puts_scalarConstant hstep s
  | charConstant ch =>
    cases h
    exact puts_scalarConstant hstep (.ofInt .char (firstUnit ch))
  | stringConstant text =>
    cases h
    exact puts_stringConstant hstep text
  | _ => cases h

end Put

/-! ## All calls -/

/-- **The constants of a finished image.** -/
structure KeepsConstants (calls : List Call) : Prop where
  /-- A call for a constant returns an index, and what is there in the end stands for the literal. -/
  meaning : ∀ (n : Nat) c literal, calls[n]? = some c → c.literal? = some literal → ∃ i k,
    answer? calls n = some (.ok i) ∧ (assembled calls).constants[i]? = some k ∧
      Means (assembled calls) k literal
  /-- No string is in the table twice. -/
  distinct : (assembled calls).strings.toList.Nodup
  /-- Two string constants share their entry exactly if their texts are equal. -/
  shared : ∀ (n n' : Nat) s s' i i' k k', calls[n]? = some (.stringConstant s) →
    calls[n']? = some (.stringConstant s') → answer? calls n = some (.ok i) →
      answer? calls n' = some (.ok i') → (assembled calls).constants[i]? = some k →
        (assembled calls).constants[i']? = some k' → (k.offset = k'.offset ↔ s = s')

section Calls

variable {calls : List Call}

theorem eq_append_of_getElem? {n : Nat} {c : Call} (h : calls[n]? = some c) :
    calls = calls.take n ++ [c] ++ calls.drop (n + 1) := by
  obtain ⟨hlt, rfl⟩ := List.getElem?_eq_some_iff.mp h
  rw [List.take_append_getElem, List.take_append_drop]

theorem meaning_of_call {n : Nat} {c : Call} {literal : Literal} (hc : calls[n]? = some c)
    (hliteral : c.literal? = some literal) : ∃ i k, answer? calls n = some (.ok i) ∧
      (assembled calls).constants[i]? = some k ∧ Means (assembled calls) k literal := by
  obtain ⟨draft', k, hrun, hconstants, hmeans⟩ := puts_call (inStep_drafted (calls.take n)) hliteral
  obtain ⟨declared, hext⟩ := extends_assembled (calls.take n ++ [c]) (calls.drop (n + 1))
  rw [← eq_append_of_getElem? hc, assembled, drafted_concat, final_of_ok hrun] at hext
  refine ⟨(drafted (calls.take n)).image.constants.size, k, ?_, getElem?_kept hext.constants ?_,
    hmeans.extend hext⟩
  · rw [answer?, hc, Option.map_some, answer_of_ok hrun]
  · rw [hconstants, Array.getElem?_push_size]

theorem distinct_assembled (calls : List Call) : (assembled calls).strings.toList.Nodup :=
  (inStep_drafted calls).nodup

end Calls

/-- **Constants keep their meaning**, whatever is assembled and in whatever order. -/
theorem keepsConstants_of_calls (calls : List Call) : KeepsConstants calls where
  meaning _ _ _ := meaning_of_call
  distinct := distinct_assembled calls
  shared := by
    intro n n' s s' i i' k k' hs hs' hi hi' hk hk'
    -- Both constants stand for their texts, so the entries at their offsets are known.
    have hentry : ∀ {n i : Nat} {s : String} {k : Constant}, calls[n]? = some (.stringConstant s) →
        answer? calls n = some (.ok i) → (assembled calls).constants[i]? = some k →
          (assembled calls).strings.toList[k.offset]? = some s := by
      intro n i s k hs hi hk
      obtain ⟨i', k', hi', hk', hmeans⟩ := meaning_of_call hs rfl
      cases hi.symm.trans hi'
      cases hk.symm.trans hk'
      cases hmeans with
      | text _ hs => rwa [Array.getElem?_toList]
    have htext := hentry hs hi hk
    have htext' := hentry hs' hi' hk'
    constructor
    · intro hoffset
      rw [hoffset, htext'] at htext
      exact (Option.some.inj htext).symm
    · rintro rfl
      obtain ⟨hlt, -⟩ := List.getElem?_eq_some_iff.mp htext
      exact (List.getElem?_inj hlt (distinct_assembled calls)).mp (htext.trans htext'.symm)

end Assembler

end ManagedVm
