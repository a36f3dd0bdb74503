import Mathlib.Data.List.Induction
import Mathlib.Data.List.TakeWhile
import ManagedVm.Natives

/-!
# Finding natives

Which native a query finds, said by the history of a table: the last registered of those that answer
to the queried names (`find?_ofList`). What a native answers to is not symmetric in its two names. Its
own name counts up to the first backtick, like both names of a query; the name of its type counts as
a whole, and a query never asks for a type name with a backtick. So a native whose type has a
template suffix is registered and never found (`not_answers_of_templated`), whereas all others are
found again under the names that they were registered with.
-/

namespace ManagedVm

/-! ## Names without their template suffix -/

/-- **The part of a name before its first backtick**, or the whole name if there is none. -/
def IsStem (stem name : String) : Prop :=
  '\x60' ∉ stem.toList ∧ (name = stem ∨ ∃ suffix, name = stem ++ "`" ++ suffix)

/-- The two names are the same up to their first backticks. -/
def SameStem (left right : String) : Prop := ∃ stem, IsStem stem left ∧ IsStem stem right

theorem stripTemplate_of_isStem {stem name : String} (h : IsStem stem name) :
    stripTemplate name = stem := by
  obtain ⟨hstem, hname⟩ := h
  have hkept : ∀ c ∈ stem.toList, decide (c ≠ '\x60') = true := by
    intro c hc
    simpa using fun heq : c = '\x60' => hstem (heq ▸ hc)
  unfold stripTemplate
  rcases hname with rfl | ⟨suffix, rfl⟩
  · rw [List.takeWhile_eq_self_iff.mpr hkept, String.ofList_toList]
  · have hlist : (stem ++ "`" ++ suffix).toList = stem.toList ++ '\x60' :: suffix.toList := by simp
    rw [hlist, List.takeWhile_append_of_pos hkept, List.takeWhile_cons_of_neg (by simp), List.append_nil,
      String.ofList_toList]

theorem isStem_stripTemplate (name : String) : IsStem (stripTemplate name) name := by
  have hsplit := List.takeWhile_append_dropWhile (p := (· ≠ '\x60')) (l := name.toList)
  constructor
  · intro hmem
    rw [stripTemplate, String.toList_ofList] at hmem
    simpa using List.mem_takeWhile_imp hmem
  · cases hrest : name.toList.dropWhile (· ≠ '\x60') with
    | nil =>
      left
      rw [hrest, List.append_nil] at hsplit
      rw [stripTemplate, hsplit, String.ofList_toList]
    | cons c suffix =>
      right
      -- What stripping stops at is the backtick.
      have hc : c = '\x60' := by
        have hne : name.toList.dropWhile (· ≠ '\x60') ≠ [] := hrest ▸ List.cons_ne_nil c suffix
        have hhead := List.head_dropWhile_not (· ≠ '\x60') hne
        simp only [hrest, List.head_cons] at hhead
        simpa using hhead
      refine ⟨String.ofList suffix, ?_⟩
      rw [hrest, hc] at hsplit
      apply String.toList_injective
      rw [← hsplit]
      simp [stripTemplate]

/-- A name has one stem, and stripping finds it. -/
theorem isStem_iff {stem name : String} : IsStem stem name ↔ stripTemplate name = stem :=
  ⟨stripTemplate_of_isStem, fun h => h ▸ isStem_stripTemplate name⟩

theorem sameStem_iff {left right : String} :
    SameStem left right ↔ stripTemplate left = stripTemplate right := by
  simp [SameStem, isStem_iff, eq_comm]

/-! ## What a native answers to -/

/-- **The native answers to a query**: its type is called like the stem of the queried type name, and
the method names have the same stem. -/
def Native.Answers (n : Native) (typeName name : String) : Prop :=
  IsStem n.typeName typeName ∧ SameStem n.name name

namespace Native

variable {n : Native} {typeName name : String}

/-- To answer is to have the key of the query. -/
theorem answers_iff : n.Answers typeName name ↔
    (n.typeName, stripTemplate n.name) = (stripTemplate typeName, stripTemplate name) := by
  rw [Answers, isStem_iff, sameStem_iff, Prod.mk.injEq, eq_comm]

/-- No query reaches a native whose type has a template suffix. -/
theorem not_answers_of_templated (h : '\x60' ∈ n.typeName.toList) : ¬ n.Answers typeName name :=
  fun hanswers => hanswers.1.1 h

/-- Any other native answers to its own names. -/
theorem answers_own (h : '\x60' ∉ n.typeName.toList) : n.Answers n.typeName n.name :=
  ⟨⟨h, .inl rfl⟩, sameStem_iff.mpr rfl⟩

/-- A native answers only to names with the stems of its own. -/
theorem Answers.sameStem (h : n.Answers typeName name) :
    SameStem typeName n.typeName ∧ SameStem name n.name :=
  ⟨⟨n.typeName, h.1, h.1.1, .inl rfl⟩, sameStem_iff.mpr (sameStem_iff.mp h.2).symm⟩

end Native

namespace Natives

variable {t : Natives} {n : Native} {ns : List Native} {typeName name typeName' name' : String}

/-! ## One registration -/

/-- **A query that the native answers to** finds it. -/
theorem find?_register_of_answers (h : n.Answers typeName name) :
    (t.register n).find? typeName name = some n := by
  have hkey := Native.answers_iff.mp h
  simp [register, find?, hkey]

/-- **Any other query** finds what it found before. -/
theorem find?_register_of_not_answers (h : ¬ n.Answers typeName name) :
    (t.register n).find? typeName name = t.find? typeName name := by
  have hkey := mt Native.answers_iff.mpr h
  unfold register find?
  dsimp only
  rw [List.find?_cons_of_neg (by simpa using hkey), List.find?_filter]
  congr 2
  funext entry
  by_cases heq : entry.1 = (stripTemplate typeName, stripTemplate name)
  · simp [heq, Ne.symm hkey]
  · simp [heq]

/-- A query is the same up to the template suffixes of its names. -/
theorem find?_congr (htype : SameStem typeName typeName') (hname : SameStem name name') :
    t.find? typeName name = t.find? typeName' name' := by
  unfold find?
  rw [sameStem_iff.mp htype, sameStem_iff.mp hname]

/-! ## Any number of registrations -/

/-- The table after a sequence of registrations, earliest first. -/
def ofList (ns : List Native) : Natives := ns.foldl register {}

theorem ofList_concat (ns : List Native) (n : Native) : ofList (ns ++ [n]) = (ofList ns).register n := by
  simp [ofList]

/-- The native is the last in a sequence that answers to a query. -/
def LastAnswering (ns : List Native) (typeName name : String) (n : Native) : Prop :=
  ∃ before after, ns = before ++ n :: after ∧ n.Answers typeName name ∧
    ∀ n' ∈ after, ¬ n'.Answers typeName name

theorem lastAnswering_concat {last : Native} : LastAnswering (ns ++ [last]) typeName name n ↔
    (last.Answers typeName name ∧ n = last) ∨
      (¬ last.Answers typeName name ∧ LastAnswering ns typeName name n) := by
  constructor
  · rintro ⟨before, after, heq, hanswers, hafter⟩
    rcases List.eq_nil_or_concat after with rfl | ⟨after, newest, rfl⟩
    · obtain ⟨-, hlast⟩ := List.append_inj' heq rfl
      obtain rfl := List.head_eq_of_cons_eq hlast
      exact .inl ⟨hanswers, rfl⟩
    · rw [List.concat_eq_append] at heq hafter
      rw [← List.cons_append, ← List.append_assoc] at heq
      obtain ⟨rfl, hlast⟩ := List.append_inj' heq rfl
      obtain rfl := List.head_eq_of_cons_eq hlast
      refine .inr ⟨hafter last (by simp), before, after, rfl, hanswers, fun n' hn' => ?_⟩
      exact hafter n' (List.mem_append_left _ hn')
  · rintro (⟨hanswers, rfl⟩ | ⟨hlast, before, after, rfl, hanswers, hafter⟩)
    · exact ⟨ns, [], rfl, hanswers, fun n' hn' => nomatch hn'⟩
    · refine ⟨before, after ++ [last], by simp, hanswers, fun n' hn' => ?_⟩
      rcases List.mem_append.mp hn' with hn' | hn'
      · exact hafter n' hn'
      · exact List.mem_singleton.mp hn' ▸ hlast

/-- **What a query finds** is the last registered native that answers to it. -/
theorem find?_ofList : (ofList ns).find? typeName name = some n ↔ LastAnswering ns typeName name n := by
  induction ns using List.reverseRecOn with
  | nil => simp [ofList, find?, LastAnswering]
  | append_singleton ns last ih =>
    rw [ofList_concat, lastAnswering_concat, ← ih]
    by_cases h : last.Answers typeName name
    · rw [find?_register_of_answers h]
      simp [h, eq_comm]
    · rw [find?_register_of_not_answers h]
      simp [h]

/-- **A table keeps what was registered**, as far as queries can reach it. -/
structure KeepsRegistrations (ns : List Native) : Prop where
  /-- A query finds the last registered native that answers to it. -/
  last : ∀ {typeName name : String} {n : Native},
    (ofList ns).find? typeName name = some n ↔ LastAnswering ns typeName name n
  /-- A native is found under its own names exactly if the name of its type has no backtick. -/
  own : ∀ n : Native, ((ofList ns).register n).find? n.typeName n.name = some n ↔
    '\x60' ∉ n.typeName.toList
  /-- If it has one, the native is found under no names, and every query finds what it found before. -/
  lost : ∀ n : Native, '\x60' ∈ n.typeName.toList → ∀ typeName name : String,
    ((ofList ns).register n).find? typeName name = (ofList ns).find? typeName name
  /-- Queries for other names find what they found before. -/
  others : ∀ (n : Native) {typeName name : String},
    ¬ SameStem typeName n.typeName ∨ ¬ SameStem name n.name →
      ((ofList ns).register n).find? typeName name = (ofList ns).find? typeName name
  /-- What is behind the first backtick of a queried name does not matter. -/
  suffixes : ∀ {typeName name typeName' name' : String}, SameStem typeName typeName' →
    SameStem name name' → (ofList ns).find? typeName name = (ofList ns).find? typeName' name'

/-- **Every sequence of registrations** leaves such a table. -/
theorem keepsRegistrations_ofList (ns : List Native) : KeepsRegistrations ns := by
  constructor
  case last => exact find?_ofList
  case own =>
    intro n
    constructor
    · -- What is found is one that was registered and answers to the names.
      intro hfound
      rw [← ofList_concat] at hfound
      obtain ⟨-, -, -, hanswers, -⟩ := find?_ofList.mp hfound
      exact hanswers.1.1
    · intro hplain
      exact find?_register_of_answers (Native.answers_own hplain)
  case lost =>
    intro n htemplated typeName name
    exact find?_register_of_not_answers (Native.not_answers_of_templated htemplated)
  case others =>
    intro n typeName name hother
    apply find?_register_of_not_answers
    intro hanswers
    exact hother.elim (· hanswers.sameStem.1) (· hanswers.sameStem.2)
  case suffixes => exact find?_congr

/-- A native of a type with a template suffix. -/
def listCount : Native where
  typeName := "List`1"
  name := "Count"
  arity := 1
  reserve := 4
  body := .host 0

/-- It is registered, and found neither under the names that it was registered with nor under those
without suffix. -/
theorem listCount_not_found :
    (standard.register listCount).size = standard.size + 1 ∧
    (standard.register listCount).find? listCount.typeName listCount.name = none ∧
    (standard.register listCount).find? "List" "Count" = none := by
  decide

end Natives

end ManagedVm
