import ManagedVm.Proofs.Assembler.Calls

/-!
# Arrays and pointers of a type

The type of arrays or pointers of a type is asked for by a name, which is the name of the type with a
suffix. The name is all that is looked at: any type that was declared under it is taken, the last one if
there are several. So what is returned always has the name, and it is the same type again until another
one is declared under the name (`Derives.named`, `Derives.again`); but it is an array or a pointer of the
type exactly if the last type of that name is one (`Derives.exactly`). A type that is declared by hand
can break this in two ways, by having such a name and by sharing its own name with another type. If none
does, what is returned is what was asked for (`Derives.orderly`).
-/

namespace ManagedVm

namespace Assembler

section Images

variable {image image' : Image} {draft : Draft} {declared : List TypeDeclaration}

theorem typeName_eq (image : Image) (index : Nat) :
    typeName image index = (image.typeNames[index]?).getD "" := by
  simp [typeName, Image.typeNames_eq]

/-- The name of a declared type does not change. -/
theorem typeName_extend (h : image.Extends image' declared) {index : Nat}
    (hindex : index < image.types.size) : typeName image' index = typeName image index := by
  rw [typeName_eq, typeName_eq, h.typeNames,
    List.getElem?_append_left (by rwa [Image.length_typeNames])]

theorem typeName_of_lt {index : Nat} (h : index < image.types.size) :
    image.typeNames[index]? = some (typeName image index) := by
  have hlt : index < image.typeNames.length := by rwa [Image.length_typeNames]
  rw [typeName_eq, List.getElem?_eq_getElem hlt]
  rfl

/-- What calls for named types declare has a new name. -/
theorem eq_of_newType? (hstep : draft.InStep) {d d' : TypeDeclaration} (h : newType? draft d = some d') :
    d' = d ∧ d.name ∉ draft.image.typeNames := by
  unfold newType? at h
  split at h
  · rename_i hnone
    rw [hstep.types] at hnone
    exact ⟨(Option.some.inj h).symm, lastIndex?_eq_none_iff.mp hnone⟩
  · cases h

/-- **What is declared has a new name, unless it is declared by hand.** -/
theorem declares?_cases (hstep : draft.InStep) {c : Call} {d : TypeDeclaration}
    (h : c.declares? draft = some d) :
    c.byHand? = some d ∨ c.named? draft.image = some d ∧ d.name ∉ draft.image.typeNames := by
  unfold Call.declares? at h
  split at h
  · rename_i d' hd
    exact .inl (hd.trans h)
  · obtain ⟨d', hnamed, hnew⟩ := Option.bind_eq_some_iff.mp h
    obtain ⟨rfl, hname⟩ := eq_of_newType? hstep hnew
    exact .inr ⟨hnamed, hname⟩

/-- A name that is there keeps its last place, unless a type is declared under it by hand. -/
theorem lastType?_call (hstep : draft.InStep) {c : Call} {name : String} {t : Nat}
    (ht : lastType? draft.image name = some t) (hother : ∀ d, c.byHand? = some d → d.name ≠ name) :
    lastType? (final c.run draft).image name = some t := by
  have hext := (adds_call c draft).image
  have hmem : name ∈ draft.image.typeNames := List.mem_of_getElem? (getElem?_of_lastIndex? ht)
  unfold lastType? at ht ⊢
  rw [hext.typeNames]
  cases hd : c.declares? draft with
  | none => simpa using ht
  | some d =>
    have hne : d.name ≠ name := by
      rcases declares?_cases hstep hd with hhand | ⟨-, hnew⟩
      · exact hother d hhand
      · exact fun heq => hnew (heq ▸ hmem)
    rw [Option.toList_some, List.map_singleton, lastIndex?_concat, if_neg hne, ht]

end Images

/-! ## Derived types -/

/-- What is derived from a type. -/
inductive Derivation
  | array
  | pointer

namespace Derivation

/-- What the name of the type gets behind it. -/
def suffix : Derivation → String
  | array => "[]"
  | pointer => "*"

/-- The category of what is derived. -/
def category : Derivation → Category
  | array => .array
  | pointer => .pointer

/-- The call that asks for it. -/
def call : Derivation → Nat → Call
  | array => .arrayOf
  | pointer => .pointerTo

/-- Its declaration. -/
def declaration (k : Derivation) (image : Image) (e : Nat) : TypeDeclaration :=
  { name := typeName image e ++ k.suffix, category := k.category, underlying := some e }

/-- The type is derived from the one of an index. -/
def Is (k : Derivation) (e : Nat) (d : TypeDeclaration) : Prop :=
  d.category = k.category ∧ d.underlying = some e

theorem run_call (k : Derivation) (e : Nat) (draft : Draft) :
    (k.call e).run draft = namedType (k.declaration draft.image e) draft := by
  cases k with
  | array => exact arrayOf_eq draft e
  | pointer => exact pointerTo_eq draft e

theorem byHand?_call (k : Derivation) (e : Nat) : (k.call e).byHand? = none := by cases k <;> rfl

theorem eq_of_append_suffix {k k' : Derivation} {base base' : String}
    (h : base ++ k.suffix = base' ++ k'.suffix) : k = k' ∧ base = base' := by
  have hlast := congrArg (·.toList.getLast?) h
  cases k <;> cases k' <;> simp [suffix, String.toList_append] at hlast h ⊢
  all_goals exact h

end Derivation

/-- A name with another last letter is none of a derived type. -/
theorem ne_append_suffix {name : String}
    (h : name.toList.getLast? ≠ some ']' ∧ name.toList.getLast? ≠ some '*') (k : Derivation)
    (base : String) : name ≠ base ++ k.suffix := by
  rintro rfl
  cases k
  · simp [Derivation.suffix, String.toList_append] at h
  · simp [Derivation.suffix, String.toList_append] at h

/-! ## Orderly declarations -/

/-- **A declaration is what its name says** among types of some names: if the name is that of an array or
a pointer, the type is one, of the type that the rest of the name names. -/
def Truthful (names : List String) (d : TypeDeclaration) : Prop :=
  ∀ (k : Derivation) base, d.name = base ++ k.suffix →
    ∃ e, k.Is e d ∧ names[e]? = some base

/-- A name that is none of a derived type says nothing. -/
theorem truthful_of_getLast? {d : TypeDeclaration}
    (h : d.name.toList.getLast? ≠ some ']' ∧ d.name.toList.getLast? ≠ some '*') (names : List String) :
    Truthful names d :=
  fun k base hname => absurd hname (ne_append_suffix h k base)

/-- **The call keeps names apart and true**: a type that is declared by hand has a new name and is what
the name says, and arrays and pointers are asked for of types that are there. -/
def Call.Orderly (image : Image) (c : Call) : Prop :=
  (∀ d, c.byHand? = some d → d.name ∉ image.typeNames ∧ Truthful image.typeNames d) ∧
    ∀ (k : Derivation) e, c = k.call e → e < image.types.size

theorem Call.orderly_derivation (k : Derivation) {e : Nat} {image : Image} (he : e < image.types.size) :
    (k.call e).Orderly image := by
  constructor
  · intro d hd
    rw [k.byHand?_call e] at hd
    cases hd
  · intro k' e' heq
    cases k <;> cases k' <;> cases heq
    all_goals exact he

/-- A type that is declared by hand may have any new name that is none of a derived type. -/
theorem Call.orderly_byHand {c : Call} {d : TypeDeclaration} {image : Image} (hd : c.byHand? = some d)
    (hnew : d.name ∉ image.typeNames)
    (hlast : d.name.toList.getLast? ≠ some ']' ∧ d.name.toList.getLast? ≠ some '*') :
    c.Orderly image := by
  constructor
  · intro d' hd'
    cases Option.some.inj (hd.symm.trans hd')
    exact ⟨hnew, truthful_of_getLast? hlast _⟩
  · rintro k e rfl
    rw [k.byHand?_call e] at hd
    cases hd

/-- All calls do, each where it is made. -/
def OrderlyFrom (draft : Draft) : List Call → Prop
  | [] => True
  | c :: calls => c.Orderly draft.image ∧ OrderlyFrom (final c.run draft) calls

/-- **Types whose names are apart and true.** -/
structure Consistent (types : List TypeDeclaration) : Prop where
  distinct : (types.map (·.name)).Nodup
  truthful : ∀ d ∈ types, Truthful (types.map (·.name)) d

section Consistent

variable {types : List TypeDeclaration} {names : List String} {image : Image} {draft : Draft}

theorem Truthful.append {d : TypeDeclaration} (h : Truthful names d) (more : List String) :
    Truthful (names ++ more) d := by
  intro k base hname
  obtain ⟨e, his, he⟩ := h k base hname
  exact ⟨e, his, by rw [List.getElem?_append_left (List.getElem?_eq_some_iff.mp he).1, he]⟩

theorem Consistent.concat (h : Consistent types) {d : TypeDeclaration}
    (hnew : d.name ∉ types.map (·.name)) (htrue : Truthful (types.map (·.name)) d) :
    Consistent (types ++ [d]) := by
  constructor
  · rw [List.map_append, List.nodup_append]
    refine ⟨h.distinct, by simp, ?_⟩
    rintro name hname last hlast rfl
    have heq : name = d.name := List.mem_singleton.mp hlast
    exact hnew (heq ▸ hname)
  · intro d' hd'
    rw [List.map_append]
    rcases List.mem_append.mp hd' with hold | hlast
    · exact (h.truthful d' hold).append _
    · cases List.mem_singleton.mp hlast
      exact htrue.append _

/-- The types that are asked for by their names are what they are called. -/
theorem truthful_of_named? {c : Call} {d : TypeDeclaration} (h : c.named? image = some d)
    (hindex : ∀ (k : Derivation) e, c = k.call e → e < image.types.size) :
    Truthful image.typeNames d := by
  have hderived : ∀ (k : Derivation) e, e < image.types.size → Truthful image.typeNames
      (k.declaration image e) := by
    intro k e he k' base hname
    obtain ⟨rfl, rfl⟩ := Derivation.eq_of_append_suffix hname
    exact ⟨e, ⟨rfl, rfl⟩, typeName_of_lt he⟩
  have hkind : ∀ kind : Kind, kind.name.toList.getLast? ≠ some ']' ∧
      kind.name.toList.getLast? ≠ some '*' := by
    rintro (kind | precision | -)
    · cases kind <;> decide
    · cases precision <;> decide
    · decide
  cases c with
  | arrayOf e =>
    cases h
    exact hderived .array e (hindex .array e rfl)
  | pointerTo e =>
    cases h
    exact hderived .pointer e (hindex .pointer e rfl)
  | voidType | stringType | stringConstant =>
    cases h
    apply truthful_of_getLast?
    decide
  | primitiveType | scalarConstant | charConstant =>
    cases h
    apply truthful_of_getLast?
    exact hkind _
  | _ => cases h

/-- **One orderly call.** -/
theorem Consistent.call (h : Consistent draft.image.outlines) (hstep : draft.InStep) {c : Call}
    (horderly : c.Orderly draft.image) : Consistent (final c.run draft).image.outlines := by
  rw [(adds_call c draft).image.types]
  cases hd : c.declares? draft with
  | none => simpa using h
  | some d =>
    have hnew : d.name ∉ draft.image.typeNames ∧ Truthful draft.image.typeNames d := by
      rcases declares?_cases hstep hd with hhand | ⟨hnamed, hnew⟩
      · exact horderly.1 d hhand
      · exact ⟨hnew, truthful_of_named? hnamed horderly.2⟩
    exact h.concat hnew.1 hnew.2

theorem consistent_of_orderlyFrom (h : Consistent draft.image.outlines) (hstep : draft.InStep)
    {calls : List Call} (horderly : OrderlyFrom draft calls) :
    Consistent (draftedFrom draft calls).image.outlines := by
  induction calls generalizing draft with
  | nil => exact h
  | cons c calls ih =>
    exact ih (h.call hstep horderly.1) ((adds_call c draft).inStep hstep) horderly.2

end Consistent

theorem OrderlyFrom.of_append {draft : Draft} {calls calls' : List Call}
    (h : OrderlyFrom draft (calls ++ calls')) : OrderlyFrom (draftedFrom draft calls) calls' := by
  induction calls generalizing draft with
  | nil => exact h
  | cons c calls ih => exact ih h.2

/-- Orderly calls declare no type by hand under a name that is there. -/
theorem OrderlyFrom.ne_name {draft : Draft} {calls : List Call} (h : OrderlyFrom draft calls)
    {name : String} (hname : name ∈ draft.image.typeNames) :
    ∀ c ∈ calls, ∀ d, c.byHand? = some d → d.name ≠ name := by
  induction calls generalizing draft with
  | nil => simp
  | cons c calls ih =>
    have hkept : name ∈ (final c.run draft).image.typeNames := by
      rw [(adds_call c draft).image.typeNames]
      exact List.mem_append_left _ hname
    intro c' hc' d hd
    rcases List.mem_cons.mp hc' with rfl | hlater
    · exact fun heq => (h.1.1 d hd).1 (heq ▸ hname)
    · exact ih h.2 hkept c' hlater d hd

theorem lastType?_draftedFrom {draft : Draft} (hstep : draft.InStep) {calls : List Call} {name : String}
    {t : Nat} (ht : lastType? draft.image name = some t)
    (hother : ∀ c ∈ calls, ∀ d, c.byHand? = some d → d.name ≠ name) :
    lastType? (draftedFrom draft calls).image name = some t := by
  induction calls generalizing draft with
  | nil => exact ht
  | cons c calls ih =>
    exact ih ((adds_call c draft).inStep hstep) (lastType?_call hstep ht (hother c List.mem_cons_self))
      fun c' hc' => hother c' (List.mem_cons_of_mem c hc')

/-! ## What is returned -/

namespace Derivation

/-- **What a call for a derived type finds or makes**: a type of its name, at the last place of the name. -/
structure Found (k : Derivation) (e : Nat) (draft : Draft) (t : Nat) (d : TypeDeclaration) : Prop where
  returned : answer (k.call e).run draft = .ok t
  there : (final (k.call e).run draft).image.types[t]? = some d
  last : lastType? (final (k.call e).run draft).image (k.declaration draft.image e).name = some t
  named : d.name = (k.declaration draft.image e).name
  origin : lastType? draft.image (k.declaration draft.image e).name = none ∧ k.Is e d ∨
    lastType? draft.image (k.declaration draft.image e).name = some t ∧ draft.image.types[t]? = some d

section Found

variable {k : Derivation} {e t : Nat} {draft : Draft} {d : TypeDeclaration}

theorem exists_found (k : Derivation) (e : Nat) (hstep : draft.InStep) : ∃ t d, k.Found e draft t d := by
  have hfind := hstep.types (k.declaration draft.image e).name
  cases h : lastType? draft.image (k.declaration draft.image e).name with
  | none =>
    have hrun := (k.run_call e draft).trans (namedType_of_none (hfind.trans h))
    refine ⟨draft.image.types.size, k.declaration draft.image e, answer_of_ok hrun, ?_, ?_, rfl,
      .inl ⟨h, rfl, rfl⟩⟩
    · rw [final_of_ok hrun]
      exact Array.getElem?_push_size
    · have hstep' := hstep.pushType (k.declaration draft.image e)
      rw [final_of_ok hrun, ← hstep'.types, Draft.pushType, Index.find?_insert, if_pos rfl]
  | some t =>
    have hrun := (k.run_call e draft).trans (namedType_of_some (hfind.trans h))
    have hname := getElem?_of_lastIndex? h
    rw [Image.typeNames_eq, List.getElem?_map, Option.map_eq_some_iff] at hname
    obtain ⟨d, hd, hname⟩ := hname
    rw [Array.getElem?_toList] at hd
    exact ⟨t, d, answer_of_ok hrun, by rwa [final_of_ok hrun], by rwa [final_of_ok hrun], hname,
      .inr ⟨h, hd⟩⟩

/-- Among types whose names are apart and true, a type of the name is what the name says. -/
theorem Found.is_of_consistent (h : k.Found e draft t d) (himage : Consistent draft.image.outlines)
    (he : e < draft.image.types.size) : k.Is e d := by
  rcases h.origin with ⟨-, his⟩ | ⟨-, hd⟩
  · exact his
  · have hmem : d.outline ∈ draft.image.outlines :=
      List.mem_map_of_mem (Array.mem_def.mp (Array.mem_of_getElem? hd))
    obtain ⟨e', his, he'⟩ := himage.truthful _ hmem k _ h.named
    -- both indices have the name of the type, which no two types share
    have hlt : e < draft.image.typeNames.length := by rwa [Image.length_typeNames]
    have heq : e = e' :=
      (List.getElem?_inj hlt himage.distinct).mp ((typeName_of_lt he).trans he'.symm)
    exact heq ▸ his

/-- The same type is returned as long as no other is declared under the name. -/
theorem Found.again (h : k.Found e draft t d) (hstep : draft.InStep) (he : e < draft.image.types.size)
    {calls : List Call}
    (hother : ∀ c ∈ calls, ∀ d, c.byHand? = some d → d.name ≠ (k.declaration draft.image e).name) :
    answer (k.call e).run (draftedFrom draft (k.call e :: calls)) = .ok t := by
  have hlast := lastType?_draftedFrom ((adds_call (k.call e) draft).inStep hstep) h.last hother
  have hstep' := inStep_draftedFrom hstep (k.call e :: calls)
  have hsame : (k.declaration (draftedFrom draft (k.call e :: calls)).image e).name =
      (k.declaration draft.image e).name := by
    obtain ⟨declared, hext⟩ := extends_draftedFrom draft (k.call e :: calls)
    exact congrArg (· ++ k.suffix) (typeName_extend hext he)
  refine answer_of_ok ((k.run_call e _).trans (namedType_of_some ?_))
  rw [hstep'.types, hsame]
  exact hlast

end Found

end Derivation

/-- The call returns the index of a type after some calls. -/
def Returns (calls : List Call) (c : Call) (d : TypeDeclaration) : Prop :=
  ∃ t, answer c.run (drafted calls) = .ok t ∧ (assembled (calls ++ [c])).types[t]? = some d

/-- **What asking for an array or a pointer of a type gives after some calls.** -/
structure Derives (calls : List Call) (k : Derivation) (e : Nat) : Prop where
  /-- A type of the derived name is returned. -/
  named : ∃ d, Returns calls (k.call e) d ∧ d.name = typeName (assembled calls) e ++ k.suffix
  /-- It is returned again, unless a type is declared under the name by hand. -/
  again : ∀ calls' : List Call,
    (∀ c ∈ calls', ∀ d, c.byHand? = some d → d.name ≠ typeName (assembled calls) e ++ k.suffix) →
      answer (k.call e).run (drafted (calls ++ k.call e :: calls')) =
        answer (k.call e).run (drafted calls)
  /-- It is derived from the type exactly if the last type that has the name is, or none has it. -/
  exactly : (∃ d, Returns calls (k.call e) d ∧ k.Is e d) ↔
    ∀ t, lastType? (assembled calls) (typeName (assembled calls) e ++ k.suffix) = some t →
      ∃ d, (assembled calls).types[t]? = some d ∧ k.Is e d
  /-- After orderly calls it is. -/
  orderly : OrderlyFrom {} calls → ∃ d, Returns calls (k.call e) d ∧ k.Is e d
  /-- As long as the calls stay orderly, it is returned again. -/
  orderly_again : ∀ calls' : List Call, OrderlyFrom {} (calls ++ k.call e :: calls') →
    answer (k.call e).run (drafted (calls ++ k.call e :: calls')) =
      answer (k.call e).run (drafted calls)

theorem derives_of_declared (calls : List Call) (k : Derivation) (e : Nat)
    (he : e < (assembled calls).types.size) : Derives calls k e := by
  have hstep := inStep_drafted calls
  obtain ⟨t, d, h⟩ := k.exists_found e hstep
  have hthere : (assembled (calls ++ [k.call e])).types[t]? = some d := by
    rw [assembled, drafted_concat]
    exact h.there
  have hreturns : Returns calls (k.call e) d := ⟨t, h.returned, hthere⟩
  have hagain : ∀ calls' : List Call,
      (∀ c ∈ calls', ∀ d, c.byHand? = some d → d.name ≠ typeName (assembled calls) e ++ k.suffix) →
        answer (k.call e).run (drafted (calls ++ k.call e :: calls')) =
          answer (k.call e).run (drafted calls) := by
    intro calls' hother
    rw [drafted_append, h.again hstep he hother, h.returned]
  refine ⟨⟨d, hreturns, h.named⟩, hagain, ⟨?_, ?_⟩, ?_, ?_⟩
  · rintro ⟨d', ⟨t', hanswer, hthere'⟩, his⟩ t'' hlast
    rcases h.origin with ⟨hnone, -⟩ | ⟨hsome, hd⟩
    · exact absurd (hnone.symm.trans hlast) (by simp)
    · cases Option.some.inj (hsome.symm.trans hlast)
      cases Except.ok.inj (h.returned.symm.trans hanswer)
      cases Option.some.inj (hthere.symm.trans hthere')
      exact ⟨d, hd, his⟩
  · intro hlast
    refine ⟨d, hreturns, ?_⟩
    rcases h.origin with ⟨-, his⟩ | ⟨hsome, hd⟩
    · exact his
    · obtain ⟨d', hd', his⟩ := hlast t hsome
      cases Option.some.inj (hd.symm.trans hd')
      exact his
  · intro horderly
    have hempty : Consistent ({} : Image).outlines := ⟨List.nodup_nil, by simp [Image.outlines]⟩
    exact ⟨d, hreturns, h.is_of_consistent (consistent_of_orderlyFrom hempty .empty horderly) he⟩
  · intro calls' horderly
    refine hagain calls' (OrderlyFrom.ne_name horderly.of_append.2 ?_)
    exact List.mem_of_getElem? (getElem?_of_lastIndex? h.last)

/-- Nodes, arrays of nodes and pointers to those, asked for after the array of arrays of nodes. -/
theorem derives_of_declared_nested :
    let calls := [Call.composite "Node" .object, .arrayOf 0, .arrayOf 1, .pointerTo 1]
    OrderlyFrom {} calls ∧ 1 < (assembled calls).types.size ∧ Derives calls .array 1 := by
  intro calls
  have hsize : 1 < (assembled calls).types.size := by decide
  refine ⟨⟨?_, ?_, ?_, ?_, trivial⟩, hsize, derives_of_declared calls .array 1 hsize⟩
  · exact Call.orderly_byHand rfl (by decide) (by decide)
  · exact Call.orderly_derivation .array (by decide)
  · exact Call.orderly_derivation .array (by decide)
  · exact Call.orderly_derivation .pointer (by decide)

/-- **A class that is declared under the name of an array is taken for the array.** -/
theorem arrayOf_shadowed :
    let calls := [Call.primitiveType (.word .int), .arrayOf 0, .composite "int[]" .object]
    answer (Call.arrayOf 0).run (drafted (calls.take 1)) = .ok 1 ∧
      answer (Call.arrayOf 0).run (drafted calls) = .ok 2 ∧
      (assembled calls).types[2]? = some { name := "int[]", category := .object } := by
  intro calls
  refine ⟨?_, ?_, ?_⟩ <;> rfl

end Assembler

end ManagedVm
