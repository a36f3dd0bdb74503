import Mathlib.Data.List.Induction
import Mathlib.Data.List.Nodup
import ManagedVm.Assembler.Basic

/-!
# What the assembler adds to an image

An image is assembled by calls, one after the other. Whatever a call does, it adds entries behind those
that are there: constants, bytes of the pool and strings stay as they are, and of a declared type only the
fields can grow (`Image.Extends`). A call declares at most one type, and which one is known before it
is made (`Call.declares?`).

Types and strings are found by what the assembler noted when it added them. The notes stay in step with
the tables (`Draft.InStep`): a name leads to the last type that has it, and a text to its entry, which is
the only one. All of this holds of a call that fails, too.
-/

namespace ManagedVm

/-! ## Names -/

/-- The last place of a name among names. -/
def lastIndex? (names : List String) (name : String) : Option Nat :=
  (names.zipIdx.reverse.find? (·.1 == name)).map (·.2)

section Names

variable {names : List String} {name : String}

theorem lastIndex?_concat (names : List String) (last name : String) : lastIndex? (names ++ [last]) name =
    if last = name then some names.length else lastIndex? names name := by
  unfold lastIndex?
  rw [List.zipIdx_append, List.reverse_append]
  by_cases h : last = name <;> simp [h]

theorem lastIndex?_eq_none_iff : lastIndex? names name = none ↔ name ∉ names := by
  induction names using List.reverseRecOn with
  | nil => simp [lastIndex?]
  | append_singleton names last ih =>
    rw [lastIndex?_concat]
    by_cases h : last = name
    · simp [h]
    · have hne : name ≠ last := fun heq => h heq.symm
      simp [h, hne, ih]

theorem getElem?_of_lastIndex? {i : Nat} (h : lastIndex? names name = some i) : names[i]? = some name := by
  induction names using List.reverseRecOn with
  | nil => cases h
  | append_singleton names last ih =>
    rw [lastIndex?_concat] at h
    split at h
    · rename_i heq
      cases h
      simp [heq]
    · have hi := ih h
      rw [List.getElem?_append_left (List.getElem?_eq_some_iff.mp hi).1, hi]

end Names

/-! ## Images that grow -/

/-- A declared type without its fields. -/
def TypeDeclaration.outline (d : TypeDeclaration) : TypeDeclaration := { d with fields := [] }

namespace Image

/-- The declared types without their fields. -/
def outlines (image : Image) : List TypeDeclaration := image.types.toList.map (·.outline)

/-- The names of the declared types. -/
def typeNames (image : Image) : List String := image.outlines.map (·.name)

/-- **The second image has all that the first has**, and behind its types those that were declared. -/
structure Extends (image image' : Image) (declared : List TypeDeclaration) : Prop where
  types : image'.outlines = image.outlines ++ declared.map (·.outline)
  constants : image.constants.toList <+: image'.constants.toList
  pool : image.pool.toList <+: image'.pool.toList
  strings : image.strings.toList <+: image'.strings.toList

namespace Extends

variable {image image' image'' : Image} {declared declared' : List TypeDeclaration}

theorem trans (h : Extends image image' declared) (h' : Extends image' image'' declared') :
    Extends image image'' (declared ++ declared') where
  types := by rw [h'.types, h.types, List.map_append, List.append_assoc]
  constants := h.constants.trans h'.constants
  pool := h.pool.trans h'.pool
  strings := h.strings.trans h'.strings

/-- What leaves types, constants and strings alone. -/
theorem of_eq (htypes : image'.types = image.types) (hconstants : image'.constants = image.constants)
    (hpool : image'.pool = image.pool) (hstrings : image'.strings = image.strings) :
    Extends image image' [] where
  types := by simp [outlines, htypes]
  constants := hconstants ▸ List.prefix_refl _
  pool := hpool ▸ List.prefix_refl _
  strings := hstrings ▸ List.prefix_refl _

theorem refl (image : Image) : Extends image image [] := of_eq rfl rfl rfl rfl

theorem typeNames (h : Extends image image' declared) :
    image'.typeNames = image.typeNames ++ declared.map (·.name) := by
  unfold Image.typeNames
  rw [h.types, List.map_append, List.map_map]
  rfl

end Extends

variable (image : Image)

theorem typeNames_eq : image.typeNames = image.types.toList.map (·.name) := by
  simp [typeNames, outlines, TypeDeclaration.outline]

theorem length_typeNames : image.typeNames.length = image.types.size := by
  simp [typeNames_eq]

theorem extends_type (d : TypeDeclaration) :
    image.Extends { image with types := image.types.push d } [d] where
  types := by simp [outlines]
  constants := List.prefix_refl _
  pool := List.prefix_refl _
  strings := List.prefix_refl _

theorem extends_field (owner : Nat) (f : FieldDeclaration) : image.Extends { image with
    types := image.types.modify owner fun d => { d with fields := d.fields ++ [f] } } [] where
  types := by
    apply List.ext_getElem?
    intro i
    simp only [outlines, List.map_nil, List.append_nil, List.getElem?_map, Array.getElem?_toList,
      Array.getElem?_modify]
    split
    · cases image.types[i]? <;> rfl
    · rfl
  constants := List.prefix_refl _
  pool := List.prefix_refl _
  strings := List.prefix_refl _

theorem extends_constant (bytes : List UInt8) (c : Constant) : image.Extends { image with
    pool := image.pool ++ bytes.toArray, constants := image.constants.push c } [] where
  types := by simp [outlines]
  constants := by simp
  pool := by simp
  strings := List.prefix_refl _

theorem extends_string (text : String) :
    image.Extends { image with strings := image.strings.push text } [] where
  types := by simp [outlines]
  constants := List.prefix_refl _
  pool := List.prefix_refl _
  strings := by simp

end Image

namespace Assembler

/-! ## Notes in step with the tables -/

/-- The last type declared under a name. -/
def lastType? (image : Image) (name : String) : Option Nat := lastIndex? image.typeNames name

theorem Index.find?_insert (x : Index) (text text' : String) (place : Nat) :
    (x.insert text place).find? text' = if text = text' then some place else x.find? text' := by
  unfold Index.find? Index.insert
  rw [List.lookup_cons]
  by_cases h : text = text'
  · rw [if_pos h, beq_iff_eq.mpr h.symm]
  · rw [if_neg h, beq_false_of_ne fun heq => h heq.symm]

/-- **What was noted is in step with the tables.** -/
structure Draft.InStep (draft : Draft) : Prop where
  /-- A name leads to the last type that was declared under it. -/
  types : ∀ name, draft.typesByName.find? name = lastType? draft.image name
  /-- A text leads to its entry in the string table, and to no other. -/
  strings : ∀ text index,
    draft.stringsByValue.find? text = some index ↔ draft.image.strings[index]? = some text

namespace Draft.InStep

variable {draft : Draft}

/-- An empty draft. -/
theorem empty : InStep {} where
  types _ := rfl
  strings text index := by simp [Index.find?]

/-- No string is in the table twice. -/
theorem nodup (h : draft.InStep) : draft.image.strings.toList.Nodup := by
  rw [List.nodup_iff_getElem?_ne_getElem?]
  intro i j hij hj heq
  have htext := List.getElem?_eq_getElem hj
  rw [htext, Array.getElem?_toList] at heq
  rw [Array.getElem?_toList] at htext
  rw [← h.strings] at heq htext
  exact absurd (Option.some.inj (heq.symm.trans htext)) (Nat.ne_of_lt hij)

/-- What changes neither the names of types nor the strings. -/
theorem of_eq (h : draft.InStep) {image' : Image} (htypes : image'.typeNames = draft.image.typeNames)
    (hstrings : image'.strings = draft.image.strings) : InStep { draft with image := image' } where
  types name := by
    rw [h.types name, lastType?, lastType?, htypes]
  strings text index := by
    rw [h.strings text index, hstrings]

theorem pushType (h : draft.InStep) (d : TypeDeclaration) : (draft.pushType d).InStep where
  types name := by
    have hnames := (draft.image.extends_type d).typeNames
    rw [Draft.pushType, Index.find?_insert, h.types name, lastType?, lastType?, hnames, List.map_singleton,
      lastIndex?_concat, Image.length_typeNames]
  strings := h.strings

theorem pushString (h : draft.InStep) {text : String} (hnew : draft.stringsByValue.find? text = none) :
    (draft.pushString text).InStep where
  types := h.types
  strings text' index := by
    rw [Draft.pushString, Index.find?_insert, Array.getElem?_push]
    by_cases htext : text = text'
    · subst htext
      have habsent : draft.image.strings[index]? ≠ some text := by
        intro hthere
        cases hnew.symm.trans ((h.strings text index).mpr hthere)
      rw [if_pos rfl, Option.some.injEq]
      split
      · rename_i hlast
        simp [hlast]
      · rename_i hother
        exact ⟨fun hlast => absurd hlast.symm hother, fun hthere => absurd hthere habsent⟩
    · rw [if_neg htext, h.strings text' index]
      split
      · rename_i hlast
        simp [hlast, htext]
      · rfl

end Draft.InStep

/-! ## Operations -/

section Operations

variable {α β : Type} {x : Assembler α} {f : α → Assembler β} {draft draft' : Draft} {a : α}
  {declared : List TypeDeclaration}

/-- The draft that an operation leaves, also when it fails. -/
def final (x : Assembler α) (draft : Draft) : Draft :=
  match x draft with
  | .ok _ draft' => draft'
  | .error _ draft' => draft'

/-- What the operation returns. -/
def answer (x : Assembler α) (draft : Draft) : Except Error α :=
  match x draft with
  | .ok a _ => .ok a
  | .error e _ => .error e

theorem final_of_ok (h : x draft = .ok a draft') : final x draft = draft' := by
  unfold final
  rw [h]

theorem answer_of_ok (h : x draft = .ok a draft') : answer x draft = .ok a := by
  unfold answer
  rw [h]

theorem bind_of_ok (h : x draft = .ok a draft') : (x >>= f) draft = f a draft' := by
  show EStateM.bind x f draft = f a draft'
  simp only [EStateM.bind, h]

theorem bind_of_error {e : Error} (h : x draft = .error e draft') : (x >>= f) draft = .error e draft' := by
  show EStateM.bind x f draft = .error e draft'
  simp only [EStateM.bind, h]

theorem get_eq (draft : Draft) : (get : Assembler Draft) draft = .ok draft draft := rfl

theorem modifyGet_eq (g : Draft → α × Draft) (draft : Draft) :
    (modifyGet g : Assembler α) draft = .ok (g draft).1 (g draft).2 := rfl

theorem discard_of_ok (h : x draft = .ok a draft') : discard x draft = .ok ⟨⟩ draft' := by
  show EStateM.map (fun _ => PUnit.unit) x draft = .ok ⟨⟩ draft'
  simp only [EStateM.map, h]

/-- **The operation adds to the image** and keeps the notes in step, also when it fails. -/
structure Adds (x : Assembler α) (draft : Draft) (declared : List TypeDeclaration) : Prop where
  image : draft.image.Extends (final x draft).image declared
  inStep : draft.InStep → (final x draft).InStep

theorem adds_of_ok (h : x draft = .ok a draft') (himage : draft.image.Extends draft'.image declared)
    (hstep : draft.InStep → draft'.InStep) : Adds x draft declared := by
  rw [← final_of_ok h] at himage hstep
  exact ⟨himage, hstep⟩

theorem adds_congr {y : Assembler α} (h : x draft = y draft) (hy : Adds y draft declared) :
    Adds x draft declared := by
  have hfinal : final y draft = final x draft := by rw [final, final, h]
  exact ⟨hfinal ▸ hy.image, hfinal ▸ hy.inStep⟩

theorem adds_get (draft : Draft) : Adds get draft [] := ⟨.refl _, id⟩

theorem adds_throw (e : Error) (draft : Draft) : Adds (throw e : Assembler α) draft [] := ⟨.refl _, id⟩

/-- What declares no type and adds no string keeps the notes in step. -/
theorem adds_update {g : Image → α × Image} (himage : draft.image.Extends (g draft.image).2 [])
    (hstrings : (g draft.image).2.strings = draft.image.strings) : Adds (update g) draft [] := by
  refine ⟨himage, fun h => h.of_eq ?_ hstrings⟩
  rw [himage.typeNames, List.map_nil, List.append_nil]

/-- What is declared is declared by the first part. -/
theorem Adds.bind (hx : Adds x draft declared)
    (hf : ∀ a draft', x draft = .ok a draft' → Adds (f a) draft' []) : Adds (x >>= f) draft declared := by
  cases h : x draft with
  | error e draft' =>
    have hfinal : final (x >>= f) draft = final x draft := by
      rw [final, final, bind_of_error h, h]
    exact ⟨hfinal ▸ hx.image, hfinal ▸ hx.inStep⟩
  | ok a draft' =>
    have hfinal : final (x >>= f) draft = final (f a) draft' := by
      rw [final, final, bind_of_ok h]
    have hrest := hf a draft' h
    have himage := hx.image
    have hstep := hx.inStep
    rw [final_of_ok h] at himage hstep
    constructor
    · have hboth := himage.trans hrest.image
      rwa [List.append_nil, ← hfinal] at hboth
    · exact fun hdraft => hfinal ▸ hrest.inStep (hstep hdraft)

end Operations

/-! ## Named types -/

section Named

variable {draft : Draft} {d : TypeDeclaration}

theorem adds_addType (draft : Draft) (d : TypeDeclaration) : Adds (addType d) draft [d] :=
  adds_of_ok rfl (draft.image.extends_type d) fun h => h.pushType d

theorem namedType_of_some {index : Nat} (h : draft.typesByName.find? d.name = some index) :
    namedType d draft = .ok index draft := by
  unfold namedType
  rw [bind_of_ok (get_eq draft), h]
  rfl

theorem namedType_of_none (h : draft.typesByName.find? d.name = none) :
    namedType d draft = .ok draft.image.types.size (draft.pushType d) := by
  unfold namedType
  rw [bind_of_ok (get_eq draft), h]
  rfl

theorem arrayOf_eq (draft : Draft) (element : Nat) : arrayOf element draft = namedType
    { name := typeName draft.image element ++ "[]", category := .array, underlying := some element } draft :=
  bind_of_ok (get_eq draft)

theorem pointerTo_eq (draft : Draft) (pointee : Nat) : pointerTo pointee draft = namedType
    { name := typeName draft.image pointee ++ "*", category := .pointer, underlying := some pointee } draft :=
  bind_of_ok (get_eq draft)

/-- The declaration that a call for a named type makes: none if there is a type of the name. -/
def newType? (draft : Draft) (d : TypeDeclaration) : Option TypeDeclaration :=
  if draft.typesByName.find? d.name = none then some d else none

/-- A call for a named type succeeds and leaves the constants alone. -/
theorem namedType_ok (draft : Draft) (d : TypeDeclaration) : ∃ index draft',
    namedType d draft = .ok index draft' ∧ draft'.image.constants = draft.image.constants := by
  cases h : draft.typesByName.find? d.name with
  | none => exact ⟨_, _, namedType_of_none h, rfl⟩
  | some index => exact ⟨_, _, namedType_of_some h, rfl⟩

theorem adds_namedType (draft : Draft) (d : TypeDeclaration) :
    Adds (namedType d) draft (newType? draft d).toList := by
  unfold newType?
  cases h : draft.typesByName.find? d.name with
  | none => exact adds_of_ok (namedType_of_none h) (draft.image.extends_type d) fun h => h.pushType d
  | some index => exact adds_of_ok (namedType_of_some h) (.refl _) id

end Named

/-! ## Calls -/

/-- What is asked of the assembler. -/
inductive Call
  | addType (d : TypeDeclaration)
  | voidType
  | stringType
  | primitiveType (k : Kind)
  | arrayOf (element : Nat)
  | pointerTo (pointee : Nat)
  | composite (name : String) (category : Category)
  | staticClass (name : String)
  | addField (owner : Nat) (name : String) (type : Nat) (isStatic : Bool)
  | fieldRef (owner : Nat) (name : String)
  | memberRef (owner : Nat) (member : Member)
  | addMethod (r : Routine)
  | addCallable (r : Routine)
  | addConstructor (r : Routine)
  | addConstant (kind : Kind) (bytes : List UInt8)
  | scalarConstant (s : Scalar)
  | charConstant (c : Char)
  | stringConstant (text : String)

namespace Call

/-- Makes the call. -/
def run : Call → Assembler Nat
  | addType d => Assembler.addType d
  | voidType => Assembler.voidType
  | stringType => Assembler.stringType
  | primitiveType k => Assembler.primitiveType k
  | arrayOf element => Assembler.arrayOf element
  | pointerTo pointee => Assembler.pointerTo pointee
  | composite name category => Assembler.composite name category
  | staticClass name => Assembler.staticClass name
  | addField owner name type isStatic => Assembler.addField owner name type isStatic
  | fieldRef owner name => Assembler.fieldRef owner name
  | memberRef owner member => Assembler.memberRef owner member
  | addMethod r => Assembler.addMethod r
  | addCallable r => Assembler.addCallable r
  | addConstructor r => Assembler.addConstructor r
  | addConstant kind bytes => Assembler.addConstant kind bytes
  | scalarConstant s => Assembler.scalarConstant s
  | charConstant c => Assembler.charConstant c
  | stringConstant text => Assembler.stringConstant text

/-- The type that a call declares whatever the image has. -/
def byHand? : Call → Option TypeDeclaration
  | addType d => some d
  | composite name category => some { name, category }
  | staticClass name => some { name, category := .object, isStatic := true }
  | _ => none

/-- The type that a call asks for by its name. -/
def named? (image : Image) : Call → Option TypeDeclaration
  | voidType => some { name := "void", category := .void }
  | stringType | stringConstant _ => some { name := "string", category := .string }
  | primitiveType k => some { name := k.name, category := .primitive k }
  | scalarConstant s => some { name := s.kind.name, category := .primitive s.kind }
  | charConstant _ => some { name := (Kind.word .char).name, category := .primitive (.word .char) }
  | arrayOf element =>
    some { name := typeName image element ++ "[]", category := .array, underlying := some element }
  | pointerTo pointee =>
    some { name := typeName image pointee ++ "*", category := .pointer, underlying := some pointee }
  | _ => none

/-- **The type that a call declares**, if it declares one. -/
def declares? (draft : Draft) (c : Call) : Option TypeDeclaration :=
  match c.byHand? with
  | some d => some d
  | none => (c.named? draft.image).bind (newType? draft)

end Call

/-- The draft that calls make of a draft. -/
def draftedFrom (draft : Draft) (calls : List Call) : Draft :=
  calls.foldl (fun draft c => final c.run draft) draft

/-- The draft that calls make of an empty one. -/
def drafted (calls : List Call) : Draft := draftedFrom {} calls

/-- The image that calls make. -/
def assembled (calls : List Call) : Image := (drafted calls).image

/-- What the call at a place among calls returned. -/
def answer? (calls : List Call) (n : Nat) : Option (Except Error Nat) :=
  calls[n]?.map fun c => answer c.run (drafted (calls.take n))

theorem drafted_append (calls calls' : List Call) :
    drafted (calls ++ calls') = draftedFrom (drafted calls) calls' := by
  unfold drafted draftedFrom
  rw [List.foldl_append]

theorem drafted_concat (calls : List Call) (c : Call) :
    drafted (calls ++ [c]) = final c.run (drafted calls) := by
  rw [drafted_append]
  rfl

section Steps

variable (draft : Draft)

theorem adds_memberRef (owner : Nat) (member : Member) : Adds (memberRef owner member) draft [] :=
  adds_update (.of_eq rfl rfl rfl rfl) rfl

theorem adds_addMethod (r : Routine) : Adds (addMethod r) draft [] := by
  unfold addMethod
  split
  · exact adds_throw _ draft
  · exact adds_update (.of_eq rfl rfl rfl rfl) rfl

theorem adds_addCallable (r : Routine) : Adds (addCallable r) draft [] :=
  (adds_addMethod draft r).bind fun _ draft' _ => adds_memberRef draft' _ _

theorem adds_addConstructor (r : Routine) : Adds (addConstructor r) draft [] :=
  (adds_addCallable draft _).bind fun _ _ _ => adds_update (.of_eq rfl rfl rfl rfl) rfl

theorem adds_addField (owner : Nat) (name : String) (type : Nat) (isStatic : Bool) :
    Adds (addField owner name type isStatic) draft [] :=
  (adds_update (draft.image.extends_field owner ⟨name, type, isStatic⟩) rfl).bind fun _ draft' _ =>
    adds_memberRef draft' _ _

theorem adds_fieldRef (owner : Nat) (name : String) : Adds (fieldRef owner name) draft [] := by
  refine (adds_get draft).bind fun found draft' _ => ?_
  split
  · exact adds_memberRef draft' _ _
  · exact adds_throw _ draft'

theorem adds_addConstant (kind : Kind) (bytes : List UInt8) : Adds (addConstant kind bytes) draft [] :=
  adds_update (draft.image.extends_constant bytes _) rfl

theorem internString_of_some {text : String} {index : Nat}
    (h : draft.stringsByValue.find? text = some index) : internString text draft = .ok index draft := by
  simp only [internString, modifyGet_eq, h]

theorem internString_of_none {text : String} (h : draft.stringsByValue.find? text = none) :
    internString text draft = .ok draft.image.strings.size (draft.pushString text) := by
  simp only [internString, modifyGet_eq, h]

theorem adds_internString (text : String) : Adds (internString text) draft [] := by
  cases h : draft.stringsByValue.find? text with
  | some index => exact adds_of_ok (internString_of_some draft h) (.refl _) id
  | none =>
    exact adds_of_ok (internString_of_none draft h) (draft.image.extends_string text) fun hstep =>
      hstep.pushString h

/-- A named type before the rest. -/
theorem adds_after_namedType {α : Type} (d : TypeDeclaration) {x : Assembler α}
    (hx : ∀ draft, Adds x draft []) :
    Adds (discard (namedType d) >>= fun _ => x) draft (newType? draft d).toList := by
  have hnamed : Adds (discard (namedType d)) draft (newType? draft d).toList := by
    obtain ⟨index, draft', h, -⟩ := namedType_ok draft d
    have hadds := adds_namedType draft d
    have hfinal : final (discard (namedType d)) draft = final (namedType d) draft := by
      rw [final_of_ok h, final_of_ok (discard_of_ok h)]
    exact ⟨hfinal ▸ hadds.image, hfinal ▸ hadds.inStep⟩
  exact hnamed.bind fun _ draft' _ => hx draft'

theorem adds_scalarConstant (s : Scalar) : Adds (scalarConstant s) draft
    (newType? draft { name := s.kind.name, category := .primitive s.kind }).toList :=
  adds_after_namedType draft _ fun draft => adds_addConstant draft s.kind s.encode

theorem adds_stringConstant (text : String) : Adds (stringConstant text) draft
    (newType? draft { name := "string", category := .string }).toList :=
  adds_after_namedType draft _ fun draft => (adds_internString draft text).bind fun offset draft' _ =>
    adds_update (by simpa using draft'.image.extends_constant [] ⟨.string, offset⟩) rfl

end Steps

/-- **What one call does.** -/
theorem adds_call (c : Call) (draft : Draft) : Adds c.run draft (c.declares? draft).toList := by
  cases c with
  | addType d => exact adds_addType draft d
  | composite name category => exact adds_addType draft _
  | staticClass name => exact adds_addType draft _
  | voidType => exact adds_namedType draft _
  | stringType => exact adds_namedType draft _
  | primitiveType k => exact adds_namedType draft _
  | arrayOf element => exact adds_congr (arrayOf_eq draft element) (adds_namedType draft _)
  | pointerTo pointee => exact adds_congr (pointerTo_eq draft pointee) (adds_namedType draft _)
  | addField owner name type isStatic => exact adds_addField draft owner name type isStatic
  | fieldRef owner name => exact adds_fieldRef draft owner name
  | memberRef owner member => exact adds_memberRef draft owner member
  | addMethod r => exact adds_addMethod draft r
  | addCallable r => exact adds_addCallable draft r
  | addConstructor r => exact adds_addConstructor draft r
  | addConstant kind bytes => exact adds_addConstant draft kind bytes
  | scalarConstant s => exact adds_scalarConstant draft s
  | charConstant ch => exact adds_scalarConstant draft (.ofInt .char (firstUnit ch))
  | stringConstant text => exact adds_stringConstant draft text

/-- **What several calls do**: all of the image at some point is there in the end. -/
theorem extends_draftedFrom (draft : Draft) (calls : List Call) :
    ∃ declared, draft.image.Extends (draftedFrom draft calls).image declared := by
  induction calls generalizing draft with
  | nil => exact ⟨[], .refl _⟩
  | cons c calls ih =>
    obtain ⟨declared, hcalls⟩ := ih (final c.run draft)
    exact ⟨_, (adds_call c draft).image.trans hcalls⟩

theorem extends_assembled (calls calls' : List Call) :
    ∃ declared, (assembled calls).Extends (assembled (calls ++ calls')) declared := by
  unfold assembled
  rw [drafted_append]
  exact extends_draftedFrom _ calls'

/-- **The notes stay in step**, whatever is called. -/
theorem inStep_draftedFrom {draft : Draft} (h : draft.InStep) (calls : List Call) :
    (draftedFrom draft calls).InStep := by
  induction calls generalizing draft with
  | nil => exact h
  | cons c calls ih => exact ih ((adds_call c draft).inStep h)

theorem inStep_drafted (calls : List Call) : (drafted calls).InStep := inStep_draftedFrom .empty calls

end Assembler

end ManagedVm
