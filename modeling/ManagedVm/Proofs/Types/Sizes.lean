import Mathlib.Data.List.Perm.Subperm
import ManagedVm.Naturals
import ManagedVm.Types.Table
import ManagedVm.Proofs.Outcome
import ManagedVm.Proofs.Size

/-!
# The sizes of slots

Of most declarations the size of a slot is fixed by the category; a struct is as large as its instance
fields together. `Sized` says this of the declarations alone. The walk that computes the sizes goes
depth first and remembers what it has met; whatever its way, what it finds is the size, of which there
is only one (`Sized.unique`). A build without overflow checks finds it cut to a word
(`words_of_slotSizes`), a build with them finds it exactly (`sized_of_slotSizes`).
-/

namespace ManagedVm.Layout

open scoped Naturals

/-- **The size of a slot of a declaration.** -/
inductive Sized (types : Array TypeDeclaration) : Nat → Nat → Prop
  | fixed {index size : Nat} {d : TypeDeclaration} : types[index]? = some d →
      d.category.slotSize? = some size → Sized types index size
  | fields {index : Nat} {d : TypeDeclaration} (size : Nat → Nat) : types[index]? = some d →
      d.category.slotSize? = none → (∀ f ∈ d.instanceFields, Sized types f.type (size f.type)) →
        Sized types index (d.instanceFields.map fun f => size f.type).sum

variable {types : Array TypeDeclaration}

/-- **A declaration has no two sizes.** -/
theorem Sized.unique {index size size' : Nat} (h : Sized types index size)
    (h' : Sized types index size') : size = size' := by
  induction h generalizing size' with
  | fixed hd hfixed =>
    cases h' with
    | fixed hd' hfixed' =>
      cases hd.symm.trans hd'
      exact Option.some.inj (hfixed.symm.trans hfixed')
    | fields _ hd' hnone _ =>
      cases hd.symm.trans hd'
      cases hfixed.symm.trans hnone
  | fields sizes hd hnone _ ih =>
    cases h' with
    | fixed hd' hfixed' =>
      cases hd.symm.trans hd'
      cases hnone.symm.trans hfixed'
    | fields sizes' hd' _ hfields' =>
      cases hd.symm.trans hd'
      congr 1
      apply List.map_congr_left
      intro f hf
      exact ih f hf (hfields' f hf)

/-- **The bytes of a row of fields**: the sizes of all together. -/
def Summed (types : Array TypeDeclaration) (fields : List FieldDeclaration) (total : Nat) : Prop :=
  ∃ size : Nat → Nat, (∀ f ∈ fields, Sized types f.type (size f.type)) ∧
    total = (fields.map fun f => size f.type).sum

namespace Summed

variable {fields fields' : List FieldDeclaration} {total total' : Nat}

theorem nil : Summed types [] 0 := ⟨fun _ => 0, fun _ hf => (nomatch hf), rfl⟩

theorem single {f : FieldDeclaration} {size : Nat} (h : Sized types f.type size) :
    Summed types [f] size := by
  refine ⟨fun _ => size, ?_, by simp⟩
  intro g hg
  exact List.mem_singleton.mp hg ▸ h

/-- Two rows in a row. A type that is in both has one size. -/
theorem append (h : Summed types fields total) (h' : Summed types fields' total') :
    Summed types (fields ++ fields') (total + total') := by
  classical
  obtain ⟨size, hsized, rfl⟩ := h
  obtain ⟨size', hsized', rfl⟩ := h'
  let both (type : Nat) : Nat := if ∃ f ∈ fields, f.type = type then size type else size' type
  have hleft : ∀ f ∈ fields, both f.type = size f.type := fun f hf => if_pos ⟨f, hf, rfl⟩
  have hright : ∀ f ∈ fields', both f.type = size' f.type := by
    intro f hf
    by_cases hmet : ∃ g ∈ fields, g.type = f.type
    · obtain ⟨g, hg, heq⟩ := hmet
      rw [← heq, hleft g hg]
      exact (hsized g hg).unique (heq ▸ hsized' f hf)
    · exact if_neg hmet
  refine ⟨both, fun f hf => ?_, ?_⟩
  · rcases List.mem_append.mp hf with hf | hf
    · exact hleft f hf ▸ hsized f hf
    · exact hright f hf ▸ hsized' f hf
  · rw [List.map_append, List.sum_append_nat, List.map_congr_left hleft, List.map_congr_left hright]

theorem cons {f : FieldDeclaration} {size : Nat} (h : Sized types f.type size)
    (h' : Summed types fields total) : Summed types (f :: fields) (size + total) :=
  (single h).append h'

theorem unique (h : Summed types fields total) (h' : Summed types fields total') : total = total' := by
  obtain ⟨size, hsized, rfl⟩ := h
  obtain ⟨size', hsized', rfl⟩ := h'
  rw [List.map_congr_left fun f hf => (hsized f hf).unique (hsized' f hf)]

theorem sized {index : Nat} {d : TypeDeclaration} (h : Summed types d.instanceFields total)
    (hd : types[index]? = some d) (hnone : d.category.slotSize? = none) : Sized types index total := by
  obtain ⟨size, hsized, rfl⟩ := h
  exact .fields size hd hnone hsized

end Summed

theorem slotSize?_lt {c : Category} {size : Nat} (h : c.slotSize? = some size) :
    size < UInt64.size := by
  cases c with
  | struct => cases h
  | void | string | object | array | pointer =>
    cases h
    decide
  | primitive k =>
    cases h
    cases k with
    | word k => cases k <;> decide
    | floating p => cases p <;> decide
    | bool => decide

/-! ## The walk through the structs

The walk has no bound of its own: it goes from field to field, and what ends it is that it never goes
on from a struct that it has come through. -/

section

variable [Build]

/-- What the walk has before it. -/
inductive Task
  /-- The size of a slot of a declaration. -/
  | slot (index : Nat)
  /-- The sizes of fields in a row, on top of a total. -/
  | row (total : Nat) (fields : List FieldDeclaration)

/-- **The walk through the structs, without a bound.** `path` holds the structs that it is inside of and
`known` the sizes it has learned; the outcome is a size, with all that is known then, or an error. -/
inductive Walks (types : Array TypeDeclaration) :
    (path : List Nat) → (known : Sizes) → Task → Except TypeError (Nat × Sizes) → Prop
  | undeclared {path known index} : types[index]? = none →
      Walks types path known (.slot index) (.error (.unknownType index))
  | known {path known index d size} : types[index]? = some d → known[index]? = some (some size) →
      Walks types path known (.slot index) (.ok (size, known))
  | again {path known index d} : types[index]? = some d → (∀ size, known[index]? ≠ some (some size)) →
      index ∈ path → Walks types path known (.slot index) (.error (.recursiveLayout d.name))
  | fixed {path known index d size} : types[index]? = some d →
      (∀ size, known[index]? ≠ some (some size)) → index ∉ path → d.category.slotSize? = some size →
        Walks types path known (.slot index) (.ok (size, known.setIfInBounds index (some size)))
  | struct {path known known' index d total} : types[index]? = some d →
      (∀ size, known[index]? ≠ some (some size)) → index ∉ path → d.category.slotSize? = none →
        Walks types (index :: path) known (.row 0 d.instanceFields) (.ok (total, known')) →
          Walks types path known (.slot index) (.ok (total, known'.setIfInBounds index (some total)))
  | refused {path known index d e} : types[index]? = some d →
      (∀ size, known[index]? ≠ some (some size)) → index ∉ path → d.category.slotSize? = none →
        Walks types (index :: path) known (.row 0 d.instanceFields) (.error e) →
          Walks types path known (.slot index) (.error e)
  | done {path known total} : Walks types path known (.row total []) (.ok (total, known))
  | onward {path known known' total size f fields outcome} :
      Walks types path known (.slot f.type) (.ok (size, known')) →
        Size.overflows (total + size) = false →
          Walks types path known' (.row (Size.word (total + size)) fields) outcome →
            Walks types path known (.row total (f :: fields)) outcome
  | overflow {path known known' total size f fields} :
      Walks types path known (.slot f.type) (.ok (size, known')) →
        Size.overflows (total + size) = true →
          Walks types path known (.row total (f :: fields)) (.error .panic)
  | stopped {path known total f fields e} : Walks types path known (.slot f.type) (.error e) →
      Walks types path known (.row total (f :: fields)) (.error e)

/-- A row of fields goes by the rules if each of its steps does. -/
theorem walks_foldlM {path : List Nat}
    {step : Nat × Sizes → FieldDeclaration → Except TypeError (Nat × Sizes)}
    {slot : Sizes → Nat → Except TypeError (Nat × Sizes)}
    (hslot : ∀ known index, Walks types path known (.slot index) (slot known index))
    (hstep : ∀ s f, step s f = slot s.2 f.type >>= fun r =>
      Size.fit .panic (s.1 + r.1) >>= fun total => .ok (total, r.2))
    (fields : List FieldDeclaration) (s : Nat × Sizes) :
    Walks types path s.2 (.row s.1 fields) (fields.foldlM step s) := by
  induction fields generalizing s with
  | nil => exact .done
  | cons f fields ih =>
    have hwalk := hslot s.2 f.type
    rw [List.foldlM_cons, hstep]
    cases hr : slot s.2 f.type with
    | error e =>
      rw [hr] at hwalk
      exact .stopped hwalk
    | ok r =>
      rw [hr] at hwalk
      cases hover : Size.overflows (s.1 + r.1) with
      | true =>
        have hstop : Size.fit TypeError.panic (s.1 + r.1) = .error .panic :=
          Size.fit_eq_error_iff.mpr ⟨hover, rfl⟩
        have hnext : (Except.ok r >>= fun r => Size.fit TypeError.panic (s.1 + r.1) >>= fun total =>
            .ok (total, r.2)) = .error .panic :=
          except_bind_error.mpr (.inr ⟨r, rfl, except_bind_error.mpr (.inl hstop)⟩)
        rw [hnext]
        exact .overflow hwalk hover
      | false =>
        have hfit : Size.fit TypeError.panic (s.1 + r.1) = .ok (Size.word (s.1 + r.1)) :=
          Size.fit_eq_ok_iff.mpr ⟨hover, rfl⟩
        have hnext : (Except.ok r >>= fun r => Size.fit TypeError.panic (s.1 + r.1) >>= fun total =>
            .ok (total, r.2)) = .ok (Size.word (s.1 + r.1), r.2) :=
          except_bind_ok.mpr ⟨r, rfl, except_bind_ok.mpr ⟨_, hfit, rfl⟩⟩
        rw [hnext]
        exact .onward hwalk hover (ih (Size.word (s.1 + r.1), r.2))

/-- A struct goes by the rules if its row of fields does. -/
theorem walks_struct {path : List Nat} {known : Sizes} {index : Nat} {d : TypeDeclaration}
    {outcome : Except TypeError (Nat × Sizes)} {finish : Nat × Sizes → Except TypeError (Nat × Sizes)}
    (hd : types[index]? = some d) (hunknown : ∀ size, known[index]? ≠ some (some size))
    (hmem : index ∉ path) (hstruct : d.category.slotSize? = none)
    (hrow : Walks types (index :: path) known (.row 0 d.instanceFields) outcome)
    (hfinish : ∀ r, finish r = .ok (r.1, r.2.setIfInBounds index (some r.1))) :
    Walks types path known (.slot index) (outcome >>= finish) := by
  cases outcome with
  | error e => exact .refused hd hunknown hmem hstruct hrow
  | ok r =>
    have hok : (Except.ok r >>= finish) = .ok (r.1, r.2.setIfInBounds index (some r.1)) := hfinish r
    rw [hok]
    exact .struct hd hunknown hmem hstruct hrow

/-- **The bound is never reached**: the structs on the path are different declarations, so there is a
level left for each that is not on it. -/
theorem walks_slotSize {fuel : Nat} {path : List Nat} (hnodup : path.Nodup)
    (hpath : ∀ i ∈ path, i < types.size) (hfuel : types.size < path.length + fuel) (known : Sizes)
    (index : Nat) : Walks types path known (.slot index) (slotSize types fuel path known index) := by
  induction fuel generalizing path known index with
  | zero =>
    have hlength : path.length ≤ types.size := by
      have hsub : path ⊆ List.range types.size := fun i hi => List.mem_range.mpr (hpath i hi)
      simpa using (hnodup.subperm hsub).length_le
    omega
  | succ fuel ih =>
    unfold slotSize
    split
    · rename_i hnone
      exact .undeclared hnone
    · rename_i d size hd hsize
      exact .known hd hsize
    · rename_i d hd hunknown
      split
      · rename_i hmem
        exact .again hd hunknown hmem
      · rename_i hmem
        split
        · rename_i size hsize
          exact .fixed hd hunknown hmem hsize
        · rename_i hstruct
          have hlt : index < types.size := (Array.getElem?_eq_some_iff.mp hd).1
          have hslot := ih (List.nodup_cons.mpr ⟨hmem, hnodup⟩) (List.forall_mem_cons.mpr ⟨hlt, hpath⟩)
            (by rw [List.length_cons]; omega)
          exact walks_struct hd hunknown hmem hstruct
            (walks_foldlM hslot (fun s f => rfl) d.instanceFields (0, known)) fun r => rfl

/-- The walk that starts outside of all structs. -/
theorem walks_from_start (types : Array TypeDeclaration) (known : Sizes) (index : Nat) :
    Walks types [] known (.slot index) (slotSize types (types.size + 1) [] known index) := by
  apply walks_slotSize .nil
  · intro i hi
    cases hi
  · simp

/-! ## What the walk finds -/

/-- What is known are sizes, cut to words. -/
def Measured (types : Array TypeDeclaration) (known : Sizes) : Prop :=
  ∀ i size : Nat, known[i]? = some (some size) → ∃ bytes, Sized types i bytes ∧ size = Size.word bytes

theorem measured_replicate (count : Nat) : Measured types (Array.replicate count none) := by
  intro i size hi
  rw [Array.getElem?_replicate] at hi
  split at hi <;> cases hi

theorem Measured.set {known : Sizes} {i bytes size : Nat} (hs : Measured types known)
    (hi : Sized types i bytes) (hsize : size = Size.word bytes) :
    Measured types (known.setIfInBounds i (some size)) := by
  intro j size' hj
  by_cases heq : i = j
  · subst heq
    have hlt : i < (known.setIfInBounds i (some size)).size := (Array.getElem?_eq_some_iff.mp hj).1
    rw [Array.size_setIfInBounds] at hlt
    rw [Array.getElem?_setIfInBounds_self_of_lt hlt] at hj
    cases hj
    exact ⟨bytes, hi, hsize⟩
  · rw [Array.getElem?_setIfInBounds_ne heq] at hj
    exact hs j size' hj

/-- What the walk has found is the size of what it had before it, cut to a word. -/
def Task.Found (types : Array TypeDeclaration) (size : Nat) : Task → Prop
  | slot index => ∃ bytes, Sized types index bytes ∧ size = Size.word bytes
  | row total fields => ∀ before, total = Size.word before →
      ∃ bytes, Summed types fields bytes ∧ size = Size.word (before + bytes)

/-- **The walk finds sizes**, whatever it knows and wherever it comes from. -/
theorem found_of_walks {path : List Nat} {known : Sizes} {task : Task} {r : Nat × Sizes}
    (h : Walks types path known task (.ok r)) (hs : Measured types known) :
    task.Found types r.1 ∧ Measured types r.2 := by
  generalize houtcome : (Except.ok r : Except TypeError (Nat × Sizes)) = outcome at h
  induction h generalizing r with
  | undeclared | again | refused | stopped | overflow => cases houtcome
  | known _ hsize =>
    cases houtcome
    exact ⟨hs _ _ hsize, hs⟩
  | fixed hd _ _ hsize =>
    cases houtcome
    have hword := (Size.word_of_lt (slotSize?_lt hsize)).symm
    exact ⟨⟨_, .fixed hd hsize, hword⟩, hs.set (.fixed hd hsize) hword⟩
  | struct hd _ _ hnone _ ih =>
    cases houtcome
    obtain ⟨hfound, hs'⟩ := ih hs rfl
    obtain ⟨bytes, hsummed, hbytes⟩ := hfound 0 Size.word_zero.symm
    rw [Nat.zero_add] at hbytes
    have hsized := hsummed.sized hd hnone
    exact ⟨⟨bytes, hsized, hbytes⟩, hs'.set hsized hbytes⟩
  | done =>
    cases houtcome
    exact ⟨fun before hbefore => ⟨0, .nil, hbefore⟩, hs⟩
  | onward _ _ _ ihslot ihrow =>
    obtain ⟨⟨size, hsized, hsize⟩, hs'⟩ := ihslot hs rfl
    obtain ⟨hfound, hr⟩ := ihrow hs' houtcome
    refine ⟨fun before hbefore => ?_, hr⟩
    dsimp only at hsize
    obtain ⟨bytes, hsummed, hbytes⟩ := hfound (before + size) (by
      rw [hbefore, hsize, Size.word_add_word])
    exact ⟨size + bytes, hsummed.cons hsized, by rw [hbytes, Nat.add_assoc]⟩

/-- **The sizes of the declared types**, by index and cut to words. -/
theorem words_of_slotSizes {sizes : List Nat} (h : slotSizes types = .ok sizes) :
    sizes.length = types.size ∧
      ∀ i size, sizes[i]? = some size → ∃ bytes, Sized types i bytes ∧ size = Size.word bytes := by
  obtain ⟨⟨sizes', known⟩, hfold, h⟩ := except_bind_ok.mp h
  cases h
  -- The sizes of the first few declarations, for any number of them.
  have hall : ∀ {f : List Nat × Sizes → Nat → Except TypeError (List Nat × Sizes)},
      (∀ s index r, f s index = .ok r → ∃ size known,
        slotSize types (types.size + 1) [] s.2 index = .ok (size, known) ∧
          r = (s.1 ++ [size], known)) →
      ∀ (n : Nat) (r : List Nat × Sizes),
        (List.range n).foldlM f ([], Array.replicate types.size none) = .ok r →
          r.1.length = n ∧ Measured types r.2 ∧
            ∀ i size, r.1[i]? = some size →
              ∃ bytes, Sized types i bytes ∧ size = Size.word bytes := by
    intro f hf n
    induction n with
    | zero =>
      intro r hr
      cases hr
      exact ⟨rfl, measured_replicate _, fun i size hi => by simp at hi⟩
    | succ n ih =>
      intro r hr
      rw [List.range_succ, List.foldlM_append] at hr
      obtain ⟨⟨before, known⟩, hbefore, hr⟩ := except_bind_ok.mp hr
      obtain ⟨hlength, hknown, hsized⟩ := ih (before, known) hbefore
      obtain ⟨r', hlast, hr⟩ := except_bind_ok.mp hr
      obtain ⟨size, known', hsize, rfl⟩ := hf _ _ _ hlast
      cases hr
      have hwalk := walks_from_start types known n
      rw [hsize] at hwalk
      obtain ⟨hlastSized, hknown'⟩ := found_of_walks hwalk hknown
      refine ⟨by simp [hlength], hknown', fun i size' hi => ?_⟩
      rcases Nat.lt_trichotomy i before.length with hlt | heq | hgt
      · rw [List.getElem?_append_left hlt] at hi
        exact hsized i size' hi
      · rw [heq, List.getElem?_concat_length] at hi
        cases hi
        rw [heq, hlength]
        exact hlastSized
      · rw [List.getElem?_eq_none (by simp; omega)] at hi
        cases hi
  obtain ⟨hlength, -, hsized⟩ := hall (fun s index r hr => by
    obtain ⟨⟨size, known⟩, hsize, hr⟩ := except_bind_ok.mp hr
    cases hr
    exact ⟨size, known, hsize, rfl⟩) types.size _ hfold
  exact ⟨hlength, hsized⟩

end

/-- **With overflow checks the sizes are exact.** -/
theorem sized_of_slotSizes {sizes : List Nat} (h : slotSizes types = .ok sizes) :
    sizes.length = types.size ∧ ∀ i size, sizes[i]? = some size → Sized types i size := by
  obtain ⟨hlength, hwords⟩ := words_of_slotSizes h
  refine ⟨hlength, fun i size hi => ?_⟩
  obtain ⟨bytes, hsized, rfl⟩ := hwords i size hi
  exact hsized

/-! ## Sizes beyond the words -/

/-- A struct of sixteen fields of one type. -/
def sixteen (type : Nat) : TypeDeclaration where
  name := "Sixteen"
  category := .struct
  fields := List.replicate 16 { name := "part", type }

/-- Structs on top of each other: the lowest holds sixteen strings, and every other sixteen of the one
below it. -/
def towering (levels : Nat) : Image where
  types := ({ name := "string", category := .string } :: (List.range levels).map sixteen).toArray

/-- The sizes grow sixteenfold from level to level. -/
theorem sized_towering {levels level : Nat} (h : level ≤ levels) :
    Sized (towering levels).types level (8 * 16 ^ level) := by
  induction level with
  | zero => exact .fixed (d := { name := "string", category := .string }) rfl rfl
  | succ level ih =>
    have hhere : (towering levels).types[level + 1]? = some (sixteen level) := by
      simp only [towering, List.getElem?_toArray, List.getElem?_cons_succ, List.getElem?_map]
      rw [List.getElem?_range (Nat.lt_of_succ_le h)]
      rfl
    have hfields : (sixteen level).instanceFields = List.replicate 16 { name := "part", type := level } :=
      rfl
    have hsized := Sized.fields (fun _ => 8 * 16 ^ level) hhere rfl (by
      intro f hf
      rw [hfields] at hf
      obtain rfl := List.eq_of_mem_replicate hf
      exact ih (Nat.le_of_succ_le h))
    have htotal : ((sixteen level).instanceFields.map fun _ => 8 * 16 ^ level).sum =
        8 * 16 ^ (level + 1) := by
      rw [hfields, List.map_replicate, List.sum_replicate_nat, Nat.pow_succ]
      omega
    exact htotal ▸ hsized

end ManagedVm.Layout
