import ManagedVm.Proofs.Heap.Store
import ManagedVm.Proofs.Machine.Shape
import ManagedVm.Proofs.Types.Nesting

/-!
# The leaves of an object

To find what an object refers to, the machine reads those of its slots that hold an address, the ones
inside structs included. These are the leaves of the object; `leavesOf` lists them by the types alone,
and `referencesOf_eq` says that a scan reads them and nothing else, in order. If the object has its
shape, each leaf lies inside it (`leavesOf_inside`): a field lies inside its struct, a struct inside its
object, and an element inside its array. So no scan of a live object fails (`referencesOf_ok`),
whatever its bytes are.
-/

namespace ManagedVm

/-! ## Gathering -/

section Gather

universe u

variable {ε α β γ : Type u}

/-- What the elements of a list give, all together and in order. -/
def gather (g : α → Except ε (List β)) (xs : List α) : Except ε (List β) :=
  (xs.mapM g).map List.flatten

variable {g : α → Except ε (List β)}

theorem gather_nil : gather g [] = .ok [] := rfl

theorem gather_cons (x : α) (xs : List α) :
    gather g (x :: xs) = do return (← g x) ++ (← gather g xs) := by
  unfold gather
  rw [List.mapM_cons]
  cases g x with
  | error e => rfl
  | ok ys =>
    cases xs.mapM g with
    | error e => rfl
    | ok zs => rfl

theorem gather_append (xs ys : List α) :
    gather g (xs ++ ys) = do return (← gather g xs) ++ (← gather g ys) := by
  induction xs with
  | nil =>
    rw [List.nil_append, gather_nil]
    cases gather g ys with
    | error e => rfl
    | ok zs => rfl
  | cons x xs ih =>
    rw [List.cons_append, gather_cons, ih, gather_cons]
    cases g x with
    | error e => rfl
    | ok here =>
      cases gather g xs with
      | error e => rfl
      | ok more =>
        cases gather g ys with
        | error e => rfl
        | ok rest => exact congrArg Except.ok (List.append_assoc here more rest).symm

theorem gather_flatMap (f : γ → List α) (zs : List γ) :
    gather g (zs.flatMap f) = gather (fun z => gather g (f z)) zs := by
  induction zs with
  | nil => rfl
  | cons z zs ih => rw [List.flatMap_cons, gather_append, ih, gather_cons]

theorem gather_singleton (x : α) : gather g [x] = g x := by
  rw [gather_cons, gather_nil]
  cases g x with
  | error e => rfl
  | ok ys => exact congrArg Except.ok (List.append_nil ys)

theorem gather_map (f : γ → α) (zs : List γ) : gather g (zs.map f) = gather (fun z => g (f z)) zs := by
  unfold gather
  rw [List.mapM_map]
  rfl

theorem gather_congr {g' : α → Except ε (List β)} {xs : List α} (h : ∀ x ∈ xs, g x = g' x) :
    gather g xs = gather g' xs := by
  induction xs with
  | nil => rfl
  | cons x xs ih => rw [gather_cons, gather_cons, h x (.head _), ih fun y hy => h y (.tail _ hy)]

theorem gather_pure (f : α → List β) (xs : List α) :
    gather (ε := ε) (fun x => .ok (f x)) xs = .ok (xs.flatMap f) := by
  induction xs with
  | nil => rfl
  | cons x xs ih => rw [gather_cons, ih, List.flatMap_cons]; rfl

/-- If all give something, it can be gathered. -/
theorem gather_ok {xs : List α} (h : ∀ x ∈ xs, ∃ ys, g x = .ok ys) : ∃ ys, gather g xs = .ok ys := by
  induction xs with
  | nil => exact ⟨[], rfl⟩
  | cons x xs ih =>
    obtain ⟨ys, hys⟩ := h x (.head _)
    obtain ⟨zs, hzs⟩ := ih fun y hy => h y (.tail _ hy)
    refine ⟨ys ++ zs, ?_⟩
    rw [gather_cons, hys, hzs]
    rfl

end Gather

namespace Machine

variable (m : Machine)

/-! ## Leaves -/

/-- The leaves of a slot of a type: their places, if the slot itself is at `place`, and their types.
Structs are followed no deeper than the fuel. -/
def leavesIn : (fuel : Nat) → (place : Nat) → TypeId → List (Nat × TypeId)
  | 0, _, _ => []
  | fuel + 1, place, type =>
    let d := m.descriptor type
    match d.category with
    | .string | .object | .array | .pointer => [(place, type)]
    | .struct => d.instanceFields.flatMap fun f => leavesIn fuel (place + f.offset) f.type
    | .void | .primitive _ => []

/-- The leaves of a row of fields. -/
def leavesOfFields (fields : List FieldLayout) : List (Nat × TypeId) :=
  fields.flatMap fun f => m.leavesIn m.nesting f.offset f.type

/-- **The leaves of an object**: their places in the object, and their types. -/
def leavesOf (o : Heap.Object) : List (Nat × TypeId) :=
  match o.kind with
  | .string => []
  | .object => m.leavesOfFields (m.descriptor o.type).instanceFields
  | .statics => m.leavesOfFields (m.descriptor o.type).staticFields
  | .array element length =>
    (List.range length).flatMap fun i =>
      m.leavesIn m.nesting (lengthSize + i * (m.descriptor element).size) element

/-- The objects that a leaf refers to: it is read, and nothing else. -/
def targetsAt (address : Address) (type : TypeId) : Except Error (List Address) :=
  (m.storedAddress address).map
    (if (m.descriptor type).category = .pointer then m.pointedTarget else ownedTarget)

/-! ## Scans read leaves -/

variable {m}

/-- **A scan of a slot**, by induction on how deep structs are nested. -/
theorem referencesAt_eq (fuel : Nat) (base : Address) (place : Nat) (type : TypeId) :
    m.referencesAt fuel (base.add place) type =
      gather (fun s => m.targetsAt (base.add s.1) s.2) (m.leavesIn fuel place type) := by
  induction fuel generalizing place type with
  | zero => rfl
  | succ fuel ih =>
    unfold referencesAt leavesIn
    dsimp only
    cases hcategory : (m.descriptor type).category with
    | void => rfl
    | primitive kind => rfl
    | string =>
      rw [gather_singleton, targetsAt, hcategory]
      rfl
    | object =>
      rw [gather_singleton, targetsAt, hcategory]
      rfl
    | array =>
      rw [gather_singleton, targetsAt, hcategory]
      rfl
    | pointer =>
      rw [gather_singleton, targetsAt, hcategory]
      rfl
    | struct =>
      dsimp only
      rw [gather_flatMap]
      simp only [Address.add_add, ih]
      rfl

theorem referencesOfFields_eq (base : Address) (fields : List FieldLayout) :
    m.referencesOfFields base fields =
      gather (fun s => m.targetsAt (base.add s.1) s.2) (m.leavesOfFields fields) := by
  unfold leavesOfFields
  rw [gather_flatMap]
  simp only [← referencesAt_eq]
  rfl

/-- **A scan of elements**, by induction on their number. -/
theorem referencesOfElements_eq (element : TypeId) (size count : Nat) (a : Address)
    (found : List (List Address)) :
    m.referencesOfElements element size count a found =
      (gather (fun i => m.referencesIn (a.add (i * size)) element) (List.range count)).map
        (found.reverse.flatten ++ ·) := by
  induction count generalizing a found with
  | zero => exact congrArg Except.ok (List.append_nil _).symm
  | succ count ih =>
    unfold referencesOfElements
    have hnext : ∀ i, a.add ((i + 1) * size) = (a.add size).add (i * size) := by
      intro i
      rw [Address.add_add, Nat.succ_mul, Nat.add_comm]
    rw [List.range_succ_eq_map, gather_cons, gather_map]
    simp only [Nat.zero_mul, Address.add_zero, Nat.succ_eq_add_one, hnext, ih]
    cases m.referencesIn a element with
    | error e => rfl
    | ok here =>
      cases gather (fun i => m.referencesIn ((a.add size).add (i * size)) element) (List.range count) with
      | error e => rfl
      | ok rest => simp [Except.map, bind, Except.bind, pure, Except.pure]

/-- **A slot can refer to something if and only if it has leaves**, by induction on how deep structs
are nested. -/
theorem mayRefer_eq_false_iff {fuel place : Nat} {type : TypeId} :
    m.mayRefer fuel type = false ↔ m.leavesIn fuel place type = [] := by
  induction fuel generalizing place type with
  | zero => simp [mayRefer, leavesIn]
  | succ fuel ih =>
    unfold mayRefer leavesIn
    dsimp only
    cases hcategory : (m.descriptor type).category with
    | void => simp [Category.holdsAddress, Category.isReference]
    | primitive kind => simp [Category.holdsAddress, Category.isReference]
    | string => simp [Category.holdsAddress, Category.isReference]
    | object => simp [Category.holdsAddress, Category.isReference]
    | array => simp [Category.holdsAddress, Category.isReference]
    | pointer => simp [Category.holdsAddress]
    | struct =>
      dsimp only
      rw [List.flatMap_eq_nil_iff]
      simp only [Category.holdsAddress, Category.isReference, ← ih]
      simp

/-- **A scan of an object reads its leaves**, in order, and nothing else. -/
theorem referencesOf_eq (m : Machine) (o : Heap.Object) :
    m.referencesOf o = gather (fun s => m.targetsAt (o.address.add s.1) s.2) (m.leavesOf o) := by
  unfold referencesOf leavesOf
  cases o.kind with
  | string => rfl
  | object => exact referencesOfFields_eq _ _
  | statics => exact referencesOfFields_eq _ _
  | array element length =>
    dsimp only
    split
    · rw [referencesOfElements_eq, gather_flatMap]
      simp only [← referencesAt_eq, ← Address.add_add]
      exact congrFun Except.map_id _
    · rename_i hnone
      have hleaves : ∀ i ∈ List.range length,
          m.leavesIn m.nesting (lengthSize + i * (m.descriptor element).size) element = [] :=
        fun i _ => mayRefer_eq_false_iff.mp (Bool.eq_false_iff.mpr hnone)
      rw [List.flatMap_eq_nil_iff.mpr hleaves]
      rfl

/-! ## Leaves lie inside -/

section Typed

variable {image : Image} (htypes : TypeTable.ofImage image = .ok m.types)

include htypes

theorem instanceField_inside {type : TypeId} {f : FieldLayout}
    (hf : f ∈ (m.descriptor type).instanceFields) :
    f.offset + (m.descriptor f.type).size ≤ (m.descriptor type).instanceSize := by
  obtain ⟨hf, hinstance⟩ := List.mem_filter.mp hf
  have hinside := TypeTable.field_inside htypes hf
  rw [if_neg (by simpa using hinstance)] at hinside
  exact hinside

theorem staticField_inside {type : TypeId} {f : FieldLayout}
    (hf : f ∈ (m.descriptor type).staticFields) :
    f.offset + (m.descriptor f.type).size ≤ (m.descriptor type).staticSize := by
  obtain ⟨hf, hstatic⟩ := List.mem_filter.mp hf
  have hinside := TypeTable.field_inside htypes hf
  rw [if_pos hstatic] at hinside
  exact hinside

/-- **The leaves of a slot lie inside it**, by induction on how deep structs are nested. -/
theorem leavesIn_inside {fuel place : Nat} {type : TypeId} {s : Nat × TypeId}
    (hs : s ∈ m.leavesIn fuel place type) :
    s.1 + Address.slotSize ≤ place + (m.descriptor type).size := by
  induction fuel generalizing place type with
  | zero => cases hs
  | succ fuel ih =>
    have hheld : (m.descriptor type).category.slotSize? = some Address.slotSize → s = (place, type) →
        s.1 + Address.slotSize ≤ place + (m.descriptor type).size := by
      rintro hsize rfl
      have hfixed : (m.descriptor type).size = Address.slotSize := TypeTable.size_of_ofImage htypes hsize
      rw [hfixed]
    unfold leavesIn at hs
    dsimp only at hs
    cases hcategory : (m.descriptor type).category with
    | void => simp [hcategory] at hs
    | primitive kind => simp [hcategory] at hs
    | string => exact hheld (by rw [hcategory]; rfl) (by simpa [hcategory] using hs)
    | object => exact hheld (by rw [hcategory]; rfl) (by simpa [hcategory] using hs)
    | array => exact hheld (by rw [hcategory]; rfl) (by simpa [hcategory] using hs)
    | pointer => exact hheld (by rw [hcategory]; rfl) (by simpa [hcategory] using hs)
    | struct =>
      rw [hcategory] at hs
      obtain ⟨f, hf, hs⟩ := List.mem_flatMap.mp hs
      have hslot := ih hs
      have hfield := instanceField_inside htypes hf
      have hstruct : (m.descriptor type).size = (m.descriptor type).instanceSize :=
        TypeTable.size_of_struct htypes hcategory
      omega

/-- **The leaves of an object with its shape lie inside it.** -/
theorem leavesOf_inside {o : Heap.Object} (hshaped : m.types.Shaped o.type o.size o.kind)
    {s : Nat × TypeId} (hs : s ∈ m.leavesOf o) : s.1 + Address.slotSize ≤ o.size := by
  unfold leavesOf at hs
  cases hkind : o.kind with
  | string =>
    rw [hkind] at hs
    cases hs
  | object =>
    rw [hkind] at hs hshaped
    have hsize : o.size = (m.descriptor o.type).instanceSize := hshaped.2
    obtain ⟨f, hf, hs⟩ := List.mem_flatMap.mp hs
    have hslot := leavesIn_inside htypes hs
    have hfield := instanceField_inside htypes hf
    omega
  | statics =>
    rw [hkind] at hs hshaped
    have hsize : o.size = (m.descriptor o.type).staticSize := hshaped
    obtain ⟨f, hf, hs⟩ := List.mem_flatMap.mp hs
    have hslot := leavesIn_inside htypes hs
    have hfield := staticField_inside htypes hf
    omega
  | array element length =>
    rw [hkind] at hs hshaped
    have hsize : o.size = lengthSize + length * (m.descriptor element).size := hshaped.2.2
    obtain ⟨i, hi, hs⟩ := List.mem_flatMap.mp hs
    have hslot := leavesIn_inside htypes hs
    have helement : (i + 1) * (m.descriptor element).size ≤ length * (m.descriptor element).size :=
      Nat.mul_le_mul_right _ (List.mem_range.mp hi)
    rw [Nat.succ_mul] at helement
    omega

end Typed

/-! ## Scans succeed -/

section Live

variable (inv : m.heap.Inv) (hshort : m.heap.top < Address.stackStart.toNat) {o : Heap.Object}
  (ho : o ∈ m.heap.objects)

include inv hshort ho

/-- Bytes inside a live object can be read. -/
theorem read_inside {place length : Nat} (hinside : place + length ≤ o.size) :
    m.read (o.address.add place) length = .ok (m.heap.arena.read (o.start + place) length) := by
  obtain ⟨hoffset, hrange⟩ := inv.inRange_inside hshort ho hinside
  have hbounds := inv.object_bounds ho
  have hpos : 0 < Heap.alignment := by decide
  have hnull : (o.address.add place).isNull = false := Address.isNull_eq_false (.inr (by omega))
  have hspace : (o.address.add place).space = .heap := (Heap.inRange_iff.mp hrange).1
  unfold read
  rw [hnull, hspace]
  dsimp only
  unfold Heap.bytes
  rw [if_pos hrange, hoffset]
  rfl

/-- A slot inside a live object holds an address, whatever its bytes are. -/
theorem storedAddress_inside {place : Nat} (hinside : place + Address.slotSize ≤ o.size) :
    ∃ target, m.storedAddress (o.address.add place) = .ok target := by
  obtain ⟨target, htarget⟩ : ∃ target,
      Address.ofBytes? (m.heap.arena.read (o.start + place) Address.slotSize) = some target := by
    unfold Address.ofBytes?
    rw [Arena.length_read, if_neg (Nat.lt_irrefl _)]
    exact ⟨_, rfl⟩
  refine ⟨target, except_bind_ok.mpr ⟨_, read_inside inv hshort ho hinside, ?_⟩⟩
  rw [htarget]
  rfl

/-- **No scan of a live object with its shape fails.** -/
theorem referencesOf_ok {image : Image} (htypes : TypeTable.ofImage image = .ok m.types)
    (hshaped : m.types.Shaped o.type o.size o.kind) : ∃ refs, m.referencesOf o = .ok refs := by
  rw [referencesOf_eq]
  apply gather_ok
  intro s hs
  obtain ⟨target, htarget⟩ := storedAddress_inside inv hshort ho (leavesOf_inside htypes hshaped hs)
  exact ⟨_, except_map_ok.mpr ⟨target, htarget, rfl⟩⟩

end Live

/-! ## The parts of the question whether an object is referred to -/

/-- A root refers to the object: a frame or a value in flight. -/
def rootsReferTo (m : Machine) (target : Address) : Except Error Bool := do
  if ← m.stack.frames.reverse.anyM (m.frameRefersTo target) then
    return true
  m.valuesReferTo target m.inFlight.reverse

/-- Another live object refers to the object. -/
def objectsReferTo (m : Machine) (target : Address) : Except Error Bool :=
  m.heap.objects.anyM fun o =>
    if o.address = target then .ok false else (m.referencesOf o).map (·.contains target)

/-- The roots are asked first, then the objects. -/
theorem isReferenced_eq (m : Machine) (target : Address) :
    m.isReferenced target =
      m.rootsReferTo target >>= fun rooted =>
        if rooted then .ok true else m.objectsReferTo target := by
  unfold isReferenced rootsReferTo
  cases m.stack.frames.reverse.anyM (m.frameRefersTo target) with
  | error e => rfl
  | ok framed =>
    cases framed with
    | true => rfl
    | false => rfl

/-- If no scan of an object fails, the objects give an answer. -/
theorem objectsReferTo_ok (h : ∀ o ∈ m.heap.objects, ∃ refs, m.referencesOf o = .ok refs)
    (target : Address) : ∃ found, m.objectsReferTo target = .ok found := by
  unfold objectsReferTo
  apply except_anyM_ok
  intro o ho
  obtain ⟨refs, hrefs⟩ := h o ho
  split
  · exact ⟨false, rfl⟩
  · rw [hrefs]
    exact ⟨_, rfl⟩

/-- Then only the roots can make the question fail. -/
theorem rootsReferTo_of_error {target : Address} {e : Error}
    (h : ∃ found, m.objectsReferTo target = .ok found) (he : m.isReferenced target = .error e) :
    m.rootsReferTo target = .error e := by
  obtain ⟨found, hfound⟩ := h
  rw [isReferenced_eq, hfound] at he
  cases hroots : m.rootsReferTo target with
  | error e' =>
    rw [hroots] at he
    exact he
  | ok rooted =>
    rw [hroots] at he
    cases rooted <;> cases he

end Machine

end ManagedVm
