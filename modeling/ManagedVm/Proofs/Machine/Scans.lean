import ManagedVm.Proofs.Heap.Canonical
import ManagedVm.Proofs.Machine.Elements

/-!
# Scanning slots

A scan of a slot follows the structs in it down to the slots that hold an address, its leaves, and so
does the question whether there is such a slot at all. Both are recursions over the types, and their
fuel is not part of what they mean: in a table that was accepted no struct contains itself, so the
leaves of a struct are those of its fields (`leavesIn_of_struct`), and both recursions come to an end
(`scans_iff`, `asks_iff`).

From the leaves follows what a scan depends on. It reads each of them and nothing else, and they lie
in the slot; so if the slot can be read, its bytes say which addresses are in it (`referencesIn_of_read`),
and of the rest of the machine only the live objects matter, to tell what a pointer points into. And
a slot of a type that cannot refer to anything has no leaves, which is why the elements of an array
of such slots need not be scanned (`referencesOf_eq_wholeReferencesOf`).
-/

namespace ManagedVm

/-! ## Parts of a range -/

namespace Machine

/-- **The parts of the arenas that are in use have addresses**, as runs of bytes in memory do, and the
live objects are listed in order. -/
structure Regular (m : Machine) : Prop where
  heap : m.heap.top ≤ Address.stackStart.toNat
  stack : m.stack.top ≤ Address.stackStart.toNat
  sorted : Heap.Sorted m.heap.objects

variable {m m' : Machine} {a a' : Address} {type : TypeId} {n place length : Nat} {bytes : List UInt8}

/-- The end of a range that can be read is no further than addresses go. -/
theorem Accessible.offset_add_le (h : m.Accessible a n) (hm : m.Regular) :
    a.offset + n ≤ Address.stackStart.toNat := by
  obtain ⟨-, hrange | hrange⟩ := h
  · exact Nat.le_trans (Heap.inRange_iff.mp hrange).2.2.1 hm.heap
  · exact Nat.le_trans (FrameStack.inRange_iff.mp hrange).2 hm.stack

/-- **A part of what can be read can be read**, if there is a byte in it. -/
theorem Accessible.part (h : m.Accessible a n) (hm : m.Regular) (hpos : 0 < length)
    (hpart : place + length ≤ n) : m.Accessible (a.add place) length := by
  have hend := h.offset_add_le hm
  obtain ⟨hspace, hoffset⟩ := Address.add_inside (a := a) (k := place) (by omega)
  obtain ⟨-, hrange | hrange⟩ := h
  · obtain ⟨hheap, hge, hend⟩ := Heap.inRange_iff.mp hrange
    have halignment : 0 < Heap.alignment := by decide
    exact ⟨Address.isNull_eq_false (.inr (by omega)),
      .inl (Heap.inRange_iff.mpr ⟨hspace.trans hheap, by omega, by omega⟩)⟩
  · obtain ⟨hstack, hend⟩ := FrameStack.inRange_iff.mp hrange
    exact ⟨Address.isNull_eq_false (.inl (hspace.trans hstack)),
      .inr (FrameStack.inRange_iff.mpr ⟨hspace.trans hstack, by omega⟩)⟩

/-- **Reading a part** gives the part of the bytes. -/
theorem read_part (h : m.read a n = .ok bytes) (hm : m.Regular) (hpos : 0 < length)
    (hpart : place + length ≤ n) :
    m.read (a.add place) length = .ok ((bytes.drop place).take length) := by
  obtain ⟨haccessible, rfl⟩ := accessible_of_read h
  have hend := haccessible.offset_add_le hm
  obtain ⟨hspace, hoffset⟩ := Address.add_inside (a := a) (k := place) (by omega)
  rw [read_of_accessible (haccessible.part hm hpos hpart)]
  unfold bytesAt
  rw [hspace, hoffset, ← List.map_drop, ← List.map_take, List.drop_range', Nat.mul_one,
    List.take_range'_of_length_ge (by omega)]

/-! ## Leaves without fuel -/

section Leaves

variable {fuel : Nat}

/-- A slot that holds an address is its own leaf. -/
theorem leavesIn_of_holdsAddress (h : (m.descriptor type).category.holdsAddress = true) :
    m.leavesIn (fuel + 1) place type = [(place, type)] := by
  unfold leavesIn
  dsimp only
  cases hcategory : (m.descriptor type).category with
  | string | object | array | pointer => rfl
  | void | primitive | struct =>
    rw [hcategory] at h
    cases h

/-- A slot with neither an address nor fields in it has no leaves. -/
theorem leavesIn_of_inline (h : (m.descriptor type).category.holdsAddress = false)
    (hstruct : (m.descriptor type).category ≠ .struct) : m.leavesIn fuel place type = [] := by
  cases fuel with
  | zero => rfl
  | succ fuel =>
    unfold leavesIn
    dsimp only
    cases hcategory : (m.descriptor type).category with
    | void | primitive => rfl
    | struct => exact absurd hcategory hstruct
    | string | object | array | pointer =>
      rw [hcategory] at h
      cases h

theorem leavesIn_succ_of_struct (h : (m.descriptor type).category = .struct) :
    m.leavesIn (fuel + 1) place type =
      (m.descriptor type).instanceFields.flatMap fun f => m.leavesIn fuel (place + f.offset) f.type := by
  rw [leavesIn]
  simp only [h]

/-- **More fuel than there are levels** finds no more leaves. -/
theorem leavesIn_of_le {levels : Nat} (hn : m.types.NestedWithin levels type) (hle : levels ≤ fuel) :
    m.leavesIn fuel place type = m.leavesIn levels place type := by
  induction levels generalizing fuel place type with
  | zero => exact hn.elim
  | succ levels ih =>
    obtain ⟨fuel, rfl⟩ : ∃ k, fuel = k + 1 := ⟨fuel - 1, by omega⟩
    by_cases hstruct : (m.descriptor type).category = .struct
    · rw [leavesIn_succ_of_struct hstruct, leavesIn_succ_of_struct hstruct]
      apply List.flatMap_congr
      intro f hf
      exact ih (hn f.type ⟨hstruct, f, hf, rfl⟩) (Nat.le_of_succ_le_succ hle)
    · cases hholds : (m.descriptor type).category.holdsAddress with
      | true => rw [leavesIn_of_holdsAddress hholds, leavesIn_of_holdsAddress hholds]
      | false => rw [leavesIn_of_inline hholds hstruct, leavesIn_of_inline hholds hstruct]

variable {image : Image} (htypes : TypeTable.ofImage image = .ok m.types)

include htypes

/-- **The leaves of a struct are those of its fields**, for no struct contains itself. -/
theorem leavesIn_of_struct (h : (m.descriptor type).category = .struct) :
    m.leavesIn m.nesting place type =
      (m.descriptor type).instanceFields.flatMap fun f =>
        m.leavesIn m.nesting (place + f.offset) f.type := by
  have hn := nestedWithin_nesting htypes type
  unfold nesting at hn ⊢
  rw [leavesIn_succ_of_struct h]
  apply List.flatMap_congr
  intro f hf
  exact (leavesIn_of_le (hn f.type ⟨h, f, hf, rfl⟩) (Nat.le_succ _)).symm

end Leaves

/-! ## The two recursions -/

theorem referencesIn_eq (a : Address) (type : TypeId) : m.referencesIn a type =
    gather (fun s => m.targetsAt (a.add s.1) s.2) (m.leavesIn m.nesting 0 type) := by
  have hscan := referencesAt_eq (m := m) m.nesting a 0 type
  rw [Address.add_zero] at hscan
  exact hscan

theorem referencesIn_of_holdsAddress (h : (m.descriptor type).category.holdsAddress = true) :
    m.referencesIn a type = m.targetsAt a type := by
  rw [referencesIn_eq, nesting, leavesIn_of_holdsAddress h, gather_singleton, Address.add_zero]

theorem referencesIn_of_inline (h : (m.descriptor type).category.holdsAddress = false)
    (hstruct : (m.descriptor type).category ≠ .struct) : m.referencesIn a type = .ok [] := by
  rw [referencesIn_eq, leavesIn_of_inline h hstruct]
  rfl

theorem holdsReferences_eq_false_iff (place : Nat) :
    m.holdsReferences type = false ↔ m.leavesIn m.nesting place type = [] :=
  mayRefer_eq_false_iff

theorem holdsReferences_of_holdsAddress (h : (m.descriptor type).category.holdsAddress = true) :
    m.holdsReferences type = true := by
  rw [holdsReferences, nesting, mayRefer]
  simp [h]

theorem holdsReferences_of_inline (h : (m.descriptor type).category.holdsAddress = false)
    (hstruct : (m.descriptor type).category ≠ .struct) : m.holdsReferences type = false :=
  (holdsReferences_eq_false_iff 0).mpr (leavesIn_of_inline h hstruct)

/-- **A scan of a slot**, followed to its end: a slot that holds an address is read, a struct is
scanned field by field, and in any other slot there is nothing. -/
inductive Scans (m : Machine) : Address → TypeId → Except Error (List Address) → Prop
  | held {a : Address} {type : TypeId} : (m.descriptor type).category.holdsAddress = true →
      Scans m a type (m.targetsAt a type)
  | inline {a : Address} {type : TypeId} : (m.descriptor type).category.holdsAddress = false →
      (m.descriptor type).category ≠ .struct → Scans m a type (.ok [])
  | fields {a : Address} {type : TypeId} {part : FieldLayout → Except Error (List Address)} :
      (m.descriptor type).category = .struct →
        (∀ f ∈ (m.descriptor type).instanceFields, Scans m (a.add f.offset) f.type (part f)) →
          Scans m a type (gather part (m.descriptor type).instanceFields)

/-- **The question whether a slot can refer to an object**, followed to its end. -/
inductive Asks (m : Machine) : TypeId → Bool → Prop
  | held {type : TypeId} : (m.descriptor type).category.holdsAddress = true → Asks m type true
  | inline {type : TypeId} : (m.descriptor type).category.holdsAddress = false →
      (m.descriptor type).category ≠ .struct → Asks m type false
  | fields {type : TypeId} {part : FieldLayout → Bool} : (m.descriptor type).category = .struct →
      (∀ f ∈ (m.descriptor type).instanceFields, Asks m f.type (part f)) →
        Asks m type ((m.descriptor type).instanceFields.any part)

section Typed

variable {image : Image} (htypes : TypeTable.ofImage image = .ok m.types)

include htypes

theorem referencesIn_of_struct (h : (m.descriptor type).category = .struct) :
    m.referencesIn a type =
      gather (fun f => m.referencesIn (a.add f.offset) f.type) (m.descriptor type).instanceFields := by
  rw [referencesIn_eq, leavesIn_of_struct htypes h, gather_flatMap]
  simp only [Nat.zero_add, ← referencesAt_eq]
  rfl

theorem holdsReferences_of_struct (h : (m.descriptor type).category = .struct) :
    m.holdsReferences type =
      (m.descriptor type).instanceFields.any fun f => m.holdsReferences f.type := by
  apply Bool.eq_iff_iff.mpr
  apply not_iff_not.mp
  simp only [Bool.not_eq_true, List.any_eq_false]
  rw [holdsReferences_eq_false_iff 0, leavesIn_of_struct htypes h, List.flatMap_eq_nil_iff]
  exact forall₂_congr fun f _ => (holdsReferences_eq_false_iff (0 + f.offset)).symm

/-- **A scan comes to an end**, and with the result that the machine computes. -/
theorem scans_iff {r : Except Error (List Address)} :
    m.Scans a type r ↔ m.referencesIn a type = r := by
  constructor
  · intro h
    induction h with
    | held h => exact referencesIn_of_holdsAddress h
    | inline h hstruct => exact referencesIn_of_inline h hstruct
    | fields h _ ih =>
      rw [referencesIn_of_struct htypes h]
      exact gather_congr ih
  · rintro rfl
    induction type using (TypeTable.wellFounded_contains htypes).induction generalizing a with
    | _ type ih =>
      by_cases hstruct : (m.descriptor type).category = .struct
      · rw [referencesIn_of_struct htypes hstruct]
        exact .fields hstruct fun f hf => ih f.type ⟨hstruct, f, hf, rfl⟩
      · cases hholds : (m.descriptor type).category.holdsAddress with
        | true =>
          rw [referencesIn_of_holdsAddress hholds]
          exact .held hholds
        | false =>
          rw [referencesIn_of_inline hholds hstruct]
          exact .inline hholds hstruct

/-- **So does the question.** -/
theorem asks_iff {b : Bool} : m.Asks type b ↔ m.holdsReferences type = b := by
  constructor
  · intro h
    induction h with
    | held h => exact holdsReferences_of_holdsAddress h
    | inline h hstruct => exact holdsReferences_of_inline h hstruct
    | fields h _ ih =>
      rw [holdsReferences_of_struct htypes h]
      apply Bool.eq_iff_iff.mpr
      simp only [List.any_eq_true]
      exact exists_congr fun f => and_congr_right fun hf => by rw [ih f hf]
  · rintro rfl
    induction type using (TypeTable.wellFounded_contains htypes).induction with
    | _ type ih =>
      by_cases hstruct : (m.descriptor type).category = .struct
      · rw [holdsReferences_of_struct htypes hstruct]
        exact .fields hstruct fun f hf => ih f.type ⟨hstruct, f, hf, rfl⟩
      · cases hholds : (m.descriptor type).category.holdsAddress with
        | true =>
          rw [holdsReferences_of_holdsAddress hholds]
          exact .held hholds
        | false =>
          rw [holdsReferences_of_inline hholds hstruct]
          exact .inline hholds hstruct

end Typed

/-! ## What a scan depends on -/

/-- The objects that a leaf refers to, by the bytes in it. -/
def targetsFrom (m : Machine) (bytes : List UInt8) (type : TypeId) : List Address :=
  match Address.ofBytes? bytes with
  | some target => if (m.descriptor type).category = .pointer then m.pointedTarget target else ownedTarget target
  | none => []

/-- **The objects that a slot refers to**, by the bytes in it. -/
def referencesFrom (m : Machine) (bytes : List UInt8) (type : TypeId) : List Address :=
  (m.leavesIn m.nesting 0 type).flatMap fun s =>
    m.targetsFrom ((bytes.drop s.1).take Address.slotSize) s.2

theorem targetsAt_of_read (h : m.read a Address.slotSize = .ok bytes) :
    m.targetsAt a type = .ok (m.targetsFrom bytes type) := by
  obtain ⟨-, rfl⟩ := accessible_of_read h
  obtain ⟨target, htarget⟩ : ∃ target, Address.ofBytes? (m.bytesAt a Address.slotSize) = some target := by
    unfold Address.ofBytes?
    rw [length_bytesAt, if_neg (Nat.lt_irrefl _)]
    exact ⟨_, rfl⟩
  have hstored : m.storedAddress a = .ok target := by
    refine except_bind_ok.mpr ⟨_, h, ?_⟩
    rw [htarget]
    rfl
  unfold targetsAt targetsFrom
  rw [hstored, htarget]
  split <;> rfl

/-- **A slot that can be read is scanned**, and its bytes say what is found. -/
theorem referencesIn_of_read {image : Image} (htypes : TypeTable.ofImage image = .ok m.types)
    (hm : m.Regular) (h : m.read a (m.descriptor type).size = .ok bytes) :
    m.referencesIn a type = .ok (m.referencesFrom bytes type) := by
  rw [referencesIn_eq, referencesFrom, ← gather_pure]
  apply gather_congr
  intro s hs
  have hinside := leavesIn_inside htypes hs
  rw [Nat.zero_add] at hinside
  exact targetsAt_of_read (read_part h hm (by decide) hinside)

theorem leavesIn_congr (htypes : m'.types = m.types) : m'.leavesIn = m.leavesIn := by
  funext fuel
  induction fuel with
  | zero => rfl
  | succ fuel ih =>
    funext place type
    simp only [leavesIn, descriptor, htypes, ih]

/-- **Of the machine only the types and the live objects matter.** -/
theorem referencesFrom_congr (htypes : m'.types = m.types)
    (hobjects : m'.heap.objects = m.heap.objects) : m'.referencesFrom = m.referencesFrom := by
  funext bytes type
  unfold referencesFrom targetsFrom pointedTarget Heap.containing? nesting descriptor
  rw [leavesIn_congr htypes, htypes, hobjects]

/-! ## Arrays that are not scanned -/

/-- A slot of a type that cannot refer to anything refers to nothing, whatever is in it. -/
theorem referencesIn_of_not_holdsReferences (h : m.holdsReferences type = false) (a : Address) :
    m.referencesIn a type = .ok [] := by
  rw [referencesIn_eq, (holdsReferences_eq_false_iff 0).mp h]
  rfl

/-- The objects that a live object refers to, with every element of an array scanned. -/
def wholeReferencesOf (m : Machine) (o : Heap.Object) : Except Error (List Address) :=
  match o.kind with
  | .string => .ok []
  | .object => m.referencesOfFields o.address (m.descriptor o.type).instanceFields
  | .statics => m.referencesOfFields o.address (m.descriptor o.type).staticFields
  | .array element length =>
    m.referencesOfElements element (m.descriptor element).size length (o.address.add lengthSize) []

/-- **Nothing is missed** by not scanning the arrays whose elements cannot refer to anything. -/
theorem referencesOf_eq_wholeReferencesOf (m : Machine) (o : Heap.Object) :
    m.referencesOf o = m.wholeReferencesOf o := by
  unfold referencesOf wholeReferencesOf
  cases o.kind with
  | string => rfl
  | object => rfl
  | statics => rfl
  | array element length =>
    dsimp only
    split
    · rfl
    · rename_i hnone
      have hscan := fun i (_ : i ∈ List.range length) =>
        referencesIn_of_not_holdsReferences (Bool.eq_false_iff.mpr hnone)
          ((o.address.add lengthSize).add (i * (m.descriptor element).size))
      rw [referencesOfElements_eq, gather_congr hscan, gather_pure]
      simp [Except.map]

/-- **Scans end, find what is there and stay in their slots.** -/
structure ScansInPlace (m : Machine) : Prop where
  /-- Every scan of a slot comes to an end, with the result that the machine computes. -/
  scan : ∀ {a : Address} {type : TypeId} {r : Except Error (List Address)},
    m.Scans a type r ↔ m.referencesIn a type = r
  /-- So does the question whether a slot can refer to anything. -/
  test : ∀ {type : TypeId} {b : Bool}, m.Asks type b ↔ m.holdsReferences type = b
  /-- If it cannot, then a scan finds nothing, at any address and whatever the bytes there are. -/
  nothing : ∀ {type : TypeId}, m.holdsReferences type = false → ∀ a, m.referencesIn a type = .ok []
  /-- If the slot can be read, then a scan succeeds, and it finds the same in any slot with the same
  bytes, of any machine with the same live objects. -/
  within : m.Regular → ∀ {m' : Machine}, m'.Regular → m'.types = m.types →
    (∀ o, o ∈ m'.heap.objects ↔ o ∈ m.heap.objects) →
      ∀ {a a' : Address} {type : TypeId} {bytes : List UInt8},
        m.read a (m.descriptor type).size = .ok bytes →
          m'.read a' (m.descriptor type).size = .ok bytes →
            ∃ refs, m.referencesIn a type = .ok refs ∧ m'.referencesIn a' type = .ok refs
  /-- Not to scan the elements of an array that cannot refer to anything makes no difference. -/
  skips : ∀ o, m.referencesOf o = m.wholeReferencesOf o

/-- What a host comes to is regular, if its arenas have addresses. -/
theorem regular_of_hosted [Host] [Host.Orderly] {m₀ : Machine} {image : Image} {settings : Settings}
    {threshold : Option Level} (hcreate : create image settings threshold = .ok m₀)
    (hhosted : m₀.Hosted m) (hfits : m.heap.arena.size < Address.stackStart.toNat)
    (hstack : m.stack.top ≤ Address.stackStart.toNat) : m.Regular := by
  have inv := (hhosted.reached hcreate hfits).1.inv
  exact ⟨inv.short, hstack, inv.sorted⟩

/-- A struct in a struct, with a reference and a pointer behind numbers; and a struct of numbers. -/
def nests : Image where
  types := #[
    { name := "Node", category := .object, fields := [⟨"outer", 2, false⟩] },
    { name := "Inner", category := .struct, fields := [⟨"tag", 3, false⟩, ⟨"next", 0, false⟩] },
    { name := "Outer", category := .struct,
      fields := [⟨"inner", 1, false⟩, ⟨"into", 4, false⟩, ⟨"count", 3, false⟩] },
    { name := "int", category := .primitive (.word .int) },
    { name := "Node*", category := .pointer, underlying := some 0 },
    { name := "Span", category := .struct, fields := [⟨"start", 3, false⟩, ⟨"stop", 3, false⟩] },
    { name := "Span[]", category := .array, underlying := some 5 }]

/-- A host makes two nodes, of which the first refers to the second and points into itself, copies
the struct in it to the stack, and makes an array of numbers that look like the address of a node. -/
def fillNests (m : Machine) : Machine :=
  [.makeDefault ⟨0⟩, .makeDefault ⟨0⟩, .write (.heap 12) (Address.heap 32).toBytes,
    .write (.heap 20) (Address.heap 16).toBytes, .carve 24, .copy (.heap 8) (.stack 0) 24,
    .makeArray ⟨6⟩ 2, .write (.heap 60) (Address.heap 8).toBytes].foldl
      (fun m (c : HostCall) => c.exec.final m) m

/-- A machine with nothing on its heap. -/
def vacant (types : TypeTable) : Machine where
  image := {}
  types
  heap := { settings := { initialSize := 64 }, arena := .zeroed 64 }
  stack := .create 0 0

end Machine

end ManagedVm
