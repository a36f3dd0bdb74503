import ManagedVm.Proofs.Machine.Sheet

/-!
# Instructions on a sheet

What instructions do to a machine that shows a sheet: they lead to one that shows the next sheet if the
scratch for it fits in the arena, and fail for want of scratch otherwise (`ArrayScene.Delivers`). An
instruction asks for scratch at most once, for the value that it pushes.

The array is never freed on the way. An instruction that takes it from the evaluation stack lets go of it
at its end, and a local still refers to it then.
-/

namespace ManagedVm

open scoped Naturals

namespace ArrayScene

open Exec

/-- **The operation leads to a machine that shows the sheet** if its scratch fits in the arena. -/
abbrev Delivers (g : ArrayScene) (t : Sheet) : EStateM.Result Error Machine Unit → Prop :=
  g.Yields t.cursor fun _ m => g.Shows m t

variable {g : ArrayScene} {m : Machine} {t : Sheet} {c : Content} {cs : List Content} {x y z : Scalar}
  {heap : Heap} {held : List (Value × Content)} {v : Value}

/-! ## Numbers -/

theorem delivers_of_pushed {w : Cell} {r : EStateM.Result Error Machine Unit} (hkeeps : g.Keeps t.array heap)
    (hpushed : g.Pushed g.coding (g.outside heap) t.cursor t.contents w r)
    (hroom : t.values.length < g.depth) : g.Delivers (t.put (.cell w)) r := by
  cases hpushed with
  | ok _ hmirrors => exact .ok (shows_of_mirrors (t := t.put (.cell w)) hmirrors hkeeps)
  | full hfull => exact absurd hroom (Nat.not_lt_of_le hfull)
  | lacking hover => exact .lacking hover

theorem delivers_of_computes {r : EStateM.Result Error Machine Unit} (hkeeps : g.Keeps t.array heap)
    (hcomputes : g.Computes g.coding (g.outside heap) t.cursor t.contents (.ok x) r)
    (hroom : t.values.length < g.depth) : g.Delivers (t.put (.number x)) r := by
  cases hcomputes with
  | pushed hpushed => exact delivers_of_pushed hkeeps hpushed hroom

theorem constant_delivers (h : g.Shows m t) {operand : Int32} {w : Cell} (hw : g.image.cell? operand = some w)
    (hroom : t.values.length < g.depth) : g.Delivers (t.put (.cell w)) (perform ⟨.ldc, operand⟩ m) :=
  delivers_of_pushed h.heap (pushed_constant h.mirrors (g.near _) hw) hroom

theorem binary_delivers (h : g.Shows m t) {i : Instruction} {operator : Scalar.Operator}
    (hop : i.op.operator? = some operator) (hvalues : t.values = .number y :: .number x :: cs)
    (hz : Scalar.binary operator x y = .ok z) (hroom : cs.length < g.depth) :
    g.Delivers ({ t with values := cs }.put (.number z)) (perform i m) := by
  have hcomputes := computes_binary h.mirrors (g.near _) hop (l := .ofScalar x) (r := .ofScalar y) hvalues
  rw [Cell.scalar_ofScalar, Cell.scalar_ofScalar, hz] at hcomputes
  rw [perform_eq_binary hop]
  exact delivers_of_computes (t := { t with values := cs }) h.heap hcomputes hroom

theorem compare_delivers (h : g.Shows m t) (op : Opcode) {comparison : Scalar.Comparison} {holds : Bool}
    (hvalues : t.values = .number y :: .number x :: cs) (hholds : Scalar.compare comparison x y = .ok holds)
    (hroom : cs.length < g.depth) :
    g.Delivers ({ t with values := cs }.put (.number (.bool holds))) (Exec.compare op comparison m) := by
  have hcomputes := computes_compare h.mirrors (g.near _) op comparison (l := .ofScalar x)
    (r := .ofScalar y) hvalues
  rw [Cell.scalar_ofScalar, Cell.scalar_ofScalar, hholds] at hcomputes
  exact delivers_of_computes (t := { t with values := cs }) h.heap hcomputes hroom

/-! ## Locals -/

theorem load_cell_delivers (h : g.Shows m t) {index : Int32} {w : Cell}
    (hlocal : t.local? index = some (.cell w)) (hroom : t.values.length < g.depth) :
    g.Delivers (t.put (.cell w)) (perform ⟨.ldloc, index⟩ m) :=
  delivers_of_pushed h.heap (pushed_loadSlot .locals h.mirrors (g.near _) hlocal) hroom

/-- **The array is pushed**, once it is held. -/
theorem push_array (h : g.Mirrors g.coding (g.outside heap) held t.cursor m t.contents) (hv : g.IsArray v)
    (hkeeps : g.Keeps t.array heap) (hroom : t.values.length < g.depth) :
    ∃ m', push v m = .ok ⟨⟩ m' ∧ g.Shows m' (t.put .array) := by
  obtain ⟨m', hpush, h'⟩ := push_mirrors (hold_array h hv) List.mem_cons_self hroom
  exact ⟨m', hpush, shows_of_mirrors (t := t.put .array) h' hkeeps⟩

theorem load_array_shows (h : g.Shows m t) {index : Int32} (hlocal : t.local? index = some .array)
    (hroom : t.values.length < g.depth) :
    ∃ m', perform ⟨.ldloc, index⟩ m = .ok ⟨⟩ m' ∧ g.Shows m' (t.put .array) := by
  obtain ⟨type, place, hslot, hsuits, hholds, -, hend, -⟩ := h.mirrors.slot .locals hlocal
  have hmaterialize : m.materialize type (.stack place) = .ok (.array type Heap.firstAddress) := by
    unfold Machine.materialize
    dsimp only
    rw [h.mirrors.descriptor, hsuits.1, storedAddress_slot h.mirrors hholds hend]
    rfl
  have hload : load type (.stack place) m = .ok (.array type Heap.firstAddress) m := by
    unfold load
    rw [bind_of_ok (query_of_ok hmaterialize)]
    rfl
  obtain ⟨m', hpush, h'⟩ := push_array h.mirrors ⟨type, rfl, hsuits.2.2⟩ h.heap hroom
  refine ⟨m', ?_, h'⟩
  show (query (·.slot (Cells.Bank.locals.choose index)) >>= fun b => load b.type b.address >>= push) m = _
  rw [bind_of_ok (query_of_ok hslot), bind_of_ok hload, hpush]

theorem store_number_shows (h : g.Shows m t) {index : Int32} (hvalues : t.values = .number x :: cs)
    (hlocal : t.local? index = some (.number y)) (hkind : x.kind = y.kind) :
    ∃ m', perform ⟨.stloc, index⟩ m = .ok ⟨⟩ m' ∧
      g.Shows m' ({ t with values := cs }.setLocal index (.number x)) := by
  have hretag : (Cell.ofScalar x).retag y.kind = .ok (.ofScalar x) := Cell.retag_of_kind hkind
  have hslot : t.contents.slot? .locals index = some (g.coding.cell (.ofScalar y)) := hlocal
  rcases storeSlot_cell_cases .locals h.mirrors hvalues hslot with ⟨e, m', hfails, -⟩ |
      ⟨w', m', hretagged, hstore, hmirrors⟩
  · cases hretag.symm.trans hfails
  · cases hretag.symm.trans hretagged
    exact ⟨m', hstore,
      shows_of_mirrors (t := { t with values := cs }.setLocal index (.number x)) hmirrors h.heap⟩

/-- **The array is kept in a local** that refers to nothing. -/
theorem store_array_shows (h : g.Shows m t) {index : Int32} {ws : List Scalar}
    (hvalues : t.values = .array :: cs) (harray : t.array = some ws) (hlocal : t.local? index = some .null) :
    ∃ m', perform ⟨.stloc, index⟩ m = .ok ⟨⟩ m' ∧
      g.Shows m' ({ t with values := cs }.setLocal index .array) := by
  obtain ⟨v, m₁, hpop, h₁⟩ := pop_mirrors h.mirrors hvalues
  obtain ⟨type, place, hslot, hsuits, hholds, -, hend, hwrite⟩ := h₁.slot .locals hlocal
  have hsuits' : g.Suits type .array := hsuits
  obtain ⟨hwritten, h₂⟩ := hwrite .array hsuits'
  have hnone : m₁.referencesIn (.stack place) type = .ok [] :=
    referencesIn_slot (c := .null) h₁ hsuits hholds hend
  have hbytes : m₁.slotBytes type v = .ok Content.array.bytes := by
    obtain ⟨vtype, rfl, -⟩ := isArray_of_held h₁ List.mem_cons_self
    unfold Machine.slotBytes
    dsimp only
    rw [h₁.descriptor, hsuits'.1, hsuits'.2.1]
    rfl
  have hstore : store (.stack place) type v m₁ = .ok ⟨⟩ (m₁.written place Content.array.bytes) :=
    (bind_of_ok (query_of_ok hbytes)).trans hwritten
  have hmem : .array ∈ ({ t with values := cs }.setLocal index .array).locals :=
    Sheet.mem_setLocal hlocal .array
  refine ⟨_, ?_, shows_of_mirrors (t := { t with values := cs }.setLocal index .array) h₂ h.heap⟩
  show storeSlot (Cells.Bank.locals.choose index) m = _
  unfold storeSlot assignSlot assign
  rw [bind_of_ok hpop]
  simp only [bind_assoc]
  rw [bind_of_ok (query_of_ok hslot), bind_of_ok (query_of_ok hnone), bind_of_ok hstore,
    bind_of_ok (release_nil _)]
  exact releaseValue_array h₂ (h.houses harray) hmem List.mem_cons_self

/-! ## Branches -/

theorem branchIf_shows (h : g.Shows m t) {operand : Int32} {length target : Nat} (wanted : Bool)
    (htarget : branchTarget operand length = .ok target) (hvalues : t.values = .number x :: cs) :
    ∃ m', branchIf wanted operand length m =
        .ok (if x.isTruthy = wanted then .jump target else .next) m' ∧
      g.Shows m' { t with values := cs } := by
  obtain ⟨m', hbranch, h'⟩ := branchIf_mirrors (w := .ofScalar x) h.mirrors hvalues htarget wanted
  rw [Cell.scalar_ofScalar] at hbranch
  exact ⟨m', hbranch, shows_of_mirrors (t := { t with values := cs }) h' h.heap⟩

/-! ## Making the array -/

/-- **The array is made**, at the first address of the heap and full of zeros. -/
theorem makeArray_mirrors {cursor : Nat} {s : FrameContents Content}
    (h : g.Mirrors g.coding (g.outside g.heap) held cursor m s) {type : TypeId}
    (hsuits : g.Suits type .array) {n : Nat} (hshort : n < UInt32.size)
    (hfits : Heap.alignment + Heap.reserved (g.arraySize n) ≤ g.settings.maxSize.toNat) :
    ∃ heap m', makeArray type n m = .ok (.array type Heap.firstAddress) m' ∧
      g.Mirrors g.coding (g.outside heap) held cursor m' s ∧ g.Houses (List.replicate n (.zero g.kind)) heap := by
  obtain ⟨p, heap, hplan, hstart, hoccupy, hrange, hhouses⟩ := g.houses_new type hshort hfits
  rw [← show m.heap = g.heap from h.heap] at hplan hoccupy
  obtain ⟨journal, hmade⟩ : ∃ journal, allocateObject (g.arraySize n) type (.array g.element n) m =
      .ok Heap.firstAddress { m with heap := heap, journal } := by
    obtain ⟨journal, hmade⟩ := allocateObject_of_ok hplan
    rw [hoccupy, hstart] at hmade
    exact ⟨journal, hmade⟩
  rw [← LittleEndian.length_encode Machine.lengthSize n] at hrange
  have hdescriptor : query (fun m => .ok (m.descriptor type)) m = .ok (g.types.descriptor type) m := by
    apply query_of_ok
    rw [h.descriptor]
  have hunderlying : query (fun _ => Machine.underlying (g.types.descriptor type)) m = .ok g.element m :=
    query_of_ok (Machine.underlying_eq_ok.mpr hsuits.2.2)
  have hword : g.arraySize n < UInt64.size := by
    have hmax := g.settings.maxSize.toNat_lt_size
    have hsize := Heap.le_reserved (g.arraySize n)
    omega
  have hsize : query (fun m => Size.fit .panic (Machine.lengthSize + (m.descriptor g.element).size * n)) m =
      .ok (g.arraySize n) m := by
    apply query_of_ok
    rw [h.descriptor, g.size_eq g.category_element]
    exact Size.fit_of_lt hword
  refine ⟨_, _, ?_, h.withHeap _ journal, hhouses⟩
  unfold makeArray
  rw [bind_of_ok hdescriptor, if_neg (not_not_intro hsuits.1)]
  dsimp only [pure_bind]
  rw [bind_of_ok hunderlying, bind_of_ok hsize, bind_of_ok hmade,
    bind_of_ok (writeHeap_of_inRange hrange)]
  rfl

section Length

variable {operand : Int32} {type : TypeId} {n : Int}

/-- **The length of a new array is popped and read.** -/
theorem newArray_length (h : g.Shows m t) (hvalues : t.values = .number x :: cs) (hoperand : ¬ operand < 0)
    (htype : g.types.declared? operand.toInt.toNat = .ok type)
    (hlength : WordKind.long.value (x.toWord .long) = n) :
    ∃ m', g.Shows m' { t with values := cs } ∧ newArray operand m = (do
      if n < 0 then
        throw (.negativeArrayLength n)
      let limit ← query fun m => .ok m.heap.settings.maxSize.toNat
      if UInt32.size ≤ n then
        throw (.heap (.outOfMemory n.toNat limit))
      push (← makeArray type n.toNat) : Exec Unit) m' := by
  obtain ⟨v, m₁, hpop, h₁⟩ := pop_mirrors h.mirrors hvalues
  have htype' : m₁.typeOperand operand = .ok type := by
    unfold Machine.typeOperand Machine.declaredType
    rw [if_neg hoperand, h₁.types, htype]
    rfl
  have hindex := readIndex_of_held (x := x) h₁ List.mem_cons_self
  rw [hlength] at hindex
  refine ⟨m₁, shows_of_mirrors (t := { t with values := cs }) h₁ h.heap, ?_⟩
  unfold newArray
  rw [bind_of_ok hpop, bind_of_ok (query_of_ok htype'), bind_of_ok (query_of_ok hindex)]

theorem newArray_negative (h : g.Shows m t) (hvalues : t.values = .number x :: cs) (hoperand : ¬ operand < 0)
    (htype : g.types.declared? operand.toInt.toNat = .ok type)
    (hlength : WordKind.long.value (x.toWord .long) = n) (hneg : n < 0) :
    ∃ m', newArray operand m = .error (.negativeArrayLength n) m' := by
  obtain ⟨m', -, heq⟩ := newArray_length h hvalues hoperand htype hlength
  refine ⟨m', ?_⟩
  rw [heq, if_pos hneg]
  rfl

theorem newArray_shows (h : g.Shows m t) (hvalues : t.values = .number x :: cs) (harray : t.array = none)
    (hoperand : ¬ operand < 0) (htype : g.types.declared? operand.toInt.toNat = .ok type)
    (hsuits : g.Suits type .array) {n : Nat} (hlength : WordKind.long.value (x.toWord .long) = n)
    (hshort : n < UInt32.size)
    (hfits : Heap.alignment + Heap.reserved (g.arraySize n) ≤ g.settings.maxSize.toNat)
    (hroom : cs.length < g.depth) :
    ∃ m', newArray operand m = .ok ⟨⟩ m' ∧
      g.Shows m' { t with values := .array :: cs, array := some (List.replicate n (.zero g.kind)) } := by
  obtain ⟨m₁, h₁, heq⟩ := newArray_length h hvalues hoperand htype hlength
  have hheap : m₁.heap = g.heap := by
    have hkeeps := h₁.heap
    rw [show ({ t with values := cs } : Sheet).array = none from harray] at hkeeps
    exact hkeeps
  obtain ⟨heap, m₂, hmake, h₂, hhouses⟩ := makeArray_mirrors (hheap ▸ h₁.mirrors) hsuits hshort hfits
  obtain ⟨m₃, hpush, h₃⟩ := push_array
    (t := { t with values := cs, array := some (List.replicate n (.zero g.kind)) }) h₂
    ⟨type, rfl, hsuits.2.2⟩ hhouses hroom
  refine ⟨m₃, ?_, h₃⟩
  have hlimit : query (fun m => .ok m.heap.settings.maxSize.toNat) m₁ =
      .ok m₁.heap.settings.maxSize.toNat m₁ := rfl
  rw [heq, if_neg (by omega)]
  dsimp only
  rw [bind_of_ok hlimit, if_neg (by omega), Int.toNat_natCast, bind_of_ok hmake, hpush]

end Length

/-! ## Reading and writing the array -/

variable {cursor : Nat} {s : FrameContents Content} {ws : List Scalar} {i : Nat}

theorem arrayLength_eq (h : g.Mirrors g.coding (g.outside m.heap) held cursor m s)
    (hhouses : g.Houses ws m.heap) (hv : (v, .array) ∈ held) : m.arrayLength v = .ok ws.length := by
  obtain ⟨type, -, hget⟩ := hhouses.get
  obtain ⟨vtype, rfl, -⟩ := isArray_of_held h hv
  unfold Machine.arrayLength
  dsimp only
  rw [Machine.liveObject_eq_ok.mpr hget]
  exact hhouses.readLength

theorem elementAddress_eq (h : g.Mirrors g.coding (g.outside m.heap) held cursor m s)
    (hhouses : g.Houses ws m.heap) {index : Value} (hv : (v, .array) ∈ held)
    (hindex : (index, .number y) ∈ held) (hi : WordKind.long.value (y.toWord .long) = i)
    (hx : ws[i]? = some x) :
    query (fun m => do m.elementAddress v (← m.readIndex index)) m = .ok (g.addressOf i, g.element) m := by
  apply query_of_ok
  rw [readIndex_of_held h hindex, hi]
  show m.elementAddress v i = _
  obtain ⟨type, hobjects, hget⟩ := hhouses.get
  have hsize : (m.descriptor g.element).size = g.kind.size := by
    rw [h.descriptor, g.size_eq g.category_element]
  have hinside : Heap.elementPlace g.kind i + g.kind.size ≤ (g.object type ws.length).size :=
    Heap.elementPlace_add_le hx
  have hmem : g.object type ws.length ∈ m.heap.objects := hobjects ▸ List.mem_singleton_self _
  have hbounds := (hhouses.reached.inv.object_bounds hmem).2
  have hshort := hhouses.reached.top_lt
  obtain ⟨vtype, rfl, htype⟩ := isArray_of_held h hv
  rw [← h.descriptor] at htype
  refine Machine.elementAddress_eq_ok.mpr ⟨_, i, hget, htype, rfl, ?_, ?_⟩
  · rw [hsize]
    exact hinside
  · rw [hsize]
    refine Address.add?_eq_some.mpr ⟨?_, rfl⟩
    show (g.object type ws.length).start + Heap.elementPlace g.kind i < _
    have hend : Heap.elementPlace g.kind i ≤ (g.object type ws.length).size :=
      (Nat.le_add_right _ _).trans hinside
    omega

theorem write_element (hhouses : g.Houses ws m.heap) (hx : ws[i]? = some x) (hkind : y.kind = g.kind) :
    ∃ heap, write (g.addressOf i) y.encode m = .ok ⟨⟩ { m with heap } ∧ g.Houses (ws.set i y) heap := by
  obtain ⟨hrange, hhouses'⟩ := hhouses.poke hx hkind
  have hnull : (g.addressOf i).isNull = false := (Machine.accessible_of_read (hhouses.read hx)).1.1
  refine ⟨_, ?_, hhouses'⟩
  unfold write
  rw [hnull, Machine.space_of_inRange_heap hrange]
  exact writeHeap_of_inRange hrange

/-- **A number from the array is pushed**, and the array is let go of. -/
theorem delivers_then_release {load : Exec Value} {array : Value} {s : Sheet} (hhouses : g.Houses ws m.heap)
    (hs : s.array = some ws) (hmem : .array ∈ s.locals) (hv : (array, .array) ∈ held)
    (hload : g.Yields (s.cursor + x.kind.size)
      (g.Placed g.coding (g.outside m.heap) held s.cursor s.contents (.ofScalar x)) (load m))
    (hroom : s.values.length < g.depth) :
    g.Delivers (s.put (.number x)) ((load >>= fun v => push v >>= fun _ => releaseValue array) m) := by
  refine hload.bind fun v m' hplaced => ?_
  obtain ⟨m'', hpush, hmirrors⟩ := push_mirrors hplaced List.mem_cons_self hroom
  refine ⟨⟨⟩, m'', ?_, shows_of_mirrors (t := s.put (.number x)) hmirrors ?_⟩
  · rw [bind_of_ok hpush]
    exact releaseValue_array hmirrors hhouses hmem (List.mem_cons_of_mem _ hv)
  · show g.Keeps s.array m.heap
    rw [hs]
    exact hhouses

theorem length_delivers (h : g.Shows m t) (harray : t.array = some ws) (hmem : .array ∈ t.locals)
    (hvalues : t.values = .array :: cs) (hroom : cs.length < g.depth) (operand : Int32) :
    g.Delivers ({ t with values := cs }.put (.number (.ofInt .int ws.length)))
      (perform ⟨.ldlen, operand⟩ m) := by
  obtain ⟨v, m₁, hpop, h₁⟩ := pop_mirrors h.mirrors hvalues
  have hhouses := h.houses harray
  rw [← show m₁.heap = m.heap from h₁.heap] at hhouses h₁
  show g.Delivers _ ((pop >>= fun array => query (·.arrayLength array) >>= fun length =>
    makeScalar (.ofInt .int length) >>= fun v => push v >>= fun _ => releaseValue array) m)
  rw [bind_of_ok hpop, bind_of_ok (query_of_ok (arrayLength_eq h₁ hhouses List.mem_cons_self))]
  exact delivers_then_release (s := { t with values := cs }) hhouses harray hmem List.mem_cons_self
    (yields_makeScalar h₁ (g.near _) (.ofInt .int ws.length)) hroom

theorem element_delivers (h : g.Shows m t) (harray : t.array = some ws) (hmem : .array ∈ t.locals)
    (hvalues : t.values = .array :: .number y :: cs) (hi : WordKind.long.value (y.toWord .long) = i)
    (hx : ws[i]? = some x) (hroom : cs.length < g.depth) (operand : Int32) :
    g.Delivers ({ t with values := cs }.put (.number x)) (perform ⟨.ldelem, operand⟩ m) := by
  obtain ⟨array, m₁, hpop, h₁⟩ := pop_mirrors h.mirrors hvalues
  obtain ⟨index, m₂, hpop', h₂⟩ := pop_mirrors h₁ rfl
  have hhouses := h.houses harray
  rw [← show m₂.heap = m.heap from h₂.heap] at hhouses h₂
  have hkind : x.kind = g.kind := hhouses.kinds x (List.mem_of_getElem? hx)
  have hload := yields_load (w := .ofScalar x) (a := g.addressOf i) h₂ (g.near _)
    (hkind ▸ g.category_element) fun m' h' _ => by
      have hhouses' := hhouses
      rw [← show m'.heap = m₂.heap from h'.heap] at hhouses'
      show m'.read (g.addressOf i) x.kind.size = .ok x.encode
      rw [hkind]
      exact hhouses'.read hx
  show g.Delivers _ ((pop >>= fun array => pop >>= fun index =>
    (query fun m => do m.elementAddress array (← m.readIndex index)) >>= fun found =>
      load found.2 found.1 >>= fun v => push v >>= fun _ => releaseValue array) m)
  rw [bind_of_ok hpop, bind_of_ok hpop',
    bind_of_ok (elementAddress_eq h₂ hhouses (by simp) List.mem_cons_self hi hx)]
  exact delivers_then_release (s := { t with values := cs }) hhouses harray hmem (by simp) hload hroom

theorem setElement_shows (h : g.Shows m t) (harray : t.array = some ws) (hmem : .array ∈ t.locals)
    (hvalues : t.values = .array :: .number y :: .number x :: cs)
    (hi : WordKind.long.value (y.toWord .long) = i) (hlt : i < ws.length) (hkind : x.kind = g.kind)
    (operand : Int32) :
    ∃ m', perform ⟨.stelem, operand⟩ m = .ok ⟨⟩ m' ∧
      g.Shows m' { t with values := cs, array := some (ws.set i x) } := by
  have hold := List.getElem?_eq_getElem hlt
  obtain ⟨array, m₁, hpop, h₁⟩ := pop_mirrors h.mirrors hvalues
  obtain ⟨index, m₂, hpop', h₂⟩ := pop_mirrors h₁ rfl
  obtain ⟨v, m₃, hpop'', h₃⟩ := pop_mirrors h₂ rfl
  have hhouses := h.houses harray
  rw [← show m₃.heap = m.heap from h₃.heap] at hhouses h₃
  have hcategory : (g.types.descriptor g.element).category = .primitive x.kind := by
    rw [hkind, g.category_element]
  obtain ⟨hinline, hbytes⟩ := h₃.valueBytes (v := v) (w := .ofScalar x) List.mem_cons_self
  have hretag : (Cell.ofScalar x).retag x.kind = .ok (.ofScalar x) := Cell.retag_of_kind rfl
  have hslotBytes : m₃.slotBytes g.element v = .ok x.encode := by
    rw [slotBytes_eq h₃ hcategory hinline hbytes, hretag]
    rfl
  obtain ⟨heap, hwrite, hhouses'⟩ := write_element hhouses hold hkind
  have h₄ : g.Mirrors g.coding (g.outside heap) _ _ { m₃ with heap } _ := h₃.withHeap heap m₃.journal
  have hstore : store (g.addressOf i) g.element v m₃ = .ok ⟨⟩ { m₃ with heap } :=
    (bind_of_ok (query_of_ok hslotBytes)).trans hwrite
  obtain ⟨vtype, va, rfl, -⟩ := h₃.read (v := v) (w := .ofScalar x) List.mem_cons_self
  refine ⟨_, ?_, shows_of_mirrors (t := { t with values := cs, array := some (ws.set i x) }) h₄ hhouses'⟩
  show (pop >>= fun array => pop >>= fun index => pop >>= fun v =>
    (query fun m => do m.elementAddress array (← m.readIndex index)) >>= fun found =>
      assign found.1 found.2 v >>= fun _ => releaseValue v >>= fun _ => releaseValue array) m = _
  rw [bind_of_ok hpop, bind_of_ok hpop', bind_of_ok hpop'',
    bind_of_ok (elementAddress_eq h₃ hhouses (by simp) (by simp) hi hold)]
  unfold assign
  simp only [bind_assoc]
  rw [bind_of_ok (query_of_ok (referencesIn_primitive h₃ hcategory _)), bind_of_ok hstore,
    bind_of_ok (release_nil _), bind_of_ok (releaseValue_primitive vtype va _)]
  exact releaseValue_array h₄ hhouses' hmem (by simp)

end ArrayScene

end ManagedVm
