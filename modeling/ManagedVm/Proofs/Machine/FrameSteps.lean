import ManagedVm.Proofs.Machine.FrameContents

/-!
# Instructions that compute with cells

What an instruction that computes with cells does to the innermost frame, whatever other contents there
are in it. Operands are popped and held while the result gets scratch of its own, and the result is
pushed (`Scene.Pushed`). The arena may have no room for the scratch: it succeeds if what is needed fits,
and fails for want of it if not (`Scene.Yields`). Nothing outside the frame changes.
-/

namespace ManagedVm

open Exec

/-- The cell of a number is that number. -/
@[simp] theorem Cell.scalar_ofScalar (x : Scalar) : (Cell.ofScalar x).scalar = x :=
  Option.some.inj ((Cell.decode?_bytes _).symm.trans x.decode?_encode)

/-- A cell of the kind of a slot goes there as it is. -/
theorem Cell.retag_of_kind {c : Cell} {kind : Kind} (h : c.kind = kind) : c.retag kind = .ok c := by
  subst h
  exact dif_pos c.length_bytes

theorem Cell.kind_retag {c c' : Cell} {kind : Kind} (h : c.retag kind = .ok c') : c'.kind = kind := by
  unfold retag at h
  split at h
  · cases h
    rfl
  · cases h

/-! ## What an operation needs of the arena -/

namespace Scene

section Yields

variable {g : Scene} {α β : Type} {needed : Nat}

/-- **The operation succeeds if the arena can be as large as needed**, and fails for want of that if not. -/
inductive Yields (g : Scene) (needed : Nat) (Q : α → Machine → Prop) :
    EStateM.Result Error Machine α → Prop
  | ok {a : α} {m : Machine} : Q a m → Yields g needed Q (.ok a m)
  | lacking {m : Machine} : g.limit < needed → Yields g needed Q (.error (.stackOverflow needed g.limit) m)

variable {R : α → Machine → Prop} {Q : β → Machine → Prop} {x : Exec α} {f : α → Exec β} {m : Machine}

/-- What comes behind needs nothing more. -/
theorem Yields.bind (hx : g.Yields needed R (x m))
    (hf : ∀ a m', R a m' → ∃ b m'', f a m' = .ok b m'' ∧ Q b m'') : g.Yields needed Q ((x >>= f) m) := by
  generalize hr : x m = r at hx
  cases hx with
  | ok hR =>
    obtain ⟨b, m'', heq, hQ⟩ := hf _ _ hR
    rw [bind_of_ok hr, heq]
    exact .ok hQ
  | lacking hover =>
    rw [bind_of_error hr]
    exact .lacking hover

end Yields

variable {C : Type}

/-- **A new value of the cell is pushed**: there is room for it on the evaluation stack, and in the arena. -/
inductive Pushed (g : Scene) (k : Coding C g.types) (o : Outside) (cursor : Nat) (s : FrameContents C)
    (w : Cell) : EStateM.Result Error Machine Unit → Prop
  | ok {m : Machine} : s.values.length < g.depth →
      g.Mirrors k o [] (cursor + w.kind.size) m { s with values := k.cell w :: s.values } →
      Pushed g k o cursor s w (.ok ⟨⟩ m)
  | full {m : Machine} : g.depth ≤ s.values.length →
      Pushed g k o cursor s w (.error (.evalStackOverflow g.depth) m)
  | lacking {m : Machine} : g.limit < cursor + w.kind.size →
      Pushed g k o cursor s w (.error (.stackOverflow (cursor + w.kind.size) g.limit) m)

/-- **What is computed is pushed**, or the computation fails. -/
inductive Computes (g : Scene) (k : Coding C g.types) (o : Outside) (cursor : Nat) (s : FrameContents C) :
    Except Error Scalar → EStateM.Result Error Machine Unit → Prop
  | pushed {x : Scalar} {r : EStateM.Result Error Machine Unit} :
      g.Pushed k o cursor s (.ofScalar x) r → Computes g k o cursor s (.ok x) r
  | failed {e : Error} {m : Machine} : Computes g k o cursor s (.error e) (.error e m)

/-- The value of a cell is held, at the cost of its bytes. -/
def Placed (g : Scene) (k : Coding C g.types) (o : Outside) (held : List (Value × C)) (cursor : Nat)
    (s : FrameContents C) (w : Cell) (v : Value) (m : Machine) : Prop :=
  g.Mirrors k o ((v, k.cell w) :: held) (cursor + w.kind.size) m s

end Scene

namespace Exec

variable {C : Type} {g : Scene} {k : Coding C g.types} {o : Outside} {held : List (Value × C)}
  {cursor : Nat} {m : Machine} {s : FrameContents C} {cs : List C} {v : Value} {w : Cell}

/-! ## Making values -/

/-- A new value with the bytes of a cell. -/
def place (type : TypeId) (w : Cell) : Exec Value := do
  let a ← carve w.bytes.length
  write a w.bytes
  return .primitive type a

theorem yields_place (h : g.Mirrors k o held cursor m s) (hnear : g.Near cursor) {type : TypeId}
    (hcategory : (g.types.descriptor type).category = .primitive w.kind) :
    g.Yields (cursor + w.kind.size) (g.Placed k o held cursor s w) (place type w m) := by
  unfold place
  rw [w.length_bytes]
  rcases carve_cases h hnear w.kind with ⟨hcarve, hover⟩ | ⟨m', hcarve, -, -, hwrite⟩
  · rw [bind_of_error hcarve]
    exact .lacking hover
  · obtain ⟨hwritten, hmirrors⟩ := hwrite hcategory rfl
    rw [bind_of_ok hcarve, bind_of_ok hwritten]
    exact .ok hmirrors

theorem makePrimitive_eq {type : TypeId} {x : Scalar}
    (hcategory : (m.descriptor type).category = .primitive x.kind) :
    makePrimitive type x m = place type (.ofScalar x) m := by
  have hquery : query (fun m => .ok (m.descriptor type).category) m = .ok (.primitive x.kind) m :=
    query_of_ok (congrArg Except.ok hcategory)
  unfold makePrimitive
  rw [bind_of_ok hquery]
  dsimp only
  rw [x.convert_kind]
  rfl

theorem makeConstant_eq (himage : m.image = g.image) {index : Int32} (hw : g.image.cell? index = some w) :
    makeConstant index m = place (m.types.builtins.primitive w.kind) w m := by
  obtain ⟨constant, hentry, hw⟩ := Option.bind_eq_some_iff.mp hw
  obtain ⟨bytes, hbytes, hw⟩ := Option.bind_eq_some_iff.mp hw
  have hconstant : m.constantAt index = .ok constant := by
    unfold Machine.constantAt
    rw [himage, hentry]
  have hquery : query (fun m => .ok m.image) m = .ok g.image m := query_of_ok (congrArg Except.ok himage)
  unfold makeConstant
  rw [bind_of_ok (query_of_ok hconstant), bind_of_ok hquery]
  cases hkind : constant.kind with
  | string =>
    rw [hkind] at hw
    cases hw
  | primitive kind =>
    rw [hkind] at hw
    dsimp only at hw ⊢
    rw [hbytes]
    unfold Cell.ofBytes? at hw
    split at hw
    · cases hw
      rfl
    · cases hw

theorem yields_makePrimitive (h : g.Mirrors k o held cursor m s) (hnear : g.Near cursor) {type : TypeId}
    {x : Scalar} (hcategory : (m.descriptor type).category = .primitive x.kind) :
    g.Yields (cursor + x.kind.size) (g.Placed k o held cursor s (.ofScalar x)) (makePrimitive type x m) := by
  rw [makePrimitive_eq hcategory]
  rw [h.descriptor] at hcategory
  exact yields_place (w := .ofScalar x) h hnear hcategory

theorem yields_makeScalar (h : g.Mirrors k o held cursor m s) (hnear : g.Near cursor) (x : Scalar) :
    g.Yields (cursor + x.kind.size) (g.Placed k o held cursor s (.ofScalar x)) (makeScalar x m) := by
  have hquery : query (fun m => .ok (m.types.builtins.primitive x.kind)) m =
      .ok (m.types.builtins.primitive x.kind) m := rfl
  unfold makeScalar
  rw [bind_of_ok hquery]
  apply yields_makePrimitive h hnear
  rw [h.descriptor, h.types]
  exact g.category_builtin x.kind

/-- **A load has scratch of its own for a cell**, wherever the cell is. -/
theorem yields_load (h : g.Mirrors k o held cursor m s) (hnear : g.Near cursor) {type : TypeId} {a : Address}
    (hcategory : (g.types.descriptor type).category = .primitive w.kind)
    (hread : ∀ m', g.Mirrors k o held (cursor + w.kind.size) m' s →
      (∀ i < cursor, m'.stack.arena.byte i = m.stack.arena.byte i) → m'.read a w.kind.size = .ok w.bytes) :
    g.Yields (cursor + w.kind.size) (g.Placed k o held cursor s w) (load type a m) := by
  have hmaterialize : m.materialize type a = .ok (.primitive type a) := by
    unfold Machine.materialize
    dsimp only
    rw [h.descriptor, hcategory]
  have hsize : query (fun m => .ok (m.descriptor type).size) m = .ok w.kind.size m := by
    apply query_of_ok
    rw [h.descriptor, g.size_eq hcategory]
  unfold load
  rw [bind_of_ok (query_of_ok hmaterialize)]
  unfold duplicate duplicate.copyOf
  simp only [bind_assoc, pure_bind]
  rw [bind_of_ok hsize]
  rcases carve_cases h hnear w.kind with ⟨hcarve, hover⟩ | ⟨m', hcarve, hmirrors, hbytes, hwrite⟩
  · rw [bind_of_error hcarve]
    exact .lacking hover
  · obtain ⟨hwritten, hmirrors'⟩ := hwrite hcategory rfl
    rw [bind_of_ok hcarve]
    unfold copy
    simp only [bind_assoc]
    rw [bind_of_ok (query_of_ok (hread m' hmirrors hbytes)), bind_of_ok hwritten]
    exact .ok hmirrors'

/-- **A new value is pushed.** -/
theorem pushed_of_yields {x : Exec Value}
    (hx : g.Yields (cursor + w.kind.size) (g.Placed k o held cursor s w) (x m)) :
    g.Pushed k o cursor s w ((x >>= push) m) := by
  generalize hr : x m = r at hx
  cases hx with
  | lacking hover =>
    rw [bind_of_error hr]
    exact .lacking hover
  | @ok v m' hplaced =>
    rw [bind_of_ok hr]
    by_cases hroom : s.values.length < g.depth
    · obtain ⟨m'', hpush, hmirrors⟩ := push_mirrors hplaced List.mem_cons_self hroom
      rw [hpush]
      exact .ok hroom (hmirrors.forget (List.nil_subset _))
    · have hfull := Nat.le_of_not_lt hroom
      rw [push_full hplaced hfull v]
      exact .full hfull

/-- What is left to do after the push changes nothing. -/
theorem pushed_of_yields_then {x : Exec Value} {rest : Exec Unit}
    (hx : g.Yields (cursor + w.kind.size) (g.Placed k o held cursor s w) (x m))
    (hrest : ∀ m', rest m' = .ok ⟨⟩ m') :
    g.Pushed k o cursor s w ((x >>= fun v => push v >>= fun _ => rest) m) := by
  have hpushed := pushed_of_yields hx
  rw [← bind_assoc]
  generalize hr : (x >>= push) m = r at hpushed
  cases hpushed with
  | ok hroom hmirrors =>
    rw [bind_of_ok hr, hrest]
    exact .ok hroom hmirrors
  | full hfull =>
    rw [bind_of_error hr]
    exact .full hfull
  | lacking hover =>
    rw [bind_of_error hr]
    exact .lacking hover

theorem pushed_constant (h : g.Mirrors k o [] cursor m s) (hnear : g.Near cursor) {operand : Int32}
    (hw : g.image.cell? operand = some w) : g.Pushed k o cursor s w (perform ⟨.ldc, operand⟩ m) := by
  have hplace : g.Yields (cursor + w.kind.size) (g.Placed k o [] cursor s w) (makeConstant operand m) := by
    rw [makeConstant_eq h.image hw, h.types]
    exact yields_place h hnear (g.category_builtin w.kind)
  exact pushed_of_yields hplace

/-! ## Arithmetic and comparison -/

theorem releaseValue_operands (left right : TypeId) (a b : Address) (m : Machine) :
    (do
      releaseValue (.primitive left a)
      releaseValue (.primitive right b) : Exec Unit) m = .ok ⟨⟩ m :=
  (bind_of_ok (releaseValue_primitive left a m)).trans (releaseValue_primitive right b m)

section Operands

variable {α : Type} (rest : Value → Value → Exec α)

/-- **Two cells are popped**, the right one first, and held. -/
theorem operands_mirrors (h : g.Mirrors k o [] cursor m s) {l r : Cell}
    (hvalues : s.values = k.cell r :: k.cell l :: cs) :
    ∃ lt la rt ra m', (do
        let right ← pop
        let left ← pop
        rest right left) m = rest (.primitive rt ra) (.primitive lt la) m' ∧
      g.Mirrors k o [(.primitive lt la, k.cell l), (.primitive rt ra, k.cell r)] cursor m'
        { s with values := cs } := by
  obtain ⟨right, m₁, hright, h₁⟩ := pop_mirrors h hvalues
  obtain ⟨left, m₂, hleft, h₂⟩ := pop_mirrors h₁ rfl
  obtain ⟨lt, la, rfl, -⟩ := h₂.read (v := left) (w := l) (by simp)
  obtain ⟨rt, ra, rfl, -⟩ := h₂.read (v := right) (w := r) (by simp)
  refine ⟨lt, la, rt, ra, m₂, ?_, h₂⟩
  rw [bind_of_ok hright, bind_of_ok hleft]

/-- Where there are not two values, there is no operand to pop. -/
theorem operands_of_short (h : g.Mirrors k o [] cursor m s) (hshort : s.values.length < 2) :
    ∃ m', (do
      let right ← pop
      let left ← pop
      rest right left) m = .error .evalStackUnderflow m' := by
  cases hvalues : s.values with
  | nil => exact ⟨m, bind_of_error (pop_of_empty h hvalues)⟩
  | cons c cs =>
    obtain ⟨v, m₁, hpop, h₁⟩ := pop_mirrors h hvalues
    have hempty : cs = [] := by
      rw [hvalues, List.length_cons] at hshort
      exact List.eq_nil_of_length_eq_zero (by omega)
    refine ⟨m₁, ?_⟩
    rw [bind_of_ok hpop, bind_of_error (pop_of_empty h₁ hempty)]

end Operands

variable {l r : Cell}

theorem computes_binary (h : g.Mirrors k o [] cursor m s) (hnear : g.Near cursor) {op : Opcode}
    {operator : Scalar.Operator} (hop : op.operator? = some operator)
    (hvalues : s.values = k.cell r :: k.cell l :: cs) :
    g.Computes k o cursor { s with values := cs }
      ((Scalar.binary operator l.scalar r.scalar).mapError .ofScalar) (binary op m) := by
  unfold binary
  obtain ⟨lt, la, rt, ra, m', heq, h'⟩ := operands_mirrors _ h hvalues
  rw [heq]
  have hleft : m'.readScalar (.primitive lt la) = .ok l.scalar := h'.readScalar (by simp)
  have hright : m'.readScalar (.primitive rt ra) = .ok r.scalar := h'.readScalar (by simp)
  have hrest : g.Computes k o cursor { s with values := cs }
      ((Scalar.binary operator l.scalar r.scalar).mapError .ofScalar)
      ((do
        let a ← query (·.readScalar (.primitive lt la))
        let b ← query (·.readScalar (.primitive rt ra))
        let result ← query fun _ => (Scalar.binary operator a b).mapError .ofScalar
        let v ← makePrimitive lt result
        push v
        releaseValue (.primitive lt la)
        releaseValue (.primitive rt ra)) m') := by
    rw [bind_of_ok (query_of_ok hleft), bind_of_ok (query_of_ok hright)]
    cases hbinary : (Scalar.binary operator l.scalar r.scalar).mapError Error.ofScalar with
    | error e =>
      have hquery : query (fun _ => (.error e : Except Error Scalar)) m' = .error e m' := rfl
      rw [bind_of_error hquery]
      exact .failed
    | ok x =>
      have hquery : query (fun _ => (.ok x : Except Error Scalar)) m' = .ok x m' := rfl
      obtain ⟨type, a, hv, hcategory, -⟩ := h'.read (v := .primitive lt la) (w := l) (by simp)
      cases hv
      rw [← l.kind_scalar, ← Scalar.kind_binary (except_mapError_ok.mp hbinary)] at hcategory
      rw [bind_of_ok hquery]
      exact .pushed (pushed_of_yields_then (yields_makePrimitive h' hnear hcategory)
        (releaseValue_operands lt rt la ra))
  cases op <;> cases hop <;> exact hrest

/-- The instructions of arithmetic. -/
theorem perform_eq_binary {i : Instruction} {operator : Scalar.Operator}
    (hop : i.op.operator? = some operator) : perform i = binary i.op := by
  obtain ⟨op, operand⟩ := i
  cases op <;> first | rfl | cases hop

theorem computes_compare (h : g.Mirrors k o [] cursor m s) (hnear : g.Near cursor) (op : Opcode)
    (c : Scalar.Comparison) (hvalues : s.values = k.cell r :: k.cell l :: cs) :
    g.Computes k o cursor { s with values := cs }
      (((Scalar.compare c l.scalar r.scalar).mapError .ofScalar).map .bool) (compare op c m) := by
  unfold compare
  obtain ⟨lt, la, rt, ra, m', heq, h'⟩ := operands_mirrors _ h hvalues
  rw [heq]
  have hleft : m'.readScalar (.primitive lt la) = .ok l.scalar := h'.readScalar (by simp)
  have hright : m'.readScalar (.primitive rt ra) = .ok r.scalar := h'.readScalar (by simp)
  have hholds : m'.compareValues op c (.primitive lt la) (.primitive rt ra) =
      (Scalar.compare c l.scalar r.scalar).mapError .ofScalar := by
    unfold Machine.compareValues
    dsimp only
    rw [hleft, hright]
    rfl
  cases hcompare : (Scalar.compare c l.scalar r.scalar).mapError Error.ofScalar with
  | error e =>
    rw [bind_of_error (query_of_error (hholds.trans hcompare))]
    exact .failed
  | ok holds =>
    rw [bind_of_ok (query_of_ok (hholds.trans hcompare))]
    exact .pushed (pushed_of_yields_then (yields_makeScalar h' hnear (.bool holds))
      (releaseValue_operands lt rt la ra))

theorem computes_negate (h : g.Mirrors k o [] cursor m s) (hnear : g.Near cursor) (operand : Int32)
    (hvalues : s.values = k.cell w :: cs) :
    g.Computes k o cursor { s with values := cs } (w.scalar.negate.mapError .ofScalar)
      (perform ⟨.neg, operand⟩ m) := by
  unfold perform
  obtain ⟨v, m', hpop, h'⟩ := pop_mirrors h hvalues
  obtain ⟨type, a, rfl, hcategory, -⟩ := h'.read (v := v) (w := w) (by simp)
  dsimp only
  rw [bind_of_ok hpop]
  dsimp only
  rw [bind_of_ok (query_of_ok (h'.readScalar (w := w) (by simp)))]
  cases hnegate : w.scalar.negate.mapError Error.ofScalar with
  | error e =>
    have hquery : query (fun _ => (.error e : Except Error Scalar)) m' = .error e m' := rfl
    rw [bind_of_error hquery]
    exact .failed
  | ok x =>
    have hquery : query (fun _ => (.ok x : Except Error Scalar)) m' = .ok x m' := rfl
    rw [← w.kind_scalar, ← Scalar.kind_negate (except_mapError_ok.mp hnegate)] at hcategory
    rw [bind_of_ok hquery]
    exact .pushed (pushed_of_yields_then (yields_makePrimitive h' hnear hcategory) (releaseValue_primitive type a))

/-! ## Slots -/

variable (bank : Cells.Bank) {index : Int32} {old : Cell}

theorem pushed_loadSlot (h : g.Mirrors k o [] cursor m s) (hnear : g.Near cursor)
    (hslot : s.slot? bank index = some (k.cell w)) :
    g.Pushed k o cursor s w (loadSlot (bank.choose index) m) := by
  obtain ⟨type, place, hfound, hsuits, hholds, -, hend, -⟩ := h.slot bank hslot
  rw [k.bytes_cell] at hholds
  rw [k.size_cell] at hend
  have hload : g.Yields (cursor + w.kind.size) (g.Placed k o [] cursor s w)
      (load type (.stack place) m) := by
    refine yields_load h hnear (k.suits_cell.mp hsuits) fun m' h' hbytes => ?_
    refine h'.read_holds (hholds.congr fun i _ hi => hbytes i ?_) (Nat.le_trans hend (Nat.le_add_right _ _))
    rw [w.length_bytes] at hi
    omega
  unfold loadSlot
  rw [bind_of_ok (query_of_ok hfound)]
  exact pushed_of_yields hload

/-- What a store of a cell writes to a slot of a kind, if the cell fits. -/
theorem slotBytes_eq (h : g.Mirrors k o held cursor m s) {type : TypeId} {kind : Kind}
    (hcategory : (g.types.descriptor type).category = .primitive kind) (hinline : v.isAddress = false)
    (hbytes : m.valueBytes v = .ok w.bytes) : m.slotBytes type v = (w.retag kind).map Cell.bytes := by
  have hholds : (m.descriptor type).category.holdsAddress = v.isAddress := by
    rw [h.descriptor, hcategory, hinline]
    rfl
  unfold Machine.slotBytes Cell.retag
  dsimp only
  rw [if_neg (not_not_intro hholds), hbytes]
  show (if w.bytes.length ≠ (m.descriptor type).size then _ else _) = _
  rw [h.descriptor, g.size_eq hcategory]
  by_cases hlength : w.bytes.length = kind.size
  · rw [if_neg (not_not_intro hlength), dif_pos hlength]
    rfl
  · rw [if_pos hlength, dif_neg hlength]
    rfl

/-- A slot of a primitive type refers to nothing. -/
theorem referencesIn_primitive (h : g.Mirrors k o held cursor m s) {type : TypeId} {kind : Kind}
    (hcategory : (g.types.descriptor type).category = .primitive kind) (a : Address) :
    m.referencesIn a type = .ok [] := by
  unfold Machine.referencesIn Machine.nesting Machine.referencesAt
  dsimp only
  rw [h.descriptor, hcategory]

/-- **A store of a cell to a slot with a cell**: the bytes stay, and the slot keeps its kind. -/
theorem store_cell_cases (h : g.Mirrors k o held cursor m s) (hslot : s.slot? bank index = some (k.cell old))
    (hinline : v.isAddress = false) (hbytes : m.valueBytes v = .ok w.bytes) :
    ∃ type place, m.slot (bank.choose index) = .ok ⟨type, .stack place⟩ ∧
      m.referencesIn (.stack place) type = .ok [] ∧ g.base ≤ place ∧
      ((∃ e, w.retag old.kind = .error e ∧ store (.stack place) type v m = .error e m) ∨
        ∃ w', w.retag old.kind = .ok w' ∧
          store (.stack place) type v m = .ok ⟨⟩ (m.written place w'.bytes) ∧
          g.Mirrors k o held cursor (m.written place w'.bytes) (s.setSlot index (k.cell w') bank)) := by
  obtain ⟨type, place, hfound, hsuits, -, hbase, -, hwrite⟩ := h.slot bank hslot
  have hcategory := k.suits_cell.mp hsuits
  have hslotBytes := slotBytes_eq h hcategory hinline hbytes
  refine ⟨type, place, hfound, referencesIn_primitive h hcategory _, hbase, ?_⟩
  unfold store
  cases hretag : w.retag old.kind with
  | error e =>
    rw [hretag] at hslotBytes
    exact .inl ⟨e, rfl, bind_of_error (query_of_error hslotBytes)⟩
  | ok w' =>
    rw [hretag] at hslotBytes
    have hsuits' : k.Suits type (k.cell w') := by
      rw [k.suits_cell, Cell.kind_retag hretag]
      exact hcategory
    obtain ⟨hwritten, hmirrors⟩ := hwrite _ hsuits'
    rw [k.bytes_cell] at hwritten hmirrors
    exact .inr ⟨w', rfl, (bind_of_ok (query_of_ok hslotBytes)).trans hwritten, hmirrors⟩

/-- **A cell is popped to a slot with a cell.** -/
theorem storeSlot_cell_cases (h : g.Mirrors k o [] cursor m s) (hvalues : s.values = k.cell w :: cs)
    (hslot : s.slot? bank index = some (k.cell old)) :
    (∃ e m', w.retag old.kind = .error e ∧ storeSlot (bank.choose index) m = .error e m') ∨
      ∃ w' m', w.retag old.kind = .ok w' ∧ storeSlot (bank.choose index) m = .ok ⟨⟩ m' ∧
        g.Mirrors k o [] cursor m' ({ s with values := cs }.setSlot index (k.cell w') bank) := by
  obtain ⟨v, m₁, hpop, h₁⟩ := pop_mirrors h hvalues
  obtain ⟨hinline, hbytes⟩ := h₁.valueBytes (v := v) (w := w) (by simp)
  have hslot₁ : ({ s with values := cs } : FrameContents C).slot? bank index = some (k.cell old) := by
    cases bank <;> exact hslot
  obtain ⟨type, place, hfound, hnone, -, hstored⟩ := store_cell_cases bank h₁ hslot₁ hinline hbytes
  unfold storeSlot assignSlot assign
  rw [bind_of_ok hpop]
  simp only [bind_assoc]
  rw [bind_of_ok (query_of_ok hfound), bind_of_ok (query_of_ok hnone)]
  rcases hstored with ⟨e, hretag, hstore⟩ | ⟨w', hretag, hstore, hmirrors⟩
  · exact .inl ⟨e, m₁, hretag, bind_of_error hstore⟩
  · refine .inr ⟨w', _, hretag, ?_, hmirrors.forget (List.nil_subset _)⟩
    obtain ⟨vt, va, rfl, -⟩ := h₁.read (v := v) (w := w) (by simp)
    rw [bind_of_ok hstore, bind_of_ok (release_nil _), releaseValue_primitive]

/-! ## Branches and results -/

theorem branchIf_mirrors (h : g.Mirrors k o [] cursor m s) (hvalues : s.values = k.cell w :: cs)
    {operand : Int32} {length target : Nat} (htarget : branchTarget operand length = .ok target)
    (wanted : Bool) :
    ∃ m', branchIf wanted operand length m =
        .ok (if w.scalar.isTruthy = wanted then .jump target else .next) m' ∧
      g.Mirrors k o [] cursor m' { s with values := cs } := by
  obtain ⟨v, m', hpop, h'⟩ := pop_mirrors h hvalues
  have hscalar := h'.readScalar (v := v) (w := w) (by simp)
  obtain ⟨type, a, rfl, -⟩ := h'.read (v := v) (w := w) (by simp)
  have htruthy : m'.isTruthy (.primitive type a) = .ok w.scalar.isTruthy := by
    unfold Machine.isTruthy
    dsimp only
    rw [hscalar]
    rfl
  have hquery : query (fun _ => branchTarget operand length) m = .ok target m := query_of_ok htarget
  refine ⟨m', ?_, h'.forget (List.nil_subset _)⟩
  unfold branchIf
  rw [bind_of_ok hquery, bind_of_ok hpop, bind_of_ok (query_of_ok htruthy),
    bind_of_ok (releaseValue_primitive type a m')]
  rfl

theorem currentFrame_depth (h : g.Mirrors k o held cursor m s) :
    ∃ f, currentFrame m = .ok f m ∧ f.depth = s.values.length := by
  obtain ⟨f, hframes, hf⟩ := h.frame
  refine ⟨f, query_of_ok ?_, hf.values.length_eq⟩
  unfold FrameStack.current
  rw [hframes]

/-- **The cell that is alone on the evaluation stack is the result**, and its bytes are saved. -/
theorem result_mirrors (h : g.Mirrors k o [] cursor m s) (hvalues : s.values = [k.cell w]) {method : Method}
    (hreturns : m.returnsValue method = .ok true) :
    ∃ type a m', (takeResult method >>= capture) m = .ok (some (.primitive type a, w.bytes)) m' ∧
      g.Mirrors k o [] cursor m' { s with values := [] } ∧
      (g.types.descriptor type).category = .primitive w.kind := by
  obtain ⟨f, hcurrent, hdepth⟩ := currentFrame_depth h
  rw [hvalues] at hdepth
  obtain ⟨v, m', hpop, h'⟩ := pop_mirrors h hvalues
  obtain ⟨hinline, hbytes⟩ := h'.valueBytes (v := v) (w := w) (by simp)
  obtain ⟨type, a, rfl, hcategory, -⟩ := h'.read (v := v) (w := w) (by simp)
  rw [h'.descriptor] at hcategory
  have htake : takeResult method m = .ok (some (.primitive type a)) m' := by
    unfold takeResult
    rw [bind_of_ok hcurrent, bind_of_ok (query_of_ok hreturns), hdepth]
    exact map_of_ok some hpop
  refine ⟨type, a, m', ?_, h'.forget (List.nil_subset _), hcategory⟩
  rw [bind_of_ok htake]
  exact bind_of_ok (query_of_ok hbytes)

end Exec

end ManagedVm
