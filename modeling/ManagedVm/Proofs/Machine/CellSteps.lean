import ManagedVm.Proofs.Machine.FrameSteps

/-!
# Instructions on cells

Each instruction of a body that computes with primitive values does to the innermost frame what its
operation does to the cells (`Exec.tracks_step`): it succeeds or fails as the operation does, and
afterwards the frame mirrors the state that the operation leaves. The one failure that no operation has
is that of an arena that cannot hold the result.
-/

namespace ManagedVm

/-! ## Frames of cells -/

/-- What a state of cells says of a frame. -/
def Cells.State.contents (s : State) : FrameContents Cell := ⟨s.values, s.locals, s.arguments⟩

namespace Cells.State

variable {s : State} {bank : Bank} {index : Int32}

theorem slot_eq_ok {c : Cell} : s.slot bank index = .ok c ↔ s.contents.slot? bank index = some c := by
  have hslots : s.contents.slots bank = s.slots bank := by cases bank <;> rfl
  unfold slot FrameContents.slot?
  rw [hslots]
  cases (if index < 0 then none else (s.slots bank)[index.toInt.toNat]?) with
  | none => simp
  | some c' => simp

theorem slot_of_none (h : s.contents.slot? bank index = none) :
    s.slot bank index = .error (bank.unknown index) := by
  have hslots : s.contents.slots bank = s.slots bank := by cases bank <;> rfl
  unfold FrameContents.slot? at h
  rw [hslots] at h
  unfold slot
  rw [h]

theorem contents_set (c : Cell) : (s.setSlots bank ((s.slots bank).set index.toInt.toNat c)).contents =
    s.contents.setSlot index c bank := by
  cases bank <;> rfl

end Cells.State

namespace Scene

variable (g : Scene)

/-- **Contents that are cells**, all of them. -/
abbrev cells : Coding Cell g.types where
  bytes := Cell.bytes
  Suits type c := (g.types.descriptor type).category = .primitive c.kind
  Direct _ _ := False
  cell c := c
  bytes_ne_nil c := List.length_pos_iff.mp (c.length_bytes ▸ c.kind.size_pos)
  size_eq {_ c} h := (g.size_eq h).trans c.length_bytes.symm
  bytes_cell _ := rfl
  suits_cell := Iff.rfl
  cell_injective := Function.injective_id
  not_direct_cell := id

/-- The machine mirrors a state, with room for one more value handed out at most. -/
def Reaches (o : Outside) (cursor : Nat) (m : Machine) (s : Cells.State) : Prop :=
  ∃ cursor' ≤ cursor + 8, g.Mirrors g.cells o [] cursor' m s.contents

/-- The scratch that is needed does not fit in the arena. -/
def Overflows (room : Nat) (e : Error) : Prop :=
  ∃ needed, e = .stackOverflow needed g.limit ∧ g.limit < needed ∧ needed ≤ room

end Scene

namespace Exec

/-! ## Operations beside operations on cells -/

section Tracks

variable {α β γ δ : Type} {O : Error → Prop} {R : α → Machine → β → Prop} {S : γ → Machine → δ → Prop}

/-- **An outcome tracks another one**: both succeed and are related, or both fail alike. A failure of
the machine may be excused. -/
inductive Tracks (O : Error → Prop) (R : α → Machine → β → Prop) :
    EStateM.Result Error Machine α → Except Error β → Prop
  | ok {a : α} {m : Machine} {b : β} : R a m b → Tracks O R (.ok a m) (.ok b)
  | error {e : Error} {m : Machine} : Tracks O R (.error e m) (.error e)
  | excused {e : Error} {m : Machine} {t : Except Error β} : O e → Tracks O R (.error e m) t

namespace Tracks

variable {x : Exec α} {f : α → Exec γ} {m : Machine}

theorem bind {t : Except Error β} {k : β → Except Error δ} (hx : Tracks O R (x m) t)
    (hf : ∀ a m' b, R a m' b → Tracks O S (f a m') (k b)) : Tracks O S ((x >>= f) m) (t >>= k) := by
  generalize hr : x m = r at hx
  cases hx with
  | ok hR =>
    rw [bind_of_ok hr]
    exact hf _ _ _ hR
  | error =>
    rw [bind_of_error hr]
    exact .error
  | excused hO =>
    rw [bind_of_error hr]
    exact .excused hO

/-- The same question on both sides. -/
theorem query {q : Machine → Except Error β} {t : Except Error β} (h : q m = t) :
    Tracks O (fun a m' b => a = b ∧ m' = m ∧ t = .ok b) (Exec.query q m) t := by
  cases t with
  | ok b =>
    rw [query_of_ok h]
    exact .ok ⟨rfl, rfl, rfl⟩
  | error e =>
    rw [query_of_error h]
    exact .error

end Tracks

end Tracks

variable {g : Scene} {o : Outside} {cursor : Nat} {m : Machine} {s : Cells.State} {c : Cell}

/-- Operations that lead on to a state within the next eight bytes of scratch. -/
abbrev TracksCells (g : Scene) (o : Outside) (cursor : Nat) :
    EStateM.Result Error Machine Unit → Except Error Cells.State → Prop :=
  Tracks (g.Overflows (cursor + 8)) fun _ m s => g.Reaches o cursor m s

theorem tracks_of_pushed {r : EStateM.Result Error Machine Unit}
    (h : g.Pushed g.cells o cursor s.contents c r) : TracksCells g o cursor r (s.push g.depth c) := by
  have hle := Nat.add_le_add_left c.kind.size_le cursor
  unfold Cells.State.push
  cases h with
  | ok hroom hmirrors =>
    have hroom : ¬ g.depth ≤ s.values.length := Nat.not_le_of_lt hroom
    rw [if_neg hroom]
    exact .ok ⟨_, hle, hmirrors⟩
  | full hfull =>
    have hfull : g.depth ≤ s.values.length := hfull
    rw [if_pos hfull]
    exact .error
  | lacking hover => exact .excused ⟨_, rfl, hover, hle⟩

theorem tracks_of_computes {result : Except Error Scalar} {r : EStateM.Result Error Machine Unit}
    (h : g.Computes g.cells o cursor s.contents result r) :
    TracksCells g o cursor r (result >>= fun x => s.push g.depth (.ofScalar x)) := by
  cases h with
  | pushed hpushed => exact tracks_of_pushed hpushed
  | failed => exact .error

/-! ## Arithmetic and comparison -/

/-- Either there are two cells to pop, or both sides fail for want of them. -/
theorem operands_cases (s : Cells.State) :
    (s.contents.values.length < 2 ∧ ∀ {α : Type} (k : Cell → Cell → Cells.State → Except Error α),
      s.operands k = .error .evalStackUnderflow) ∨
    ∃ r l cs, s.contents.values = r :: l :: cs ∧
      ∀ {α : Type} (k : Cell → Cell → Cells.State → Except Error α),
        s.operands k = k l r { s with values := cs } := by
  obtain ⟨pc, values, locals, arguments⟩ := s
  match values with
  | [] => exact .inl ⟨Nat.zero_lt_two, fun _ => rfl⟩
  | [c] => exact .inl ⟨Nat.one_lt_two, fun _ => rfl⟩
  | r :: l :: cs => exact .inr ⟨r, l, cs, rfl, fun _ => rfl⟩

theorem tracks_binary (h : g.Mirrors g.cells o [] cursor m s.contents) (hnear : g.Near cursor)
    {i : Instruction} {operator : Scalar.Operator} (hop : i.op.operator? = some operator) :
    TracksCells g o cursor (perform i m) (s.binary g.depth operator) := by
  unfold Cells.State.binary
  rw [perform_eq_binary hop]
  rcases operands_cases s with ⟨hshort, hoperands⟩ | ⟨r, l, cs, hvalues, hoperands⟩
  · rw [hoperands]
    obtain ⟨m', hunderflow⟩ := operands_of_short _ h hshort
    unfold binary
    rw [hunderflow]
    exact .error
  · rw [hoperands]
    exact tracks_of_computes (computes_binary h hnear hop hvalues)

theorem tracks_compare (h : g.Mirrors g.cells o [] cursor m s.contents) (hnear : g.Near cursor) (op : Opcode)
    (comparison : Scalar.Comparison) :
    TracksCells g o cursor (compare op comparison m) (s.compare g.depth comparison) := by
  unfold Cells.State.compare
  rcases operands_cases s with ⟨hshort, hoperands⟩ | ⟨r, l, cs, hvalues, hoperands⟩
  · rw [hoperands]
    obtain ⟨m', hunderflow⟩ := operands_of_short _ h hshort
    unfold compare
    rw [hunderflow]
    exact .error
  · rw [hoperands]
    have hcomputes := tracks_of_computes (s := { s with values := cs })
      (computes_compare h hnear op comparison hvalues)
    cases hcompare : (Scalar.compare comparison l.scalar r.scalar).mapError Error.ofScalar with
    | error e =>
      rw [hcompare] at hcomputes
      exact hcomputes
    | ok holds =>
      rw [hcompare] at hcomputes
      exact hcomputes

/-- Either there is a cell to pop, or both sides fail for want of it. -/
theorem pop_cases (s : Cells.State) :
    (s.contents.values = [] ∧ s.pop = .error .evalStackUnderflow) ∨
      ∃ c cs, s.contents.values = c :: cs ∧ s.pop = .ok (c, { s with values := cs }) := by
  obtain ⟨pc, values, locals, arguments⟩ := s
  cases values with
  | nil => exact .inl ⟨rfl, rfl⟩
  | cons c cs => exact .inr ⟨c, cs, rfl, rfl⟩

theorem tracks_negate (h : g.Mirrors g.cells o [] cursor m s.contents) (hnear : g.Near cursor)
    (operand : Int32) : TracksCells g o cursor (perform ⟨.neg, operand⟩ m) (s.negate g.depth) := by
  unfold Cells.State.negate
  rcases pop_cases s with ⟨hvalues, hpop⟩ | ⟨c, cs, hvalues, hpop⟩
  · have hunderflow : perform ⟨.neg, operand⟩ m = .error .evalStackUnderflow m :=
      bind_of_error (pop_of_empty h hvalues)
    rw [hpop, hunderflow]
    exact .error
  · rw [hpop]
    exact tracks_of_computes (s := { s with values := cs }) (computes_negate h hnear operand hvalues)

/-! ## Slots -/

theorem tracks_loadSlot (h : g.Mirrors g.cells o [] cursor m s.contents) (hnear : g.Near cursor)
    (bank : Cells.Bank) (index : Int32) :
    TracksCells g o cursor (loadSlot (bank.choose index) m) (s.loadSlot g.depth bank index) := by
  unfold Cells.State.loadSlot
  cases hslot : s.contents.slot? bank index with
  | none =>
    have hunknown : loadSlot (bank.choose index) m = .error (bank.unknown index) m :=
      bind_of_error (query_of_error (h.slot_of_none hslot))
    rw [hunknown, Cells.State.slot_of_none hslot]
    exact .error
  | some c =>
    rw [Cells.State.slot_eq_ok.mpr hslot]
    exact tracks_of_pushed (pushed_loadSlot bank h hnear hslot)

/-- **A store to a slot**: the bytes stay, and the slot keeps its kind. -/
theorem tracks_store {O : Error → Prop} {held : List (Value × Cell)}
    (h : g.Mirrors g.cells o held cursor m s.contents) (bank : Cells.Bank) (index : Int32) {v : Value}
    (hinline : v.isAddress = false) (hbytes : m.valueBytes v = .ok c.bytes) :
    Tracks O (fun _ m' s' => g.Mirrors g.cells o held cursor m' s'.contents ∧
        ∃ place data, g.base ≤ place ∧ m' = m.written place data)
      ((do
        let b ← query (·.slot (bank.choose index))
        store b.address b.type v) m) (s.assign bank index c) := by
  unfold Cells.State.assign
  cases hslot : s.contents.slot? bank index with
  | none =>
    rw [bind_of_error (query_of_error (h.slot_of_none hslot)), Cells.State.slot_of_none hslot]
    exact .error
  | some old =>
    obtain ⟨type, place, hfound, -, hbase, hstored⟩ := store_cell_cases bank h hslot hinline hbytes
    rw [bind_of_ok (query_of_ok hfound), Cells.State.slot_eq_ok.mpr hslot]
    show Tracks _ _ (store (.stack place) type v m) (c.retag old.kind >>= fun c => _)
    rcases hstored with ⟨e, hretag, hstore⟩ | ⟨c', hretag, hstore, hmirrors⟩
    · rw [hretag, hstore]
      exact .error
    · rw [hretag, hstore]
      refine .ok ⟨?_, place, _, hbase, rfl⟩
      rw [Cells.State.contents_set]
      exact hmirrors

theorem tracks_storeSlot (h : g.Mirrors g.cells o [] cursor m s.contents) (bank : Cells.Bank)
    (index : Int32) : TracksCells g o cursor (storeSlot (bank.choose index) m) (s.storeSlot bank index) := by
  unfold Cells.State.storeSlot
  rcases pop_cases s with ⟨hvalues, hpop⟩ | ⟨c, cs, hvalues, hpop⟩
  · have hunderflow : storeSlot (bank.choose index) m = .error .evalStackUnderflow m :=
      bind_of_error (pop_of_empty h hvalues)
    rw [hpop, hunderflow]
    exact .error
  · rw [hpop]
    show TracksCells g o cursor _ (({ s with values := cs } : Cells.State).assign bank index c)
    unfold Cells.State.assign
    have hsame : ({ s with values := cs } : Cells.State).contents.slot? bank index =
        s.contents.slot? bank index := by cases bank <;> rfl
    cases hslot : s.contents.slot? bank index with
    | none =>
      obtain ⟨v, m₁, hpopped, h₁⟩ := pop_mirrors h hvalues
      have hunknown : assignSlot (bank.choose index) v m₁ = .error (bank.unknown index) m₁ :=
        bind_of_error (query_of_error (h₁.slot_of_none (hsame.trans hslot)))
      unfold storeSlot
      rw [bind_of_ok hpopped, bind_of_error hunknown, Cells.State.slot_of_none (hsame.trans hslot)]
      exact .error
    | some old =>
      rw [Cells.State.slot_eq_ok.mpr (hsame.trans hslot)]
      show TracksCells g o cursor _ (c.retag old.kind >>= fun c => _)
      rcases storeSlot_cell_cases bank h hvalues hslot with ⟨e, m', hretag, hstore⟩ |
          ⟨c', m', hretag, hstore, hmirrors⟩
      · rw [hretag, hstore]
        exact .error
      · rw [hretag, hstore]
        refine .ok ⟨cursor, Nat.le_add_right _ _, ?_⟩
        rw [Cells.State.contents_set]
        exact hmirrors

/-! ## Every instruction -/

/-- How a body goes on, in a machine that mirrors the state. -/
def Follows (g : Scene) (o : Outside) (cursor : Nat) (flow : Flow) (m : Machine) (b : Flow × Cells.State) :
    Prop :=
  flow = b.1 ∧ g.Reaches o cursor m b.2

theorem tracks_branchIf {O : Error → Prop} (h : g.Mirrors g.cells o [] cursor m s.contents) (wanted : Bool)
    (operand : Int32) (length : Nat) :
    Tracks O (Follows g o cursor) (branchIf wanted operand length m)
      (s.branchIf wanted operand length) := by
  unfold Cells.State.branchIf
  cases htarget : branchTarget operand length with
  | error e =>
    have hfails : branchIf wanted operand length m = .error e m := bind_of_error (query_of_error htarget)
    rw [hfails]
    exact .error
  | ok target =>
    show Tracks O (Follows g o cursor) _ (s.pop >>= fun popped => _)
    rcases pop_cases s with ⟨hvalues, hpop⟩ | ⟨c, cs, hvalues, hpop⟩
    · have hquery : query (fun _ => branchTarget operand length) m = .ok target m := query_of_ok htarget
      unfold branchIf
      rw [bind_of_ok hquery, bind_of_error (pop_of_empty h hvalues), hpop]
      exact .error
    · obtain ⟨m', hbranch, h'⟩ := branchIf_mirrors h hvalues htarget wanted
      rw [hbranch, hpop]
      exact .ok ⟨rfl, cursor, Nat.le_add_right _ _, h'⟩

/-- An instruction that is always followed by the next one. -/
theorem Tracks.next {x : Exec Unit} {t : Except Error Cells.State} (hx : TracksCells g o cursor (x m) t) :
    Tracks (g.Overflows (cursor + 8)) (Follows g o cursor) ((x >>= fun _ => pure Flow.next) m)
      (t >>= fun s => pure (Flow.next, s)) :=
  hx.bind fun _ _ _ hreaches => .ok ⟨rfl, hreaches⟩

/-- **An instruction does what its operation does.** -/
theorem tracks_step (h : g.Mirrors g.cells o [] cursor m s.contents) (hnear : g.Near cursor)
    {p : Cells.Program} (hdepth : p.depth = g.depth) {i : Instruction} {operation : Cells.Operation}
    (hi : g.image.operation? i = some operation) :
    Tracks (g.Overflows (cursor + 8)) (Follows g o cursor) (step p.code.length i m) (p.act s operation) := by
  have hstay : g.Reaches o cursor m s := ⟨cursor, Nat.le_add_right _ _, h⟩
  obtain ⟨op, operand⟩ := i
  unfold Cells.Program.act
  cases op
  case nop =>
    cases hi
    exact .ok ⟨rfl, hstay⟩
  case ret =>
    cases hi
    exact .ok ⟨rfl, hstay⟩
  case br =>
    cases hi
    refine (Tracks.query rfl).bind fun target m' target' htarget => ?_
    obtain ⟨rfl, rfl, -⟩ := htarget
    exact .ok ⟨rfl, hstay⟩
  case brtrue =>
    cases hi
    exact tracks_branchIf h true operand _
  case brfalse =>
    cases hi
    exact tracks_branchIf h false operand _
  case neg =>
    cases hi
    rw [hdepth]
    exact (tracks_negate h hnear operand).next
  case ldc =>
    obtain ⟨c, hc, rfl⟩ := Option.map_eq_some_iff.mp hi
    rw [hdepth]
    exact (tracks_of_pushed (pushed_constant h hnear hc)).next
  case ldloc =>
    cases hi
    rw [hdepth]
    exact (tracks_loadSlot h hnear .locals operand).next
  case ldarg =>
    cases hi
    rw [hdepth]
    exact (tracks_loadSlot h hnear .arguments operand).next
  case stloc =>
    cases hi
    exact (tracks_storeSlot h .locals operand).next
  case starg =>
    cases hi
    exact (tracks_storeSlot h .arguments operand).next
  case add | sub | mul | div | mod | or | and | xor | shl | shr =>
    cases hi
    rw [hdepth]
    apply Tracks.next
    apply tracks_binary h hnear
    rfl
  case ceq | cne | cgt | cge | clt | cle =>
    cases hi
    rw [hdepth]
    exact (tracks_compare h hnear _ _).next
  all_goals cases hi

end Exec

end ManagedVm
