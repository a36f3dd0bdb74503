import Mathlib.Data.Set.Finite.Basic
import ManagedVm.Proofs.Arena
import ManagedVm.Proofs.Heap.Placement
import ManagedVm.Proofs.Machine.Exec

/-!
# The heap as a map

To its users the heap is a finite map: it takes the address of each live object to its header and its
bytes. Regions, holes and the arena are gone from this view. An allocation adds an entry of zeros at
an address that was free, freeing removes one, and writing inside an object changes bytes of that
object. `Store.Step` says which answers and which changes of the map a call may bring; the heap brings
no others, whatever led to it (`step_view`), and so every run of calls is a run on maps
(`refines_of_traced`).

Writes are checked against the top only, not against the objects, so this holds for users that write
inside objects (`Call.Confined`).
-/

namespace ManagedVm.Heap

/-! ## Maps -/

/-- What a live object is to its users. -/
structure Entry where
  header : Object
  bytes : List UInt8
  deriving DecidableEq

/-- The entry with bytes overwritten from a place on. -/
def Entry.put (e : Entry) (place : Nat) (data : List UInt8) : Entry :=
  { e with bytes := e.bytes.take place ++ data ++ e.bytes.drop (place + data.length) }

/-- A map from addresses to entries. -/
abbrev Store := Address → Option Entry

/-- What a call returns when it succeeds. -/
inductive Answer
  | address (a : Address)
  | header (o : Object)
  /-- The bytes that were lent. -/
  | bytes (lent : List UInt8)
  | done
  deriving DecidableEq

/-- What a call returns. -/
def Call.answer [Build] (h : Heap) : Call → Except Error Answer
  | allocate size type kind => (h.allocate size type kind).map fun p => .address p.1
  | free a => (h.free a).map fun p => .header p.1
  | write a data => (h.write a data).map fun _ => .done
  | change a length _ => (h.bytes a length).map .bytes

namespace Store

/-- No entry takes up a byte of the region. -/
def Vacant (s : Store) (start length : Nat) : Prop :=
  ∀ x, start ≤ x → x < start + length →
    ∀ a e, s a = some e → ¬ (e.header.start ≤ x ∧ x < e.header.start + reserved e.header.size)

/-- The bytes from an address on lie in one entry, from a place on. -/
def Inside (s : Store) (a : Address) (length : Nat) : Prop :=
  ∃ base e place, s base = some e ∧ a = base.add place ∧ place + length ≤ e.header.size

/-- How an access may fail. The program may stop instead if the end of the bytes is no word, or if there
are none. -/
def accessErrors (a : Address) (length : Nat) : Set Error :=
  {e | e = .invalidRange a length ∨
    e = .panic ∧ (UInt64.size ≤ a.offset + length ∨ length = 0)}

/-- **When a call may fail**, and how: an allocation if no region of its length is vacant below the
limit, freeing if there is no entry, and an access if its bytes do not lie in an entry. The program
stops at an allocation for which no region ends at a word. -/
inductive Refuses (limit : Nat) (s : Store) : Call → Error → Prop
  | full {size : Nat} {type : TypeId} {kind : ObjectKind} :
      (∀ start, alignment ≤ start → s.Vacant start (reserved size) → limit < start + reserved size) →
        Refuses limit s (.allocate size type kind) (.outOfMemory size limit)
  | overflow {size : Nat} {type : TypeId} {kind : ObjectKind} :
      (∀ start, alignment ≤ start → s.Vacant start (reserved size) →
        UInt64.size ≤ start + reserved size) →
        Refuses limit s (.allocate size type kind) .panic
  | absent {a : Address} {e : Error} :
      s a = none → e = .notAllocated a ∨ e = .useAfterFree a → Refuses limit s (.free a) e
  | write {a : Address} {data : List UInt8} {e : Error} :
      ¬ s.Inside a data.length → e ∈ accessErrors a data.length →
        Refuses limit s (.write a data) e
  | change {a : Address} {length : Nat} {new : Nat → UInt8 → UInt8} {e : Error} :
      ¬ s.Inside a length → e ∈ accessErrors a length → Refuses limit s (.change a length new) e

/-- **What a call does to a map**, and what it returns. -/
inductive Step (limit : Nat) (s : Store) : Call → Except Error Answer → Store → Prop
  /-- A new entry of zeros, where there was none. -/
  | allocate {size : Nat} {type : TypeId} {kind : ObjectKind} {a : Address} :
      s a = none →
        Step limit s (.allocate size type kind) (.ok (.address a))
          (Function.update s a (some ⟨⟨a, type, size, kind⟩, List.replicate size 0⟩))
  | free {a : Address} {e : Entry} :
      s a = some e → Step limit s (.free a) (.ok (.header e.header)) (Function.update s a none)
  | write {base : Address} {e : Entry} {place : Nat} {data : List UInt8} :
      s base = some e → place + data.length ≤ e.header.size →
        Step limit s (.write (base.add place) data) (.ok .done)
          (Function.update s base (some (e.put place data)))
  | change {base : Address} {e : Entry} {place length : Nat} {new : Nat → UInt8 → UInt8}
      {lent : List UInt8} :
      s base = some e → place + length ≤ e.header.size →
        lent = (e.bytes.drop place).take length →
        Step limit s (.change (base.add place) length new) (.ok (.bytes lent))
          (Function.update s base (some (e.put place (lent.mapIdx new))))
  /-- A call that fails changes nothing. -/
  | fail {c : Call} {e : Error} : Refuses limit s c e → Step limit s c (.error e) s

/-- A run of calls on maps, from the empty one, with the answers. -/
inductive Traced (limit : Nat) : List (Call × Except Error Answer) → Store → Prop
  | empty : Traced limit [] fun _ => none
  | called {trace : List (Call × Except Error Answer)} {s s' : Store} {c : Call}
      {answer : Except Error Answer} :
      Traced limit trace s → Step limit s c answer s' → Traced limit (trace ++ [(c, answer)]) s'

end Store

/-! ## The view of a heap -/

/-- **The heap as a map.** -/
def view (h : Heap) : Store := fun a =>
  (h.get a).toOption.map fun o => ⟨o, h.arena.read o.start o.size⟩

variable {h : Heap}

theorem view_of_mem (inv : h.Inv) {o : Object} (ho : o ∈ h.objects) :
    h.view o.address = some ⟨o, h.arena.read o.start o.size⟩ := by
  have hget : h.get o.address = .ok o := (get_eq_ok_iff inv).mpr ⟨ho, rfl⟩
  unfold view
  rw [hget]
  rfl

theorem view_eq_some (inv : h.Inv) {a : Address} {e : Entry} (hv : h.view a = some e) :
    e.header ∈ h.objects ∧ e.header.address = a ∧
      e.bytes = h.arena.read e.header.start e.header.size := by
  unfold view at hv
  cases hget : h.get a with
  | error err =>
    rw [hget] at hv
    cases hv
  | ok o =>
    rw [hget] at hv
    cases hv
    obtain ⟨ho, haddress⟩ := (get_eq_ok_iff inv).mp hget
    exact ⟨ho, haddress, rfl⟩

theorem view_eq_none (inv : h.Inv) {a : Address} :
    h.view a = none ↔ ∀ o ∈ h.objects, o.address ≠ a := by
  constructor
  · rintro hnone o ho rfl
    rw [view_of_mem inv ho] at hnone
    cases hnone
  · intro hne
    cases hv : h.view a with
    | none => rfl
    | some e =>
      obtain ⟨ho, haddress, -⟩ := view_eq_some inv hv
      exact absurd haddress (hne _ ho)

/-- Two heaps have the same entry at an address if they have the same object there, with the same
bytes. -/
theorem view_congr {h' : Heap} (inv : h.Inv) (inv' : h'.Inv) {a : Address}
    (hobjects : ∀ o : Object, o.address = a → (o ∈ h'.objects ↔ o ∈ h.objects))
    (hbytes : ∀ o ∈ h.objects, o.address = a →
      h'.arena.read o.start o.size = h.arena.read o.start o.size) : h'.view a = h.view a := by
  cases hv : h.view a with
  | none =>
    rw [view_eq_none inv] at hv
    rw [view_eq_none inv']
    intro o ho haddress
    exact hv o ((hobjects o haddress).mp ho) haddress
  | some e =>
    obtain ⟨ho, rfl, hread⟩ := view_eq_some inv hv
    rw [view_of_mem inv' ((hobjects _ rfl).mpr ho), hbytes _ ho rfl, ← hread]

/-- The region of an object has its bytes, and lies below the top. -/
theorem Inv.object_bounds (inv : h.Inv) {o : Object} (ho : o ∈ h.objects) :
    alignment ≤ o.start ∧ o.start + o.size ≤ h.top := by
  obtain ⟨hge, hstop⟩ := inv.bounds (region_mem ho)
  have hsize := le_reserved o.size
  unfold Hole.stop at hstop
  dsimp only [Object.region] at hge hstop
  omega

theorem Inv.space_address (inv : h.Inv) (hshort : h.top < Address.stackStart.toNat) {o : Object}
    (ho : o ∈ h.objects) : o.address.space = .heap := by
  have hbounds := inv.object_bounds ho
  rw [inv.keyed o ho]
  exact Address.space_heap (by omega)

/-- **Bytes inside an object can be reached.** -/
theorem Inv.inRange_inside (inv : h.Inv) (hshort : h.top < Address.stackStart.toNat) {o : Object}
    (ho : o ∈ h.objects) {place length : Nat} (hfits : place + length ≤ o.size) :
    (o.address.add place).offset = o.start + place ∧
      h.inRange (o.address.add place) length = true := by
  obtain ⟨hge, hend⟩ := inv.object_bounds ho
  have hspace := inv.space_address hshort ho
  have hlt : o.address.offset + place < Address.stackStart.toNat := by
    show o.start + place < _
    omega
  obtain ⟨hsame, hoffset⟩ := Address.add_inside hlt
  have hoffset : (o.address.add place).offset = o.start + place := hoffset
  have htop := inv.top_le_arena (region_mem ho)
  exact ⟨hoffset, inRange_iff.mpr ⟨hsame.trans hspace, by omega, by omega, by omega⟩⟩

/-! ## Allocation -/

/-- No object was where an allocation puts a new one. -/
theorem Inv.fresh_occupy {p : Plan} {size : Nat} {type : TypeId} {kind : ObjectKind}
    (inv' : (h.occupy p size type kind).Inv) : ∀ o ∈ h.objects, o.address ≠ .heap p.start := by
  intro o ho haddress
  have heq : o = ⟨.heap p.start, type, size, kind⟩ :=
    inv'.eq_of_address (mem_occupy.mpr (.inr ho)) (mem_occupy.mpr (.inl rfl)) haddress
  have hsorted : Sorted (insertObject ⟨.heap p.start, type, size, kind⟩ h.objects) := inv'.sorted
  have hnodup : (insertObject ⟨.heap p.start, type, size, kind⟩ h.objects).Nodup := by
    apply hsorted.imp
    rintro q _ hlt rfl
    exact Nat.lt_irrefl _ hlt
  rw [(insertObject_perm _ _).nodup_iff] at hnodup
  exact (List.nodup_cons.mp hnodup).1 (heq ▸ ho)

/-- A new object starts at the offset of its address. -/
theorem Plan.Sound.offset_start {p : Plan} {size : Nat} (hp : p.Sound h size) (inv : h.Inv)
    (hshort : p.top ≤ Address.stackStart.toNat) : (Address.heap p.start).offset = p.start := by
  apply Address.offset_heap
  have hpos := hp.aligned.size_pos
  have hstop := ((hp.tiles inv).bounds (.head _) hpos).2
  unfold Hole.stop at hstop
  dsimp only at hpos hstop
  omega

/-- **An allocation adds an entry of zeros** and leaves the others. -/
theorem view_occupy {p : Plan} {size : Nat} {type : TypeId} {kind : ObjectKind} (inv : h.Inv)
    (hp : p.Sound h size) (inv' : (h.occupy p size type kind).Inv) :
    (h.occupy p size type kind).view =
      Function.update h.view (.heap p.start)
        (some ⟨⟨.heap p.start, type, size, kind⟩, List.replicate size 0⟩) := by
  have hnew : ⟨.heap p.start, type, size, kind⟩ ∈ (h.occupy p size type kind).objects :=
    mem_occupy.mpr (.inl rfl)
  have hstart : (⟨.heap p.start, type, size, kind⟩ : Object).start = p.start :=
    hp.offset_start inv inv'.short
  funext a
  by_cases ha : a = .heap p.start
  · subst ha
    rw [Function.update_self, view_of_mem inv' hnew, hstart]
    have hzero : (h.occupy p size type kind).arena.read p.start size = List.replicate size 0 := by
      apply Arena.read_eq_zero
      intro i hi hend
      have hsize := le_reserved size
      show ((h.arena.resize p.arenaSize).clear p.start (p.start + reserved size)).byte i = 0
      rw [Arena.byte_clear, if_pos (by omega)]
    rw [hzero]
  · rw [Function.update_of_ne ha]
    apply view_congr inv inv'
    · intro o haddress
      rw [mem_occupy]
      constructor
      · rintro (rfl | ho)
        · exact absurd haddress.symm ha
        · exact ho
      · exact .inr
    · intro o ho haddress
      -- The new region is cleared, and it has no byte of the other one.
      have hne : o ≠ ⟨.heap p.start, type, size, kind⟩ := by
        rintro rfl
        exact ha haddress.symm
      have hapart := inv'.apart (mem_occupy.mpr (.inr ho)) hnew hne
      have hsize := le_reserved o.size
      unfold Hole.Apart Hole.stop at hapart
      dsimp only [Object.region] at hapart
      rw [hstart] at hapart
      apply Arena.read_congr
      intro i hi hend
      show ((h.arena.resize p.arenaSize).clear p.start (p.start + reserved size)).byte i = _
      rw [Arena.byte_clear, if_neg (by omega), Arena.byte_resize]

/-- **An allocation fails only where no region is vacant.** -/
theorem Inv.refuses_of_plan (inv : h.Inv) {size : Nat} {e : Error} (hplan : h.plan size = .error e)
    (type : TypeId) (kind : ObjectKind) :
    Store.Refuses h.settings.maxSize.toNat h.view (.allocate size type kind) e := by
  have hleast : ∀ start, alignment ≤ start → h.view.Vacant start (reserved size) →
      h.place size ≤ start := by
    intro start hge hvacant
    apply inv.place_le hge
    intro x hx hend o ho
    exact hvacant x hx hend o.address _ (view_of_mem inv ho)
  by_cases hfits : h.place size + reserved size ≤ h.settings.maxSize.toNat
  · obtain ⟨p, hok, -⟩ := plan_of_le hfits
    rw [hok] at hplan
    cases hplan
  · rw [inv.plan_of_lt (by omega)] at hplan
    cases hplan
    split
    · refine .overflow fun start hge hvacant => ?_
      have hle := hleast start hge hvacant
      omega
    · refine .full fun start hge hvacant => ?_
      have hle := hleast start hge hvacant
      omega

/-! ## Freeing -/

/-- **Freeing removes an entry** and leaves the others. -/
theorem view_vacate (inv : h.Inv) {o : Object} (ho : o ∈ h.objects) :
    (h.vacate o).view = Function.update h.view o.address none := by
  funext a
  by_cases ha : a = o.address
  · subst ha
    rw [Function.update_self, view_eq_none (inv.vacate ho)]
    intro p hp haddress
    obtain ⟨hp, hne⟩ := (mem_objects_vacate inv ho).mp hp
    exact hne (inv.eq_of_address hp ho haddress)
  · rw [Function.update_of_ne ha]
    apply view_congr inv (inv.vacate ho)
    · intro p haddress
      rw [mem_objects_vacate inv ho]
      constructor
      · exact And.left
      · intro hp
        refine ⟨hp, ?_⟩
        rintro rfl
        exact ha haddress.symm
    · intro p _ _
      rfl

theorem get_eq_error {a : Address} {e : Error} (hget : h.get a = .error e) :
    e = .notAllocated a ∨ e = .useAfterFree a := by
  unfold get at hget
  split at hget
  · cases hget
    exact .inl rfl
  · split at hget
    · cases hget
    · split at hget
      · cases hget
        exact .inr rfl
      · cases hget
        exact .inl rfl

/-! ## Writing -/

/-- **Writing inside an object changes its bytes** and no other object's. -/
theorem view_poke (inv : h.Inv) (hshort : h.top < Address.stackStart.toNat) {o : Object}
    (ho : o ∈ h.objects) {place : Nat} {data : List UInt8} (hfits : place + data.length ≤ o.size) :
    (h.poke (o.address.add place) data).view = Function.update h.view o.address
      (some (Entry.put ⟨o, h.arena.read o.start o.size⟩ place data)) := by
  have inv' := inv.poke (o.address.add place) data
  obtain ⟨hoffset, -⟩ := inv.inRange_inside hshort ho hfits
  funext a
  by_cases ha : a = o.address
  · subst ha
    rw [Function.update_self, view_of_mem inv' ho]
    unfold Entry.put poke
    dsimp only
    rw [hoffset, Arena.read_write_inside hfits]
  · rw [Function.update_of_ne ha]
    apply view_congr inv inv'
    · intro p _
      exact Iff.rfl
    · intro p hp haddress
      have hne : p ≠ o := by
        rintro rfl
        exact ha haddress.symm
      have hapart := inv.apart hp ho hne
      have hsize := le_reserved o.size
      have hsize' := le_reserved p.size
      unfold Hole.Apart Hole.stop at hapart
      dsimp only [Object.region] at hapart
      apply Arena.read_congr
      intro i hi hend
      show (h.arena.write (o.address.add place).offset data).byte i = _
      rw [hoffset]
      by_cases hbefore : i < o.start + place
      · exact Arena.byte_write_of_lt hbefore data
      · exact Arena.byte_write_of_le (by omega)

/-- Bytes that cannot be reached do not lie in an entry. -/
theorem Inv.not_inside (inv : h.Inv) (hshort : h.top < Address.stackStart.toNat) {a : Address}
    {length : Nat} (hrange : ¬ h.inRange a length = true) : ¬ h.view.Inside a length := by
  rintro ⟨base, e, place, hv, rfl, hfits⟩
  obtain ⟨ho, rfl, -⟩ := view_eq_some inv hv
  exact hrange (inv.inRange_inside hshort ho hfits).2

/-! ## Every call -/

/-- **Users write inside objects**: the bytes of an access that succeeds lie in one live object. -/
def Call.Confined (h : Heap) : Call → Prop
  | .write a data => h.inRange a data.length = true → h.view.Inside a data.length
  | .change a length _ => h.inRange a length = true → h.view.Inside a length
  | _ => True

/-- **One step**: a call on the heap is a call on the map. -/
theorem step_view (inv : h.Inv) (hshort : h.top < Address.stackStart.toNat) {c : Call}
    (hconfined : c.Confined h) (hsize : (h.after c).arena.size < Address.stackStart.toNat) :
    Store.Step h.settings.maxSize.toNat h.view c (c.answer h) (h.after c).view := by
  have inv' := inv.after c hsize
  cases c with
  | allocate size type kind =>
    cases hplan : h.plan size with
    | error e =>
      simp only [Call.answer, Heap.after, Call.run, allocate_eq_map, hplan, Except.map]
      exact .fail (inv.refuses_of_plan hplan type kind)
    | ok p =>
      simp only [Call.answer, Heap.after, Call.run, allocate_eq_map, hplan, Except.map] at inv' ⊢
      rw [view_occupy inv (inv.plan_sound hplan) inv']
      exact .allocate ((view_eq_none inv).mpr inv'.fresh_occupy)
  | free a =>
    cases hget : h.get a with
    | error e =>
      have hnone : h.view a = none := by
        unfold view
        rw [hget]
        rfl
      simp only [Call.answer, Heap.after, Call.run, free_eq_map, hget, Except.map]
      exact .fail (.absent hnone (get_eq_error hget))
    | ok o =>
      obtain ⟨ho, rfl⟩ := (get_eq_ok_iff inv).mp hget
      simp only [Call.answer, Heap.after, Call.run, free_eq_map, hget, Except.map]
      rw [view_vacate inv ho]
      exact .free (view_of_mem inv ho)
  | write a data =>
    by_cases hrange : h.inRange a data.length = true
    · obtain ⟨base, e, place, hv, rfl, hfits⟩ := hconfined hrange
      obtain ⟨ho, rfl, hbytes⟩ := view_eq_some inv hv
      have hok : h.write (e.header.address.add place) data = .ok (h.poke _ data) := if_pos hrange
      simp only [Call.answer, Heap.after, Call.run, hok, Except.map]
      rw [view_poke inv hshort ho hfits, ← hbytes]
      exact .write hv hfits
    · have hfail : h.write a data = .error (h.rangeError a data.length) := if_neg hrange
      simp only [Call.answer, Heap.after, Call.run, hfail, Except.map]
      exact .fail (.write (inv.not_inside hshort hrange) (inv.rangeError_cases hrange))
  | change a length new =>
    by_cases hrange : h.inRange a length = true
    · obtain ⟨base, e, place, hv, rfl, hfits⟩ := hconfined hrange
      obtain ⟨ho, rfl, hbytes⟩ := view_eq_some inv hv
      obtain ⟨hoffset, -⟩ := inv.inRange_inside hshort ho hfits
      have hok : h.bytes (e.header.address.add place) length =
          .ok (h.arena.read (e.header.start + place) length) := by
        unfold Heap.bytes
        rw [if_pos hrange, hoffset]
      have hlent : h.arena.read (e.header.start + place) length = (e.bytes.drop place).take length := by
        rw [hbytes, Arena.take_drop_read hfits]
      simp only [Call.answer, Heap.after, Call.run, hok, Except.map]
      rw [view_poke inv hshort ho (by simpa using hfits), ← hbytes]
      exact .change hv hfits hlent
    · have hfail : h.bytes a length = .error (h.rangeError a length) := if_neg hrange
      simp only [Call.answer, Heap.after, Call.run, hfail, Except.map]
      exact .fail (.change (inv.not_inside hshort hrange) (inv.rangeError_cases hrange))

/-! ## Calls on a machine -/

/-- The call as an operation of the machine. -/
def Call.exec [Build] : Call → Exec Answer
  | allocate size type kind => .address <$> Exec.allocateObject size type kind
  | free a => .header <$> Exec.freeObject a
  | write a data => (fun _ => .done) <$> Exec.writeHeap a data
  | change a length new => do
    let lent ← Exec.query fun m => (m.heap.bytes a length).mapError .heap
    Exec.writeHeap a (lent.mapIdx new)
    return .bytes lent

open Exec (bind_of_ok bind_of_error query_of_ok query_of_error map_of_ok map_of_error)

/-- **A call on a machine** answers and changes the heap as the call on the heap does. Beside the heap
it changes the journal at most, and nothing if it fails. -/
structure Call.Obeys [Build] (c : Call) (m : Machine) : Prop where
  succeeds : ∀ x, c.answer m.heap = .ok x →
    ∃ journal, c.exec m = .ok x { m with heap := m.heap.after c, journal }
  fails : ∀ e, c.answer m.heap = .error e → c.exec m = .error (.heap e) m

theorem Call.Obeys.of_ok {c : Call} {m : Machine} {x : Answer} {journal : Journal}
    (hanswer : c.answer m.heap = .ok x)
    (hexec : c.exec m = .ok x { m with heap := m.heap.after c, journal }) : c.Obeys m := by
  constructor
  · intro x' h
    cases hanswer.symm.trans h
    exact ⟨journal, hexec⟩
  · intro e h
    cases hanswer.symm.trans h

theorem Call.Obeys.of_error {c : Call} {m : Machine} {e : Error}
    (hanswer : c.answer m.heap = .error e) (hexec : c.exec m = .error (.heap e) m) : c.Obeys m := by
  constructor
  · intro x h
    cases hanswer.symm.trans h
  · intro e' h
    cases hanswer.symm.trans h
    exact hexec

theorem Call.obeys (c : Call) (m : Machine) : c.Obeys m := by
  cases c with
  | allocate size type kind =>
    cases hplan : m.heap.plan size with
    | error e =>
      apply Obeys.of_error (e := e)
      · simp only [answer, allocate_eq_map, hplan, Except.map]
      · exact map_of_error _ (Exec.allocateObject_of_error hplan)
    | ok p =>
      obtain ⟨journal, hexec⟩ : ∃ journal, Exec.allocateObject size type kind m = _ :=
        Exec.allocateObject_of_ok hplan
      apply Obeys.of_ok (x := .address (.heap p.start))
      · simp only [answer, allocate_eq_map, hplan, Except.map]
      · simp only [Heap.after, run, allocate_eq_map, hplan, Except.map]
        exact map_of_ok _ hexec
  | free a =>
    cases hget : m.heap.get a with
    | error e =>
      apply Obeys.of_error (e := e)
      · simp only [answer, free_eq_map, hget, Except.map]
      · exact map_of_error _ (Exec.freeObject_of_error hget)
    | ok o =>
      apply Obeys.of_ok (x := .header o)
      · simp only [answer, free_eq_map, hget, Except.map]
      · simp only [Heap.after, run, free_eq_map, hget, Except.map]
        exact map_of_ok _ (Exec.freeObject_of_ok hget)
  | write a data =>
    by_cases hrange : m.heap.inRange a data.length = true
    · have hwrite : m.heap.write a data = .ok (m.heap.poke a data) := if_pos hrange
      apply Obeys.of_ok (x := .done)
      · simp only [answer, hwrite, Except.map]
      · simp only [Heap.after, run, hwrite]
        exact map_of_ok _ (Exec.writeHeap_of_inRange hrange)
    · have hwrite : m.heap.write a data = .error (m.heap.rangeError a data.length) := if_neg hrange
      apply Obeys.of_error (e := m.heap.rangeError a data.length)
      · simp only [answer, hwrite, Except.map]
      · exact map_of_error _ (Exec.writeHeap_of_not_inRange hrange)
  | change a length new =>
    by_cases hrange : m.heap.inRange a length = true
    · have hbytes : m.heap.bytes a length = .ok (m.heap.arena.read a.offset length) := if_pos hrange
      have hlent : Exec.query (fun m => (m.heap.bytes a length).mapError .heap) m =
          .ok (m.heap.arena.read a.offset length) m := query_of_ok (except_mapError_ok.mpr hbytes)
      apply Obeys.of_ok (x := .bytes (m.heap.arena.read a.offset length))
      · simp only [answer, hbytes, Except.map]
      · have hwrite : Exec.writeHeap a ((m.heap.arena.read a.offset length).mapIdx new) m = _ :=
          Exec.writeHeap_of_inRange (by simpa using hrange)
        simp only [Heap.after, run, hbytes, Except.map]
        exact (bind_of_ok hlent).trans (bind_of_ok hwrite)
    · have hbytes : m.heap.bytes a length = .error (m.heap.rangeError a length) := if_neg hrange
      have hfail : Exec.query (fun m => (m.heap.bytes a length).mapError .heap) m =
          .error (.heap (m.heap.rangeError a length)) m := by
        apply query_of_error
        rw [hbytes]
        rfl
      apply Obeys.of_error (e := m.heap.rangeError a length)
      · simp only [answer, hbytes, Except.map]
      · exact bind_of_error hfail

/-! ## Every run -/

/-- A run of calls on a heap, by users that write inside objects, with the answers. The arena is a run
of bytes in memory, so it is never as long as half the words there are. -/
inductive Traced [Build] (settings : Settings) : List (Call × Except Error Answer) → Heap → Prop
  | created {h : Heap} : create settings = .ok h → Traced settings [] h
  | called {trace : List (Call × Except Error Answer)} {h : Heap} (c : Call) :
      Traced settings trace h → c.Confined h →
        (h.after c).arena.size < Address.stackStart.toNat →
        Traced settings (trace ++ [(c, c.answer h)]) (h.after c)

theorem Traced.reached {settings : Settings} {trace : List (Call × Except Error Answer)}
    (ht : Traced settings trace h) : Reached settings h := by
  induction ht with
  | created e => exact .created e
  | called c _ _ hsize ih => exact ih.called c hsize

theorem Reached.top_lt {settings : Settings} (hr : Reached settings h) :
    h.top < Address.stackStart.toNat := by
  have hsmall : alignment < Address.stackStart.toNat := by decide
  have hinside := hr.inv.inside
  cases hr with
  | created e =>
    obtain ⟨-, rfl⟩ := create_eq_ok e
    exact hsmall
  | called c _ hsize => omega

theorem view_created {settings : Settings} (hcreate : create settings = .ok h) :
    h.view = fun _ => none := by
  obtain ⟨-, rfl⟩ := create_eq_ok hcreate
  funext a
  rw [view_eq_none (Inv.create hcreate)]
  exact List.forall_mem_nil _

/-- **Every run of calls on a heap is a run on maps**, with the same answers. -/
theorem Traced.view {settings : Settings} {trace : List (Call × Except Error Answer)}
    (ht : Traced settings trace h) : Store.Traced settings.maxSize.toNat trace h.view := by
  induction ht with
  | created hcreate =>
    rw [view_created hcreate]
    exact .empty
  | called c ht hconfined hsize ih =>
    have hstep := step_view ht.reached.inv ht.reached.top_lt hconfined hsize
    rw [ht.reached.settings_eq] at hstep
    exact .called ih hstep

/-- A live object is read as the map has it. -/
theorem bytes_of_view (inv : h.Inv) (hshort : h.top < Address.stackStart.toNat) {a : Address}
    {e : Entry} (hv : h.view a = some e) : h.bytes a e.header.size = .ok e.bytes := by
  obtain ⟨ho, rfl, hbytes⟩ := view_eq_some inv hv
  obtain ⟨hoffset, hrange⟩ := inv.inRange_inside hshort ho (Nat.le_of_eq (Nat.zero_add _))
  rw [Address.add_zero] at hoffset hrange
  unfold Heap.bytes
  rw [if_pos hrange, hbytes]
  rfl

/-- **The heap behaves as the map that it is viewed as.** -/
structure Refines [Build] (settings : Settings) (trace : List (Call × Except Error Answer)) (h : Heap) :
    Prop where
  /-- The calls made so far are a run on maps, with the same answers. -/
  traced : Store.Traced settings.maxSize.toNat trace h.view
  finite : {a | h.view a ≠ none}.Finite
  reads : ∀ a e, h.view a = some e → h.get a = .ok e.header ∧ h.bytes a e.header.size = .ok e.bytes
  /-- Every call that may come next is a call on the map. -/
  next : ∀ c : Call, c.Confined h → (h.after c).arena.size < Address.stackStart.toNat →
    Store.Step settings.maxSize.toNat h.view c (c.answer h) (h.after c).view
  machine : ∀ (c : Call) (m : Machine), m.heap = h → c.Obeys m

/-- **Every heap refines a finite map.** -/
theorem refines_of_traced {settings : Settings} {trace : List (Call × Except Error Answer)}
    (ht : Traced settings trace h) : Refines settings trace h := by
  have inv := ht.reached.inv
  have hshort := ht.reached.top_lt
  constructor
  case traced => exact ht.view
  case finite =>
    apply (List.finite_toSet (h.objects.map (·.address))).subset
    intro a ha
    by_contra hfree
    apply ha
    rw [view_eq_none inv]
    intro o ho haddress
    exact hfree (List.mem_map.mpr ⟨o, ho, haddress⟩)
  case reads =>
    intro a e hv
    obtain ⟨ho, haddress, -⟩ := view_eq_some inv hv
    exact ⟨(get_eq_ok_iff inv).mpr ⟨ho, haddress⟩, bytes_of_view inv hshort hv⟩
  case next =>
    intro c hconfined hsize
    rw [← ht.reached.settings_eq]
    exact step_view inv hshort hconfined hsize
  case machine =>
    intro c m _
    exact c.obeys m

/-- An object is written to, freed, and its region is given out again and is zero again; the object
beside it keeps what was written to it. -/
theorem refines_after_reuse :
    ∃ trace h, Traced { initialSize := 16, maxSize := 64 } trace h ∧
      trace.map (·.2) = [.ok (.address (.heap 8)), .ok (.address (.heap 16)), .ok .done, .ok .done,
        .ok (.header ⟨.heap 8, ⟨1⟩, 8, .object⟩), .error (.useAfterFree (.heap 8)),
        .ok (.address (.heap 8)), .error (.outOfMemory 64 64)] ∧
      h.view (.heap 8) = some ⟨⟨.heap 8, ⟨2⟩, 4, .string⟩, [0, 0, 0, 0]⟩ ∧
      h.view (.heap 16) = some ⟨⟨.heap 16, ⟨1⟩, 3, .object⟩, [0, 7, 9]⟩ ∧
      Refines { initialSize := 16, maxSize := 64 } trace h := by
  have hcreated : Traced { initialSize := 16, maxSize := 64 } []
      { settings := { initialSize := 16, maxSize := 64 }, arena := .zeroed 16 } :=
    .created (by decide)
  have hfirst := hcreated.called (.allocate 8 ⟨1⟩ .object) trivial (by decide)
  have hsecond := hfirst.called (.allocate 3 ⟨1⟩ .object) trivial (by decide)
  have hwritten := hsecond.called (.write (.heap 17) [7, 9])
    (fun _ => ⟨.heap 16, _, 1, rfl, by decide, by decide⟩) (by decide)
  have hmarked := hwritten.called (.write (.heap 8) [255, 255, 255, 255])
    (fun _ => ⟨.heap 8, _, 0, rfl, by decide, by decide⟩) (by decide)
  have hfreed := hmarked.called (.free (.heap 8)) trivial (by decide)
  have htwice := hfreed.called (.free (.heap 8)) trivial (by decide)
  have hagain := htwice.called (.allocate 4 ⟨2⟩ .string) trivial (by decide)
  have hfull := hagain.called (.allocate 64 ⟨2⟩ .string) trivial (by decide)
  exact ⟨_, _, hfull, by decide, by decide, by decide,
    refines_of_traced hfull⟩

/-- Without overflow checks an object of the largest size takes up no byte, and the next one is not a
new entry but takes the place of the first. -/
theorem emptied_not_refining :
    let settings : Settings := { initialSize := 64, maxSize := 64 }
    ∃ trace h, @Traced .unchecked settings trace h ∧
      trace.map (·.2) = [.ok (.address (.heap 8))] ∧
      @Call.answer .unchecked h (.allocate 8 ⟨0⟩ .string) = .ok (.address (.heap 8)) ∧
      ¬ @Refines .unchecked settings trace h := by
  intro settings
  have hcreated : @Traced .unchecked settings [] { settings, arena := .zeroed 64 } :=
    @Traced.created .unchecked _ _ (by decide)
  let h := @after .unchecked { settings, arena := .zeroed 64 } (.allocate (UInt64.size - 1) ⟨0⟩ .string)
  have hlargest : @Traced .unchecked settings _ h :=
    @Traced.called .unchecked _ _ _ _ hcreated trivial (by decide)
  have hanswer : @Call.answer .unchecked h (.allocate 8 ⟨0⟩ .string) = .ok (.address (.heap 8)) := by
    decide
  refine ⟨_, h, hlargest, by decide, hanswer, fun hrefines => ?_⟩
  have hstep := @Refines.next .unchecked _ _ _ hrefines (.allocate 8 ⟨0⟩ .string) trivial (by decide)
  rw [hanswer] at hstep
  generalize (@after .unchecked h _).view = s at hstep
  -- The step would need that there is no entry at the address.
  cases hstep with
  | allocate hfree => cases hfree

end ManagedVm.Heap
