import ManagedVm.Proofs.Utf8
import ManagedVm.Proofs.Heap.Store
import ManagedVm.Proofs.Machine.Elements
import ManagedVm.Proofs.Machine.Touches
import ManagedVm.Proofs.Machine.Release

/-!
# Strings keep their texts

A new string spells its text (`Heap.Spells`), and goes on to do so while its neighbours come and go:
calls that free other objects, or write inside other objects, leave the entry of the string in the map
that the heap is (`Reached.view_of_spares`).

Concatenating makes the new string first and lets go of the operands afterwards, so that the bytes of
both are read before either can be freed. What they are freed by cannot free the new string, because it
is on the evaluation stack by then: nothing refers to an object that is freed.
-/

namespace ManagedVm

open Machine (lengthSize)

/-! ## Calls that spare an object -/

namespace Heap

variable {h h' : Heap} {settings : Settings} {target : Address} {e : Entry}

/-- The bytes from an address on lie in an object other than the one at the target. -/
def InOther (h : Heap) (target a : Address) (length : Nat) : Prop :=
  ∃ o ∈ h.objects, o.address ≠ target ∧ ∃ place, a = o.address.add place ∧ place + length ≤ o.size

/-- **The call spares the object at the target**: it does not free it, and what it writes it writes
inside other objects. -/
def Call.Spares (target : Address) (h : Heap) : Call → Prop
  | .allocate .. => True
  | .free a => a ≠ target
  | .write a data => h.inRange a data.length = true → h.InOther target a data.length
  | .change a length _ => h.inRange a length = true → h.InOther target a length

theorem size_poke (h : Heap) (a : Address) (data : List UInt8) :
    (h.poke a data).arena.size = h.arena.size := rfl

theorem view_poke_other (inv : h.Inv) (hshort : h.top < Address.stackStart.toNat) {a : Address}
    {data : List UInt8} (hother : h.InOther target a data.length) :
    (h.poke a data).view target = h.view target := by
  obtain ⟨o, ho, hne, place, rfl, hfits⟩ := hother
  rw [view_poke inv hshort ho hfits, Function.update_of_ne hne.symm]

theorem view_poke_self (inv : h.Inv) (hshort : h.top < Address.stackStart.toNat)
    (hv : h.view target = some e) (place : Nat) (data : List UInt8)
    (hfits : place + data.length ≤ e.header.size) :
    (h.poke (target.add place) data).view target = some (e.put place data) := by
  obtain ⟨ho, rfl, hbytes⟩ := view_eq_some inv hv
  rw [view_poke inv hshort ho hfits, Function.update_self, ← hbytes]

/-- **One call**: an object that is spared keeps its header and its bytes. -/
theorem view_after_of_spares (inv : h.Inv) (hshort : h.top < Address.stackStart.toNat) {c : Call}
    (hspares : c.Spares target h) (hsize : (h.after c).arena.size < Address.stackStart.toNat)
    (hv : h.view target = some e) : (h.after c).view target = some e := by
  cases c with
  | allocate size type kind =>
    have hstep := step_view inv hshort (c := .allocate size type kind) trivial hsize
    generalize Call.answer h _ = answer, (h.after _).view = s at hstep ⊢
    cases hstep with
    | allocate hfree =>
      -- The new object is where there was none.
      rw [Function.update_of_ne, hv]
      rintro rfl
      rw [hv] at hfree
      cases hfree
    | fail => exact hv
  | free a =>
    have hstep := step_view inv hshort (c := .free a) trivial hsize
    generalize Call.answer h _ = answer, (h.after _).view = s at hstep ⊢
    cases hstep with
    | free => rw [Function.update_of_ne (Ne.symm hspares), hv]
    | fail => exact hv
  | write a data =>
    by_cases hrange : h.inRange a data.length = true
    · have hok : h.write a data = .ok (h.poke a data) := if_pos hrange
      simp only [Heap.after, Call.run, hok]
      rw [view_poke_other inv hshort (hspares hrange), hv]
    · have hfail : h.write a data = .error (h.rangeError a data.length) := if_neg hrange
      simp only [Heap.after, Call.run, hfail]
      exact hv
  | change a length new =>
    by_cases hrange : h.inRange a length = true
    · have hok : h.bytes a length = .ok (h.arena.read a.offset length) := if_pos hrange
      simp only [Heap.after, Call.run, hok, Except.map]
      rw [view_poke_other inv hshort (by simpa using hspares hrange), hv]
    · have hfail : h.bytes a length = .error (h.rangeError a length) := if_neg hrange
      simp only [Heap.after, Call.run, hfail, Except.map]
      exact hv

/-- **Every run of calls** that spare an object keeps its header and its bytes. -/
theorem Reached.view_of_spares (hr : Reached settings h) (hled : LeadsTo (Call.Spares target) h h')
    (hfits : h'.arena.size < Address.stackStart.toNat) (hv : h.view target = some e) :
    Reached settings h' ∧ h'.view target = some e := by
  induction hled with
  | refl => exact ⟨hr, hv⟩
  | tail hled hcall ih =>
    obtain ⟨c, hspares, rfl⟩ := hcall
    have hle := (arena_after (LeadsTo.arena hled hr.inv.limited).2 c).1
    obtain ⟨hr', hv'⟩ := ih (by omega)
    exact ⟨hr'.called c hfits, view_after_of_spares hr'.inv hr'.top_lt hspares hfits hv'⟩

/-- An object that is left when others are freed is what it was. -/
theorem Shrunk.view (hs : Shrunk h h') {o : Object} (ho : o ∈ h'.objects) :
    h'.view o.address = h.view o.address := by
  rw [view_of_mem hs.after ho, view_of_mem hs.before (hs.objects o ho), hs.arena]

/-! ## Texts on the heap -/

/-- The bytes of a string: the length of the text, then the text. -/
def stringBytes (text : String) : List UInt8 :=
  LittleEndian.encode lengthSize (Utf8.encode text).length ++ Utf8.encode text

/-- **The object at the target spells the text.** -/
def Spells (h : Heap) (target : Address) (text : String) : Prop :=
  (Utf8.encode text).length < UInt32.size ∧ ∃ o, h.view target = some ⟨o, stringBytes text⟩

/-- The length and then the text, written over a string's zeros, are its bytes. -/
theorem put_put_zeros (o : Object) (text : String) :
    (Entry.put (Entry.put ⟨o, List.replicate (lengthSize + (Utf8.encode text).length) 0⟩ 0
      (LittleEndian.encode lengthSize (Utf8.encode text).length)) lengthSize (Utf8.encode text)) =
        ⟨o, stringBytes text⟩ := by
  simp [Entry.put, stringBytes, lengthSize]

end Heap

namespace Machine

variable {m : Machine} {target : Address}

/-- Bytes inside a live object are read as the map has them. -/
theorem read_of_view (inv : m.heap.Inv) (hshort : m.heap.top < Address.stackStart.toNat)
    {e : Heap.Entry} (hv : m.heap.view target = some e) (place length : Nat)
    (hfits : place + length ≤ e.bytes.length) :
    m.read (target.add place) length = .ok ((e.bytes.drop place).take length) := by
  obtain ⟨ho, rfl, hbytes⟩ := Heap.view_eq_some inv hv
  have hsize : place + length ≤ e.header.size := by
    rw [hbytes, Arena.length_read] at hfits
    exact hfits
  obtain ⟨hoffset, hrange⟩ := inv.inRange_inside hshort ho hsize
  have hspace : (e.header.address.add place).space = .heap := space_of_inRange_heap hrange
  have hnull : (e.header.address.add place).isNull = false := by
    have hge := (inv.object_bounds ho).1
    have hpos : 0 < Heap.alignment := by decide
    exact Address.isNull_eq_false (.inr (by omega))
  have hread : m.heap.bytes (e.header.address.add place) length =
      .ok ((e.bytes.drop place).take length) := by
    unfold Heap.bytes
    rw [if_pos hrange, hoffset, hbytes, Arena.take_drop_read hsize]
  unfold Machine.read
  rw [hnull, hspace]
  exact except_mapError_ok.mpr hread

/-- **A string that spells a text is read as that text.** -/
theorem readString_of_spells {settings : Heap.Settings} (hr : Heap.Reached settings m.heap)
    {text : String} (hspells : m.heap.Spells target text) (type : TypeId) :
    m.readString (.string type target) = .ok text := by
  obtain ⟨hlt, o, hv⟩ := hspells
  have inv := hr.inv
  obtain ⟨ho, haddress, -⟩ := Heap.view_eq_some inv hv
  have hlive : m.liveObject target = .ok o :=
    liveObject_eq_ok.mpr ((Heap.get_eq_ok_iff inv).mpr ⟨ho, haddress⟩)
  have hlength : m.readLength target = .ok (Utf8.encode text).length := by
    have hread := read_of_view inv hr.top_lt hv 0 lengthSize (by simp [Heap.stringBytes])
    rw [Address.add_zero] at hread
    unfold readLength
    rw [hread]
    have hfits : (Utf8.encode text).length < 256 ^ lengthSize := hlt
    simp only [Heap.stringBytes, List.drop_zero, Except.map]
    rw [List.take_append_of_le_length (by simp), LittleEndian.take_encode, LittleEndian.decode_encode,
      Nat.mod_eq_of_lt hfits]
  have htext : m.read (target.add lengthSize) (Utf8.encode text).length = .ok (Utf8.encode text) := by
    rw [read_of_view inv hr.top_lt hv _ _ (by simp [Heap.stringBytes])]
    simp [Heap.stringBytes]
  unfold readString
  simp only [hlive, hlength, htext, discard, Functor.mapConst, bind, Except.bind, pure,
    Except.pure, Utf8.decode_encode]
  rfl

theorem SameMemory.textOf {m' : Machine} (h : m.SameMemory m') : m'.textOf = m.textOf := by
  unfold Machine.textOf Machine.readString Machine.readScalar Machine.readLength Machine.liveObject
  rw [h.read, h.descriptor, h.heap]

theorem Shrunk.operands {m' : Machine} (hs : m.Shrunk m') : m'.operands = m.operands := by
  unfold Machine.operands
  rw [hs.stack]

theorem Moved.reached {R : Frame → Frame → Prop} {m' : Machine} {settings : Heap.Settings}
    (h : m.Moved R m') (hr : Heap.Reached settings m.heap)
    (hfits : m'.heap.arena.size < Address.stackStart.toNat) : Heap.Reached settings m'.heap :=
  (hr.run (P := fun _ => True) trivial (fun _ _ _ => trivial) h.heap hfits).1

end Machine

/-! ## Making a string -/

namespace Exec

variable {m m' : Machine} {settings : Heap.Settings}

theorem heap_of_writeHeap {a : Address} {data : List UInt8} (h : writeHeap a data m = .ok ⟨⟩ m') :
    m'.heap = m.heap.poke a data ∧ m'.stack = m.stack := by
  by_cases hrange : m.heap.inRange a data.length = true
  · rw [writeHeap_of_inRange hrange] at h
    cases h
    exact ⟨rfl, rfl⟩
  · rw [writeHeap_of_not_inRange hrange] at h
    cases h

/-- **A new object is an entry of zeros.** -/
theorem view_of_allocateObject (hr : Heap.Reached settings m.heap) {size : Nat} {type : TypeId}
    {kind : ObjectKind} {target : Address} (h : allocateObject size type kind m = .ok target m')
    (hfits : m'.heap.arena.size < Address.stackStart.toNat) :
    Heap.Reached settings m'.heap ∧
      m'.heap.view target = some ⟨⟨target, type, size, kind⟩, List.replicate size 0⟩ ∧
      m'.stack = m.stack := by
  cases hplan : m.heap.plan size with
  | error e =>
    rw [allocateObject_of_error hplan] at h
    cases h
  | ok p =>
    obtain ⟨journal, hmade⟩ := allocateObject_of_ok hplan
    obtain ⟨rfl, rfl⟩ := EStateM.Result.ok.inj (hmade.symm.trans h)
    have hafter : m.heap.after (.allocate size type kind) = m.heap.occupy p size type kind := by
      simp only [Heap.after, Heap.Call.run, Heap.allocate_eq_map, hplan, Except.map]
    have hr' : Heap.Reached settings (m.heap.occupy p size type kind) :=
      hafter ▸ hr.called (.allocate size type kind) (hafter ▸ hfits)
    refine ⟨hr', ?_, rfl⟩
    show (m.heap.occupy p size type kind).view _ = _
    rw [Heap.view_occupy hr.inv (hr.inv.plan_sound hplan) hr'.inv, Function.update_self]

/-- **A new string spells its text.** -/
theorem spells_of_makeString (hr : Heap.Reached settings m.heap) {text : String} {v : Value}
    (h : makeString text m = .ok v m') (hfits : m'.heap.arena.size < Address.stackStart.toNat) :
    ∃ target, v = .string m.types.builtins.string target ∧ m'.heap.Spells target text ∧
      m'.stack = m.stack := by
  unfold makeString at h
  dsimp only at h
  split at h
  · cases h
  rename_i hlt
  obtain ⟨type, m₁, hquery, h⟩ := bind_eq_ok.mp h
  obtain ⟨htype, rfl⟩ := query_eq_ok.mp hquery
  cases htype
  obtain ⟨target, m₁, hallocate, h⟩ := bind_eq_ok.mp h
  obtain ⟨⟨⟩, m₂, hlength, h⟩ := bind_eq_ok.mp h
  obtain ⟨⟨⟩, m₃, htext, h⟩ := bind_eq_ok.mp h
  cases h
  obtain ⟨hheap₃, hstack₃⟩ := heap_of_writeHeap htext
  obtain ⟨hheap₂, hstack₂⟩ := heap_of_writeHeap hlength
  have hsize : m'.heap.arena.size = m₁.heap.arena.size := by
    rw [hheap₃, hheap₂, Heap.size_poke, Heap.size_poke]
  obtain ⟨hr₁, hzeros, hstack₁⟩ := view_of_allocateObject hr hallocate (hsize ▸ hfits)
  -- Zeros at first, then the length, then the text.
  have hcounted := Heap.view_poke_self hr₁.inv hr₁.top_lt hzeros 0
    (LittleEndian.encode lengthSize (Utf8.encode text).length) (by simp)
  rw [Address.add_zero] at hcounted
  have hspelled := Heap.view_poke_self (hr₁.inv.poke _ _) hr₁.top_lt hcounted lengthSize
    (Utf8.encode text) (Nat.le_refl _)
  rw [Heap.put_put_zeros, ← hheap₂, ← hheap₃] at hspelled
  exact ⟨target, rfl, ⟨Nat.lt_of_not_le hlt, _, hspelled⟩, hstack₃.trans (hstack₂.trans hstack₁)⟩

/-! ## The evaluation stack -/

theorem mem_operands {v : Value} (h : v ∈ m.operands) : ∃ f ∈ m.stack.frames, v ∈ f.values := by
  unfold Machine.operands FrameStack.current at h
  cases hframes : m.stack.frames with
  | nil => simp [hframes] at h
  | cons f rest =>
    rw [hframes] at h
    exact ⟨f, List.mem_cons_self, h⟩

theorem operands_of_pop {v : Value} (h : pop m = .ok v m') :
    m.operands = v :: m'.operands ∧ m.SameMemory m' := by
  cases hoperands : m.operands with
  | nil =>
    obtain ⟨e, hfail⟩ := pop_of_no_operands hoperands
    rw [hfail] at h
    cases h
  | cons v' rest =>
    obtain ⟨m₁, hpop, hrest, hsame⟩ := pop_of_operands hoperands
    obtain ⟨rfl, rfl⟩ := EStateM.Result.ok.inj (hpop.symm.trans h)
    exact ⟨by rw [hrest], hsame⟩

theorem operands_of_push {v : Value} (h : push v m = .ok ⟨⟩ m') :
    m'.operands = v :: m.operands ∧ m'.heap = m.heap := by
  unfold Machine.operands
  cases hframes : m.stack.frames with
  | nil =>
    have hpush : m.stack.push v = .error .frameUnderflow := by
      simp [FrameStack.push, FrameStack.current, hframes, bind, Except.bind]
    have hfail : push v m = .error .frameUnderflow m := bind_of_error (query_of_error hpush)
    rw [hfail] at h
    cases h
  | cons f rest =>
    by_cases hroom : f.depth < f.maxDepth
    · rw [push_of_room hframes hroom] at h
      cases h
      rw [current_of_frames hframes]
      exact ⟨rfl, rfl⟩
    · rw [push_of_full hframes (Nat.le_of_not_lt hroom)] at h
      cases h

/-! ## Concatenating -/

/-- **What a string on the evaluation stack refers to is not freed**, whatever else is. -/
theorem mem_objects_releaseValue (inv : m.heap.Inv) (htyped : m.Typed) {v : Value}
    (h : releaseValue v m = .ok ⟨⟩ m') {o : Heap.Object} (ho : o ∈ m.heap.objects) {type : TypeId}
    (hv : .string type o.address ∈ m.operands) : m.Shrunk m' ∧ o ∈ m'.heap.objects := by
  obtain ⟨targets, m₁, hquery, hrelease⟩ := bind_eq_ok.mp h
  obtain ⟨-, rfl⟩ := query_eq_ok.mp hquery
  have hd := drains_release inv targets
  rw [hrelease] at hd
  have hs : m.Shrunk m' := hd.shrunk inv
  refine ⟨hs, ?_⟩
  by_contra hgone
  have hroot : m.RootRefers o.address := by
    have hget := (Heap.get_eq_ok_iff inv).mpr ⟨ho, rfl⟩
    have hnull := (Heap.isForeign_eq_false.mp (Heap.get_eq_ok hget).2.2).2
    obtain ⟨f, hf, hvalue⟩ := mem_operands hv
    exact .inl ⟨f, hf, .inl ⟨_, List.mem_append_right _ hvalue, hnull, rfl⟩⟩
  exact hd.not_stillRefers (.refl inv) htyped ho hgone (.inl hroot)

/-- A string on the evaluation stack goes on spelling its text when a value is released. -/
theorem spells_of_releaseValue (inv : m.heap.Inv) (htyped : m.Typed) {v : Value}
    (h : releaseValue v m = .ok ⟨⟩ m') {text : String} {type : TypeId} {target : Address}
    (hspells : m.heap.Spells target text) (hv : .string type target ∈ m.operands) :
    m.Shrunk m' ∧ m'.heap.Spells target text := by
  obtain ⟨hlt, o, hview⟩ := hspells
  obtain ⟨ho, rfl, -⟩ := Heap.view_eq_some inv hview
  obtain ⟨hs, hkept⟩ := mem_objects_releaseValue inv htyped h ho hv
  exact ⟨hs, hlt, o, (hs.heap.view hkept).trans hview⟩

/-- **What concatenating leaves**: in place of its operands a string, which spells the text of the lower
one and then that of the upper one. -/
theorem spells_of_concatenate (hr : Heap.Reached settings m.heap) (htyped : m.Typed)
    (h : binary .cnct m = .ok ⟨⟩ m') (hfits : m'.heap.arena.size < Address.stackStart.toNat) :
    ∃ left right rest a b target, m.operands = right :: left :: rest ∧ m.textOf left = .ok a ∧
      m.textOf right = .ok b ∧ m'.operands = .string m.types.builtins.string target :: rest ∧
      m'.heap.Spells target (a ++ b) := by
  obtain ⟨right, m₁, hright, h⟩ := bind_eq_ok.mp h
  obtain ⟨left, m₂, hleft, h⟩ := bind_eq_ok.mp h
  obtain ⟨hoperands₁, hsame₁⟩ := operands_of_pop hright
  obtain ⟨hoperands₂, hsame₂⟩ := operands_of_pop hleft
  have hsame := hsame₁.trans hsame₂
  dsimp only at h
  rw [if_pos rfl] at h
  obtain ⟨a, _, hquery, h⟩ := bind_eq_ok.mp h
  obtain ⟨ha, rfl⟩ := query_eq_ok.mp hquery
  obtain ⟨b, _, hquery, h⟩ := bind_eq_ok.mp h
  obtain ⟨hb, rfl⟩ := query_eq_ok.mp hquery
  obtain ⟨result, m₃, hmake, h⟩ := bind_eq_ok.mp h
  obtain ⟨⟨⟩, m₄, hpush, h⟩ := bind_eq_ok.mp h
  obtain ⟨⟨⟩, m₅, hreleaseLeft, hreleaseRight⟩ := bind_eq_ok.mp h
  obtain ⟨hpushed, hheap⟩ := operands_of_push hpush
  have hmade : m₂.Moved Frame.Steady m₃ := (touches_makeString _).steady.of_ok hmake
  have hpushMoved : m₃.Moved Frame.Onward m₄ := (touches_push result).onward.of_ok hpush
  have hlater : m₃.Moved Frame.Onward m' := hpushMoved.trans
    (((touches_releaseValue (r := .objects) left).onward.of_ok hreleaseLeft).trans
      ((touches_releaseValue (r := .objects) right).onward.of_ok hreleaseRight))
  have htyped₂ : m₂.Typed :=
    (htyped.moved (touches_pop.onward.of_ok hright)).moved (touches_pop.onward.of_ok hleft)
  have htyped₄ : m₄.Typed := (htyped₂.moved hmade).moved hpushMoved
  have hr₂ : Heap.Reached settings m₂.heap := hsame.heap ▸ hr
  have hfits₃ : m₃.heap.arena.size < Address.stackStart.toNat :=
    Nat.lt_of_le_of_lt (hlater.heap.arena (hmade.heap.arena hr₂.inv.limited).2).1 hfits
  have hr₄ : Heap.Reached settings m₄.heap := hheap ▸ hmade.reached hr₂ hfits₃
  obtain ⟨target, rfl, hspells₃, hstack⟩ := spells_of_makeString hr₂ hmake hfits₃
  have hmem : .string m₂.types.builtins.string target ∈ m₄.operands := by
    rw [hpushed]
    exact List.mem_cons_self
  obtain ⟨hs₅, hspells₅⟩ :=
    spells_of_releaseValue hr₄.inv htyped₄ hreleaseLeft (hheap ▸ hspells₃) hmem
  obtain ⟨hs', hspells'⟩ := spells_of_releaseValue hs₅.heap.after (hs₅.typed htyped₄) hreleaseRight
    hspells₅ (by rw [hs₅.operands]; exact hmem)
  refine ⟨left, right, m₂.operands, a, b, target, ?_, ?_, ?_, ?_, hspells'⟩
  · rw [hoperands₁, hoperands₂]
  · rw [← hsame.textOf, ha]
  · rw [← hsame.textOf, hb]
  · rw [hs'.operands, hs₅.operands, hpushed, hsame.types]
    unfold Machine.operands
    rw [hstack]

end Exec

/-! ## Texts through time -/

namespace Machine

variable {m : Machine} {settings : Heap.Settings}

/-- **The value goes on to be read as the text**, whatever happens to other objects. -/
def KeepsText (m : Machine) (v : Value) (text : String) : Prop :=
  ∀ m' : Machine, Heap.LeadsTo (Heap.Call.Spares v.location) m.heap m'.heap →
    m'.heap.arena.size < Address.stackStart.toNat → m'.readString v = .ok text

theorem keepsText_of_spells (hr : Heap.Reached settings m.heap) {target : Address} {text : String}
    (hspells : m.heap.Spells target text) (type : TypeId) : m.KeepsText (.string type target) text := by
  intro m' hled hfits
  obtain ⟨hlt, o, hv⟩ := hspells
  obtain ⟨hr', hv'⟩ := hr.view_of_spares hled hfits hv
  exact readString_of_spells hr' ⟨hlt, o, hv'⟩ type

/-- **What becomes of the texts that a machine makes.** -/
structure KeepsTexts (m : Machine) : Prop where
  /-- A new string keeps its text. -/
  made : ∀ text v m', Exec.makeString text m = .ok v m' →
    m'.heap.arena.size < Address.stackStart.toNat → m'.KeepsText v text
  /-- Concatenating puts in place of its operands a string that keeps the text of both, also where
  they are freed. -/
  concatenated : ∀ length operand flow m', Exec.step length ⟨.cnct, operand⟩ m = .ok flow m' →
    m'.heap.arena.size < Address.stackStart.toNat →
      ∃ left right rest a b target, m.operands = right :: left :: rest ∧ m.textOf left = .ok a ∧
        m.textOf right = .ok b ∧ m'.operands = .string m.types.builtins.string target :: rest ∧
        m'.KeepsText (.string m.types.builtins.string target) (a ++ b)

/-- **Strings keep their texts**, in every machine with a heap that calls lead to. -/
theorem keepsTexts_of_reached (hr : Heap.Reached settings m.heap) (htyped : m.Typed) :
    m.KeepsTexts where
  made text v m' h hfits := by
    have hr' := ((Exec.touches_makeString text).steady.of_ok h).reached hr hfits
    obtain ⟨target, rfl, hspells, -⟩ := Exec.spells_of_makeString hr h hfits
    exact keepsText_of_spells hr' hspells _
  concatenated length operand flow m' h hfits := by
    obtain ⟨⟨⟩, m₁, hbinary, hflow⟩ := Exec.bind_eq_ok.mp h
    cases hflow
    have hr' := ((Exec.touches_binary .cnct).onward.of_ok hbinary).reached hr hfits
    obtain ⟨left, right, rest, a, b, target, hoperands, ha, hb, hpushed, hspells⟩ :=
      Exec.spells_of_concatenate hr htyped hbinary hfits
    exact ⟨left, right, rest, a, b, target, hoperands, ha, hb, hpushed, keepsText_of_spells hr' hspells _⟩

/-- A machine with two texts that nothing but the evaluation stack refers to. -/
def greeting : Machine :=
  let image : Image := { types := #[{ name := "string", category := .string }] }
  { image
    types := (TypeTable.ofImage image).toOption.getD {}
    heap := [.allocate 9 ⟨0⟩ .string, .write (.heap 8) [5, 0, 0, 0, 65, 104, 111, 106, 32],
      .allocate 10 ⟨0⟩ .string, .write (.heap 24) [6, 0, 0, 0, 115, 118, 196, 155, 116, 101]].foldl
        Heap.after { settings := { initialSize := 128 }, arena := .zeroed 128 }
    stack := ((FrameStack.create 256 256).enter { totalSize := 16, maxDepth := 2 } 256).setCurrent
      { base := 0, stop := 16, scratch := 0, cursor := 0, maxDepth := 2,
        values := [.string ⟨0⟩ (.heap 24), .string ⟨0⟩ (.heap 8)] } }

/-- Concatenating frees both texts and leaves one that is read as the two. -/
theorem keepsTexts_of_reached_greeting : ∃ m', Exec.step 1 ⟨.cnct, 0⟩ greeting = .ok .next m' ∧
    m'.heap.objects = [⟨.heap 40, ⟨0⟩, 15, .string⟩] ∧
    m'.operands = [.string ⟨0⟩ (.heap 40)] ∧ m'.KeepsText (.string ⟨0⟩ (.heap 40)) "Ahoj světe" := by
  have hreached : Heap.Reached { initialSize := 128 } greeting.heap :=
    Heap.Reached.foldl_after (.created (by decide)) (by decide) _
  have htyped : greeting.Typed := by
    unfold Typed
    decide
  have hstep := Exec.eq_ok_of_value? (x := Exec.step 1 ⟨.cnct, 0⟩) (m := greeting) (a := .next)
    (by decide)
  have hoperands : greeting.operands = [.string ⟨0⟩ (.heap 24), .string ⟨0⟩ (.heap 8)] := by
    decide
  have hleft : greeting.textOf (.string ⟨0⟩ (.heap 8)) = .ok "Ahoj " := by decide
  have hright : greeting.textOf (.string ⟨0⟩ (.heap 24)) = .ok "světe" := by decide
  have hpushed : ((Exec.step 1 ⟨.cnct, 0⟩).final greeting).operands = [.string ⟨0⟩ (.heap 40)] := by
    decide
  obtain ⟨left, right, rest, a, b, target, hops, ha, hb, hops', hkeeps⟩ :=
    (keepsTexts_of_reached hreached htyped).concatenated _ _ _ _ hstep (by decide)
  rw [hoperands] at hops
  cases hops
  cases hleft.symm.trans ha
  cases hright.symm.trans hb
  cases hpushed.symm.trans hops'
  exact ⟨_, hstep, by decide, hpushed, hkeeps⟩

end Machine

end ManagedVm
