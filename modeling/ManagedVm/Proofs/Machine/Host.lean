import ManagedVm.Machine.Host
import ManagedVm.Proofs.Machine.Balance
import ManagedVm.Proofs.Machine.Leaves

/-!
# A machine and its host

A host starts a machine and then calls its operations in whatever order it likes: it makes values,
writes to them, runs methods. It may hand the machine anything, forged addresses included. Still
every operation makes objects only with their shapes and frees no block of static fields
(`Exec.CallsTyped`), and so does a method, at every point of its run (`Run.Passes.typedCalls`). Together with what starting a machine leaves (`booted_of_create`), this makes
the heap of every machine that a host can come to a typed one (`typedHeap_of_hosted`).
-/

namespace ManagedVm

open ManagedVm.Frame (Allowing Onward Steady)

/-! ## What operations keep -/

/-- **The types allow the calls of the heap** that lead from one machine to the other; the types and the
static blocks are the same. -/
structure Machine.TypedCalls (m m' : Machine) : Prop where
  types : m'.types = m.types
  statics : m'.statics = m.statics
  calls : Heap.LeadsTo m.types.Allows m.heap m'.heap

namespace Machine

variable {R : Frame → Frame → Prop} {m m' m'' : Machine}

instance : Lasting TypedCalls where
  refl _ := ⟨rfl, rfl, .refl _⟩
  trans h h' := ⟨h'.types.trans h.types, h'.statics.trans h.statics, h.calls.trans (h.types ▸ h'.calls)⟩

theorem TypedCalls.trans (h : m.TypedCalls m') (h' : m'.TypedCalls m'') : m.TypedCalls m'' :=
  Lasting.trans h h'

theorem Moved.typedCalls (h : m.Moved R m') : m.TypedCalls m' := ⟨h.types, h.statics, h.calls⟩

/-- The innermost frame plays no part. -/
theorem TypedCalls.of_popped (h : m.TypedCalls m'.popped) : m.TypedCalls m' :=
  ⟨h.types, h.statics, h.calls⟩

end Machine

namespace Exec

variable {α : Type} {r : Reach}

/-- **The operation calls the heap as the types allow**, also when it fails. -/
abbrev CallsTyped (x : Exec α) : Prop := Keeps Machine.TypedCalls (fun _ => True) x

theorem Keeps.callsTyped {R : Frame → Frame → Prop} {E : Error → Prop} {x : Exec α}
    (hx : Keeps (Machine.Moved R) E x) : CallsTyped x := hx.mono Machine.Moved.typedCalls fun _ => trivial

theorem Touches.callsTyped {x : Exec α} (hx : Touches r x) : CallsTyped x := hx.onward.callsTyped

theorem callsTyped_query (q : Machine → Except Error α) : CallsTyped (query q) :=
  .query fun _ _ _ => trivial

theorem callsTyped_record (e : Event) : CallsTyped (record e) := (touches_record (r := .objects) e).callsTyped

theorem callsTyped_pushFrame (layout : FrameLayout) : CallsTyped (pushFrame layout) := by
  refine (callsTyped_query _).bind fun f => (callsTyped_query _).bind fun size =>
    (callsTyped_query _).bind fun number => ?_
  exact .bind (.modify fun m => ⟨rfl, rfl, .refl _⟩) fun _ => callsTyped_record _

theorem callsTyped_popFrame : CallsTyped popFrame := by
  refine (callsTyped_query _).bind fun ⟨f, stack⟩ => ?_
  exact .bind (.modify fun m => ⟨rfl, rfl, .refl _⟩) fun _ => (callsTyped_record _).bind fun _ => .pure f

theorem callsTyped_resetScratch : CallsTyped resetScratch := by
  refine (callsTyped_query _).bind fun f => .guard trivial ?_
  exact .bind (.modify fun m => ⟨rfl, rfl, .refl _⟩) fun _ => .pure f.values

theorem callsTyped_clearHostFrame : CallsTyped clearHostFrame := by
  refine (callsTyped_query _).bind fun depth => .guard trivial ?_
  refine (callsTyped_query _).bind fun held => callsTyped_resetScratch.bind fun dropped => ?_
  exact (callsTyped_record _).bind fun _ => (touches_release (r := .objects) held).callsTyped

theorem callsTyped_takeOutput : CallsTyped takeOutput := by
  refine (callsTyped_query _).bind fun lines => ?_
  exact .bind (.modify fun m => ⟨rfl, rfl, .refl _⟩) fun _ => .pure lines

end Exec

/-! ## Points of invocations -/

namespace Execution

variable {x : Execution} {m : Machine}

theorem typedCalls_start (x : Execution) : x.caller.TypedCalls x.start :=
  x.moved_start.2.typedCalls.of_popped

theorem Reaches.typedCalls [Host] [Host.Orderly] (h : x.Reaches m) : x.caller.TypedCalls m := by
  have hm := h.moved
  exact x.typedCalls_start.trans ⟨hm.types, hm.statics, hm.calls⟩

end Execution

/-- **At every point of an invocation** the heap has been called as the types allow. -/
theorem Run.Passes.typedCalls [Host] [Host.Orderly] {steps nesting : Nat} {r : Request} {m m' : Machine}
    (h : Passes steps nesting r m m') : m.TypedCalls m' := by
  have haccepted : ∀ {r m method name m₁}, Exec.accept r m = .ok (method, name) m₁ → m.TypedCalls m₁ :=
    fun haccept => (Exec.touches_accept (r := .objects) _).callsTyped.of_ok haccept
  induction h with
  | start => exact Machine.Lasting.refl _
  | @accepted _ _ r m => exact ((Exec.touches_accept (r := .objects) r).callsTyped m).final
  | @native _ _ r method name m m₁ haccept =>
    exact (haccepted haccept).trans ((Exec.touches_invokeNative method name r).callsTyped m₁).final
  | @entered _ _ r method name m m₁ haccept =>
    apply (haccepted haccept).trans
    unfold Exec.final
    rcases Exec.enterFrame_cases method name r m₁ with ⟨e, m₂, henter, hm₂⟩ | ⟨m₂, henter, -, hm₂⟩
    · rw [henter]
      exact hm₂.typedCalls
    · rw [henter]
      exact hm₂.typedCalls.of_popped
  | @bound _ _ r method name m m₁ m₂ haccept henter =>
    have hentered := (Exec.enterFrame_eq_popped henter).2.typedCalls.of_popped
    apply ((haccepted haccept).trans hentered).trans
    exact ((Exec.touches_bindArguments 0 r.arguments).callsTyped m₂).final
  | inside hreaches => exact hreaches.typedCalls
  | @nested x index i request p m m₁ m₂ hvisits hi hstep _ ih =>
    have hbegun := (Execution.Reaches.begun hvisits hi).typedCalls
    unfold Exec.final at hbegun
    rw [hstep] at hbegun
    exact hbegun.trans ih
  | @ended steps nesting r m res hrun => exact (keepsFrames_invokeNested steps nesting hrun).typedCalls

/-! ## The host -/

/-- **What a host asks of a machine.** A native may ask the same in the middle of an invocation. -/
inductive HostCall
  | push (v : Value)
  | pop
  | pushFrame (layout : FrameLayout)
  | popFrame
  | resetScratch
  | clearHostFrame
  | carve (count : Nat)
  | write (address : Address) (data : List UInt8)
  | copy (source target : Address) (length : Nat)
  | store (address : Address) (type : TypeId) (v : Value)
  | assign (address : Address) (type : TypeId) (v : Value)
  | assignSlot (choose : Frame → Except Error Binding) (v : Value)
  | load (type : TypeId) (address : Address)
  | duplicate (v : Value)
  | makeScalar (s : Scalar)
  | makePrimitive (type : TypeId) (s : Scalar)
  | makeConstant (index : Int32)
  | makeString (text : String)
  | makeDefault (type : TypeId)
  | makeArray (type : TypeId) (length : Nat)
  | release (targets : List Address)
  | releaseValue (v : Value)
  | size (method : Nat)
  | printLine (line : String)
  | takeOutput
  | useNatives (natives : Natives)

/-- The operation that the host calls. -/
def HostCall.exec : HostCall → Exec Unit
  | push v => Exec.push v
  | pop => discard Exec.pop
  | pushFrame layout => Exec.pushFrame layout
  | popFrame => discard Exec.popFrame
  | resetScratch => discard Exec.resetScratch
  | clearHostFrame => Exec.clearHostFrame
  | carve count => discard (Exec.carve count)
  | write address data => Exec.write address data
  | copy source target length => Exec.copy source target length
  | store address type v => Exec.store address type v
  | assign address type v => Exec.assign address type v
  | assignSlot choose v => Exec.assignSlot choose v
  | load type address => discard (Exec.load type address)
  | duplicate v => discard (Exec.duplicate v)
  | makeScalar s => discard (Exec.makeScalar s)
  | makePrimitive type s => discard (Exec.makePrimitive type s)
  | makeConstant index => discard (Exec.makeConstant index)
  | makeString text => discard (Exec.makeString text)
  | makeDefault type => discard (Exec.makeDefault type)
  | makeArray type length => discard (Exec.makeArray type length)
  | release targets => Exec.release targets
  | releaseValue v => Exec.releaseValue v
  | size method => discard (Exec.size method)
  | printLine line => Exec.printLine line
  | takeOutput => discard Exec.takeOutput
  | useNatives natives => modify fun m => { m with natives }

/-- **Every call of the host** calls the heap as the types allow. -/
theorem HostCall.callsTyped (c : HostCall) : Exec.CallsTyped c.exec := by
  cases c with
  | push v => exact (Exec.touches_push v).callsTyped
  | pop => exact Exec.touches_pop.callsTyped.discard
  | pushFrame layout => exact Exec.callsTyped_pushFrame layout
  | popFrame => exact Exec.callsTyped_popFrame.discard
  | resetScratch => exact Exec.callsTyped_resetScratch.discard
  | clearHostFrame => exact Exec.callsTyped_clearHostFrame
  | carve count => exact (Exec.touches_carve count).callsTyped.discard
  | write address data => exact (Exec.touches_write address data).callsTyped
  | copy source target length => exact (Exec.touches_copy source target length).callsTyped
  | store address type v => exact (Exec.touches_store address type v).callsTyped
  | assign address type v => exact (Exec.touches_assign address type v).callsTyped
  | assignSlot choose v =>
    exact (Exec.callsTyped_query _).bind fun b => (Exec.touches_assign b.address b.type v).callsTyped
  | load type address => exact (Exec.touches_load type address).callsTyped.discard
  | duplicate v => exact (Exec.touches_duplicate v).callsTyped.discard
  | makeScalar s => exact (Exec.touches_makeScalar s).callsTyped.discard
  | makePrimitive type s => exact (Exec.touches_makePrimitive type s).callsTyped.discard
  | makeConstant index => exact (Exec.touches_makeConstant index).callsTyped.discard
  | makeString text => exact (Exec.touches_makeString text).callsTyped.discard
  | makeDefault type => exact (Exec.touches_makeDefault type).callsTyped.discard
  | makeArray type length => exact (Exec.touches_makeArray type length).callsTyped.discard
  | release targets => exact (Exec.touches_release (r := .objects) targets).callsTyped
  | releaseValue v => exact (Exec.touches_releaseValue (r := .objects) v).callsTyped
  | size method => exact (Exec.moves_size method).callsTyped.discard
  | printLine line => exact (Exec.touches_printLine (r := .objects) line).callsTyped
  | takeOutput => exact Exec.callsTyped_takeOutput.discard
  | useNatives natives => exact .modify fun m => ⟨rfl, rfl, .refl _⟩

/-- **The machines that a host can come to** from one: after any calls, failing ones included, and at
any point of any invocation. -/
inductive Machine.Hosted [Host] (m₀ : Machine) : Machine → Prop
  | started : Hosted m₀ m₀
  | called {m : Machine} (c : HostCall) : Hosted m₀ m → Hosted m₀ (c.exec.final m)
  | passed {m m' : Machine} {steps nesting : Nat} {r : Request} : Hosted m₀ m →
      Run.Passes steps nesting r m m' → Hosted m₀ m'

theorem Machine.Hosted.typedCalls [Host] [Host.Orderly] {m₀ m : Machine} (h : m₀.Hosted m) :
    m₀.TypedCalls m := by
  induction h with
  | started => exact Lasting.refl m₀
  | called c _ ih => exact ih.trans (c.callsTyped _).final
  | passed _ hpasses ih => exact ih.trans hpasses.typedCalls

/-! ## Starting -/

/-- **What making the static blocks of some types does.** -/
structure Machine.Blocks (m : Machine) (ds : List Descriptor) (m' : Machine) : Prop where
  types : m'.types = m.types
  calls : Heap.LeadsTo m.types.Allows m.heap m'.heap
  kept : ∀ o ∈ m.heap.objects, o ∈ m'.heap.objects
  listed : ∀ p ∈ m.statics, p ∈ m'.statics
  made : ∀ d ∈ ds, 0 < d.staticSize → ∃ a, (d.id, a) ∈ m'.statics
  live : ∀ p ∈ m'.statics, p ∈ m.statics ∨
    (⟨p.2, p.1, (m.descriptor p.1).staticSize, .statics⟩ : Heap.Object) ∈ m'.heap.objects
  only : ∀ o ∈ m'.heap.objects, o ∈ m.heap.objects ∨ o.kind = .statics

/-- The machine with one more static block. -/
def Machine.withBlock (m : Machine) (d : Descriptor) (p : Heap.Plan) (journal : Journal) : Machine :=
  { m with
    heap := m.heap.occupy p d.staticSize d.id .statics
    statics := m.statics ++ [(d.id, .heap p.start)]
    journal }

/-- A block, then the others. -/
theorem Machine.Blocks.cons {m m' : Machine} {d : Descriptor} {ds : List Descriptor} {p : Heap.Plan}
    {journal : Journal} (h : (m.withBlock d p journal).Blocks ds m') (hrow : m.descriptor d.id = d)
    (hplan : m.heap.plan d.staticSize = .ok p) : m.Blocks (d :: ds) m' := by
  have hshaped : m.types.Shaped d.id d.staticSize .statics := by
    show d.staticSize = (m.descriptor d.id).staticSize
    rw [hrow]
  have hnew : ∀ o, o ∈ (m.withBlock d p journal).heap.objects ↔
      o = ⟨.heap p.start, d.id, d.staticSize, .statics⟩ ∨ o ∈ m.heap.objects := fun _ => Heap.mem_occupy
  have hlisted : ∀ q, q ∈ (m.withBlock d p journal).statics ↔
      q ∈ m.statics ∨ q = (d.id, .heap p.start) := by simp [withBlock]
  constructor
  case types => exact h.types
  case calls => exact (Heap.leadsTo_occupy hplan hshaped).trans h.calls
  case kept => exact fun o ho => h.kept o ((hnew o).mpr (.inr ho))
  case listed => exact fun q hq => h.listed q ((hlisted q).mpr (.inl hq))
  case made =>
    intro d' hd' hpos
    rcases List.mem_cons.mp hd' with rfl | hd'
    · exact ⟨_, h.listed _ ((hlisted _).mpr (.inr rfl))⟩
    · exact h.made d' hd' hpos
  case live =>
    intro q hq
    rcases h.live q hq with hq | hlive
    · rcases (hlisted q).mp hq with hq | rfl
      · exact .inl hq
      · right
        apply h.kept
        rw [hrow]
        exact (hnew _).mpr (.inl rfl)
    · exact .inr hlive
  case only =>
    intro o ho
    rcases h.only o ho with ho | hkind
    · rcases (hnew o).mp ho with rfl | ho
      · exact .inr rfl
      · exact .inl ho
    · exact .inr hkind

/-- **One block after the other**, by induction on the types. -/
theorem Exec.blocks_of_makeStatics {ds : List Descriptor} {m m' : Machine}
    (hrows : ∀ d ∈ ds, m.descriptor d.id = d) (h : makeStatics ds m = .ok ⟨⟩ m') : m.Blocks ds m' := by
  induction ds generalizing m with
  | nil =>
    cases h
    exact ⟨rfl, .refl _, fun _ ho => ho, fun _ hp => hp, fun d hd => (nomatch hd), fun _ hp => .inl hp,
      fun _ ho => .inl ho⟩
  | cons d ds ih =>
    unfold makeStatics at h
    by_cases hsize : 0 < d.staticSize
    · rw [if_pos hsize] at h
      cases hplan : m.heap.plan d.staticSize with
      | error e =>
        rw [bind_of_error (allocateObject_of_error hplan)] at h
        cases h
      | ok p =>
        have hallocated : ∃ journal, allocateObject d.staticSize d.id .statics m = _ :=
          allocateObject_of_ok hplan
        obtain ⟨journal, hallocated⟩ := hallocated
        rw [bind_of_ok hallocated] at h
        obtain ⟨journal, h⟩ : ∃ journal, makeStatics ds (m.withBlock d p journal) = .ok ⟨⟩ m' := ⟨_, h⟩
        have hrest : (m.withBlock d p journal).Blocks ds m' :=
          ih (m := m.withBlock d p journal) (fun d' hd' => hrows d' (.tail _ hd')) h
        exact hrest.cons (hrows d (.head _)) hplan
    · rw [if_neg hsize] at h
      have hrest := ih (fun d' hd' => hrows d' (.tail _ hd')) h
      refine { hrest with made := ?_ }
      intro d' hd' hpos
      rcases List.mem_cons.mp hd' with rfl | hd'
      · exact absurd hpos hsize
      · exact hrest.made d' hd' hpos

/-- **What starting a machine leaves**: the types of its image, a heap that calls they allow lead to
from an empty one, and on it the static blocks and nothing else. -/
structure Machine.Booted (image : Image) (settings : Settings) (m : Machine) : Prop where
  types : TypeTable.ofImage image = .ok m.types
  heap : ∃ empty, Heap.create settings.heap = .ok empty ∧ Heap.LeadsTo m.types.Allows empty m.heap
  made : ∀ type, 0 < (m.descriptor type).staticSize → ∃ a, (type, a) ∈ m.statics
  live : ∀ p ∈ m.statics,
    (⟨p.2, p.1, (m.descriptor p.1).staticSize, .statics⟩ : Heap.Object) ∈ m.heap.objects
  only : ∀ o ∈ m.heap.objects, o.kind = .statics

theorem Machine.booted_of_create {image : Image} {settings : Settings} {threshold : Option Level}
    {m : Machine} (h : create image settings threshold = .ok m) : m.Booted image settings := by
  obtain ⟨types, htypes, h⟩ := except_bind_ok.mp h
  obtain ⟨empty, hempty, h⟩ := except_bind_ok.mp h
  have htypes := except_mapError_ok.mp htypes
  have hempty := except_mapError_ok.mp hempty
  dsimp only at h
  split at h
  · rename_i m' hboot
    cases h
    obtain ⟨ds, m₁, hquery, hboot⟩ := Exec.bind_eq_ok.mp hboot
    obtain ⟨hds, rfl⟩ := Exec.query_eq_ok.mp hquery
    cases hds
    obtain ⟨⟨⟩, m₂, hstatics, hboot⟩ := Exec.bind_eq_ok.mp hboot
    obtain ⟨settings', m₃, hquery, hpush⟩ := Exec.bind_eq_ok.mp hboot
    obtain ⟨-, rfl⟩ := Exec.query_eq_ok.mp hquery
    obtain ⟨size, journal, -, rfl⟩ := Exec.pushFrame_eq_ok hpush
    have hrows : ∀ d ∈ types.descriptors.toList, types.descriptor d.id = d :=
      fun d hd => TypeTable.descriptor_id htypes (Array.mem_def.mpr hd)
    have hblocks := Exec.blocks_of_makeStatics (h := hstatics) hrows
    have hsame : m₂.types = types := hblocks.types
    constructor
    case types =>
      rw [htypes, ← hsame]
    case heap =>
      refine ⟨empty, hempty, ?_⟩
      have hcalls := hblocks.calls
      rw [← hsame] at hcalls
      exact hcalls
    case made =>
      intro type hpos
      have hpos : 0 < (m₂.types.descriptor type).staticSize := hpos
      rw [hsame] at hpos
      rcases TypeTable.descriptor_cases htypes type with hnone | ⟨hrow, hid⟩
      · rw [hnone] at hpos
        cases hpos
      · rw [← hid]
        exact hblocks.made _ (Array.mem_def.mp hrow) hpos
    case live =>
      intro p hp
      have hlive := (hblocks.live p hp).resolve_left (List.not_mem_nil)
      rw [← hsame] at hlive
      exact hlive
    case only =>
      intro o ho
      apply (hblocks.only o ho).resolve_left
      rw [(Heap.create_eq_ok hempty).2]
      exact List.not_mem_nil
  · cases h

/-! ## The heap of a machine with a host -/

/-- The bytes from an address on lie inside the object. -/
def Heap.Object.Holds (o : Heap.Object) (a : Address) (length : Nat) : Prop :=
  a.space = .heap ∧ o.start ≤ a.offset ∧ a.offset + length ≤ o.start + o.size

namespace Machine

/-- **A typed heap**, of a machine that was started as `m₀`. -/
structure TypedHeap (m₀ m : Machine) : Prop where
  /-- The header of a live object fits its kind. -/
  shaped : ∀ o ∈ m.heap.objects, m.types.Shaped o.type o.size o.kind
  /-- What starting made are static blocks, and they are still live where they were. -/
  blocks : ∀ o ∈ m₀.heap.objects, o.kind = .statics ∧ o ∈ m.heap.objects
  /-- Each type with static fields has a block, the same one as at the start. -/
  statics : ∀ type, 0 < (m.descriptor type).staticSize → ∃ a,
    m₀.staticsOf? type = some a ∧ m.staticsOf? type = some a ∧
      (⟨a, type, (m.descriptor type).staticSize, .statics⟩ : Heap.Object) ∈ m.heap.objects
  /-- The scan of a live object reads its leaves and nothing else. -/
  scan : ∀ o ∈ m.heap.objects,
    m.referencesOf o = gather (fun s => m.targetsAt (o.address.add s.1) s.2) (m.leavesOf o)
  inside : ∀ o ∈ m.heap.objects, ∀ s ∈ m.leavesOf o, o.Holds (o.address.add s.1) Address.slotSize
  succeeds : ∀ o ∈ m.heap.objects, ∃ refs, m.referencesOf o = .ok refs
  /-- The objects always say whether they refer to one, and if the question fails it is the roots. -/
  objects : ∀ target, ∃ found, m.objectsReferTo target = .ok found
  roots : ∀ target e, m.isReferenced target = .error e → m.rootsReferTo target = .error e

theorem mem_of_staticsOf? {m : Machine} {type : TypeId} {a : Address}
    (h : m.staticsOf? type = some a) : (type, a) ∈ m.statics := by
  obtain ⟨p, hp, rfl⟩ := Option.map_eq_some_iff.mp h
  have htype : p.1 = type := by simpa using List.find?_some hp
  rw [← htype]
  exact List.mem_of_find?_eq_some hp

theorem exists_staticsOf? {m : Machine} {type : TypeId} {a : Address} (h : (type, a) ∈ m.statics) :
    ∃ b, m.staticsOf? type = some b := by
  unfold staticsOf?
  cases hfind : m.statics.find? (·.1 == type) with
  | none => exact absurd (List.find?_eq_none.mp hfind _ h) (by simp)
  | some p => exact ⟨p.2, rfl⟩

/-- **Every machine that a host can come to has a typed heap.** -/
theorem typedHeap_of_hosted [Host] [Host.Orderly] {image : Image} {settings : Settings} {threshold : Option Level}
    {m₀ m : Machine} (hcreate : create image settings threshold = .ok m₀) (hhosted : m₀.Hosted m)
    (hfits : m.heap.arena.size < Address.stackStart.toNat) : TypedHeap m₀ m := by
  have hbooted := booted_of_create hcreate
  have htyped := hhosted.typedCalls
  have htypes : TypeTable.ofImage image = .ok m.types := htyped.types ▸ hbooted.types
  obtain ⟨empty, hempty, hled⟩ := hbooted.heap
  have hnone : empty.ShapedBy m₀.types := by
    rw [(Heap.create_eq_ok hempty).2]
    exact fun o ho => nomatch ho
  -- The heap at the start is one to start from, for its arena was no larger.
  have hfits₀ : m₀.heap.arena.size < Address.stackStart.toNat := by
    have hlimit := (hled.arena (Heap.Inv.create hempty).limited).2
    have hle := (htyped.calls.arena hlimit).1
    omega
  obtain ⟨hreached₀, hshaped₀, -⟩ := (Heap.Reached.created hempty).shaped hnone hled hfits₀
  obtain ⟨hreached, hshaped, hstay⟩ := hreached₀.shaped hshaped₀ htyped.calls hfits
  rw [← htyped.types] at hshaped
  have hsucceeds : ∀ o ∈ m.heap.objects, ∃ refs, m.referencesOf o = .ok refs := fun o ho =>
    referencesOf_ok hreached.inv hreached.top_lt ho htypes (hshaped o ho)
  have hobjects := objectsReferTo_ok hsucceeds
  constructor
  case shaped => exact hshaped
  case blocks => exact fun o ho => ⟨hbooted.only o ho, hstay o ho (hbooted.only o ho)⟩
  case statics =>
    intro type hpos
    have hpos₀ : 0 < (m₀.descriptor type).staticSize := by
      unfold descriptor at hpos ⊢
      rw [← htyped.types]
      exact hpos
    obtain ⟨a, ha⟩ := hbooted.made type hpos₀
    obtain ⟨b, hb⟩ := exists_staticsOf? ha
    have hsame : m.staticsOf? type = some b := by
      unfold staticsOf? at hb ⊢
      rw [htyped.statics]
      exact hb
    have hlive := hbooted.live _ (mem_of_staticsOf? hb)
    refine ⟨b, hb, hsame, ?_⟩
    unfold descriptor at hlive ⊢
    rw [htyped.types]
    exact hstay _ hlive rfl
  case scan => exact fun o _ => referencesOf_eq m o
  case inside =>
    intro o ho s hs
    have hleaf := leavesOf_inside htypes (hshaped o ho) hs
    obtain ⟨hoffset, hrange⟩ := hreached.inv.inRange_inside hreached.top_lt ho hleaf
    refine ⟨(Heap.inRange_iff.mp hrange).1, ?_, ?_⟩ <;> rw [hoffset] <;> omega
  case succeeds => exact hsucceeds
  case objects => exact hobjects
  case roots => exact fun target e he => rootsReferTo_of_error (hobjects target) he

theorem Hosted.foldl [Host] {m₀ m : Machine} (h : m₀.Hosted m) (calls : List HostCall) :
    m₀.Hosted (calls.foldl (fun m c => c.exec.final m) m) := by
  induction calls generalizing m with
  | nil => exact h
  | cons c calls ih => exact ih (h.called c)

/-- A class with a struct inside, in which there is a reference, and with a static field; arrays of the
struct; and a method that makes an instance and puts it into the static field. -/
def pairs : Image where
  types := #[
    { name := "Node", category := .object, fields := [⟨"root", 0, true⟩, ⟨"pair", 1, false⟩] },
    { name := "Pair", category := .struct, fields := [⟨"tag", 2, false⟩, ⟨"next", 0, false⟩] },
    { name := "int", category := .primitive (.word .int) },
    { name := "Pair[]", category := .array, underlying := some 1 },
    { name := "void", category := .void }]
  memberRefs := #[⟨0, .field 0⟩]
  methods := #[
    { name := "plant", owner := 0, returnType := 4, isStatic := true,
      body := #[⟨.lddft, 0⟩, ⟨.stsfld, 0⟩, ⟨.ret, 0⟩] }]

def pairsSettings : Settings where
  heap := { initialSize := 64 }
  stackSize := 64
  hostScratch := 16
  hostDepth := 4

open scoped Host in
/-- A host runs the method, makes an array, forges an address in it, and wants the static block
released. -/
def forgePairs (m : Machine) : Machine :=
  match Run.invoke 3 { method := 0 } m with
  | none => m
  | some r =>
    [.makeArray ⟨3⟩ 2, .write (.heap 40) [1, 2, 3, 4, 5, 6, 7, 8], .release [.heap 8]].foldl
      (fun m (c : HostCall) => c.exec.final m) (Exec.outcome r)

open scoped Host in
theorem hosted_forgePairs (m : Machine) : m.Hosted (forgePairs m) := by
  unfold forgePairs
  split
  · exact .started
  · rename_i r hrun
    have hended : m.Hosted (Exec.outcome r) := .passed .started (.ended hrun)
    exact hended.foldl _

open scoped Host in
/-- What the host has forged is scanned like anything else: the two leaves of the array end where the
array does. -/
theorem typedHeap_of_hosted_forged : ∃ m₀,
    create pairs pairsSettings none = .ok m₀ ∧
    (forgePairs m₀).heap.objects = [⟨.heap 8, ⟨0⟩, 8, .statics⟩, ⟨.heap 16, ⟨0⟩, 12, .object⟩,
      ⟨.heap 32, ⟨3⟩, 28, .array ⟨1⟩ 2⟩] ∧
    (forgePairs m₀).heap.objects.map (forgePairs m₀).leavesOf =
      [[(0, ⟨0⟩)], [(4, ⟨0⟩)], [(8, ⟨0⟩), (20, ⟨0⟩)]] ∧
    TypedHeap m₀ (forgePairs m₀) := by
  have hrun : (create pairs pairsSettings none).toOption.any (fun m₀ =>
      (forgePairs m₀).heap.objects = [⟨.heap 8, ⟨0⟩, 8, .statics⟩, ⟨.heap 16, ⟨0⟩, 12, .object⟩,
        ⟨.heap 32, ⟨3⟩, 28, .array ⟨1⟩ 2⟩] ∧
      (forgePairs m₀).heap.objects.map (forgePairs m₀).leavesOf =
        [[(0, ⟨0⟩)], [(4, ⟨0⟩)], [(8, ⟨0⟩), (20, ⟨0⟩)]] ∧
      (forgePairs m₀).heap.arena.size < Address.stackStart.toNat) = true := by
    decide +kernel
  cases hcreate : create pairs pairsSettings none with
  | error e =>
    rw [hcreate] at hrun
    cases hrun
  | ok m₀ =>
    rw [hcreate] at hrun
    obtain ⟨hobjects, hleaves, hfits⟩ := of_decide_eq_true hrun
    exact ⟨m₀, rfl, hobjects, hleaves, typedHeap_of_hosted hcreate (hosted_forgePairs m₀) hfits⟩

/-- Structs of up to 2⁵⁹ bytes, and arrays of the largest. -/
def wideArrays : Image where
  types := (Layout.towering 14).types.push
    { name := "Sixteen[]", category := .array, underlying := some 14 }

/-- Without overflow checks an array of 32 of these structs is as large as one of none. -/
theorem wideArray_not_typed : ∃ m₀ m,
    @create .unchecked wideArrays pairsSettings none = .ok m₀ ∧
    @Exec.makeArray .unchecked ⟨15⟩ 32 m₀ = .ok (.array ⟨15⟩ (.heap 8)) m ∧
    m.heap.objects = [⟨.heap 8, ⟨15⟩, 4, .array ⟨14⟩ 32⟩] ∧ (m.descriptor ⟨14⟩).size = UInt64.size / 32 ∧
    ¬ TypedHeap m₀ m := by
  have hrun : (@create .unchecked wideArrays pairsSettings none).toOption.any (fun m₀ =>
      (@Exec.makeArray .unchecked ⟨15⟩ 32).value? m₀ = some (.array ⟨15⟩ (.heap 8)) ∧
      let m := (@Exec.makeArray .unchecked ⟨15⟩ 32).final m₀
      m.heap.objects = [⟨.heap 8, ⟨15⟩, 4, .array ⟨14⟩ 32⟩] ∧ (m.descriptor ⟨14⟩).size = UInt64.size / 32) =
        true := by
    decide +kernel
  cases hcreate : @create .unchecked wideArrays pairsSettings none with
  | error e =>
    rw [hcreate] at hrun
    cases hrun
  | ok m₀ =>
    rw [hcreate] at hrun
    obtain ⟨hmade, hobjects, hsize⟩ := of_decide_eq_true hrun
    refine ⟨m₀, _, rfl, Exec.eq_ok_of_value? hmade, hobjects, hsize, fun htyped => ?_⟩
    obtain ⟨-, -, hshape⟩ := htyped.shaped _ (hobjects ▸ List.mem_singleton_self _)
    have hshape : 4 = lengthSize + 32 * (UInt64.size / 32) := hsize ▸ hshape
    exact absurd hshape (by decide)

end Machine

end ManagedVm
