import ManagedVm.Proofs.Machine.Nesting
import ManagedVm.Proofs.Machine.SheetRuns

/-!
# Invocations of the host on a sheet

A machine that was just started has the host's frame, in which nothing is, and an empty heap if its
program has no static fields (`HostProgram.create`). From there the host invokes a method without parameters.
Its body begins with a sheet of zeros, and the invocation ends as the path through its body does:
with the number that is on top at the return (`HostProgram.invoke_returns`), for want of scratch
(`HostProgram.invoke_overflows`), or with the error of an instruction (`HostProgram.invoke_fails`).

On the way back the array is let go of with the frame, and nothing refers to it any more, so it is freed.
-/

namespace ManagedVm

open scoped Naturals

/-- **A program that the host is to run**, and the settings for it. It has no static fields. An array of
it has elements of a primitive type. -/
structure HostProgram where
  image : Image
  settings : Machine.Settings
  types : TypeTable
  heap : Heap
  ofImage : TypeTable.ofImage image = .ok types
  agree : image.BuiltinsAgree
  noStatics : ∀ d ∈ types.descriptors.toList, d.staticSize = 0
  created : Heap.create settings.heap = .ok heap
  maxSize_lt : settings.heap.maxSize.toNat < Address.stackStart.toNat
  limit_le : settings.maxStackSize.toNat ≤ Address.stackStart.toNat
  scratch_le : settings.hostScratch ≤ settings.maxStackSize.toNat
  callDepth_pos : 0 < settings.maxCallDepth
  /-- The host's frame can receive a number. -/
  roomy : 8 ≤ settings.maxStackSize.toNat
  element : TypeId
  kind : Kind
  category_element : (types.descriptor element).category = .primitive kind

namespace HostProgram

/-- A program with the default settings. -/
def standard (image : Image) {types : TypeTable} (ofImage : TypeTable.ofImage image = .ok types)
    (agree : image.BuiltinsAgree) (noStatics : ∀ d ∈ types.descriptors.toList, d.staticSize = 0)
    {element : TypeId} {kind : Kind}
    (category_element : (types.descriptor element).category = .primitive kind) : HostProgram where
  image
  settings := {}
  types
  heap := { settings := {}, arena := .zeroed 65536 }
  ofImage
  agree
  noStatics
  created := rfl
  maxSize_lt := by decide
  limit_le := by decide
  scratch_le := by decide
  callDepth_pos := by decide
  roomy := by decide
  element
  kind
  category_element

variable (b : HostProgram)

/-- The layout of the host's frame. -/
def layout : FrameLayout := { totalSize := b.settings.hostScratch, maxDepth := b.settings.hostDepth }

/-- The host's frame. -/
def frame : Frame := b.layout.frameAt 0

theorem stop_frame : b.frame.stop = b.settings.hostScratch := by
  show 0 + max b.settings.hostScratch 0 = _
  omega

/-- The scene of the host's frame. -/
def host : ArrayScene where
  image := b.image
  types := b.types
  limit := b.settings.maxStackSize.toNat
  base := 0
  depth := b.settings.hostDepth
  size_eq h := TypeTable.size_of_ofImage b.ofImage (by rw [h]; rfl)
  category_builtin := TypeTable.category_primitive b.ofImage b.agree
  limit_le := b.limit_le
  below := []
  idle := List.forall_mem_nil _
  settings := b.settings.heap
  heap := b.heap
  created := b.created
  maxSize_lt := b.maxSize_lt
  element := b.element
  kind := b.kind
  category_element := b.category_element

/-- The scene of a body in a frame on the host's one. -/
def scene (depth : Nat) : ArrayScene :=
  { b.host with
    base := b.settings.hostScratch
    depth := depth
    below := [b.frame]
    idle := by
      rw [List.forall_mem_singleton]
      exact ⟨rfl, rfl, rfl, rfl⟩ }

/-- **The host's frame shows an empty sheet.** -/
theorem shows_host {m : Machine} {array : Option (List Scalar)} (himage : m.image = b.image)
    (htypes : m.types = b.types) (hlimit : m.stack.limit.toNat = b.settings.maxStackSize.toNat)
    (hinFlight : m.inFlight = []) (hframes : m.stack.frames = [b.frame])
    (hkeeps : b.host.Keeps array m.heap) : b.host.Shows m { locals := [], array, cursor := 0 } :=
  ⟨⟨himage, htypes, hlimit, rfl, hinFlight, Nat.zero_le _, b.frame, hframes,
      ⟨⟨0, .nil, .nil⟩, .nil, List.forall_mem_nil _, Nat.le_refl _, Nat.zero_le _⟩, rfl, rfl, rfl, rfl,
      b.stop_frame.trans_le b.scratch_le⟩,
    hkeeps⟩

/-- A machine is ready for the host to invoke a method. -/
structure Ready (m : Machine) : Prop where
  image : m.image = b.image
  types : m.types = b.types
  limit : m.stack.limit.toNat = b.settings.maxStackSize.toNat
  heap : m.heap = b.heap
  inFlight : m.inFlight = []
  frames : m.stack.frames = [b.frame]
  settings : m.settings = b.settings

end HostProgram

/-! ## Starting a machine -/

namespace Exec

theorem makeStatics_of_none {ds : List Descriptor} (h : ∀ d ∈ ds, d.staticSize = 0) (m : Machine) :
    makeStatics ds m = .ok ⟨⟩ m := by
  induction ds with
  | nil => rfl
  | cons d ds ih =>
    unfold makeStatics
    rw [if_neg (by rw [h d List.mem_cons_self]; exact Nat.lt_irrefl 0)]
    exact ih fun d hd => h d (List.mem_cons_of_mem _ hd)

/-- A frame that fits in the arena is pushed. -/
theorem pushFrame_of_fits {layout : FrameLayout} {m : Machine}
    (h : (layout.frameAt m.stack.top).stop ≤ m.stack.limit.toNat) :
    ∃ size journal, pushFrame layout m = .ok ⟨⟩ { m with stack := m.stack.enter layout size, journal } := by
  obtain ⟨size, hsize⟩ : ∃ size, m.stack.planFrame layout = .ok size := by
    rw [FrameStack.planFrame_checked]
    unfold FrameStack.reserve
    rw [if_neg (Nat.not_lt_of_le h)]
    split <;> exact ⟨_, rfl⟩
  have hframe : query (fun m => .ok (layout.frameAt m.stack.top)) m =
      .ok (layout.frameAt m.stack.top) m := rfl
  unfold pushFrame
  rw [bind_of_ok hframe, bind_of_ok (query_of_ok hsize)]
  exact ⟨size, _, rfl⟩

end Exec

namespace HostProgram

variable (b : HostProgram)

/-- **A machine for the program is ready** when it is made. -/
theorem create (threshold : Option Level) :
    ∃ m, Machine.create b.image b.settings threshold = .ok m ∧ b.Ready m := by
  let m : Machine :=
    { image := b.image, types := b.types, settings := b.settings, heap := b.heap
      stack := .create b.settings.stackSize b.settings.maxStackSize
      journal := { threshold } }
  have hstop : (b.layout.frameAt m.stack.top).stop ≤ m.stack.limit.toNat := b.stop_frame.trans_le b.scratch_le
  obtain ⟨size, journal, hpush⟩ := Exec.pushFrame_of_fits hstop
  have htypes : Exec.query (fun m => .ok m.types.descriptors.toList) m = .ok b.types.descriptors.toList m :=
    rfl
  have hboot : Exec.boot m = .ok ⟨⟩ { m with stack := m.stack.enter b.layout size, journal } := by
    unfold Exec.boot
    rw [Exec.bind_of_ok htypes, Exec.bind_of_ok (Exec.makeStatics_of_none b.noStatics m)]
    exact hpush
  refine ⟨{ m with stack := m.stack.enter b.layout size, journal }, ?_, rfl, rfl, rfl, rfl, rfl, rfl, rfl⟩
  unfold Machine.create
  rw [b.ofImage, b.created]
  simp only [Except.mapError, bind, Except.bind]
  rw [hboot]
  rfl

end HostProgram

/-! ## Entering a method -/

/-- The walk over a method of a program. -/
def Image.walk (image : Image) (types : TypeTable) (index : Nat) : Except Error (Method × Sizing.State) :=
  Machine.sizing
    { image, types, heap := { settings := {}, arena := .zeroed 0 }, stack := .create 0 0 } index

/-- The walk does not look at the bytes of constants. -/
theorem Machine.sizing_eq_walk {m : Machine} {image : Image} {types : TypeTable} {pool : Array UInt8}
    (himage : m.image = { image with pool }) (htypes : m.types = types) (index : Nat) :
    m.sizing index = image.walk types index := by
  let walked : Machine :=
    { image := { image with pool }, types
      heap := { settings := {}, arena := .zeroed 0 }, stack := .create 0 0 }
  rw [Machine.sizing_congr (m := walked) himage htypes]
  rfl

namespace HostProgram

variable (b : HostProgram)

/-- A local of the declared type begins as the content, with all bytes zero. -/
abbrev Declares (v : Variable) (c : Content) : Prop :=
  ∃ type, b.types.declared? v.type = .ok type ∧ b.host.Suits type c ∧ c.bytes = List.replicate c.size 0

/-- **A method for the host to invoke**: it is static, has no parameters, returns a value and calls nothing.
Its locals begin as the contents, and its frame fits in the arena. -/
structure Enters (entry : Nat) (method : Method) (depth : Nat) (cs : List Content) : Prop where
  found : b.image.methods[entry]? = some method
  isStatic : method.isStatic = true
  isNative : method.isNative = false
  parameters : method.parameters = []
  leaf : ∀ i ∈ method.body.toList, i.op ≠ .call
  returns : ∃ type, b.types.declared? method.returnType = .ok type ∧
    (b.types.descriptor type).category ≠ .void
  locals : List.Forall₂ b.Declares method.locals cs
  sizing : ∀ {m : Machine}, m.image = b.image → m.types = b.types → ∃ s, m.sizing entry = .ok (method, s) ∧
    s.maxDepth = depth ∧
      b.settings.hostScratch + ((cs.map Content.size).sum + s.bytes) ≤ b.settings.maxStackSize.toNat

/-- The sheet of a body before its first instruction. -/
def sheet (cs : List Content) : Sheet :=
  { locals := cs, cursor := b.settings.hostScratch + (cs.map Content.size).sum }

variable {b} {m : Machine} {entry depth : Nat} {method : Method} {cs : List Content}

/-- The slots of new locals. -/
theorem slotsOf_locals {vars : List Variable} (htypes : m.types = b.types)
    (h : List.Forall₂ b.Declares vars cs) :
    ∃ slots, m.slotsOf vars = .ok slots ∧ List.Forall₂ b.host.coding.Opens slots cs := by
  induction h with
  | nil => exact ⟨[], rfl, .nil⟩
  | @cons v c vars cs hv _ ih =>
    obtain ⟨type, htype, hsuits, hzero⟩ := hv
    obtain ⟨slots, hslots, hrest⟩ := ih
    have hsize := b.host.size_coding c
    refine ⟨(type, c.size) :: slots, ?_, .cons ⟨hsuits, hsize.symm, hsize ▸ hzero⟩ hrest⟩
    unfold Machine.slotsOf at hslots ⊢
    rw [List.mapM_cons, hslots]
    unfold Machine.declaredType Machine.descriptor
    rw [htypes, htype, ← hsuits.size_eq]
    rfl

theorem map_size_of_opens {slots : List (TypeId × Nat)} (h : List.Forall₂ b.host.coding.Opens slots cs) :
    slots.map (·.2) = cs.map Content.size :=
  (Coding.map_size_of_opens h).trans (List.map_congr_left fun c _ => b.host.size_coding c)

theorem nativeReserve_of_leaf (hmethod : m.methodAt entry = .ok method)
    (h : ∀ i ∈ method.body.toList, i.op ≠ .call) : m.nativeReserve entry = .ok 0 := by
  have hcalls : method.body.toList.filter (·.op == .call) = [] := by
    rw [List.filter_eq_nil_iff]
    intro i hi
    rw [beq_iff_eq]
    exact h i hi
  unfold Machine.nativeReserve
  rw [hmethod]
  dsimp only [bind, Except.bind]
  rw [hcalls]
  rfl

/-- The layout of the method's frame. -/
theorem planFrame_eq (hm : b.Ready m) (he : b.Enters entry method depth cs) (name : String) :
    ∃ layout journal, Exec.planFrame method name { method := entry } m = .ok layout { m with journal } ∧
      layout.maxDepth = depth ∧ layout.receiver = none ∧ layout.arguments = [] ∧
      List.Forall₂ b.host.coding.Opens layout.locals cs ∧
      b.settings.hostScratch + max layout.totalSize (cs.map Content.size).sum ≤ b.settings.maxStackSize.toNat := by
  obtain ⟨s, hsizing, hdepth, hfits⟩ := he.sizing hm.image hm.types
  have hmethod := (Machine.sizing_eq_ok hsizing).1
  obtain ⟨sized, hsized⟩ : ∃ sized, m.noting (.sized method.name s.maxDepth s.bytes) = sized := ⟨_, rfl⟩
  have hsize : Exec.size entry m = .ok (s.maxDepth, s.bytes) sized := by
    unfold Exec.size
    rw [Exec.bind_of_ok (Exec.query_of_ok hsizing), ← hsized]
    rfl
  have hreserve : sized.nativeReserve entry = .ok 0 :=
    nativeReserve_of_leaf (by rw [← hsized]; exact hmethod) he.leaf
  have htypes : sized.types = b.types := by
    rw [← hsized]
    exact hm.types
  obtain ⟨slots, hslots, hcontents⟩ := slotsOf_locals htypes he.locals
  have hparameters : sized.slotsOf method.parameters = .ok [] := by
    rw [he.parameters]
    rfl
  have hbytes : ((slots ++ []).map Prod.snd).sum = (cs.map Content.size).sum := by
    rw [List.append_nil, map_size_of_opens hcontents]
  have hword := b.settings.maxStackSize.toNat_lt_size
  have hslotsFit : ((slots ++ []).map Prod.snd).sum < UInt64.size := by omega
  have htotalFit : ((slots ++ []).map Prod.snd).sum + s.bytes + 0 < UInt64.size := by omega
  let layout : FrameLayout :=
    { method := some entry
      totalSize := ((slots ++ []).map Prod.snd).sum + s.bytes + 0
      maxDepth := s.maxDepth
      locals := slots }
  let planned := (m.noting (.sized method.name s.maxDepth s.bytes)).noting
    (.framePlanned name ((slots ++ []).map Prod.snd).sum s.bytes 0)
  refine ⟨layout, planned.journal, ?_, hdepth, rfl, rfl, hcontents, ?_⟩
  · have hrecord : Exec.record (.framePlanned name ((slots ++ []).map Prod.snd).sum s.bytes 0) sized =
        .ok ⟨⟩ planned := by
      rw [← hsized]
      rfl
    unfold Exec.planFrame
    rw [Exec.bind_of_ok hsize]
    dsimp only
    rw [Exec.bind_of_ok (Exec.query_of_ok hreserve), Exec.bind_of_ok (Exec.query_of_ok hslots),
      Exec.bind_of_ok (Exec.query_of_ok hparameters),
      Exec.bind_of_ok (Exec.query_of_ok (Size.fit_of_lt hslotsFit)), Exec.bind_of_ok hrecord,
      Exec.bind_of_ok (Exec.query_of_ok (Size.fit_of_lt htotalFit))]
    rfl
  · show _ + max (((slots ++ []).map Prod.snd).sum + s.bytes + 0) _ ≤ _
    omega

/-- **The frame of the method shows the sheet.** -/
theorem enter (hm : b.Ready m) (he : b.Enters entry method depth cs) (name : String) :
    ∃ m', Exec.enterFrame method name { method := entry } m = .ok ⟨⟩ m' ∧
      (b.scene depth).Shows m' (b.sheet cs) := by
  obtain ⟨layout, journal, hplan, hdepth, hreceiver, harguments, hcontents, hfits⟩ := planFrame_eq hm he name
  have hbytes : layout.slotBytes = (cs.map Content.size).sum := by
    unfold FrameLayout.slotBytes
    rw [harguments, List.append_nil, map_size_of_opens hcontents]
  have htop : m.stack.top = b.settings.hostScratch := by
    unfold FrameStack.top
    rw [hm.frames]
    exact b.stop_frame
  have hstop : (layout.frameAt m.stack.top).stop ≤ b.settings.maxStackSize.toNat := by
    rw [layout.frameAt_eq, htop, hbytes]
    exact hfits
  have hnear : m.stack.top + layout.slotBytes ≤ Address.stackStart.toNat := by
    have hfar := b.limit_le
    rw [htop, hbytes]
    omega
  obtain ⟨size, journal', hpush⟩ := Exec.pushFrame_of_fits (m := { m with journal }) (hm.limit ▸ hstop)
  refine ⟨_, (congrFun (Exec.enterFrame_eq method name { method := entry }) m).trans
    ((Exec.bind_of_ok hplan).trans hpush), ?_⟩
  have hnone : List.Forall₂ (b.scene depth).coding.Opens layout.arguments [] := by
    rw [harguments]
    exact .nil
  have hmirrors := Scene.mirrors_enter (g := (b.scene depth).toScene) (k := (b.scene depth).coding)
    (m := { m with journal }) hm.image hm.types hm.limit htop hdepth hcontents hnone hstop hnear size journal'
  have hcursor : m.stack.top + layout.slotBytes = (b.sheet cs).cursor := by rw [htop, hbytes, sheet]
  have houtside : Outside.mk m.heap m.inFlight m.stack.frames layout.receiver =
      (b.scene depth).outside m.heap := by
    rw [hm.inFlight, hm.frames, hreceiver]
    rfl
  rw [hcursor, houtside] at hmirrors
  exact ArrayScene.shows_of_mirrors hmirrors hm.heap

end HostProgram

/-! ## Leaving a method -/

namespace ArrayScene

open Exec

variable {g : ArrayScene} {m : Machine} {t : Sheet} {s : Scalar} {method : Method}

/-- The objects that slots refer to. -/
theorem mapM_referencesIn {start stop : Nat} {bs : List Binding} {cs : List Content}
    (hslots : g.coding.Slots m.stack.arena start bs cs stop) (h : g.Shows m t) (hstop : stop ≤ t.cursor) :
    bs.mapM (fun b => m.referencesIn b.address b.type) = .ok (cs.map Content.targets) := by
  induction hslots with
  | nil => rfl
  | @cons start stop type bs c cs hsuits hholds hrest ih =>
    have hle := hrest.le
    rw [g.size_coding] at hle
    rw [List.mapM_cons, referencesIn_slot (c := c) h.mirrors hsuits hholds (by omega), ih hstop]
    rfl

/-- **What the frame refers to** when its evaluation stack is empty. -/
theorem frameReferences_shows (h : g.Shows m t) (hvalues : t.values = []) :
    m.frameReferences = .ok (t.locals.flatMap Content.targets) := by
  obtain ⟨f, hframes, hf⟩ := h.mirrors.frame
  obtain ⟨middle, hlocals, harguments⟩ := hf.slots
  have hcurrent : m.stack.current = .ok f := by
    unfold FrameStack.current
    rw [hframes]
  have hslots := mapM_referencesIn hlocals h (harguments.le.trans (hf.cursor_eq ▸ hf.scratch_le))
  have hnone : f.values = [] := by
    have hforall := hf.values
    rw [show t.contents.values = [] from hvalues] at hforall
    exact List.forall₂_nil_right_iff.mp hforall
  unfold Machine.frameReferences
  rw [hcurrent]
  dsimp only [bind, Except.bind]
  rw [hslots, hnone]
  show Except.ok (t.locals.map Content.targets ++ []).flatten = _
  rw [List.append_nil, List.flatMap_def]

/-- A frame with an empty sheet has nothing in it. -/
theorem idle_of_empty {heap : Heap} {held : List (Value × Content)} {cursor : Nat} {f : Frame}
    (h : g.Framed g.coding (g.outside heap) m.stack.arena held cursor f { locals := [] }) : f.Idle := by
  obtain ⟨middle, hlocals, harguments⟩ := h.slots
  exact ⟨h.receiver, List.forall₂_nil_right_iff.mp h.values, hlocals.eq_nil, harguments.eq_nil⟩

/-- **Nothing refers to the array** once no frame does. -/
theorem release_unreferenced {ws : List Scalar} (hhouses : g.Houses ws m.heap) (htypes : m.types = g.types)
    (hidle : ∀ f ∈ m.stack.frames, f.Idle) {type : TypeId} {a : Address}
    (hheld : m.inFlight = [.primitive type a]) :
    ∃ heap journal, release [Heap.firstAddress] m = .ok ⟨⟩ { m with heap, journal } ∧
      heap.objects = [] ∧ heap.allocations = 1 ∧ heap.frees = 1 := by
  obtain ⟨type', hobjects, hget⟩ := hhouses.get
  have hframes : m.stack.frames.reverse.anyM (m.frameRefersTo Heap.firstAddress) = .ok false := by
    have hnone : ∀ f ∈ m.stack.frames.reverse, m.frameRefersTo Heap.firstAddress f = .ok false :=
      fun f hf => frameRefersTo_idle (hidle f (List.mem_reverse.mp hf)) _
    obtain ⟨found, hfound⟩ := except_anyM_ok fun f hf => ⟨false, hnone f hf⟩
    cases found with
    | false => exact hfound
    | true =>
      obtain ⟨f, hf, htrue⟩ := except_anyM_true hfound
      cases htrue.symm.trans (hnone f hf)
  have hreferenced : m.isReferenced Heap.firstAddress = .ok false := by
    unfold Machine.isReferenced
    rw [hframes, hheld, hobjects]
    rfl
  have hinner : m.referencesOf (g.object type' ws.length) = .ok [] := by
    have hholds : m.holdsReferences g.element = false := by
      unfold Machine.holdsReferences Machine.nesting Machine.mayRefer Machine.descriptor
      dsimp only
      rw [htypes, g.category_element]
      rfl
    unfold Machine.referencesOf
    dsimp only [object]
    rw [hholds]
    rfl
  have hdead : m.firstDead [Heap.firstAddress] = .ok (some (g.object type' ws.length, [])) := by
    unfold Machine.firstDead
    rw [hget]
    dsimp only
    rw [if_neg (by simp [object]), hreferenced]
    rfl
  have hcount : query (fun m => .ok m.heap.objects.length) m = .ok 1 m := by
    apply query_of_ok
    rw [hobjects]
    rfl
  have hquery : query (·.firstDead [Heap.firstAddress].reverse) m =
      .ok (some (g.object type' ws.length, [])) m := query_of_ok hdead
  obtain ⟨_, hfree⟩ : ∃ journal, discard (freeObject (g.object type' ws.length).address) m =
      .ok ⟨⟩ { m with heap := m.heap.vacate (g.object type' ws.length), journal } :=
    ⟨_, discard_of_ok (freeObject_of_ok hget)⟩
  obtain ⟨journal, hrelease⟩ : ∃ journal, release [Heap.firstAddress] m =
      .ok ⟨⟩ { m with heap := m.heap.vacate (g.object type' ws.length), journal } := by
    unfold release
    rw [bind_of_ok hcount]
    unfold releaseUpTo
    rw [bind_of_ok hquery]
    dsimp only
    rw [bind_of_ok (query_of_ok hinner), bind_of_ok hfree]
    exact ⟨_, rfl⟩
  refine ⟨_, journal, hrelease, ?_, hhouses.allocations, ?_⟩
  · show m.heap.objects.filter (·.start ≠ (g.object type' ws.length).start) = []
    rw [hobjects]
    simp
  · show m.heap.frees + 1 = 1
    rw [hhouses.frees]

end ArrayScene

/-- **What a body has to let go of** when it returns: the array if there is one, by one of its locals. -/
def Sheet.Owning (t : Sheet) : Prop :=
  t.locals.flatMap Content.targets = if t.array.isSome then [Heap.firstAddress] else []

namespace HostProgram

open Exec

variable {b : HostProgram} {m : Machine} {t : Sheet} {s : Scalar}

/-- **The heap after an invocation**: as it was found, or the array has been made and freed. -/
def Clean (b : HostProgram) : Option (List Scalar) → Heap → Prop
  | none, h => h = b.heap
  | some _, h => h.objects = [] ∧ h.allocations = 1 ∧ h.frees = 1

/-- **What is let go of** while the result is held. -/
theorem release_owned {cursor : Nat} (h : b.host.Shows m { locals := [], array := t.array, cursor })
    (howning : t.Owning) (type : TypeId) (a : Address) :
    ∃ heap journal, release (t.locals.flatMap Content.targets) { m with inFlight := [.primitive type a] } =
      .ok ⟨⟩ { m with inFlight := [.primitive type a], heap, journal } ∧ b.Clean t.array heap := by
  have hkeeps := h.heap
  unfold Sheet.Owning at howning
  generalize t.array = array at howning h hkeeps
  cases array with
  | none =>
    rw [howning]
    exact ⟨m.heap, m.journal, release_nil _, hkeeps⟩
  | some ws =>
    rw [howning]
    have hidle : ∀ f ∈ m.stack.frames, f.Idle := by
      obtain ⟨f, hframes, hf⟩ := h.mirrors.frame
      rw [hframes]
      intro f' hf'
      cases List.mem_singleton.mp hf'
      exact ArrayScene.idle_of_empty hf
    exact ArrayScene.release_unreferenced (m := { m with inFlight := [.primitive type a] }) hkeeps
      h.mirrors.types hidle rfl

/-- **Back in the host's frame**: it holds the result, and the array is gone. -/
theorem afterFrame_shows (h : b.host.Shows m { locals := [], array := t.array, cursor := 0 })
    {type : TypeId} {a : Address} (hcategory : (b.types.descriptor type).category = .primitive s.kind)
    (howning : t.Owning) :
    ∃ v m', afterFrame (t.locals.flatMap Content.targets) (some (.primitive type a, s.encode)) m =
        .ok (some v) m' ∧ m'.readScalar v = .ok s ∧ b.Clean t.array m'.heap := by
  rcases carve_cases h.mirrors (b.host.near _) s.kind with ⟨-, hover⟩ | ⟨m₁, hcarve, -, -, hwrite⟩
  · have hle := s.kind.size_le
    have hroom := b.roomy
    have hover : b.settings.maxStackSize.toNat < 0 + s.kind.size := hover
    omega
  · obtain ⟨hwritten, h₂⟩ : write (.stack 0) s.encode m₁ = .ok ⟨⟩ (m₁.written 0 s.encode) ∧
        b.host.Mirrors b.host.coding (b.host.outside m.heap) [(.primitive type (.stack 0), .number s)]
          (0 + s.kind.size) (m₁.written 0 s.encode) { locals := [] } :=
      hwrite (w := .ofScalar s) hcategory rfl
    generalize m₁.written 0 s.encode = m₂ at hwritten h₂
    have hrehome : rehome (.primitive type a) s.encode m = .ok (.primitive type (.stack 0)) m₂ := by
      show (rehome.stored s.encode >>= fun address => pure (Value.primitive type address)) m = _
      unfold rehome.stored
      rw [s.length_encode]
      simp only [bind_assoc]
      rw [bind_of_ok hcarve, bind_of_ok hwritten]
      rfl
    have hpin : pin (.primitive type (.stack 0)) m₂ =
        .ok ⟨⟩ { m₂ with inFlight := [.primitive type (.stack 0)] } := by
      show EStateM.Result.ok _ { m₂ with inFlight := _ :: m₂.inFlight } = _
      rw [h₂.inFlight]
      rfl
    have hshows := ArrayScene.shows_of_mirrors
      (t := { locals := [], array := t.array, cursor := 0 + s.kind.size }) h₂ h.heap
    obtain ⟨heap, journal, hrelease, hclean⟩ := release_owned (t := t) hshows howning type (.stack 0)
    have hheld : leaveFrame.held (release (t.locals.flatMap Content.targets))
        { m₂ with inFlight := [.primitive type (.stack 0)] } =
          .ok ⟨⟩ { m₂ with inFlight := [], heap, journal } := by
      unfold leaveFrame.held
      rw [hrelease]
      rfl
    refine ⟨.primitive type (.stack 0), { m₂ with inFlight := [], heap, journal }, ?_, ?_, hclean⟩
    · unfold afterFrame
      dsimp only
      rw [bind_of_ok hrehome, bind_of_ok hpin, bind_of_ok hheld]
      rfl
    · have hread := ((h₂.withHeap heap journal).withInFlight []).readScalar List.mem_cons_self
      rw [Cell.scalar_ofScalar] at hread
      exact hread

theorem keeps_host {depth : Nat} {array : Option (List Scalar)} {heap : Heap}
    (h : (b.scene depth).Keeps array heap) : b.host.Keeps array heap := by
  cases array with
  | none => exact h
  | some ws => exact ⟨h.reached, h.entry, h.kinds, h.short, h.allocations, h.frees⟩

/-- **The way back to the host's frame**, with a number as the result. -/
theorem leaveFrame_shows {depth : Nat} (h : (b.scene depth).Shows m t) (hvalues : t.values = [])
    {type : TypeId} {a : Address} (hcategory : (b.types.descriptor type).category = .primitive s.kind)
    (howning : t.Owning) :
    ∃ v m', leaveFrame (.ok (some (.primitive type a, s.encode))) m = .ok (some v) m' ∧
      m'.readScalar v = .ok s ∧ b.Clean t.array m'.heap := by
  obtain ⟨f, hframes, -⟩ := h.mirrors.frame
  have hframes : m.stack.frames = [f, b.frame] := hframes
  obtain ⟨journal, hpop⟩ : ∃ journal, discard popFrame m =
      .ok ⟨⟩ { m with stack := { m.stack with frames := [b.frame] }, journal } := by
    have hquery : query (·.stack.popFrame) m = .ok (f, { m.stack with frames := [b.frame] }) m := by
      apply query_of_ok
      unfold FrameStack.popFrame
      rw [hframes]
    have hpop : popFrame m = _ := bind_of_ok hquery
    exact ⟨_, discard_of_ok hpop⟩
  have hhost : b.host.Shows { m with stack := { m.stack with frames := [b.frame] }, journal }
      { locals := [], array := t.array, cursor := 0 } :=
    b.shows_host h.mirrors.image h.mirrors.types h.mirrors.limit h.mirrors.inFlight rfl (keeps_host h.heap)
  obtain ⟨v, m', hafter, hrest⟩ := afterFrame_shows hhost hcategory howning
  refine ⟨v, m', ?_, hrest⟩
  have hreferences : query (fun m => .ok m.frameReferences) m = .ok m.frameReferences m := rfl
  rw [leaveFrame_eq, bind_of_ok hreferences, bind_of_ok hpop, ArrayScene.frameReferences_shows h hvalues]
  exact hafter

/-! ## Invocations -/

variable {entry depth : Nat} {method : Method} {cs : List Content}

theorem Enters.returnsValue (he : b.Enters entry method depth cs) (htypes : m.types = b.types) :
    m.returnsValue method = .ok true := by
  obtain ⟨type, htype, hvoid⟩ := he.returns
  unfold Machine.returnsValue Machine.isVoid Machine.declaredType
  rw [htypes, htype]
  show Except.ok (!((b.types.descriptor type).category == .void)) = _
  rw [beq_false_of_ne hvoid]
  rfl

/-- The request of the host is accepted. -/
theorem accept_eq (hm : b.Ready m) (he : b.Enters entry method depth cs) :
    ∃ name m', accept { method := entry } m = .ok (method, name) m' ∧ b.Ready m' := by
  have hmethod : m.methodAt entry = .ok method := by
    unfold Machine.methodAt
    rw [hm.image, he.found]
  have hcheck : m.checkRequest method (m.qualifiedName method) { method := entry } = .ok ⟨⟩ := by
    have hdepth : m.stack.depth = 1 := by
      unfold FrameStack.depth
      rw [hm.frames]
      rfl
    have hallowed : ¬ b.settings.maxCallDepth < 1 := Nat.not_lt_of_le b.callDepth_pos
    unfold Machine.checkRequest
    rw [he.isStatic, he.parameters, hm.settings, hdepth, if_neg hallowed]
    rfl
  have hname : query (fun m => .ok (m.qualifiedName method)) m = .ok (m.qualifiedName method) m := rfl
  refine ⟨m.qualifiedName method, m.noting (.invoking (m.qualifiedName method)), ?_,
    hm.image, hm.types, hm.limit, hm.heap, hm.inFlight, hm.frames, hm.settings⟩
  unfold accept
  rw [bind_of_ok (query_of_ok hmethod), bind_of_ok hname, bind_of_ok (query_of_ok hcheck)]
  rfl

/-- **An invocation of the host is a run of the body** from its sheet, and the way back from its end. -/
theorem invoke_of_attempt [Host] (hm : b.Ready m) (he : b.Enters entry method depth cs) :
    ∃ name framed, (b.scene depth).Shows framed (b.sheet cs) ∧ ∀ {steps outcome m'},
      Run.attempt (Run.execute (Run.invokeNested steps (m.settings.maxCallDepth + 1)) steps method name [])
          framed = some (.ok outcome m') →
        Run.invoke steps { method := entry } m = some (leaveFrame outcome m') := by
  obtain ⟨name, m₁, haccept, hm₁⟩ := accept_eq hm he
  obtain ⟨framed, henter, hshows⟩ := enter hm₁ he name
  refine ⟨name, framed, hshows, fun h => ?_⟩
  show Run.invokeOne _ _ _ m = _
  unfold Run.invokeOne
  rw [Run.bind_lift, haccept]
  dsimp only
  rw [he.isNative, if_neg Bool.false_ne_true, Run.bind_lift, henter]
  dsimp only
  rw [Run.bind_eq, h]
  rfl

/-- The body has ended, and there is a result. -/
theorem attempt_of_ok {nested : Run.Invoke} {name : String} {steps : Nat} {framed m' m'' : Machine}
    {captured : Option (Value × List UInt8)}
    (hbody : Run.body nested name method.body steps 0 framed = some (.ok ⟨⟩ m'))
    (hresult : (takeResult method >>= capture) m' = .ok captured m'') :
    Run.attempt (Run.execute nested steps method name []) framed = some (.ok (.ok captured) m'') := by
  have hexecute : Run.execute nested steps method name [] framed = some (.ok captured m'') := by
    unfold Run.execute
    rw [Run.bind_lift]
    show (Run.body nested name method.body steps 0 >>= _) framed = _
    rw [Run.bind_eq, hbody]
    exact (Run.bind_lift_lift _ _).trans (congrArg some hresult)
  unfold Run.attempt
  rw [hexecute]

/-- The body has failed. -/
theorem attempt_of_error {nested : Run.Invoke} {name : String} {steps : Nat} {framed m' : Machine}
    {e : Error} (hbody : Run.body nested name method.body steps 0 framed = some (.error e m')) :
    Run.attempt (Run.execute nested steps method name []) framed = some (.ok (.error e) m') := by
  have hexecute : Run.execute nested steps method name [] framed = some (.error e m') := by
    unfold Run.execute
    rw [Run.bind_lift]
    show (Run.body nested name method.body steps 0 >>= _) framed = _
    rw [Run.bind_eq, hbody]
  unfold Run.attempt
  rw [hexecute]

/-- An invocation leaves as many frames as there were. -/
theorem depth_invoke [Host] [Host.Orderly] {steps : Nat} {r : Request} {res : EStateM.Result Error Machine (Option Value)}
    (hm : b.Ready m) (h : Run.invoke steps r m = some res) : (outcome res).stack.depth = 1 := by
  have hframes := (Run.keepsFrames_invokeNested steps _ h).frames.length_eq
  rw [hm.frames] at hframes
  exact hframes

/-- **A failure of the body is that of the invocation.** -/
theorem invoke_of_error [Host] [Host.Orderly] {steps : Nat} {framed m' : Machine} {name : String} {e : Error} (hm : b.Ready m)
    (hinvoke : ∀ {outcome m'},
      Run.attempt (Run.execute (Run.invokeNested steps (m.settings.maxCallDepth + 1)) steps method name [])
          framed = some (.ok outcome m') →
        Run.invoke steps { method := entry } m = some (leaveFrame outcome m'))
    (hshows : (b.scene depth).Shows framed t)
    (hbody : Run.body (Run.invokeNested steps (m.settings.maxCallDepth + 1)) name method.body steps 0 framed =
      some (.error e m')) :
    ∃ m'', Run.invoke steps { method := entry } m = some (.error e m'') ∧ m''.stack.depth = 1 := by
  obtain ⟨f, hframes, -⟩ := hshows.mirrors.frame
  have hmoved := Run.moved_body (Run.keepsFrames_invokeNested _ _) hbody
  have hne : m'.stack.frames ≠ [] := by
    have hreplaced := hmoved.frames
    rw [hframes] at hreplaced
    obtain ⟨f', hf', -⟩ := hreplaced.of_cons
    rw [show m'.stack.frames = _ from hf']
    exact List.cons_ne_nil _ _
  obtain ⟨m'', -, heq⟩ := leaveFrame_popped hne
  have hfailed : Run.invoke steps { method := entry } m = some (.error e m'') := by
    rw [hinvoke (attempt_of_error hbody), heq]
    rfl
  exact ⟨m'', hfailed, depth_invoke hm hfailed⟩

variable {n k steps : Nat}

/-- **An invocation returns the number** that the path through its body ends with, and the array is
freed. -/
theorem invoke_returns [Host] [Host.Orderly] (hm : b.Ready m) (he : b.Enters entry method depth cs)
    (hpath : (b.scene depth).Path method.body n 0 (b.sheet cs) k t) {x : Int32}
    (hret : method.body[k]? = some ⟨.ret, x⟩) (hvalues : t.values = [.number s]) (howning : t.Owning)
    (hfits : t.cursor ≤ b.settings.maxStackSize.toNat) (hsteps : n < steps) :
    ∃ v m', Run.invoke steps { method := entry } m = some (.ok (some v) m') ∧
      m'.readScalar v = .ok s ∧ b.Clean t.array m'.heap ∧ m'.stack.depth = 1 := by
  obtain ⟨name, framed, hshows, hinvoke⟩ := invoke_of_attempt hm he
  obtain ⟨more, rfl⟩ := Nat.exists_eq_add_of_lt hsteps
  rcases hpath.body hshows (Run.invokeNested (n + more + 1) (m.settings.maxCallDepth + 1)) name with
    ⟨-, m₁, h₁, hbody⟩ | ⟨hover, -⟩
  · have hended := (hbody (more + 1)).trans (Run.body_of_ret _ hret more)
    have h₁ := h₁.noting (.executing name k ⟨.ret, x⟩)
    obtain ⟨type, a, m₂, hresult, h₂, hcategory⟩ :=
      result_mirrors (w := .ofScalar s) h₁.mirrors hvalues (he.returnsValue h₁.mirrors.types)
    have h₂ := ArrayScene.shows_of_mirrors (t := { t with values := [] }) h₂ h₁.heap
    obtain ⟨v, m₃, hleave, hread, hclean⟩ := leaveFrame_shows h₂ rfl hcategory howning
    have hok : Run.invoke (n + more + 1) { method := entry } m = some (.ok (some v) m₃) :=
      (hinvoke (attempt_of_ok hended hresult)).trans (congrArg some hleave)
    exact ⟨v, m₃, hok, hread, hclean, depth_invoke hm hok⟩
  · exact absurd hfits (Nat.not_le_of_lt hover)

/-- **An invocation fails for want of scratch** if that for the path through its body does not fit. -/
theorem invoke_overflows [Host] [Host.Orderly] (hm : b.Ready m) (he : b.Enters entry method depth cs)
    (hpath : (b.scene depth).Path method.body n 0 (b.sheet cs) k t)
    (hover : b.settings.maxStackSize.toNat < t.cursor) (hsteps : n ≤ steps) :
    ∃ e m' needed, Run.invoke steps { method := entry } m = some (.error e m') ∧
      e.rootCause = .stackOverflow needed b.settings.maxStackSize.toNat ∧ m'.stack.depth = 1 := by
  obtain ⟨name, framed, hshows, hinvoke⟩ := invoke_of_attempt hm he
  obtain ⟨more, rfl⟩ := Nat.exists_eq_add_of_le hsteps
  rcases hpath.body hshows (Run.invokeNested (n + more) (m.settings.maxCallDepth + 1)) name with
    ⟨hfits, -⟩ | ⟨-, e, m₁, needed, hroot, hbody⟩
  · exact absurd hover (Nat.not_lt_of_le hfits)
  · obtain ⟨m₂, hfailed, hdepth⟩ := invoke_of_error hm hinvoke hshows (hbody more)
    exact ⟨e, m₂, needed, hfailed, hroot, hdepth⟩

/-- **An invocation fails with the error** of the instruction that the path through its body leads to. -/
theorem invoke_fails [Host] [Host.Orderly] (hm : b.Ready m) (he : b.Enters entry method depth cs)
    (hpath : (b.scene depth).Path method.body n 0 (b.sheet cs) k t) {i : Instruction}
    (hi : method.body[k]? = some i) {e : Error}
    (hstep : ∀ m, (b.scene depth).Shows m t → ∃ m', Exec.step method.body.size i m = .error e m')
    (hfits : t.cursor ≤ b.settings.maxStackSize.toNat) (hsteps : n < steps) :
    ∃ e' m', Run.invoke steps { method := entry } m = some (.error e' m') ∧
      e'.rootCause = e.rootCause ∧ m'.stack.depth = 1 := by
  obtain ⟨name, framed, hshows, hinvoke⟩ := invoke_of_attempt hm he
  obtain ⟨more, rfl⟩ := Nat.exists_eq_add_of_lt hsteps
  rcases hpath.body hshows (Run.invokeNested (n + more + 1) (m.settings.maxCallDepth + 1)) name with
    ⟨-, m₁, h₁, hbody⟩ | ⟨hover, -⟩
  · obtain ⟨m₂, herror⟩ := hstep _ (h₁.noting (.executing name k i))
    obtain ⟨m₃, hended⟩ := Run.body_of_error _ hi herror
    obtain ⟨m₄, hfailed, hdepth⟩ := invoke_of_error hm hinvoke hshows ((hbody (more + 1)).trans (hended more))
    exact ⟨_, m₄, hfailed, rfl, hdepth⟩
  · exact absurd hfits (Nat.not_le_of_lt hover)

end HostProgram

end ManagedVm
