import ManagedVm.Proofs.Machine.Balance
import ManagedVm.Proofs.Machine.ReleaseOrder

/-!
# What is left when a frame is left

When a frame is left, what its locals and its values referred to is released. What its arguments
referred to is not, although a body can store new objects there. So after an invocation that returns,
an object that nothing refers to is still live exactly if, when the body had ended, nothing referred to
it in the machine without the frame and no local and no value of the frame did
(`stranded_by_invoke`): an object that only an argument held is live for ever
(`replaced_argument_stranded`).
-/

namespace ManagedVm

open ManagedVm.Frame (Steady Replaced)

namespace Machine

variable {m m' : Machine}

/-! ## Values in flight do not matter to what slots refer to -/

theorem SlotRefers.congr (htypes : m'.types = m.types) (hheap : m'.heap = m.heap)
    (hstack : m'.stack = m.stack) {a target : Address} {type : TypeId}
    (h : m.SlotRefers a type target) : m'.SlotRefers a type target := by
  have hread : ∀ a n, m'.read a n = m.read a n := by
    intro a n
    unfold read
    rw [hheap, hstack]
  have hstored : ∀ a, m'.storedAddress a = m.storedAddress a := by
    intro a
    unfold storedAddress
    rw [hread]
  have hdescriptor : ∀ t, m'.descriptor t = m.descriptor t := by
    intro t
    unfold descriptor
    rw [htypes]
  induction h with
  | held href hat hnull hspace =>
    exact .held (hdescriptor _ ▸ href) (hstored _ ▸ hat) hnull hspace
  | pointed hpointer hat hcontaining =>
    exact .pointed (hdescriptor _ ▸ hpointer) (hstored _ ▸ hat) (hheap ▸ hcontaining)
  | field hstruct hf _ ih => exact .field (hdescriptor _ ▸ hstruct) (hdescriptor _ ▸ hf) ih

/-- The machine with a result held, or as it is if there is none. -/
def holding (m : Machine) (result : Option Value) : Machine :=
  { m with inFlight := result.toList ++ m.inFlight }

variable {result : Option Value}

theorem slotRefers_holding {a target : Address} {type : TypeId} :
    (m.holding result).SlotRefers a type target ↔ m.SlotRefers a type target := by
  constructor
  · intro h
    apply h.congr <;> rfl
  · intro h
    apply h.congr <;> rfl

theorem valueRefers_holding {v : Value} {target : Address} :
    (m.holding result).ValueRefers v target ↔ m.ValueRefers v target := by
  cases v with
  | struct => exact slotRefers_holding
  | primitive => exact Iff.rfl
  | string => exact Iff.rfl
  | reference => exact Iff.rfl
  | pointer => exact Iff.rfl
  | array => exact Iff.rfl

theorem objectRefers_holding {o : Heap.Object} {target : Address} :
    (m.holding result).ObjectRefers o target ↔ m.ObjectRefers o target := by
  unfold ObjectRefers
  split
  · exact Iff.rfl
  · exact exists_congr fun f => and_congr_right fun _ => slotRefers_holding
  · exact exists_congr fun f => and_congr_right fun _ => slotRefers_holding
  · exact exists_congr fun i => and_congr_right fun _ => slotRefers_holding

theorem frameRefers_holding {f : Frame} {target : Address} :
    (m.holding result).FrameRefers f target ↔ m.FrameRefers f target := by
  unfold FrameRefers
  simp only [valueRefers_holding, slotRefers_holding]

/-- A root of the machine that holds a result is a root without it or the result. -/
theorem rootRefers_holding {target : Address} : (m.holding result).RootRefers target ↔
    m.RootRefers target ∨ ∃ v ∈ result, m.ValueRefers v target := by
  constructor
  · rintro (⟨f, hf, hrefers⟩ | ⟨v, hv, hrefers⟩)
    · exact .inl (.inl ⟨f, hf, frameRefers_holding.mp hrefers⟩)
    · rcases List.mem_append.mp hv with hv | hv
      · exact .inr ⟨v, Option.mem_toList.mp hv, valueRefers_holding.mp hrefers⟩
      · exact .inl (.inr ⟨v, hv, valueRefers_holding.mp hrefers⟩)
  · rintro ((⟨f, hf, hrefers⟩ | ⟨v, hv, hrefers⟩) | ⟨v, hv, hrefers⟩)
    · exact .inl ⟨f, hf, frameRefers_holding.mpr hrefers⟩
    · exact .inr ⟨v, List.mem_append_right _ hv, valueRefers_holding.mpr hrefers⟩
    · exact .inr ⟨v, List.mem_append_left _ (Option.mem_toList.mpr hv), valueRefers_holding.mpr hrefers⟩

theorem referenced_of_holding {target : Address} (h : (m.holding result).Referenced target) :
    m.Referenced target ∨ ∃ v ∈ result, m.ValueRefers v target := by
  rcases h with hroot | ⟨p, hp, hne, hrefers⟩
  · rcases rootRefers_holding.mp hroot with hroot | howned
    · exact .inl (.inl hroot)
    · exact .inr howned
  · exact .inl (.inr ⟨p, hp, hne, objectRefers_holding.mp hrefers⟩)

end Machine

/-! ## Leaving a frame, taken apart -/

namespace Exec

variable {m m' : Machine} {captured : Option (Value × List UInt8)} {result : Option Value}

/-- Takes the innermost frame off and moves the result of its body to the frame below. -/
def uncover (captured : Option (Value × List UInt8)) : Exec (Option Value) := do
  discard popFrame
  match captured with
  | none => return none
  | some (v, bytes) => some <$> rehome v bytes

/-- **A frame that is left**: its references are collected, it is taken off, and what was collected is
released while the result is held. -/
theorem leaveFrame_ok_cases (h : leaveFrame (.ok captured) m = .ok result m') :
    ∃ references m₁ m₂, m.frameReferences = .ok references ∧ uncover captured m = .ok result m₁ ∧
      release references (m₁.holding result) = .ok ⟨⟩ m₂ ∧ m' = { m₂ with inFlight := m₁.inFlight } := by
  rw [leaveFrame_eq] at h
  obtain ⟨scan, m₀, hscan, h⟩ := bind_eq_ok.mp h
  obtain ⟨hscanned, rfl⟩ := query_eq_ok.mp hscan
  obtain ⟨_, m₁, hpop, h⟩ := bind_eq_ok.mp h
  obtain ⟨captured', m₂, hcaptured, h⟩ := bind_eq_ok.mp h
  obtain ⟨hcapture, rfl⟩ := query_eq_ok.mp hcaptured
  cases hcapture
  obtain ⟨references, m₃, hquery, h⟩ := bind_eq_ok.mp h
  obtain ⟨hreferences, rfl⟩ := query_eq_ok.mp hquery
  have hscanned : m.frameReferences = .ok references := (Except.ok.inj hscanned).trans hreferences
  cases captured with
  | none =>
    obtain ⟨_, m₂, hrelease, h⟩ := bind_eq_ok.mp h
    cases h
    have hinFlight := ((touches_release (r := .objects) references).steady.of_ok hrelease).inFlight
    refine ⟨references, m₁, m', hscanned, bind_of_ok hpop, hrelease, ?_⟩
    rw [← hinFlight]
  | some saved =>
    obtain ⟨v, bytes⟩ := saved
    obtain ⟨v', m₂, hrehome, h⟩ := bind_eq_ok.mp h
    obtain ⟨_, m₃, hpin, h⟩ := bind_eq_ok.mp h
    obtain ⟨_, m₄, hheld, h⟩ := bind_eq_ok.mp h
    cases h
    cases hpin
    have huncover : uncover (some (v, bytes)) m = .ok (some v') m₂ := by
      unfold uncover
      rw [bind_of_ok hpop]
      exact map_of_ok some hrehome
    refine ⟨references, m₂, ?_⟩
    unfold leaveFrame.held at hheld
    split at hheld
    · rename_i u m₅ hrelease
      cases hheld
      refine ⟨m₅, hscanned, huncover, hrelease, ?_⟩
      have hinFlight := ((touches_release (r := .objects) references).steady.of_ok hrelease).inFlight
      have htail : m₅.inFlight.tail = m₂.inFlight := congrArg List.tail hinFlight
      show { m₅ with inFlight := m₅.inFlight.tail } = { m₅ with inFlight := m₂.inFlight }
      rw [htail]
    · cases hheld

/-- Bytes of an object may change, but no object comes or goes. -/
theorem objects_write {a : Address} {data : List UInt8} (inv : m.heap.Inv)
    (h : write a data m = .ok ⟨⟩ m') : m'.heap.Inv ∧ m'.heap.objects = m.heap.objects := by
  unfold write at h
  by_cases hnull : a.isNull = true
  · rw [if_pos hnull] at h
    cases h
  rw [if_neg hnull] at h
  cases hspace : a.space with
  | heap =>
    rw [hspace] at h
    obtain ⟨inside, m₁, hquery, h⟩ := bind_eq_ok.mp h
    obtain ⟨-, rfl⟩ := query_eq_ok.mp hquery
    split at h
    · cases h
      exact ⟨inv.poke a data, rfl⟩
    · cases h
  | stack =>
    rw [hspace] at h
    obtain ⟨inside, m₁, hquery, h⟩ := bind_eq_ok.mp h
    obtain ⟨-, rfl⟩ := query_eq_ok.mp hquery
    split at h
    · cases h
      exact ⟨inv, rfl⟩
    · cases h

theorem heap_carve {count : Nat} {a : Address} (h : carve count m = .ok a m') : m'.heap = m.heap := by
  cases hplan : m.stack.planCarving count with
  | error e =>
    unfold carve at h
    rw [bind_of_error (query_of_error hplan)] at h
    cases h
  | ok c =>
    obtain ⟨journal, hcarve⟩ := carve_eq hplan
    obtain ⟨-, rfl⟩ := EStateM.Result.ok.inj (hcarve.symm.trans h)
    rfl

theorem objects_rehome {v v' : Value} {bytes : List UInt8} (inv : m.heap.Inv)
    (h : rehome v bytes m = .ok v' m') : m'.heap.Inv ∧ m'.heap.objects = m.heap.objects := by
  have hstored : ∀ {a m₁}, rehome.stored bytes m = .ok a m₁ →
      m₁.heap.Inv ∧ m₁.heap.objects = m.heap.objects := by
    intro a m₁ hstored
    obtain ⟨a', m₂, hcarve, hstored⟩ := bind_eq_ok.mp hstored
    obtain ⟨_, m₃, hwrite, hstored⟩ := bind_eq_ok.mp hstored
    cases hstored
    have hheap := heap_carve hcarve
    have hwritten := objects_write (hheap ▸ inv) hwrite
    rwa [hheap] at hwritten
  cases v with
  | primitive type a =>
    obtain ⟨a', m₁, hstore, h⟩ := bind_eq_ok.mp h
    cases h
    exact hstored hstore
  | struct type a =>
    obtain ⟨a', m₁, hstore, h⟩ := bind_eq_ok.mp h
    cases h
    exact hstored hstore
  | _ =>
    cases h
    exact ⟨inv, rfl⟩

/-- **The machine without the frame** has the objects and the types it had. -/
theorem uncover_eq_ok (inv : m.heap.Inv) (htyped : m.Typed) {m₁ : Machine}
    (h : uncover captured m = .ok result m₁) :
    m₁.heap.Inv ∧ m₁.Typed ∧ m₁.heap.objects = m.heap.objects := by
  obtain ⟨_, m₂, hdiscard, h⟩ := bind_eq_ok.mp h
  obtain ⟨f, hpop, -⟩ := map_eq_ok.mp hdiscard
  obtain ⟨hheap, htyped₂⟩ : m₂.heap = m.heap ∧ m₂.Typed := by
    obtain ⟨⟨f', stack⟩, m₃, hquery, hpop⟩ := bind_eq_ok.mp hpop
    obtain ⟨-, rfl⟩ := query_eq_ok.mp hquery
    cases hpop
    exact ⟨rfl, htyped⟩
  rw [← hheap] at inv ⊢
  cases captured with
  | none =>
    cases h
    exact ⟨inv, htyped₂, rfl⟩
  | some saved =>
    obtain ⟨v, bytes⟩ := saved
    obtain ⟨v', hrehome, -⟩ := map_eq_ok.mp h
    obtain ⟨hinv, hobjects⟩ := objects_rehome inv hrehome
    have hmoved := (touches_rehome v bytes).steady.of_ok hrehome
    exact ⟨hinv, htyped₂.moved hmoved, hobjects⟩

end Exec

/-! ## What is stranded -/

namespace Machine

variable {m m' : Machine}

/-- A frame refers to an object through a local or a value, and so may have been the last to do so
when it is left. -/
def SweptBy (m : Machine) (f : Frame) (target : Address) : Prop :=
  (∃ b ∈ f.locals, m.SlotRefers b.address b.type target) ∨ ∃ v ∈ f.values, m.ValueRefers v target

/-- The references of a frame are those of its locals and its values. -/
theorem mem_frameReferences (inv : m.heap.Inv) (htyped : m.Typed) {f : Frame} {rest : List Frame}
    (hframes : m.stack.frames = f :: rest) {references : List Address}
    (h : m.frameReferences = .ok references) {o : Heap.Object} (ho : o ∈ m.heap.objects) :
    o.address ∈ references ↔ m.SweptBy f o.address := by
  have hlive : m.Live o.address := ⟨o, ho, rfl⟩
  obtain ⟨f', hcurrent, h⟩ := except_bind_ok.mp h
  unfold FrameStack.current at hcurrent
  rw [hframes] at hcurrent
  cases hcurrent
  obtain ⟨slots, hslots, h⟩ := except_bind_ok.mp h
  obtain ⟨values, hvalues, h⟩ := except_bind_ok.mp h
  cases h
  rw [except_mapM_ok] at hslots hvalues
  constructor
  · intro hmem
    obtain ⟨part, hpart, hin⟩ := List.mem_flatten.mp hmem
    rcases List.mem_append.mp hpart with hpart | hpart
    · obtain ⟨b, hb, hscan⟩ := exists_of_mem_forall₂ hslots hpart
      exact .inl ⟨b, hb, slotRefers_of_mem hscan hin⟩
    · obtain ⟨v, hv, hscan⟩ := exists_of_mem_forall₂ hvalues hpart
      exact .inr ⟨v, List.mem_reverse.mp hv, valueRefers_of_mem hscan hin⟩
  · rintro (⟨b, hb, hrefers⟩ | ⟨v, hv, hrefers⟩)
    · obtain ⟨part, hpart, hscan⟩ := exists_of_forall₂_mem hslots hb
      have hin := mem_of_slotRefers (.refl inv) (nestedWithin_nesting htyped b.type) hscan hrefers hlive
      exact List.mem_flatten.mpr ⟨part, List.mem_append_left _ hpart, hin⟩
    · obtain ⟨part, hpart, hscan⟩ := exists_of_forall₂_mem hvalues (List.mem_reverse.mpr hv)
      have hin := mem_of_valueRefers (.refl inv) htyped hscan hrefers hlive
      exact List.mem_flatten.mpr ⟨part, List.mem_append_right _ hpart, hin⟩

/-- What something that is left keeps was referred to before. -/
theorem Shrunk.referenced_of_keptBy (hs : Shrunk m m') {o : Heap.Object} (ho : o ∈ m'.heap.objects)
    (h : KeptBy m m' o) : m.Referenced o.address := by
  rcases h with hroot | ⟨p, hp, hne, hrefers⟩
  · exact .inl hroot
  · refine .inr ⟨p, hs.heap.objects p hp, fun haddress => hne ?_, hrefers⟩
    exact hs.heap.after.eq_of_address hp ho haddress

theorem Referenced.of_shrunk (hs : Shrunk m m') {target : Address} (h : m'.Referenced target) :
    m.Referenced target := by
  rcases h with hroot | ⟨o, ho, hne, hrefers⟩
  · exact .inl (hroot.of_shrunk hs)
  · exact .inr ⟨o, hs.heap.objects o ho, hne, hrefers.of_shrunk hs⟩

/-- **A release leaves what it was not asked for** and nothing refers to. -/
theorem not_freed_of_unreferenced (inv : m.heap.Inv) (htyped : m.Typed) {targets : List Address}
    (h : Exec.release targets m = .ok () m') {o : Heap.Object} (ho : o ∈ m.heap.objects)
    (htarget : o.address ∉ targets) (hnone : ¬ m.Referenced o.address) : o ∈ m'.heap.objects := by
  obtain ⟨hclosed, hleast⟩ := isLeast_freed inv htyped h
  by_contra hgone
  -- Without the object the set is still closed, because nothing brings the object into it.
  have hsmaller : m.ReleaseClosed targets (m.freed m' \ {o}) := by
    refine ⟨fun p hp => hclosed.live p hp.1, ?_⟩
    intro p hp hkind hwhy hroot hothers
    have hne : p ≠ o := by
      rintro rfl
      rcases hwhy with hmem | ⟨q, hq, hrefers⟩
      · exact htarget hmem
      · have haddress : q.address ≠ p.address :=
          fun heq => hq.2 (inv.eq_of_address hq.1.1 hp heq)
        exact hnone (.inr ⟨q, hq.1.1, haddress, hrefers⟩)
    refine ⟨hclosed.closed p hp hkind ?_ hroot fun q hq hqne hrefers => (hothers q hq hqne hrefers).1, hne⟩
    exact hwhy.imp_right fun ⟨q, hq, hrefers⟩ => ⟨q, hq.1, hrefers⟩
  exact (hleast hsmaller ⟨ho, hgone⟩).2 rfl

/-- Nothing refers to an object in the machine `m₁` without the frame, not even the result, and no
local and no value of the frame did in the machine `m` with it. -/
structure Unswept (m : Machine) (f : Frame) (result : Option Value) (m₁ : Machine) (target : Address) :
    Prop where
  unreferenced : ¬ m₁.Referenced target
  unowned : ∀ v ∈ result, ¬ m₁.ValueRefers v target
  unscanned : ¬ m.SweptBy f target

/-- **What is stranded when a frame is left**, said by the machine `m` in which its body has ended, the
machine `m₁` without the frame but with its result, and the machine `m'` when all is done. -/
structure Strands (m : Machine) (f : Frame) (result : Option Value) (m₁ m' : Machine) : Prop where
  /-- No object is new. -/
  live : ∀ o ∈ m'.heap.objects, o ∈ m.heap.objects
  /-- What only locals and values of the frame referred to is freed. -/
  swept : ∀ o ∈ m.heap.objects, o.kind ≠ .statics → m.SweptBy f o.address →
    ¬ m₁.Referenced o.address → (∀ v ∈ result, ¬ m₁.ValueRefers v o.address) → o ∉ m'.heap.objects
  /-- What is not swept stays, and nothing refers to it. -/
  stranded : ∀ o ∈ m.heap.objects, m.Unswept f result m₁ o.address →
    o ∈ m'.heap.objects ∧ ¬ m'.Referenced o.address ∧ m'.isReferenced o.address ≠ .ok true
  /-- Of nothing else the scan answers that nothing refers to it. -/
  only : ∀ o ∈ m'.heap.objects, o.kind ≠ .statics → (∀ v ∈ result, ¬ m₁.ValueRefers v o.address) →
    m'.isReferenced o.address = .ok false → m.Unswept f result m₁ o.address

/-- **Leaving a frame strands exactly what it does not sweep** and nobody else refers to. -/
theorem strands_of_leaveFrame (inv : m.heap.Inv) (htyped : m.Typed) {f : Frame} {rest : List Frame}
    (hframes : m.stack.frames = f :: rest) {captured : Option (Value × List UInt8)}
    {result : Option Value} (h : Exec.leaveFrame (.ok captured) m = .ok result m') :
    ∃ m₁, Exec.uncover captured m = .ok result m₁ ∧ m.Strands f result m₁ m' := by
  obtain ⟨references, m₁, m₂, hreferences, huncover, hrelease, rfl⟩ := Exec.leaveFrame_ok_cases h
  obtain ⟨inv₁, htyped₁, hobjects⟩ := Exec.uncover_eq_ok inv htyped huncover
  have hheld : (m₁.holding result).heap.Inv := inv₁
  have hd := Exec.drains_release hheld references
  rw [hrelease] at hd
  have hs : Shrunk (m₁.holding result) m₂ := hd.shrunk hheld
  -- Without the result that was held, what is left is the machine without the frame, less some objects.
  have hs' : Shrunk m₁ { m₂ with inFlight := m₁.inFlight } := by
    refine ⟨?_, hs.heap⟩
    have hrest := congrArg (fun m : Machine => { m with inFlight := m₁.inFlight }) hs.rest
    exact hrest
  have hlive : ∀ o ∈ m₂.heap.objects, o ∈ m.heap.objects := by
    intro o ho
    rw [← hobjects]
    exact hs'.heap.objects o ho
  refine ⟨m₁, huncover, hlive, ?_, ?_, ?_⟩
  · intro o ho hkind hswept hnone hresult hleft
    have hmem := (mem_frameReferences inv htyped hframes hreferences ho).mpr hswept
    have hkept := hd.kept_of_mem rfl (.refl hheld) htyped₁ hleft hkind
      (.inl (List.mem_reverse.mpr hmem))
    rcases referenced_of_holding (hs.referenced_of_keptBy hleft hkept) with hreferenced | ⟨v, hv, hrefers⟩
    · exact hnone hreferenced
    · exact hresult v hv hrefers
  · intro o ho hunswept
    have htarget : o.address ∉ references := by
      intro hmem
      exact hunswept.unscanned ((mem_frameReferences inv htyped hframes hreferences ho).mp hmem)
    have hnone : ¬ (m₁.holding result).Referenced o.address := by
      intro hreferenced
      rcases referenced_of_holding hreferenced with hreferenced | ⟨v, hv, hrefers⟩
      · exact hunswept.unreferenced hreferenced
      · exact hunswept.unowned v hv hrefers
    have hleft : o ∈ m₂.heap.objects :=
      not_freed_of_unreferenced hheld htyped₁ hrelease (hobjects ▸ ho) htarget hnone
    have hnone' : ¬ ({ m₂ with inFlight := m₁.inFlight } : Machine).Referenced o.address :=
      fun hreferenced => hunswept.unreferenced (hreferenced.of_shrunk hs')
    exact ⟨hleft, hnone', fun hyes => hnone' (referenced_of_isReferenced hyes)⟩
  · intro o hleft hkind hresult hno
    obtain ⟨hroot, hothers⟩ :=
      not_referenced_of_isReferenced hs' (hs'.typed htyped₁) ⟨o, hleft, rfl⟩ hno
    have hkept : ¬ KeptBy (m₁.holding result) m₂ o := by
      rintro (hheldRoot | ⟨p, hp, hne, hrefers⟩)
      · rcases rootRefers_holding.mp hheldRoot with hroot' | ⟨v, hv, hrefers⟩
        · exact hroot hroot'
        · exact hresult v hv hrefers
      · refine hothers p hp (fun haddress => hne ?_) (objectRefers_holding.mp hrefers)
        exact hs.heap.after.eq_of_address hp hleft haddress
    refine ⟨?_, hresult, ?_⟩
    · rintro (hroot' | ⟨p, hp, hne, hrefers⟩)
      · exact hroot hroot'
      · by_cases hleft' : p ∈ m₂.heap.objects
        · exact hothers p hleft' hne hrefers
        · refine hkept (hd.kept_of_mem rfl (.refl hheld) htyped₁ hleft hkind (.inr ?_))
          exact ⟨p, hp, hleft', objectRefers_holding.mpr hrefers⟩
    · intro hswept
      have hmem := (mem_frameReferences inv htyped hframes hreferences (hlive o hleft)).mpr hswept
      exact hkept (hd.kept_of_mem rfl (.refl hheld) htyped₁ hleft hkind
        (.inl (List.mem_reverse.mpr hmem)))

/-! ## Invocations -/

/-- **An invocation of a body that returns** has entered a frame, run the body in it and left it. -/
theorem invokeOne_eq_ok [Host] {nested : Run.Invoke} {steps : Nat} {r : Request} {method : Method}
    {result : Option Value} (hmethod : m.methodAt r.method = .ok method)
    (hbody : method.isNative = false) (h : Run.invokeOne nested steps r m = some (.ok result m')) :
    ∃ name m₁ m₂ captured m₃, Exec.accept r m = .ok (method, name) m₁ ∧
      Exec.enterFrame method name r m₁ = .ok ⟨⟩ m₂ ∧
      Run.execute nested steps method name r.arguments m₂ = some (.ok captured m₃) ∧
      Exec.leaveFrame (.ok captured) m₃ = .ok result m' := by
  rcases Run.invokeOne_cases h with ⟨e, m₁, -, hres⟩ | ⟨method', name, m₁, haccept, hcases⟩
  · cases hres
  obtain ⟨hmethod', -⟩ := Exec.accept_eq_ok haccept
  obtain rfl : method' = method := Except.ok.inj (hmethod'.symm.trans hmethod)
  rcases hcases with ⟨hnative, -⟩ | ⟨e, m₂, -, hres⟩ |
    ⟨m₂, m₃, henter, ⟨captured, hexecute, hres⟩ | ⟨e, -, hres⟩⟩
  · simp [hbody] at hnative
  · cases hres
  · exact ⟨name, m₁, m₂, captured, m₃, haccept, henter, hexecute, hres.symm⟩
  · obtain ⟨⟨captured, hcaptured, -⟩, -⟩ := Exec.leaveFrame_eq_ok hres.symm
    cases hcaptured

/-- **What an invocation strands.** When the body of an invocation that returns has ended and its result
is taken, there is a frame on the stack; leaving it strands what it does not sweep. -/
theorem stranded_by_invoke [Host] [Host.Orderly] {settings : Heap.Settings}
    (hheap : Heap.Reached settings m.heap) (htyped : m.Typed) {r : Request} {method : Method}
    (hmethod : m.methodAt r.method = .ok method) (hbody : method.isNative = false) {steps : Nat}
    {result : Option Value} (h : Run.invoke steps r m = some (.ok result m'))
    (hfits : m'.heap.arena.size < Address.stackStart.toNat) :
    ∃ name start ended captured m₁ f rest m₂, Exec.enterBody r m = .ok (method, name) start ∧
      Run.Ends (Run.invokeNested steps (m.settings.maxCallDepth + 1)) name method.body start
        (.ok () ended) ∧
      (Exec.takeResult method >>= Exec.capture) ended = .ok captured m₁ ∧
      m₁.stack.frames = f :: rest ∧ Exec.uncover captured m₁ = .ok result m₂ ∧
      m₁.Strands f result m₂ m' := by
  obtain ⟨name, m₀, framed, captured, m₁, haccept, henter, hexecute, hleave⟩ :=
    invokeOne_eq_ok hmethod hbody h
  have hm₀ := (Exec.touches_accept (r := .objects) r).steady.of_ok haccept
  obtain ⟨hframed, hm₁⟩ := Exec.enterFrame_eq_popped henter
  have hm₂ := Run.moved_execute (Run.keepsFrames_invokeNested steps _) hexecute
  have hne : m₁.stack.frames ≠ [] := hm₂.frames_ne_nil hframed
  have hm₃ := Exec.moved_leaveFrame hne (.ok captured)
  rw [Exec.final, hleave] at hm₃
  -- The heap is still one that calls lead to: leaving the frame does not give the arena back, so it
  -- fits before if it fits after. The types are those of the image.
  have hled := hm₀.heap.trans (hm₁.heap.trans hm₂.heap)
  have hgrown := (hm₃.heap.arena (hled.arena hheap.inv.limited).2).1
  have hreached : Heap.Reached settings m₁.heap := hheap.leadsTo hled (Nat.lt_of_le_of_lt hgrown hfits)
  have htypedPopped : framed.popped.Typed := (htyped.moved hm₀).moved hm₁
  have htypedFramed : framed.Typed := htypedPopped
  have htyped₁ : m₁.Typed := htypedFramed.moved hm₂
  obtain ⟨f, rest, hframes⟩ := List.exists_cons_of_ne_nil hne
  obtain ⟨m₂, huncover, hstrands⟩ := strands_of_leaveFrame hreached.inv htyped₁ hframes hleave
  rcases Run.execute_cases hexecute with ⟨e, m₃, -, hres⟩ |
    ⟨start, hbind, ⟨e, m₃, -, hres⟩ | ⟨ended, hends, hres⟩⟩
  · cases hres
  · cases hres
  · have henterBody : Exec.enterBody r m = .ok (method, name) start := by
      unfold Exec.enterBody
      rw [Exec.bind_of_ok haccept]
      dsimp only
      rw [Exec.bind_of_ok henter, Exec.bind_of_ok hbind]
      rfl
    exact ⟨name, start, ended, captured, m₁, f, rest, m₂, henterBody, hends, hres.symm, hframes,
      huncover, hstrands⟩

/-! ## An argument that is replaced -/

/-- Puts another text in place of its argument. -/
def replace : Method :=
  { name := "replace", owner := 2, returnType := 0, isStatic := true, parameters := [⟨"text", 1⟩]
    body := #[⟨.ldstr, 0⟩, ⟨.starg, 0⟩, ⟨.ret, 0⟩] }

/-- A machine for the method, whose host holds a text. -/
def texts : Machine :=
  let image : Image :=
    { constants := #[⟨.string, 0⟩]
      strings := #["second"]
      types := #[
        { name := "void", category := .void },
        { name := "string", category := .string },
        { name := "Texts", category := .object, isStatic := true }]
      methods := #[replace] }
  { image
    types := (TypeTable.ofImage image).toOption.getD {}
    heap := [.allocate 9 ⟨1⟩ .string, .write (.heap 8) [5, 0, 0, 0, 102, 105, 114, 115, 116]].foldl
      Heap.after { settings := { initialSize := 128 }, arena := .zeroed 128 }
    stack := ((FrameStack.create 256 256).enter { totalSize := 16, maxDepth := 1 } 256).setCurrent
      { base := 0, stop := 16, scratch := 0, cursor := 0, maxDepth := 1,
        values := [.string ⟨1⟩ (.heap 8)] } }

/-- The live objects, each with the answer to whether something refers to it. -/
def census (m : Machine) : Except Error (List (Address × Bool)) :=
  m.heap.objects.mapM fun o => do return (o.address, ← m.isReferenced o.address)

/-- The invocation with the text that the host holds. -/
def replacement : Request := { method := 0, arguments := [.string ⟨1⟩ (.heap 8)] }

/-- The text that the method stores. -/
def second : Heap.Object := ⟨.heap 24, ⟨1⟩, 10, .string⟩

open scoped Host in
theorem invoke_replacement : ∃ m', Run.invoke 3 replacement texts = some (.ok none m') ∧
    m'.heap.arena.size = 128 ∧ second ∈ m'.heap.objects ∧
    m'.isReferenced second.address = .ok false ∧
    m'.census = .ok [(.heap 8, true), (.heap 24, false)] := by
  obtain ⟨m', hrun⟩ := Run.eq_ok_of_value? (x := Run.invoke 3 replacement) (m := texts) (a := none)
    (by decide +kernel)
  have hsize : (Run.invoke 3 replacement texts).map (fun r => (Exec.outcome r).heap.arena.size) =
      some 128 := by
    decide +kernel
  have hobjects : (Run.invoke 3 replacement texts).map (fun r => (Exec.outcome r).heap.objects) =
      some [⟨.heap 8, ⟨1⟩, 9, .string⟩, second] := by
    decide +kernel
  have hscan : (Run.invoke 3 replacement texts).map
      (fun r => (Exec.outcome r).isReferenced second.address) = some (.ok false) := by
    decide +kernel
  have hcensus : (Run.invoke 3 replacement texts).map (fun r => (Exec.outcome r).census) =
      some (.ok [(.heap 8, true), (.heap 24, false)]) := by
    decide +kernel
  rw [hrun] at hsize hobjects hscan hcensus
  have hlive : m'.heap.objects = [⟨.heap 8, ⟨1⟩, 9, .string⟩, second] := Option.some.inj hobjects
  refine ⟨m', hrun, Option.some.inj hsize, ?_, Option.some.inj hscan, Option.some.inj hcensus⟩
  rw [hlive]
  simp

open scoped Host in
/-- The second text is stranded when the method returns, because neither a local nor a value held it. -/
theorem stranded_by_invoke_replaced : Heap.Reached { initialSize := 128 } texts.heap ∧ texts.Typed ∧
    texts.methodAt replacement.method = .ok replace ∧
    ∃ m', Run.invoke 3 replacement texts = some (.ok none m') ∧
      ∃ (m₁ : Machine) (f : Frame) (m₂ : Machine), m₁.Strands f none m₂ m' ∧ second ∈ m'.heap.objects ∧
        m₁.Unswept f none m₂ second.address ∧ ¬ m'.Referenced second.address := by
  have hreached : Heap.Reached { initialSize := 128 } texts.heap :=
    Heap.Reached.foldl_after (.created (by decide +kernel)) (by decide) _
  have htyped : texts.Typed := by
    unfold Typed
    decide +kernel
  obtain ⟨m', hrun, hsize, hsecond, hno, -⟩ := invoke_replacement
  obtain ⟨_, _, _, _, m₁, f, _, m₂, -, -, -, -, -, hstrands⟩ :=
    stranded_by_invoke hreached htyped rfl rfl hrun (by rw [hsize]; decide)
  have hunswept := hstrands.only second hsecond (by decide) (by simp) hno
  obtain ⟨-, hnone, -⟩ := hstrands.stranded second (hstrands.live second hsecond) hunswept
  exact ⟨hreached, htyped, rfl, m', hrun, m₁, f, m₂, hstrands, hsecond, hunswept, hnone⟩

open scoped Host in
/-- **An object that replaces an argument outlives the invocation**, though nothing refers to it. -/
theorem replaced_argument_stranded : texts.census = .ok [(.heap 8, true)] ∧
    ∃ m', Run.invoke 3 replacement texts = some (.ok none m') ∧
      m'.census = .ok [(.heap 8, true), (.heap 24, false)] := by
  obtain ⟨m', hrun, -, -, -, hcensus⟩ := invoke_replacement
  exact ⟨by decide +kernel, m', hrun, hcensus⟩

end Machine

end ManagedVm
