import ManagedVm.Machine.State
import ManagedVm.Proofs.Stack.Frames

/-!
# Running operations of the machine

How an operation that is put together from others runs: forwards, from what its first part does, and
backwards, from what the whole did. A query leaves the machine as it is.
-/

namespace ManagedVm.Exec

variable {α β : Type} {x : Exec α} {f : α → Exec β} {m m' : Machine} {a : α} {b : β} {e : Error}

/-- The machine of a result, also of a failure. -/
def outcome (r : EStateM.Result Error Machine α) : Machine :=
  match r with
  | .ok _ m => m
  | .error _ m => m

@[simp] theorem outcome_ok : outcome (.ok a m) = m := rfl

@[simp] theorem outcome_error : outcome (.error e m : EStateM.Result Error Machine α) = m := rfl

/-- The machine that an operation leaves behind, also when it fails. -/
def final (x : Exec α) (m : Machine) : Machine := outcome (x m)

/-- The value that an operation returns, if it succeeds. -/
def value? (x : Exec α) (m : Machine) : Option α :=
  match x m with
  | .ok a _ => some a
  | .error .. => none

theorem eq_ok_of_value? (h : x.value? m = some a) : x m = .ok a (x.final m) := by
  unfold value? at h
  unfold final
  cases hx : x m with
  | ok a' m' =>
    rw [hx] at h
    cases h
    rfl
  | error e m' =>
    rw [hx] at h
    cases h

/-! ## Forwards -/

theorem query_of_ok {q : Machine → Except Error α} (h : q m = .ok a) : query q m = .ok a m := by
  simp only [query, h]

theorem query_of_error {q : Machine → Except Error α} (h : q m = .error e) :
    query q m = .error e m := by
  simp only [query, h]

theorem bind_of_ok (h : x m = .ok a m') : (x >>= f) m = f a m' := by
  show EStateM.bind x f m = f a m'
  simp only [EStateM.bind, h]

theorem bind_of_error (h : x m = .error e m') : (x >>= f) m = .error e m' := by
  show EStateM.bind x f m = .error e m'
  simp only [EStateM.bind, h]

theorem map_of_ok (k : α → β) (h : x m = .ok a m') : (k <$> x) m = .ok (k a) m' := by
  show EStateM.map k x m = .ok (k a) m'
  simp only [EStateM.map, h]

theorem discard_of_ok (h : x m = .ok a m') : discard x m = .ok ⟨⟩ m' := map_of_ok _ h

theorem map_of_error (k : α → β) (h : x m = .error e m') : (k <$> x) m = .error e m' := by
  show EStateM.map k x m = .error e m'
  simp only [EStateM.map, h]

theorem mapError_of_ok (k : Error → Error) (h : x m = .ok a m') : mapError k x m = .ok a m' := by
  simp only [mapError, h]

theorem mapError_of_error (k : Error → Error) (h : x m = .error e m') :
    mapError k x m = .error (k e) m' := by
  simp only [mapError, h]

theorem discard_of_error (h : x m = .error e m') : discard x m = .error e m' := map_of_error _ h

theorem final_map (k : α → β) (x : Exec α) (m : Machine) : (k <$> x).final m = x.final m := by
  unfold final
  cases h : x m with
  | ok a m' => rw [map_of_ok k h, outcome, outcome]
  | error e m' => rw [map_of_error k h, outcome, outcome]

theorem final_discard (x : Exec α) (m : Machine) : (discard x).final m = x.final m := final_map _ x m

/-! ## Backwards -/

theorem query_eq_ok {q : Machine → Except Error α} :
    query q m = .ok a m' ↔ q m = .ok a ∧ m = m' := by
  unfold query
  cases q m <;> simp

theorem query_eq_error {q : Machine → Except Error α} :
    query q m = .error e m' ↔ q m = .error e ∧ m = m' := by
  unfold query
  cases q m <;> simp

theorem bind_eq_ok : (x >>= f) m = .ok b m' ↔ ∃ a m₁, x m = .ok a m₁ ∧ f a m₁ = .ok b m' := by
  cases h : x m with
  | ok a m₁ =>
    rw [bind_of_ok h]
    constructor
    · exact fun hf => ⟨a, m₁, rfl, hf⟩
    · rintro ⟨a', m₂, heq, hf⟩
      cases heq
      exact hf
  | error e m₁ =>
    rw [bind_of_error h]
    constructor
    · intro hf
      cases hf
    · rintro ⟨a', m₂, heq, -⟩
      cases heq

theorem map_eq_ok {k : α → β} : (k <$> x) m = .ok b m' ↔ ∃ a, x m = .ok a m' ∧ k a = b := by
  have hmap : (k <$> x) m = EStateM.map k x m := rfl
  rw [hmap, EStateM.map]
  cases x m <;> simp [and_comm]

theorem bind_eq_error : (x >>= f) m = .error e m' ↔
    x m = .error e m' ∨ ∃ a m₁, x m = .ok a m₁ ∧ f a m₁ = .error e m' := by
  cases h : x m with
  | ok a m₁ =>
    rw [bind_of_ok h]
    constructor
    · exact fun hf => .inr ⟨a, m₁, rfl, hf⟩
    · rintro (heq | ⟨a', m₂, heq, hf⟩)
      · cases heq
      · cases heq
        exact hf
  | error e m₁ =>
    rw [bind_of_error h]
    constructor
    · intro hf
      cases hf
      exact .inl rfl
    · rintro (heq | ⟨a', m₂, heq, -⟩)
      · cases heq
        rfl
      · cases heq

/-! ## The heap -/

section Heap

variable {size : Nat} {type : TypeId} {kind : ObjectKind} {target : Address} {data : List UInt8}

theorem allocateObject_of_ok {p : Heap.Plan} (h : m.heap.plan size = .ok p) :
    ∃ journal, allocateObject size type kind m =
      .ok (.heap p.start) { m with heap := m.heap.occupy p size type kind, journal } := by
  have hplan : query (fun m => (m.heap.plan size).mapError .heap) m = .ok p m :=
    query_of_ok (except_mapError_ok.mpr h)
  have hbefore : query (fun m => .ok m.heap.arena.size) m = .ok m.heap.arena.size m := rfl
  unfold allocateObject
  rw [bind_of_ok hplan, bind_of_ok hbefore]
  dsimp only
  split
  · exact ⟨_, rfl⟩
  · exact ⟨_, rfl⟩

theorem allocateObject_of_error {e : Heap.Error} (h : m.heap.plan size = .error e) :
    allocateObject size type kind m = .error (.heap e) m := by
  have hplan : query (fun m => (m.heap.plan size).mapError .heap) m = .error (.heap e) m := by
    apply query_of_error
    rw [h]
    rfl
  exact bind_of_error hplan

theorem freeObject_of_ok {o : Heap.Object} (h : m.heap.get target = .ok o) :
    freeObject target m = .ok o
      { m with
        heap := m.heap.vacate o
        journal := m.journal.record (.freed target o.kind) } := by
  have hfree : m.heap.free target = .ok (o, m.heap.vacate o) := by
    unfold Heap.free
    rw [h]
    rfl
  have hquery : query (fun m => (m.heap.free target).mapError .heap) m =
      .ok (o, m.heap.vacate o) m := query_of_ok (except_mapError_ok.mpr hfree)
  exact bind_of_ok hquery

theorem freeObject_of_error {e : Heap.Error} (h : m.heap.get target = .error e) :
    freeObject target m = .error (.heap e) m := by
  have hquery : query (fun m => (m.heap.free target).mapError .heap) m = .error (.heap e) m := by
    apply query_of_error
    unfold Heap.free
    rw [h]
    rfl
  exact bind_of_error hquery

theorem writeHeap_of_inRange (h : m.heap.inRange target data.length = true) :
    writeHeap target data m = .ok ⟨⟩ { m with heap := m.heap.poke target data } := by
  have hrange : query (fun m => .ok (m.heap.inRange target data.length)) m = .ok true m :=
    query_of_ok (congrArg _ h)
  unfold writeHeap
  rw [bind_of_ok hrange, if_pos rfl]
  rfl

theorem writeHeap_of_not_inRange (h : ¬ m.heap.inRange target data.length = true) :
    writeHeap target data m = .error (.heap (m.heap.rangeError target data.length)) m := by
  have hrange : query (fun m => .ok (m.heap.inRange target data.length)) m = .ok false m :=
    query_of_ok (congrArg _ (Bool.eq_false_iff.mpr h))
  unfold writeHeap
  rw [bind_of_ok hrange, if_neg Bool.false_ne_true]
  rfl

end Heap

/-! ## The stack -/

section Stack

variable {target : Address} {data : List UInt8}

theorem writeStack_of_inRange (h : m.stack.inRange target data.length = true) :
    writeStack target data m = .ok ⟨⟩ { m with stack := m.stack.poke target data } := by
  have hrange : query (fun m => .ok (m.stack.inRange target data.length)) m = .ok true m :=
    query_of_ok (congrArg _ h)
  unfold writeStack
  rw [bind_of_ok hrange, if_pos rfl]
  rfl

theorem writeStack_of_not_inRange (h : ¬ m.stack.inRange target data.length = true) :
    writeStack target data m = .error (m.stack.rangeError target data.length) m := by
  have hrange : query (fun m => .ok (m.stack.inRange target data.length)) m = .ok false m :=
    query_of_ok (congrArg _ (Bool.eq_false_iff.mpr h))
  unfold writeStack
  rw [bind_of_ok hrange, if_neg Bool.false_ne_true]
  rfl

end Stack

/-! ## The evaluation stack -/

section Values

variable {f : Frame} {rest : List Frame} {v : Value} {vs : List Value}

theorem current_of_frames (hframes : m.stack.frames = f :: rest) : m.stack.current = .ok f := by
  unfold FrameStack.current
  rw [hframes]

theorem setCurrent_of_frames (hframes : m.stack.frames = f :: rest) (f' : Frame) :
    m.stack.setCurrent f' = { m.stack with frames := f' :: rest } := by
  unfold FrameStack.setCurrent
  rw [hframes]
  rfl

theorem pop_of_nil (hframes : m.stack.frames = f :: rest) (hvalues : f.values = []) :
    pop m = .error .evalStackUnderflow m := by
  have hpop : m.stack.pop = .error .evalStackUnderflow := by
    simp [FrameStack.pop, current_of_frames hframes, Frame.pop, hvalues, bind, Except.bind]
  exact bind_of_error (query_of_error hpop)

theorem pop_of_cons (hframes : m.stack.frames = f :: rest) (hvalues : f.values = v :: vs) :
    pop m = .ok v { m with stack := { m.stack with frames := { f with values := vs } :: rest } } := by
  have hpop : m.stack.pop = .ok (v, { m.stack with frames := { f with values := vs } :: rest }) := by
    simp [FrameStack.pop, current_of_frames hframes, setCurrent_of_frames hframes, Frame.pop, hvalues,
      bind, Except.bind, pure, Except.pure]
  have hquery : query (·.stack.pop) m =
      .ok (v, { m.stack with frames := { f with values := vs } :: rest }) m := query_of_ok hpop
  exact bind_of_ok hquery

theorem push_of_full (hframes : m.stack.frames = f :: rest) (hfull : f.maxDepth ≤ f.depth) :
    push v m = .error (.evalStackOverflow f.maxDepth) m := by
  have hpush : m.stack.push v = .error (.evalStackOverflow f.maxDepth) := by
    simp [FrameStack.push, current_of_frames hframes, Frame.push, hfull, bind, Except.bind]
  exact bind_of_error (query_of_error hpush)

theorem push_of_room (hframes : m.stack.frames = f :: rest) (hroom : f.depth < f.maxDepth) :
    push v m = .ok ⟨⟩
      { m with stack := { m.stack with frames := { f with values := v :: f.values } :: rest } } := by
  have hpush : m.stack.push v =
      .ok { m.stack with frames := { f with values := v :: f.values } :: rest } := by
    simp [FrameStack.push, current_of_frames hframes, setCurrent_of_frames hframes, Frame.push,
      Nat.not_le_of_lt hroom, bind, Except.bind, pure, Except.pure]
  exact bind_of_ok (query_of_ok hpush)

end Values

/-! ## Scratch -/

/-- **What handing out scratch does**: it carves what was planned, after an event in the journal. -/
theorem carve_eq {count : Nat} {m : Machine} {c : FrameStack.Carving} (h : m.stack.planCarving count = .ok c) :
    ∃ journal, carve count m =
      .ok (.stack c.start) { m with journal, stack := m.stack.carve c } := by
  unfold carve
  rw [bind_of_ok (query_of_ok h)]
  dsimp only
  by_cases hgrows : (c.outgrows && !c.frame.grown) = true
  · rw [if_pos hgrows]
    exact ⟨_, rfl⟩
  · rw [if_neg hgrows]
    exact ⟨_, rfl⟩

/-- Scratch that was handed out was planned, and nothing but the stack and the journal changes. -/
theorem eq_of_carve {count : Nat} {m m' : Machine} {a : Address} (h : carve count m = .ok a m') :
    ∃ c journal, m.stack.planCarving count = .ok c ∧ a = .stack c.start ∧
      m' = { m with journal, stack := m.stack.carve c } := by
  cases hplan : m.stack.planCarving count with
  | error e =>
    unfold carve at h
    rw [bind_of_error (query_of_error hplan)] at h
    cases h
  | ok c =>
    obtain ⟨journal, hcarve⟩ := carve_eq hplan
    obtain ⟨haddress, rfl⟩ := EStateM.Result.ok.inj (hcarve.symm.trans h)
    exact ⟨c, journal, rfl, haddress.symm, rfl⟩

theorem planCarving_of_carve {count : Nat} {m m' : Machine} {a : Address}
    (h : carve count m = .ok a m') :
    ∃ c, m.stack.planCarving count = .ok c ∧ a = .stack c.start ∧ m'.stack = m.stack.carve c := by
  obtain ⟨c, journal, hplan, ha, rfl⟩ := eq_of_carve h
  exact ⟨c, hplan, ha, rfl⟩

/-- **What putting a frame on the stack does**: it was found to have room, and nothing else changes. -/
theorem pushFrame_eq_ok {layout : FrameLayout} {m m' : Machine} (h : pushFrame layout m = .ok ⟨⟩ m') :
    ∃ size journal, m.stack.reserve (layout.frameAt m.stack.top).stop = .ok size ∧
      m' = { m with stack := m.stack.enter layout size, journal } := by
  obtain ⟨f, m₁, hframe, h⟩ := bind_eq_ok.mp h
  obtain ⟨hf, rfl⟩ := query_eq_ok.mp hframe
  cases hf
  obtain ⟨size, m₂, hquery, h⟩ := bind_eq_ok.mp h
  obtain ⟨hreserve, rfl⟩ := query_eq_ok.mp hquery
  rw [FrameStack.planFrame_checked] at hreserve
  cases h
  exact ⟨size, _, hreserve, rfl⟩

theorem reserve_of_pushFrame {layout : FrameLayout} {m m' : Machine}
    (h : pushFrame layout m = .ok ⟨⟩ m') :
    ∃ size, m.stack.reserve (layout.frameAt m.stack.top).stop = .ok size ∧
      m'.stack = m.stack.enter layout size := by
  obtain ⟨size, journal, hreserve, rfl⟩ := pushFrame_eq_ok h
  exact ⟨size, hreserve, rfl⟩

end ManagedVm.Exec
