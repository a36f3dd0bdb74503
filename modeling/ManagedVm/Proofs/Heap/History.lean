import ManagedVm.Proofs.Heap.Store

/-!
# Addresses and their history

What a lookup says of an address is decided by the calls made before. An address that an allocation
returned and that was not freed since then names a live object; one that was freed since it was last
returned is a dangling one; every other address was never allocated. It does not matter what has
become of the bytes: regions are joined, split at other places and given out again, so that the start
of a freed object may lie inside a new one, or be the start of a new one.

The heap has no record of its history. It keeps the live objects and the starts of those that were
freed and not replaced, and the invariant (`Tracks`) is that this is all there is to know.
-/

namespace ManagedVm.Heap

/-! ## Histories -/

/-- The calls made on a heap and what they returned, oldest first. -/
abbrev History := List (Call × Except Error Answer)

/-- The heap after any calls, with the history of these calls. The arena is a run of bytes in memory,
so it is never as long as half the words there are. -/
inductive Recorded [Build] (settings : Settings) : History → Heap → Prop
  | created {h : Heap} : create settings = .ok h → Recorded settings [] h
  | called {history : History} {h : Heap} (c : Call) : Recorded settings history h →
      (h.after c).arena.size < Address.stackStart.toNat →
        Recorded settings (history ++ [(c, c.answer h)]) (h.after c)

/-- The allocation that made an object: the call for it returned the object's address. -/
def made (o : Object) : Call × Except Error Answer :=
  (.allocate o.size o.type o.kind, .ok (.address o.address))

/-- The address was freed, in a part of a history. -/
def FreedIn (part : History) (a : Address) : Prop := ∃ o, (.free a, .ok (.header o)) ∈ part

/-- **The object is the one for which its address was last returned**, with the calls made since
then. -/
structure LastMade (history : History) (o : Object) (since : History) : Prop where
  split : ∃ before, history = before ++ made o :: since
  last : ∀ o', made o' ∈ since → o'.address ≠ o.address

/-- The object was made, and its address neither freed nor returned again since then. -/
def LiveIn (history : History) (o : Object) : Prop :=
  ∃ since, LastMade history o since ∧ ¬ FreedIn since o.address

/-- The address was returned, and it was freed since it was last returned. -/
def DanglingIn (history : History) (a : Address) : Prop :=
  ∃ o since, o.address = a ∧ LastMade history o since ∧ FreedIn since a

/-! ## One more call -/

variable {history part : History} {entry : Call × Except Error Answer} {o : Object} {a : Address}

theorem made_injective {o o' : Object} (h : made o = made o') : o = o' := by
  obtain ⟨address, type, size, kind⟩ := o
  obtain ⟨address', type', size', kind'⟩ := o'
  unfold made at h
  simp only [Prod.mk.injEq, Call.allocate.injEq, Except.ok.injEq, Answer.address.injEq] at h
  obtain ⟨⟨rfl, rfl, rfl⟩, rfl⟩ := h
  rfl

theorem freedIn_concat : FreedIn (part ++ [entry]) a ↔
    FreedIn part a ∨ ∃ o, entry = (.free a, .ok (.header o)) := by
  simp only [FreedIn, List.mem_append, List.mem_singleton, exists_or, eq_comm]

theorem lastMade_concat {since : History} : LastMade (history ++ [entry]) o since ↔
    (since = [] ∧ entry = made o) ∨
      ∃ since', since = since' ++ [entry] ∧ LastMade history o since' ∧
        ∀ o', entry = made o' → o'.address ≠ o.address := by
  constructor
  · rintro ⟨⟨before, hsplit⟩, hlast⟩
    rcases List.eq_nil_or_concat since with rfl | ⟨since', newest, rfl⟩
    · obtain ⟨-, hentry⟩ := List.append_inj' hsplit rfl
      exact .inl ⟨rfl, (List.cons.inj hentry).1⟩
    · rw [List.concat_eq_append] at hsplit hlast ⊢
      rw [← List.cons_append, ← List.append_assoc] at hsplit
      obtain ⟨hbefore, hentry⟩ := List.append_inj' hsplit rfl
      obtain ⟨rfl, -⟩ := List.cons.inj hentry
      refine .inr ⟨since', rfl, ⟨⟨before, hbefore⟩, ?_⟩, ?_⟩
      · exact fun o' ho' => hlast o' (List.mem_append_left _ ho')
      · rintro o' rfl
        exact hlast o' (List.mem_append_right _ (.head _))
  · rintro (⟨rfl, rfl⟩ | ⟨since', rfl, ⟨⟨before, rfl⟩, hlast⟩, hnew⟩)
    · exact ⟨⟨history, rfl⟩, fun o' ho' => nomatch ho'⟩
    · refine ⟨⟨before, by simp⟩, ?_⟩
      intro o' ho'
      rcases List.mem_append.mp ho' with ho' | ho'
      · exact hlast o' ho'
      · exact hnew o' (List.mem_singleton.mp ho').symm

/-- **What a call does to the live objects of a history.** -/
theorem liveIn_concat : LiveIn (history ++ [entry]) o ↔
    entry = made o ∨ LiveIn history o ∧ (∀ o', entry = made o' → o'.address ≠ o.address) ∧
      ∀ p, entry ≠ (.free o.address, .ok (.header p)) := by
  constructor
  · rintro ⟨since, hlast, hfreed⟩
    rcases lastMade_concat.mp hlast with ⟨-, hentry⟩ | ⟨since', rfl, hlast', hnew⟩
    · exact .inl hentry
    · rw [freedIn_concat, not_or, not_exists] at hfreed
      exact .inr ⟨⟨since', hlast', hfreed.1⟩, hnew, hfreed.2⟩
  · rintro (hentry | ⟨⟨since, hlast, hfreed⟩, hnew, hkept⟩)
    · refine ⟨[], lastMade_concat.mpr (.inl ⟨rfl, hentry⟩), ?_⟩
      rintro ⟨p, hp⟩
      cases hp
    · refine ⟨since ++ [entry], lastMade_concat.mpr (.inr ⟨since, rfl, hlast, hnew⟩), ?_⟩
      rw [freedIn_concat, not_or, not_exists]
      exact ⟨hfreed, hkept⟩

/-- **What a call does to the dangling addresses of a history.** -/
theorem danglingIn_concat : DanglingIn (history ++ [entry]) a ↔
    DanglingIn history a ∧ (∀ o, entry = made o → o.address ≠ a) ∨
      ∃ o p, o.address = a ∧ LiveIn history o ∧ entry = (.free a, .ok (.header p)) := by
  constructor
  · rintro ⟨o, since, rfl, hlast, hfreed⟩
    rcases lastMade_concat.mp hlast with ⟨rfl, -⟩ | ⟨since', rfl, hlast', hnew⟩
    · obtain ⟨p, hp⟩ := hfreed
      cases hp
    · by_cases hbefore : FreedIn since' o.address
      · exact .inl ⟨⟨o, since', rfl, hlast', hbefore⟩, hnew⟩
      · obtain ⟨p, hp⟩ := (freedIn_concat.mp hfreed).resolve_left hbefore
        exact .inr ⟨o, p, rfl, ⟨since', hlast', hbefore⟩, hp⟩
  · rintro (⟨⟨o, since, rfl, hlast, hfreed⟩, hnew⟩ | ⟨o, p, rfl, ⟨since, hlast, -⟩, rfl⟩)
    · exact ⟨o, since ++ [entry], rfl, lastMade_concat.mpr (.inr ⟨since, rfl, hlast, hnew⟩),
        freedIn_concat.mpr (.inl hfreed)⟩
    · refine ⟨o, _, rfl, lastMade_concat.mpr (.inr ⟨since, rfl, hlast, ?_⟩), ?_⟩
      · intro o' ho'
        cases ho'
      · exact freedIn_concat.mpr (.inr ⟨p, rfl⟩)

/-- An object that was made is the last one at its address, or another one is. -/
theorem exists_lastMade (h : made o ∈ history) :
    ∃ o' since, o'.address = o.address ∧ LastMade history o' since := by
  induction history using List.reverseRecOn with
  | nil => cases h
  | append_singleton history entry ih =>
    by_cases hentry : ∃ o', entry = made o' ∧ o'.address = o.address
    · obtain ⟨o', rfl, haddress⟩ := hentry
      exact ⟨o', [], haddress, lastMade_concat.mpr (.inl ⟨rfl, rfl⟩)⟩
    · rcases List.mem_append.mp h with h | h
      · obtain ⟨o', since, haddress, hlast⟩ := ih h
        refine ⟨o', _, haddress, lastMade_concat.mpr (.inr ⟨since, rfl, hlast, ?_⟩)⟩
        intro new hnew hsame
        exact hentry ⟨new, hnew, hsame.trans haddress⟩
      · exact absurd ⟨o, (List.mem_singleton.mp h).symm, rfl⟩ hentry

theorem LastMade.mem {since : History} (h : LastMade history o since) : made o ∈ history := by
  obtain ⟨before, rfl⟩ := h.split
  simp

/-! ## The invariant -/

/-- **The heap knows what matters of its history**: its objects are the live ones, its tombstones are
the dangling addresses, and no address was returned that is null or of the stack. -/
structure Tracks (history : History) (h : Heap) : Prop where
  live : ∀ o, o ∈ h.objects ↔ LiveIn history o
  buried : ∀ a, isForeign a = false → (a.offset ∈ h.tombstones ↔ DanglingIn history a)
  returned : ∀ o, made o ∈ history → isForeign o.address = false

variable {h : Heap}

/-- **What a call leaves in the history**: an allocation with the object that it made, freeing with
the object that it freed, or neither of them, and then the objects and the tombstones stay. -/
theorem entry_cases (inv : h.Inv) (c : Call) :
    (∃ p size type kind, h.plan size = .ok p ∧
      (c, c.answer h) = made ⟨.heap p.start, type, size, kind⟩ ∧
        h.after c = h.occupy p size type kind) ∨
    (∃ o ∈ h.objects, (c, c.answer h) = (.free o.address, .ok (.header o)) ∧
      h.after c = h.vacate o) ∨
    (∀ o, (c, c.answer h) ≠ made o) ∧ (∀ a o, (c, c.answer h) ≠ (.free a, .ok (.header o))) ∧
      (h.after c).objects = h.objects ∧ (h.after c).tombstones = h.tombstones := by
  cases c with
  | allocate size type kind =>
    cases hplan : h.plan size with
    | ok p =>
      refine .inl ⟨p, size, type, kind, hplan, ?_⟩
      simp [Call.answer, Heap.after, Call.run, allocate_eq_map, hplan, Except.map, made]
    | error e =>
      refine .inr (.inr ?_)
      simp [Call.answer, Heap.after, Call.run, allocate_eq_map, hplan, Except.map, made]
  | free a =>
    cases hget : h.get a with
    | ok o =>
      obtain ⟨ho, rfl⟩ := (get_eq_ok_iff inv).mp hget
      refine .inr (.inl ⟨o, ho, ?_⟩)
      simp [Call.answer, Heap.after, Call.run, free_eq_map, hget, Except.map]
    | error e =>
      refine .inr (.inr ?_)
      simp [Call.answer, Heap.after, Call.run, free_eq_map, hget, Except.map, made]
  | write a data =>
    refine .inr (.inr ⟨by simp [made], by simp, ?_⟩)
    by_cases hrange : h.inRange a data.length = true
    · simp [Heap.after, Call.run, Heap.write, hrange, Heap.poke]
    · simp [Heap.after, Call.run, Heap.write, hrange]
  | change a length new =>
    refine .inr (.inr ⟨by simp [made], by simp, ?_⟩)
    by_cases hrange : h.inRange a length = true
    · simp [Heap.after, Call.run, Heap.bytes, hrange, Heap.poke, Except.map]
    · simp [Heap.after, Call.run, Heap.bytes, hrange, Except.map]

theorem foreign_of_mem (inv : h.Inv) (ho : o ∈ h.objects) : isForeign o.address = false :=
  (get_eq_ok ((get_eq_ok_iff inv).mpr ⟨ho, rfl⟩)).2.2

/-- Addresses of the heap with one offset are one. -/
theorem eq_of_offset {b : Address} (ha : isForeign a = false) (hb : isForeign b = false)
    (h : a.offset = b.offset) : a = b := by
  rw [← Address.heap_offset (isForeign_eq_false.mp ha).1, h,
    Address.heap_offset (isForeign_eq_false.mp hb).1]

/-- An allocation adds a live object, whose address no longer dangles. -/
theorem Tracks.occupy {p : Plan} {size : Nat} {type : TypeId} {kind : ObjectKind}
    (ht : Tracks history h) (inv : h.Inv) (hp : p.Sound h size)
    (inv' : (h.occupy p size type kind).Inv) :
    Tracks (history ++ [made ⟨.heap p.start, type, size, kind⟩]) (h.occupy p size type kind) := by
  have hnew : ⟨.heap p.start, type, size, kind⟩ ∈ (h.occupy p size type kind).objects :=
    mem_occupy.mpr (.inl rfl)
  have hforeign := foreign_of_mem inv' hnew
  constructor
  case live =>
    intro o
    rw [mem_occupy, liveIn_concat, ← ht.live]
    constructor
    · rintro (rfl | ho)
      · exact .inl rfl
      · refine .inr ⟨ho, ?_, by simp [made]⟩
        intro o' ho' haddress
        obtain rfl := made_injective ho'
        exact inv'.fresh_occupy o ho haddress.symm
    · rintro (heq | ⟨ho, -⟩)
      · exact .inl (made_injective heq).symm
      · exact .inr ho
  case buried =>
    intro a ha
    have hstart : (Address.heap p.start).offset = p.start := hp.offset_start inv inv'.short
    have hmem : a.offset ∈ (h.occupy p size type kind).tombstones ↔
        a.offset ∈ h.tombstones ∧ a.offset ≠ p.start := by
      simp [Heap.occupy]
    rw [hmem, danglingIn_concat, ht.buried a ha]
    constructor
    · rintro ⟨hdangling, hne⟩
      refine .inl ⟨hdangling, ?_⟩
      intro o ho haddress
      obtain rfl := made_injective ho
      exact hne (haddress ▸ hstart)
    · rintro (⟨hdangling, hne⟩ | ⟨o, p, -, -, hentry⟩)
      · refine ⟨hdangling, ?_⟩
        intro hoffset
        exact hne _ rfl (eq_of_offset hforeign ha (hstart.trans hoffset.symm))
      · cases hentry
  case returned =>
    intro o ho
    rcases List.mem_append.mp ho with ho | ho
    · exact ht.returned o ho
    · obtain rfl := made_injective (List.mem_singleton.mp ho)
      exact hforeign

/-- Freeing makes the address of a live object a dangling one. -/
theorem Tracks.vacate (ht : Tracks history h) (inv : h.Inv) (ho : o ∈ h.objects) :
    Tracks (history ++ [(.free o.address, .ok (.header o))]) (h.vacate o) := by
  constructor
  case live =>
    intro p
    rw [mem_objects_vacate inv ho, liveIn_concat, ← ht.live]
    constructor
    · rintro ⟨hp, hne⟩
      refine .inr ⟨hp, by simp [made], ?_⟩
      intro q hq
      simp only [Prod.mk.injEq, Call.free.injEq] at hq
      exact hne (inv.eq_of_address hp ho hq.1.symm)
    · rintro (heq | ⟨hp, -, hkept⟩)
      · cases heq
      · refine ⟨hp, ?_⟩
        rintro rfl
        exact hkept p rfl
  case buried =>
    intro a ha
    have hmem : a.offset ∈ (h.vacate o).tombstones ↔ a.offset = o.start ∨ a.offset ∈ h.tombstones :=
      mem_insertTombstone
    rw [hmem, danglingIn_concat, ht.buried a ha]
    constructor
    · rintro (hoffset | hdangling)
      · have haddress : o.address = a := eq_of_offset (foreign_of_mem inv ho) ha hoffset.symm
        exact .inr ⟨o, o, haddress, (ht.live o).mp ho, by rw [haddress]⟩
      · exact .inl ⟨hdangling, by simp [made]⟩
    · rintro (⟨hdangling, -⟩ | ⟨p, q, rfl, hlive, hentry⟩)
      · exact .inr hdangling
      · simp only [Prod.mk.injEq, Call.free.injEq] at hentry
        exact .inl (congrArg Address.offset hentry.1.symm)
  case returned =>
    intro p hp
    rcases List.mem_append.mp hp with hp | hp
    · exact ht.returned p hp
    · cases List.mem_singleton.mp hp

/-- **One step**: a call keeps what the heap knows of its history. -/
theorem Tracks.after (ht : Tracks history h) (inv : h.Inv) (c : Call) (inv' : (h.after c).Inv) :
    Tracks (history ++ [(c, c.answer h)]) (h.after c) := by
  rcases entry_cases inv c with ⟨p, size, type, kind, hplan, hentry, hafter⟩ |
    ⟨o, ho, hentry, hafter⟩ | ⟨hmade, hfreed, hobjects, htombstones⟩
  · rw [hafter] at inv' ⊢
    rw [hentry]
    exact ht.occupy inv (inv.plan_sound hplan) inv'
  · rw [hafter, hentry]
    exact ht.vacate inv ho
  · constructor
    case live =>
      intro o
      rw [hobjects, ht.live, liveIn_concat]
      simp [hmade, hfreed]
    case buried =>
      intro a ha
      rw [htombstones, ht.buried a ha, danglingIn_concat]
      simp [hmade, hfreed]
    case returned =>
      intro o ho
      rcases List.mem_append.mp ho with ho | ho
      · exact ht.returned o ho
      · exact absurd (List.mem_singleton.mp ho).symm (hmade o)

theorem Recorded.reached {settings : Settings} (hr : Recorded settings history h) :
    Reached settings h := by
  induction hr with
  | created hcreate => exact .created hcreate
  | called c _ hsize ih => exact ih.called c hsize

/-- **Every run**: the heap knows what matters of the calls that led to it. -/
theorem Recorded.tracks {settings : Settings} (hr : Recorded settings history h) :
    Tracks history h := by
  induction hr with
  | created hcreate =>
    obtain ⟨-, rfl⟩ := create_eq_ok hcreate
    have hnone : ∀ o since, ¬ LastMade [] o since := fun o since hlast => nomatch hlast.mem
    constructor
    · simp [LiveIn, hnone]
    · simp [DanglingIn, hnone]
    · exact fun o ho => nomatch ho
  | called c hr hsize ih => exact ih.after hr.reached.inv c (hr.reached.called c hsize).inv

/-! ## What is said of an address -/

theorem Tracks.get_eq_ok_iff (ht : Tracks history h) (inv : h.Inv) :
    h.get a = .ok o ↔ o.address = a ∧ LiveIn history o := by
  rw [Heap.get_eq_ok_iff inv, ht.live, and_comm]

/-- A lookup that finds no object says whether one was freed there. -/
theorem get_of_not_live (hnone : ∀ o, h.get a ≠ .ok o) :
    h.get a = if isForeign a = false ∧ a.offset ∈ h.tombstones then .error (.useAfterFree a)
      else .error (.notAllocated a) := by
  unfold get at hnone ⊢
  by_cases hforeign : isForeign a = true
  · simp [hforeign]
  · rw [if_neg hforeign] at hnone ⊢
    cases hobject : h.objectAt? a.offset with
    | some o =>
      rw [hobject] at hnone
      exact absurd rfl (hnone o)
    | none => simp [hforeign]

/-- No object is live at a dangling address. -/
theorem Tracks.not_live (ht : Tracks history h) (inv : h.Inv) (hd : DanglingIn history a) :
    ∀ o, h.get a ≠ .ok o := by
  intro o hget
  obtain ⟨haddress, hlive⟩ := (ht.get_eq_ok_iff inv).mp hget
  have ho := (ht.live o).mpr hlive
  have hforeign : isForeign a = false := haddress ▸ foreign_of_mem inv ho
  have hgrave := (ht.buried a hforeign).mpr hd
  have hstart : o.start = a.offset := congrArg Address.offset haddress
  exact inv.buried o ho (hstart ▸ hgrave)

theorem DanglingIn.exists_made (hd : DanglingIn history a) : ∃ o, made o ∈ history ∧ o.address = a := by
  obtain ⟨o, since, haddress, hlast, -⟩ := hd
  exact ⟨o, hlast.mem, haddress⟩

theorem Tracks.get_eq_useAfterFree_iff (ht : Tracks history h) (inv : h.Inv) :
    h.get a = .error (.useAfterFree a) ↔ DanglingIn history a := by
  constructor
  · intro hget
    have hnone : ∀ o, h.get a ≠ .ok o := by simp [hget]
    rw [get_of_not_live hnone] at hget
    split at hget
    · rename_i hgrave
      exact (ht.buried a hgrave.1).mp hgrave.2
    · cases hget
  · intro hd
    obtain ⟨o, hmade, rfl⟩ := hd.exists_made
    have hforeign := ht.returned o hmade
    have hgrave := (ht.buried o.address hforeign).mpr hd
    rw [get_of_not_live (ht.not_live inv hd), if_pos ⟨hforeign, hgrave⟩]

theorem Tracks.get_eq_notAllocated_iff (ht : Tracks history h) (inv : h.Inv) :
    h.get a = .error (.notAllocated a) ↔ ∀ o, made o ∈ history → o.address ≠ a := by
  constructor
  · rintro hget o hmade rfl
    -- The address was returned, so it was freed since the last time, or it was not.
    obtain ⟨p, since, haddress, hlast⟩ := exists_lastMade hmade
    by_cases hfreed : FreedIn since o.address
    · have hd : DanglingIn history o.address := ⟨p, since, haddress, hlast, hfreed⟩
      rw [(ht.get_eq_useAfterFree_iff inv).mpr hd] at hget
      cases hget
    · have hlive : LiveIn history p := ⟨since, hlast, haddress ▸ hfreed⟩
      rw [(ht.get_eq_ok_iff inv).mpr ⟨haddress, hlive⟩] at hget
      cases hget
  · intro hnever
    have hnone : ∀ o, h.get a ≠ .ok o := by
      intro o hget
      obtain ⟨haddress, since, hlast, -⟩ := (ht.get_eq_ok_iff inv).mp hget
      exact hnever o hlast.mem haddress
    rw [get_of_not_live hnone, if_neg]
    rintro ⟨hforeign, hgrave⟩
    obtain ⟨o, hmade, haddress⟩ := ((ht.buried a hforeign).mp hgrave).exists_made
    exact hnever o hmade haddress

/-- An address inside a live object is its own, or that of none. -/
theorem Inv.get_inside (inv : h.Inv) (hinside : h.containing? a = some o) (hne : o.address ≠ a) :
    ∀ p, h.get a ≠ .ok p := by
  intro p hget
  obtain ⟨hforeign, ho, hle, hrange⟩ := (containing?_eq_some_iff inv).mp hinside
  obtain ⟨hp, rfl⟩ := (Heap.get_eq_ok_iff inv).mp hget
  have hdistinct : o ≠ p := by
    rintro rfl
    exact hne rfl
  have hapart := inv.apart ho hp hdistinct
  have hsize := le_reserved o.size
  have hpos := (reserved_aligned o.size).1
  have hpos' := (reserved_aligned p.size).1
  have hstart : p.address.offset = p.start := rfl
  simp only [Hole.Apart, Hole.stop, Object.region] at hapart
  omega

/-- **What a lookup says of an address is what has happened to it.** -/
structure ToldByHistory (history : History) (h : Heap) (a : Address) : Prop where
  /-- There is an object: the one for which the address was last returned, not freed since. -/
  live : ∀ o, h.get a = .ok o ↔ o.address = a ∧ LiveIn history o
  /-- The address was freed since it was last returned. -/
  dangling : h.get a = .error (.useAfterFree a) ↔ DanglingIn history a
  /-- The address was never returned. -/
  never : h.get a = .error (.notAllocated a) ↔ ∀ o, made o ∈ history → o.address ≠ a
  /-- Null and the addresses of the stack never are. -/
  foreign : isForeign a = true → ∀ o, made o ∈ history → o.address ≠ a
  /-- An address inside a live object, behind its start, is no live object's own. -/
  inside : ∀ o, h.containing? a = some o → o.address ≠ a → ∀ p, h.get a ≠ .ok p
  /-- Freeing answers as the lookup does. -/
  free : (h.free a).map (·.1) = h.get a
  /-- Freeing that fails changes nothing, of the heap or of a machine. -/
  refused : ∀ e, h.free a = .error e → h.after (.free a) = h ∧
    ∀ m : Machine, m.heap = h → Exec.freeObject a m = .error (.heap e) m

/-- **Freed, live and never allocated addresses are told apart by history**, after any calls on a heap
and for every address. -/
theorem told_by_history {settings : Settings} (hr : Recorded settings history h) (a : Address) :
    ToldByHistory history h a := by
  have inv := hr.reached.inv
  have ht := hr.tracks
  constructor
  case live => exact fun o => ht.get_eq_ok_iff inv
  case dangling => exact ht.get_eq_useAfterFree_iff inv
  case never => exact ht.get_eq_notAllocated_iff inv
  case foreign =>
    rintro hforeign o hmade rfl
    rw [ht.returned o hmade] at hforeign
    cases hforeign
  case inside => exact fun o => inv.get_inside
  case free =>
    rw [free_eq_map]
    cases h.get a <;> rfl
  case refused =>
    intro e hfree
    rw [free_eq_map, except_map_error] at hfree
    constructor
    · simp only [Heap.after, Call.run, free_eq_map, hfree, Except.map]
    · rintro m rfl
      exact Exec.freeObject_of_error hfree

/-- Two objects side by side are freed, and a longer one is put where they were. The start of the
first is now the new one's; the start of the second lies inside the new one and still dangles. Where
the last region ends no object ever started. -/
theorem told_by_history_of_joined :
    ∃ history h, Recorded { initialSize := 16, maxSize := 64 } history h ∧
      h.get (.heap 8) = .ok ⟨.heap 8, ⟨2⟩, 12, .string⟩ ∧
      h.containing? (.heap 16) = some ⟨.heap 8, ⟨2⟩, 12, .string⟩ ∧ DanglingIn history (.heap 16) ∧
      h.get (.heap 16) = .error (.useAfterFree (.heap 16)) ∧
      h.get (.heap 32) = .error (.notAllocated (.heap 32)) ∧ ToldByHistory history h (.heap 16) := by
  have hcreated : Recorded { initialSize := 16, maxSize := 64 } []
      { settings := { initialSize := 16, maxSize := 64 }, arena := .zeroed 16 } :=
    .created (by decide)
  have hfirst := hcreated.called (.allocate 8 ⟨1⟩ .object) (by decide)
  have hsecond := hfirst.called (.allocate 5 ⟨1⟩ .object) (by decide)
  have hthird := hsecond.called (.allocate 1 ⟨1⟩ .object) (by decide)
  have hfreed := (hthird.called (.free (.heap 16)) (by decide)).called (.free (.heap 8))
    (by decide)
  have hjoined := hfreed.called (.allocate 12 ⟨2⟩ .string) (by decide)
  have htold := told_by_history hjoined (.heap 16)
  have hdangling := htold.dangling.mp (by decide)
  exact ⟨_, _, hjoined, by decide, by decide, hdangling, by decide,
    by decide, htold⟩

end ManagedVm.Heap
