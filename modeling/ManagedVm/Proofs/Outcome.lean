import Mathlib.Data.List.Forall2

/-!
# Taking outcomes apart

An operation that is put together from others succeeds if each of them does. The lemmas here say
this once, so that a proof about an operation follows its steps and never unfolds a monad.
-/

namespace ManagedVm

universe u v

variable {ε α β : Type u}

theorem except_map_ok {x : Except ε α} {f : α → β} {b : β} :
    x.map f = .ok b ↔ ∃ a, x = .ok a ∧ f a = b := by
  cases x <;> simp [Except.map]

theorem except_map_error {x : Except ε α} {f : α → β} {e : ε} :
    x.map f = .error e ↔ x = .error e := by
  cases x <;> simp [Except.map]

theorem except_bind_ok {x : Except ε α} {f : α → Except ε β} {b : β} :
    (x >>= f) = .ok b ↔ ∃ a, x = .ok a ∧ f a = .ok b := by
  cases x <;> simp [bind, Except.bind]

theorem except_bind_error {x : Except ε α} {f : α → Except ε β} {e : ε} :
    (x >>= f) = .error e ↔ x = .error e ∨ ∃ a, x = .ok a ∧ f a = .error e := by
  cases x <;> simp [bind, Except.bind]

theorem except_mapError_ok {δ : Type u} {x : Except ε α} {f : ε → δ} {a : α} :
    x.mapError f = .ok a ↔ x = .ok a := by
  cases x with
  | error e => exact ⟨(nomatch ·), (nomatch ·)⟩
  | ok b => exact ⟨fun h => Except.ok.inj h ▸ rfl, fun h => Except.ok.inj h ▸ rfl⟩

/-- A check before the rest. -/
theorem except_guard_ok {p : Prop} [Decidable p] {e : ε} {x : Except ε α} {a : α} :
    (if p then (throw e : Except ε PUnit) >>= fun _ => x else x) = .ok a ↔ ¬ p ∧ x = .ok a := by
  by_cases hp : p
  · rw [if_pos hp]
    exact ⟨(nomatch ·), fun h => absurd hp h.1⟩
  · rw [if_neg hp]
    exact ⟨fun h => ⟨hp, h⟩, fun h => h.2⟩

/-! ## Over a list -/

theorem except_mapM_ok {f : α → Except ε β} {xs : List α} {ys : List β} :
    xs.mapM f = .ok ys ↔ List.Forall₂ (fun x y => f x = .ok y) xs ys := by
  induction xs generalizing ys with
  | nil =>
    rw [List.mapM_nil, List.forall₂_nil_left_iff]
    exact ⟨fun h => (Except.ok.inj h).symm, fun h => h ▸ rfl⟩
  | cons x xs ih =>
    rw [List.mapM_cons]
    constructor
    · intro h
      obtain ⟨y, hy, h⟩ := except_bind_ok.mp h
      obtain ⟨zs, hzs, h⟩ := except_bind_ok.mp h
      cases h
      exact .cons hy (ih.mp hzs)
    · intro h
      cases h with
      | cons hy hzs => exact except_bind_ok.mpr ⟨_, hy, except_bind_ok.mpr ⟨_, ih.mpr hzs, rfl⟩⟩

/-- What fails is the first element that fails. -/
theorem except_mapM_error {f : α → Except ε β} {xs : List α} {e : ε} (h : xs.mapM f = .error e) :
    ∃ front x back, xs = front ++ x :: back ∧ f x = .error e ∧ ∀ y ∈ front, ∃ z, f y = .ok z := by
  induction xs with
  | nil => cases h
  | cons x xs ih =>
    rw [List.mapM_cons] at h
    rcases except_bind_error.mp h with hx | ⟨z, hz, h⟩
    · exact ⟨[], x, xs, rfl, hx, fun y hy => nomatch hy⟩
    · rcases except_bind_error.mp h with hxs | ⟨zs, -, h⟩
      · obtain ⟨front, y, back, rfl, hy, hfront⟩ := ih hxs
        exact ⟨x :: front, y, back, rfl, hy, List.forall_mem_cons.mpr ⟨⟨z, hz⟩, hfront⟩⟩
      · cases h

theorem option_mapM_some {f : α → Option β} {xs : List α} {ys : List β} :
    xs.mapM f = some ys ↔ List.Forall₂ (fun x y => f x = some y) xs ys := by
  induction xs generalizing ys with
  | nil =>
    rw [List.mapM_nil, List.forall₂_nil_left_iff]
    exact ⟨fun h => (Option.some.inj h).symm, fun h => h ▸ rfl⟩
  | cons x xs ih =>
    rw [List.mapM_cons]
    constructor
    · intro h
      obtain ⟨y, hy, h⟩ := Option.bind_eq_some_iff.mp h
      obtain ⟨zs, hzs, h⟩ := Option.bind_eq_some_iff.mp h
      cases h
      exact .cons hy (ih.mp hzs)
    · intro h
      cases h with
      | cons hy hzs =>
        exact Option.bind_eq_some_iff.mpr ⟨_, hy, Option.bind_eq_some_iff.mpr ⟨_, ih.mpr hzs, rfl⟩⟩

theorem exists_of_mem_forall₂ {R : α → β → Prop} {xs : List α} {ys : List β}
    (h : List.Forall₂ R xs ys) {y : β} (hy : y ∈ ys) : ∃ x ∈ xs, R x y := by
  induction h with
  | nil => cases hy
  | cons hr _ ih =>
    rcases List.mem_cons.mp hy with rfl | hy
    · exact ⟨_, .head _, hr⟩
    · obtain ⟨x, hx, hr⟩ := ih hy
      exact ⟨x, .tail _ hx, hr⟩

theorem exists_of_forall₂_mem {R : α → β → Prop} {xs : List α} {ys : List β}
    (h : List.Forall₂ R xs ys) {x : α} (hx : x ∈ xs) : ∃ y ∈ ys, R x y :=
  exists_of_mem_forall₂ h.flip hx

theorem except_forM_ok {f : α → Except ε PUnit.{u + 1}} {xs : List α} :
    xs.forM f = .ok ⟨⟩ ↔ ∀ x ∈ xs, f x = .ok ⟨⟩ := by
  induction xs with
  | nil => exact ⟨fun _ x hx => (nomatch hx), fun _ => rfl⟩
  | cons x xs ih =>
    rw [List.forM, except_bind_ok, List.forall_mem_cons, ← ih]
    exact ⟨fun ⟨_, hx, hxs⟩ => ⟨hx, hxs⟩, fun ⟨hx, hxs⟩ => ⟨_, hx, hxs⟩⟩

theorem except_forM_error {f : α → Except ε PUnit.{u + 1}} {xs : List α} {e : ε} (h : xs.forM f = .error e) :
    ∃ x ∈ xs, f x = .error e := by
  induction xs with
  | nil => cases h
  | cons x xs ih =>
    rw [List.forM] at h
    rcases except_bind_error.mp h with hx | ⟨_, -, hxs⟩
    · exact ⟨x, .head _, hx⟩
    · obtain ⟨y, hy, he⟩ := ih hxs
      exact ⟨y, .tail _ hy, he⟩

/-- A search that finds something found it at an element. -/
theorem except_anyM_true {ε α : Type} {f : α → Except ε Bool} {xs : List α}
    (h : xs.anyM f = .ok true) : ∃ x ∈ xs, f x = .ok true := by
  induction xs with
  | nil => cases h
  | cons x xs ih =>
    rw [List.anyM_cons] at h
    obtain ⟨b, hb, h⟩ := except_bind_ok.mp h
    cases b with
    | true => exact ⟨x, .head _, hb⟩
    | false =>
      obtain ⟨y, hy, hf⟩ := ih h
      exact ⟨y, .tail _ hy, hf⟩

/-- A search that can look at every element has an answer. -/
theorem except_anyM_ok {ε α : Type} {f : α → Except ε Bool} {xs : List α}
    (h : ∀ x ∈ xs, ∃ b, f x = .ok b) : ∃ b, xs.anyM f = .ok b := by
  induction xs with
  | nil => exact ⟨false, rfl⟩
  | cons x xs ih =>
    obtain ⟨b, hb⟩ := h x (.head _)
    obtain ⟨found, hfound⟩ := ih fun y hy => h y (.tail _ hy)
    rw [List.anyM_cons, hb]
    cases b with
    | true => exact ⟨true, rfl⟩
    | false => exact ⟨found, hfound⟩

/-- A search that finds nothing looked at every element. -/
theorem except_anyM_false {ε α : Type} {f : α → Except ε Bool} {xs : List α}
    (h : xs.anyM f = .ok false) : ∀ x ∈ xs, f x = .ok false := by
  induction xs with
  | nil => exact fun x hx => nomatch hx
  | cons x xs ih =>
    rw [List.anyM_cons] at h
    obtain ⟨b, hb, h⟩ := except_bind_ok.mp h
    cases b with
    | true => cases h
    | false => exact List.forall_mem_cons.mpr ⟨hb, ih h⟩

/-- A search that can look at every element finds one that is there. -/
theorem except_anyM_of_mem {ε α : Type} {f : α → Except ε Bool} {xs : List α}
    (hok : ∀ x ∈ xs, ∃ b, f x = .ok b) {x : α} (hx : x ∈ xs) (htrue : f x = .ok true) :
    xs.anyM f = .ok true := by
  obtain ⟨found, hfound⟩ := except_anyM_ok hok
  cases found with
  | true => exact hfound
  | false => cases htrue.symm.trans (except_anyM_false hfound x hx)

/-- A loop that succeeds keeps what each of its steps keeps, and learns of each element what the
step for it shows. -/
theorem except_foldlM_ok {f : β → α → Except ε β} {P : β → Prop} {Q : α → Prop} {xs : List α}
    (hstep : ∀ x ∈ xs, ∀ b b', P b → f b x = .ok b' → P b' ∧ Q x) {b b' : β} (hb : P b)
    (h : xs.foldlM f b = .ok b') : P b' ∧ ∀ x ∈ xs, Q x := by
  induction xs generalizing b with
  | nil =>
    cases h
    exact ⟨hb, fun x hx => nomatch hx⟩
  | cons x xs ih =>
    rw [List.foldlM_cons] at h
    obtain ⟨b₁, hx, h⟩ := except_bind_ok.mp h
    obtain ⟨hb₁, hq⟩ := hstep x (.head _) b b₁ hb hx
    obtain ⟨hb', hqs⟩ := ih (fun y hy => hstep y (.tail _ hy)) hb₁ h
    exact ⟨hb', List.forall_mem_cons.mpr ⟨hq, hqs⟩⟩

/-- A loop that fails does so at an element, with what the elements before it have left; that is what
each of its steps keeps. -/
theorem except_foldlM_error {f : β → α → Except ε β} {P : β → Prop} {xs : List α}
    (hstep : ∀ x ∈ xs, ∀ b b', P b → f b x = .ok b' → P b') {b : β} (hb : P b) {e : ε}
    (h : xs.foldlM f b = .error e) : ∃ x ∈ xs, ∃ b', P b' ∧ f b' x = .error e := by
  induction xs generalizing b with
  | nil => cases h
  | cons x xs ih =>
    rw [List.foldlM_cons] at h
    rcases except_bind_error.mp h with hx | ⟨b', hx, hxs⟩
    · exact ⟨x, .head _, b, hb, hx⟩
    · obtain ⟨y, hy, hfails⟩ := ih (fun y hy => hstep y (.tail _ hy)) (hstep x (.head _) b b' hb hx) hxs
      exact ⟨y, .tail _ hy, hfails⟩

end ManagedVm
