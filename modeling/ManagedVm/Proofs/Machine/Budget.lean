import ManagedVm.Proofs.Machine.Effect
import ManagedVm.Proofs.Machine.Sizing
import ManagedVm.Proofs.Stack.Frames

/-!
# What operations spend

The walk over a body counts the bytes of each entry that it pushes, and an instruction takes scratch
for the value that it pushes. The walk knows types and the instruction has values, so the two can be
compared as long as the values are no larger than what stands for them in the walk (`Sizing.Fits`).

The judgment for that is `Exec.Spends`: an operation on the innermost frame takes no more scratch than
it is allowed, whether it succeeds or fails; so the frame is never extended, and the arena is never
found too small. There is a rule of the judgment for each kind of step that a definition takes, and a
lemma for each way to make a value.
-/

namespace ManagedVm

/-! ## Values and entries -/

/-- **The value is no larger than what stands for it in the walk.** Only two kinds of values decide how
much scratch is taken later: a primitive, for the result of arithmetic has its type; and an array,
whose type tells that of its elements. -/
def Sizing.Fits (types : TypeTable) (e : Sizing.Entry) : Value → Prop
  | .primitive type _ => ∀ kind, (types.descriptor type).category = .primitive kind →
      kind.size ≤ Sizing.entrySize types e
  | .array type _ => type = e.type
  | _ => True

/-! ## The frame -/

/-- What an operation on the innermost frame finds: the program, the method that runs in the frame, the
frame as it was pushed and the frames below, and how far its scratch may be used. -/
structure FrameBudget where
  program : Machine
  method : Method
  frame : Frame
  below : List Frame
  limit : Nat
  limit_le : limit ≤ frame.stop
  builtin : ∀ kind, (program.types.descriptor (program.types.builtins.primitive kind)).category =
    .primitive kind
  size_eq : ∀ {type kind}, (program.types.descriptor type).category = .primitive kind →
    (program.types.descriptor type).size = kind.size
  locals : ∀ {index b type}, frame.getLocal index = .ok b →
    Sizing.localType program method index = .ok type → b.type = type
  arguments : ∀ {index b type}, frame.getArgument index = .ok b →
    Sizing.argumentType program method index = .ok type → b.type = type

namespace FrameBudget

/-- **The frame is the one that was pushed**, but for its values and for the scratch it has handed
out. -/
structure At (g : FrameBudget) (values : List Value) (cursor : Nat) (m : Machine) : Prop where
  image : m.image = g.program.image
  types : m.types = g.program.types
  frames : m.stack.frames = { g.frame with values, cursor } :: g.below

variable {g : FrameBudget} {values : List Value} {cursor : Nat} {m m' : Machine}

theorem At.sameFrames (h : g.At values cursor m) (h' : m.SameFrames m') : g.At values cursor m' :=
  ⟨h'.image.trans h.image, h'.types.trans h.types, h'.frames.trans h.frames⟩

/-- The frame holds what it was pushed with, and its scratch is used no further than to a place. -/
def Within (g : FrameBudget) (bound : Nat) (m : Machine) : Prop :=
  ∃ values cursor, g.At values cursor m ∧ cursor ≤ bound

/-- A value fits its entry. -/
def Fits (g : FrameBudget) : Sizing.Entry → Value → Prop := Sizing.Fits g.program.types

/-- Bytes of an entry's value. -/
def sizeOf (g : FrameBudget) : Sizing.Entry → Nat := Sizing.entrySize g.program.types

/-- A new value fits the entry, and the others are what they were. -/
def Gives (g : FrameBudget) (e : Sizing.Entry) (values : List Value) (v : Value) (values' : List Value) : Prop :=
  values' = values ∧ g.Fits e v

theorem fits_primitive (g : FrameBudget) (type : TypeId) (a : Address) :
    g.Fits (.value type) (.primitive type a) :=
  fun _ hkind => Nat.le_of_eq (g.size_eq hkind).symm

end FrameBudget

namespace Exec

variable {α β : Type} {g : FrameBudget} {k : Nat} {values : List Value}

/-- **The operation takes no more scratch than allowed**, and is never refused any. -/
def Spends (g : FrameBudget) (allowance : Nat) (values : List Value) (x : Exec α)
    (Q : α → List Value → Prop) : Prop :=
  ∀ m cursor, g.At values cursor m → cursor + allowance ≤ g.limit → match x m with
    | .ok a m' => ∃ values' cursor', g.At values' cursor' m' ∧ cursor' ≤ cursor + allowance ∧ Q a values'
    | .error e m' => g.Within (cursor + allowance) m' ∧ e.isOverflow = false

namespace Spends

variable {x : Exec α} {f : α → Exec β} {Q : β → List Value → Prop} {R : α → List Value → Prop}

theorem of_ok {m m' : Machine} {cursor : Nat} {a : α} (hx : Spends g k values x R)
    (hm : g.At values cursor m) (hroom : cursor + k ≤ g.limit) (h : x m = .ok a m') :
    ∃ values' cursor', g.At values' cursor' m' ∧ cursor' ≤ cursor + k ∧ R a values' := by
  have hspends := hx m cursor hm hroom
  rw [h] at hspends
  exact hspends

theorem of_error {m m' : Machine} {cursor : Nat} {e : Error} (hx : Spends g k values x R)
    (hm : g.At values cursor m) (hroom : cursor + k ≤ g.limit) (h : x m = .error e m') :
    g.Within (cursor + k) m' ∧ e.isOverflow = false := by
  have hspends := hx m cursor hm hroom
  rw [h] at hspends
  exact hspends

theorem pure {a : α} (h : R a values) : Spends g k values (Pure.pure a) R :=
  fun _ cursor hm _ => ⟨values, cursor, hm, Nat.le_add_right _ _, h⟩

theorem throw {e : Error} (he : e.isData = true) : Spends g k values (MonadExcept.throw e : Exec α) R :=
  fun _ cursor hm _ => ⟨⟨values, cursor, hm, Nat.le_add_right _ _⟩, (Error.isData_iff.mp he).2.1⟩

/-- A step that leaves the frames alone. -/
theorem aside_of_sameFrames (hx : Keeps Machine.SameFrames (·.isData = true) x)
    (hf : ∀ a, Spends g k values (f a) Q) : Spends g k values (x >>= f) Q := by
  intro m cursor hm hroom
  cases h : x m with
  | error e m' =>
    obtain ⟨hsame, hdata⟩ := hx.of_error h
    rw [bind_of_error h]
    exact ⟨⟨values, cursor, hm.sameFrames hsame, Nat.le_add_right _ _⟩, (Error.isData_iff.mp hdata).2.1⟩
  | ok a m' =>
    rw [bind_of_ok h]
    exact hf a m' cursor (hm.sameFrames (hx.of_ok h)) hroom

theorem aside (hx : Touches .memory x) (hf : ∀ a, Spends g k values (f a) Q) :
    Spends g k values (x >>= f) Q := .aside_of_sameFrames hx.sameFrames hf

/-- The rest leaves the frames alone. -/
theorem rest (hx : Touches .memory x) (hR : ∀ a, R a values) : Spends g k values x R := by
  rw [← bind_pure x]
  exact .aside hx fun a => .pure (hR a)

/-- A question, of which the answer matters. -/
theorem ask {q : Machine → Except Error α} (hq : ∀ m, RaisesData (q m))
    (hf : ∀ m a, m.image = g.program.image → m.types = g.program.types → q m = .ok a →
      Spends g k values (f a) Q) : Spends g k values (query q >>= f) Q := by
  intro m cursor hm hroom
  cases h : q m with
  | error e =>
    rw [bind_of_error (query_of_error h)]
    exact ⟨⟨values, cursor, hm, Nat.le_add_right _ _⟩, (Error.isData_iff.mp (hq m e h)).2.1⟩
  | ok a =>
    rw [bind_of_ok (query_of_ok h)]
    exact hf m a hm.image hm.types h m cursor hm hroom

/-- A look at the program, of which the answer matters. -/
theorem lookup {q : Machine → Except Error α} (hq : ∀ m, RaisesData (q m))
    (hsame : ∀ m : Machine, m.image = g.program.image → m.types = g.program.types → q m = q g.program)
    (hf : ∀ a, q g.program = .ok a → Spends g k values (f a) Q) :
    Spends g k values (query q >>= f) Q :=
  .ask hq fun m a himage htypes h => hf a ((hsame m himage htypes).symm.trans h)

/-- A question at the end. -/
theorem answer {q : Machine → Except Error α} (hq : ∀ m, RaisesData (q m))
    (hR : ∀ m a, m.types = g.program.types → q m = .ok a → R a values) :
    Spends g k values (query q) R := by
  rw [← bind_pure (query q)]
  exact .ask hq fun m a _ htypes h => .pure (hR m a htypes h)

/-- What comes after an operation that may take everything that is allowed. -/
theorem bind (hx : Spends g k values x R) (hf : ∀ a values', R a values' → Spends g 0 values' (f a) Q) :
    Spends g k values (x >>= f) Q := by
  intro m cursor hm hroom
  cases h : x m with
  | error e m' =>
    rw [bind_of_error h]
    exact hx.of_error hm hroom h
  | ok a m' =>
    obtain ⟨values', cursor', hm', hcursor, ha⟩ := hx.of_ok hm hroom h
    have hrest := hf a values' ha
    have hroom' := Nat.le_trans hcursor hroom
    rw [bind_of_ok h]
    cases h' : f a m' with
    | error e m'' =>
      obtain ⟨⟨values'', cursor'', hm'', hcursor'⟩, he⟩ := hrest.of_error hm' hroom' h'
      exact ⟨⟨values'', cursor'', hm'', Nat.le_trans hcursor' hcursor⟩, he⟩
    | ok b m'' =>
      obtain ⟨values'', cursor'', hm'', hcursor', hb⟩ := hrest.of_ok hm' hroom' h'
      exact ⟨values'', cursor'', hm'', Nat.le_trans hcursor' hcursor, hb⟩

theorem ite {p : Prop} [Decidable p] {y : Exec α} (hx : Spends g k values x R)
    (hy : Spends g k values y R) : Spends g k values (if p then x else y) R := by
  split
  · exact hx
  · exact hy

/-- A check before the rest. -/
theorem guard {p : Prop} [Decidable p] {e : Error} (he : e.isData = true)
    (hx : Spends g k values x R) :
    Spends g k values (if p then (MonadExcept.throw e : Exec PUnit) >>= fun _ => x else x) R :=
  ite (aside (.throw he) fun _ => hx) hx

/-- **Scratch**, no more than allowed. -/
theorem carve {count : Nat} {f : Address → Exec β} (hcount : count ≤ k)
    (hf : ∀ a, Spends g 0 values (f a) Q) : Spends g k values (carve count >>= f) Q := by
  refine .bind (R := fun _ values' => values' = values) ?_ fun a values' h => h ▸ hf a
  intro m cursor hm hroom
  have hfits : cursor + count ≤ g.frame.stop := Nat.le_trans (by omega) g.limit_le
  obtain ⟨c, hplan, hframes⟩ := FrameStack.carve_of_fits hm.frames hfits
  obtain ⟨journal, hcarve⟩ := carve_eq hplan
  rw [hcarve]
  exact ⟨values, cursor + count, ⟨hm.image, hm.types, hframes⟩, by omega, rfl⟩

/-! ## Pushes and pops -/

theorem pop {f : Value → Exec β} (hf : ∀ v rest, values = v :: rest → Spends g k rest (f v) Q) :
    Spends g k values (pop >>= f) Q := by
  intro m cursor hm hroom
  cases values with
  | nil =>
    rw [bind_of_error (pop_of_nil hm.frames rfl)]
    exact ⟨⟨[], cursor, hm, Nat.le_add_right _ _⟩, rfl⟩
  | cons v rest =>
    rw [bind_of_ok (pop_of_cons hm.frames rfl)]
    exact hf v rest rfl _ cursor ⟨hm.image, hm.types, rfl⟩ hroom

theorem push {v : Value} {f : PUnit → Exec β} (hf : Spends g k (v :: values) (f ⟨⟩) Q) :
    Spends g k values (push v >>= f) Q := by
  intro m cursor hm hroom
  by_cases hfull : g.frame.maxDepth ≤ values.length
  · rw [bind_of_error (push_of_full hm.frames hfull)]
    exact ⟨⟨values, cursor, hm, Nat.le_add_right _ _⟩, rfl⟩
  · rw [bind_of_ok (push_of_room hm.frames (Nat.lt_of_not_le hfull))]
    exact hf _ cursor ⟨hm.image, hm.types, rfl⟩ hroom

theorem push_last {v : Value} {R : PUnit → List Value → Prop} (h : R ⟨⟩ (v :: values)) :
    Spends g k values (Exec.push v) R := by
  rw [← bind_pure (Exec.push v)]
  exact .push (.pure h)

/-- The pop of a token. -/
theorem token {op : Opcode} {f : TypeId → Exec β}
    (hf : ∀ type v rest, values = v :: rest → Spends g k rest (f type) Q) :
    Spends g k values (popToken op >>= f) Q := by
  unfold popToken
  rw [bind_assoc]
  intro m cursor hm hroom
  cases values with
  | nil =>
    rw [bind_of_error (mapError_of_error _ (pop_of_nil hm.frames rfl))]
    exact ⟨⟨[], cursor, hm, Nat.le_add_right _ _⟩, rfl⟩
  | cons v rest =>
    rw [bind_of_ok (mapError_of_ok _ (pop_of_cons hm.frames rfl))]
    refine (?_ : Spends g k rest _ Q) _ cursor ⟨hm.image, hm.types, rfl⟩ hroom
    rw [bind_assoc]
    refine .aside (.read _) fun int => ?_
    have hother : Spends g k rest ((MonadExcept.throw (.missingTypeToken op) : Exec TypeId) >>= f) Q :=
      fun m cursor hm _ => ⟨⟨rest, cursor, hm, Nat.le_add_right _ _⟩, rfl⟩
    cases v with
    | primitive type a =>
      dsimp only
      by_cases hint : type = int
      · rw [if_pos hint, bind_assoc]
        refine .aside (.query fun m => m.raisesData_readIndex _) fun index => ?_
        exact .aside (.query fun m => m.raisesData_typeOperand _) fun type => hf type _ rest rfl
      · rw [if_neg hint]
        exact hother
    | struct => exact hother
    | string => exact hother
    | reference => exact hother
    | array => exact hother
    | pointer => exact hother

end Spends

/-! ## Making values -/

variable {e : Sizing.Entry} {type : TypeId}

theorem spends_makePrimitive (h : g.Fits e (.primitive type .null)) (s : Scalar) :
    Spends g (g.sizeOf e) values (makePrimitive type s) (g.Gives e values) := by
  refine .ask (fun _ => .ok _) fun m category _ htypes hcategory => ?_
  cases hcategory
  split
  · rename_i kind hkind
    have hlength : (s.convert kind).encode.length = kind.size := by
      rw [Scalar.length_encode, Scalar.kind_convert]
    unfold Machine.descriptor at hkind
    rw [htypes] at hkind
    refine .carve (hlength ▸ h kind hkind) fun a => ?_
    exact .aside (touches_write a _) fun _ => .pure ⟨rfl, h⟩
  · exact .throw rfl

/-- A scalar that fits the entry. -/
theorem spends_makeScalar {s : Scalar} (h : s.kind.size ≤ g.sizeOf e) :
    Spends g (g.sizeOf e) values (makeScalar s) (g.Gives e values) := by
  refine .ask (fun _ => .ok _) fun m type _ htypes htype => ?_
  cases htype
  refine spends_makePrimitive ?_ s
  intro kind hkind
  rw [htypes, g.builtin] at hkind
  cases hkind
  exact h

theorem spends_makeString (text : String) : Spends g k values (makeString text) (g.Gives e values) := by
  refine .guard rfl (.aside (.read _) fun type => ?_)
  refine .aside_of_sameFrames (sameFrames_allocateObject _ type _) fun target => ?_
  refine .aside (touches_writeHeap target _) fun _ => ?_
  exact .aside (touches_writeHeap _ _) fun _ => .pure ⟨rfl, trivial⟩

theorem spends_makeArray (type : TypeId) (length : Nat) :
    Spends g k values (makeArray type length) (g.Gives (.value type) values) := by
  refine .aside (.read _) fun d => .guard rfl ?_
  refine .aside (.query fun m => Machine.raisesData_underlying d) fun element => ?_
  refine .aside (.query fun _ => .fit _) fun size => ?_
  refine .aside_of_sameFrames (sameFrames_allocateObject size type _) fun target => ?_
  exact .aside (touches_writeHeap target _) fun _ => .pure ⟨rfl, rfl⟩

theorem spends_makeDefault (type : TypeId) :
    Spends g (g.sizeOf (.value type)) values (makeDefault type) (g.Gives (.value type) values) := by
  refine .ask (fun _ => .ok _) fun m d _ htypes hd => ?_
  cases hd
  have hsize : (m.descriptor type).size ≤ g.sizeOf (.value type) := by
    unfold Machine.descriptor
    rw [htypes]
    exact Nat.le_refl _
  split
  · exact .carve hsize fun a => .pure ⟨rfl, g.fits_primitive type a⟩
  · exact .carve hsize fun a => .pure ⟨rfl, trivial⟩
  · exact .aside_of_sameFrames (sameFrames_allocateObject _ _ _) fun a => .pure ⟨rfl, trivial⟩
  · exact spends_makeString ""
  · exact spends_makeArray type 0
  · exact .aside (.query fun m => Machine.raisesData_underlying _) fun _ => .pure ⟨rfl, trivial⟩
  · exact .throw rfl

/-! ## Copying values -/

theorem spends_copyOf {a : Address} (h : (g.program.types.descriptor type).size ≤ k) :
    Spends g k values (duplicate.copyOf type a) fun _ values' => values' = values := by
  refine .ask (fun _ => .ok _) fun m size _ htypes hsize => ?_
  cases hsize
  unfold Machine.descriptor
  rw [htypes]
  exact .carve h fun copied => .aside (touches_copy a copied _) fun _ => .pure rfl

theorem spends_duplicate {v : Value} (hfits : g.Fits e v)
    (hsize : v.isAddress = false → (g.program.types.descriptor v.type).size ≤ k) :
    Spends g k values (duplicate v) (g.Gives e values) := by
  cases v with
  | primitive type a => exact .bind (spends_copyOf (hsize rfl)) fun _ _ h => .pure ⟨h, hfits⟩
  | struct type a => exact .bind (spends_copyOf (hsize rfl)) fun _ _ h => .pure ⟨h, hfits⟩
  | string => exact .pure ⟨rfl, hfits⟩
  | reference => exact .pure ⟨rfl, hfits⟩
  | array => exact .pure ⟨rfl, hfits⟩
  | pointer => exact .pure ⟨rfl, hfits⟩

/-- The value in a slot of a type fits the type, and is of the type unless it is an address. -/
theorem fits_of_materialize {m : Machine} {a : Address} {v : Value}
    (h : m.materialize type a = .ok v) :
    g.Fits (.value type) v ∧ (v.isAddress = false → v.type = type) := by
  unfold Machine.materialize at h
  dsimp only at h
  split at h
  · cases h
    exact ⟨g.fits_primitive type a, fun _ => rfl⟩
  · cases h
    exact ⟨trivial, fun _ => rfl⟩
  · obtain ⟨_, _, rfl⟩ := except_map_ok.mp h
    exact ⟨trivial, fun h => nomatch h⟩
  · obtain ⟨_, _, rfl⟩ := except_map_ok.mp h
    exact ⟨trivial, fun h => nomatch h⟩
  · obtain ⟨_, _, rfl⟩ := except_map_ok.mp h
    exact ⟨rfl, fun h => nomatch h⟩
  · obtain ⟨_, _, h⟩ := except_bind_ok.mp h
    obtain ⟨_, _, h⟩ := except_bind_ok.mp h
    cases h
    exact ⟨trivial, fun h => nomatch h⟩
  · cases h

theorem spends_load (type : TypeId) (a : Address) :
    Spends g (g.sizeOf (.value type)) values (load type a) (g.Gives (.value type) values) := by
  refine .ask (fun m => m.raisesData_materialize type a) fun m v _ _ h => ?_
  obtain ⟨hfits, htype⟩ := fits_of_materialize h
  refine spends_duplicate hfits fun hinline => ?_
  rw [htype hinline]
  exact Nat.le_refl _

/-- A conversion takes what the type takes; a text takes no scratch. -/
theorem spends_convert (v : Value) (type : TypeId) :
    Spends g (g.sizeOf (.value type)) values (convert v type) (g.Gives (.value type) values) := by
  refine .ask (fun _ => .ok _) fun m d _ htypes hd => ?_
  cases hd
  split
  · exact .aside (.query fun m => m.raisesData_readScalar _) fun s => spends_makeString s.text
  · exact .pure ⟨rfl, trivial⟩
  · refine .aside (.query fun m => m.raisesData_valueBytes _) fun bytes => ?_
    refine .carve ?_ fun a => ?_
    · unfold Machine.descriptor
      rw [htypes]
      exact Nat.le_refl _
    · have hrest : Spends g 0 values (query fun m => m.materialize type a) (g.Gives (.value type) values) :=
        .answer (fun m => m.raisesData_materialize type a) fun m v _ h => ⟨rfl, (fits_of_materialize h).1⟩
      exact .ite (.aside (touches_write a _) fun _ => hrest) hrest

/-! ## Constants -/

theorem length_of_constantBytes? {image : Image} {c : Constant} {kind : Kind} {bytes : List UInt8}
    (hkind : c.kind = .primitive kind) (h : image.constantBytes? c = some bytes) :
    bytes.length = kind.size := by
  unfold Image.constantBytes? at h
  rw [hkind] at h
  dsimp only at h
  split at h
  · cases h
    rw [Array.length_toList, Array.size_extract]
    omega
  · cases h

theorem spends_makeConstant {index : Int32} (h : g.program.constantType index = .ok type) :
    Spends g (g.sizeOf (.value type)) values (makeConstant index) (g.Gives (.value type) values) := by
  obtain ⟨c, hc, h⟩ := except_bind_ok.mp h
  refine .lookup (fun m => m.raisesData_constantAt index) ?_ fun c' hc' => ?_
  · intro m himage _
    unfold Machine.constantAt
    rw [himage]
  · cases hc.symm.trans hc'
    refine .aside (.read _) fun image => ?_
    split
    · rename_i kind hkind
      rw [hkind] at h
      cases h
      split
      · exact .throw rfl
      · rename_i bytes hbytes
        have hsize : bytes.length = g.sizeOf (.value (g.program.types.builtins.primitive kind)) :=
          (length_of_constantBytes? hkind hbytes).trans (g.size_eq (g.builtin kind)).symm
        refine .ask (fun _ => .ok _) fun m type _ htypes htype => ?_
        cases htype
        rw [htypes]
        refine .carve (Nat.le_of_eq hsize) fun a => ?_
        exact .aside (touches_write a _) fun _ => .pure ⟨rfl, g.fits_primitive _ a⟩
    · split
      · exact .throw rfl
      · exact spends_makeString _

/-! ## What the program says -/

/-- A type that an operand names is the one that the walk finds. The walk would find one for a negative
operand, too. -/
theorem typeOf_of_typeOperand {m : Machine} {operand : Int32} (h : m.typeOperand operand = .ok type) :
    Sizing.typeOf m operand = .ok type := by
  unfold Machine.typeOperand at h
  split at h
  · cases h
  · rename_i hneg
    have hnonneg : 0 ≤ operand.toInt := by
      have hzero : (0 : Int32).toInt = 0 := rfl
      have hnot := mt Int32.lt_iff_toInt_lt.mpr hneg
      omega
    have hint : operand.toInt = operand.toBitVec.toInt := rfl
    have hnat : operand.toUInt32.toNat = operand.toBitVec.toNat := rfl
    have hsame : operand.toUInt32.toNat = operand.toInt.toNat := by
      have hlt := operand.toBitVec.isLt
      rw [BitVec.toInt_eq_toNat_cond] at hint
      split at hint <;> omega
    unfold Sizing.typeOf
    rw [hsame]
    exact h

namespace Spends

variable {Q : β → List Value → Prop}

theorem typeOperand {operand : Int32} {f : TypeId → Exec β}
    (h : Sizing.typeOf g.program operand = .ok type) (hf : Spends g k values (f type) Q) :
    Spends g k values (query (·.typeOperand operand) >>= f) Q := by
  refine .lookup (fun m => m.raisesData_typeOperand operand) ?_ fun type' h' => ?_
  · intro m _ htypes
    unfold Machine.typeOperand
    rw [Machine.declaredType_congr htypes]
  · cases h.symm.trans (typeOf_of_typeOperand h')
    exact hf

theorem field {member : Int32} {isStatic : Bool} {f : TypeId × FieldLayout → Exec β}
    (h : Sizing.fieldType g.program member isStatic = .ok type)
    (hf : ∀ owner field, field.type = type → Spends g k values (f (owner, field)) Q) :
    Spends g k values (query (·.fieldAt member isStatic) >>= f) Q := by
  refine .lookup (fun m => m.raisesData_fieldAt member isStatic) ?_ fun ⟨owner, field⟩ h' => ?_
  · intro m himage htypes
    unfold Machine.fieldAt Machine.memberAt
    rw [himage, htypes, Machine.declaredType_congr htypes]
  · obtain ⟨found, hfound, h⟩ := except_bind_ok.mp h
    cases h
    cases hfound.symm.trans h'
    exact hf owner field rfl

/-- A slot is the one that the frame was pushed with. -/
theorem slot {choose : Frame → Except Error Binding} {f : Binding → Exec β} (hdata : ∀ f, RaisesData (choose f))
    (hchoose : ∀ values cursor, choose { g.frame with values, cursor } = choose g.frame)
    (hf : ∀ b, choose g.frame = .ok b → Spends g k values (f b) Q) :
    Spends g k values (query (·.slot choose) >>= f) Q := by
  intro m cursor hm hroom
  have hslot : m.slot choose = choose g.frame := by
    unfold Machine.slot
    rw [current_of_frames hm.frames]
    exact hchoose values cursor
  cases h : choose g.frame with
  | error e =>
    rw [bind_of_error (query_of_error (hslot.trans h))]
    exact ⟨⟨values, cursor, hm, Nat.le_add_right _ _⟩, (Error.isData_iff.mp (hdata _ e h)).2.1⟩
  | ok b =>
    rw [bind_of_ok (query_of_ok (hslot.trans h))]
    exact hf b h m cursor hm hroom

end Spends

end Exec

end ManagedVm
