import ManagedVm.Proofs.Machine.Depth
import ManagedVm.Proofs.Machine.Nesting
import ManagedVm.Proofs.Machine.References
import ManagedVm.Proofs.Types.Builtins

/-!
# Frames are balanced on every path

An invocation from a machine with a frame, whatever it comes to, leaves the frames below that frame
alone and in the frame itself hands out scratch at most. Nothing is held afterwards that was not held
before. A result that lies inline lies in scratch that was handed out meanwhile, so that it shares no
byte with what the caller had before (`Run.balanced_invoke`).

The number of frames is bounded not only in the end but at every point of the run (`Run.Passes`), also
of a run that never ends: a request is accepted only while there is room for one more frame.
-/

namespace ManagedVm

open ManagedVm.Frame (Onward Steady Replaced)

/-! ## Results -/

namespace Machine

variable {m m' m'' : Machine} {v : Value}

/-- **A value lies in scratch that was handed out in between**, by the frame that is innermost
before and after. -/
def CarvedSince (m m' : Machine) (v : Value) : Prop :=
  ∃ f f' rest start, m.stack.frames = f :: rest ∧ m'.stack.frames = f' :: rest ∧
    v.location = .stack start ∧ f.cursor ≤ start ∧ start + m.valueSize v ≤ f'.cursor

theorem valueSize_congr (h : m'.types = m.types) (v : Value) : m'.valueSize v = m.valueSize v := by
  unfold valueSize descriptor
  rw [h]

theorem Typed.moved {R : Frame → Frame → Prop} (h : m.Typed) (hm : m.Moved R m') : m'.Typed := by
  unfold Typed
  rw [hm.image, hm.types]
  exact h

theorem CarvedSince.of_moved (hm : m.Moved Steady m') (h : m'.CarvedSince m'' v) :
    m.CarvedSince m'' v := by
  obtain ⟨f', f'', rest, start, hframes', hframes'', hlocation, hstart, hstop⟩ := h
  have hframes := hm.frames
  rw [hframes'] at hframes
  generalize hm₀ : m.stack.frames = fs at hframes
  cases hframes with
  | innermost hf =>
    refine ⟨_, f'', rest, start, hm₀, hframes'', hlocation, hf.cursor_le.trans hstart, ?_⟩
    rw [← valueSize_congr hm.types]
    exact hstop

theorem CarvedSince.moved (h : m.CarvedSince m' v) (hm : m'.Moved Steady m'') :
    m.CarvedSince m'' v := by
  obtain ⟨f, f', rest, start, hframes, hframes', hlocation, hstart, hstop⟩ := h
  obtain ⟨f'', hframes'', hf⟩ := (hframes' ▸ hm.frames : Replaced Steady (f' :: rest) _).of_cons
  exact ⟨f, f'', rest, start, hframes, hframes'', hlocation, hstart, hstop.trans hf.cursor_le⟩

/-- As many bytes are read as were asked for. -/
theorem length_of_read {a : Address} {length : Nat} {bytes : List UInt8}
    (h : m.read a length = .ok bytes) : bytes.length = length := by
  unfold read at h
  split at h
  · cases h
  · split at h
    · have hbytes := except_mapError_ok.mp h
      unfold Heap.bytes at hbytes
      split at hbytes
      · cases hbytes
        exact Arena.length_read _ _ _
      · cases hbytes
    · unfold FrameStack.bytes at h
      split at h
      · cases h
        exact Arena.length_read _ _ _
      · cases h

end Machine

namespace Exec

variable {m m' : Machine} {v : Value}

theorem carvedSince_carve {count : Nat} {a : Address} (h : carve count m = .ok a m')
    (hlocation : v.location = a) (hsize : m.valueSize v = count) : m.CarvedSince m' v := by
  obtain ⟨f, f', rest, hframes, hframes', rfl, hcursor⟩ := carve_eq_ok h
  refine ⟨f, f', rest, f.cursor, hframes, hframes', hlocation, Nat.le_refl _, ?_⟩
  rw [hsize, hcursor]

/-- A new primitive takes as many bytes as a slot of its type. -/
theorem carvedSince_makePrimitive (htyped : m.Typed) {type : TypeId} {s : Scalar}
    (h : makePrimitive type s m = .ok v m') : m.CarvedSince m' v := by
  obtain ⟨category, m₁, hquery, h⟩ := bind_eq_ok.mp h
  obtain ⟨hfound, rfl⟩ := query_eq_ok.mp hquery
  have hcategory : (m.descriptor type).category = category := Except.ok.inj hfound
  cases category with
  | primitive kind =>
    obtain ⟨a, m₂, hcarve, h⟩ := bind_eq_ok.mp h
    obtain ⟨_, m₃, hwrite, h⟩ := bind_eq_ok.mp h
    cases h
    have hsize : (m.descriptor type).size = kind.size := by
      refine TypeTable.size_of_ofImage htyped ?_
      show (m.descriptor type).category.slotSize? = some kind.size
      rw [hcategory]
      rfl
    have hcarved : m.CarvedSince m₂ (.primitive type a) := by
      refine carvedSince_carve hcarve rfl ?_
      rw [Scalar.length_encode, Scalar.kind_convert]
      exact hsize
    exact hcarved.moved ((touches_write a _).steady.of_ok hwrite)
  | _ => cases h

theorem carvedSince_makeScalar (htyped : m.Typed) {s : Scalar} (h : makeScalar s m = .ok v m') :
    m.CarvedSince m' v := by
  obtain ⟨type, m₁, htype, h⟩ := bind_eq_ok.mp h
  obtain ⟨-, rfl⟩ := query_eq_ok.mp htype
  exact carvedSince_makePrimitive htyped h

/-- What a string is made of is on the heap. -/
theorem isAddress_makeString {text : String} (h : makeString text m = .ok v m') :
    v.isAddress = true := by
  unfold makeString at h
  dsimp only at h
  split at h
  · cases h
  · obtain ⟨type, _, _, h⟩ := bind_eq_ok.mp h
    obtain ⟨target, _, _, h⟩ := bind_eq_ok.mp h
    obtain ⟨_, _, _, h⟩ := bind_eq_ok.mp h
    obtain ⟨_, _, _, h⟩ := bind_eq_ok.mp h
    cases h
    rfl

/-- The natives that every machine starts with. -/
theorem body_of_standard {owner name : String} {n : Native}
    (h : Natives.standard.find? owner name = some n) : n.body ∈ [.print, .length, .concat] := by
  have hall : ∀ e ∈ Natives.standard.entries, e.2.body ∈ [NativeBody.print, .length, .concat] := by
    decide +kernel
  obtain ⟨e, he, rfl⟩ := Option.map_eq_some_iff.mp h
  exact hall e (List.mem_of_find?_eq_some he)

theorem carvedSince_runNative [Host] (htyped : m.Typed) {body : NativeBody}
    (hbody : body ∈ [NativeBody.print, .length, .concat]) {receiver : Option Value}
    {arguments : List Value} (h : runNative body receiver arguments m = .ok (some v) m')
    (hinline : v.isAddress = false) : m.CarvedSince m' v := by
  unfold runNative at h
  split at h
  case h_1 =>
    obtain ⟨_, _, _, h⟩ := bind_eq_ok.mp h
    obtain ⟨_, _, _, h⟩ := bind_eq_ok.mp h
    obtain ⟨_, _, _, h⟩ := bind_eq_ok.mp h
    cases h
  case h_3 text =>
    obtain ⟨count, m₁, htext, h⟩ := bind_eq_ok.mp h
    have hm₁ := (touches_stringArgument (r := .objects) _ text).steady.of_ok htext
    dsimp only at h
    split at h
    · cases h
    · obtain ⟨v', m₂, hmake, h⟩ := bind_eq_ok.mp h
      cases h
      exact (carvedSince_makeScalar (htyped.moved hm₁) hmake).of_moved hm₁
  case h_5 =>
    obtain ⟨_, _, _, h⟩ := bind_eq_ok.mp h
    obtain ⟨_, _, _, h⟩ := bind_eq_ok.mp h
    obtain ⟨v', m₂, hmake, h⟩ := bind_eq_ok.mp h
    cases h
    rw [isAddress_makeString hmake] at hinline
    cases hinline
  case h_7 => simp at hbody
  all_goals cases h

theorem carvedSince_invokeNative [Host] (htyped : m.Typed) (hnatives : m.natives = .standard)
    {method : Method} {name : String} {r : Request}
    (h : invokeNative method name r m = .ok (some v) m') (hinline : v.isAddress = false) :
    m.CarvedSince m' v := by
  obtain ⟨owner, m₁, howner, h⟩ := bind_eq_ok.mp h
  obtain ⟨-, rfl⟩ := query_eq_ok.mp howner
  obtain ⟨found, m₂, hfind, h⟩ := bind_eq_ok.mp h
  obtain ⟨hfound, rfl⟩ := query_eq_ok.mp hfind
  have hfound : Natives.standard.find? owner method.name = found := by
    rw [← hnatives]
    exact Except.ok.inj hfound
  cases found with
  | none => cases h
  | some n =>
    dsimp only at h
    split at h
    · cases h
    · obtain ⟨result, m₃, hrun, h⟩ := bind_eq_ok.mp h
      obtain ⟨returns, m₄, hquery, h⟩ := bind_eq_ok.mp h
      obtain ⟨-, rfl⟩ := query_eq_ok.mp hquery
      cases returns <;> cases result <;> cases h
      exact carvedSince_runNative htyped (body_of_standard hfound) hrun hinline

/-- The bytes that are saved of an inline result are those of a slot for it. -/
theorem length_of_capture {result : Option Value} {bytes : List UInt8}
    (h : capture result m = .ok (some (v, bytes)) m') (hinline : v.isAddress = false) :
    bytes.length = m.valueSize v := by
  unfold capture at h
  split at h
  · cases h
  · rename_i v'
    by_cases haddress : v'.isAddress = true
    · rw [if_pos haddress] at h
      cases h
      rw [haddress] at hinline
      cases hinline
    · rw [if_neg haddress] at h
      obtain ⟨bytes', m₁, hquery, h⟩ := bind_eq_ok.mp h
      obtain ⟨hbytes, rfl⟩ := query_eq_ok.mp hquery
      cases h
      unfold Machine.valueBytes at hbytes
      rw [if_neg haddress] at hbytes
      exact Machine.length_of_read hbytes

theorem carvedSince_rehome {v' : Value} {bytes : List UInt8}
    (hlength : v.isAddress = false → bytes.length = m.valueSize v)
    (h : rehome v bytes m = .ok v' m') (hinline : v'.isAddress = false) : m.CarvedSince m' v' := by
  have hstored : ∀ {a m₁}, rehome.stored bytes m = .ok a m₁ → v'.location = a →
      bytes.length = m.valueSize v' → m.CarvedSince m₁ v' := by
    intro a m₁ hstored hlocation hsize
    obtain ⟨a', m₂, hcarve, hstored⟩ := bind_eq_ok.mp hstored
    obtain ⟨_, m₃, hwrite, hstored⟩ := bind_eq_ok.mp hstored
    cases hstored
    exact (carvedSince_carve hcarve hlocation hsize.symm).moved ((touches_write _ _).steady.of_ok hwrite)
  cases v
  case primitive type a =>
    obtain ⟨a', m₁, hstore, h⟩ := bind_eq_ok.mp h
    cases h
    exact hstored hstore rfl (hlength rfl)
  case struct type a =>
    obtain ⟨a', m₁, hstore, h⟩ := bind_eq_ok.mp h
    cases h
    exact hstored hstore rfl (hlength rfl)
  all_goals
    cases h
    cases hinline

/-- **The result of a body lies in new scratch of the caller's frame.** -/
theorem carvedSince_leaveFrame (hframes : m.stack.frames ≠ [])
    {captured : Option (Value × List UInt8)}
    (hlength : ∀ v bytes, captured = some (v, bytes) → v.isAddress = false →
      bytes.length = m.valueSize v)
    (h : leaveFrame (.ok captured) m = .ok (some v) m') (hinline : v.isAddress = false) :
    m.popped.CarvedSince m' v := by
  obtain ⟨m₁, hm₁, hleave⟩ := leaveFrame_popped hframes
  rw [hleave] at h
  obtain ⟨captured', m₂, hcaptured, h⟩ := bind_eq_ok.mp h
  obtain ⟨hcaptured, rfl⟩ := query_eq_ok.mp hcaptured
  cases hcaptured
  obtain ⟨references, m₃, hreferences, h⟩ := bind_eq_ok.mp h
  obtain ⟨-, rfl⟩ := query_eq_ok.mp hreferences
  cases captured with
  | none =>
    obtain ⟨_, _, _, h⟩ := bind_eq_ok.mp h
    cases h
  | some result =>
    obtain ⟨w, bytes⟩ := result
    obtain ⟨w', m₂, hrehome, h⟩ := bind_eq_ok.mp h
    obtain ⟨_, m₃, hpin, h⟩ := bind_eq_ok.mp h
    obtain ⟨_, m₄, hheld, h⟩ := bind_eq_ok.mp h
    cases h
    have hpinned := (moves_pinned (touches_release (r := .objects) references).steady v).of_ok
      (bind_eq_ok.mpr ⟨_, _, hpin, hheld⟩)
    have hsize : w.isAddress = false → bytes.length = m₁.valueSize w := by
      intro hw
      rw [Machine.valueSize_congr hm₁.types]
      exact hlength w bytes rfl hw
    exact ((carvedSince_rehome hsize hrehome hinline).moved hpinned).of_moved hm₁

end Exec

namespace Run

variable {m m' : Machine} {v : Value} {r : Request} {steps : Nat} {nested : Invoke}

theorem length_of_execute {method : Method} {name : String} {arguments : List Value}
    {bytes : List UInt8}
    (h : execute nested steps method name arguments m = some (.ok (some (v, bytes)) m'))
    (hinline : v.isAddress = false) : bytes.length = m'.valueSize v := by
  rcases execute_cases h with ⟨e, m₁, -, hres⟩ | ⟨m₁, -, ⟨e, m₂, -, hres⟩ | ⟨m₂, -, hres⟩⟩
  · cases hres
  · cases hres
  · obtain ⟨result, m₃, -, hcapture⟩ := Exec.bind_eq_ok.mp hres.symm
    have hm' := (Exec.touches_capture (r := .objects) result).steady.of_ok hcapture
    rw [Machine.valueSize_congr hm'.types]
    exact Exec.length_of_capture hcapture hinline

/-- **An inline result lies in scratch that was handed out meanwhile.** -/
theorem carvedSince_invokeOne [Host] (hnested : KeepsFrames nested) (htyped : m.Typed)
    (hnatives : m.natives = .standard) (h : invokeOne nested steps r m = some (.ok (some v) m'))
    (hinline : v.isAddress = false) : m.CarvedSince m' v := by
  rcases invokeOne_cases h with ⟨e, m₁, -, hres⟩ | ⟨method, name, m₁, haccept, hcases⟩
  · cases hres
  have hm₁ := (Exec.touches_accept (r := .objects) r).steady.of_ok haccept
  rcases hcases with ⟨-, hres⟩ | ⟨e, m₂, -, hres⟩ | ⟨m₂, m₃, henter, hcases⟩
  · exact (Exec.carvedSince_invokeNative (htyped.moved hm₁) (hm₁.natives.trans hnatives) hres.symm
      hinline).of_moved hm₁
  · cases hres
  obtain ⟨hframes, hm₂⟩ := Exec.enterFrame_eq_popped henter
  rcases hcases with ⟨captured, hexecute, hres⟩ | ⟨e, hexecute, hres⟩
  · have hm₃ : m₂.Moved Onward m₃ := moved_execute hnested hexecute
    have hframes₃ := hm₃.frames_ne_nil hframes
    have hcarved := Exec.carvedSince_leaveFrame hframes₃
      (fun w bytes hcaptured hw => length_of_execute (hcaptured ▸ hexecute) hw) hres.symm hinline
    exact hcarved.of_moved (hm₁.trans (hm₂.trans hm₃.popped))
  · have hleave := Exec.leaveFrame_eq_ok hres.symm
    obtain ⟨⟨captured, herror, -⟩, -⟩ := hleave
    cases herror

end Run

/-! ## The points of a run -/

namespace Execution

variable (x : Execution)

/-- The body begins one frame above the caller. -/
theorem moved_start : x.start.stack.frames ≠ [] ∧ x.caller.Moved Steady x.start.popped := by
  obtain ⟨m₁, m₂, haccept, henter, hbind⟩ := x.entered_eq_ok
  have hm₁ := (Exec.touches_accept (r := .objects) x.request).steady.of_ok haccept
  obtain ⟨hframes, hm₂⟩ := Exec.enterFrame_eq_popped henter
  have hstart := (Exec.touches_bindArguments 0 x.request.arguments).onward.of_ok hbind
  exact ⟨hstart.frames_ne_nil hframes, hm₁.trans (hm₂.trans hstart.popped)⟩

/-- There was room for the frame. -/
theorem room : x.caller.stack.depth ≤ x.caller.settings.maxCallDepth := by
  obtain ⟨m₁, m₂, haccept, -, -⟩ := x.entered_eq_ok
  exact Exec.room_of_accept haccept

variable {x} {index : Nat} {m : Machine}

theorem Visits.moved [Host] [Host.Orderly] (h : x.Visits index m) : x.start.Moved Onward m :=
  Run.Visits.moved (Run.keepsFrames_invokeNested x.steps x.nesting) h

theorem depth_of_moved (h : x.start.Moved Onward m) :
    m.stack.depth = x.caller.stack.depth + 1 ∧ m.settings = x.caller.settings := by
  obtain ⟨hframes, hstart⟩ := x.moved_start
  exact ⟨h.depth_eq.trans (Exec.depth_of_popped hframes hstart),
    h.settings.trans hstart.settings⟩

end Execution

/-- **A point of an execution in its own frame**: at a place, in the middle of an instruction or
after it, and when the body has ended or its result is taken. -/
inductive Execution.Reaches [Host] (x : Execution) : Machine → Prop
  | visited {index : Nat} {m : Machine} : x.Visits index m → x.Reaches m
  | begun {index : Nat} {i : Instruction} {m : Machine} : x.Visits index m →
      x.method.body[index]? = some i →
        x.Reaches ((Exec.step x.method.body.size i).final (m.noting (.executing x.name index i)))
  | stepped {index : Nat} {i : Instruction} {m : Machine}
      {r : EStateM.Result Error Machine Flow} : x.Visits index m → x.method.body[index]? = some i →
        Run.stepAt x.invoke x.name x.method.body index i m = some r → x.Reaches (Exec.outcome r)
  | ended {r : EStateM.Result Error Machine Unit} : x.run = some r → x.Reaches (Exec.outcome r)
  | taken {m : Machine} : x.run = some (.ok () m) →
      x.Reaches ((Exec.takeResult x.method >>= Exec.capture).final m)

/-- **At every point of an execution** its frame is the innermost one. An instruction that waits
holds more than the body started with, and nothing else is in flight. -/
theorem Execution.Reaches.moved [Host] [Host.Orderly] {x : Execution} {m : Machine} (h : x.Reaches m) :
    x.start.Moved Onward { m with inFlight := x.start.inFlight } := by
  have hnested : Run.KeepsFrames x.invoke := Run.keepsFrames_invokeNested x.steps x.nesting
  have hrun : ∀ {r}, x.run = some r → x.start.Moved Onward (Exec.outcome r) :=
    fun hrun => Run.moved_body hnested hrun
  cases h with
  | visited hvisits => exact hvisits.moved.withInFlight
  | @begun index i m hvisits hi =>
    have hnoted : x.start.Moved Onward (m.noting (.executing x.name index i)) :=
      hvisits.moved.trans (Exec.touches_record (r := .objects) _ m).final.moved
    have hwaits := (Exec.waits_step x.method.body.size i).moved (m.noting (.executing x.name index i))
    rw [hnoted.inFlight] at hwaits
    exact hnoted.trans hwaits
  | stepped hvisits hi hstep => exact (hvisits.moved.trans (Run.moved_stepAt hnested hstep)).withInFlight
  | ended hended => exact (hrun hended).withInFlight
  | taken hended =>
    have htaken : Exec.Touches .values (Exec.takeResult x.method >>= Exec.capture) :=
      (Exec.touches_takeResult x.method).bind Exec.touches_capture
    exact ((hrun hended).trans (htaken _).final.moved).withInFlight

theorem Execution.Reaches.depth_eq [Host] [Host.Orderly] {x : Execution} {m : Machine} (h : x.Reaches m) :
    m.stack.depth = x.caller.stack.depth + 1 :=
  (depth_of_moved h.moved).1

namespace Run

/-- **The points of an invocation**: before its frame is there, in its frame, in an invocation that
its body asks for, and at its end. A run has points whether it ends or not. -/
inductive Passes [Host] : (steps nesting : Nat) → Request → Machine → Machine → Prop
  | start {steps nesting : Nat} {r : Request} {m : Machine} : Passes steps nesting r m m
  | accepted {steps nesting : Nat} {r : Request} {m : Machine} :
      Passes steps nesting r m ((Exec.accept r).final m)
  | native {steps nesting : Nat} {r : Request} {method : Method} {name : String} {m m₁ : Machine} :
      Exec.accept r m = .ok (method, name) m₁ →
        Passes steps nesting r m ((Exec.invokeNative method name r).final m₁)
  | entered {steps nesting : Nat} {r : Request} {method : Method} {name : String} {m m₁ : Machine} :
      Exec.accept r m = .ok (method, name) m₁ →
        Passes steps nesting r m ((Exec.enterFrame method name r).final m₁)
  | bound {steps nesting : Nat} {r : Request} {method : Method} {name : String} {m m₁ m₂ : Machine} :
      Exec.accept r m = .ok (method, name) m₁ → Exec.enterFrame method name r m₁ = .ok ⟨⟩ m₂ →
        Passes steps nesting r m ((Exec.bindArguments 0 r.arguments).final m₂)
  | inside {x : Execution} {m : Machine} : x.Reaches m →
      Passes x.steps (x.nesting + 1) x.request x.caller m
  | nested {x : Execution} {index : Nat} {i : Instruction} {request : Request} {p : Pending}
      {m m₁ m₂ : Machine} : x.Visits index m → x.method.body[index]? = some i →
        Exec.step x.method.body.size i (m.noting (.executing x.name index i)) =
          .ok (.invoke request p) m₁ →
        Passes x.steps x.nesting request m₁ m₂ →
        Passes x.steps (x.nesting + 1) x.request x.caller m₂
  | ended {steps nesting : Nat} {r : Request} {m : Machine}
      {res : EStateM.Result Error Machine (Option Value)} :
      invokeNested steps nesting r m = some res → Passes steps nesting r m (Exec.outcome res)

/-- **At no point are there more frames than the limit on the call depth allows.** -/
theorem Passes.depth_le [Host] [Host.Orderly] {steps nesting : Nat} {r : Request} {m m' : Machine}
    (h : Passes steps nesting r m m') (hm : m.stack.depth ≤ m.settings.maxCallDepth + 1) :
    m'.stack.depth ≤ m.settings.maxCallDepth + 1 := by
  induction h with
  | start => exact hm
  | @accepted _ _ r m =>
    rw [(Exec.touches_accept (r := .objects) r m).final.moved.depth_eq]
    exact hm
  | @native _ _ r method name m m₁ haccept =>
    have hm₁ := (Exec.touches_accept (r := .objects) r).steady.of_ok haccept
    rw [(Exec.touches_invokeNative method name r m₁).final.moved.depth_eq, hm₁.depth_eq]
    exact hm
  | @entered _ _ r method name m m₁ haccept =>
    have hm₁ := (Exec.touches_accept (r := .objects) r).steady.of_ok haccept
    have hroom := Exec.room_of_accept haccept
    unfold Exec.final
    rcases Exec.enterFrame_cases method name r m₁ with
      ⟨e, m₂, henter, hm₂⟩ | ⟨m₂, henter, hframes, hm₂⟩
    · rw [henter]
      show m₂.stack.depth ≤ _
      rw [hm₂.depth_eq, hm₁.depth_eq]
      exact hm
    · rw [henter]
      show m₂.stack.depth ≤ _
      rw [Exec.depth_of_popped hframes hm₂, hm₁.depth_eq]
      exact Nat.succ_le_succ hroom
  | @bound _ _ r method name m m₁ m₂ haccept henter =>
    have hm₁ := (Exec.touches_accept (r := .objects) r).steady.of_ok haccept
    have hroom := Exec.room_of_accept haccept
    obtain ⟨hframes, hm₂⟩ := Exec.enterFrame_eq_popped henter
    rw [(Exec.touches_bindArguments 0 r.arguments m₂).final.moved.depth_eq,
      Exec.depth_of_popped hframes hm₂, hm₁.depth_eq]
    exact Nat.succ_le_succ hroom
  | @inside x m hreaches =>
    rw [hreaches.depth_eq]
    exact Nat.succ_le_succ x.room
  | @nested x index i request p m m₁ m₂ hvisits hi hstep _ ih =>
    have hwaits := Exec.waits_step x.method.body.size i (m.noting (.executing x.name index i))
    rw [hstep] at hwaits
    obtain ⟨hdepth, hsettings⟩ := Execution.depth_of_moved hvisits.moved
    have hdepth₁ : m₁.stack.depth = x.caller.stack.depth + 1 := hwaits.2.depth_eq.trans hdepth
    have hsettings₁ : m₁.settings = x.caller.settings := hwaits.2.settings.trans hsettings
    rw [hdepth₁, hsettings₁] at ih
    exact ih (Nat.succ_le_succ x.room)
  | @ended steps nesting r m res hrun =>
    rw [(keepsFrames_invokeNested steps nesting hrun).depth_eq]
    exact hm

/-! ## Every invocation -/

/-- **An invocation is balanced**, whatever it comes to: of the frames only the innermost one has
changed, by no more than the scratch it has handed out; what is held is what was held before; and an
inline result lies in scratch that the frame has handed out meanwhile. -/
structure Balanced (m : Machine) (f : Frame) (rest : List Frame)
    (res : EStateM.Result Error Machine (Option Value)) : Prop where
  frames : ∃ f', (Exec.outcome res).stack.frames = f' :: rest ∧ f.Steady f'
  inFlight : (Exec.outcome res).inFlight = m.inFlight
  result : ∀ {v m' f'}, res = .ok (some v) m' → m'.stack.frames = f' :: rest →
    v.isAddress = false → ∃ start, v.location = .stack start ∧ f.cursor ≤ start ∧
      start + m.valueSize v ≤ f'.cursor

/-- **Every invocation is balanced**, and one from the host's frame never has more frames above it
than the limit on the call depth. -/
theorem balanced_invoke [Host] [Host.Orderly] {m : Machine} {f : Frame} {rest : List Frame}
    (hframes : m.stack.frames = f :: rest) (htyped : m.Typed) (hnatives : m.natives = .standard)
    (steps : Nat) (r : Request) :
    (∀ res, invoke steps r m = some res → Balanced m f rest res) ∧
      (rest = [] → ∀ m', Passes steps (m.settings.maxCallDepth + 2) r m m' →
        m'.stack.frames.length ≤ 1 + m.settings.maxCallDepth) := by
  constructor
  · intro res hres
    have hmoved : m.Moved Steady (Exec.outcome res) := keepsFrames_invokeNested steps _ hres
    have hreplaced := hmoved.frames
    rw [hframes] at hreplaced
    refine ⟨hreplaced.of_cons, hmoved.inFlight, ?_⟩
    rintro v m' f' rfl hframes' hinline
    obtain ⟨g, g', rest', start, hg, hg', hlocation, hstart, hstop⟩ :=
      carvedSince_invokeOne (keepsFrames_invokeNested steps _) htyped hnatives hres hinline
    obtain ⟨rfl, rfl⟩ := List.cons.inj (hframes.symm.trans hg)
    obtain ⟨rfl, -⟩ := List.cons.inj (hframes'.symm.trans hg')
    exact ⟨start, hlocation, hstart, hstop⟩
  · rintro rfl m' hpasses
    have hone : m.stack.depth ≤ m.settings.maxCallDepth + 1 := by
      unfold FrameStack.depth
      rw [hframes]
      exact Nat.succ_le_succ (Nat.zero_le _)
    rw [Nat.add_comm]
    exact hpasses.depth_le hone

/-- The machine for two methods, one of which invokes the other, with no room for a third frame. -/
def shallow : Machine := { Execution.choices with settings := { maxCallDepth := 2 } }

open scoped Host in
def shallowPolls : Execution :=
  { Execution.polls with
    caller := shallow
    start := (Exec.enterBody Execution.polls.request).final shallow
    nesting := 3
    entered := Exec.eq_ok_of_value? (by decide +kernel) }

open scoped Host in
/-- The inner method runs at the limit on the call depth, in the third frame, and the result of the
outer one is the first thing that the host's frame has handed out. -/
theorem balanced_invoke_shallow : ∃ f m', shallow.stack.frames = [f] ∧ shallow.Typed ∧
    shallow.natives = .standard ∧
    invoke 6 { method := 1 } shallow = some (.ok (some (.primitive ⟨1⟩ (.stack 0))) m') ∧
    Balanced shallow f [] (.ok (some (.primitive ⟨1⟩ (.stack 0))) m') ∧
    (∃ m'', Passes 6 4 { method := 1 } shallow m'' ∧ m''.stack.frames.length = 3) ∧
    ∀ m'', Passes 6 4 { method := 1 } shallow m'' → m''.stack.frames.length ≤ 3 := by
  have htyped : shallow.Typed := by
    unfold Machine.Typed
    decide +kernel
  obtain ⟨hbalanced, hdepth⟩ := balanced_invoke (m := shallow) rfl htyped rfl 6 { method := 1 }
  obtain ⟨m', hrun⟩ := Run.eq_ok_of_value? (x := invoke 6 { method := 1 }) (m := shallow)
    (a := some (.primitive ⟨1⟩ (.stack 0))) (by decide +kernel)
  refine ⟨_, m', rfl, htyped, rfl, hrun, hbalanced _ hrun, ?_, hdepth rfl⟩
  have hcall := Exec.eq_ok_of_value? (x := Exec.step Execution.poll.body.size ⟨.call, 0⟩)
    (m := shallowPolls.start.noting (.executing "Choice::poll" 0 ⟨.call, 0⟩))
    (a := .invoke { method := 0 } (.call none [])) (by decide +kernel)
  have haccept := Exec.eq_ok_of_value? (x := Exec.accept { method := 0 })
    (m := (Exec.step Execution.poll.body.size ⟨.call, 0⟩).final
      (shallowPolls.start.noting (.executing "Choice::poll" 0 ⟨.call, 0⟩)))
    (a := (Execution.pick, "Choice::pick")) (by decide +kernel)
  exact ⟨_, .nested (x := shallowPolls) .start rfl hcall (.entered haccept), by decide +kernel⟩

end Run

end ManagedVm
