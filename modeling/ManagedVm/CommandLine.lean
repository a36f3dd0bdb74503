import ManagedVm.Demo
import ManagedVm.Instruction.Codec
import ManagedVm.Machine.Host

/-!
# The command line

Runs a demo, lists the demos, or shows the methods of a demo with the sizes of their evaluation
stacks. What the program writes is computed here as text; `Main` only prints it.
-/

namespace ManagedVm.CommandLine

/-- What the arguments ask for. -/
structure Options where
  /-- The demo to run. -/
  demo : String := "print"
  /-- List the demos instead. -/
  list : Bool := false
  /-- Show the demo's methods instead of running it. -/
  dump : Bool := false
  /-- Bytes of the heap's arena at the start. -/
  heapSize : Option UInt64 := none
  /-- How often more log lines were asked for. -/
  verbosity : Nat := 0
  deriving DecidableEq, Inhabited

/-- A size: decimal digits, which a plus sign may precede. It must be a word. -/
def size? (s : String) : Option UInt64 :=
  let digits := match s.toList with
    | '+' :: rest => rest
    | digits => digits
  if digits ≠ [] ∧ digits.all (·.isDigit) then
    let number := digits.foldl (fun n c => 10 * n + (c.toNat - '0'.toNat)) 0
    if number < UInt64.size then some (.ofNat number) else none
  else
    none

/-- The options with a size of the heap. -/
def Options.withHeapSize? (o : Options) (s : String) : Option Options :=
  (size? s).map fun size => { o with heapSize := some size }

/-- The options after an argument that stands alone: a flag, or an option with its value behind an
equals sign. -/
def Options.withArgument? (o : Options) (argument : String) : Option Options :=
  match argument with
  | "--list" => some { o with list := true }
  | "--dump" => some { o with dump := true }
  | "--verbose" => some { o with verbosity := o.verbosity + 1 }
  | _ =>
    match argument.splitOn "=" with
    | "--demo" :: value :: rest => some { o with demo := "=".intercalate (value :: rest) }
    | ["--heap-size", size] => o.withHeapSize? size
    | _ =>
      match argument.toList with
      | '-' :: 'v' :: flags =>
        if flags.all (· == 'v') then some { o with verbosity := o.verbosity + flags.length + 1 }
        else none
      | _ => none

/-- The options after a list of arguments. -/
def Options.parse? (o : Options) : List String → Option Options
  | [] => some o
  | ["--demo"] | ["--heap-size"] => none
  | "--demo" :: name :: rest => { o with demo := name }.parse? rest
  | "--heap-size" :: size :: rest => (o.withHeapSize? size).bind (·.parse? rest)
  | argument :: rest => (o.withArgument? argument).bind (·.parse? rest)

/-- The least important log level that is written. -/
def Options.level (o : Options) : Level :=
  match o.verbosity with
  | 0 => .warn
  | 1 => .info
  | 2 => .debug
  | _ => .trace

/-- The settings of the machine. The limit of the heap gives way to a larger start. -/
def Options.settings (o : Options) : Machine.Settings :=
  match o.heapSize with
  | none => {}
  | some size =>
    let heap : Heap.Settings := {}
    { heap := {
        initialSize := size.toNat
        maxSize := .ofNat (max heap.maxSize.toNat size.toNat) } }

/-- What a run of the program writes and returns. -/
structure Outcome where
  out : List String := []
  err : List String := []
  /-- Log lines, for the error stream. -/
  journal : Journal := {}
  code : UInt8 := 0
  deriving Inhabited

/-- Copies of a character before a text, up to a width. -/
def padLeft (width : Nat) (fill : Char) (s : String) : String :=
  String.ofList (List.replicate (width - s.length) fill) ++ s

/-- Spaces behind a text, up to a width. -/
def padRight (width : Nat) (s : String) : String :=
  s ++ String.ofList (List.replicate (width - s.length) ' ')

/-- A text in quotes. -/
def quoted (s : String) : String :=
  let escape : Char → String
    | '"' => "\\\""
    | '\\' => "\\\\"
    | '\n' => "\\n"
    | '\r' => "\\r"
    | '\t' => "\\t"
    | c => c.toString
  "\"" ++ String.join (s.toList.map escape) ++ "\""

variable [Build]

/-- The text of a result. -/
def resultText (m : Machine) (v : Value) : String :=
  match v with
  | .primitive .. =>
    match m.readScalar v with
    | .ok s => s.text
    | .error e => s!"<{e.message}>"
  | .string _ target =>
    if target.isNull then
      "null"
    else
      match m.readString v with
      | .ok s => quoted s
      | .error e => s!"<{e.message}>"
  | v => s!"{v.shape} {(m.descriptor v.type).name} @ {v.location.text}"

/-- The lines that list the demos. -/
def demoLines : List String := Demo.all.map fun d => s!"{padRight 12 d.name} {d.about}"

/-- The words for what a method is. -/
def methodFlags (m : Method) : String :=
  " ".intercalate <|
    (if m.isStatic then ["static"] else []) ++ (if m.isNative then ["native"] else []) ++
      (if m.isConstructor then ["ctor"] else [])

/-- The line of an instruction, with its place in the body and in the code. -/
def instructionLine (place offset : Nat) (i : Instruction) : String :=
  let place := padLeft 4 ' ' (toString place)
  let offset := padLeft 4 '0' (String.ofList (Nat.toDigits 16 offset))
  s!"   {place} 0x{offset}: {i.text}"

/-- The lines of a body, read back from its code. -/
def bodyLines (code : List UInt8) : Except String (List String) :=
  (Instruction.items code).zipIdx.mapM fun ((offset, item), place) =>
    match item with
    | .ok i => .ok (instructionLine place offset i)
    | .error e => .error e.message

/-- The lines of a method. -/
def methodLines (m : Machine) (index : Nat) (method : Method) : Except String (List String) := do
  let owner ← (m.typeName method.owner).mapError (·.message)
  let head := s!"== #{index} {owner}::{method.name} [{methodFlags method}] =="
  if method.isNative then
    return [head]
  let (_, size) ← (m.sizing index).mapError (·.message)
  let code := Instruction.encode method.body.toList
  let sizes :=
    s!"   max stack {size.maxDepth} items, {size.bytes} bytes; {code.length} bytes of code"
  return head :: sizes :: (← bodyLines code)

/-- The lines of all methods. -/
def dumpLines (m : Machine) : Except String (List String) := do
  let methods ← m.image.methods.toList.zipIdx.mapM fun (method, index) =>
    methodLines m index method
  return methods.flatten

/-- Shows or runs a demo. -/
def runDemo [Host] (o : Options) (demo : Demo) : Outcome :=
  match Assembler.assemble demo.build with
  | .error e => failure e.message {}
  | .ok (entry, image) =>
    match Machine.create image o.settings (some o.level) with
    | .error e => failure e.message {}
    | .ok m =>
      if o.dump then
        match dumpLines m with
        | .ok lines => { out := lines, journal := m.journal }
        | .error e => failure e m.journal
      else
        match Run.invoke Machine.ampleSteps { method := entry } m with
        | none => failure "the step limit was reached" m.journal
        | some (.error e m) => failure e.message m.journal
        | some (.ok result m) =>
          let shown := result.toList.map fun v => s!"=> {resultText m v}"
          { out := m.output.toList ++ shown, journal := summary m }
where
  /-- The outcome of a failed run. -/
  failure (message : String) (journal : Journal) : Outcome :=
    { err := [s!"Error running {demo.name}: {message}"], journal, code := 1 }
  /-- The journal with a line on the heap. -/
  summary (m : Machine) : Journal :=
    m.journal.record
      (.heapSummary m.heap.allocations m.heap.frees m.heap.objects.length m.heap.liveBytes)

/-- Runs the program. -/
def run [Host] (o : Options) : Outcome :=
  if o.list then
    { out := demoLines }
  else
    match Demo.find? o.demo with
    | none => { err := [s!"Unknown demo '{o.demo}'; try --list"], code := 1 }
    | some demo => runDemo o demo

end ManagedVm.CommandLine
