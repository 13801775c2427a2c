import WasmText.CommandLine.Host
import WasmText.CommandLine.Invocation
import WasmText.Compile
/-!
# Running the program

A run reads a source, compiles it, renders the bytes, and delivers them to
one place. Nothing is delivered unless all of it succeeds. How arguments
are read and what the host does are parameters of a run.
-/

namespace WasmText

namespace CommandLine

/-- Why a run ends without a result. -/
inductive Failure where
  | unreadable (path : Option String) (fault : FileFault)
  | uncompilable (path : Option String) (error : CompileError)
  | unwritable (path : String) (fault : FileFault)
  | unprintable (fault : FileFault)
deriving DecidableEq

namespace Failure

/-- What was being done, and the causes of the failure, outermost first. -/
def explain : Failure → String × List String
  | unreadable none fault => (fault.message, [])
  | unreadable (some path) fault => ("failed to read input file " ++ path, [fault.message])
  | uncompilable path error =>
    let causes :=
      match error with
      | .parse inner => [error.render, inner.render]
      | _ => [error.render]
    ("failed to compile " ++ path.getD "standard input", causes)
  | unwritable path fault => ("failed to write output file " ++ path, [fault.message])
  | unprintable fault => ("failed to write standard output", [fault.message])

/-- A text with every line after the first indented. -/
def indent (margin text : String) : String :=
  ("\n" ++ margin).intercalate (text.splitOn "\n")

/-- The failure as it is reported. More than one cause are numbered. -/
def render (f : Failure) : String :=
  let (context, causes) := f.explain
  let listed :=
    match causes with
    | [] => []
    | [cause] => ["    " ++ indent "    " cause]
    | causes => causes.zipIdx.map fun (cause, i) =>
        "    " ++ toString i ++ ": " ++ indent "       " cause
  "Error: " ++ context ++ (if listed.isEmpty then "" else "\n\nCaused by:\n")
    ++ "\n".intercalate listed ++ "\n"

end Failure

/-- One byte as two hexadecimal digits. -/
def hexByte (b : UInt8) : List Char :=
  [Nat.digitChar (b.toNat / 16), Nat.digitChar (b.toNat % 16)]

/-- Bytes as hexadecimal text. -/
def hexText (bytes : List UInt8) : String :=
  String.ofList (bytes.flatMap hexByte)

namespace Invocation

/-- The module as it is delivered: its bytes, or a line of hexadecimal. -/
def present (inv : Invocation) (bytes : List UInt8) : List UInt8 :=
  if inv.hex then Utf8.encode (hexText bytes ++ "\n") else bytes

/-- What a run delivers, from the bytes of its source. -/
def produce [HexReader] (inv : Invocation) (source : List UInt8) :
    Except Failure (List UInt8) :=
  match Utf8.decode? source with
  | none => .error (.unreadable inv.input .notText)
  | some text =>
    match compile text with
    | .ok bytes => .ok (inv.present bytes)
    | .error e => .error (.uncompilable inv.input e)

end Invocation

section Steps

variable {m : Type → Type} [Monad m] {Handle : Type}

/-- A step that the host may fail. -/
def attempt {α : Type} (x : m (Except FileFault α)) (failure : FileFault → Failure) :
    ExceptT Failure m α :=
  ExceptT.mk do return (← x).mapError failure

namespace Invocation

/-- The bytes of the source, as the host reads them. -/
def fetch (host : Host m Handle) (inv : Invocation) : m (Except FileFault (List UInt8)) :=
  match inv.input with
  | none => host.readStdin
  | some path => host.readFile path

/-- Prints the result or writes it to a file. -/
def deliver (host : Host m Handle) (inv : Invocation) (result : List UInt8) :
    ExceptT Failure m Unit :=
  match inv.destination with
  | none => attempt (host.print result) .unprintable
  | some path => do
    let handle ← attempt (host.create path) (.unwritable path)
    attempt (host.write handle result) (.unwritable path)

/-- A compilation, from reading the source to delivering the result. -/
def execute [HexReader] (host : Host m Handle) (inv : Invocation) : ExceptT Failure m Unit := do
  let source ← attempt (inv.fetch host) (.unreadable inv.input)
  let result ← ExceptT.mk (pure (inv.produce source))
  inv.deliver host result

end Invocation

/-- How a run ends. -/
structure Outcome where
  status : Nat
  stderr : String
deriving DecidableEq

/-- The program on the given arguments. Whether an end at once could be
announced does not matter. -/
def run [HexReader] (request : List String → Request) (host : Host m Handle)
    (args : List String) : m Outcome := do
  match request args with
  | .exit status stdout stderr =>
    let _ ← host.print (Utf8.encode stdout)
    return ⟨status, stderr⟩
  | .compile inv =>
    match ← (inv.execute host).run with
    | .ok () => return ⟨0, ""⟩
    | .error failure => return ⟨1, failure.render⟩

end Steps

end CommandLine

end WasmText
