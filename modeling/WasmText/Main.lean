import WasmText.CommandLine.Arguments
import WasmText.CommandLine.Run
import WasmText.Literal.Hexadecimal
/-!
# The program

Runs the library on the real standard input, standard output and files.
-/

namespace WasmText

namespace CommandLine

/-- A fault of the operating system. Its code may come negated. -/
def faultOf (e : IO.Error) : FileFault :=
  match e with
  | .noFileOrDirectory .. => .notFound
  | .permissionDenied _ code _ => if isCode 13 code then .denied else .other e.toString
  | .inappropriateType _ code _ => if isCode 20 code then .notADirectory else .isADirectory
  | .invalidArgument _ code _ => if isCode 36 code then .nameTooLong else .other e.toString
  | e => .other e.toString
where
  isCode (n code : UInt32) : Bool := code == n || code == 0 - n

/-- Reads all of a stream. -/
partial def readAll (stream : IO.FS.Stream) (bytes : ByteArray) : IO ByteArray := do
  let chunk ← stream.read 65536
  if chunk.isEmpty then return bytes else readAll stream (bytes ++ chunk)

def caught {α : Type} (x : IO α) : IO (Except FileFault α) := do
  try
    return .ok (← x)
  catch e =>
    return .error (faultOf e)

/-- The real host. -/
def systemHost : Host IO IO.FS.Handle where
  readStdin := caught do return (← readAll (← IO.getStdin) .empty).data.toList
  readFile path := caught do return (← IO.FS.readBinFile path).data.toList
  create path := caught (IO.FS.Handle.mk path .write)
  write handle bytes := caught (handle.write ⟨bytes.toArray⟩)
  print bytes := caught do
    let stdout ← IO.getStdout
    stdout.write ⟨bytes.toArray⟩
    stdout.flush

/-- The program: its arguments to its status. -/
def program (args : List String) : IO UInt32 := do
  let outcome ← run Request.ofArguments systemHost args
  IO.eprint outcome.stderr
  return outcome.status.toUInt32

end CommandLine

end WasmText

def main (args : List String) : IO UInt32 :=
  WasmText.CommandLine.program args
