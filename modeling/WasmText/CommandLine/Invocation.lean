/-!
# Invocations

What a command line asks for: to compile a source, or to end at once. A
result goes to the output that is named for it. Without one a binary goes
beside its source, and anything else is printed.
-/

namespace WasmText

namespace CommandLine

/-- What to compile, where to write it, and whether as hexadecimal text. -/
structure Invocation where
  input : Option String
  output : Option String
  hex : Bool
deriving DecidableEq

/-- What a list of arguments comes to: a compilation, or an end with a
status and what is printed and reported. -/
inductive Request where
  | compile (invocation : Invocation)
  | exit (status : Nat) (stdout stderr : String)
deriving DecidableEq

/-- A path with the extension of its file name replaced by `wasm`. What
follows the last dot is the extension, unless the dot comes first. A name
that is `..` once its extension is off stands for a directory, and nothing
is put behind it. -/
def withWasmExtension (path : String) : String :=
  let reversed := path.toList.reverse
  let file := reversed.takeWhile (· != '/')
  let directory := (reversed.dropWhile (· != '/')).reverse
  match file.dropWhile (· != '.') with
  | ['.', '.'] => String.ofList (directory ++ ['.', '.'])
  | '.' :: c :: cs => String.ofList (directory ++ (c :: cs).reverse) ++ ".wasm"
  | _ => path ++ ".wasm"

namespace Invocation

/-- Where the result goes, or none for standard output. Without an explicit
output a binary goes beside its source, and text is printed. -/
def destination (inv : Invocation) : Option String :=
  match inv.output, inv.input with
  | some path, _ => some path
  | none, some path => if inv.hex then none else some (withWasmExtension path)
  | none, none => none

end Invocation

end CommandLine

end WasmText
