import WasmText.CommandLine.Invocation
/-!
# Arguments

The argument reader that the program runs with. A command line names at
most one input, an output with `-o`, and `--hex` for hexadecimal text.
Arguments are read from left to right and the first fault decides. An
option takes its value attached or as the next argument, which then must
not look like an option itself. After `--` everything is an input.
-/

namespace WasmText

namespace CommandLine

def versionText : String := "watc 0.0.1\n"

def usageText : String := "Usage: watc [OPTIONS] [INPUT]\n"

def helpText : String :=
  "Compile a text module to a binary module\n\n" ++ usageText ++ "
Arguments:
  [INPUT]  Source file; standard input when omitted

Options:
  -o, --output <OUTPUT>  Output file. Defaults to the input path with a `.wasm` extension, or standard output when reading standard input
      --hex              Print the module as hex instead of writing binary
  -h, --help             Print help
  -V, --version          Print version
"

namespace Request

def version : Request := .exit 0 versionText ""

def help : Request := .exit 0 helpText ""

def misuse : Request := .exit 2 "" usageText

/-- Whether an argument is read as an option. A single dash is a value. -/
def looksLikeOption (arg : String) : Bool :=
  arg.toList.head? == some '-' && arg != "-"

/-- The invocation with an input, which may be given once and is not
empty. -/
def withInput? (inv : Invocation) (path : String) : Option Invocation :=
  if path.isEmpty ∨ inv.input.isSome then none else some { inv with input := some path }

/-- The invocation with an output, likewise. -/
def withOutput? (inv : Invocation) (path : String) : Option Invocation :=
  if path.isEmpty ∨ inv.output.isSome then none else some { inv with output := some path }

/-- The invocation that prints hexadecimal, which may be asked for once. -/
def withHex? (inv : Invocation) : Option Invocation :=
  if inv.hex then none else some { inv with hex := true }

/-- Inputs only. -/
def inputs (inv : Invocation) : List String → Request
  | [] => .compile inv
  | arg :: args => (withInput? inv arg).elim .misuse (inputs · args)

/-- The forms of one argument. -/
inductive Form where
  | value (text : String)
  | onlyInputs
  | hex
  | output (attached : Option String)
  | version
  | help
  | unknown

/-- Reads one argument. A value is attached to a long option by an equals
sign, and to a short one directly or by an equals sign. -/
def form (arg : String) : Form :=
  match arg.toList with
  | ['-', '-'] => .onlyInputs
  | '-' :: '-' :: cs =>
    let name := String.ofList (cs.takeWhile (· != '='))
    let attached :=
      match cs.dropWhile (· != '=') with
      | [] => none
      | _ :: value => some (String.ofList value)
    match name, attached with
    | "output", attached => .output attached
    | "hex", none => .hex
    | "version", none => .version
    | "help", none => .help
    | _, _ => .unknown
  | ['-', 'o'] => .output none
  | '-' :: 'o' :: '=' :: value => .output (some (String.ofList value))
  | '-' :: 'o' :: value => .output (some (String.ofList value))
  | '-' :: 'V' :: _ => .version
  | '-' :: 'h' :: _ => .help
  | ['-'] => .value arg
  | '-' :: _ => .unknown
  | _ => .value arg

/-- Reads arguments on top of what the earlier ones said. -/
def resume (inv : Invocation) : List String → Request
  | [] => .compile inv
  | arg :: args =>
    match form arg with
    | .value text => (withInput? inv text).elim .misuse (resume · args)
    | .onlyInputs => inputs inv args
    | .hex => (withHex? inv).elim .misuse (resume · args)
    | .output (some path) => (withOutput? inv path).elim .misuse (resume · args)
    | .output none =>
      match args with
      | path :: args =>
        if looksLikeOption path then .misuse
        else (withOutput? inv path).elim .misuse (resume · args)
      | [] => .misuse
    | .version => .version
    | .help => .help
    | .unknown => .misuse

/-- What the arguments of the program ask for. -/
def ofArguments (args : List String) : Request :=
  resume ⟨none, none, false⟩ args

end Request

end CommandLine

end WasmText
