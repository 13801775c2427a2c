import WasmText.CommandLine.Host
import WasmText.Proofs.CommandLine.Extension
/-!
# Rules for hosts

Nothing is assumed of a host but what can be seen of it: what stands on
standard input, what has been printed, where a path leads, and which file is
there (`View`). A host that keeps the rules changes nothing by reading and
by refusing to open a file. A file that it opens is empty, and what is
written to it goes there and nowhere else (`Host.Lawful`). Writing and
printing may still fail half-way. A host on which they do not is one more
assumption (`Host.Reliable`).
-/

namespace WasmText

namespace CommandLine

/-- What can be seen of the worlds of a host. A path may lead to a place
where a file is, or could be. -/
structure View (W Place : Type) where
  stdin : W → List UInt8
  printed : W → List UInt8
  place? : W → String → Option Place
  file? : W → Place → Option (List UInt8)

namespace View

variable {W Place : Type} (v : View W Place)

/-- All that can be seen is that something was printed. -/
structure Prints (bytes : List UInt8) (w w' : W) : Prop where
  printed : v.printed w' = v.printed w ++ bytes
  place? : ∀ path, v.place? w' path = v.place? w path
  file? : ∀ place, v.file? w' place = v.file? w place

/-- Nothing was printed, and no file created or changed. -/
def Same (w w' : W) : Prop := v.Prints [] w w'

/-- Nothing was printed, and no file created or changed but the one at a
place. -/
structure SameBut (place : Place) (w w' : W) : Prop where
  printed : v.printed w' = v.printed w
  place? : ∀ path, v.place? w' path = v.place? w path
  file? : ∀ other, other ≠ place → v.file? w' other = v.file? w other

variable {v} {w w₁ w' : W} {place : Place} {bytes : List UInt8}

/-- What is printed after nothing has happened is all that is printed. -/
theorem Same.trans_prints (h : v.Same w w₁) (h' : v.Prints bytes w₁ w') : v.Prints bytes w w' where
  printed := by rw [h'.printed, h.printed, List.append_nil]
  place? path := (h'.place? path).trans (h.place? path)
  file? place := (h'.file? place).trans (h.file? place)

/-- A file that is changed twice is the only one changed. -/
theorem SameBut.trans (h : v.SameBut place w w₁) (h' : v.SameBut place w₁ w') :
    v.SameBut place w w' where
  printed := h'.printed.trans h.printed
  place? path := (h'.place? path).trans (h.place? path)
  file? other hother := (h'.file? other hother).trans (h.file? other hother)

end View

variable {W Place : Type}

/-- The rules for a host whose open files are known by their places. -/
structure Host.Lawful (host : Host (StateM W) Place) (v : View W Place) : Prop where
  readStdin : ∀ w result w', host.readStdin w = (result, w') →
    v.Same w w' ∧ ∀ bytes, result = .ok bytes → v.stdin w = bytes
  readFile : ∀ path w result w', host.readFile path w = (result, w') →
    v.Same w w' ∧ ∀ bytes, result = .ok bytes →
      ∃ place, v.place? w path = some place ∧ v.file? w place = some bytes
  /-- A file that is not opened is not there, or is as it was. -/
  refuse : ∀ path w fault w', host.create path w = (.error fault, w') → v.Same w w'
  /-- One that is opened is empty. -/
  create : ∀ path w place w', host.create path w = (.ok place, w') →
    v.place? w path = some place ∧ v.file? w' place = some [] ∧ v.SameBut place w w'
  /-- What is written to it is all that it holds, unless writing fails. -/
  write : ∀ place bytes w result w', v.file? w place = some [] →
    host.write place bytes w = (result, w') →
    v.SameBut place w w' ∧ (result = .ok () → v.file? w' place = some bytes)
  /-- What is printed comes out from its start on, to its end unless printing
  fails. -/
  print : ∀ bytes w result w', host.print bytes w = (result, w') →
    ∃ part, part <+: bytes ∧ v.Prints part w w' ∧ (result = .ok () → part = bytes)
  /-- Paths to files end in the name of a file. -/
  named : ∀ w path place, v.place? w path = some place → NamesFile path

/-- The rules for a host on which nothing fails half-way: what is open takes
what is written to it, and what cannot be printed is not printed in part. -/
structure Host.Reliable (host : Host (StateM W) Place) (v : View W Place) : Prop where
  write : ∀ path place bytes w w₁, host.create path w = (.ok place, w₁) →
    ∃ w', host.write place bytes w₁ = (.ok (), w')
  print : ∀ bytes w fault w', host.print bytes w = (.error fault, w') → v.Same w w'

end CommandLine

end WasmText
