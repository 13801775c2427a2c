/-!
# The host

What the program is given to work with: files, standard input and standard
output. Writing a file opens it first, which creates it or empties it, and
then puts the bytes in.
-/

namespace WasmText

namespace CommandLine

/-- Why a file cannot be read or written. -/
inductive FileFault where
  | notFound
  | denied
  | notADirectory
  | isADirectory
  | nameTooLong
  | notText
  | other (message : String)
deriving DecidableEq

def FileFault.message : FileFault → String
  | notFound => "No such file or directory (os error 2)"
  | denied => "Permission denied (os error 13)"
  | notADirectory => "Not a directory (os error 20)"
  | isADirectory => "Is a directory (os error 21)"
  | nameTooLong => "File name too long (os error 36)"
  | notText => "stream did not contain valid UTF-8"
  | other message => message

/-- What a host offers to a program, each of which may fail. A file that
is open for writing is known by its handle. -/
structure Host (m : Type → Type) (Handle : Type) where
  readStdin : m (Except FileFault (List UInt8))
  readFile (path : String) : m (Except FileFault (List UInt8))
  create (path : String) : m (Except FileFault Handle)
  write (handle : Handle) (bytes : List UInt8) : m (Except FileFault Unit)
  print (bytes : List UInt8) : m (Except FileFault Unit)

end CommandLine

end WasmText
