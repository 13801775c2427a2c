import WasmText.CommandLine.Host
/-!
# A host with a tree of files

The files of a working directory, each at a path of names, with directories
wherever a longer path runs through. Above the working directory there are
only directories, which hold nothing else that a path could name and take
no new files. Such a tree, with what can be read from standard input and
what has been printed, is a host to run the program on (`World.host`).
-/

namespace WasmText

namespace CommandLine

/-- The most bytes that one name of a path may have. -/
def maxNameBytes : Nat := 255

/-- The most bytes that a whole path may have. -/
def maxPathBytes : Nat := 4095

/-- A directory: one at or below the working directory, by the names that
lead to it, or any above it. -/
inductive Directory where
  | below (place : List String)
  | above
deriving DecidableEq

/-- The directory that holds a directory. The topmost one holds itself. -/
def Directory.parent : Directory → Directory
  | below [] => above
  | below place => below place.dropLast
  | above => above

/-- What a name stands for in a directory. -/
inductive Item where
  | directory (dir : Directory)
  | file (bytes : List UInt8)
deriving DecidableEq

/-- Where a path leads: to a directory that it has gone through, or to a
name in one, which a slash may mark as that of a directory. -/
inductive Location where
  | directory (dir : Directory)
  | entry (dir : Directory) (name : String) (slash : Bool)
deriving DecidableEq

/-- The files under a directory, each by the names that lead to it. -/
structure FileTree where
  entries : List (List String × List UInt8)
deriving DecidableEq

namespace FileTree

/-- The names that a written path holds. -/
def names (path : String) : List String :=
  ((path.toList.splitOn '/').filter (· != [])).map String.ofList

def ofFiles (files : List (String × List UInt8)) : FileTree :=
  ⟨files.map fun (path, bytes) => (names path, bytes)⟩

def file? (t : FileTree) (place : List String) : Option (List UInt8) :=
  (t.entries.find? (·.1 == place)).map (·.2)

/-- Whether some file lies under a place. -/
def isDirectory (t : FileTree) (place : List String) : Bool :=
  t.entries.any fun (path, _) => place.isPrefixOf path && path != place

/-- Looks a name up in a directory. One that is too long cannot be there. -/
def lookup (t : FileTree) (dir : Directory) (name : String) : Except FileFault (Option Item) :=
  if maxNameBytes < name.utf8ByteSize then .error .nameTooLong
  else
    match dir with
    | .above => .ok none
    | .below place =>
      let next := place ++ [name]
      if t.isDirectory next then .ok (some (.directory (.below next)))
      else .ok ((t.file? next).map .file)

/-- The directory that a name stands for in a directory. -/
def enter (t : FileTree) (dir : Directory) (name : String) : Except FileFault Directory := do
  match ← t.lookup dir name with
  | some (.directory next) => return next
  | some (.file _) => throw .notADirectory
  | none => throw .notFound

/-- Where names lead from a directory. All but the last step must go through
directories. -/
def follow (t : FileTree) (slash : Bool) (dir : Directory) :
    List String → Except FileFault Location
  | [] => .ok (.directory dir)
  | "." :: names => t.follow slash dir names
  | ".." :: names => t.follow slash dir.parent names
  | [name] => .ok (.entry dir name slash)
  | name :: names => do t.follow slash (← t.enter dir name) names

/-- Where a path leads. It starts at the top if a slash comes first. -/
def locate (t : FileTree) (path : String) : Except FileFault Location :=
  if maxPathBytes < path.utf8ByteSize then .error .nameTooLong
  else
    let start := if path.toList.head? == some '/' then .above else .below []
    t.follow (path.toList.getLast? == some '/') start (names path)

def read (t : FileTree) (path : String) : Except FileFault (List UInt8) := do
  match ← t.locate path with
  | .directory _ => throw .isADirectory
  | .entry dir name slash =>
    match ← t.lookup dir name, slash with
    | some (.file bytes), false => return bytes
    | some (.file _), true => throw .notADirectory
    | some (.directory _), _ => throw .isADirectory
    | none, _ => throw .notFound

/-- The tree with a file at a place, new or instead of an old one. -/
def insert (t : FileTree) (place : List String) (bytes : List UInt8) : FileTree :=
  ⟨(place, bytes) :: t.entries.filter (·.1 != place)⟩

/-- The place of a file that is opened for writing, and the tree with that
file empty. A path that ends in a slash is refused before its last name is
looked up. -/
def create (t : FileTree) (path : String) : Except FileFault (List String × FileTree) := do
  match ← t.locate path with
  | .directory _ | .entry _ _ true => throw .isADirectory
  | .entry dir name false =>
    match ← t.lookup dir name, dir with
    | some (.directory _), _ => throw .isADirectory
    | _, .below place => return (place ++ [name], t.insert (place ++ [name]) [])
    | _, .above => throw .notFound

/-- The files of `t` that are not in `old` with the same contents. -/
def changedSince (t old : FileTree) : List (String × List UInt8) :=
  (t.entries.filter fun (place, bytes) => old.file? place != some bytes).map
    fun (place, bytes) => ("/".intercalate place, bytes)

end FileTree

/-- What a run works on: what it can read from standard input, what it has
printed, and the files. -/
structure World where
  stdin : List UInt8
  stdout : List UInt8
  files : FileTree
deriving DecidableEq

/-- A host on which files are opened by their paths alone, and everything
that is open takes what is written to it. -/
def World.host : Host (StateM World) (List String) where
  readStdin w := (.ok w.stdin, { w with stdin := [] })
  readFile path w := (w.files.read path, w)
  create path w :=
    match w.files.create path with
    | .ok (place, files) => (.ok place, { w with files })
    | .error fault => (.error fault, w)
  write place bytes w := (.ok (), { w with files := w.files.insert place bytes })
  print bytes w := (.ok (), { w with stdout := w.stdout ++ bytes })

end CommandLine

end WasmText
