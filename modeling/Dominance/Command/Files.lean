/-!
# Files

The command line reads files by path.
What it needs to know of a system is a function from paths to what becomes of the attempt to open
them; a file tree with a working directory gives one.

A path is a list of names with slashes between them.
It is followed from the root if it starts with a slash and from the working directory otherwise;
an empty name and `.` stay in place, `..` leads up.
Each name has to be looked up in a directory, so that nothing may follow the name of a file, not
even a slash.
-/

namespace Dominance.Command

/-! ## Systems -/

/-- What becomes of the attempt to open a file. -/
inductive FileAccess where
  /-- The path leads nowhere. -/
  | missing (reason : String)
  /-- The file is there, under this full path, but cannot be opened. -/
  | sealed (path reason : String)
  /-- The file is open, under this full path, but nothing can be read from it. -/
  | unreadable (path reason : String)
  /-- The file has this full path and these contents. -/
  | contents (path : String) (bytes : ByteArray)

/-- The files of the system by path. -/
abbrev Files := String → FileAccess

/-- Why a file cannot be used. -/
inductive FileError where
  | missing
  | denied
  | notDirectory
  | isDirectory
  | nameTooLong
deriving DecidableEq, Repr

/-- The number of an error in the system. -/
def FileError.code : FileError → Nat
  | .missing => 2
  | .denied => 13
  | .notDirectory => 20
  | .isDirectory => 21
  | .nameTooLong => 36

/-- What an error says. -/
def FileError.details : FileError → String
  | .missing => "No such file or directory"
  | .denied => "Permission denied"
  | .notDirectory => "Not a directory"
  | .isDirectory => "Is a directory"
  | .nameTooLong => "File name too long"

/-- An error of the system in words. -/
def systemReason (details : String) (code : Nat) : String :=
  details ++ " (os error " ++ code.repr ++ ")"

/-- The message of an error. -/
def FileError.message (e : FileError) : String := systemReason e.details e.code

/-! ## File trees -/

/-- A file or a directory of named entries. -/
inductive FileTree where
  | file (bytes : ByteArray)
  | directory (entries : List (String × FileTree))

/-- The entries passed on the way from the root to a place in a tree, the last one first. -/
abbrev Trail := List (String × FileTree)

namespace FileTree

/-- The most bytes that a name may have. -/
def longestName : Nat := 255

/-- The tree at the end of a trail. -/
def endOf (root : FileTree) : Trail → FileTree
  | [] => root
  | (_, tree) :: _ => tree

/-- The full path of a trail. -/
def fullPath (trail : Trail) : String :=
  "/" ++ String.intercalate "/" (trail.reverse.map (·.1))

/-- Follows a name from the end of a trail. -/
def step (root : FileTree) (trail : Trail) (name : String) : Except FileError Trail :=
  match root.endOf trail with
  | .file _ => .error .notDirectory
  | .directory entries =>
    if name = "" || name = "." then .ok trail
    else if name = ".." then .ok trail.tail
    else if longestName < name.utf8ByteSize then .error .nameTooLong
    else
      match entries.lookup name with
      | none => .error .missing
      | some tree => .ok ((name, tree) :: trail)

/-- Follows names from the end of a trail. -/
def walk (root : FileTree) (trail : Trail) (names : List String) : Except FileError Trail :=
  names.foldlM root.step trail

/-- The files of a tree. -/
def files (root : FileTree) (working : Trail) : Files := fun path =>
  match root.walk (if path.startsWith "/" then [] else working) (path.splitOn "/") with
  | .error e => .missing e.message
  | .ok trail =>
    match root.endOf trail with
    | .file bytes => .contents (fullPath trail) bytes
    | .directory _ => .unreadable (fullPath trail) FileError.isDirectory.message

end FileTree

end Dominance.Command
