/-!
# Files by their paths

A run reads one file, named by a path.  This module holds the ways in which that can fail, and a
directory of files in memory, in which a run can be tried without a file system.

A path is walked from left to right, one component between slashes at a time.  An empty component
and a single dot stay where they are, in a directory; two dots leave it.  Nothing is known of what
lies outside the directory but the directories above it.
-/

namespace PhraseGrammar.CommandLine

/-! ## Faults -/

/-- Why a file's bytes cannot be had. -/
inductive FileFault where
  | notFound
  | noPermission
  /-- The path goes on after the name of a file. -/
  | notDirectory
  /-- The path names a directory. -/
  | isDirectory
  | nameTooLong
deriving DecidableEq

/-- The system's words for the fault. -/
def FileFault.message : FileFault → String
  | notFound => "No such file or directory (os error 2)"
  | noPermission => "Permission denied (os error 13)"
  | notDirectory => "Not a directory (os error 20)"
  | isDirectory => "Is a directory (os error 21)"
  | nameTooLong => "File name too long (os error 36)"

/-! ## Directories -/

/-- The bytes of each file in a directory. -/
abbrev Directory := String → Option (List UInt8)

/-- Where the walk along a path has come to. -/
inductive Place where
  /-- The directory of files. -/
  | inside
  /-- A directory above it. -/
  | above
  /-- A file with its bytes. -/
  | file (bytes : List UInt8)

/-- The greatest number of bytes in a file's name. -/
def maxNameSize : Nat := 255

/-- The greatest number of bytes in a path. -/
def maxPathSize : Nat := 4095

namespace Directory

/-- Finds a name in the directory that the walk has come to. -/
def lookup (dir : Directory) (place : Place) (name : String) : Except FileFault Place :=
  if maxNameSize < name.utf8ByteSize then .error .nameTooLong
  else
    match place, dir name with
    | .inside, some bytes => .ok (.file bytes)
    | _, _ => .error .notFound

/-- Walks one component of a path. -/
def walk (dir : Directory) (place : Place) (component : String) : Except FileFault Place :=
  match place with
  | .file _ => .error .notDirectory
  | place =>
    match component with
    | "" => .ok place
    | "." => .ok place
    | ".." => .ok .above
    | name => dir.lookup place name

/-- Where a path begins: above all files if it starts with a slash. -/
def origin (components : List String) : Place :=
  match components with
  | "" :: _ => .above
  | _ => .inside

/-- The bytes of the file at a path. -/
def read (dir : Directory) (path : String) : Except FileFault (List UInt8) :=
  if maxPathSize < path.utf8ByteSize then .error .nameTooLong
  else
    let components := path.splitOn "/"
    match components.foldlM dir.walk (origin components) with
    | .error fault => .error fault
    | .ok (.file bytes) => .ok bytes
    | .ok _ => .error .isDirectory

end Directory

end PhraseGrammar.CommandLine
