import Lox.File

namespace Lox

/-- The names on the way to a file or directory, the root's last. -/
abbrev Location := List String

/-- Files held in memory, and the directory from which names are looked up. A directory is there
if a file or the current directory is below it. -/
structure Disk where
  files : List (Location × List UInt8)
  current : Location

namespace Disk

inductive Entry where
  | directory
  | file (contents : List UInt8)

def hasDirectory (d : Disk) (l : Location) : Bool :=
  (d.current :: d.files.map (·.1.tail)).any l.isSuffixOf

def entry? (d : Disk) (l : Location) : Option Entry :=
  match d.files.lookup l with
  | some contents => some (.file contents)
  | none => if d.hasDirectory l then some .directory else none

def longestName : Nat := 255

def longestPath : Nat := 4095

/-- Follows one name of a path. Each name, also an empty one, is looked up in a directory; what it
leads to is looked at with the next. -/
def follow (d : Disk) (l : Location) (name : String) : Except Refusal Location :=
  match d.entry? l with
  | none => .error .noEntry
  | some (.file _) => .error .notDirectory
  | some .directory =>
    if name = "" || name = "." then .ok l
    else if name = ".." then .ok l.tail
    else if longestName < name.utf8ByteSize then .error .nameTooLong
    else .ok (name :: l)

def start (d : Disk) (path : String) : Location :=
  if path.startsWith "/" then [] else d.current

def find (d : Disk) (path : String) : File :=
  if path = "" then .closed .noEntry
  else if longestPath < path.utf8ByteSize then .closed .nameTooLong
  else
    match (path.splitOn "/").foldlM d.follow (d.start path) with
    | .error why => .closed why
    | .ok l =>
      match d.entry? l with
      | none => .closed .noEntry
      | some .directory => .unreadable .isDirectory
      | some (.file contents) => .bytes contents

end Disk

end Lox
