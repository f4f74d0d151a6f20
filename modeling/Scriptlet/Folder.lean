import Scriptlet.ScriptFile
/-!
A folder of files and folders, and what opening a path from it gives. Of what lies outside only the
folders above are known, up to the root, which is above itself.
-/

namespace Scriptlet

inductive Entry
  | file (bytes : ByteArray)
  | folder

/-- Entries by their paths from the folder. -/
abbrev Folder := List (String × Entry)

namespace Folder

/-- The parts of a path. Empty parts and single dots say nothing. -/
def parts (path : String) : List String :=
  (path.splitOn "/").filter fun part => part ≠ "" ∧ part ≠ "."

/-- What a path from the root begins with. Exactly two slashes are kept apart from one. -/
def root (path : String) : String :=
  match (path.toList.takeWhile (· = '/')).length with
  | 0 => ""
  | 2 => "//"
  | _ => "/"

/-- The path with only the parts that say something. -/
def clean (path : String) : String :=
  let root := root path
  let rest := String.intercalate "/" (parts path)
  if root ++ rest = "" then "." else root ++ rest

/-- The most bytes that a part of a path may have. -/
def maxPart : Nat := 255

def isTooLong (part : String) : Bool := maxPart < part.utf8ByteSize

/-- The most bytes that a whole path may have. -/
def maxPath : Nat := 4095

def isPathTooLong (path : String) : Bool := maxPath < (clean path).utf8ByteSize

/-- What stands at a place, the innermost part first. What lies above an entry is a folder. -/
def entry? (folder : Folder) (here : List String) : Option Entry :=
  let path := String.intercalate "/" here.reverse
  match folder.find? (·.1 == path) with
  | some (_, e) => some e
  | none =>
    if folder.any fun (name, _) => (path ++ "/").toList.isPrefixOf name.toList then some .folder
    else none

/-- A place that a path leads to. -/
inductive Spot
  /-- In the folder; the innermost part comes first. -/
  | inside (here : List String)
  | above

def Spot.up : Spot → Spot
  | .inside (_ :: here) => .inside here
  | .inside [] => .above
  | .above => .above

/-- Follows the parts of a path from a place, which is a folder. -/
def follow (folder : Folder) (spot : Spot) : List String → FileContent
  | [] => .error .directory
  | part :: rest =>
    if part = ".." then follow folder spot.up rest
    else if isTooLong part then .error .nameTooLong
    else match spot with
      | .above => .error .missing
      | .inside here =>
        match folder.entry? (part :: here) with
        | none => .error .missing
        | some .folder => follow folder (.inside (part :: here)) rest
        | some (.file bytes) => if rest = [] then .ok bytes else .error .notDirectory

def openPath (folder : Folder) (path : String) : FileContent :=
  if isPathTooLong path then .error .nameTooLong
  else folder.follow (if root path = "" then .inside [] else .above) (parts path)

end Folder

end Scriptlet
