import TransitionMatrix.Traced

/-!
# Files in a folder

Exported files are created in a folder that has no folders in it. A name may still go through the
folder itself, and it may go wrong in three ways.
-/

namespace TransitionMatrix

/-- A folder of files. -/
structure Folder where
  files : List String
deriving DecidableEq, Repr

namespace Folder

def empty : Folder := ⟨[]⟩

/-- Whether a part of a name leads back to a folder. -/
def isFolderName (part : String) : Bool := part == "." || part == ".."

/-- Follows the parts of a name in front of its last one. Only the folder itself can be gone
through. -/
def follow (f : Folder) : List String → Except FileFault Unit
  | [] => .ok ()
  | part :: rest =>
    if isFolderName part then f.follow rest
    else if f.files.contains part then .error .notDirectory
    else .error .notFound

/-- Creates the file with the given name, or empties it if it is there. A name that ends in a slash
is that of a folder. -/
def create (f : Folder) (name : String) : Except FileFault Folder := do
  if name.isEmpty then throw .notFound
  let parts := name.splitOn "/"
  let names := parts.filter fun part => !part.isEmpty
  f.follow names.dropLast
  match names.getLast? with
  | none => throw .isDirectory
  | some file =>
    if isFolderName file || parts.getLast? == some "" then throw .isDirectory
    return ⟨f.files.insert file⟩

/-- Opens a file for writing. -/
def openFile (f : Folder) (name : String) : Traced Folder := do
  let f ← (f.create name).mapError Error.exportFailed
  Traced.emit (.exporting name)
  return f

end Folder

end TransitionMatrix
