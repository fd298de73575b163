/-!
# Folders and files

Where a path leads that is written on the command line, as far as the folders are known. A
place is the list of names that lead to it from the root. A path is followed part by part,
from the root if it begins with a slash and else from the working folder: empty parts and
single dots stay where they are, and two dots go up, which at the root stays there as well.
-/

namespace Refutation.CommandLine

/-- Why a file cannot be written. -/
inductive WriteError where
  /-- A folder on the way does not exist. -/
  | missingFolder
  /-- The path leads to a folder. -/
  | isFolder
  /-- A file stands where a folder should. -/
  | fileAsFolder
  /-- The path or a name in it is too long. -/
  | tooLong
  /-- The path has a character that no path may have. -/
  | invalid
  deriving DecidableEq, Repr

/-- The names that lead to a folder or a file from the root. -/
abbrev Place := List String

/-- The folders and files that are known. -/
structure Disk where
  /-- The working folder. -/
  working : Place := []
  /-- The other folders, apart from the root. -/
  folders : List Place := []
  /-- The files and their texts. -/
  files : List (Place × String) := []
  deriving DecidableEq, Repr

namespace Disk

/-- The longest name, in bytes. -/
def maxName : Nat := 255

/-- The longest path, in bytes. -/
def maxPath : Nat := 4095

/-- Whether a part of a path stays in its folder. -/
def stays (part : String) : Bool :=
  part.isEmpty || part = "."

/-- Whether a place is a folder. -/
def isFolder (d : Disk) (p : Place) : Bool :=
  p.isEmpty || p = d.working || d.folders.contains p

/-- Whether a place is a file. -/
def isFile (d : Disk) (p : Place) : Bool :=
  (d.files.lookup p).isSome

/-- The place of a file to which the parts of a path lead from a folder. A name with nothing
but slashes behind it is that of a folder, even if there is none. -/
def follow (d : Disk) (folder : Place) : List String → Except WriteError Place
  | [] => .error .isFolder
  | part :: rest =>
    let next := folder ++ [part]
    if stays part then d.follow folder rest
    else if part = ".." then d.follow folder.dropLast rest
    else if part.utf8ByteSize > maxName then .error .tooLong
    else if d.isFolder next then d.follow next rest
    else if rest.isEmpty then .ok next
    else if d.isFile next then .error .fileAsFolder
    else if rest.all (·.isEmpty) then .error .isFolder
    else .error .missingFolder

/-- The place of a file to which a path leads. -/
def resolve (d : Disk) (path : String) : Except WriteError Place :=
  if path.toList.contains '\x00' then .error .invalid
  else if path.utf8ByteSize > maxPath then .error .tooLong
  else
    match path.splitOn "/" with
    | "" :: rest => d.follow [] rest
    | parts => d.follow d.working parts

/-- Put a text in the place of the one that is there. -/
def put (p : Place) (text : String) : List (Place × String) → List (Place × String)
  | [] => [(p, text)]
  | (q, t) :: rest => if q = p then (q, text) :: rest else (q, t) :: put p text rest

/-- Write a file. -/
def write (d : Disk) (path text : String) : Except WriteError Disk :=
  (d.resolve path).map fun p => { d with files := put p text d.files }

/-- The files of the working folder by name. -/
def listing (d : Disk) : List (String × String) :=
  d.files.filterMap fun (p, text) =>
    if p.dropLast = d.working then p.getLast?.map (·, text) else none

end Disk

end Refutation.CommandLine
