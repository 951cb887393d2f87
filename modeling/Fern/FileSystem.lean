import Fern.Text.Position
import Fern.Text.Utf8

/-!
# Files

Programs read files and never write them, so a file system is a function from paths to contents or
to the reason why there are none. One is built from a list of files and directories below the
current directory; a path is followed part by part, and a part that is asked of a file fails.
-/

namespace Fern

/-- Why a file cannot be opened. -/
inductive OpenFault
  | missing
  | isDirectory
  | notDirectory
  | nameTooLong
  | denied
  /-- Nobody has looked at this path yet. -/
  | unvisited
  deriving DecidableEq, Repr

namespace OpenFault

/-- The words of the operating system for a fault. -/
def reason : OpenFault → String
  | .missing => "[Errno 2] No such file or directory"
  | .isDirectory => "[Errno 21] Is a directory"
  | .notDirectory => "[Errno 20] Not a directory"
  | .nameTooLong => "[Errno 36] File name too long"
  | .denied => "[Errno 13] Permission denied"
  | .unvisited => "[Errno 11] Resource temporarily unavailable"

def message (fault : OpenFault) (path : String) : String :=
  fault.reason ++ ": " ++ Text.quoted path

end OpenFault

/-- The answer of the file system to every path. -/
structure FileSystem where
  read : String → Except OpenFault (List UInt8)

/-- Why a text cannot be read from a file. -/
inductive ReadFault
  | cannotOpen (fault : OpenFault)
  | notText (fault : Text.Utf8Fault)
  deriving DecidableEq, Repr

def ReadFault.message (path : String) : ReadFault → String
  | .cannotOpen fault => fault.message path
  | .notText fault => fault.message

/-- The text in a file, line ends untouched. -/
def FileSystem.readText (files : FileSystem) (path : String) : Except ReadFault String :=
  match files.read path with
  | .error fault => .error (.cannotOpen fault)
  | .ok bytes =>
    match Text.decodeUtf8 bytes with
    | .error fault => .error (.notText fault)
    | .ok text => .ok (String.ofList text)

/-- What a path can lead to. -/
inductive FileEntry
  | file (bytes : List UInt8)
  | directory
  deriving Repr

namespace FileSystem

/-- The longest name of a file, in bytes. -/
def maxNameLength : Nat := 255

/-- The longest path, in bytes. -/
def maxPathLength : Nat := 4095

/-- Whether a part of a path leads nowhere new: it is empty, or one dot. -/
def isIdle (part : List Char) : Bool := part.isEmpty || part == ['.']

/-- Whether a part of a path leads to the directory above. -/
def isUp (part : List Char) : Bool := part == ['.', '.']

/-- The entry at a place below the current directory. A directory is there if it is listed or if
something is listed below it. -/
def entryAt? (entries : List (List (List Char) × FileEntry)) (place : List (List Char)) :
    Option FileEntry :=
  if place.isEmpty then some .directory
  else
    match entries.find? (·.1 == place) with
    | some (_, entry) => some entry
    | none => if entries.any (place.isPrefixOf ·.1) then some .directory else none

/-- Follows the parts of a path outside of the listed directory, where nothing is known but the way
up. -/
def followOutside (parts : List (List Char)) : Except OpenFault FileEntry :=
  if parts.all fun part => isIdle part || isUp part then .ok .directory else .error .missing

/-- Follows the parts of a path from a place that is known to be a directory. -/
def follow (entries : List (List (List Char) × FileEntry)) (place : List (List Char)) :
    List (List Char) → Except OpenFault FileEntry
  | [] => .ok .directory
  | part :: rest =>
    if isIdle part then follow entries place rest
    else if isUp part then
      if place.isEmpty then followOutside rest else follow entries place.dropLast rest
    else if (String.ofList part).utf8ByteSize > maxNameLength then .error .nameTooLong
    else
      match entryAt? entries (place ++ [part]) with
      | none => .error .missing
      | some .directory => follow entries (place ++ [part]) rest
      | some (.file bytes) => if rest.isEmpty then .ok (.file bytes) else .error .notDirectory

/-- What the path leads to, in a directory with the given entries. -/
def resolve (entries : List (String × FileEntry)) (path : String) : Except OpenFault FileEntry :=
  let listed := entries.map fun (name, entry) =>
    ((name.toList.splitOn '/').filter fun part => !isIdle part, entry)
  let parts := path.toList.splitOn '/'
  if path.isEmpty then .error .missing
  else if path.utf8ByteSize > maxPathLength then .error .nameTooLong
  else if path.toList.head? = some '/' then followOutside parts
  else follow listed [] parts

/-- The file system with the given entries below the current directory. -/
def ofEntries (entries : List (String × FileEntry)) : FileSystem where
  read path :=
    match resolve entries path with
    | .error fault => .error fault
    | .ok .directory => .error .isDirectory
    | .ok (.file bytes) => .ok bytes

/-- The file system as far as somebody has looked. -/
def ofVisits (visits : List (String × Except OpenFault (List UInt8))) : FileSystem where
  read path := (visits.lookup path).getD (.error .unvisited)

/-- Whether a path leads anywhere. A name that is too long has no answer. -/
def holds (files : FileSystem) (path : String) : Except OpenFault Bool :=
  match files.read path with
  | .ok _ | .error .isDirectory | .error .denied => .ok true
  | .error .nameTooLong => .error .nameTooLong
  | .error _ => .ok false

end FileSystem

end Fern
