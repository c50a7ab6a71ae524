import Arbor.Build.Path
import Arbor.Table
import Arbor.Text.Blank
/-!
A disk: directories and text files by their place below the root.

Paths are resolved one part after the other from the current directory. There are no symbolic
links, no permissions, and no limits but those on the lengths of names and paths. A file may have
several names; the disk keeps track of them for those who change files from outside.
-/
namespace Arbor

inductive DiskError where
  | notFound
  | alreadyExists
  | notDirectory
  | isDirectory
  | nameTooLong
  | invalidName
  deriving DecidableEq, Repr

def DiskError.message : DiskError → String
  | .notFound => "No such file or directory (os error 2)"
  | .alreadyExists => "File exists (os error 17)"
  | .notDirectory => "Not a directory (os error 20)"
  | .isDirectory => "Is a directory (os error 21)"
  | .nameTooLong => "File name too long (os error 36)"
  | .invalidName => "file name contained an unexpected NUL byte"

/-- The parts from the root to a file or directory. -/
abbrev Place := List String

inductive DiskEntry where
  | file (text : String)
  | directory
  deriving DecidableEq, Repr

structure Disk where
  current : Place
  entries : Table Place DiskEntry
  /-- Pairs of places that name one file, all of them. -/
  sameFile : List (Place × Place)
  deriving DecidableEq, Repr

namespace Disk

def empty (current : Place) : Disk :=
  ⟨current, (List.range current.length).map fun n => (current.take (n + 1), .directory), []⟩

def entryAt? (d : Disk) (place : Place) : Option DiskEntry :=
  if place.isEmpty then some .directory else d.entries.get? place

def longestName : Nat := 255

def longestPath : Nat := 4095

/-- Goes on from a place. Every part but the last has to be a directory. -/
def resolveFrom (d : Disk) : Place → List String → Except DiskError Place
  | place, [] => .ok place
  | place, part :: rest =>
    match d.entryAt? place with
    | none => .error .notFound
    | some (.file _) => .error .notDirectory
    | some .directory =>
      if part.isEmpty || part = "." then d.resolveFrom place rest
      else if part = ".." then d.resolveFrom place.dropLast rest
      else if longestName < part.utf8ByteSize then .error .nameTooLong
      else d.resolveFrom (place ++ [part]) rest

def pathOf (place : Place) : String := "/" ++ "/".intercalate place

def absolute (d : Disk) (path : String) : String := Path.join (pathOf d.current) path

def parts (path : String) : List String :=
  (Text.cutAt (· == '/') path.toList).map String.ofList

def placeOf (current : Place) (path : String) : Place :=
  (parts path).foldl (fun place part =>
    if part.isEmpty || part = "." then place
    else if part = ".." then place.dropLast
    else place ++ [part]) (if Path.isAbsolute path then [] else current)

def mount (d : Disk) (place : Place) (entry : DiskEntry) : Disk :=
  let added := (empty place.dropLast).entries ++ [(place, entry)]
  { d with entries := added.foldl (fun entries e => entries.set e.1 e.2) d.entries }

/-- The place that a path means, whether there is something or not. -/
def resolve (d : Disk) (path : String) : Except DiskError Place :=
  if path.isEmpty then .error .notFound
  else if path.toList.contains (Char.ofNat 0) then .error .invalidName
  else if longestPath < path.utf8ByteSize then .error .nameTooLong
  else d.resolveFrom (if Path.isAbsolute path then [] else d.current) (parts path)

def lookup? (d : Disk) (path : String) : Option DiskEntry :=
  match d.resolve path with
  | .ok place => d.entryAt? place
  | .error _ => none

def exists? (d : Disk) (path : String) : Bool := (d.lookup? path).isSome

def isFile (d : Disk) (path : String) : Bool :=
  match d.lookup? path with
  | some (.file _) => true
  | _ => false

def isDirectory (d : Disk) (path : String) : Bool := d.lookup? path = some .directory

def read (d : Disk) (path : String) : Except DiskError String := do
  let place ← d.resolve path
  match d.entryAt? place with
  | some (.file text) => .ok text
  | some .directory => .error .isDirectory
  | none => .error .notFound

def put (d : Disk) (place : Place) (entry : DiskEntry) : Disk :=
  { d with entries := d.entries.set place entry }

def write (d : Disk) (path text : String) : Except DiskError Disk := do
  let place ← d.resolve path
  match d.entryAt? place with
  | some .directory => .error .isDirectory
  | _ => .ok (d.put place (.file text))

def remove (d : Disk) (path : String) : Except DiskError Disk := do
  let place ← d.resolve path
  match d.entryAt? place with
  | some (.file _) =>
    .ok { d with
      entries := d.entries.erase place
      sameFile := d.sameFile.filter fun (a, b) => a != place && b != place }
  | some .directory => .error .isDirectory
  | none => .error .notFound

def removeIfPresent (d : Disk) (path : String) : Except DiskError Disk :=
  match d.remove path with
  | .error .notFound => .ok d
  | result => result

def otherNames (d : Disk) (place : Place) : List Place :=
  d.sameFile.filterMap fun (a, b) =>
    if a = place then some b else if b = place then some a else none

def link (d : Disk) (path second : String) : Except DiskError Disk := do
  let place ← d.resolve path
  let text ← d.read path
  let other ← d.resolve second
  if (d.entryAt? other).isSome then .error .alreadyExists
  else
    let names := place :: d.otherNames place
    .ok { d.put other (.file text) with sameFile := names.map (·, other) ++ d.sameFile }

/-- Changes a file under all its names, as a program that opens it does. -/
def overwrite (d : Disk) (path text : String) : Except DiskError Disk := do
  let place ← d.resolve path
  let d ← d.write path text
  return (d.otherNames place).foldl (fun d name => d.put name (.file text)) d

def withoutSlash (path : String) : String :=
  match path.toList.reverse.dropWhile (· == '/') with
  | [] => path
  | tail => String.ofList tail.reverse

def createDirectory (d : Disk) (path : String) : Except DiskError Disk := do
  let place ← d.resolve (withoutSlash path)
  if (d.entryAt? place).isSome then .error .alreadyExists else .ok (d.put place .directory)

def ensureDirectory (d : Disk) (path : String) : Except DiskError Disk :=
  match d.createDirectory path with
  | .ok d => .ok d
  | .error e => if d.isDirectory path then .ok d else .error e

/-- A single change as a step; one that fails leaves the disk as it was. -/
def step (change : Disk → Except DiskError Disk) : EStateM DiskError Disk Unit := fun d =>
  match change d with
  | .ok d => .ok () d
  | .error e => .error e d

def createAllTo : (depth : Nat) → (path : String) → EStateM DiskError Disk Unit
  | 0, _ => pure ()
  | depth + 1, path => fun d =>
    if path.isEmpty then .ok () d
    else
      match d.ensureDirectory path with
      | .ok d => .ok () d
      | .error .notFound =>
        match Path.parent? path with
        | none => .error .notFound d
        | some above => (do createAllTo depth above; step (·.ensureDirectory path)) d
      | .error e => .error e d

/-- Creates a directory and all above it, from the top down. Those made before an error stay. -/
def createAll (path : String) : EStateM DiskError Disk Unit :=
  createAllTo (path.length + 1) path

def removeAll (d : Disk) (path : String) : Disk :=
  match d.resolve path with
  | .ok place =>
    { d with
      entries := d.entries.filter fun (p, _) => !place.isPrefixOf p
      sameFile := d.sameFile.filter fun (a, b) => !place.isPrefixOf a && !place.isPrefixOf b }
  | .error _ => d

def below (d : Disk) (place : Place) : List (Place × DiskEntry) :=
  d.entries.filterMap fun (p, entry) =>
    if place.isPrefixOf p && p != place then some (p.drop place.length, entry) else none

def listing (d : Disk) (path : String) : List (String × String) :=
  match d.resolve path with
  | .ok place => (d.below place).map fun (p, entry) =>
    match entry with
    | .file text => ("/".intercalate p, text)
    | .directory => ("/".intercalate p ++ "/", "")
  | .error _ => []

end Disk
end Arbor
