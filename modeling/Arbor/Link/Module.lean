import Arbor.Build.Cache
import Arbor.Link.Library
/-!
Linked modules: the loaded artifacts of a project, in order.

An artifact is loaded under a second name that carries the digest of its source, since a loader
takes a path it has seen before for the library it has loaded before.
-/
namespace Arbor

structure LoadedUnit where
  name : String
  library : Library

abbrev Module := List LoadedUnit

namespace Module

def digestBytes : Nat := 16

def takeBytes : (room : Nat) → List Char → List Char
  | _, [] => []
  | room, c :: rest => if c.utf8Size ≤ room then c :: takeBytes (room - c.utf8Size) rest else []

def pinnedName (unit : CompiledUnit) : String :=
  let stem := unit.name ++ "." ++ String.ofList (takeBytes digestBytes unit.hash.toList)
  match Path.extension? unit.artifact with
  | some ext => stem ++ "." ++ ext
  | none => stem

def pinnedPath (unit : CompiledUnit) : String := Path.withFileName unit.artifact (pinnedName unit)

/-- The path to load a unit from; the second name is given on first use. -/
def pin (d : Disk) (unit : CompiledUnit) : Except BuildError (String × Disk) :=
  if !d.isFile unit.artifact then .error (.missingArtifact unit.artifact)
  else if unit.hash.isEmpty then .ok (unit.artifact, d)
  else if d.exists? (pinnedPath unit) then .ok (pinnedPath unit, d)
  else
    match d.link unit.artifact (pinnedPath unit) with
    | .ok d => .ok (pinnedPath unit, d)
    | .error e => .error (.disk e)

def load (loader : Loader) (d : Disk) (path : String) : Except BuildError Library :=
  match d.read path with
  | .ok text =>
    match loader text with
    | some library => .ok library
    | none => .error (.load path)
  | .error _ => .error (.load path)

/-- Loads units in order. The disk is given back also after an error. -/
def link (loader : Loader) : Disk → List CompiledUnit → Disk × Except BuildError Module
  | d, [] => (d, .ok [])
  | d, unit :: rest =>
    match pin d unit with
    | .error e => (d, .error e)
    | .ok (path, d) =>
      match load loader d path with
      | .error e => (d, .error e)
      | .ok library =>
        match link loader d rest with
        | (d, .ok others) => (d, .ok (⟨unit.name, library⟩ :: others))
        | (d, .error e) => (d, .error e)

def unitNames (m : Module) : List String := m.map (·.name)

def describe (m : Module) : String := Text.quotedList m.unitNames

/-- The name that a loader looks for; it may come with the character that ends it. -/
def symbolName (name : String) : String :=
  match name.toList.reverse with
  | c :: rest => if c.toNat = 0 then String.ofList rest.reverse else name
  | [] => name

def find? (m : Module) (name : String) : Option NativeFunction :=
  m.findSome? fun unit => unit.library.get? (symbolName name)

end Module
end Arbor
