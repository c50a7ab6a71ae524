import Arbor.Build.Compiler
import Arbor.Hash.Sha256
/-!
Compilation of units, only when it is needed.

A unit has three files in the build directory: its source, its artifact, and a marker with the
digest of the source. A unit whose marker has the right digest and whose artifact is there is
reused. Otherwise marker and artifact go before the source is written, and the marker comes back
only after the compiler has succeeded, so that nothing vouches for an old artifact.
-/
namespace Arbor

inductive Outcome where
  | compiled
  | reused
  deriving DecidableEq, Repr

structure CompiledUnit where
  name : String
  source : String
  artifact : String
  hash : String
  outcome : Outcome
  deriving DecidableEq, Repr

structure Workshop where
  disk : Disk
  runs : Nat
  deriving DecidableEq, Repr

/-- What was written before an error stays so. -/
abbrev BuildM := EStateM BuildError Workshop

namespace BuildM

def onDisk (f : Disk → Except DiskError Disk) : BuildM Unit := fun w =>
  match f w.disk with
  | .ok d => .ok () { w with disk := d }
  | .error e => .error (.disk e) w

def runCompiler (compiler : Compiler) (source artifact : String) : BuildM Unit := fun w =>
  match compiler (w.runs + 1) source artifact w.disk with
  | .ok () d => .ok () ⟨d, w.runs + 1⟩
  | .error e d => .error e ⟨d, w.runs + 1⟩

end BuildM

namespace Cache

/-- A name that is a file name and no more. -/
def isUnitName (name : String) : Bool :=
  !name.isEmpty && name != "." && name != ".." &&
    name.toList.all fun c => c != '/' && c != '\\' && c.toNat != 0

def sourcePath (directory name : String) : String := Path.join directory (name ++ ".c")

def artifactPath (directory name : String) : String :=
  Path.join directory (name ++ "." ++ artifactExtension)

def markerPath (directory name : String) : String := Path.join directory (name ++ ".c.sha")

def recorded (d : Disk) (marker : String) : Except DiskError (Option String) :=
  match d.read marker with
  | .ok text => .ok (some (Text.trim text))
  | .error .notFound => .ok none
  | .error e => .error e

def isCurrent (d : Disk) (directory name hash : String) : Except DiskError Bool := do
  let digest ← recorded d (markerPath directory name)
  return digest = some hash && d.exists? (artifactPath directory name)

/-- The text of a source file: no white space at the end but one newline. -/
def sourceText (text : String) : String := Text.trimEnd text ++ "\n"

def rebuild (compiler : Compiler) (directory name text : String) : BuildM Unit := do
  let source := sourcePath directory name
  let artifact := artifactPath directory name
  let marker := markerPath directory name
  BuildM.onDisk (·.removeIfPresent marker)
  BuildM.onDisk (·.removeIfPresent artifact)
  BuildM.onDisk (·.write source (sourceText text))
  BuildM.runCompiler compiler source artifact
  BuildM.onDisk (·.write marker (contentHash text))

def unitOf (directory name text : String) (outcome : Outcome) : CompiledUnit :=
  ⟨name, sourcePath directory name, artifactPath directory name, contentHash text, outcome⟩

def materialize (compiler : Compiler) (directory name text : String) : BuildM CompiledUnit := fun w =>
  if !isUnitName name then .error (.invalidUnitName name) w
  else
    match isCurrent w.disk directory name (contentHash text) with
    | .error e => .error (.disk e) w
    | .ok true => .ok (unitOf directory name text .reused) w
    | .ok false =>
      match rebuild compiler directory name text w with
      | .ok () w => .ok (unitOf directory name text .compiled) w
      | .error e w => .error e w

end Cache
end Arbor
