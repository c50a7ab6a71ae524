import Arbor.Build.Error
import Arbor.Document.Record
/-!
Configuration of the build.

Settings come from defaults, then from files, then from the environment. A file is a JSON object
with the settings it changes; later files win setting by setting, and missing files are passed
over. A file may also hold the settings as an array: that is checked, but changes nothing.
-/
namespace Arbor

structure Config where
  /-- The C compiler. -/
  cc : String
  cflags : List String
  ldflags : List String
  /-- The build directory that is kept. -/
  compilePath : Option String
  /-- Whether the kept build directory is used. -/
  cache : Bool
  /-- Whether temporary build directories stay. -/
  preserve : Bool
  deriving DecidableEq, Repr

/-- Reads a text as a value. All of it has to be in order, also what is passed over later. -/
def Json.read? (text : String) : Option Json := do
  let j ← Json.parse? text
  if j.denotes && j.depth ≤ Document.depthLimit then some j else none

namespace Config

def initial : Config := ⟨"cc", ["-O2", "-fPIC"], ["-lm"], none, true, false⟩

def settingNames : List String :=
  ["cc", "cflags", "ldflags", "compile_path", "cache", "preserve_src_dir"]

def toRecord (c : Config) : Record :=
  [("cc", .string c.cc), ("cflags", .ofList .string c.cflags),
    ("ldflags", .ofList .string c.ldflags), ("compile_path", .ofOption .string c.compilePath),
    ("cache", .bool c.cache), ("preserve_src_dir", .bool c.preserve)]

def texts? (j : Json) : Option (List String) := j.list? Json.text?

def setting? {α : Type} (r : Record) (name : String) (read : Json → Option α) (otherwise : α) :
    Option α :=
  match r.get? name with
  | none => some otherwise
  | some j => read j

/-- Members that are no settings are passed over. -/
def ofRecord? (r : Record) : Option Config := do
  return {
    cc := ← setting? r "cc" Json.text? initial.cc
    cflags := ← setting? r "cflags" texts? initial.cflags
    ldflags := ← setting? r "ldflags" texts? initial.ldflags
    compilePath := ← setting? r "compile_path" (Json.optional? Json.text?) initial.compilePath
    cache := ← setting? r "cache" Json.bool? initial.cache
    preserve := ← setting? r "preserve_src_dir" Json.bool? initial.preserve }

/-- The last of repeated settings wins. An array may stop early, but not go on. -/
def ofJson? : Json → Option Config
  | .object members => ofRecord? members.reverse
  | .array items =>
    if items.length ≤ settingNames.length then ofRecord? (settingNames.zip items) else none
  | _ => none

/-- What a file holds, checked to be a configuration by itself; none if there is no file. -/
def readLayer (d : Disk) (path : String) : Except BuildError (Option Json) :=
  match d.read path with
  | .error .notFound => .ok none
  | .error e => .error (.disk e)
  | .ok text =>
    match Json.read? text with
    | none => .error (.config path)
    | some j => if (ofJson? j).isSome then .ok (some j) else .error (.config path)

/-- The members of an object win. An array has none. -/
def merge (merged : Record) : Json → Record
  | .object members => merged.setAll members
  | _ => merged

def layered (d : Disk) : Record → List String → Except BuildError Record
  | merged, [] => .ok merged
  | merged, path :: rest => do
    match ← readLayer d path with
    | none => layered d merged rest
    | some layer => layered d (merge merged layer) rest

def loadFrom (d : Disk) (paths : List String) : Except BuildError Config := do
  let merged ← layered d initial.toRecord paths
  match ofRecord? merged with
  | some c => return c
  | none => .error (.config (paths.getLast?.getD ""))

/-- What the environment says wins. Flags are separated by white space. -/
def withEnvironment (c : Config) (getVar? : String → Option String) : Config :=
  { c with
    cc := (getVar? "CTREE_CC").getD c.cc
    cflags := ((getVar? "CTREE_CFLAGS").map Text.words).getD c.cflags
    ldflags := ((getVar? "CTREE_LDFLAGS").map Text.words).getD c.ldflags
    compilePath := (getVar? "CTREE_COMPILE_PATH").or c.compilePath }

def fileName : String := ".ctree.json"

def files (getVar? : String → Option String) : List String :=
  ((getVar? "HOME").map fun home => Path.join home fileName).toList ++ [fileName]

def load (d : Disk) (getVar? : String → Option String) : Except BuildError Config := do
  let c ← loadFrom d (files getVar?)
  return c.withEnvironment getVar?

def buildDirectory? (c : Config) : Option String := if c.cache then c.compilePath else none

end Config
end Arbor
