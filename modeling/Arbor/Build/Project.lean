import Arbor.Build.Cache
import Arbor.Tree.WellFormed
import Arbor.Typing.Declare
/-!
From a project tree to compiled units: the tree is checked, declarations are filled in with one
scope for all files, and every file is rendered and compiled in order. Nothing is written before
all files are checked and filled.
-/
namespace Arbor

structure BuildSetting where
  registry : TypeRegistry
  rules : RenderRules
  compiler : Compiler
  directory : String

namespace Project

def unitName (t : Tree) (file : NodeId) : Except BuildError String :=
  match t.node file with
  | .ok (.file name _) => .ok name
  | .ok other => .error (.tree (.wrongKind "File" other.kindName file))
  | .error e => .error (.tree e)

def checkNames (t : Tree) (seen : List String) : List NodeId → Except BuildError Unit
  | [] => .ok ()
  | file :: rest => do
    let name ← unitName t file
    if seen.contains name then .error (.duplicateUnit name)
    else checkNames t (name :: seen) rest

/-- The files of a project; a file alone is a project too. -/
def files (t : Tree) (root : NodeId) : Except BuildError (List NodeId) := do
  let ids ← match t.node root with
    | .ok (.project ids) => .ok ids
    | .ok (.file _ _) => .ok [root]
    | .ok other => .error (.tree (.wrongKind "Project" other.kindName root))
    | .error e => .error (.tree e)
  checkNames t [] ids
  return ids

def fillFiles (registry : TypeRegistry) : List NodeId → FillM Unit
  | [] => pure ()
  | file :: rest => do
    Filling.fill registry file
    fillFiles registry rest

/-- A tree that is filled, and the files to build. The tree is given back also after an error,
with what was filled before. -/
def prepare (registry : TypeRegistry) (t : Tree) (root : NodeId) :
    Tree × Except BuildError (List NodeId) :=
  match t.validate root with
  | .error e => (t, .error (.tree e))
  | .ok () =>
    match files t root with
    | .error e => (t, .error e)
    | .ok ids =>
      match fillFiles registry ids (.start t) with
      | .ok () s => (s.tree, .ok ids)
      | .error e s => (s.tree, .error (.infer e))

def buildFile (s : BuildSetting) (t : Tree) (file : NodeId) : BuildM CompiledUnit := fun w =>
  match unitName t file with
  | .error e => .error e w
  | .ok name =>
    match Renderer.render ⟨t, s.registry, s.rules⟩ file with
    | .error e => .error (.render e) w
    | .ok text => Cache.materialize s.compiler s.directory name text w

def buildFiles (s : BuildSetting) (t : Tree) : List NodeId → BuildM (List CompiledUnit)
  | [] => pure []
  | file :: rest => do
    let unit ← buildFile s t file
    let units ← buildFiles s t rest
    return unit :: units

def compile (s : BuildSetting) (t : Tree) (root : NodeId) (w : Workshop) :
    Tree × EStateM.Result BuildError Workshop (List CompiledUnit) :=
  match prepare s.registry t root with
  | (t, .error e) => (t, .error e w)
  | (t, .ok ids) => (t, buildFiles s t ids w)

end Project
end Arbor
