import Arbor.Build.Project
import Arbor.Build.Session
import Arbor.Command.Options
import Arbor.Document.Tree
import Arbor.Tree.Walk
/-!
The commands: print the C text of a tree, check trees, compile a project.

A run takes what it needs of the host and gives back what it printed, its exit code and the disk
as it left it.
-/
namespace Arbor

structure Host where
  disk : Disk
  getVar? : String → Option String
  programs : Programs

def Host.temporaryRoot (h : Host) : String := (h.getVar? "TMPDIR").getD "/tmp"

structure Report where
  code : Nat
  output : String
  errors : String
  disk : Disk

inductive CommandError where
  | reading (file : String) (error : DiskError)
  | parsing (file : String)
  | noNode (id : NodeId)
  | emptyTree
  | tree (error : TreeError)
  | infer (error : InferError)
  | render (error : RenderError)
  | build (error : BuildError)
  deriving DecidableEq, Repr

def CommandError.message : CommandError → String
  | .reading file error => "Error reading " ++ file ++ ": " ++ error.message
  | .parsing file => "Error parsing " ++ file
  | .noNode id => "No node " ++ showId id
  | .emptyTree => "Tree is empty"
  | .tree error => error.message
  | .infer error => error.message
  | .render error => error.message
  | .build error => error.message

namespace Command

def usage : String :=
  "usage: render FILE [--root N] [--fill] | check FILE... | compile FILE [--root N] [--out-dir DIR]"

def loadTree (d : Disk) (file : String) : Except CommandError Tree :=
  match d.read file with
  | .error e => .error (.reading file e)
  | .ok text =>
    match Tree.parse? text with
    | some t => .ok t
    | none => .error (.parsing file)

/-- The node to work on: the one asked for, or the root above the last one. -/
def pickRoot (t : Tree) : Option NodeId → Except CommandError NodeId
  | some id => if (t.get? id).isSome then .ok id else .error (.noNode id)
  | none => if t.size = 0 then .error .emptyTree else .ok (t.root (t.size - 1))

def loadRoot (d : Disk) (file : String) (root : Option NodeId) :
    Except CommandError (Tree × NodeId) := do
  let t ← loadTree d file
  return (t, ← pickRoot t root)

def validated (t : Tree) (root : NodeId) : Except CommandError Unit :=
  match t.validate root with
  | .ok () => .ok ()
  | .error e => .error (.tree e)

def filled (t : Tree) (root : NodeId) : Except CommandError Tree :=
  match Filling.fill .builtin root (.start t) with
  | .ok () s => .ok s.tree
  | .error e _ => .error (.infer e)

def rendered (t : Tree) (root : NodeId) : Except CommandError String :=
  match t.render .builtin root with
  | .ok text => .ok text
  | .error e => .error (.render e)

def renderRoot (t : Tree) (root : NodeId) (fill : Bool) : Except CommandError String := do
  validated t root
  let t ← if fill then filled t root else pure t
  rendered t root

def mark (sign file text : String) : String := sign ++ " " ++ file ++ " - " ++ text

def failed (d : Disk) (text : String) : Report := ⟨1, "", text ++ "\n", d⟩

def runRender (d : Disk) (file : String) (root : Option NodeId) (fill : Bool) : Report :=
  match loadRoot d file root with
  | .error e => failed d e.message
  | .ok (t, root) =>
    match renderRoot t root fill with
    | .error e => failed d (mark "✗" file e.message)
    | .ok text => ⟨0, text ++ "\n", "", d⟩

def countNodes (d : Disk) (file : String) : Except CommandError Nat := do
  let (t, root) ← loadRoot d file none
  validated t root
  return (t.walk root).length

/-- Checks every file; one that is wrong does not stop the others. -/
def runCheck (d : Disk) : List String → Report
  | [] => ⟨0, "", "", d⟩
  | file :: rest =>
    let others := runCheck d rest
    match countNodes d file with
    | .ok count =>
      { others with output := mark "✓" file (toString count ++ " nodes") ++ "\n" ++ others.output }
    | .error e => { others with code := 1, errors := mark "✗" file e.message ++ "\n" ++ others.errors }

def outcomeWord : Outcome → String
  | .compiled => "compiled"
  | .reused => "reused"

def unitLine (unit : CompiledUnit) : String :=
  mark "✓" unit.name (unit.artifact ++ " (" ++ outcomeWord unit.outcome ++ ")") ++ "\n"

def configured (h : Host) (outDir : Option String) : Except BuildError Config := do
  let c ← Config.load h.disk h.getVar?
  match outDir with
  | some path => return { c with compilePath := some path, cache := true }
  | none => return c

def temporaryNote : String :=
  "note: build directory is temporary; pass --out-dir to keep artifacts\n"

/-- Compiles in an open build directory. A build that fails leaves its directory as it is, also a
temporary one. -/
def runBuild (h : Host) (file : String) (t : Tree) (root : NodeId) (c : Config) (s : Session)
    (d : Disk) : Report :=
  match (Project.compile ⟨.builtin, .empty, c.compiler h.programs, s.path⟩ t root ⟨d, 0⟩).2 with
  | .error e w => failed w.disk (mark "✗" file e.message)
  | .ok units w =>
    ⟨0, String.join (units.map unitLine), if c.buildDirectory?.isSome then "" else temporaryNote,
      s.finish w.disk⟩

def runCompile (h : Host) (file : String) (root : Option NodeId) (outDir : Option String) : Report :=
  match loadRoot h.disk file root with
  | .error e => failed h.disk e.message
  | .ok (t, root) =>
    match configured h outDir with
    | .error e => failed h.disk e.message
    | .ok c =>
      match Session.start c h.temporaryRoot h.disk with
      | .error e d => failed d e.message
      | .ok s d => runBuild h file t root c s d

def unitFiles (t : Tree) (directory : String) : List String :=
  t.nodes.flatMap fun node =>
    match node with
    | .file name _ =>
      [Cache.sourcePath directory name, Cache.artifactPath directory name,
        Cache.markerPath directory name]
    | _ => []

/-- The paths that a command looks at, as far as the disk tells. -/
def inputs (h : Host) : Command → List String
  | .render file _ _ => [file]
  | .check files => files
  | .compile file _ outDir =>
    let further := match loadTree h.disk file, configured h outDir with
      | .ok t, .ok c =>
        match c.buildDirectory? with
        | some directory => directory :: unitFiles t directory
        | none => [h.temporaryRoot]
      | _, _ => []
    file :: Config.files h.getVar? ++ further

def run (h : Host) : Command → Report
  | .render file root fill => runRender h.disk file root fill
  | .check files => runCheck h.disk files
  | .compile file root outDir => runCompile h file root outDir

def runWords (h : Host) (words : List String) : Report :=
  match parse? words with
  | some command => run h command
  | none => ⟨2, "", usage ++ "\n", h.disk⟩

end Command
end Arbor
