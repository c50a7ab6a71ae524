import Arbor.Build.Config
import Arbor.Text.Quoted
/-!
Compilers turn a source file into a loadable artifact.

A compiler is anything that acts on a disk. The usual one runs a program of the host with a
command line and looks whether the artifact is there afterwards.
-/
namespace Arbor

def artifactExtension : String := "so"

/-- Compiles `source` to `artifact`. A compiler is told which of its runs this is. What it did to
the disk stays done if it fails. -/
abbrev Compiler := (run : Nat) → (source artifact : String) → EStateM BuildError Disk Unit

structure Exit where
  code : Nat
  errors : String
  disk : Disk

abbrev Program := List String → Disk → Exit

abbrev Programs := String → Except DiskError Program

structure CommandLine where
  program : String
  args : List String
  /-- Whether every word can be passed to a program. -/
  isPassable : Bool
  deriving DecidableEq, Repr

namespace CommandLine

/-- No word of a command line goes on after a NUL. -/
def isWord (text : String) : Bool := text.toList.all fun c => c.toNat != 0

/-- A word as a command line holds it: a fixed text stands for one that cannot be passed. -/
def word (text : String) : String := if isWord text then text else "<string-with-nul>"

def ofWords (program : String) (args : List String) : CommandLine :=
  ⟨word program, args.map word, (program :: args).all isWord⟩

def describe (c : CommandLine) : String :=
  " ".intercalate ((c.program :: c.args).map Text.quoted)

def launch (c : CommandLine) (programs : Programs) : Except LaunchError Program :=
  if !c.isPassable then .error .unpassableWord
  else
    match programs c.program with
    | .ok program => .ok program
    | .error e => .error (.noProgram e)

def run (c : CommandLine) (program : Program) (artifact : String) :
    EStateM BuildError Disk Unit := fun d =>
  let exit := program c.args d
  if exit.code ≠ 0 then
    .error (.compilerFailed c.describe ("exit status: " ++ toString exit.code) exit.errors) exit.disk
  else if exit.disk.exists? artifact then
    .ok () exit.disk
  else
    .error (.missingArtifact artifact) exit.disk

end CommandLine

def Config.commandLine (c : Config) (source artifact : String) : CommandLine :=
  .ofWords c.cc (["-shared"] ++ c.cflags ++ ["-o", artifact, source] ++ c.ldflags)

def Config.compiler (c : Config) (programs : Programs) : Compiler := fun _ source artifact d =>
  let line := c.commandLine source artifact
  match line.launch programs with
  | .error e => .error (.launch c.cc e) d
  | .ok program => line.run program artifact d

end Arbor
