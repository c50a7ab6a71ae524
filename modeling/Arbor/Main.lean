import Arbor.Command.Run
/-!
The program.

It takes the paths that a command looks at into a disk, runs the command there, and carries what
has changed back. No programs are launched from here, so every compiler counts as missing: units
that are up to date are reused, others are written out as C text.
-/
namespace Arbor.Main

/-- Takes one path of the host into the disk. What cannot be read is a directory. -/
def take (d : Disk) (path : String) : IO Disk := do
  let place := Disk.placeOf d.current path
  try
    let bytes ← IO.FS.readBinFile path
    return d.mount place (.file ((String.fromUTF8? bytes).getD ""))
  catch
    | .noFileOrDirectory .. => return d
    | _ => return d.mount place .directory

def takeAll (d : Disk) (paths : List String) : IO Disk := paths.foldlM take d

def putBack (before : Disk) (place : Place) (entry : DiskEntry) : IO Unit := do
  unless before.entryAt? place = some entry do
    match entry with
    | .directory => IO.FS.createDirAll (Disk.pathOf place)
    | .file text => IO.FS.writeFile (Disk.pathOf place) text

def takeAway (after : Disk) (place : Place) (entry : DiskEntry) : IO Unit := do
  if (after.entryAt? place).isNone then
    match entry with
    | .directory => IO.FS.removeDirAll (Disk.pathOf place)
    | .file _ => IO.FS.removeFile (Disk.pathOf place)

def carryBack (before after : Disk) : IO Unit := do
  for (place, entry) in before.entries do
    takeAway after place entry
  for (place, entry) in after.entries do
    putBack before place entry

def environment : IO (Table String String) := do
  let names := ["HOME", "TMPDIR", "CTREE_CC", "CTREE_CFLAGS", "CTREE_LDFLAGS", "CTREE_COMPILE_PATH"]
  names.foldlM (fun table name => do
    match ← IO.getEnv name with
    | some text => return table.set name text
    | none => return table) []

/-- The disk with the paths a command looks at. Those that come to light on the way are taken in a
second round. -/
def hostFor (command : Command) : IO Host := do
  let table ← environment
  let host (d : Disk) : Host := ⟨d, table.get?, fun _ => .error .notFound⟩
  let current := Disk.placeOf [] (toString (← IO.currentDir))
  let d ← takeAll (.empty current) (Command.inputs (host (.empty current)) command)
  return host (← takeAll d (Command.inputs (host d) command))

end Arbor.Main

open Arbor in
def main (args : List String) : IO UInt32 := do
  match Command.parse? args with
  | none =>
    IO.eprintln Command.usage
    return 2
  | some command =>
    let host ← Main.hostFor command
    let report := Command.run host command
    Main.carryBack host.disk report.disk
    IO.print report.output
    IO.eprint report.errors
    return UInt32.ofNat report.code
