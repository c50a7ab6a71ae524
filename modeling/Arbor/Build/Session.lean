import Arbor.Build.Config
import Arbor.Text.Quoted
/-!
Build directories. A kept one is created where it is missing and stays. A temporary one has a name
of its own and is removed at the end, unless it is to be preserved.
-/
namespace Arbor

structure Session where
  path : String
  isTemporary : Bool
  deriving DecidableEq, Repr

namespace Session

def temporaryName (n : Nat) : String :=
  let digits := (toString n).toList
  "ctree-" ++ String.ofList (List.replicate (6 - digits.length) '0' ++ digits)

def createTemporary (d : Disk) (root : String) : (tries n : Nat) → Except BuildError (String × Disk)
  | 0, n => .error (.temporary (Path.join root (temporaryName n)) .alreadyExists)
  | tries + 1, n =>
    let path := Path.join root (temporaryName n)
    match d.createDirectory path with
    | .ok d => .ok (path, d)
    | .error .alreadyExists => createTemporary d root tries (n + 1)
    | .error e => .error (.temporary path e)

/-- A fresh temporary directory; one that is preserved is not temporary any more. -/
def temporary (root : String) (preserve : Bool) : EStateM BuildError Disk Session := fun d =>
  match createTemporary d (d.absolute root) (d.entries.length + 1) 0 with
  | .ok (path, d) => .ok ⟨path, !preserve⟩ d
  | .error e => .error e d

def persistent (path : String) : EStateM BuildError Disk Session := fun d =>
  match Disk.createAll path d with
  | .ok () d => .ok ⟨path, false⟩ d
  | .error e d => .error (.disk e) d

def start (c : Config) (root : String) : EStateM BuildError Disk Session :=
  match c.buildDirectory? with
  | some path => persistent path
  | none => temporary root c.preserve

def finish (s : Session) (d : Disk) : Disk := if s.isTemporary then d.removeAll s.path else d

def describe (s : Session) : String :=
  "BuildSession \x7b path: " ++ Text.quoted s.path ++ ", temporary: " ++
    (if s.isTemporary then "true" else "false") ++ " \x7d"

end Session
end Arbor
