import Arbor.Build.Disk
import Arbor.Render.Source
import Arbor.Text.Quoted
import Arbor.Typing.Infer
/-!
What can go wrong on the way from a tree to loaded code. The texts of the file system are its own;
those of a loader, and of what is wrong with a document, are left to them.
-/
namespace Arbor

inductive LaunchError where
  | noProgram (error : DiskError)
  | unpassableWord
  deriving DecidableEq, Repr

def LaunchError.message : LaunchError → String
  | .noProgram error => error.message
  | .unpassableWord => "nul byte found in provided data"

inductive BuildError where
  | disk (error : DiskError)
  | temporary (path : String) (error : DiskError)
  | config (path : String)
  | invalidUnitName (name : String)
  | launch (program : String) (error : LaunchError)
  | duplicateUnit (name : String)
  | compilerFailed (command status errors : String)
  | missingArtifact (path : String)
  | load (path : String)
  | registry (error : RegistryError)
  | tree (error : TreeError)
  | infer (error : InferError)
  | render (error : RenderError)
  deriving DecidableEq, Repr

def BuildError.message : BuildError → String
  | .disk error => "IO error: " ++ error.message
  | .temporary path error => "IO error: " ++ error.message ++ " at path " ++ Text.quoted path
  | .config path => "malformed configuration file " ++ path
  | .invalidUnitName name => "invalid compilation unit name `" ++ name ++ "`"
  | .launch program error => "failed to launch compiler `" ++ program ++ "`: " ++ error.message
  | .duplicateUnit name => "two files of one project are both named `" ++ name ++ "`"
  | .compilerFailed command status errors =>
    "compiler failed (" ++ status ++ "): " ++ command ++ "\n" ++ errors
  | .missingArtifact path => "compiler reported success but produced no artifact at " ++ path
  | .load path => "failed to load " ++ path
  | .registry error => error.message
  | .tree error => error.message
  | .infer error => error.message
  | .render error => error.message

end Arbor
