import Arbor.CType.Basic
import Arbor.Document.Record
/-!
Types in documents: the name of a scalar, `Ptr` of a type, `FuncType` of `ret` and `args`.
-/
namespace Arbor

def Scalar.ofVariant? (name : String) (contents : Json) : Option Scalar :=
  match contents with
  | .null => Scalar.ofName? name
  | _ => none

namespace CType

/-- Reads a type that is nested in at most `depth` arrays and objects. -/
def ofJson? : (depth : Nat) → Json → Option CType
  | _, .string name => (Scalar.ofName? name).map .scalar
  | depth + 1, .object [(name, contents)] =>
    if name = "Ptr" then
      (ofJson? depth contents).map .pointer
    else if name = "FuncType" then
      match depth with
      | depth + 2 => do
        let r ← Record.ofJson? ["ret", "args"] contents
        let result ← r.required? "ret" (ofJson? (depth + 1))
        let params ← r.required? "args" (Json.list? (ofJson? depth))
        return .function result params
      | _ => none
    else
      (Scalar.ofVariant? name contents).map .scalar
  | _, _ => none

mutual

def toJson : CType → Json
  | .scalar s => .string s.name
  | .pointer pointee => .variant "Ptr" (toJson pointee)
  | .function result params =>
    .record "FuncType" [("ret", toJson result), ("args", .array (listToJson params))]

def listToJson : List CType → List Json
  | [] => []
  | ty :: rest => toJson ty :: listToJson rest

end

end CType
end Arbor
