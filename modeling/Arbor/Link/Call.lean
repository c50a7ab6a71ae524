import Arbor.Link.Module
/-!
Calls of loaded functions through their types.

Arguments go to registers by their class and in order, integers and pointers to the one file,
floating numbers to the other, so that a function finds its parameters where it expects them. A
single travels in the low half of a floating register. Of a result only the bits that its type
defines are kept.
-/
namespace Arbor

inductive RegisterClass where
  | integer
  | single
  | double
  deriving DecidableEq, Repr

inductive CallError where
  | symbolNotFound (name : String)
  | notAFunction (ty : CType)
  | arityMismatch (name : String) (expected got : Nat)
  | tooManyArguments (kind : String) (limit : Nat)
  | unsupportedType (ty : CType)
  | unconvertible (index : Nat) (value : Value) (ty : CType)
  deriving DecidableEq, Repr

def CallError.message : CallError → String
  | .symbolNotFound name => "symbol `" ++ name ++ "` not found in any linked unit"
  | .notAFunction ty => "`" ++ ty.display ++ "` is not a function type"
  | .arityMismatch name expected got =>
    "`" ++ name ++ "` takes " ++ toString expected ++ " arguments, got " ++ toString got
  | .tooManyArguments kind limit =>
    "too many " ++ kind ++ " arguments: at most " ++ toString limit ++ " are supported"
  | .unsupportedType ty => "type `" ++ ty.display ++ "` cannot cross the call boundary"
  | .unconvertible index value ty =>
    "argument " ++ toString index ++ " (" ++ value.describe ++ ") cannot be passed as `" ++
      ty.display ++ "`"

def CType.registerClass? : CType → Option RegisterClass
  | .scalar .void => none
  | .scalar .longDouble => none
  | .scalar .float => some .single
  | .scalar .double => some .double
  | .scalar _ => some .integer
  | .pointer _ => some .integer
  | .function _ _ => none

structure Callable where
  name : String
  function : NativeFunction
  result : CType
  params : List CType

namespace Callable

def classes : List CType → Except CallError (List RegisterClass)
  | [] => .ok []
  | ty :: rest =>
    match ty.registerClass? with
    | none => .error (.unsupportedType ty)
    | some c => do return c :: (← classes rest)

/-- A result of no type is fine; any other has to be of a class. -/
def checkResult (ty : CType) : Except CallError Unit :=
  if ty.isVoid || ty.registerClass?.isSome then .ok () else .error (.unsupportedType ty)

/-- A function through a type; its parameters have to fit in the registers. -/
def ofType (name : String) (function : NativeFunction) (ty : CType) : Except CallError Callable :=
  match ty with
  | .function result params => do
    let cs ← classes params
    let ints := cs.countP (· = .integer)
    if Registers.intCount < ints then
      .error (.tooManyArguments "integer" Registers.intCount)
    else if Registers.floatCount < cs.length - ints then
      .error (.tooManyArguments "floating" Registers.floatCount)
    else do
      checkResult result
      return ⟨name, function, result, params⟩
  | _ => .error (.notAFunction ty)

def signature (c : Callable) : CType := .function c.result c.params

def describe (c : Callable) : String :=
  "Callable \x7b name: " ++ Text.quoted c.name ++ ", signature: " ++
    Text.quoted c.signature.display ++ " \x7d"

/-- The floating number that a value is passed as; characters and truth values are none. -/
def floating? : Value → Option Binary64
  | .char _ => none
  | .bool _ => none
  | v => some v.toBinary64

def lowHalf (v : Binary32) : Binary64 := ⟨v.bits.toUInt64⟩

/-- Puts arguments into registers, from the `index`-th on. -/
def marshal (index : Nat) : List (Value × CType) → Registers → Except CallError Registers
  | [], r => .ok r
  | (value, ty) :: rest, r =>
    match ty.registerClass? with
    | none => .error (.unsupportedType ty)
    | some .integer =>
      match value.toInt64? with
      | some n => marshal (index + 1) rest { r with ints := r.ints ++ [n] }
      | none => .error (.unconvertible index value ty)
    | some .double =>
      match floating? value with
      | some v => marshal (index + 1) rest { r with floats := r.floats ++ [v] }
      | none => .error (.unconvertible index value ty)
    | some .single =>
      match floating? value with
      | some v => marshal (index + 1) rest { r with floats := r.floats ++ [lowHalf v.narrow] }
      | none => .error (.unconvertible index value ty)

/-- The bits of an integer result that its type defines. -/
def narrow (raw : Int64) : CType → Value
  | .scalar .char => .char raw.toUInt64.toUInt8
  | .scalar .uchar => .char raw.toUInt64.toUInt8
  | .scalar .short => .int raw.toInt16.toInt64
  | .scalar .ushort => .int raw.toUInt64.toUInt16.toUInt64.toInt64
  | .scalar .int => .int raw.toInt32.toInt64
  | .scalar .uint => .uint raw.toUInt64.toUInt32.toUInt64
  | .scalar .ulong => .uint raw.toUInt64
  | .pointer _ => .uint raw.toUInt64
  | _ => .int raw

def resultValue (ty : CType) (r : Returned) : Option Value :=
  if ty.isVoid then none
  else
    match ty.registerClass? with
    | some .double => some (.double r.float)
    | some .single => some (.float ⟨r.float.bits.toUInt32⟩)
    | _ => some (narrow r.int ty)

def call (c : Callable) (args : List Value) : Except CallError (Option Value) := do
  if args.length ≠ c.params.length then
    .error (.arityMismatch c.name c.params.length args.length)
  else
    let registers ← marshal 0 (args.zip c.params) ⟨[], []⟩
    return resultValue c.result (c.function registers)

end Callable

def Module.callable (m : Module) (name : String) (ty : CType) : Except CallError Callable :=
  match m.find? name with
  | none => .error (.symbolNotFound name)
  | some function => Callable.ofType name function ty

end Arbor
