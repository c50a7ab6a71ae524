import Arbor.Json.Numeral
import Arbor.Table
/-!
Command lines.

Options may stand before or after the other words. The value of an option is the next word, or
follows in the same one; flags of one letter may be written together. After `--` all words are
operands. No option is given twice.
-/
namespace Arbor

inductive Command where
  | render (file : String) (root : Option Nat) (fill : Bool)
  | check (files : List String)
  | compile (file : String) (root : Option Nat) (outDir : Option String)
  deriving DecidableEq, Repr

namespace Command

structure OptionSpec where
  letter : Char
  name : String
  takesValue : Bool
  deriving DecidableEq, Repr

/-- What a command line gives: options by name, flags with an empty value, and operands. -/
structure Words where
  options : Table String String
  operands : List String
  deriving DecidableEq, Repr

def rootOption : OptionSpec := ⟨'r', "root", true⟩

def fillOption : OptionSpec := ⟨'f', "fill", false⟩

def outDirOption : OptionSpec := ⟨'o', "out-dir", true⟩

/-- Whether a word starts options rather than being a value. -/
def isOption (word : String) : Bool :=
  match word.toList with
  | '-' :: _ :: _ => true
  | _ => false

namespace Words

def empty : Words := ⟨[], []⟩

def addOperand (w : Words) (word : String) : Words := { w with operands := word :: w.operands }

def addOption? (w : Words) (name value : String) : Option Words :=
  if w.options.contains name then none else some { w with options := w.options.set name value }

end Words

/-- What a cluster of letters gives: flags, and an option that still takes its value or has it. -/
structure Cluster where
  flags : List String
  last : Option (String × Option String)
  deriving DecidableEq, Repr

def dropEquals : List Char → List Char
  | '=' :: rest => rest
  | rest => rest

def cluster? (specs : List OptionSpec) : List Char → Option Cluster
  | [] => some ⟨[], none⟩
  | c :: rest => do
    let spec ← specs.find? (·.letter == c)
    if spec.takesValue then
      let value := if rest.isEmpty then none else some (String.ofList (dropEquals rest))
      return ⟨[], some (spec.name, value)⟩
    else
      let others ← cluster? specs rest
      return { others with flags := spec.name :: others.flags }

def long? (specs : List OptionSpec) (cs : List Char) : Option Cluster := do
  let name := String.ofList (cs.takeWhile (· != '='))
  let value := match cs.dropWhile (· != '=') with
    | _ :: rest => some (String.ofList rest)
    | [] => none
  let spec ← specs.find? (·.name == name)
  match spec.takesValue, value with
  | true, value => return ⟨[], some (name, value)⟩
  | false, none => return ⟨[name], none⟩
  | false, some _ => none

def optionsOf? (specs : List OptionSpec) (word : String) : Option Cluster :=
  match word.toList with
  | '-' :: '-' :: rest => long? specs rest
  | _ :: rest => cluster? specs rest
  | [] => none

def addFlags? (w : Words) (flags : List String) : Option Words :=
  flags.foldlM (fun w flag => w.addOption? flag "") w

/-- Reads words in order. Operands are gathered from the last to the first. -/
def scan? (specs : List OptionSpec) : Words → List String → Option Words
  | w, [] => some w
  | w, word :: rest =>
    if word = "--" then some (rest.foldl Words.addOperand w)
    else if !isOption word then scan? specs (w.addOperand word) rest
    else do
      let options ← optionsOf? specs word
      let w ← addFlags? w options.flags
      match options.last, rest with
      | none, rest => scan? specs w rest
      | some (name, some value), rest => scan? specs (← w.addOption? name value) rest
      | some (name, none), value :: rest =>
        if isOption value then none else scan? specs (← w.addOption? name value) rest
      | some (_, none), [] => none

def index? (text : String) : Option Nat :=
  let (negative, digits) := match text.toList with
    | '-' :: rest => (true, rest)
    | '+' :: rest => (false, rest)
    | rest => (false, rest)
  if digits.isEmpty || !Json.Numeral.isWhole digits then none
  else
    let n := Json.Numeral.ofDigits digits
    if (negative && n != 0) || UInt32.size ≤ n then none else some n

def nonempty? (text : String) : Option String := if text.isEmpty then none else some text

def setting? {α : Type} (w : Words) (spec : OptionSpec) (read : String → Option α) :
    Option (Option α) :=
  match w.options.get? spec.name with
  | none => some none
  | some text => (read text).map some

def operand? (w : Words) : Option String :=
  match w.operands with
  | [word] => nonempty? word
  | _ => none

def parse? : List String → Option Command
  | "render" :: rest => do
    let w ← scan? [rootOption, fillOption] .empty rest
    let root ← setting? w rootOption index?
    return .render (← operand? w) root (w.options.contains fillOption.name)
  | "check" :: rest => do
    let w ← scan? [] .empty rest
    return .check (← w.operands.reverse.mapM nonempty?)
  | "compile" :: rest => do
    let w ← scan? [rootOption, outDirOption] .empty rest
    let root ← setting? w rootOption index?
    let outDir ← setting? w outDirOption nonempty?
    return .compile (← operand? w) root outDir
  | _ => none

end Command
end Arbor
