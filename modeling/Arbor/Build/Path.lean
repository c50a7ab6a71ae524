/-!
Paths as texts: parts between slashes, absolute if a slash comes first.
-/
namespace Arbor.Path

def isAbsolute (path : String) : Bool := path.toList.head? = some '/'

/-- A path below another one; an absolute path stands for itself. -/
def join (base name : String) : String :=
  if isAbsolute name then name
  else if base.isEmpty || base.toList.getLast? = some '/' then base ++ name
  else base ++ "/" ++ name

/-- Drops what adds nothing at the end of a path, given from its end: slashes and single dots. -/
def trimTail : List Char → List Char
  | '/' :: c :: rest => trimTail (c :: rest)
  | '.' :: '/' :: rest => trimTail ('/' :: rest)
  | path => path

def trimHead : List Char → List Char
  | '/' :: rest => trimHead rest
  | ['.'] => []
  | '.' :: '/' :: rest => trimHead rest
  | path => path

/-- A path as it is seen from a directory that it starts with. -/
def relativeTo (directory path : String) : String :=
  let stem := (join directory "").toList
  if stem.isPrefixOf path.toList then
    String.ofList (trimTail (trimHead (path.toList.drop stem.length)).reverse).reverse
  else path

def cutLast (path : List Char) : List Char × List Char :=
  ((path.takeWhile (· != '/')).reverse, path.dropWhile (· != '/'))

def parent? (path : String) : Option String :=
  match trimTail path.toList.reverse with
  | [] => none
  | ['/'] => none
  | tail => some (String.ofList (trimTail (cutLast tail).2).reverse)

def fileName? (path : String) : Option String :=
  let name := String.ofList (cutLast (trimTail path.toList.reverse)).1
  if name.isEmpty || name = "." || name = ".." then none else some name

/-- What follows the last dot of the name, unless the name starts there. -/
def extension? (path : String) : Option String := do
  let name ← fileName? path
  let tail := name.toList.reverse
  match tail.dropWhile (· != '.') with
  | _ :: _ :: _ => some (String.ofList (tail.takeWhile (· != '.')).reverse)
  | _ => none

def withFileName (path name : String) : String :=
  match fileName? path with
  | some _ => join ((parent? path).getD "") name
  | none => join path name

end Arbor.Path
