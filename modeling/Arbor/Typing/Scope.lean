import Arbor.CType.Basic
import Arbor.Table
/-!
Lexical scopes: a stack of bindings from names to types, innermost first. There is always an
outermost scope, which is never left.
-/
namespace Arbor

structure Scopes where
  inner : List (Table String CType)
  outermost : Table String CType
  deriving DecidableEq, Repr

namespace Scopes

def empty : Scopes := ⟨[], []⟩

def all (s : Scopes) : List (Table String CType) := s.inner ++ [s.outermost]

def depth (s : Scopes) : Nat := s.inner.length + 1

def push (s : Scopes) : Scopes := { s with inner := [] :: s.inner }

def pop (s : Scopes) : Scopes := { s with inner := s.inner.tail }

/-- Binds a name in the innermost scope. A name bound there keeps its type; the flag says
whether the binding is new. -/
def bind (s : Scopes) (name : String) (ty : CType) : Scopes × Bool :=
  match s.inner with
  | [] =>
    if s.outermost.contains name then (s, false)
    else ({ s with outermost := s.outermost.set name ty }, true)
  | scope :: rest =>
    if scope.contains name then (s, false)
    else ({ s with inner := scope.set name ty :: rest }, true)

def lookup? (s : Scopes) (name : String) : Option CType :=
  s.all.findSome? (·.get? name)

def isBound (s : Scopes) (name : String) : Bool := (s.lookup? name).isSome

end Scopes
end Arbor
