import Arbor.Table
import Arbor.Text.Quoted
/-!
Rules for extension nodes. A rule is kept under the kind it renders; registering a kind again
replaces its rule.
-/
namespace Arbor

/-- What is made of an extension node and its children, besides the text of the rule. -/
inductive RuleStyle where
  /-- The text, and on the next line the children as a block. -/
  | block
  /-- The text, and the children as statements one level deeper. -/
  | statements
  /-- The text as a callee with the children as arguments. -/
  | call
  /-- The text and the attributes in brackets. -/
  | attributes
  /-- The spelling of `long*`. -/
  | spelling
  /-- The text alone. -/
  | text
  deriving DecidableEq, Repr

structure RenderRule where
  selfTerminating : Bool
  style : RuleStyle
  text : String
  deriving DecidableEq, Repr

abbrev RenderRules := Table String RenderRule

namespace RenderRules

def empty : RenderRules := []

def register (rules : RenderRules) (kind : String) (rule : RenderRule) : RenderRules × Bool :=
  (rules.set kind rule, rules.contains kind)

def describe (rules : RenderRules) : String :=
  "RenderRules \x7b kinds: " ++ Text.quotedList (rules.keys.mergeSort fun a b => a ≤ b) ++ " \x7d"

end RenderRules
end Arbor
