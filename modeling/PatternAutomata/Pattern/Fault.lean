import PatternAutomata.Pattern.Token
import PatternAutomata.Text.Quoted

/-!
# Faults of a pattern

The causes for which a pattern is refused, with their wording. Indices count the characters of the
pattern from zero.
-/

namespace PatternAutomata

set_option autoImplicit false

/-- Why a postfix expression has no value. -/
inductive Malformed where
  | missingOperand (o : Operator)
  | parenthesis
  | empty
  | surplusOperands
  | reservedEndMark
  | noEndMark
deriving DecidableEq

namespace Malformed

def reason : Malformed → String
  | missingOperand .star => "'*' is missing its operand"
  | missingOperand .concat => "'.' is missing an operand"
  | missingOperand .union => "'|' is missing an operand"
  | parenthesis => "parenthesis in postfix expression"
  | empty => "empty expression"
  | surplusOperands => "operands without operator"
  | reservedEndMark => "the end marker is reserved"
  | noEndMark => "expression has no end marker"

end Malformed

/-- Why a pattern has no automaton. -/
inductive Fault where
  | invalidCharacter (c : Char) (index : Nat)
  | unbalancedParen (index : Option Nat)
  | malformed (cause : Malformed)
  | inconsistentPartition (state : Nat)
deriving DecidableEq

namespace Fault

def message : Fault → String
  | invalidCharacter c index => s!"invalid character {String.ofList (Text.quoted c)} at index {index}"
  | unbalancedParen (some index) => s!"unbalanced parenthesis at index {index}"
  | unbalancedParen none => "unbalanced parenthesis"
  | malformed cause => s!"malformed expression: {cause.reason}"
  | inconsistentPartition state => s!"minimization failed, state {state} has no consistent class"

end Fault
end PatternAutomata
