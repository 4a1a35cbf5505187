import PatternAutomata.Pattern.Lexeme

/-!
# Postfix expressions

`Postfix.ofLexemes` turns infix into postfix order with a stack of operators that wait for their
right operand. All operators associate to the left. Only the parentheses are checked here; whether
every operator finds its operands shows when the expression is evaluated (`Postfix.evaluate`).
-/

namespace PatternAutomata.Postfix

set_option autoImplicit false

/-- An operator that waits for its right operand, or a parenthesis that waits to be closed. -/
inductive Pending where
  | opening (index : Nat)
  | operator (o : Operator)
deriving DecidableEq

namespace Pending

def isOperator : Pending → Bool
  | opening _ => false
  | operator _ => true

/-- Whether an operator leaves the stack before `o` enters it. -/
def yieldsTo (o : Operator) : Pending → Bool
  | opening _ => false
  | operator p => decide (o.precedence ≤ p.precedence)

def token? : Pending → Option Token
  | opening _ => none
  | operator o => some (.operator o)

def index? : Pending → Option Nat
  | opening index => some index
  | operator _ => none

end Pending

/-- Converts the lexemes behind a stack of pending ones, the newest first. -/
def convert (stack : List Pending) : List Lexeme → Except Fault (List Token)
  | [] =>
    match stack.findSome? Pending.index? with
    | some index => .error (.unbalancedParen (some index))
    | none => .ok (stack.filterMap Pending.token?)
  | ⟨.epsilon, _⟩ :: rest => (convert stack rest).map (Token.epsilon :: ·)
  | ⟨.letter l, _⟩ :: rest => (convert stack rest).map (Token.letter l :: ·)
  | ⟨.opening, index⟩ :: rest => convert (.opening index :: stack) rest
  | ⟨.closing, index⟩ :: rest =>
    match stack.dropWhile Pending.isOperator with
    | [] => .error (.unbalancedParen (some index))
    | _ :: below =>
      (convert below rest).map ((stack.takeWhile Pending.isOperator).filterMap Pending.token? ++ ·)
  | ⟨.operator o, _⟩ :: rest =>
    (convert (.operator o :: stack.dropWhile (Pending.yieldsTo o)) rest).map
      ((stack.takeWhile (Pending.yieldsTo o)).filterMap Pending.token? ++ ·)

def ofLexemes (lexemes : List Lexeme) : Except Fault (List Token) := convert [] lexemes

def ofPattern (pattern : List Char) : Except Fault (List Token) := (Lexeme.ofPattern pattern).bind ofLexemes

/-- What the operands and operators of an expression mean. -/
structure Interpretation (β : Type) where
  epsilon : β
  letter : Letter → Except Malformed β
  star : β → β
  concat : β → β → β
  union : β → β → β

variable {β : Type}

/-- Takes one token with the operands in front of it on the stack, the newest first. -/
def evaluateToken (i : Interpretation β) (stack : List β) : Token → Except Malformed (List β)
  | .epsilon => .ok (i.epsilon :: stack)
  | .letter l => (i.letter l).map (· :: stack)
  | .operator .star =>
    match stack with
    | x :: below => .ok (i.star x :: below)
    | [] => .error (.missingOperand .star)
  | .operator .concat =>
    match stack with
    | y :: x :: below => .ok (i.concat x y :: below)
    | _ => .error (.missingOperand .concat)
  | .operator .union =>
    match stack with
    | y :: x :: below => .ok (i.union x y :: below)
    | _ => .error (.missingOperand .union)
  | .opening => .error .parenthesis
  | .closing => .error .parenthesis

/-- Takes the tokens from left to right; in the end one operand must be left. -/
def evaluateFrom (i : Interpretation β) (stack : List β) : List Token → Except Malformed β
  | [] =>
    match stack with
    | [x] => .ok x
    | [] => .error .empty
    | _ => .error .surplusOperands
  | t :: rest => (evaluateToken i stack t).bind fun below => evaluateFrom i below rest

def evaluate (i : Interpretation β) (tokens : List Token) : Except Malformed β := evaluateFrom i [] tokens

end PatternAutomata.Postfix
