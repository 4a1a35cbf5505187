import PatternAutomata.Text.Alphanumeric

/-!
# Tokens of a pattern

A pattern is written with alphanumeric letters, the empty word, the operators and parentheses.
Every token is one character long, both when it is read (`Token.ofChar?`) and when it is written
(`Token.char`).
-/

namespace PatternAutomata

set_option autoImplicit false

/-- What stands at a position of an expression: a character, or the mark behind the last symbol of
the input, which no pattern can contain. -/
inductive Letter where
  | char (c : Char)
  | endMark
deriving DecidableEq

inductive Operator where
  | union
  | concat
  | star
deriving DecidableEq

inductive Token where
  | epsilon
  | letter (l : Letter)
  | operator (o : Operator)
  | opening
  | closing
deriving DecidableEq

namespace Letter

def toChar : Letter → Char
  | char c => c
  | endMark => '#'

def char? : Letter → Option Char
  | char c => some c
  | endMark => none

end Letter

namespace Operator

/-- How tightly an operator binds; the greater, the tighter. -/
def precedence : Operator → Nat
  | union => 1
  | concat => 2
  | star => 3

def arity : Operator → Nat
  | union => 2
  | concat => 2
  | star => 1

def toChar : Operator → Char
  | union => '|'
  | concat => '.'
  | star => '*'

end Operator

namespace Token

/-- The token that a character of a pattern stands for. The empty word and the union have two
spellings each; every other alphanumeric character is a letter, and the end mark has none. -/
def ofChar? : Char → Option Token
  | '_' => some epsilon
  | 'ε' => some epsilon
  | '|' => some (operator .union)
  | '+' => some (operator .union)
  | '.' => some (operator .concat)
  | '*' => some (operator .star)
  | '(' => some opening
  | ')' => some closing
  | c => if Text.isAlphanumeric c then some (letter (.char c)) else none

/-- The characters that spell operators, parentheses, the empty word and the end mark are no letters. -/
theorem not_isAlphanumeric {c : Char} (h : c ∈ ['_', '|', '+', '.', '*', '(', ')', '#']) :
    Text.isAlphanumeric c = false := by
  simp only [List.mem_cons, List.not_mem_nil, or_false] at h
  rcases h with rfl | rfl | rfl | rfl | rfl | rfl | rfl | rfl <;> decide

theorem ofChar?_eq_letter {c : Char} {l : Letter} :
    ofChar? c = some (letter l) ↔ l = .char c ∧ Text.isAlphanumeric c = true ∧ c ≠ 'ε' := by
  unfold ofChar?
  split
  case h_2 => simp
  case h_9 hc _ _ _ _ _ _ =>
    generalize Text.isAlphanumeric c = b
    cases b with
    | false => simp
    | true => simpa [eq_comm] using fun _ => hc
  all_goals simp [not_isAlphanumeric]

def toChar : Token → Char
  | epsilon => '_'
  | letter l => l.toChar
  | operator o => o.toChar
  | opening => '('
  | closing => ')'

def isOperand : Token → Bool
  | epsilon => true
  | letter _ => true
  | _ => false

/-- Whether a part of an expression can end with the token. -/
def endsOperand : Token → Bool
  | epsilon => true
  | letter _ => true
  | operator .star => true
  | closing => true
  | _ => false

/-- Whether a part of an expression can begin with the token. -/
def startsOperand : Token → Bool
  | epsilon => true
  | letter _ => true
  | opening => true
  | _ => false

def operator? : Token → Option Operator
  | operator o => some o
  | _ => none

def text (tokens : List Token) : List Char := tokens.map toChar

end Token
end PatternAutomata
