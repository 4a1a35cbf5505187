import PatternAutomata.Pattern.Fault

/-!
# Lexemes

A pattern is read character by character, and the concatenations that it leaves unwritten are
filled in: `a(b|c)*d` becomes `a.(b|c)*.d`.
-/

namespace PatternAutomata

set_option autoImplicit false

/-- A token and the index of the character it was read at. -/
structure Lexeme where
  token : Token
  index : Nat
deriving DecidableEq

namespace Lexeme

/-- Reads characters, the first of them at `index`, up to the first one that is no token. -/
def readFrom (index : Nat) : List Char → Except Fault (List Lexeme)
  | [] => .ok []
  | c :: cs =>
    match Token.ofChar? c with
    | none => .error (.invalidCharacter c index)
    | some token => (readFrom (index + 1) cs).map (⟨token, index⟩ :: ·)

/-- Puts a concatenation wherever one operand ends and the next begins. It takes the index of the
token behind it. -/
def join : List Lexeme → List Lexeme
  | [] => []
  | [x] => [x]
  | x :: y :: rest =>
    if x.token.endsOperand && y.token.startsOperand then x :: ⟨.operator .concat, y.index⟩ :: join (y :: rest)
    else x :: join (y :: rest)

def ofPattern (pattern : List Char) : Except Fault (List Lexeme) := (readFrom 0 pattern).map join

def text (lexemes : List Lexeme) : List Char := Token.text (lexemes.map token)

end Lexeme
end PatternAutomata
