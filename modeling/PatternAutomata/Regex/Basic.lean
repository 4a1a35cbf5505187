import PatternAutomata.Pattern.Postfix

/-!
# Regular expressions

Terms over any type of leaves, the words they match, and their fully parenthesized text.
-/

namespace PatternAutomata

set_option autoImplicit false

inductive Regex (α : Type) where
  | epsilon
  | leaf (a : α)
  | star (r : Regex α)
  | concat (l r : Regex α)
  | union (l r : Regex α)
deriving DecidableEq

namespace Regex

variable {α : Type}

/-- The words of a term: a leaf matches itself, and a star any number of words one after the other. -/
inductive Matches : Regex α → List α → Prop where
  | epsilon : Matches epsilon []
  | leaf (a : α) : Matches (leaf a) [a]
  | concat {l r : Regex α} {u w : List α} : Matches l u → Matches r w → Matches (concat l r) (u ++ w)
  | left {l r : Regex α} {w : List α} : Matches l w → Matches (union l r) w
  | right {l r : Regex α} {w : List α} : Matches r w → Matches (union l r) w
  | starNil {r : Regex α} : Matches (star r) []
  | starCons {r : Regex α} {u w : List α} : Matches r u → Matches (star r) w → Matches (star r) (u ++ w)

def size : Regex α → Nat
  | epsilon => 1
  | leaf _ => 1
  | star r => r.size + 1
  | concat l r => l.size + r.size + 1
  | union l r => l.size + r.size + 1

def leaves : Regex α → List α
  | epsilon => []
  | leaf a => [a]
  | star r => r.leaves
  | concat l r => l.leaves ++ r.leaves
  | union l r => l.leaves ++ r.leaves

/-- Postfix expressions as terms over their letters. -/
def interpretation : Postfix.Interpretation (Regex Letter) where
  epsilon := epsilon
  letter l := .ok (leaf l)
  star := star
  concat := concat
  union := union

def ofPostfix (tokens : List Token) : Except Malformed (Regex Letter) := Postfix.evaluate interpretation tokens

/-- The text of a term with parentheses around every concatenation and union. -/
def text : Regex Letter → List Char
  | epsilon => ['_']
  | leaf l => [l.toChar]
  | star r => r.text ++ ['*']
  | concat l r => '(' :: (l.text ++ '.' :: (r.text ++ [')']))
  | union l r => '(' :: (l.text ++ '|' :: (r.text ++ [')']))

end Regex
end PatternAutomata
