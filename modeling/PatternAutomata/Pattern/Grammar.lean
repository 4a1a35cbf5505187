import PatternAutomata.Regex.Basic

/-!
# The grammar of patterns

What a pattern is and which term it spells, said without reading it. Expressions are unions of
terms, terms concatenations of factors with or without a dot, factors starred atoms, and atoms
letters, the empty word or expressions in parentheses. Unions and concatenations associate to the
left.
-/

namespace PatternAutomata

set_option autoImplicit false

inductive Level where
  | atom
  | factor
  | term
  | expression
deriving DecidableEq

/-- The patterns of each level with the terms they spell. -/
inductive Spells : Level → List Char → Regex Char → Prop where
  | letter {c : Char} : Text.isAlphanumeric c = true → c ≠ 'ε' → Spells .atom [c] (.leaf c)
  | underscore : Spells .atom ['_'] .epsilon
  | epsilon : Spells .atom ['ε'] .epsilon
  | group {w : List Char} {r : Regex Char} : Spells .expression w r → Spells .atom ('(' :: (w ++ [')'])) r
  | factor {w : List Char} {r : Regex Char} : Spells .atom w r → Spells .factor w r
  | star {w : List Char} {r : Regex Char} : Spells .factor w r → Spells .factor (w ++ ['*']) (.star r)
  | term {w : List Char} {r : Regex Char} : Spells .factor w r → Spells .term w r
  | adjoin {u w : List Char} {l r : Regex Char} :
      Spells .term u l → Spells .factor w r → Spells .term (u ++ w) (.concat l r)
  | dot {u w : List Char} {l r : Regex Char} :
      Spells .term u l → Spells .factor w r → Spells .term (u ++ '.' :: w) (.concat l r)
  | expression {w : List Char} {r : Regex Char} : Spells .term w r → Spells .expression w r
  | bar {u w : List Char} {l r : Regex Char} :
      Spells .expression u l → Spells .term w r → Spells .expression (u ++ '|' :: w) (.union l r)
  | plus {u w : List Char} {l r : Regex Char} :
      Spells .expression u l → Spells .term w r → Spells .expression (u ++ '+' :: w) (.union l r)

end PatternAutomata
