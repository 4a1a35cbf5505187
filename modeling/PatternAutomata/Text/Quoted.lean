import PatternAutomata.Text.Hidden

/-!
# Quoted characters

A character in a message stands in single quotes. A few have a short escape, the hidden ones are
written by their code point, and every other character is written as itself.
-/

namespace PatternAutomata.Text

set_option autoImplicit false

def shortEscape? : Char → Option Char
  | '\x00' => some '0'
  | '\t' => some 't'
  | '\n' => some 'n'
  | '\r' => some 'r'
  | '\'' => some '\''
  | '\\' => some '\\'
  | _ => none

def escaped (c : Char) : List Char :=
  match shortEscape? c with
  | some e => ['\\', e]
  | none => if isHidden c then ['\\', 'u', '\x7b'] ++ Nat.toDigits 16 c.toNat ++ ['\x7d'] else [c]

def quoted (c : Char) : List Char := '\'' :: (escaped c ++ ['\''])

end PatternAutomata.Text
