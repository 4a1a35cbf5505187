import PatternAutomata.Pattern.Grammar
import PatternAutomata.Pattern.Lexeme

/-!
# Derivations of patterns

A derivation records which rules of the grammar spell a pattern, and how the empty word, unions and
concatenations are written. It has a text, the pattern, and a term, in which neither parentheses nor
spellings are left. The symbols are the characters that derivations are written with.
-/

namespace PatternAutomata

set_option autoImplicit false

inductive Derivation : Level → Type where
  | letter (c : Char) (alphanumeric : Text.isAlphanumeric c = true) (other : c ≠ 'ε') : Derivation .atom
  | underscore : Derivation .atom
  | epsilon : Derivation .atom
  | group (e : Derivation .expression) : Derivation .atom
  | factor (a : Derivation .atom) : Derivation .factor
  | star (f : Derivation .factor) : Derivation .factor
  | term (f : Derivation .factor) : Derivation .term
  | adjoin (t : Derivation .term) (f : Derivation .factor) : Derivation .term
  | dot (t : Derivation .term) (f : Derivation .factor) : Derivation .term
  | expression (t : Derivation .term) : Derivation .expression
  | bar (e : Derivation .expression) (t : Derivation .term) : Derivation .expression
  | plus (e : Derivation .expression) (t : Derivation .term) : Derivation .expression

namespace Derivation

def text {level : Level} : Derivation level → List Char
  | letter c _ _ => [c]
  | underscore => ['_']
  | epsilon => ['ε']
  | group e => '(' :: (e.text ++ [')'])
  | factor a => a.text
  | star f => f.text ++ ['*']
  | term f => f.text
  | adjoin t f => t.text ++ f.text
  | dot t f => t.text ++ '.' :: f.text
  | expression t => t.text
  | bar e t => e.text ++ '|' :: t.text
  | plus e t => e.text ++ '+' :: t.text

def toRegex {level : Level} : Derivation level → Regex Char
  | letter c _ _ => .leaf c
  | underscore => .epsilon
  | epsilon => .epsilon
  | group e => e.toRegex
  | factor a => a.toRegex
  | star f => .star f.toRegex
  | term f => f.toRegex
  | adjoin t f => .concat t.toRegex f.toRegex
  | dot t f => .concat t.toRegex f.toRegex
  | expression t => t.toRegex
  | bar e t => .union e.toRegex t.toRegex
  | plus e t => .union e.toRegex t.toRegex

theorem spells {level : Level} (e : Derivation level) : Spells level e.text e.toRegex := by
  induction e with
  | letter c alphanumeric other => exact .letter alphanumeric other
  | underscore => exact .underscore
  | epsilon => exact .epsilon
  | group _ ih => exact .group ih
  | factor _ ih => exact .factor ih
  | star _ ih => exact .star ih
  | term _ ih => exact .term ih
  | adjoin _ _ iht ihf => exact .adjoin iht ihf
  | dot _ _ iht ihf => exact .dot iht ihf
  | expression _ ih => exact .expression ih
  | bar _ _ ihe iht => exact .bar ihe iht
  | plus _ _ ihe iht => exact .plus ihe iht

end Derivation

theorem spells_iff {level : Level} {w : List Char} {r : Regex Char} :
    Spells level w r ↔ ∃ e : Derivation level, e.text = w ∧ e.toRegex = r := by
  constructor
  · intro h
    induction h with
    | letter alphanumeric other => exact ⟨.letter _ alphanumeric other, rfl, rfl⟩
    | underscore => exact ⟨.underscore, rfl, rfl⟩
    | epsilon => exact ⟨.epsilon, rfl, rfl⟩
    | group _ ih =>
      obtain ⟨e, rfl, rfl⟩ := ih
      exact ⟨.group e, rfl, rfl⟩
    | factor _ ih =>
      obtain ⟨e, rfl, rfl⟩ := ih
      exact ⟨.factor e, rfl, rfl⟩
    | star _ ih =>
      obtain ⟨e, rfl, rfl⟩ := ih
      exact ⟨.star e, rfl, rfl⟩
    | term _ ih =>
      obtain ⟨e, rfl, rfl⟩ := ih
      exact ⟨.term e, rfl, rfl⟩
    | adjoin _ _ iht ihf =>
      obtain ⟨t, rfl, rfl⟩ := iht
      obtain ⟨f, rfl, rfl⟩ := ihf
      exact ⟨.adjoin t f, rfl, rfl⟩
    | dot _ _ iht ihf =>
      obtain ⟨t, rfl, rfl⟩ := iht
      obtain ⟨f, rfl, rfl⟩ := ihf
      exact ⟨.dot t f, rfl, rfl⟩
    | expression _ ih =>
      obtain ⟨e, rfl, rfl⟩ := ih
      exact ⟨.expression e, rfl, rfl⟩
    | bar _ _ ihe iht =>
      obtain ⟨e, rfl, rfl⟩ := ihe
      obtain ⟨t, rfl, rfl⟩ := iht
      exact ⟨.bar e t, rfl, rfl⟩
    | plus _ _ ihe iht =>
      obtain ⟨e, rfl, rfl⟩ := ihe
      obtain ⟨t, rfl, rfl⟩ := iht
      exact ⟨.plus e t, rfl, rfl⟩
  · intro h
    obtain ⟨e, rfl, rfl⟩ := h
    exact e.spells

/-- The characters of the grammar, told apart by their spelling. -/
inductive Symbol where
  | letter (c : Char) (alphanumeric : Text.isAlphanumeric c = true) (other : c ≠ 'ε')
  | underscore
  | epsilon
  | bar
  | plus
  | dot
  | star
  | opening
  | closing

namespace Symbol

def toChar : Symbol → Char
  | letter c _ _ => c
  | underscore => '_'
  | epsilon => 'ε'
  | bar => '|'
  | plus => '+'
  | dot => '.'
  | star => '*'
  | opening => '('
  | closing => ')'

def token : Symbol → Token
  | letter c _ _ => .letter (.char c)
  | underscore => .epsilon
  | epsilon => .epsilon
  | bar => .operator .union
  | plus => .operator .union
  | dot => .operator .concat
  | star => .operator .star
  | opening => .opening
  | closing => .closing

def marks : List Symbol := [underscore, epsilon, bar, plus, dot, star, opening, closing]

def ofChar? (c : Char) : Option Symbol :=
  match marks.find? fun x => decide (x.toChar = c) with
  | some x => some x
  | none => if h : Text.isAlphanumeric c = true ∧ c ≠ 'ε' then some (letter c h.1 h.2) else none

theorem toChar_of_ofChar? {c : Char} {x : Symbol} (h : ofChar? c = some x) : x.toChar = c := by
  unfold ofChar? at h
  split at h
  · rename_i y hy
    cases h
    have hchar := List.find?_some hy
    exact of_decide_eq_true hchar
  · split at h
    · cases h
      rfl
    · cases h

theorem find?_marks_letter {c : Char} (alphanumeric : Text.isAlphanumeric c = true) (other : c ≠ 'ε') :
    marks.find? (fun x => decide (x.toChar = c)) = none := by
  have hne : ∀ d ∈ ['_', '|', '+', '.', '*', '(', ')', '#'], d ≠ c := by
    intro d hd h
    obtain rfl := h
    rw [Token.not_isAlphanumeric hd] at alphanumeric
    cases alphanumeric
  apply List.find?_eq_none.mpr
  intro x hx
  simp only [marks, List.mem_cons, List.not_mem_nil, or_false] at hx
  rw [decide_eq_true_eq]
  rcases hx with rfl | rfl | rfl | rfl | rfl | rfl | rfl | rfl
  · exact hne '_' (by simp)
  · exact Ne.symm other
  · exact hne '|' (by simp)
  · exact hne '+' (by simp)
  · exact hne '.' (by simp)
  · exact hne '*' (by simp)
  · exact hne '(' (by simp)
  · exact hne ')' (by simp)

@[simp] theorem ofChar?_toChar (x : Symbol) : ofChar? x.toChar = some x := by
  cases x with
  | letter c alphanumeric other =>
    change ofChar? c = some (letter c alphanumeric other)
    simp only [ofChar?, find?_marks_letter alphanumeric other]
    rw [dif_pos ⟨alphanumeric, other⟩]
  | _ => rfl

theorem token_ofChar? (c : Char) : Token.ofChar? c = (ofChar? c).map token := by
  unfold Token.ofChar?
  split
  case h_9 h1 h2 h3 h4 h5 h6 h7 h8 =>
    have hmarks : marks.find? (fun x => decide (x.toChar = c)) = none := by
      simp [marks, toChar, Ne.symm h1, Ne.symm h2, Ne.symm h3, Ne.symm h4, Ne.symm h5, Ne.symm h6,
        Ne.symm h7, Ne.symm h8]
    simp only [ofChar?, hmarks]
    by_cases hc : Text.isAlphanumeric c = true
    · rw [if_pos hc, dif_pos ⟨hc, h2⟩]
      rfl
    · rw [if_neg hc, dif_neg fun h => hc h.1]
      rfl
  all_goals rfl

end Symbol
end PatternAutomata
