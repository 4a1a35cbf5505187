import PatternAutomata.Proofs.Pattern.Parsing

/-!
# Terms in print

A term is written in two ways: in postfix order, and as a text with parentheses around every
concatenation and union. Evaluation takes a term back from its postfix order and from no other
tokens. The text is a pattern that spells the term, so reading it gives the same postfix expression
again.
-/

namespace PatternAutomata

set_option autoImplicit false

namespace Regex

def tokens : Regex Letter → List Token
  | epsilon => [.epsilon]
  | leaf l => [.letter l]
  | star r => r.tokens ++ [.operator .star]
  | concat l r => l.tokens ++ r.tokens ++ [.operator .concat]
  | union l r => l.tokens ++ r.tokens ++ [.operator .union]

theorem mem_tokens {t : Regex Letter} {l : Letter} : Token.letter l ∈ t.tokens ↔ l ∈ t.leaves := by
  induction t with
  | epsilon => simp [tokens, leaves]
  | leaf a => simp [tokens, leaves]
  | star r ih => simp [tokens, leaves, ih]
  | concat l r ihl ihr => simp [tokens, leaves, ihl, ihr]
  | union l r ihl ihr => simp [tokens, leaves, ihl, ihr]

theorem evaluateAll_tokens (t : Regex Letter) (values : List (Regex Letter)) :
    Postfix.evaluateAll interpretation values t.tokens = .ok (t :: values) := by
  induction t generalizing values with
  | epsilon => rfl
  | leaf a => rfl
  | star r ih => exact Postfix.evaluateAll_trans (ih values) rfl
  | concat l r ihl ihr =>
    exact Postfix.evaluateAll_trans (Postfix.evaluateAll_trans (ihl values) (ihr (l :: values))) rfl
  | union l r ihl ihr =>
    exact Postfix.evaluateAll_trans (Postfix.evaluateAll_trans (ihl values) (ihr (l :: values))) rfl

/-- The tokens that a stack of terms was made from, the oldest first. -/
def stackTokens (values : List (Regex Letter)) : List Token := values.reverse.flatMap tokens

theorem stackTokens_cons (t : Regex Letter) (values : List (Regex Letter)) :
    stackTokens (t :: values) = stackTokens values ++ t.tokens := by
  simp [stackTokens]

theorem stackTokens_evaluateToken {values values' : List (Regex Letter)} {x : Token}
    (h : Postfix.evaluateToken interpretation values x = .ok values') :
    stackTokens values' = stackTokens values ++ [x] := by
  cases x with
  | epsilon =>
    cases h
    exact stackTokens_cons epsilon values
  | letter l =>
    cases h
    exact stackTokens_cons (leaf l) values
  | operator o =>
    cases o with
    | star =>
      rcases values with _ | ⟨r, below⟩ <;> cases h
      simp [stackTokens_cons, interpretation, tokens]
    | concat =>
      rcases values with _ | ⟨r, _ | ⟨l, below⟩⟩ <;> cases h
      simp [stackTokens_cons, interpretation, tokens]
    | union =>
      rcases values with _ | ⟨r, _ | ⟨l, below⟩⟩ <;> cases h
      simp [stackTokens_cons, interpretation, tokens]
  | opening => cases h
  | closing => cases h

theorem stackTokens_evaluateFrom {values : List (Regex Letter)} {xs : List Token} {t : Regex Letter}
    (h : Postfix.evaluateFrom interpretation values xs = .ok t) : t.tokens = stackTokens values ++ xs := by
  induction xs generalizing values with
  | nil =>
    rcases values with _ | ⟨r, _ | ⟨l, below⟩⟩ <;> cases h
    simp [stackTokens]
  | cons x xs ih =>
    unfold Postfix.evaluateFrom at h
    cases hx : Postfix.evaluateToken interpretation values x with
    | error e =>
      rw [hx] at h
      cases h
    | ok values' =>
      rw [hx] at h
      rw [ih h, stackTokens_evaluateToken hx, List.append_assoc]
      rfl

/-- The postfix expressions with a value are the terms in postfix order. -/
theorem ofPostfix_eq_ok {xs : List Token} {t : Regex Letter} : ofPostfix xs = .ok t ↔ t.tokens = xs := by
  constructor
  · intro h
    exact stackTokens_evaluateFrom h
  · intro h
    subst h
    have hvalue := Postfix.evaluateFrom_of_all (evaluateAll_tokens t []) []
    rw [List.append_nil] at hvalue
    exact hvalue

theorem exists_eq_map {xs : List Token} {t : Regex Letter} (hend : Token.letter .endMark ∉ xs)
    (h : ofPostfix xs = .ok t) : ∃ r : Regex Char, t = r.map Letter.char := by
  rw [ofPostfix_eq_map hend] at h
  cases hr : ofTokens xs with
  | error e =>
    rw [hr] at h
    cases h
  | ok r =>
    rw [hr] at h
    cases h
    exact ⟨r, rfl⟩

/-- A printed term is a factor of the grammar, so a star can stand behind it as it is. -/
theorem spells_text {r : Regex Char} (h : ∀ c ∈ r.leaves, Text.isAlphanumeric c = true ∧ c ≠ 'ε') :
    Spells .factor (r.map Letter.char).text r := by
  induction r with
  | epsilon => exact .factor .underscore
  | leaf c =>
    obtain ⟨alphanumeric, other⟩ := h c List.mem_cons_self
    exact .factor (.letter alphanumeric other)
  | star r ih => exact .star (ih h)
  | concat l r ihl ihr =>
    obtain ⟨hl, hr⟩ := List.forall_mem_append.mp h
    have hsequence := Spells.expression (.dot (.term (ihl hl)) (ihr hr))
    simpa [map, text] using Spells.factor (.group hsequence)
  | union l r ihl ihr =>
    obtain ⟨hl, hr⟩ := List.forall_mem_append.mp h
    have halternative := Spells.bar (.expression (.term (ihl hl))) (.term (ihr hr))
    simpa [map, text] using Spells.factor (.group halternative)

/-- A pattern that spells a term has the term's postfix order for tokens. -/
theorem ofPattern_of_spells {s : List Char} {r : Regex Char} (h : Spells .expression s r) :
    Postfix.ofPattern s = .ok (r.map Letter.char).tokens := by
  obtain ⟨xs, hxs, hr⟩ := exists_tokens_iff.mpr (spells_iff.mp h)
  have hterm : ofPostfix xs = .ok (r.map Letter.char) := by
    rw [ofPostfix_eq_map (endMark_not_mem hxs), hr]
    rfl
  rw [hxs, ofPostfix_eq_ok.mp hterm]

end Regex
end PatternAutomata
