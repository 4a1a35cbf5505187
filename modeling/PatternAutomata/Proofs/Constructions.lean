import PatternAutomata.Proofs.Compilation
import PatternAutomata.Proofs.Pattern.Printing

/-!
# Expressions that every construction refuses

Terms, automata of positions and composed automata are all made from postfix expressions. The end
mark that the positions need is put behind the expression before it is evaluated. This neither
repairs an expression nor breaks one: the three constructions take the same expressions, those of the
terms in postfix order, and refuse every other one with the same fault.
-/

namespace PatternAutomata

set_option autoImplicit false

variable {tokens : List Token}

/-- Each construction is a function of the term over characters, and has no faults of its own. -/
theorem constructions_eq_map (hend : Token.letter .endMark ∉ tokens) :
    Regex.ofPostfix tokens = (Regex.ofTokens tokens).map (Regex.map Letter.char) ∧
      Dfa.ofPostfix tokens = (Regex.ofTokens tokens).map Regex.positionDfa ∧
      Nfa.ofPostfix tokens = (Regex.ofTokens tokens).map Nfa.ofRegex :=
  ⟨Regex.ofPostfix_eq_map hend, Construction.positions.automaton_eq_map hend, Nfa.ofPostfix_eq_map tokens⟩

/-- An expression without the end mark is a term in postfix order, and all constructions succeed, or
it is none, and all fail with one fault. -/
theorem constructions_agree (hend : Token.letter .endMark ∉ tokens) :
    (∃ t d n, Regex.tokens t = tokens ∧
        Regex.ofPostfix tokens = .ok t ∧ Dfa.ofPostfix tokens = .ok d ∧ Nfa.ofPostfix tokens = .ok n) ∨
      ∃ e, (∀ t, Regex.tokens t ≠ tokens) ∧
        Regex.ofPostfix tokens = .error e ∧ Dfa.ofPostfix tokens = .error e ∧ Nfa.ofPostfix tokens = .error e := by
  obtain ⟨hterm, hdfa, hnfa⟩ := constructions_eq_map hend
  cases hr : Regex.ofTokens tokens with
  | ok r =>
    rw [hr] at hterm hdfa hnfa
    exact Or.inl ⟨_, _, _, Regex.ofPostfix_eq_ok.mp hterm, hterm, hdfa, hnfa⟩
  | error e =>
    rw [hr] at hterm hdfa hnfa
    refine Or.inr ⟨e, ?_, hterm, hdfa, hnfa⟩
    intro t ht
    cases hterm.symm.trans (Regex.ofPostfix_eq_ok.mpr ht)

/-- Behind two operands the end mark has something to be concatenated to, and still one too many. -/
theorem constructions_agree_surplus :
    ∃ e, Dfa.ofPostfix [.letter (.char 'a'), .letter (.char 'b')] = .error e ∧
      Nfa.ofPostfix [.letter (.char 'a'), .letter (.char 'b')] = .error e ∧ e = .surplusOperands := by
  have hterm : Regex.ofPostfix [.letter (.char 'a'), .letter (.char 'b')] = .error .surplusOperands := rfl
  have hend : Token.letter .endMark ∉ [Token.letter (.char 'a'), .letter (.char 'b')] := by simp
  rcases constructions_agree hend with h | h
  · obtain ⟨t, _, _, _, ht, _⟩ := h
    cases hterm.symm.trans ht
  · obtain ⟨e, _, he, hdfa, hnfa⟩ := h
    cases hterm.symm.trans he
    exact ⟨.surplusOperands, hdfa, hnfa, rfl⟩

end PatternAutomata
