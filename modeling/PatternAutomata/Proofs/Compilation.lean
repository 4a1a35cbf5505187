import PatternAutomata.Compilation
import PatternAutomata.Proofs.Dfa.Minimization
import PatternAutomata.Proofs.Dfa.Numbering
import PatternAutomata.Proofs.Pattern.Parsing
import PatternAutomata.Proofs.Regex.PositionQuotient

/-!
# Compiled patterns

Compilation succeeds for the patterns that the grammar derives, whatever the options, and the
automaton accepts the words of the term. After minimization the automaton depends on the language of
the pattern alone: patterns with one language have automata with the same numbers, whichever way they
are made.
-/

namespace PatternAutomata

set_option autoImplicit false

variable {o : Options} {s : List Char} {r : Regex Char} {d : Dfa} {tokens : List Token}

def Construction.ofRegex (r : Regex Char) : Construction → Dfa
  | positions => r.positionDfa
  | subsets => (Nfa.ofRegex r).toDfa

namespace Construction

/-- Both constructions are functions of the term of an expression and fail where it has none, with
the same faults. -/
theorem automaton_eq_map (c : Construction) (hend : Token.letter .endMark ∉ tokens) :
    c.automaton tokens = (Regex.ofTokens tokens).map c.ofRegex := by
  cases c with
  | positions =>
    simp only [automaton, Dfa.ofPostfix_eq_bind hend, Regex.ofTerm_withEndMark]
    rfl
  | subsets =>
    rw [automaton, Nfa.ofPostfix_eq_map]
    cases Regex.ofTokens tokens with
    | error e => rfl
    | ok r => rfl

theorem language_ofRegex (c : Construction) (r : Regex Char) : (c.ofRegex r).language = r.language := by
  cases c with
  | positions => exact r.language_positionDfa
  | subsets => exact (Nfa.language_toDfa _).trans (Nfa.language_ofRegex r)

theorem inRange_ofRegex (c : Construction) (r : Regex Char) : (c.ofRegex r).InRange := by
  cases c with
  | positions => exact r.wellFormed_positionDfa.inRange
  | subsets => exact (Nfa.wellFormed_toDfa _).inRange

theorem numbered_ofRegex (c : Construction) (r : Regex Char) : (c.ofRegex r).Numbered := by
  cases c with
  | positions => exact r.numbered_positionDfa
  | subsets => exact Nfa.numbered_toDfa _

end Construction

theorem minimized_ofRegex (c : Construction) (r : Regex Char) :
    ∃ d, minimized (c.ofRegex r) = .ok d ∧ d.Canonical ∧ d.language = r.language := by
  have hrange := c.inRange_ofRegex r
  obtain ⟨d, f, hd, hcollapse⟩ := Dfa.exists_minimize hrange
  refine ⟨d, ?_, hcollapse.canonical hrange (c.numbered_ofRegex r) ?_, ?_⟩
  · rw [minimized, hd]
    rfl
  · rw [c.language_ofRegex]
    exact r.exists_mem_language
  · rw [hcollapse.language_eq hrange, c.language_ofRegex]

theorem compileWith_of_tokens (htokens : Postfix.ofPattern s = .ok tokens) :
    compileWith o s = ((Regex.ofTokens tokens).mapError .malformed).bind fun r =>
      if o.minimize then minimized (o.construction.ofRegex r) else .ok (o.construction.ofRegex r) := by
  rw [compileWith, htokens, Except.bind, o.construction.automaton_eq_map (endMark_not_mem htokens)]
  cases Regex.ofTokens tokens with
  | error e => rfl
  | ok r => rfl

theorem compileWith_eq_ok : compileWith o s = .ok d ↔ ∃ e : Derivation .expression, e.text = s ∧
    (if o.minimize then minimized (o.construction.ofRegex e.toRegex)
      else .ok (o.construction.ofRegex e.toRegex)) = .ok d := by
  have hterm : compileWith o s = .ok d ↔ ∃ r, (∃ tokens, Postfix.ofPattern s = .ok tokens ∧
      Regex.ofTokens tokens = .ok r) ∧ (if o.minimize then minimized (o.construction.ofRegex r)
        else .ok (o.construction.ofRegex r)) = .ok d := by
    cases hp : Postfix.ofPattern s with
    | error e => simp [compileWith, hp, Except.bind]
    | ok tokens =>
      rw [compileWith_of_tokens hp]
      cases hr : Regex.ofTokens tokens with
      | error e => simp [hr, Except.mapError, Except.bind]
      | ok r => simp [hr, Except.mapError, Except.bind]
  rw [hterm]
  simp only [exists_tokens_iff]
  constructor
  · intro h
    obtain ⟨_, ⟨e, he, rfl⟩, hd⟩ := h
    exact ⟨e, he, hd⟩
  · intro h
    obtain ⟨e, he, hd⟩ := h
    exact ⟨_, ⟨e, he, rfl⟩, hd⟩

theorem exists_compileWith (o : Options) (e : Derivation .expression) :
    ∃ d, compileWith o e.text = .ok d ∧ d.language = e.toRegex.language := by
  obtain ⟨construction, minimize⟩ := o
  cases minimize with
  | true =>
    obtain ⟨d, hd, _, hlang⟩ := minimized_ofRegex construction e.toRegex
    exact ⟨d, compileWith_eq_ok.mpr ⟨e, rfl, hd⟩, hlang⟩
  | false =>
    exact ⟨_, compileWith_eq_ok.mpr ⟨e, rfl, rfl⟩, construction.language_ofRegex e.toRegex⟩

theorem canonical_of_compileWith {c : Construction} (h : compileWith ⟨c, true⟩ s = .ok d) :
    d.Canonical ∧ ∃ e : Derivation .expression, e.text = s ∧ d.language = e.toRegex.language := by
  obtain ⟨e, he, hd⟩ := compileWith_eq_ok.mp h
  obtain ⟨d', hd', hcanonical, hlang⟩ := minimized_ofRegex c e.toRegex
  rw [if_pos rfl, hd', Except.ok.injEq] at hd
  subst hd
  exact ⟨hcanonical, e, he, hlang⟩

/-- A pattern is compiled to an automaton that accepts the words of its term. -/
theorem compileWith_accepts_words (o : Options) (h : Spells .expression s r) :
    ∃ d, compileWith o s = .ok d ∧ ∀ w, d.isMatch w = true ↔ r.Matches w := by
  obtain ⟨e, rfl, rfl⟩ := spells_iff.mp h
  obtain ⟨d, hd, hlang⟩ := exists_compileWith o e
  refine ⟨d, hd, ?_⟩
  intro w
  rw [Dfa.isMatch_iff, hlang]
  exact Regex.mem_language

theorem compileWith_accepts_words_star :
    ∃ d, compileWith ⟨.subsets, true⟩ ['(', 'a', '|', '_', ')', '*', 'b'] = .ok d ∧
      ∀ w, d.isMatch w = true ↔
        (Regex.concat (.star (.union (.leaf 'a') .epsilon)) (.leaf 'b')).Matches w :=
  compileWith_accepts_words ⟨.subsets, true⟩
    (.expression (.adjoin (u := ['(', 'a', '|', '_', ')', '*'])
      (.term (.star (.factor (.group (.bar (.expression (.term (.factor (.letter (by decide) (by decide)))))
        (.term (.factor .underscore)))))))
      (.factor (.letter (by decide) (by decide)))))

theorem spells_of_compileWith {c : Construction} (h : compileWith ⟨c, true⟩ s = .ok d) :
    d.Canonical ∧ ∃ r, Spells .expression s r ∧ ∀ w, d.isMatch w = true ↔ r.Matches w := by
  obtain ⟨hd, e, rfl, hlang⟩ := canonical_of_compileWith h
  refine ⟨hd, e.toRegex, spells_iff.mpr ⟨e, rfl, rfl⟩, ?_⟩
  intro w
  rw [Dfa.isMatch_iff, hlang]
  exact Regex.mem_language

/-- Minimized automata of patterns have the same numbers exactly if they accept the same words, which are the
words of the patterns' terms, and in any case if they belong to one pattern. -/
theorem minimized_sameNumbering_iff {s₁ s₂ : List Char} {c₁ c₂ : Construction} {d₁ d₂ : Dfa}
    (h₁ : compileWith ⟨c₁, true⟩ s₁ = .ok d₁) (h₂ : compileWith ⟨c₂, true⟩ s₂ = .ok d₂) :
    ((∀ w, d₁.isMatch w = d₂.isMatch w) ↔ Dfa.SameNumbering d₁ d₂) ∧
      (∃ r₁ r₂, Spells .expression s₁ r₁ ∧ Spells .expression s₂ r₂ ∧
        ((∀ w, r₁.Matches w ↔ r₂.Matches w) ↔ Dfa.SameNumbering d₁ d₂)) ∧
      (s₁ = s₂ → Dfa.SameNumbering d₁ d₂) := by
  obtain ⟨hd₁, r₁, hs₁, hmatch₁⟩ := spells_of_compileWith h₁
  obtain ⟨hd₂, r₂, hs₂, hmatch₂⟩ := spells_of_compileWith h₂
  have hiff := hd₁.sameNumbering_iff hd₂
  have hterms : (∀ w, r₁.Matches w ↔ r₂.Matches w) ↔ Dfa.SameNumbering d₁ d₂ := by
    rw [← hiff]
    exact forall_congr' fun w => by rw [Bool.eq_iff_iff, hmatch₁, hmatch₂]
  refine ⟨hiff, ⟨r₁, r₂, hs₁, hs₂, hterms⟩, fun hs => hterms.mp fun w => ?_⟩
  rw [hs₁.eq_of_expression (hs ▸ hs₂)]

theorem minimized_sameNumbering_iff_swap :
    ∃ d₁ d₂, compileWith ⟨.positions, true⟩ ['a', '|', 'b'] = .ok d₁ ∧
      compileWith ⟨.subsets, true⟩ ['b', '+', 'a'] = .ok d₂ ∧ Dfa.SameNumbering d₁ d₂ := by
  let a : Derivation .term := .term (.factor (.letter 'a' (by decide) (by decide)))
  let b : Derivation .term := .term (.factor (.letter 'b' (by decide) (by decide)))
  obtain ⟨d₁, h₁, hlang₁⟩ := exists_compileWith ⟨.positions, true⟩ (.bar (.expression a) b)
  obtain ⟨d₂, h₂, hlang₂⟩ := exists_compileWith ⟨.subsets, true⟩ (.plus (.expression b) a)
  refine ⟨d₁, d₂, h₁, h₂, (minimized_sameNumbering_iff h₁ h₂).1.mp fun w => ?_⟩
  have hswap : d₁.language = d₂.language := by
    rw [hlang₁, hlang₂]
    exact Regex.language_union.trans ((add_comm _ _).trans Regex.language_union.symm)
  rw [Bool.eq_iff_iff, Dfa.isMatch_iff, Dfa.isMatch_iff, hswap]

end PatternAutomata
