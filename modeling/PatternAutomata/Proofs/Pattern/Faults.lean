import PatternAutomata.Proofs.Pattern.Balance
import PatternAutomata.Proofs.Pattern.Parsing

/-!
# Which faults a pattern can have

Reading fails at the first character that stands for nothing. Of the faults of an expression, only two
kinds are left once the parentheses are balanced: an operator can miss an operand, or there is nothing
to evaluate. As concatenations are filled in, no operand is ever left over.
-/

namespace PatternAutomata

set_option autoImplicit false

variable {s : List Char} {tokens : List Token} {index : Nat} {xs : List Lexeme}

/-- Every character stands for a token. -/
def Readable (s : List Char) : Prop := ∀ c ∈ s, Token.ofChar? c ≠ none

/-- Nested parentheses around nothing. -/
def Hollow (s : List Char) : Prop := ∃ k, s = List.replicate k '(' ++ List.replicate k ')'

theorem Lexeme.readFrom_cases (index : Nat) (s : List Char) :
    (Readable s ∧ ∃ xs, readFrom index s = .ok xs) ∨
      ∃ u c w, s = u ++ c :: w ∧ Readable u ∧ Token.ofChar? c = none ∧
        readFrom index s = .error (.invalidCharacter c (index + u.length)) := by
  induction s generalizing index with
  | nil => exact Or.inl ⟨nofun, [], rfl⟩
  | cons c s ih =>
    unfold readFrom
    cases hc : Token.ofChar? c with
    | none => exact Or.inr ⟨[], c, s, rfl, nofun, hc, rfl⟩
    | some t =>
      have hreadable : ∀ {u}, Readable u → Readable (c :: u) := by
        intro u hu
        refine List.forall_mem_cons.mpr ⟨?_, hu⟩
        rw [hc]
        exact Option.some_ne_none t
      rcases ih (index + 1) with ⟨hs, xs, hxs⟩ | ⟨u, d, w, rfl, hu, hd, herror⟩
      · refine Or.inl ⟨hreadable hs, ⟨t, index⟩ :: xs, ?_⟩
        simp only [hxs, Except.map]
      · refine Or.inr ⟨c :: u, d, w, rfl, hreadable hu, hd, ?_⟩
        simp only [herror, Except.map, List.length_cons]
        rw [Nat.add_assoc, Nat.add_comm 1]

/-- A text is read up to a foreign character; without one, conversion finds a parenthesis that has no
partner or comes to an end. -/
theorem Postfix.ofPattern_cases (s : List Char) :
    (∃ u c w, s = u ++ c :: w ∧ Readable u ∧ Token.ofChar? c = none ∧
        ofPattern s = .error (.invalidCharacter c u.length)) ∨
      Readable s ∧ ((∃ i, Unpaired 0 s i ∧ ofPattern s = .error (.unbalancedParen (some i))) ∨
        Balanced s ∧ ∃ tokens, ofPattern s = .ok tokens) := by
  rcases Lexeme.readFrom_cases 0 s with ⟨hread, xs, hxs⟩ | ⟨u, c, w, rfl, hu, hc, herror⟩
  · refine Or.inr ⟨hread, ?_⟩
    have hconvert : ofPattern s = convert [] (Lexeme.joinFrom false xs) := by
      rw [ofPattern, Lexeme.ofPattern, hxs, ← Lexeme.join_eq]
      rfl
    have hchecked := checked_convert hxs false []
    rw [← hconvert] at hchecked
    generalize ofPattern s = v at hchecked
    cases hchecked with
    | balanced hs => exact Or.inr ⟨hs, _, rfl⟩
    | unpaired hi => exact Or.inl ⟨_, hi, by rw [Nat.zero_add]⟩
    | pending hk => cases hk
  · refine Or.inl ⟨u, c, w, rfl, hu, hc, ?_⟩
    rw [ofPattern, Lexeme.ofPattern, herror, Nat.zero_add]
    rfl

namespace Postfix

theorem evaluateToken_eq_error {stack : List (Regex Char)} {t : Token} {e : Malformed}
    (hparen : t.isParenthesis = false) (hend : t ≠ .letter .endMark)
    (h : evaluateToken Regex.charInterpretation stack t = .error e) : ∃ o, e = .missingOperand o := by
  cases t with
  | epsilon => cases h
  | letter l =>
    cases l with
    | char c => cases h
    | endMark => exact absurd rfl hend
  | operator o =>
    refine ⟨o, ?_⟩
    cases o with
    | star =>
      rcases stack with _ | ⟨x, stack⟩ <;> cases h
      rfl
    | concat =>
      rcases stack with _ | ⟨y, _ | ⟨x, stack⟩⟩ <;> cases h <;> rfl
    | union =>
      rcases stack with _ | ⟨y, _ | ⟨x, stack⟩⟩ <;> cases h <;> rfl
  | opening => cases hparen
  | closing => cases hparen

/-- An expression without parentheses and end mark misses an operand, is empty or has too many
operands for its operators. -/
theorem evaluateFrom_eq_error {stack : List (Regex Char)} {e : Malformed}
    (hparen : ∀ t ∈ tokens, t.isParenthesis = false) (hend : Token.letter .endMark ∉ tokens)
    (h : evaluateFrom Regex.charInterpretation stack tokens = .error e) :
    (∃ o, e = .missingOperand o) ∨ (e = .empty ∧ stack = [] ∧ tokens = []) ∨
      (e = .surplusOperands ∧ Token.binaries tokens + 1 < stack.length + Token.operands tokens) := by
  induction tokens generalizing stack with
  | nil =>
    match stack, h with
    | [], rfl => exact Or.inr (Or.inl ⟨rfl, rfl, rfl⟩)
    | y :: x :: below, rfl => exact Or.inr (Or.inr ⟨rfl, by simp⟩)
  | cons t tokens ih =>
    obtain ⟨ht, hparen⟩ := List.forall_mem_cons.mp hparen
    obtain ⟨htend, hend⟩ := List.ne_and_not_mem_of_not_mem_cons hend
    unfold evaluateFrom at h
    cases hstep : evaluateToken Regex.charInterpretation stack t with
    | error e' =>
      rw [hstep] at h
      cases h
      exact Or.inl (evaluateToken_eq_error ht (Ne.symm htend) hstep)
    | ok below =>
      rw [hstep] at h
      rcases ih hparen hend h with ho | ⟨_, hbelow, _⟩ | ⟨he, hcount⟩
      · exact Or.inl ho
      · obtain ⟨x, hx, _⟩ := exists_of_evaluateToken hstep
        cases hx.symm.trans hbelow
      · have hlength := length_evaluateToken hstep
        refine Or.inr (Or.inr ⟨he, ?_⟩)
        simp only [Token.operands_cons, Token.binaries_cons, Token.operands_nil, Token.binaries_nil]
          at hlength ⊢
        omega

theorem convert_eq_nil_iff (h : convert [] xs = .ok tokens) :
    tokens = [] ↔ ∀ x ∈ xs, x.token.isParenthesis = true := by
  have hperm : tokens.Perm ((xs.map Lexeme.token).filter fun t => !t.isParenthesis) := convert_perm h
  rw [← List.length_eq_zero_iff, hperm.length_eq, List.length_eq_zero_iff, List.filter_eq_nil_iff]
  simp

theorem ofTokens_eq_error {e : Malformed} (htokens : ofPattern s = .ok tokens)
    (h : Regex.ofTokens tokens = .error e) : (∃ o, e = .missingOperand o) ∨ (e = .empty ∧ tokens = []) := by
  obtain ⟨xs, _, hconvert⟩ := postfix_ofPattern_eq_ok.mp htokens
  have hparen : ∀ t ∈ tokens, t.isParenthesis = false := fun t ht => (mem_convert hconvert ht).1
  rcases evaluateFrom_eq_error hparen (endMark_not_mem htokens) h with ho | ⟨he, _, hnil⟩ | ⟨_, hcount⟩
  · exact Or.inl ho
  · exact Or.inr ⟨he, hnil⟩
  · have hle := Lexeme.operands_joinFrom_le false xs
    have hbinaries := binaries_convert hconvert
    rw [← operands_convert hconvert] at hle
    simp [waiting] at hbinaries hle hcount
    omega

end Postfix

theorem Lexeme.forall_mem_joinFrom_cons {ends : Bool} {x : Lexeme} :
    (∀ y ∈ joinFrom ends (x :: xs), y.token.isParenthesis = true) ↔
      x.token.isParenthesis = true ∧ (ends = true → x.token.startsOperand = false) ∧
        ∀ y ∈ joinFrom x.token.endsOperand xs, y.token.isParenthesis = true := by
  rw [joinFrom]
  cases ends <;> cases x.token.startsOperand <;> simp [Token.isParenthesis]

theorem Lexeme.forall_joinFrom_true (h : readFrom index s = .ok xs) :
    (∀ y ∈ joinFrom true xs, y.token.isParenthesis = true) ↔ ∀ c ∈ s, c = ')' := by
  induction s generalizing index xs with
  | nil =>
    cases h
    simp [joinFrom]
  | cons c s ih =>
    obtain ⟨t, rest, hc, hrest, rfl⟩ := readFrom_cons_eq_ok.mp h
    have hclosing := (Token.ofChar?_parentheses hc).2
    rw [forall_mem_joinFrom_cons, List.forall_mem_cons, ← hclosing]
    cases t with
    | closing => simpa [Token.isParenthesis, Token.startsOperand, Token.endsOperand] using ih hrest
    | _ => simp [Token.isParenthesis, Token.startsOperand]

theorem Lexeme.forall_joinFrom_false (h : readFrom index s = .ok xs) :
    (∀ y ∈ joinFrom false xs, y.token.isParenthesis = true) ↔
      ∃ k j, s = List.replicate k '(' ++ List.replicate j ')' := by
  induction s generalizing index xs with
  | nil =>
    cases h
    simp [joinFrom]
  | cons c s ih =>
    obtain ⟨t, rest, hc, hrest, rfl⟩ := readFrom_cons_eq_ok.mp h
    obtain ⟨hopening, hclosing⟩ := Token.ofChar?_parentheses hc
    simp only [forall_mem_joinFrom_cons, Bool.false_eq_true, false_implies, true_and]
    constructor
    · intro h
      obtain ⟨ht, hall⟩ := h
      cases t with
      | opening =>
        obtain ⟨k, j, rfl⟩ := (ih hrest).mp hall
        exact ⟨k + 1, j, by rw [hopening.mp rfl]; rfl⟩
      | closing =>
        have hs := List.eq_replicate_iff.mpr ⟨rfl, (forall_joinFrom_true hrest).mp hall⟩
        exact ⟨0, s.length + 1, by rw [hclosing.mp rfl, hs]; simp [List.replicate_succ]⟩
      | _ => cases ht
    · intro h
      obtain ⟨k, j, hs⟩ := h
      cases k with
      | zero =>
        cases j with
        | zero => cases hs
        | succ j =>
          obtain ⟨rfl, rfl⟩ := List.cons.inj hs
          obtain rfl := hclosing.mpr rfl
          exact ⟨rfl, (forall_joinFrom_true hrest).mpr fun d hd => List.eq_of_mem_replicate hd⟩
      | succ k =>
        obtain ⟨rfl, rfl⟩ := List.cons.inj hs
        obtain rfl := hopening.mpr rfl
        exact ⟨rfl, (ih hrest).mpr ⟨k, j, rfl⟩⟩

theorem tokens_eq_nil_iff (h : Postfix.ofPattern s = .ok tokens) (hs : Balanced s) :
    tokens = [] ↔ Hollow s := by
  obtain ⟨xs, hxs, hconvert⟩ := postfix_ofPattern_eq_ok.mp h
  rw [Postfix.convert_eq_nil_iff hconvert, Lexeme.forall_joinFrom_false hxs]
  constructor
  · intro h
    obtain ⟨k, j, rfl⟩ := h
    have hcount := hs.count_eq
    simp [parentheses, List.countP_append, List.countP_replicate] at hcount
    exact ⟨k, by rw [hcount]⟩
  · intro h
    obtain ⟨k, hk⟩ := h
    exact ⟨k, k, hk⟩

end PatternAutomata
