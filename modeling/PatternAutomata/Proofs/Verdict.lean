import PatternAutomata.Proofs.Compilation
import PatternAutomata.Proofs.Pattern.Faults

/-!
# The verdict on a pattern

Whether a pattern is compiled, and what is wrong with one that is not, can be told from its text: the
first foreign character comes before the parentheses, and these before the operands. The options have
no part in it, since both constructions evaluate the same expression and minimization never fails.
-/

namespace PatternAutomata

set_option autoImplicit false

variable {s : List Char} {tokens : List Token}

/-- What a text deserves. Each verdict is given where none of the earlier ones is. -/
inductive Verdict : List Char → Except Fault Unit → Prop where
  | foreign {u w : List Char} {c : Char} : Readable u → Token.ofChar? c = none →
      Verdict (u ++ c :: w) (.error (.invalidCharacter c u.length))
  | unbalanced {s : List Char} {i : Nat} : Readable s → ¬ Balanced s → Unpaired 0 s i →
      Verdict s (.error (.unbalancedParen (some i)))
  | empty {s : List Char} : Readable s → Balanced s → (∀ r, ¬ Spells .expression s r) → Hollow s →
      Verdict s (.error (.malformed .empty))
  | missingOperand {s : List Char} {o : Operator} : Readable s → Balanced s →
      (∀ r, ¬ Spells .expression s r) → ¬ Hollow s → Verdict s (.error (.malformed (.missingOperand o)))
  | compiled {s : List Char} {r : Regex Char} : Readable s → Balanced s → Spells .expression s r →
      Verdict s (.ok ())

theorem compileWith_of_ofPattern_eq_error {e : Fault} (h : Postfix.ofPattern s = .error e) (o : Options) :
    compileWith o s = .error e := by
  rw [compileWith, h]
  rfl

theorem compileWith_of_ofTokens_eq_error {e : Malformed} (htokens : Postfix.ofPattern s = .ok tokens)
    (h : Regex.ofTokens tokens = .error e) (o : Options) : compileWith o s = .error (.malformed e) := by
  rw [compileWith_of_tokens htokens, h]
  rfl

theorem verdict_of_ofTokens_eq_error {e : Malformed} (hread : Readable s) (hs : Balanced s)
    (htokens : Postfix.ofPattern s = .ok tokens) (h : Regex.ofTokens tokens = .error e) :
    Verdict s (.error (.malformed e)) := by
  have hspells : ∀ r, ¬ Spells .expression s r := by
    intro r hr
    obtain ⟨tokens', htokens', hr⟩ := exists_tokens_iff.mpr (spells_iff.mp hr)
    rw [htokens, Except.ok.injEq] at htokens'
    rw [← htokens', h] at hr
    cases hr
  have hhollow := tokens_eq_nil_iff htokens hs
  by_cases hnil : tokens = []
  · rw [hnil] at h
    cases h
    exact .empty hread hs hspells (hhollow.mp hnil)
  · rcases Postfix.ofTokens_eq_error htokens h with ⟨o, rfl⟩ | ⟨_, h⟩
    · exact .missingOperand hread hs hspells (mt hhollow.mpr hnil)
    · exact absurd h hnil

theorem exists_verdict (s : List Char) : ∃ v, Verdict s v ∧ ∀ o, (compileWith o s).map (fun _ => ()) = v := by
  have hfault : ∀ {e : Fault}, (∀ o, compileWith o s = .error e) →
      ∀ o, (compileWith o s).map (fun _ => ()) = .error e := by
    intro e h o
    rw [h o]
    rfl
  rcases Postfix.ofPattern_cases s with
    ⟨u, c, w, rfl, hu, hc, herror⟩ | ⟨hread, ⟨i, hi, herror⟩ | ⟨hs, tokens, htokens⟩⟩
  · exact ⟨_, .foreign hu hc, hfault (compileWith_of_ofPattern_eq_error herror)⟩
  · exact ⟨_, .unbalanced hread hi.not_closes hi, hfault (compileWith_of_ofPattern_eq_error herror)⟩
  · cases hr : Regex.ofTokens tokens with
    | error e =>
      have hverdict := verdict_of_ofTokens_eq_error hread hs htokens hr
      exact ⟨_, hverdict, hfault (compileWith_of_ofTokens_eq_error htokens hr)⟩
    | ok r =>
      obtain ⟨e, rfl, rfl⟩ := exists_tokens_iff.mp ⟨tokens, htokens, hr⟩
      refine ⟨_, .compiled hread hs e.spells, ?_⟩
      intro o
      obtain ⟨d, hd, _⟩ := exists_compileWith o e
      rw [hd]
      rfl

/-- Compilation returns the verdict on a text whatever the options. No text has the faults that only
an expression of another origin or an automaton of its own can have. -/
theorem compileWith_verdict (s : List Char) :
    (∃ v, Verdict s v ∧ ∀ o, (compileWith o s).map (fun _ => ()) = v) ∧
      ∀ o e, compileWith o s = .error e → (∀ state, e ≠ .inconsistentPartition state) ∧
        ∀ cause, e = .malformed cause → (cause.reason = "empty expression" ↔ Hollow s) ∧
          cause.reason ∉ ["operands without operator", "parenthesis in postfix expression",
            "the end marker is reserved", "expression has no end marker"] := by
  obtain ⟨v, hv, hall⟩ := exists_verdict s
  refine ⟨⟨v, hv, hall⟩, ?_⟩
  intro o e he
  have hverdict := hall o
  rw [he] at hverdict
  obtain rfl := hverdict
  cases hv with
  | foreign _ _ => exact ⟨nofun, nofun⟩
  | unbalanced _ _ _ => exact ⟨nofun, nofun⟩
  | empty _ _ _ hhollow =>
    refine ⟨nofun, ?_⟩
    intro cause hcause
    cases hcause
    exact ⟨iff_of_true rfl hhollow, by decide⟩
  | @missingOperand _ p _ _ _ hhollow =>
    refine ⟨nofun, ?_⟩
    intro cause hcause
    cases hcause
    refine ⟨iff_of_false ?_ hhollow, ?_⟩
    · cases p <;> decide
    · cases p <;> decide

end PatternAutomata
