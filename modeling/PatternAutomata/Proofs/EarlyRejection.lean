import PatternAutomata.Proofs.Compilation
import PatternAutomata.Proofs.Nfa.Coaccessible

/-!
# Compiled patterns reject as early as possible

From every state of an automaton that is made of a pattern an accepting state can be reached. So a run
goes on as long as the symbols read can be continued to a word of the pattern and stops behind the
first symbol that cannot, and as this depends on the language alone, all automata of a pattern give
the same answers.
-/

namespace PatternAutomata

set_option autoImplicit false

namespace Dfa

variable {d s : Dfa} {f : Nat → Nat} {q : Nat} {w : List Char}

theorem mem_residual_iff_runFrom : w ∈ d.residual q ↔ (d.machine.runFrom q w).accepted = true := by
  rw [Machine.runFrom_accepted]
  exact Iff.rfl

theorem Productive.run_earliest (hword : d.Productive) (hd : d.InRange) (w : List Char) :
    (d.run w).Earliest d.language w :=
  Machine.runFrom_earliest hword (fun q c t _ ht => hd.targets_lt q c t ht) hd.nonempty w

theorem Quotient.productive (hf : Quotient s d f) (hs : s.InRange) (hword : s.Productive) : d.Productive := by
  intro t ht
  obtain ⟨q, hq, rfl⟩ := hf.onto t ht
  obtain ⟨w, hw⟩ := hword q hq
  rw [mem_residual_iff_runFrom] at hw
  exact ⟨w, mem_residual_iff_runFrom.mpr ((congrArg Run.accepted (hf.runFrom hs hq w)).trans hw)⟩

/-- Only the start of a canonical automaton is entered by no edge. -/
theorem Canonical.productive_states (hd : d.Canonical) (hword : ∃ w, w ∈ d.language) : d.Productive := by
  intro q hq
  obtain ⟨w, hw⟩ := hd.accessible q hq
  rcases List.eq_nil_or_concat' w with rfl | ⟨u, c, rfl⟩
  · rw [Machine.leads_nil.mp hw]
    exact hword
  · obtain ⟨p, _, hpq⟩ := Machine.leads_concat.mp hw
    exact hd.productive p c q hpq

end Dfa

theorem Nfa.occupied_of_leads {n : Nfa} (hn : 0 < n.size) {s : NatSet} {w : List Char}
    (h : n.machine.Leads w s) : n.Occupied s := by
  rcases List.eq_nil_or_concat' w with rfl | ⟨u, c, rfl⟩
  · rw [Machine.leads_nil.mp h]
    exact occupied_start hn
  · obtain ⟨t, _, hts⟩ := Machine.leads_concat.mp h
    exact Occupied.next hts

theorem Nfa.Coaccessible.productive_toDfa {n : Nfa} (hn : n.Coaccessible) (hsize : 0 < n.size) :
    n.toDfa.Productive := by
  have hlawful := lawful_setMachine n
  intro q hq
  have hlt : q < n.setMachine.keys.length := by rwa [← SetMachine.size_toDfa n.setMachine .nfaStates]
  have hkey := List.getElem?_eq_getElem hlt
  obtain ⟨u, hu⟩ := (SetMachine.mem_keys_iff hlawful).mp (List.mem_of_getElem? hkey)
  obtain ⟨w, hw⟩ := hn.exists_mem_words (occupied_of_leads hsize hu)
  refine ⟨w, Dfa.mem_residual_iff_runFrom.mpr ?_⟩
  have hrun : n.toDfa.machine.runFrom q w = _ := SetMachine.runFrom_toDfa hlawful hkey w
  exact (congrArg Run.accepted hrun).trans ((Machine.runFrom_accepted _ _ _).trans hw)

theorem Construction.productive_ofRegex (c : Construction) (r : Regex Char) : (c.ofRegex r).Productive := by
  have hsubsets : (Nfa.ofRegex r).toDfa.Productive :=
    (Nfa.coaccessible_ofRegex r).productive_toDfa (Nfa.wellFormed_ofRegex r).start_lt
  cases c with
  | subsets => exact hsubsets
  | positions =>
    obtain ⟨f, hf⟩ := r.exists_quotient_positionDfa
    exact hf.productive (Nfa.wellFormed_toDfa _).inRange hsubsets

theorem productive_of_compileWith {o : Options} {s : List Char} {d : Dfa} (h : compileWith o s = .ok d) :
    d.InRange ∧ d.Productive ∧ ∃ e : Derivation .expression, e.text = s ∧ d.language = e.toRegex.language := by
  obtain ⟨c, minimize⟩ := o
  cases minimize with
  | true =>
    obtain ⟨hcanonical, e, he, hlang⟩ := canonical_of_compileWith h
    refine ⟨hcanonical.toInRange, hcanonical.productive_states ?_, e, he, hlang⟩
    rw [hlang]
    exact e.toRegex.exists_mem_language
  | false =>
    obtain ⟨e, he, hd⟩ := compileWith_eq_ok.mp h
    cases hd
    exact ⟨c.inRange_ofRegex _, c.productive_ofRegex _, e, he, c.language_ofRegex _⟩

/-- The automaton with empty moves of a pattern that compiles, and all that compilation can make of
the pattern, stop behind the shortest prefix that no word of the pattern begins with; and in none of
them is a state from which no accepting state can be reached. -/
theorem compiled_runs_earliest {o : Options} {s : List Char} {d : Dfa} (h : compileWith o s = .ok d) :
    ∃ r tokens n, Spells .expression s r ∧ Postfix.ofPattern s = .ok tokens ∧ Nfa.ofPostfix tokens = .ok n ∧
      ((∀ w, (n.run w).Earliest r.language w) ∧ ∀ q, q < n.size → ∃ w, n.Path q w n.accept) ∧
        ∀ o', ∃ d', compileWith o' s = .ok d' ∧ (∀ w, d'.run w = n.run w) ∧
          ∀ q, q < d'.size → ∃ w t, d'.machine.walk q w = some t ∧ d'.accepts t = true := by
  obtain ⟨_, _, e, rfl, _⟩ := productive_of_compileWith h
  obtain ⟨tokens, htokens, hr⟩ := exists_tokens_iff.mpr ⟨e, rfl, rfl⟩
  have hn : Nfa.ofPostfix tokens = .ok (Nfa.ofRegex e.toRegex) := by
    rw [Nfa.ofPostfix_eq_map, hr]
    rfl
  have hcoaccessible := Nfa.coaccessible_ofRegex e.toRegex
  have hearliest : ∀ w, ((Nfa.ofRegex e.toRegex).run w).Earliest e.toRegex.language w := by
    intro w
    rw [← Nfa.language_ofRegex]
    exact hcoaccessible.run_earliest (Nfa.wellFormed_ofRegex _).start_lt w
  refine ⟨e.toRegex, tokens, _, e.spells, htokens, hn, ⟨hearliest, hcoaccessible⟩, ?_⟩
  intro o'
  obtain ⟨d', hd', hlang⟩ := exists_compileWith o' e
  obtain ⟨hrange, hproductive, _⟩ := productive_of_compileWith hd'
  refine ⟨d', hd', ?_, ?_⟩
  · intro w
    have hrun := hproductive.run_earliest hrange w
    rw [hlang] at hrun
    exact hrun.eq (hearliest w)
  · intro q hq
    obtain ⟨w, hw⟩ := hproductive q hq
    exact ⟨w, Dfa.mem_residual_iff.mp hw⟩

theorem compiled_runs_earliest_ab :
    ∃ d, compileWith ⟨.positions, true⟩ ['a', 'b'] = .ok d ∧
      ∃ r tokens n, Spells .expression ['a', 'b'] r ∧ Postfix.ofPattern ['a', 'b'] = .ok tokens ∧
        Nfa.ofPostfix tokens = .ok n ∧
        ((∀ w, (n.run w).Earliest r.language w) ∧ ∀ q, q < n.size → ∃ w, n.Path q w n.accept) ∧
          ∀ o', ∃ d', compileWith o' ['a', 'b'] = .ok d' ∧ (∀ w, d'.run w = n.run w) ∧
            ∀ q, q < d'.size → ∃ w t, d'.machine.walk q w = some t ∧ d'.accepts t = true := by
  obtain ⟨d, hd, _⟩ := exists_compileWith ⟨.positions, true⟩
    (.expression (.adjoin (.term (.factor (.letter 'a' (by decide) (by decide))))
      (.factor (.letter 'b' (by decide) (by decide)))))
  exact ⟨d, hd, compiled_runs_earliest hd⟩

end PatternAutomata
