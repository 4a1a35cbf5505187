import PatternAutomata.Nfa.Subsets
import PatternAutomata.Proofs.Dfa.SetAutomaton
import PatternAutomata.Proofs.Nfa.Paths

/-!
# Determinization keeps all runs

The sets that a run passes through are the states of the deterministic automaton, whatever edges the
other one has.
-/

namespace PatternAutomata.Nfa

set_option autoImplicit false

variable {n : Nfa} {c : Char}

theorem mem_alphabet : c ∈ n.alphabet ↔ ∃ p t, t ∈ n.targets p (some c) := by
  simp only [alphabet, mem_alphabetOf, List.mem_filterMap, List.mem_flatten, mem_targets, edges]
  constructor
  · intro h
    obtain ⟨⟨_, t⟩, ⟨es, hes, he⟩, rfl⟩ := h
    obtain ⟨p, hp⟩ := List.mem_iff_getElem?.mp hes
    rw [Array.getElem?_toList] at hp
    exact ⟨p, t, by rwa [hp]⟩
  · intro h
    obtain ⟨p, t, h⟩ := h
    cases hp : n.states[p]? with
    | none => simp [hp] at h
    | some es =>
      rw [hp] at h
      exact ⟨(some c, t), ⟨es, Array.mem_toList_iff.mpr (Array.mem_of_getElem? hp), h⟩, rfl⟩

theorem lawful_setMachine (n : Nfa) : n.setMachine.Lawful := by
  refine ⟨?_, alphabetOf_ascending _⟩
  intro s t c h
  obtain ⟨rfl, hne⟩ := NatSet.nonempty?_eq_some.mp h
  obtain ⟨q, hq⟩ := NatSet.exists_mem_of_ne_empty hne
  obtain ⟨p, _, t, ht, _⟩ := mem_step.mp hq
  exact mem_alphabet.mpr ⟨p, t, ht⟩

/-- Both automata give the same answer after as many symbols, and on the way the key of the one's state
is the set of all states that the other can be in. -/
theorem toDfa_keeps_runs (n : Nfa) (w : List Char) :
    n.toDfa.run w = n.run w ∧
      (n.toDfa.machine.walk 0 w).bind n.toDfa.key? = n.machine.walk (n.closure [0]) w := by
  have hlawful := lawful_setMachine n
  exact ⟨SetMachine.run_toDfa hlawful w, SetMachine.walk_toDfa hlawful w⟩

theorem wellFormed_toDfa (n : Nfa) : n.toDfa.WellFormed := SetMachine.wellFormed_toDfa (lawful_setMachine n)

theorem numbered_toDfa (n : Nfa) : n.toDfa.Numbered := SetMachine.numbered_toDfa (lawful_setMachine n)

theorem language_toDfa (n : Nfa) : n.toDfa.language = n.language := by
  apply Language.ext
  intro w
  have hrun : n.toDfa.run w = n.run w := SetMachine.run_toDfa (lawful_setMachine n) w
  rw [← Dfa.isMatch_iff, Dfa.isMatch, hrun, run_accepted_iff]

end PatternAutomata.Nfa
