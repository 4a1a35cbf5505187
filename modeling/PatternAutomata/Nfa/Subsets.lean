import PatternAutomata.Discovery
import PatternAutomata.Nfa.Basic

/-!
# Determinization by subsets

The sets of states that a run of an automaton passes through become the states of a deterministic
one.
-/

namespace PatternAutomata.Nfa

set_option autoImplicit false

/-- The machine on sets of states, which knows the symbols on the edges. -/
def setMachine (n : Nfa) : SetMachine where
  toMachine := n.machine
  alphabet := n.alphabet
  bound := n.size
  next_lt h q hq := by
    obtain ⟨rfl, _⟩ := NatSet.nonempty?_eq_some.mp h
    exact Graph.lt_of_mem_reach hq

def toDfa (n : Nfa) : Dfa := n.setMachine.toDfa .nfaStates

end PatternAutomata.Nfa
