import PatternAutomata.Proofs.Dfa.Minimization
import PatternAutomata.Proofs.Dfa.Numbering
import PatternAutomata.Proofs.Dfa.SetAutomaton

/-!
# What minimization guarantees

Minimization has a result for every automaton whose targets are states. It accepts the same words and
reads no further to decide them, and no automaton that accepts the same words has fewer states.
-/

namespace PatternAutomata.Dfa

set_option autoImplicit false

variable {d : Dfa}

/-- The minimal automaton accepts the same words and takes no more symbols. -/
theorem minimize_keeps_words (hd : d.InRange) :
    ∃ m, d.minimize = .ok m ∧
      ∀ w, (m.run w).accepted = (d.run w).accepted ∧ (m.run w).read ≤ (d.run w).read := by
  obtain ⟨m, f, hminimize, hm⟩ := exists_minimize hd
  refine ⟨m, hminimize, ?_⟩
  intro w
  constructor
  · exact language_eq_iff.mp (hm.language_eq hd) w
  · exact hm.read_le hd w

/-- A start that leads into a trap, beside an accepting loop with a twin that no word leads to. -/
def trap : Dfa :=
  ⟨.nfaStates, #[⟨.singleton 0, false, .ofList [('a', 1), ('b', 3)]⟩,
    ⟨.singleton 1, true, .ofList [('a', 1)]⟩, ⟨.singleton 2, true, .ofList [('a', 1)]⟩,
    ⟨.singleton 3, false, .ofList [('a', 3)]⟩]⟩

theorem minimize_keeps_words_trap : trap.InRange ∧ ∃ m, trap.minimize = .ok m ∧
    ∀ w, (m.run w).accepted = (trap.run w).accepted ∧ (m.run w).read ≤ (trap.run w).read :=
  ⟨by decide, minimize_keeps_words (by decide)⟩

/-- The minimal automaton has the fewest states of all that accept the same words. -/
theorem minimize_fewest_states (hd : d.InRange) :
    ∃ m, d.minimize = .ok m ∧ (m.InRange ∧ ∀ w, m.isMatch w = d.isMatch w) ∧
      ∀ e : Dfa, e.InRange → (∀ w, e.isMatch w = d.isMatch w) → m.size ≤ e.size := by
  obtain ⟨m, f, hminimize, hm⟩ := exists_minimize hd
  have hlang : m.language = d.language := hm.language_eq hd
  refine ⟨m, hminimize, ⟨?_, language_eq_iff.mp hlang⟩, ?_⟩
  · exact hm.inRange (trimmed_live hd).toClosed (start_mem_live hd)
  · intro e he h
    exact hm.size_le hd he (hlang.trans (language_eq_iff.mpr h).symm)

/-- Two accepting states that lead to each other, and a third that no word leads to. -/
def cycle : Dfa :=
  ⟨.nfaStates, #[⟨.singleton 0, true, .ofList [('a', 1)]⟩, ⟨.singleton 1, true, .ofList [('a', 0)]⟩,
    ⟨.singleton 2, true, .ofList [('a', 0)]⟩]⟩

def loop : Dfa := ⟨.nfaStates, #[⟨.singleton 0, true, .ofList [('a', 0)]⟩]⟩

theorem quotient_cycle_loop : Quotient cycle loop fun _ => 0 := by
  refine ⟨rfl, fun _ _ => Nat.zero_lt_one, ?_, by decide, ?_⟩
  · intro t ht
    exact ⟨0, by decide, (Nat.lt_one_iff.mp ht).symm⟩
  · intro q hq c
    have hstates : q = 0 ∨ q = 1 ∨ q = 2 := by
      have : q < 3 := hq
      omega
    rcases hstates with rfl | rfl | rfl <;> by_cases hc : c = 'a' <;>
      simp [next?, row, cycle, loop, Row.lookup_cons_ite, hc]

theorem minimize_fewest_states_cycle : ∃ m, cycle.minimize = .ok m ∧ m.size ≤ loop.size := by
  obtain ⟨m, hm, _, hleast⟩ := minimize_fewest_states (d := cycle) (by decide)
  refine ⟨m, hm, hleast loop (by decide) ?_⟩
  intro w
  exact congrArg Run.accepted (quotient_cycle_loop.run (by decide) w)

end PatternAutomata.Dfa
