import PatternAutomata.Dfa.Minimize
import PatternAutomata.Nfa.Fragment
import PatternAutomata.Nfa.Subsets
import PatternAutomata.Regex.PositionAutomaton

/-!
# Compilation of patterns

A pattern is read, brought into postfix order, made into an automaton in one of two ways and, unless
the options say otherwise, minimized. The first stage that fails decides the fault.
-/

namespace PatternAutomata

set_option autoImplicit false

/-- How an automaton is made from a postfix expression. -/
inductive Construction where
  /-- The sets of positions of the term become the states. -/
  | positions
  /-- An automaton with empty moves is composed and made deterministic. -/
  | subsets
deriving DecidableEq

/-- How a pattern is compiled: by default from its positions, and minimized. -/
structure Options where
  construction : Construction := .positions
  minimize : Bool := true
deriving DecidableEq

namespace Options

def withConstruction (o : Options) (construction : Construction) : Options := { o with construction }

def withMinimize (o : Options) (minimize : Bool) : Options := { o with minimize }

end Options

namespace Construction

def automaton (tokens : List Token) : Construction → Except Malformed Dfa
  | positions => Dfa.ofPostfix tokens
  | subsets => (Nfa.ofPostfix tokens).map Nfa.toDfa

end Construction

def minimized (d : Dfa) : Except Fault Dfa := d.minimize.mapError fun e => .inconsistentPartition e.state

def compileWith (o : Options) (pattern : List Char) : Except Fault Dfa :=
  (Postfix.ofPattern pattern).bind fun tokens =>
    ((o.construction.automaton tokens).mapError .malformed).bind fun d =>
      if o.minimize then minimized d else .ok d

def compile (pattern : List Char) : Except Fault Dfa := compileWith {} pattern

structure CompiledPattern where
  pattern : String
  automaton : Dfa

namespace CompiledPattern

def ofStringWith (o : Options) (pattern : String) : Except Fault CompiledPattern :=
  (compileWith o pattern.toList).map fun d => ⟨pattern, d⟩

def ofString (pattern : String) : Except Fault CompiledPattern := ofStringWith {} pattern

def isMatch (p : CompiledPattern) (input : String) : Bool := p.automaton.isMatch input.toList

instance : ToString CompiledPattern := ⟨CompiledPattern.pattern⟩

end CompiledPattern
end PatternAutomata
