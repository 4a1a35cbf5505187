import PatternAutomata.Dfa.Basic

/-!
# Text of an automaton

The first line names the start. Then every state has a line with its name, a star if it accepts,
its key, and its edges in order of their symbols.
-/

namespace PatternAutomata.Dfa

set_option autoImplicit false

def edgeText (e : Char × Nat) : List Char := e.1 :: (" -> ".toList ++ stateName e.2)

/-- A row begins with a blank; its edges are separated by a comma and a blank. -/
def rowText : List (Char × Nat) → List Char
  | [] => []
  | e :: es => ' ' :: (edgeText e ++ es.flatMap fun e => ", ".toList ++ edgeText e)

def stateText (q : Nat) (s : State) : List Char :=
  stateName q ++ (if s.accept then ['*'] else []) ++ ' ' :: s.key.chars ++ ':' :: rowText s.row.toList ++ ['\n']

def text (d : Dfa) : List Char :=
  "start: ".toList ++ stateName 0 ++ '\n' :: d.states.toList.zipIdx.flatMap fun x => stateText x.2 x.1

end PatternAutomata.Dfa
