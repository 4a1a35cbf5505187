import PatternAutomata.Dfa.Basic

/-!
# Automata under construction

While an automaton is built, its keys are recorded twice: a state holds its key and its name, and a table
holds the number of every key. Entering a key that is not in the table writes both.
-/

namespace PatternAutomata.Dfa

set_option autoImplicit false

structure NamedState extends State where
  name : List Char

structure Builder where
  kind : KeyKind
  states : Array NamedState
  table : List (NatSet × Nat)

namespace Builder

def size (b : Builder) : Nat := b.states.size

def key? (b : Builder) (q : Nat) : Option NatSet := b.states[q]?.map fun s => s.key

def name? (b : Builder) (q : Nat) : Option (List Char) := b.states[q]?.map NamedState.name

def find? (b : Builder) (key : NatSet) : Option Nat := b.table.lookup key

def enter (b : Builder) (key : NatSet) : Builder × Nat × Bool :=
  match b.find? key with
  | some q => (b, q, false)
  | none =>
    ({ b with states := b.states.push ⟨.fresh key, stateName b.size⟩, table := (key, b.size) :: b.table }, b.size, true)

/-- The key of the start is the first that is entered. -/
def start (kind : KeyKind) (key : NatSet) : Builder := (enter ⟨kind, #[], []⟩ key).1

def addEdge? (b : Builder) (source : Nat) (c : Char) (target : Nat) : Option Builder :=
  if source < b.size then
    some { b with states := b.states.modify source fun s => { s with row := s.row.insert c target } }
  else none

def setAccept? (b : Builder) (q : Nat) (accept : Bool) : Option Builder :=
  if q < b.size then some { b with states := b.states.modify q fun s => { s with accept := accept } } else none

/-- The automaton alone. Its names and the numbers of its keys can be found without the records of them. -/
def toDfa (b : Builder) : Dfa := ⟨b.kind, b.states.map NamedState.toState⟩

end Builder
end PatternAutomata.Dfa
