import PatternAutomata.Alphabet
import PatternAutomata.Dfa.Name
import PatternAutomata.Dfa.Row
import PatternAutomata.Graph
import PatternAutomata.Machine

/-!
# Deterministic automata

The states are the numbers below the size, in order of creation, and the start is state 0. Every
state has a key, the set of numbers it was made from, and a row of targets; a symbol without a
target rejects. `Dfa.WellFormed` is what building keeps: there is a start, keys are distinct, and
targets are states.
-/

namespace PatternAutomata

set_option autoImplicit false

/-- What the numbers in the keys of an automaton are. -/
inductive KeyKind where
  | positions
  | nfaStates
  | classes
deriving DecidableEq

structure Dfa.State where
  key : NatSet
  accept : Bool
  row : Row
deriving DecidableEq

/-- As in the rows, symbols are characters and only their order counts. -/
structure Dfa where
  kind : KeyKind
  states : Array Dfa.State
deriving DecidableEq

namespace Dfa

def size (d : Dfa) : Nat := d.states.size

/-- The targets of a state; a number that is no state has none. -/
def row (d : Dfa) (q : Nat) : Row := (d.states[q]?.map State.row).getD .empty

def next? (d : Dfa) (q : Nat) (c : Char) : Option Nat := (d.row q).get? c

def accepts (d : Dfa) (q : Nat) : Bool := (d.states[q]?.map State.accept).getD false

def key? (d : Dfa) (q : Nat) : Option NatSet := d.states[q]?.map State.key

def name? (d : Dfa) (q : Nat) : Option (List Char) := if q < d.size then some (stateName q) else none

def find? (d : Dfa) (key : NatSet) : Option Nat := d.states.findIdx? fun s => decide (s.key = key)

/-- There is a start, keys are distinct, and targets are states. -/
structure WellFormed (d : Dfa) : Prop where
  nonempty : 0 < d.size
  keys_distinct : (d.states.toList.map State.key).Nodup
  targets_lt : ∀ q c t, d.next? q c = some t → t < d.size

def accepting (d : Dfa) : NatSet := NatSet.ofList ((List.range d.size).filter d.accepts)

def alphabet (d : Dfa) : List Char :=
  alphabetOf (d.states.toList.flatMap fun s => s.row.toList.map Prod.fst)

/-- All edges, in order of source and symbol. -/
def transitions (d : Dfa) : List (Nat × Char × Nat) :=
  d.states.toList.zipIdx.flatMap fun x => x.1.row.toList.map fun e => (x.2, e.1, e.2)

def graph (d : Dfa) : Graph := ⟨d.size, fun q => (d.row q).targets⟩

def machine (d : Dfa) : Machine Nat where
  start := 0
  next := d.next?
  accepts := d.accepts

def run (d : Dfa) (w : List Char) : Run := d.machine.run w

def isMatch (d : Dfa) (w : List Char) : Bool := (d.run w).accepted

def State.fresh (key : NatSet) : State := ⟨key, false, .empty⟩

/-- The automaton whose only state is the start. -/
def single (kind : KeyKind) (key : NatSet) : Dfa := ⟨kind, #[.fresh key]⟩

/-- The automaton in which a key has a state, that state, and whether it is new. -/
def enter (d : Dfa) (key : NatSet) : Dfa × Nat × Bool :=
  match d.find? key with
  | some q => (d, q, false)
  | none => ({ d with states := d.states.push (.fresh key) }, d.size, true)

/-- Sets the target of a symbol, or refuses it when the source is no state. -/
def addEdge? (d : Dfa) (source : Nat) (c : Char) (target : Nat) : Option Dfa :=
  if source < d.size then
    some { d with states := d.states.modify source fun s => { s with row := s.row.insert c target } }
  else none

/-- Sets whether a state accepts, or refuses it when there is no such state. -/
def setAccept? (d : Dfa) (q : Nat) (accept : Bool) : Option Dfa :=
  if q < d.size then some { d with states := d.states.modify q fun s => { s with accept := accept } }
  else none

end Dfa
end PatternAutomata
