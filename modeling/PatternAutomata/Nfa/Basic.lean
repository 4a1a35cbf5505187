import PatternAutomata.Alphabet
import PatternAutomata.Graph
import PatternAutomata.Machine

/-!
# Nondeterministic automata with empty moves

The states are the numbers below the size and the start is state 0. Every state has a list of edges
in the order in which they were added, each with a symbol or, for an empty move, none. An edge may
name a target that is no state; it is never of use in a run.
-/

namespace PatternAutomata

set_option autoImplicit false

/-- The symbols are characters here. All that counts of them is which are equal and, where edges are listed, their
order. -/
structure Nfa where
  states : Array (List (Option Char × Nat))
  accept : Nat
deriving DecidableEq

namespace Nfa

def size (n : Nfa) : Nat := n.states.size

/-- The edges that leave a state; a number that is no state has none. -/
def edges (n : Nfa) (q : Nat) : List (Option Char × Nat) := n.states[q]?.getD []

def targets (n : Nfa) (q : Nat) (label : Option Char) : List Nat :=
  ((n.edges q).filter fun e => decide (e.1 = label)).map Prod.snd

theorem mem_targets {n : Nfa} {q t : Nat} {label : Option Char} :
    t ∈ n.targets q label ↔ (label, t) ∈ n.edges q := by
  simp only [targets, List.mem_map, List.mem_filter, decide_eq_true_eq]
  constructor
  · rintro ⟨⟨l, u⟩, ⟨he, rfl⟩, rfl⟩
    exact he
  · exact fun h => ⟨(label, t), ⟨h, rfl⟩, rfl⟩

def addTo (edges : List (Option Char × Nat)) (e : Option Char × Nat) : List (Option Char × Nat) :=
  if e ∈ edges then edges else edges ++ [e]

/-- Adds an edge to a state; a number that is no state gets none. -/
def addEdge (n : Nfa) (source : Nat) (label : Option Char) (target : Nat) : Nfa :=
  { n with states := n.states.modify source fun es => addTo es (label, target) }

@[simp] theorem size_addEdge (n : Nfa) (source : Nat) (label : Option Char) (target : Nat) :
    (n.addEdge source label target).size = n.size := by
  simp [addEdge, size]

theorem mem_addTo {edges : List (Option Char × Nat)} {d e : Option Char × Nat} :
    d ∈ addTo edges e ↔ d ∈ edges ∨ d = e := by
  rw [addTo]
  split
  · rename_i h
    exact ⟨Or.inl, fun hd => hd.elim id fun he => he ▸ h⟩
  · simp

theorem mem_edges_addEdge {n : Nfa} {source target q : Nat} {label : Option Char} {e : Option Char × Nat} :
    e ∈ (n.addEdge source label target).edges q ↔
      e ∈ n.edges q ∨ (q = source ∧ source < n.size ∧ e = (label, target)) := by
  simp only [edges, addEdge, Array.getElem?_modify, size]
  by_cases hq : source = q
  · subst hq
    cases h : n.states[source]? with
    | none =>
      have hle := Array.getElem?_eq_none_iff.mp h
      simp [Nat.not_lt.mpr hle]
    | some es =>
      have hlt := (Array.getElem?_eq_some_iff.mp h).1
      simp [mem_addTo, hlt]
  · simp [hq, Ne.symm hq]

/-- Adds an edge, or refuses it when its source is no state. -/
def addEdge? (n : Nfa) (source : Nat) (label : Option Char) (target : Nat) : Option Nfa :=
  if source < n.size then some (n.addEdge source label target) else none

/-- The accepting state and all targets are states. -/
structure WellFormed (n : Nfa) : Prop where
  accept_lt : n.accept < n.size
  targets_lt : ∀ q e, e ∈ n.edges q → e.2 < n.size

def emptyMoves (n : Nfa) : Graph := ⟨n.size, fun q => n.targets q none⟩

def graph (n : Nfa) : Graph := ⟨n.size, fun q => (n.edges q).map Prod.snd⟩

/-- The states that empty moves lead to. -/
def closure (n : Nfa) (qs : List Nat) : NatSet := n.emptyMoves.reach qs

def move (n : Nfa) (s : NatSet) (c : Char) : NatSet :=
  NatSet.ofList (s.toList.flatMap fun q => n.targets q (some c))

def step (n : Nfa) (s : NatSet) (c : Char) : NatSet := n.closure (n.move s c).toList

/-- The automaton as a machine whose states are sets; no next state is empty. -/
def machine (n : Nfa) : Machine NatSet where
  start := n.closure [0]
  next s c := (n.step s c).nonempty?
  accepts s := decide (n.accept ∈ s)

def run (n : Nfa) (w : List Char) : Run := n.machine.run w

/-- Paths over states, spelling the word of their symbols. -/
inductive Path (n : Nfa) : Nat → List Char → Nat → Prop where
  | refl {q : Nat} : q < n.size → Path n q [] q
  | empty {p q r : Nat} {w : List Char} : q ∈ n.targets p none → p < n.size → Path n q w r → Path n p w r
  | symbol {p q r : Nat} {c : Char} {w : List Char} :
      q ∈ n.targets p (some c) → p < n.size → Path n q w r → Path n p (c :: w) r

/-- The states that can be reached from the start, unless an edge leads from one of them to a number
that is no state. -/
def reachable? (n : Nfa) : Option NatSet :=
  let s := n.graph.reach [0]
  if s.toList.all fun q => (n.edges q).all fun e => decide (e.2 < n.size) then some s else none

def alphabet (n : Nfa) : List Char := alphabetOf (n.states.toList.flatten.filterMap Prod.fst)

/-- Empty moves come before symbols, and symbols are ordered by code point. -/
def labelRank : Option Char → Nat
  | none => 0
  | some c => c.toNat + 1

def edgeLe (a b : Option Char × Nat) : Bool :=
  decide (labelRank a.1 < labelRank b.1) || (decide (labelRank a.1 = labelRank b.1) && decide (a.2 ≤ b.2))

/-- All edges with their sources, in order of source, label and target. -/
def transitions (n : Nfa) : List (Nat × Option Char × Nat) :=
  n.states.toList.zipIdx.flatMap fun x => (x.1.mergeSort edgeLe).map fun e => (x.2, e.1, e.2)

end Nfa
end PatternAutomata
