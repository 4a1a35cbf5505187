import PatternAutomata.Nfa.Basic
import PatternAutomata.Pattern.Postfix

/-!
# Composition of automata

Each way to compose regular expressions has a way to compose automata. The states of an operand are
renumbered to make room, and empty moves join the parts. Where every target is a state the numbers stay
small; `concat64`, `union64` and `star64` renumber any target in 64 bits.
-/

namespace PatternAutomata.Nfa

set_option autoImplicit false

/-- The automaton with a single edge from its start to its accepting state. -/
def single (label : Option Char) : Nfa := ⟨#[[(label, 1)], []], 1⟩

def literal (c : Char) : Nfa := single (some c)

def epsilon : Nfa := single none

/-- The edges of one state with every target moved. -/
def displace (move : Nat → Nat) (edges : List (Option Char × Nat)) : List (Option Char × Nat) :=
  edges.map fun e => (e.1, move e.2)

def shift (k : Nat) (edges : List (Option Char × Nat)) : List (Option Char × Nat) := displace (fun t => t + k) edges

section Compositions

-- how targets move up by a number: without a bound, or within a word
variable (up : Nat → Nat → Nat)

/-- The states of `b` follow those of `a`, and an empty move joins the accepting state of `a` to the
start of `b`. -/
def concatBy (a b : Nfa) : Nfa :=
  addEdge ⟨a.states ++ b.states.map (displace (up a.size)), b.accept + a.size⟩ a.accept none a.size

/-- A new start and a new accepting state come first, then the states of `a` and those of `b`. -/
def unionBy (a b : Nfa) : Nfa :=
  let n : Nfa := ⟨#[[], []] ++ a.states.map (displace (up 2)) ++ b.states.map (displace (up (a.size + 2))), 1⟩
  ((((n.addEdge 0 none 2).addEdge 0 none (a.size + 2)).addEdge (a.accept + 2) none 1).addEdge
    (b.accept + a.size + 2) none 1)

/-- A new start and a new accepting state come first; the accepting state of `a` leads back to its
start. -/
def starBy (a : Nfa) : Nfa :=
  let n : Nfa := ⟨#[[], []] ++ a.states.map (displace (up 2)), 1⟩
  ((((n.addEdge 0 none 2).addEdge 0 none 1).addEdge (a.accept + 2) none 2).addEdge (a.accept + 2) none 1)

@[simp] theorem size_concatBy (a b : Nfa) : (concatBy up a b).size = a.size + b.size := by
  simp [concatBy, addEdge, size]

@[simp] theorem size_unionBy (a b : Nfa) : (unionBy up a b).size = a.size + b.size + 2 := by
  simp [unionBy, addEdge, size]
  omega

@[simp] theorem size_starBy (a : Nfa) : (starBy up a).size = a.size + 2 := by
  simp [starBy, addEdge, size]
  omega

@[simp] theorem accept_concatBy (a b : Nfa) : (concatBy up a b).accept = b.accept + a.size := rfl

@[simp] theorem accept_unionBy (a b : Nfa) : (unionBy up a b).accept = 1 := rfl

@[simp] theorem accept_starBy (a : Nfa) : (starBy up a).accept = 1 := rfl

end Compositions

def concat (a b : Nfa) : Nfa := concatBy (fun k t => t + k) a b

def union (a b : Nfa) : Nfa := unionBy (fun k t => t + k) a b

def star (a : Nfa) : Nfa := starBy (fun k t => t + k) a

/-- Moves a number up within 64 bits. A sum that leaves them starts again at zero. -/
def up64 (k t : Nat) : Nat := (t + k) % UInt64.size

def concat64 (a b : Nfa) : Nfa := concatBy up64 a b

def union64 (a b : Nfa) : Nfa := unionBy up64 a b

def star64 (a : Nfa) : Nfa := starBy up64 a

@[simp] theorem size_single (label : Option Char) : (single label).size = 2 := rfl

@[simp] theorem size_concat (a b : Nfa) : (a.concat b).size = a.size + b.size := size_concatBy _ a b

@[simp] theorem size_union (a b : Nfa) : (a.union b).size = a.size + b.size + 2 := size_unionBy _ a b

@[simp] theorem size_star (a : Nfa) : a.star.size = a.size + 2 := size_starBy _ a

/-- Postfix expressions as automata; the end mark is reserved. -/
def interpretation : Postfix.Interpretation Nfa where
  epsilon := epsilon
  letter
    | .char c => .ok (literal c)
    | .endMark => .error .reservedEndMark
  star := star
  concat := concat
  union := union

def ofPostfix (tokens : List Token) : Except Malformed Nfa := Postfix.evaluate interpretation tokens

end PatternAutomata.Nfa
