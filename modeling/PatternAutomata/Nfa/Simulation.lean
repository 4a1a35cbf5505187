import PatternAutomata.Nfa.Basic

/-!
# Simulation with a stack

The states that empty moves lead to are found depth first, with a stack of the states that wait to be
visited. A state may wait more than once, and numbers that are no states may wait, too; neither is visited.
A simulation takes its sets of states from such searches, and searches only behind a symbol that leads
somewhere.
-/

namespace PatternAutomata

set_option autoImplicit false

namespace Graph

theorem unseen_insert_length_lt {g : Graph} {seen : NatSet} {q : Nat} (hq : q < g.size) (hs : q ∉ seen) :
    (g.unseen (seen.insert q)).length < (g.unseen seen).length := by
  have hinsert : seen.insert q = seen ∪ .singleton q := by
    apply NatSet.ext_mem
    intro p
    rw [NatSet.mem_insert, NatSet.mem_union, NatSet.mem_singleton, or_comm]
  rw [hinsert]
  exact unseen_length_lt (NatSet.mem_singleton.mpr rfl) hq hs

/-- What the edges of a state lead to, less what has been visited. -/
def unvisited (g : Graph) (visited : NatSet) (q : Nat) : List Nat :=
  (g.next q).filter fun t => decide (t ∉ visited)

/-- Visits the states of a stack, the newest first. -/
def descend (g : Graph) (visited : NatSet) : List Nat → NatSet
  | [] => visited
  | q :: stack =>
    if _h : q < g.size ∧ q ∉ visited then
      g.descend (visited.insert q) ((g.unvisited (visited.insert q) q).reverse ++ stack)
    else g.descend visited stack
termination_by stack => ((g.unseen visited).length, stack.length)
decreasing_by
  · exact Prod.Lex.left _ _ (unseen_insert_length_lt _h.1 _h.2)
  · exact Prod.Lex.right _ (Nat.lt_succ_self _)

end Graph

namespace Nfa

def stackClosure (n : Nfa) (qs : List Nat) : NatSet := n.emptyMoves.descend ∅ qs.reverse

def stackStep (n : Nfa) (s : NatSet) (c : Char) : NatSet :=
  let moved := n.move s c
  if moved.isEmpty then moved else n.stackClosure moved.toList

/-- The automaton as a machine whose states are sets, ready to run. -/
def simulation (n : Nfa) : Machine NatSet where
  start := n.stackClosure [0]
  next s c := (n.stackStep s c).nonempty?
  accepts s := decide (n.accept ∈ s)

end Nfa
end PatternAutomata
