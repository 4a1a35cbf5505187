import Mathlib.Algebra.BigOperators.Group.Finset.Basic
import Mathlib.Order.Bounds.Basic
import PatternAutomata.Proofs.Nfa.Simulation

/-!
# Depth-first search ends

A round of a depth-first search takes one number from the stack. Numbers that are no states, and states that
wait once more when they have been visited, only make the stack shorter; a state that is visited puts its
targets on the stack, but it does so once. So there are no more rounds than roots and edges together, and what
has been visited in the end is the least set that holds the roots and that no edge leaves.
-/

namespace PatternAutomata

set_option autoImplicit false

namespace Graph

variable {g : Graph} {visited : NatSet} {stack : List Nat} {q : Nat}

/-- The rounds of `descend`, at most `fuel` of them; there is no result if the stack is not empty by then. -/
def descendWithin (g : Graph) : Nat → NatSet → List Nat → Option NatSet
  | _, visited, [] => some visited
  | 0, _, _ :: _ => none
  | fuel + 1, visited, q :: stack =>
    if q < g.size ∧ q ∉ visited then
      g.descendWithin fuel (visited.insert q) ((g.unvisited (visited.insert q) q).reverse ++ stack)
    else g.descendWithin fuel visited stack

def edgeCount (g : Graph) : Nat := ∑ q ∈ Finset.range g.size, (g.next q).length

/-- The number of edges that leave states which have not been visited. -/
def edgesAhead (g : Graph) (visited : NatSet) : Nat :=
  ∑ q ∈ Finset.range g.size with q ∉ visited, (g.next q).length

theorem edgesAhead_empty (g : Graph) : g.edgesAhead ∅ = g.edgeCount := by
  simp [edgesAhead, edgeCount]

theorem edgesAhead_insert (hlt : q < g.size) (hq : q ∉ visited) :
    g.edgesAhead (visited.insert q) + (g.next q).length = g.edgesAhead visited := by
  have herase : (Finset.range g.size).filter (fun p => p ∉ visited.insert q) =
      ((Finset.range g.size).filter fun p => p ∉ visited).erase q := by
    ext p
    simp only [Finset.mem_filter, Finset.mem_range, NatSet.mem_insert, Finset.mem_erase]
    tauto
  rw [edgesAhead, herase]
  exact Finset.sum_erase_add _ _ (Finset.mem_filter.mpr ⟨Finset.mem_range.mpr hlt, hq⟩)

/-- A search ends within the rounds that its stack and the edges ahead allow. -/
theorem descendWithin_eq {fuel : Nat} (hfuel : stack.length + g.edgesAhead visited ≤ fuel) :
    g.descendWithin fuel visited stack = some (g.descend visited stack) := by
  induction fuel generalizing visited stack with
  | zero =>
    obtain rfl : stack = [] := List.length_eq_zero_iff.mp (by omega)
    rw [descendWithin, descend]
  | succ fuel ih =>
    cases stack with
    | nil => rw [descendWithin, descend]
    | cons q stack =>
      rw [List.length_cons] at hfuel
      rw [descendWithin, descend]
      split
      · rename_i hq
        -- the targets that are put on the stack are paid for by the edges that are no longer ahead
        apply ih
        have hahead := edgesAhead_insert hq.1 hq.2
        have hpushed : (g.unvisited (visited.insert q) q).length ≤ (g.next q).length := List.length_filter_le _ _
        rw [List.length_append, List.length_reverse]
        omega
      · apply ih
        omega

end Graph

namespace Nfa

variable {n : Nfa} {qs : List Nat} {p q : Nat}

/-- A set that holds those of the numbers that are states, and that no empty move leaves. -/
structure ClosedOver (n : Nfa) (qs : List Nat) (s : Set Nat) : Prop extends n.Closed s where
  roots : ∀ q ∈ qs, q < n.size → q ∈ s

theorem emptyMoves_reaches_iff :
    n.emptyMoves.Reaches p q ↔ p < n.size ∧ Relation.ReflTransGen n.EmptyMove p q := by
  constructor
  · intro h
    refine ⟨h.source_lt, ?_⟩
    induction h with
    | refl _ => exact .refl
    | tail _ he hlt ih => exact ih.tail (emptyMove_iff.mpr ⟨he, hlt⟩)
  · intro h
    obtain ⟨hp, hpq⟩ := h
    induction hpq with
    | refl => exact .refl hp
    | tail _ hmove ih =>
      obtain ⟨he, hlt⟩ := emptyMove_iff.mp hmove
      exact .tail ih he hlt

theorem mem_stackClosure :
    q ∈ n.stackClosure qs ↔ ∃ r ∈ qs, r < n.size ∧ Relation.ReflTransGen n.EmptyMove r q := by
  rw [stackClosure_eq, closure, Graph.mem_reach]
  simp only [emptyMoves_reaches_iff]

theorem closedOver_stackClosure (n : Nfa) (qs : List Nat) : n.ClosedOver qs {q | q ∈ n.stackClosure qs} where
  roots q hq hlt := mem_stackClosure.mpr ⟨q, hq, hlt, .refl⟩
  moves p hp q hpq := by
    obtain ⟨r, hr, hlt, hrp⟩ := mem_stackClosure.mp hp
    exact mem_stackClosure.mpr ⟨r, hr, hlt, hrp.tail hpq⟩

theorem Closed.mem_of_reflTransGen {s : Set Nat} (hs : n.Closed s) (hp : p ∈ s)
    (h : Relation.ReflTransGen n.EmptyMove p q) : q ∈ s := by
  induction h with
  | refl => exact hp
  | tail _ hmove ih => exact hs.moves _ ih _ hmove

/-- Whatever edges an automaton has and whatever numbers a search starts from, it ends within as many rounds as
there are numbers and empty moves. It has visited the states that empty moves over states lead to from one of
the numbers that is a state, and these are the least set that holds such numbers and that no empty move leaves. -/
theorem stackClosure_least (n : Nfa) (qs : List Nat) :
    n.emptyMoves.descendWithin (qs.length + n.emptyMoves.edgeCount) ∅ qs.reverse = some (n.stackClosure qs) ∧
      (∀ q, q ∈ n.stackClosure qs ↔ ∃ r ∈ qs, r < n.size ∧ Relation.ReflTransGen n.EmptyMove r q) ∧
        IsLeast {s : Set Nat | n.ClosedOver qs s} {q | q ∈ n.stackClosure qs} := by
  refine ⟨?_, fun q => mem_stackClosure, n.closedOver_stackClosure qs, ?_⟩
  · apply Graph.descendWithin_eq
    rw [List.length_reverse, Graph.edgesAhead_empty]
  · intro s hs q hq
    obtain ⟨r, hr, hlt, hrq⟩ := mem_stackClosure.mp hq
    exact hs.mem_of_reflTransGen (hs.roots r hr hlt) hrq

/-- A cycle of empty moves, with one that leads out of the states, searched from a state and from a number that
is none. -/
example : (Nfa.mk #[[(none, 1), (none, 7)], [(none, 0)], []] 2).emptyMoves.descendWithin 5 ∅ [9, 1] =
    some (.ofList [0, 1]) := by
  decide

end Nfa
end PatternAutomata
