import PatternAutomata.Nfa.Simulation
import PatternAutomata.Proofs.Nfa.EdgeOrder

/-!
# What a simulation accepts

A depth-first search visits exactly the states that its roots reach, so a simulation has the runs of the
automaton. It accepts the words that are spelled by the edges of a route over states, from the start to
the accepting state.
-/

namespace PatternAutomata

set_option autoImplicit false

namespace Graph

variable {g : Graph} {roots stack : List Nat} {visited : NatSet} {q : Nat}

/-- A depth-first search from the roots: what it has visited and what waits on its stack. Numbers that are no
states may wait, but nothing is said about them. -/
structure Descends (g : Graph) (roots : List Nat) (visited : NatSet) (stack : List Nat) : Prop where
  visited_lt : ∀ q ∈ visited, q < g.size
  reached : ∀ q, q ∈ visited ∨ q ∈ stack → q < g.size → ∃ r ∈ roots, g.Reaches r q
  roots_found : ∀ r ∈ roots, r < g.size → r ∈ visited ∨ r ∈ stack
  closed : ∀ p ∈ visited, ∀ q ∈ g.next p, q < g.size → q ∈ visited ∨ q ∈ stack

theorem descends_roots (g : Graph) (roots : List Nat) : g.Descends roots ∅ roots.reverse where
  visited_lt q hq := absurd hq (NatSet.not_mem_empty q)
  reached q hq hlt := by
    rcases hq with hq | hq
    · exact absurd hq (NatSet.not_mem_empty q)
    · exact ⟨q, List.mem_reverse.mp hq, .refl hlt⟩
  roots_found _ hr _ := Or.inr (List.mem_reverse.mpr hr)
  closed p hp := absurd hp (NatSet.not_mem_empty p)

/-- A number that is no state or has been visited is taken from the stack for good. -/
theorem Descends.skip (h : g.Descends roots visited (q :: stack)) (hq : ¬ (q < g.size ∧ q ∉ visited)) :
    g.Descends roots visited stack := by
  have hwaits : ∀ p, p < g.size → p ∈ visited ∨ p ∈ q :: stack → p ∈ visited ∨ p ∈ stack := by
    intro p hlt hp
    rcases hp with hp | hp
    · exact Or.inl hp
    · rcases List.mem_cons.mp hp with rfl | hp
      · exact Or.inl (Decidable.byContradiction fun hnew => hq ⟨hlt, hnew⟩)
      · exact Or.inr hp
  refine ⟨h.visited_lt, ?_, ?_, ?_⟩
  · exact fun p hp hlt => h.reached p (hp.imp_right (List.mem_cons_of_mem q)) hlt
  · exact fun r hr hlt => hwaits r hlt (h.roots_found r hr hlt)
  · exact fun p hp t ht hlt => hwaits t hlt (h.closed p hp t ht hlt)

theorem mem_unvisited {t : Nat} : t ∈ g.unvisited visited q ↔ t ∈ g.next q ∧ t ∉ visited := by
  simp only [unvisited, List.mem_filter, decide_eq_true_eq]

theorem Descends.visit (h : g.Descends roots visited (q :: stack)) (hq : q < g.size) :
    g.Descends roots (visited.insert q) ((g.unvisited (visited.insert q) q).reverse ++ stack) := by
  have hroot : ∃ r ∈ roots, g.Reaches r q := h.reached q (Or.inr List.mem_cons_self) hq
  have hwaits : ∀ p, p ∈ visited ∨ p ∈ q :: stack →
      p ∈ visited.insert q ∨ p ∈ (g.unvisited (visited.insert q) q).reverse ++ stack := by
    intro p hp
    simp only [NatSet.mem_insert, List.mem_append, List.mem_cons] at hp ⊢
    tauto
  refine ⟨?_, ?_, ?_, ?_⟩
  · intro p hp
    rcases NatSet.mem_insert.mp hp with rfl | hp
    · exact hq
    · exact h.visited_lt p hp
  · intro p hp hlt
    simp only [NatSet.mem_insert, List.mem_append, List.mem_reverse, mem_unvisited] at hp
    rcases hp with (rfl | hp) | ⟨hp, _⟩ | hp
    · exact hroot
    · exact h.reached p (Or.inl hp) hlt
    · obtain ⟨r, hr, hrq⟩ := hroot
      exact ⟨r, hr, .tail hrq hp hlt⟩
    · exact h.reached p (Or.inr (List.mem_cons_of_mem q hp)) hlt
  · exact fun r hr hlt => hwaits r (h.roots_found r hr hlt)
  · intro p hp t ht hlt
    rcases NatSet.mem_insert.mp hp with rfl | hp
    · by_cases hvisited : t ∈ visited.insert p
      · exact Or.inl hvisited
      · exact Or.inr (List.mem_append_left _ (List.mem_reverse.mpr (mem_unvisited.mpr ⟨ht, hvisited⟩)))
    · exact hwaits t (h.closed p hp t ht hlt)

/-- When the stack is empty, what was visited is what the roots reach. -/
theorem Descends.visited_eq (h : g.Descends roots visited []) : visited = g.reach roots := by
  have hvisited : ∀ p, p ∈ visited ∨ p ∈ ([] : List Nat) → p ∈ visited := fun p hp => hp.resolve_right List.not_mem_nil
  apply NatSet.ext_mem
  intro q
  rw [mem_reach]
  constructor
  · exact fun hq => h.reached q (Or.inl hq) (h.visited_lt q hq)
  · intro hq
    obtain ⟨r, hr, hrq⟩ := hq
    induction hrq with
    | refl hlt => exact hvisited _ (h.roots_found r hr hlt)
    | tail _ ht hlt ih => exact hvisited _ (h.closed _ ih _ ht hlt)

theorem Descends.descend_eq (h : g.Descends roots visited stack) : g.descend visited stack = g.reach roots := by
  fun_induction descend g visited stack with
  | case1 visited => exact h.visited_eq
  | case2 visited q stack hq ih => exact ih (h.visit hq.1)
  | case3 visited q stack hq ih => exact ih (h.skip hq)

end Graph

namespace Nfa

variable {n : Nfa} {p q : Nat} {w : List Char}

theorem stackClosure_eq (n : Nfa) (qs : List Nat) : n.stackClosure qs = n.closure qs :=
  (Graph.descends_roots n.emptyMoves qs).descend_eq

theorem stackStep_eq (n : Nfa) (s : NatSet) (c : Char) : n.stackStep s c = n.step s c := by
  rw [stackStep, step, stackClosure_eq]
  split
  · rename_i hempty
    have hmoved := NatSet.isEmpty_iff.mp hempty
    rw [hmoved]
    apply (NatSet.eq_empty_iff.mpr _).symm
    intro q hq
    obtain ⟨p, hp, _⟩ := mem_closure.mp hq
    exact absurd hp List.not_mem_nil
  · rfl

theorem simulation_eq (n : Nfa) : n.simulation = n.machine := by
  rw [simulation, machine, stackClosure_eq]
  simp only [stackStep_eq]

/-- Edges one behind the other that lead over states from one state to another. -/
def Route (n : Nfa) (p : Nat) : List (Nat × Option Char × Nat) → Nat → Prop
  | [], q => p = q ∧ p < n.size
  | x :: xs, q => x ∈ n.transitions ∧ x.1 = p ∧ n.Route x.2.2 xs q

/-- The symbols on the edges of a route; an empty move has none. -/
def spelled (xs : List (Nat × Option Char × Nat)) : List Char := xs.filterMap fun x => x.2.1

theorem spelled_cons (x : Nat × Option Char × Nat) (xs : List (Nat × Option Char × Nat)) :
    spelled (x :: xs) = x.2.1.toList ++ spelled xs := by
  obtain ⟨_, l, _⟩ := x
  cases l <;> rfl

theorem path_of_route {xs : List (Nat × Option Char × Nat)} (h : n.Route p xs q) : n.Path p (spelled xs) q := by
  induction xs generalizing p with
  | nil =>
    obtain ⟨rfl, hp⟩ := h
    exact .refl hp
  | cons x xs ih =>
    obtain ⟨hx, rfl, hroute⟩ := h
    rw [spelled_cons]
    exact .step (mem_targets.mpr (mem_transitions.mp hx)) (ih hroute)

theorem exists_route (h : n.Path p w q) : ∃ xs, n.Route p xs q ∧ spelled xs = w := by
  refine Path.edge_induction (motive := fun p w => ∃ xs, n.Route p xs q ∧ spelled xs = w) ?_ ?_ h
  · exact fun hq => ⟨[], ⟨rfl, hq⟩, rfl⟩
  · intro p t l w he _ ih
    obtain ⟨xs, hroute, rfl⟩ := ih
    have hedge : (p, l, t) ∈ n.transitions := mem_transitions.mpr (mem_targets.mp he)
    exact ⟨(p, l, t) :: xs, ⟨hedge, rfl, hroute⟩, spelled_cons _ xs⟩

/-- A simulation runs as the automaton does, and it accepts a word exactly if some route from the start to
the accepting state spells it. -/
theorem simulation_accepted_iff (n : Nfa) (w : List Char) :
    n.simulation.run w = n.run w ∧
      ((n.simulation.run w).accepted = true ↔ ∃ xs, n.Route 0 xs n.accept ∧ spelled xs = w) := by
  have hrun : n.simulation.run w = n.run w := by rw [simulation_eq, run]
  refine ⟨hrun, ?_⟩
  rw [hrun, run_accepted_iff]
  constructor
  · exact exists_route
  · rintro ⟨xs, hroute, rfl⟩
    exact path_of_route hroute

end Nfa
end PatternAutomata
