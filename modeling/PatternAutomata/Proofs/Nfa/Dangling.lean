import PatternAutomata.Proofs.Nfa.Composition
import PatternAutomata.Proofs.Nfa.EdgeOrder
import PatternAutomata.Proofs.Nfa.Reachable

/-!
# Edges that lead to no state

An edge may name a number that is no state. In a run and in determinization it is as if it were not
there, and it stays so behind another operand, in an alternative on the right and in a star, where all
targets move up together with the states, as long as the sum is a number of 64 bits: one that leaves them
starts again at zero and may be a state. In a left operand it does not stay so: the states of the right
operand are put where the edge leads, and it becomes an edge into them. An automaton in which such an edge
leaves a reachable state has no set of reachable states.
-/

namespace PatternAutomata.Nfa

set_option autoImplicit false

variable {a b n m : Nfa} {xs : List (Nat × Option Char × Nat)} {p t : Nat} {l : Option Char}

theorem mem_targets_addEdges :
    t ∈ (n.addEdges xs).targets p l ↔ t ∈ n.targets p l ∨ (p < n.size ∧ (p, l, t) ∈ xs) := by
  rw [mem_targets, mem_targets, mem_edges_addEdges]

theorem SameEdges.of_targets (hsize : a.size = b.size) (haccept : a.accept = b.accept)
    (htargets : ∀ p l t, t ∈ a.targets p l ↔ t ∈ b.targets p l) : SameEdges a b := by
  refine ⟨hsize, haccept, ?_⟩
  intro q e
  have h := htargets q e.1 e.2
  rwa [Nfa.mem_targets, Nfa.mem_targets] at h

/-- Edges with both ends moved up, the targets in the way of a composition. -/
def movedUp (up : Nat → Nat → Nat) (k : Nat) (xs : List (Nat × Option Char × Nat)) : List (Nat × Option Char × Nat) :=
  xs.map fun x => (x.1 + k, x.2.1, up k x.2.2)

theorem mem_movedUp {up : Nat → Nat → Nat} {k : Nat} :
    (p, l, t) ∈ movedUp up k xs ↔ ∃ i j, p = i + k ∧ t = up k j ∧ (i, l, j) ∈ xs := by
  simp only [movedUp, List.mem_map, Prod.mk.injEq]
  constructor
  · intro h
    obtain ⟨⟨i, l, j⟩, hx, rfl, rfl, rfl⟩ := h
    exact ⟨i, j, rfl, rfl, hx⟩
  · intro h
    obtain ⟨i, j, rfl, rfl, hx⟩ := h
    exact ⟨(i, l, j), hx, rfl, rfl, rfl⟩

def targetsBelow (k : Nat) (xs : List (Nat × Option Char × Nat)) : List (Nat × Option Char × Nat) :=
  xs.filter fun x => decide (x.2.2 < k)

theorem mem_targetsBelow {k : Nat} : (p, l, t) ∈ targetsBelow k xs ↔ (p, l, t) ∈ xs ∧ t < k := by
  simp [targetsBelow]

/-- Of the added edges only those between states count. -/
theorem sameInside_targetsBelow (n : Nfa) (xs : List (Nat × Option Char × Nat)) :
    SameInside (n.addEdges xs) (n.addEdges (targetsBelow n.size xs)) := by
  refine ⟨?_, ?_, ?_⟩
  · rw [size_addEdges, size_addEdges]
  · rw [accept_addEdges, accept_addEdges]
  · intro p l t ht
    rw [size_addEdges] at ht
    simp only [mem_targets_addEdges, mem_targetsBelow, ht, and_true]

section Compositions

variable {up : Nat → Nat → Nat} (hn : n.accept < n.size) (hm : m.accept < m.size) (hxs : ∀ x ∈ xs, x.1 < n.size)

include hn in
theorem accept_addEdges_lt : (n.addEdges xs).accept < (n.addEdges xs).size := by
  rwa [accept_addEdges, size_addEdges]

include hn hxs in
theorem sameEdges_concatBy_left :
    SameEdges (concatBy up (n.addEdges xs) m) ((concatBy up n m).addEdges xs) := by
  apply SameEdges.of_targets
  · simp only [size_concatBy, size_addEdges]
  · simp only [accept_addEdges, accept_concatBy, size_addEdges]
  · intro p l t
    rw [mem_targets_concatBy (accept_addEdges_lt hn), mem_targets_addEdges, mem_targets_addEdges,
      mem_targets_concatBy hn]
    simp only [size_addEdges, accept_addEdges, size_concatBy]
    grind

include hm in
theorem sameEdges_concatBy_right :
    SameEdges (concatBy up m (n.addEdges xs)) ((concatBy up m n).addEdges (movedUp up m.size xs)) := by
  apply SameEdges.of_targets
  · simp only [size_concatBy, size_addEdges]
  · simp only [accept_addEdges, accept_concatBy]
  · intro p l t
    rw [mem_targets_concatBy hm, mem_targets_addEdges, mem_targets_concatBy hm, mem_movedUp]
    simp only [mem_targets_addEdges, size_concatBy]
    grind

include hn hm hxs in
theorem sameEdges_unionBy_left :
    SameEdges (unionBy up (n.addEdges xs) m) ((unionBy up n m).addEdges (movedUp up 2 xs)) := by
  apply SameEdges.of_targets
  · simp only [size_unionBy, size_addEdges]
  · simp only [accept_addEdges, accept_unionBy]
  · intro p l t
    rw [mem_targets_unionBy (accept_addEdges_lt hn) hm, mem_targets_addEdges, mem_targets_unionBy hn hm,
      mem_movedUp]
    simp only [mem_targets_addEdges, size_addEdges, accept_addEdges, size_unionBy]
    grind

include hn hm in
theorem sameEdges_unionBy_right :
    SameEdges (unionBy up m (n.addEdges xs)) ((unionBy up m n).addEdges (movedUp up (m.size + 2) xs)) := by
  apply SameEdges.of_targets
  · simp only [size_unionBy, size_addEdges]
  · simp only [accept_addEdges, accept_unionBy]
  · intro p l t
    rw [mem_targets_unionBy hm (accept_addEdges_lt hn), mem_targets_addEdges, mem_targets_unionBy hm hn,
      mem_movedUp]
    simp only [mem_targets_addEdges, accept_addEdges, size_unionBy]
    grind

include hn in
theorem sameEdges_starBy :
    SameEdges (starBy up (n.addEdges xs)) ((starBy up n).addEdges (movedUp up 2 xs)) := by
  apply SameEdges.of_targets
  · simp only [size_starBy, size_addEdges]
  · simp only [accept_addEdges, accept_starBy]
  · intro p l t
    rw [mem_targets_starBy (accept_addEdges_lt hn), mem_targets_addEdges, mem_targets_starBy hn, mem_movedUp]
    simp only [mem_targets_addEdges, accept_addEdges, size_starBy]
    grind

end Compositions

/-- `a` runs as `b` with those of the edges that lead to states of `b`. -/
def RunsWith (a b : Nfa) (xs : List (Nat × Option Char × Nat)) : Prop :=
  ∀ w, a.run w = (b.addEdges (targetsBelow b.size xs)).run w

theorem SameEdges.runsWith (h : SameEdges a (b.addEdges xs)) : RunsWith a b xs := by
  intro w
  rw [h.inside.run_eq, (sameInside_targetsBelow b xs).run_eq]

theorem targetsBelow_eq_nil {k : Nat} (hxs : ∀ x ∈ xs, k ≤ x.2.2) : targetsBelow k xs = [] := by
  apply List.filter_eq_nil_iff.mpr
  intro x hx
  have := hxs x hx
  simpa using this

theorem RunsWith.run_eq (h : RunsWith a b xs) (hxs : ∀ x ∈ xs, b.size ≤ x.2.2) (w : List Char) : a.run w = b.run w := by
  rw [h w, targetsBelow_eq_nil hxs]
  rfl

/-- Edges that leave states, for numbers that are no states. -/
def Dangling (n : Nfa) (xs : List (Nat × Option Char × Nat)) : Prop := ∀ x ∈ xs, x.1 < n.size ∧ n.size ≤ x.2.2

theorem Dangling.sameInside (hxs : n.Dangling xs) : SameInside (n.addEdges xs) n := by
  have h := sameInside_targetsBelow n xs
  rwa [targetsBelow_eq_nil fun x hx => (hxs x hx).2] at h

/-- The targets of the edges can move up within 64 bits. -/
def Fits (k : Nat) (xs : List (Nat × Option Char × Nat)) : Prop := ∀ x ∈ xs, x.2.2 + k < UInt64.size

/-- A target that is no state moves past the states that move with it, unless the sum leaves 64 bits. -/
theorem RunsWith.run_eq_of_fits {k : Nat} (h : RunsWith a b (movedUp up64 k xs)) (hsize : b.size = n.size + k)
    (hxs : n.Dangling xs) (hfit : Fits k xs) (w : List Char) : a.run w = b.run w := by
  apply h.run_eq
  intro x hx
  obtain ⟨y, hy, rfl⟩ := List.mem_map.mp hx
  rw [up64_of_lt (hfit y hy), hsize]
  exact Nat.add_le_add_right (hxs y hy).2 k

section Reachable

variable (hxs : n.Dangling xs)
include hxs

theorem reach_addEdges : (n.addEdges xs).graph.reach [0] = n.graph.reach [0] := by
  refine Graph.reach_congr (size_addEdges n xs) ?_ fun _ _ => Iff.rfl
  intro p q hq
  simp only [graph, size_addEdges] at hq
  simp only [graph, List.mem_map, mem_edges_addEdges]
  constructor
  · intro h
    obtain ⟨e, he | ⟨_, he⟩, rfl⟩ := h
    · exact ⟨e, he, rfl⟩
    · exact absurd (hxs _ he).2 (Nat.not_le.mpr hq)
  · intro h
    obtain ⟨e, he, rfl⟩ := h
    exact ⟨e, Or.inl he, rfl⟩

/-- The reachable states are found unless an edge to no state leaves one of them. -/
theorem reachable?_addEdges :
    (n.addEdges xs).reachable? = if ∃ x ∈ xs, x.1 ∈ n.graph.reach [0] then none else n.reachable? := by
  rw [reachable?, reachable?, reach_addEdges hxs]
  generalize n.graph.reach [0] = s
  by_cases h : ∃ x ∈ xs, x.1 ∈ s
  · rw [if_pos h]
    obtain ⟨x, hx, hs⟩ := h
    apply if_neg
    simp only [List.all_eq_true, decide_eq_true_eq, size_addEdges]
    intro hall
    have hlt := hall x.1 hs x.2 (mem_edges_addEdges.mpr (Or.inr ⟨(hxs x hx).1, hx⟩))
    exact Nat.not_le.mpr hlt (hxs x hx).2
  · rw [if_neg h]
    apply if_congr ?_ rfl rfl
    simp only [List.all_eq_true, decide_eq_true_eq, size_addEdges]
    constructor
    · intro hall q hq e he
      exact hall q hq e (mem_edges_addEdges.mpr (Or.inl he))
    · intro hall q hq e he
      rcases mem_edges_addEdges.mp he with he | ⟨_, hx⟩
      · exact hall q hq e he
      · exact absurd ⟨(q, e), hx, hq⟩ h

end Reachable

/-- Added edges to no state change no run and no determinization of the automaton itself. Nor do they change
a star, a concatenation behind another operand or an alternative on the right, as long as they can move up
within 64 bits. In all compositions, those that are moved to a state are edges between states: in a left
operand the ones that name a number the right operand takes, anywhere the ones that start again at zero. -/
theorem dangling_edges_inert (hn : n.accept < n.size) (hm : m.accept < m.size) (hxs : n.Dangling xs) :
    ((∀ w, (n.addEdges xs).run w = n.run w) ∧ (n.addEdges xs).toDfa = n.toDfa) ∧
      ((Fits m.size xs → ∀ w, (m.concat64 (n.addEdges xs)).run w = (m.concat64 n).run w) ∧
        (Fits (m.size + 2) xs → ∀ w, (m.union64 (n.addEdges xs)).run w = (m.union64 n).run w) ∧
        (Fits 2 xs → ∀ w, (n.addEdges xs).star64.run w = n.star64.run w)) ∧
      (RunsWith (m.concat64 (n.addEdges xs)) (m.concat64 n) (movedUp up64 m.size xs) ∧
        RunsWith (m.union64 (n.addEdges xs)) (m.union64 n) (movedUp up64 (m.size + 2) xs) ∧
        RunsWith (n.addEdges xs).star64 n.star64 (movedUp up64 2 xs) ∧
        RunsWith ((n.addEdges xs).concat64 m) (n.concat64 m) xs ∧
        RunsWith ((n.addEdges xs).union64 m) (n.union64 m) (movedUp up64 2 xs)) ∧
      ∀ fuel, n.size ≤ fuel → (n.addEdges xs).searchReachable? fuel =
        if ∃ x ∈ xs, x.1 ∈ n.graph.reach [0] then none else n.searchReachable? fuel := by
  have hsource : ∀ x ∈ xs, x.1 < n.size := fun x hx => (hxs x hx).1
  have hconcat : RunsWith (m.concat64 (n.addEdges xs)) (m.concat64 n) (movedUp up64 m.size xs) :=
    (sameEdges_concatBy_right hm).runsWith
  have hunion : RunsWith (m.union64 (n.addEdges xs)) (m.union64 n) (movedUp up64 (m.size + 2) xs) :=
    (sameEdges_unionBy_right hn hm).runsWith
  have hstar : RunsWith (n.addEdges xs).star64 n.star64 (movedUp up64 2 xs) := (sameEdges_starBy hn).runsWith
  have hconcatSize : (m.concat64 n).size = n.size + m.size := (size_concatBy up64 m n).trans (Nat.add_comm _ _)
  have hunionSize : (m.union64 n).size = n.size + (m.size + 2) := by
    rw [union64, size_unionBy]
    omega
  refine ⟨⟨hxs.sameInside.run_eq, hxs.sameInside.toDfa_eq⟩, ⟨?_, ?_, ?_⟩, ⟨hconcat, hunion, hstar, ?_, ?_⟩, ?_⟩
  · exact fun hfit => hconcat.run_eq_of_fits hconcatSize hxs hfit
  · exact fun hfit => hunion.run_eq_of_fits hunionSize hxs hfit
  · exact fun hfit => hstar.run_eq_of_fits (size_starBy up64 n) hxs hfit
  · exact (sameEdges_concatBy_left hn hsource).runsWith
  · exact (sameEdges_unionBy_left hn hm hsource).runsWith
  · intro fuel hfuel
    have hpos : 0 < n.size := Nat.zero_lt_of_lt hn
    rw [searchReachable?_eq hpos hfuel,
      searchReachable?_eq (hpos.trans_eq (size_addEdges n xs).symm) ((size_addEdges n xs).trans_le hfuel),
      reachable?_addEdges hxs]

theorem dangling_edges_inert_letters :
    ((literal 'a').accept < (literal 'a').size ∧ (literal 'c').accept < (literal 'c').size ∧
        (literal 'a').Dangling [(0, some 'b', 7), (1, none, 2)] ∧
        Fits 2 [(0, some 'b', 7), (1, none, 2)]) ∧
      ((literal 'a').addEdges [(0, some 'b', 7), (1, none, 2)]).toDfa = (literal 'a').toDfa ∧
      ((literal 'a').addEdges [(0, some 'b', 7), (1, none, 2)]).star64.run ['a', 'a'] =
        (literal 'a').star64.run ['a', 'a'] ∧
      RunsWith (((literal 'a').addEdges [(0, some 'b', 7), (1, none, 2)]).concat64 (literal 'c'))
        ((literal 'a').concat64 (literal 'c')) [(0, some 'b', 7), (1, none, 2)] ∧
      ((literal 'a').addEdges [(0, some 'b', 7), (1, none, 2)]).searchReachable? 5 = none := by
  have haccept : ∀ c, (literal c).accept < (literal c).size := fun c => (wellFormed_single (some c)).accept_lt
  have hxs : (literal 'a').Dangling [(0, some 'b', 7), (1, none, 2)] := by
    simp [Dangling, literal]
  have hfit : Fits 2 [(0, some 'b', 7), (1, none, 2)] := by
    simp [Fits, UInt64.size]
  obtain ⟨⟨_, hdfa⟩, ⟨_, _, hstar⟩, ⟨_, _, _, hleft, _⟩, hreach⟩ := dangling_edges_inert (haccept 'a') (haccept 'c') hxs
  refine ⟨⟨haccept 'a', haccept 'c', hxs, hfit⟩, hdfa, hstar hfit ['a', 'a'], hleft, ?_⟩
  rw [hreach 5 (by decide)]
  apply if_pos
  exact ⟨(0, some 'b', 7), by simp, Graph.mem_reach.mpr ⟨0, by simp, .refl Nat.two_pos⟩⟩

/-- An edge to no state in a left operand can spell a word of its own: it enters the right operand. -/
theorem dangling_edge_enters_operand :
    ((literal 'a').WellFormed ∧ (literal 'c').WellFormed ∧ (literal 'a').Dangling [(0, some 'b', 3)]) ∧
      ((((literal 'a').addEdges [(0, some 'b', 3)]).concat64 (literal 'c')).run ['b']).accepted = true ∧
      (((literal 'a').concat64 (literal 'c')).run ['b']).accepted = false ∧
      ((((literal 'a').addEdges [(0, some 'b', 3)]).union64 (literal 'c')).run ['b']).accepted = true ∧
      (((literal 'a').union64 (literal 'c')).run ['b']).accepted = false ∧
      ((literal 'a').addEdges [(0, some 'b', 3)]).searchReachable? 5 = none := by
  refine ⟨⟨wellFormed_single _, wellFormed_single _, ?_⟩, ?_, ?_, ?_, ?_, ?_⟩
  · simp [Dangling, literal]
  · decide +kernel
  · decide +kernel
  · decide +kernel
  · decide +kernel
  · decide +kernel

end PatternAutomata.Nfa
