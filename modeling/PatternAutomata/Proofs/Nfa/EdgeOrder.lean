import PatternAutomata.Proofs.Nfa.Subsets

/-!
# The order of edges

A state's edges stand in the order in which they were added. What an automaton does depends on the
set of its edges alone: wherever edges or states are collected, the result is a set, and sets with
the same members are equal. So are the numbers and keys of the deterministic automaton, which are
made from such sets.
-/

namespace PatternAutomata

set_option autoImplicit false

theorem alphabetOf_congr {cs ds : List Char} (h : ∀ c, c ∈ cs ↔ c ∈ ds) : alphabetOf cs = alphabetOf ds := by
  have hset : NatSet.ofList (cs.map Char.toNat) = NatSet.ofList (ds.map Char.toNat) := by
    apply NatSet.ext_mem
    intro k
    simp only [NatSet.mem_ofList, List.mem_map, h]
  rw [alphabetOf, alphabetOf, hset]

namespace Graph

variable {g h : Graph}

theorem Reaches.mono {p q : Nat} (hsize : g.size ≤ h.size)
    (hnext : ∀ p q, q < g.size → q ∈ g.next p → q ∈ h.next p) (hpq : g.Reaches p q) : h.Reaches p q := by
  induction hpq with
  | refl hq => exact .refl (Nat.lt_of_lt_of_le hq hsize)
  | tail _ he hr ih => exact .tail ih (hnext _ _ hr he) (Nat.lt_of_lt_of_le hr hsize)

/-- Roots and edges count only as far as they are states. -/
theorem reach_congr {ps qs : List Nat} (hsize : g.size = h.size)
    (hnext : ∀ p q, q < g.size → (q ∈ g.next p ↔ q ∈ h.next p))
    (hroots : ∀ q, q < g.size → (q ∈ ps ↔ q ∈ qs)) : g.reach ps = h.reach qs := by
  have hreaches : ∀ p q, g.Reaches p q ↔ h.Reaches p q := by
    intro p q
    constructor
    · exact .mono hsize.le fun p q hq => (hnext p q hq).mp
    · exact .mono hsize.ge fun p q hq => (hnext p q (hsize ▸ hq)).mpr
  apply NatSet.ext_mem
  intro q
  simp only [mem_reach, ← hreaches]
  constructor
  · intro hr
    obtain ⟨r, hr, hrq⟩ := hr
    exact ⟨r, (hroots r hrq.source_lt).mp hr, hrq⟩
  · intro hr
    obtain ⟨r, hr, hrq⟩ := hr
    exact ⟨r, (hroots r hrq.source_lt).mpr hr, hrq⟩

end Graph

namespace Nfa

/-- The same states and the same edges between them. Edges to numbers that are no states may differ. -/
structure SameInside (a b : Nfa) : Prop where
  size_eq : a.size = b.size
  accept_eq : a.accept = b.accept
  mem_targets : ∀ p l t, t < a.size → (t ∈ a.targets p l ↔ t ∈ b.targets p l)

namespace SameInside

variable {a b : Nfa} (h : SameInside a b)
include h

theorem closure_eq {ps qs : List Nat} (hroots : ∀ q, q < a.size → (q ∈ ps ↔ q ∈ qs)) :
    a.closure ps = b.closure qs :=
  Graph.reach_congr h.size_eq (fun p q hq => h.mem_targets p none q hq) hroots

theorem step_eq (s : NatSet) (c : Char) : a.step s c = b.step s c := by
  apply h.closure_eq
  intro q hq
  simp only [← NatSet.mem_def, mem_move, h.mem_targets _ _ q hq]

theorem machine_eq : a.machine = b.machine := by
  unfold machine
  rw [h.closure_eq fun _ _ => Iff.rfl, h.accept_eq]
  simp only [h.step_eq]

theorem run_eq (w : List Char) : a.run w = b.run w := by
  rw [run, run, h.machine_eq]

theorem toDfa_eq : a.toDfa = b.toDfa :=
  SetMachine.toDfa_congr (lawful_setMachine a) (lawful_setMachine b) h.machine_eq .nfaStates

end SameInside

/-- The same states, and between them the same edges in any order and any number. -/
structure SameEdges (a b : Nfa) : Prop where
  size_eq : a.size = b.size
  accept_eq : a.accept = b.accept
  mem_edges : ∀ q e, e ∈ a.edges q ↔ e ∈ b.edges q

theorem sameEdges_of_transitions {a b : Nfa} (hsize : a.size = b.size) (haccept : a.accept = b.accept)
    (hedges : ∀ x, x ∈ a.transitions ↔ x ∈ b.transitions) : SameEdges a b := by
  refine ⟨hsize, haccept, ?_⟩
  intro q e
  rw [← mem_transitions, ← mem_transitions]
  exact hedges _

namespace SameEdges

variable {a b : Nfa} (h : SameEdges a b)
include h

theorem mem_targets (p t : Nat) (l : Option Char) : t ∈ a.targets p l ↔ t ∈ b.targets p l := by
  rw [Nfa.mem_targets, Nfa.mem_targets, h.mem_edges]

theorem inside : SameInside a b where
  size_eq := h.size_eq
  accept_eq := h.accept_eq
  mem_targets p l t _ := h.mem_targets p t l

theorem move_eq (s : NatSet) (c : Char) : a.move s c = b.move s c := by
  apply NatSet.ext_mem
  intro q
  simp only [mem_move, h.mem_targets]

theorem alphabet_eq : a.alphabet = b.alphabet := by
  apply alphabetOf_congr
  intro c
  have hmem : c ∈ a.alphabet ↔ c ∈ b.alphabet := by
    simp only [mem_alphabet, h.mem_targets]
  simpa only [alphabet, mem_alphabetOf] using hmem

theorem reachable?_eq : a.reachable? = b.reachable? := by
  have hreach : a.graph.reach [0] = b.graph.reach [0] := by
    refine Graph.reach_congr h.size_eq ?_ fun _ _ => Iff.rfl
    intro p q _
    simp only [graph, List.mem_map, h.mem_edges]
  have hinside : ∀ q, ((a.edges q).all fun e => decide (e.2 < a.size)) =
      (b.edges q).all fun e => decide (e.2 < b.size) := by
    intro q
    rw [Bool.eq_iff_iff]
    simp only [List.all_eq_true, h.mem_edges, h.size_eq]
  simp only [reachable?, hreach, hinside]

end SameEdges

def addEdges (n : Nfa) (xs : List (Nat × Option Char × Nat)) : Nfa :=
  xs.foldl (fun n x => n.addEdge x.1 x.2.1 x.2.2) n

variable {n : Nfa} {xs ys : List (Nat × Option Char × Nat)}

theorem addEdges_cons (x : Nat × Option Char × Nat) :
    n.addEdges (x :: xs) = (n.addEdge x.1 x.2.1 x.2.2).addEdges xs := rfl

theorem size_addEdges (n : Nfa) (xs : List (Nat × Option Char × Nat)) : (n.addEdges xs).size = n.size := by
  induction xs generalizing n with
  | nil => rfl
  | cons x xs ih => exact (ih _).trans (n.size_addEdge x.1 x.2.1 x.2.2)

theorem accept_addEdges (n : Nfa) (xs : List (Nat × Option Char × Nat)) : (n.addEdges xs).accept = n.accept := by
  induction xs generalizing n with
  | nil => rfl
  | cons x xs ih => exact ih _

theorem mem_edges_addEdges {q : Nat} {e : Option Char × Nat} :
    e ∈ (n.addEdges xs).edges q ↔ e ∈ n.edges q ∨ (q < n.size ∧ (q, e) ∈ xs) := by
  induction xs generalizing n with
  | nil => simp [addEdges]
  | cons x xs ih =>
    obtain ⟨p, l, t⟩ := x
    rw [addEdges_cons, ih, mem_edges_addEdge, size_addEdge, List.mem_cons]
    constructor
    · intro h
      rcases h with (he | ⟨rfl, hq, rfl⟩) | ⟨hq, he⟩
      · exact Or.inl he
      · exact Or.inr ⟨hq, Or.inl rfl⟩
      · exact Or.inr ⟨hq, Or.inr he⟩
    · intro h
      rcases h with he | ⟨hq, heq | he⟩
      · exact Or.inl (Or.inl he)
      · cases heq
        exact Or.inl (Or.inr ⟨rfl, hq, rfl⟩)
      · exact Or.inr ⟨hq, he⟩

theorem sameEdges_addEdges (n : Nfa) (h : ∀ x, x ∈ xs ↔ x ∈ ys) : SameEdges (n.addEdges xs) (n.addEdges ys) := by
  refine ⟨?_, ?_, ?_⟩
  · rw [size_addEdges, size_addEdges]
  · rw [accept_addEdges, accept_addEdges]
  · intro q e
    rw [mem_edges_addEdges, mem_edges_addEdges, h]

/-- Automata with as many states, the same accepting state and the same edges, whatever their order
and their number, agree in everything that is computed from them. -/
theorem edge_order_irrelevant {a b : Nfa} (hsize : a.size = b.size) (haccept : a.accept = b.accept)
    (hedges : ∀ x, x ∈ a.transitions ↔ x ∈ b.transitions) :
    (∀ ps qs, (∀ q, q ∈ ps ↔ q ∈ qs) → a.closure ps = b.closure qs) ∧
      (∀ s c, a.move s c = b.move s c ∧ a.step s c = b.step s c) ∧
      a.alphabet = b.alphabet ∧ a.reachable? = b.reachable? ∧ (∀ w, a.run w = b.run w) ∧ a.toDfa = b.toDfa := by
  have h := sameEdges_of_transitions hsize haccept hedges
  refine ⟨?_, ?_, h.alphabet_eq, h.reachable?_eq, h.inside.run_eq, h.inside.toDfa_eq⟩
  · intro ps qs hroots
    exact h.inside.closure_eq fun q _ => hroots q
  · intro s c
    exact ⟨h.move_eq s c, h.inside.step_eq s c⟩

theorem edge_order_irrelevant_repeated :
    ∃ a b : Nfa, a = addEdges ⟨#[[], [], []], 1⟩ [(0, some 'a', 1), (0, none, 2), (0, none, 1), (2, none, 0)] ∧
      b = addEdges ⟨#[[], [], []], 1⟩ [(0, none, 1), (2, none, 0), (0, none, 2), (0, some 'a', 1), (0, none, 2)] ∧
      a ≠ b ∧ a.toDfa = b.toDfa := by
  refine ⟨_, _, rfl, rfl, by decide, (edge_order_irrelevant ?_ ?_ ?_).2.2.2.2.2⟩
  · rfl
  · rfl
  · intro x
    rw [mem_transitions, mem_transitions]
    exact (sameEdges_addEdges _ (by grind)).mem_edges x.1 x.2

end Nfa
end PatternAutomata
