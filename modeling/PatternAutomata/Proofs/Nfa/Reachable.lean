import PatternAutomata.Nfa.Basic
import PatternAutomata.Proofs.Search

/-!
# Search for the reachable states

The states that can be reached are found by a search along all edges from the start. A look at a number that
is no state fails, and the search with it. So a search fails if and only if an edge leads from a reachable
state to such a number.
-/

namespace PatternAutomata.Nfa

set_option autoImplicit false

variable {n : Nfa} {q fuel : Nat}

def look? (n : Nfa) (_ : Unit) (q : Nat) : Option (Unit × List Nat) :=
  n.states[q]?.map fun es => ((), es.map Prod.snd)

/-- The states that a search sees within so many looks. -/
def searchReachable? (n : Nfa) (fuel : Nat) : Option NatSet :=
  (Frontier.search n.look? fuel () ⟨.singleton 0, [0]⟩).map Prod.snd

theorem look?_of_lt (hq : q < n.size) : n.look? () q = some ((), n.graph.next q) := by
  rw [look?, Array.getElem?_eq_getElem hq, Option.map_some]
  simp [graph, edges, Array.getElem?_eq_getElem hq]

theorem of_look? {y : Unit × List Nat} (h : n.look? () q = some y) : q < n.size ∧ y.2 = n.graph.next q := by
  obtain ⟨es, hes, _⟩ := Option.map_eq_some_iff.mp h
  have hq : q < n.size := (Array.getElem?_eq_some_iff.mp hes).1
  rw [look?_of_lt hq] at h
  cases h
  exact ⟨hq, rfl⟩

theorem reachable?_eq_some {s : NatSet} :
    n.reachable? = some s ↔
      (∀ q, q ∈ n.graph.reach [0] → ∀ t ∈ n.graph.next q, t < n.size) ∧ n.graph.reach [0] = s := by
  simp only [reachable?, Option.ite_none_right_eq_some, Option.some.injEq, List.all_eq_true, decide_eq_true_eq, graph,
    List.forall_mem_map]
  rfl

theorem explores_start (hn : 0 < n.size) : Frontier.Explores ⟨.singleton 0, [0]⟩ n.graph [0] [] := by
  apply Frontier.explores_roots (List.nodup_singleton 0)
  intro r hr
  rwa [List.mem_singleton.mp hr]

theorem lt_of_searchReachable? {s : NatSet} (hn : 0 < n.size) (h : n.searchReachable? fuel = some s) :
    ∀ q, q ∈ n.graph.reach [0] → ∀ t ∈ n.graph.next q, t < n.size := by
  obtain ⟨⟨_, seen⟩, hs, _⟩ := Option.map_eq_some_iff.mp h
  obtain ⟨hroot, hall⟩ := Frontier.of_search (P := fun q found => q < n.size ∧ found = n.graph.next q)
    (fun _ _ _ => of_look?) (explores_start hn).toTracks (fun _ hq => absurd hq List.not_mem_nil) hs
  have hclosed : ∀ q, q ∈ seen → q < n.size ∧ ∀ t ∈ n.graph.next q, t ∈ seen := by
    intro q hq
    obtain ⟨found, ⟨hlt, rfl⟩, hseen⟩ := hall q hq
    exact ⟨hlt, hseen⟩
  have hseen : ∀ q, n.graph.Reaches 0 q → q ∈ seen := by
    intro q hq
    induction hq with
    | refl _ => exact hroot 0 (NatSet.mem_singleton.mpr rfl)
    | tail _ hnext _ ih => exact (hclosed _ ih).2 _ hnext
  intro q hq t ht
  obtain ⟨r, hr, hrq⟩ := Graph.mem_reach.mp hq
  obtain rfl := List.mem_singleton.mp hr
  exact (hclosed t ((hclosed q (hseen q hrq)).2 t ht)).1

/-- As many looks as there are states are enough where all edges from reachable states lead to states. -/
theorem searchReachable?_eq_some (hn : 0 < n.size) (hfuel : n.size ≤ fuel)
    (hinside : ∀ q, q ∈ n.graph.reach [0] → ∀ t ∈ n.graph.next q, t < n.size) :
    n.searchReachable? fuel = some (n.graph.reach [0]) := by
  have hlook : ∀ (_ : List Nat) (tables : Unit) q, True → q < n.graph.size → ∃ next found,
      n.look? tables q = some (next, found) ∧ True ∧ ∀ t, t ∈ found ↔ t ∈ n.graph.next q :=
    fun _ _ q _ hq => ⟨(), n.graph.next q, look?_of_lt hq, trivial, fun _ => Iff.rfl⟩
  obtain ⟨last, _, hs, _⟩ := Frontier.exists_search (fun q hq => hinside q (Graph.mem_reach.mpr hq)) hlook
    (explores_start hn) trivial (Nat.le_trans hfuel (Nat.le_add_left _ _))
  rw [searchReachable?, hs, Option.map_some]

theorem searchReachable?_eq (hn : 0 < n.size) (hfuel : n.size ≤ fuel) : n.searchReachable? fuel = n.reachable? := by
  apply Option.ext
  intro s
  rw [reachable?_eq_some]
  constructor
  · intro h
    have hinside := lt_of_searchReachable? hn h
    rw [searchReachable?_eq_some hn hfuel hinside] at h
    exact ⟨hinside, Option.some.inj h⟩
  · intro h
    rw [← h.2]
    exact searchReachable?_eq_some hn hfuel h.1

end PatternAutomata.Nfa
