import PatternAutomata.Proofs.Nfa.Coaccessible
import PatternAutomata.Proofs.Pattern.Printing

/-!
# The shape of composed automata

An automaton composed along a postfix expression has two states for every operand, union and star. No edge
enters its start or leaves its accepting state, and from each other state there is one edge with a symbol, or
there are one or two empty moves. Every state lies on a path from the start to the accepting state.
-/

namespace PatternAutomata.Nfa

set_option autoImplicit false

open scoped Computability

variable {a b n : Nfa} {i k q s t : Nat} {l : Option Char} {xs : List Token}

theorem edges_addEdge_of_ne (h : q ≠ s) : (n.addEdge s l t).edges q = n.edges q := by
  simp only [edges, addEdge, Array.getElem?_modify, if_neg h.symm]

theorem edges_addEdge_self (h : s < n.size) : (n.addEdge s l t).edges s = addTo (n.edges s) (l, t) := by
  have hs : n.states[s]? = some n.states[s] := Array.getElem?_eq_getElem h
  simp only [edges, addEdge, Array.getElem?_modify, if_true, hs, Option.map_some, Option.getD_some]

theorem edges_append_left {xs ys : Array (List (Option Char × Nat))} {j : Nat} (hq : q < xs.size) :
    (Nfa.mk (xs ++ ys) i).edges q = (Nfa.mk xs j).edges q := by
  simp only [edges, Array.getElem?_append_left hq]

theorem edges_append_shift (xs ys : Array (List (Option Char × Nat))) (i j k q : Nat) :
    (Nfa.mk (xs ++ ys.map (shift k)) i).edges (q + xs.size) = shift k ((Nfa.mk ys j).edges q) := by
  rw [edges, Array.getElem?_append_right (Nat.le_add_left _ _), Nat.add_sub_cancel, Array.getElem?_map]
  cases h : ys[q]? <;> simp [edges, h, shift, displace]

/-- The edges of `a` are those of `n` on the states moved up by `k`, but for the accepting state: if it has no
edges of its own, it has empty moves to the exits. -/
structure Part (n a : Nfa) (k : Nat) (exits : List Nat) : Prop where
  edges_eq : ∀ i, i < a.size → i ≠ a.accept → n.edges (i + k) = shift k (a.edges i)
  edges_accept : a.edges a.accept = [] → n.edges (a.accept + k) = exits.map fun t => (none, t)

theorem concat_eq (a b : Nfa) :
    a.concat b = addEdge ⟨a.states ++ b.states.map (shift a.size), b.accept + a.size⟩ a.accept none a.size := rfl

section Concat

variable (ha : a.accept < a.size)
include ha

theorem part_concat_left : Part (a.concat b) a 0 [a.size] := by
  have hinner : ∀ i, i < a.size →
      Nfa.edges ⟨a.states ++ b.states.map (shift a.size), b.accept + a.size⟩ i = a.edges i :=
    fun i hi => edges_append_left (j := a.accept) hi
  constructor
  · intro i hi hne
    have hshift : shift 0 (a.edges i) = a.edges i := by simp [shift, displace]
    rw [Nat.add_zero, hshift, concat_eq, edges_addEdge_of_ne hne, hinner i hi]
  · intro hnil
    have hsize : a.accept < Nfa.size ⟨a.states ++ b.states.map (shift a.size), b.accept + a.size⟩ := by
      rw [size, Array.size_append]
      exact Nat.lt_add_right _ ha
    rw [Nat.add_zero, concat_eq, edges_addEdge_self hsize, hinner _ ha, hnil]
    rfl

theorem part_concat_right : Part (a.concat b) b a.size [] := by
  have hedges : ∀ i, (a.concat b).edges (i + a.size) = shift a.size (b.edges i) := by
    intro i
    rw [concat_eq, edges_addEdge_of_ne (by omega)]
    exact edges_append_shift a.states b.states _ b.accept a.size i
  constructor
  · exact fun i _ _ => hedges i
  · intro hnil
    rw [hedges, hnil]
    rfl

end Concat

/-- An operand behind a new start and a new accepting state, not yet joined to them. -/
def entered (a : Nfa) : Nfa := ⟨#[[], []] ++ a.states.map (shift 2), 1⟩

/-- Two operands behind a new start and a new accepting state, not yet joined to them. -/
def aligned (a b : Nfa) : Nfa := ⟨a.entered.states ++ b.states.map (shift (a.size + 2)), 1⟩

theorem size_entered (a : Nfa) : a.entered.size = a.size + 2 := by
  simp [entered, size]
  omega

theorem size_aligned (a b : Nfa) : (a.aligned b).size = a.size + b.size + 2 := by
  have h : (a.aligned b).size = a.entered.size + b.size := by simp [aligned, size]
  rw [h, size_entered, Nat.add_right_comm]

theorem edges_entered_of_lt (a : Nfa) (hq : q < 2) : a.entered.edges q = [] := by
  rw [entered, edges_append_left (j := 1) hq]
  obtain rfl | rfl : q = 0 ∨ q = 1 := by omega
  · rfl
  · rfl

theorem edges_entered (a : Nfa) (i : Nat) : a.entered.edges (i + 2) = shift 2 (a.edges i) :=
  edges_append_shift #[[], []] a.states 1 a.accept 2 i

theorem edges_aligned_left (a b : Nfa) (hq : q < a.size + 2) : (a.aligned b).edges q = a.entered.edges q :=
  edges_append_left (j := 1) (hq.trans_eq (size_entered a).symm)

theorem edges_aligned_right (a b : Nfa) (i : Nat) :
    (a.aligned b).edges (i + (a.size + 2)) = shift (a.size + 2) (b.edges i) := by
  have h := edges_append_shift a.entered.states b.states 1 b.accept (a.size + 2) i
  have hsize : a.entered.states.size = a.size + 2 := size_entered a
  rwa [hsize] at h

theorem union_eq (a b : Nfa) :
    a.union b = ((((a.aligned b).addEdge 0 none 2).addEdge 0 none (a.size + 2)).addEdge (a.accept + 2) none 1).addEdge
      (b.accept + a.size + 2) none 1 := rfl

theorem star_eq (a : Nfa) :
    a.star = (((a.entered.addEdge 0 none 2).addEdge 0 none 1).addEdge (a.accept + 2) none 2).addEdge (a.accept + 2)
      none 1 := rfl

theorem edges_union_start (ha : 0 < a.size) : (a.union b).edges 0 = [(none, 2), (none, a.size + 2)] := by
  have hempty : (a.aligned b).edges 0 = [] := by
    rw [edges_aligned_left a b (Nat.succ_pos _), edges_entered_of_lt a Nat.two_pos]
  have hsize : 0 < (a.aligned b).size := by
    rw [size_aligned]
    exact Nat.succ_pos _
  rw [union_eq, edges_addEdge_of_ne (by omega), edges_addEdge_of_ne (by omega), edges_addEdge_self (by simpa),
    edges_addEdge_self hsize, hempty]
  simp [addTo]
  omega

theorem edges_union_of_ne (hstart : q ≠ 0) (ha : q ≠ a.accept + 2) (hb : q ≠ b.accept + a.size + 2) :
    (a.union b).edges q = (a.aligned b).edges q := by
  rw [union_eq, edges_addEdge_of_ne hb, edges_addEdge_of_ne ha, edges_addEdge_of_ne hstart, edges_addEdge_of_ne hstart]

theorem edges_union_sink (a b : Nfa) : (a.union b).edges 1 = [] := by
  rw [edges_union_of_ne (by omega) (by omega) (by omega), edges_aligned_left a b (by omega),
    edges_entered_of_lt a Nat.one_lt_two]

theorem part_union_left (ha : a.accept < a.size) : Part (a.union b) a 2 [1] := by
  have hedges : ∀ i, i < a.size → (a.aligned b).edges (i + 2) = shift 2 (a.edges i) := by
    intro i hi
    rw [edges_aligned_left a b (by omega), edges_entered]
  constructor
  · intro i hi hne
    rw [edges_union_of_ne (by omega) (by omega) (by omega), hedges i hi]
  · intro hnil
    have hsize : a.accept + 2 < (a.aligned b).size := by
      rw [size_aligned]
      omega
    rw [union_eq, edges_addEdge_of_ne (by omega), edges_addEdge_self (by simpa), edges_addEdge_of_ne (by omega),
      edges_addEdge_of_ne (by omega), hedges _ ha, hnil]
    rfl

theorem part_union_right (ha : a.accept < a.size) (hb : b.accept < b.size) : Part (a.union b) b (a.size + 2) [1] := by
  constructor
  · intro i hi hne
    rw [edges_union_of_ne (by omega) (by omega) (by omega), edges_aligned_right]
  · intro hnil
    have hsize : b.accept + a.size + 2 < (a.aligned b).size := by
      rw [size_aligned]
      omega
    rw [union_eq, ← Nat.add_assoc, edges_addEdge_self (by simpa), edges_addEdge_of_ne (by omega),
      edges_addEdge_of_ne (by omega), edges_addEdge_of_ne (by omega), Nat.add_assoc, edges_aligned_right, hnil]
    rfl

theorem edges_star_start (a : Nfa) : a.star.edges 0 = [(none, 2), (none, 1)] := by
  have hempty : a.entered.edges 0 = [] := edges_entered_of_lt a Nat.two_pos
  have hsize : 0 < a.entered.size := by
    rw [size_entered]
    exact Nat.succ_pos _
  rw [star_eq, edges_addEdge_of_ne (by omega), edges_addEdge_of_ne (by omega), edges_addEdge_self (by simpa),
    edges_addEdge_self hsize, hempty]
  rfl

theorem edges_star_of_ne (hstart : q ≠ 0) (ha : q ≠ a.accept + 2) : a.star.edges q = a.entered.edges q := by
  rw [star_eq, edges_addEdge_of_ne ha, edges_addEdge_of_ne ha, edges_addEdge_of_ne hstart, edges_addEdge_of_ne hstart]

theorem edges_star_sink (a : Nfa) : a.star.edges 1 = [] := by
  rw [edges_star_of_ne (by omega) (by omega), edges_entered_of_lt a Nat.one_lt_two]

theorem part_star (ha : a.accept < a.size) : Part a.star a 2 [2, 1] := by
  constructor
  · intro i hi hne
    rw [edges_star_of_ne (by omega) (by omega), edges_entered]
  · intro hnil
    have hsize : a.accept + 2 < a.entered.size := by
      rw [size_entered]
      exact Nat.add_lt_add_right ha 2
    rw [star_eq, edges_addEdge_self (by simpa), edges_addEdge_self (by simpa), edges_addEdge_of_ne (by omega),
      edges_addEdge_of_ne (by omega), edges_entered, hnil]
    rfl

/-- One edge with a symbol, one empty move, or two of them. -/
def Branching (es : List (Option Char × Nat)) : Prop :=
  (∃ c t, es = [(some c, t)]) ∨ (∃ t, es = [(none, t)]) ∨ ∃ t u, t ≠ u ∧ es = [(none, t), (none, u)]

theorem Branching.shift {es : List (Option Char × Nat)} (h : Branching es) (k : Nat) :
    Branching (Nfa.shift k es) := by
  rcases h with ⟨c, t, rfl⟩ | ⟨t, rfl⟩ | ⟨t, u, hne, rfl⟩
  · exact Or.inl ⟨c, t + k, rfl⟩
  · exact Or.inr (Or.inl ⟨t + k, rfl⟩)
  · exact Or.inr (Or.inr ⟨t + k, u + k, fun h => hne (Nat.add_right_cancel h), rfl⟩)

/-- No edge enters the start or leaves the accepting state, and each other state branches. -/
structure Fragment (n : Nfa) : Prop extends n.WellFormed where
  accept_ne_start : n.accept ≠ 0
  start_not_entered : ∀ q l, 0 ∉ n.targets q l
  accept_not_left : n.edges n.accept = []
  branching : ∀ q, q < n.size → q ≠ n.accept → Branching (n.edges q)

/-- The states of a part branch, the accepting state by its exits. -/
theorem Part.branching {exits : List Nat} (h : Part n a k exits) (ha : a.Fragment)
    (hexits : Branching (exits.map fun t => (none, t))) (hi : i < a.size) : Branching (n.edges (i + k)) := by
  by_cases haccept : i = a.accept
  · rw [haccept, h.edges_accept ha.accept_not_left]
    exact hexits
  · rw [h.edges_eq i hi haccept]
    exact (ha.branching i hi haccept).shift k

theorem branching_exit (t : Nat) : Branching ([t].map fun t => (none, t)) := Or.inr (Or.inl ⟨t, rfl⟩)

theorem fragment_single (label : Option Char) : (single label).Fragment := by
  have haccept : (single label).accept = 1 := rfl
  refine ⟨wellFormed_single label, Nat.one_ne_zero, ?_, rfl, ?_⟩
  · intro q l h
    cases (mem_targets_single.mp h).2.2
  · intro q hq hne
    rw [size_single] at hq
    obtain rfl : q = 0 := by omega
    cases label with
    | none => exact Or.inr (Or.inl ⟨1, rfl⟩)
    | some c => exact Or.inl ⟨c, 1, rfl⟩

theorem Fragment.concat (ha : a.Fragment) (hb : b.Fragment) : (a.concat b).Fragment := by
  have haccept : (a.concat b).accept = b.accept + a.size := rfl
  have hleft := part_concat_left (b := b) ha.accept_lt
  have hright := part_concat_right (b := b) ha.accept_lt
  have hpos := ha.start_lt
  refine ⟨ha.toWellFormed.concat hb.toWellFormed, by omega, ?_, ?_, ?_⟩
  · intro q l h
    rcases (mem_targets_concat ha.accept_lt).mp h with h | ⟨_, _, _, ht, _⟩ | ⟨_, _, ht⟩
    · exact ha.start_not_entered q l h
    · omega
    · omega
  · exact hright.edges_accept hb.accept_not_left
  · intro q hq hne
    rw [size_concat] at hq
    by_cases hlt : q < a.size
    · exact hleft.branching ha (branching_exit _) hlt
    · obtain ⟨i, rfl⟩ : ∃ i, q = i + a.size := ⟨q - a.size, by omega⟩
      have hi : i < b.size := by omega
      have hne' : i ≠ b.accept := by omega
      rw [hright.edges_eq i hi hne']
      exact (hb.branching i hi hne').shift a.size

theorem Fragment.union (ha : a.Fragment) (hb : b.Fragment) : (a.union b).Fragment := by
  have haccept : (a.union b).accept = 1 := rfl
  have hpos := ha.start_lt
  refine ⟨ha.toWellFormed.union hb.toWellFormed, Nat.one_ne_zero, ?_, edges_union_sink a b, ?_⟩
  · intro q l h
    have := (mem_targets_union ha.accept_lt hb.accept_lt).mp h
    omega
  · intro q hq hne
    rw [size_union] at hq
    rcases q with _ | _ | q
    · rw [edges_union_start hpos]
      exact Or.inr (Or.inr ⟨2, a.size + 2, by omega, rfl⟩)
    · exact absurd rfl hne
    · by_cases hlt : q < a.size
      · exact (part_union_left ha.accept_lt).branching ha (branching_exit 1) hlt
      · obtain ⟨i, rfl⟩ : ∃ i, q = i + a.size := ⟨q - a.size, by omega⟩
        exact (part_union_right ha.accept_lt hb.accept_lt).branching hb (branching_exit 1) (by omega)

theorem Fragment.star (ha : a.Fragment) : a.star.Fragment := by
  refine ⟨ha.toWellFormed.star, Nat.one_ne_zero, ?_, edges_star_sink a, ?_⟩
  · intro q l h
    have := (mem_targets_star ha.accept_lt).mp h
    omega
  · intro q hq hne
    have hexits : ∀ t u : Nat, t ≠ u → Branching ([t, u].map fun t => (none, t)) :=
      fun t u h => Or.inr (Or.inr ⟨t, u, h, rfl⟩)
    rw [size_star] at hq
    rcases q with _ | _ | q
    · rw [edges_star_start]
      exact hexits 2 1 (by omega)
    · exact absurd rfl hne
    · exact (part_star ha.accept_lt).branching ha (hexits 2 1 (by omega)) (by omega)

/-- A path leads from the start to each state. -/
def Accessible (n : Nfa) : Prop := ∀ q, q < n.size → ∃ w, w ∈ n.words 0 q

theorem accessible_single (label : Option Char) : (single label).Accessible := by
  intro q hq
  rw [size_single] at hq
  rcases q with _ | _ | q
  · exact ⟨[], Path.refl Nat.two_pos⟩
  · exact ⟨label.toList ++ [], Path.step (mem_targets_single.mpr ⟨rfl, rfl, rfl⟩) (.refl Nat.one_lt_two)⟩
  · omega

section Compositions

variable (ha : a.WellFormed) (hb : b.WellFormed) (hca : a.Accessible) (hcb : b.Accessible)

include ha hb hca hcb in
theorem Accessible.concat : (a.concat b).Accessible := by
  intro q hq
  rw [size_concat] at hq
  by_cases hleft : q < a.size
  · rw [words_concat_left ha hb ha.start_lt hleft]
    exact hca q hleft
  · obtain ⟨i, rfl⟩ : ∃ i, q = i + a.size := ⟨q - a.size, by omega⟩
    rw [words_concat_across ha hb ha.start_lt]
    exact exists_mem_mul (hca a.accept ha.accept_lt) (hcb i (by omega))

include ha hb hca hcb in
theorem Accessible.union : (a.union b).Accessible := by
  intro q hq
  rw [size_union] at hq
  rcases q with _ | _ | q
  · exact ⟨[], Path.refl (by rw [size_union]; omega)⟩
  · change ∃ w, w ∈ (a.union b).language
    rw [language_union ha hb]
    exact (hca a.accept ha.accept_lt).imp fun _ hw => Or.inl hw
  · by_cases hleft : q < a.size
    · rw [words_union_start_left ha hb hleft]
      exact hca q hleft
    · obtain ⟨i, rfl⟩ : ∃ i, q = i + a.size := ⟨q - a.size, by omega⟩
      rw [Nat.add_assoc, Nat.add_assoc, words_union_start_right ha hb]
      exact hcb i (by omega)

include ha hca in
theorem Accessible.star : a.star.Accessible := by
  intro q hq
  rw [size_star] at hq
  rcases q with _ | _ | q
  · exact ⟨[], Path.refl (by rw [size_star]; omega)⟩
  · rw [words_star_start ha (by omega), wordsAfter_accept ha]
    exact ⟨[], Language.nil_mem_kstar _⟩
  · rw [words_star_start ha (by omega), wordsAfter_inside ha]
    exact exists_mem_mul ⟨[], Language.nil_mem_kstar _⟩ (hca q (by omega))

end Compositions

theorem Path.reaches {w : List Char} {p : Nat} (h : n.Path p w q) : n.graph.Reaches p q := by
  refine edge_induction (motive := fun p _ => n.graph.Reaches p q) ?_ ?_ h
  · exact fun hq => .refl hq
  · intro p t l w he _ ih
    exact .head (lt_of_mem_targets he) (List.mem_map.mpr ⟨(l, t), mem_targets.mp he, rfl⟩) ih

theorem Accessible.reachable?_eq (hn : n.WellFormed) (h : n.Accessible) :
    n.reachable? = some (.ofList (List.range n.size)) := by
  have hall : n.graph.reach [0] = .ofList (List.range n.size) := by
    apply NatSet.ext_mem
    intro q
    rw [NatSet.mem_ofList, List.mem_range]
    constructor
    · exact Graph.lt_of_mem_reach
    · intro hq
      obtain ⟨w, hw⟩ := h q hq
      exact Graph.mem_reach.mpr ⟨0, List.mem_singleton.mpr rfl, Path.reaches hw⟩
  rw [reachable?, hall]
  apply if_pos
  simp only [List.all_eq_true, decide_eq_true_eq]
  exact fun q _ e he => hn.targets_lt q e he

theorem fragment_ofRegex (r : Regex Char) : (ofRegex r).Fragment := by
  induction r with
  | epsilon => exact fragment_single none
  | leaf c => exact fragment_single (some c)
  | star r ih => exact ih.star
  | concat l r ihl ihr => exact ihl.concat ihr
  | union l r ihl ihr => exact ihl.union ihr

theorem accessible_ofRegex (r : Regex Char) : (ofRegex r).Accessible := by
  induction r with
  | epsilon => exact accessible_single none
  | leaf c => exact accessible_single (some c)
  | star r ih => exact ih.star (wellFormed_ofRegex r)
  | concat l r ihl ihr => exact ihl.concat (wellFormed_ofRegex l) (wellFormed_ofRegex r) ihr
  | union l r ihl ihr => exact ihl.union (wellFormed_ofRegex l) (wellFormed_ofRegex r) ihr

theorem size_ofRegex (r : Regex Char) :
    (ofRegex r).size = 2 * ((r.map Letter.char).tokens.countP Token.isOperand +
      (r.map Letter.char).tokens.count (.operator .union) + (r.map Letter.char).tokens.count (.operator .star)) := by
  induction r with
  | epsilon => rfl
  | leaf c => rfl
  | star r ih =>
    rw [ofRegex, size_star, ih]
    simp [Regex.map, Regex.tokens, Token.isOperand, List.countP_append, List.count_append]
    omega
  | concat l r ihl ihr =>
    rw [ofRegex, size_concat, ihl, ihr]
    simp [Regex.map, Regex.tokens, Token.isOperand, List.countP_append, List.count_append]
    omega
  | union l r ihl ihr =>
    rw [ofRegex, size_union, ihl, ihr]
    simp [Regex.map, Regex.tokens, Token.isOperand, List.countP_append, List.count_append]
    omega

/-- The end mark has no automaton. -/
theorem endMark_not_mem_of_evaluateFrom {stack : List Nfa} {xs : List Token}
    (h : Postfix.evaluateFrom interpretation stack xs = .ok n) : Token.letter .endMark ∉ xs := by
  induction xs generalizing stack with
  | nil => exact List.not_mem_nil
  | cons x xs ih =>
    unfold Postfix.evaluateFrom at h
    cases hx : Postfix.evaluateToken interpretation stack x with
    | error e =>
      rw [hx] at h
      cases h
    | ok below =>
      rw [hx] at h
      apply List.not_mem_cons_of_ne_of_not_mem ?_ (ih h)
      rintro rfl
      cases hx

theorem exists_term (h : ofPostfix xs = .ok n) :
    ∃ r : Regex Char, (r.map Letter.char).tokens = xs ∧ ofRegex r = n := by
  have hend := endMark_not_mem_of_evaluateFrom h
  rw [ofPostfix_eq_map] at h
  cases hr : Regex.ofTokens xs with
  | error e =>
    rw [hr] at h
    cases h
  | ok r =>
    rw [hr] at h
    cases h
    refine ⟨r, Regex.ofPostfix_eq_ok.mp ?_, rfl⟩
    rw [Regex.ofPostfix_eq_map hend, hr]
    rfl

/-- What an automaton made from a postfix expression looks like: two states for every operand, union and star,
the shape of a fragment, all states reachable and the accepting state reachable from each of them. -/
theorem ofPostfix_fragment (h : ofPostfix xs = .ok n) :
    n.size = 2 * (xs.countP Token.isOperand + xs.count (.operator .union) + xs.count (.operator .star)) ∧
      n.Fragment ∧ n.reachable? = some (.ofList (List.range n.size)) ∧
        ∀ q, q < n.size → ∃ w, n.Path q w n.accept := by
  obtain ⟨r, rfl, rfl⟩ := exists_term h
  have haccessible := (accessible_ofRegex r).reachable?_eq (wellFormed_ofRegex r)
  exact ⟨size_ofRegex r, fragment_ofRegex r, haccessible, coaccessible_ofRegex r⟩

theorem ofPostfix_fragment_nested :
    ∃ n, ofPostfix [.letter (.char 'a'), .epsilon, .operator .union, .operator .star, .letter (.char 'b'),
        .operator .concat, .operator .star] = .ok n ∧
      n.size = 12 ∧ n.Fragment ∧ n.reachable? = some (.ofList (List.range 12)) ∧
        ∃ w, n.Path 11 w n.accept := by
  have h : ofPostfix [.letter (.char 'a'), .epsilon, .operator .union, .operator .star, .letter (.char 'b'),
      .operator .concat, .operator .star] =
      .ok (star (concat (star (union (literal 'a') epsilon)) (literal 'b'))) := rfl
  obtain ⟨hsize, hfragment, hreachable, haccept⟩ := ofPostfix_fragment h
  have htwelve : _ = 12 := hsize.trans (by decide)
  rw [htwelve] at hreachable
  exact ⟨_, h, htwelve, hfragment, hreachable, haccept 11 (by rw [htwelve]; decide)⟩

end PatternAutomata.Nfa
