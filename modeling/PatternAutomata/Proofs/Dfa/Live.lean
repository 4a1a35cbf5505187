import PatternAutomata.Proofs.Dfa.Refinement

/-!
# Live states

A state is live if a word leads to it and a word is accepted from it, and the start is live in any
case. Without the edges out of the live states they keep their languages, and the words that lead to
them.
-/

namespace PatternAutomata.Dfa

set_option autoImplicit false

variable {d : Dfa} {s : NatSet} {p q t : Nat} {c : Char} {u v w : List Char}

@[simp] theorem size_restrict : (d.restrict s).size = d.size := by simp [restrict, size]

@[simp] theorem accepts_restrict : (d.restrict s).accepts q = d.accepts q := by
  rw [accepts, accepts, restrict, Array.getElem?_map]
  cases d.states[q]? <;> rfl

theorem row_restrict (d : Dfa) (s : NatSet) (q : Nat) : (d.restrict s).row q = (d.row q).restrict s := by
  rw [row, row, restrict, Array.getElem?_map]
  cases d.states[q]? <;> rfl

theorem next?_restrict : (d.restrict s).next? q c = some t ↔ d.next? q c = some t ∧ t ∈ s := by
  rw [next?, next?, row_restrict, ← Row.mem_toList_iff, ← Row.mem_toList_iff, Row.restrict]
  simp

theorem walk_of_restrict (h : (d.restrict s).machine.walk q w = some t) : d.machine.walk q w = some t := by
  induction w generalizing q with
  | nil => exact h
  | cons c w ih =>
    rw [Machine.walk_cons] at h ⊢
    obtain ⟨r, hr, hrt⟩ := Option.bind_eq_some_iff.mp h
    exact Option.bind_eq_some_iff.mpr ⟨r, (next?_restrict.mp hr).1, ih hrt⟩

theorem mem_graph_next : t ∈ d.graph.next p ↔ ∃ c, d.next? p c = some t := by
  simp [graph, Row.targets, next?, Row.mem_toList_iff]

theorem reaches_iff (hd : d.InRange) :
    d.graph.Reaches p q ↔ p < d.size ∧ ∃ w, d.machine.walk p w = some q := by
  constructor
  · intro h
    refine ⟨h.source_lt, ?_⟩
    induction h with
    | refl _ => exact ⟨[], rfl⟩
    | tail _ he _ ih =>
      obtain ⟨w, hw⟩ := ih
      obtain ⟨c, hc⟩ := mem_graph_next.mp he
      refine ⟨w ++ [c], ?_⟩
      rw [Machine.walk_append, hw]
      apply Option.bind_eq_some_iff.mpr
      exact ⟨_, rfl, Option.bind_eq_some_iff.mpr ⟨_, hc, rfl⟩⟩
  · intro h
    obtain ⟨hp, w, hw⟩ := h
    induction w generalizing p with
    | nil =>
      cases hw
      exact .refl hp
    | cons c w ih =>
      obtain ⟨t, ht, htq⟩ := Option.bind_eq_some_iff.mp hw
      exact .head hp (mem_graph_next.mpr ⟨c, ht⟩) (ih (hd.targets_lt p c t ht) htq)

theorem mem_accepting : q ∈ d.accepting ↔ d.accepts q = true := by
  simp only [accepting, NatSet.mem_ofList, List.mem_filter, List.mem_range]
  exact and_iff_right_of_imp lt_of_accepts

theorem mem_residual_iff : w ∈ d.residual q ↔ ∃ t, d.machine.walk q w = some t ∧ d.accepts t = true := by
  rw [mem_residual, Option.any_eq_true]

/-- The live states are the start and those between the start and an accepting state. -/
theorem mem_live (hd : d.InRange) :
    q ∈ d.live ↔ q = 0 ∨ (∃ w, d.machine.Leads w q) ∧ ∃ w, w ∈ d.residual q := by
  simp only [live, NatSet.mem_insert, NatSet.mem_filter, decide_eq_true_eq, Graph.mem_reach,
    Graph.reverse_reaches, ← NatSet.mem_def, mem_accepting, reaches_iff hd, List.mem_singleton,
    exists_eq_left, mem_residual_iff]
  apply or_congr Iff.rfl
  constructor
  · intro h
    obtain ⟨⟨_, hw⟩, t, ht, _, u, hu⟩ := h
    exact ⟨hw, u, t, hu, ht⟩
  · intro h
    obtain ⟨⟨w, hw⟩, u, t, hu, ht⟩ := h
    exact ⟨⟨hd.nonempty, w, hw⟩, t, ht, hd.leads_lt hw, u, hu⟩

section Live

variable (hd : d.InRange)
include hd

theorem start_mem_live : 0 ∈ d.live := (mem_live hd).mpr (Or.inl rfl)

theorem exists_leads_of_live (hq : q ∈ d.live) : ∃ w, d.machine.Leads w q := by
  rcases (mem_live hd).mp hq with rfl | ⟨hw, _⟩
  · exact ⟨[], Machine.leads_nil.mpr rfl⟩
  · exact hw

theorem lt_of_mem_live (hq : q ∈ d.live) : q < d.size := by
  obtain ⟨w, hw⟩ := exists_leads_of_live hd hq
  exact hd.leads_lt hw

theorem exists_word_of_live (hp : p ∈ d.live) (hq : q ∈ d.live) (hpq : p ≠ q) : ∃ w, w ∈ d.residual p := by
  rcases (mem_live hd).mp hp with rfl | ⟨_, hp⟩
  · rcases (mem_live hd).mp hq with rfl | ⟨⟨u, hu⟩, w, hw⟩
    · exact absurd rfl hpq
    · exact ⟨u ++ w, append_mem_residual.mpr ⟨q, hu, hw⟩⟩
  · exact hp

theorem walk_restrict_live (hu : d.machine.Leads u p) (hw : d.machine.walk p w = some q)
    (hv : v ∈ d.residual q) : (d.restrict d.live).machine.walk p w = some q := by
  induction w generalizing u p with
  | nil => exact hw
  | cons c w ih =>
    rw [Machine.walk_cons] at hw ⊢
    obtain ⟨t, ht, htq⟩ := Option.bind_eq_some_iff.mp hw
    have hleads : d.machine.Leads (u ++ [c]) t := Machine.leads_concat.mpr ⟨p, hu, ht⟩
    have hlive : t ∈ d.live := by
      apply (mem_live hd).mpr
      exact Or.inr ⟨⟨_, hleads⟩, w ++ v, append_mem_residual.mpr ⟨q, htq, hv⟩⟩
    exact Option.bind_eq_some_iff.mpr ⟨t, next?_restrict.mpr ⟨ht, hlive⟩, ih hleads htq⟩

theorem residual_restrict_live (hq : q ∈ d.live) : (d.restrict d.live).residual q = d.residual q := by
  apply Language.ext
  intro w
  rw [mem_residual_iff, mem_residual_iff]
  simp only [accepts_restrict]
  constructor
  · intro h
    obtain ⟨t, ht, haccept⟩ := h
    exact ⟨t, walk_of_restrict ht, haccept⟩
  · intro h
    obtain ⟨t, ht, haccept⟩ := h
    obtain ⟨u, hu⟩ := exists_leads_of_live hd hq
    exact ⟨t, walk_restrict_live hd hu ht (nil_mem_residual.mpr haccept), haccept⟩

theorem trimmed_live : (d.restrict d.live).Trimmed d.live where
  states q hq := by
    rw [size_restrict]
    exact lt_of_mem_live hd hq
  edges _ _ _ _ h := (next?_restrict.mp h).2
  start := start_mem_live hd
  productive x hx y hy hxy := by
    rw [residual_restrict_live hd hx]
    exact exists_word_of_live hd hx hy hxy

end Live

end PatternAutomata.Dfa
