import PatternAutomata.NatSet

/-!
# Reachability in a finite graph

The states of a graph are the numbers below its size; an edge to any other number leads nowhere.
`Graph.reach` collects the states that can be reached from given roots round by round, and
`Graph.mem_reach` says that these are exactly the states that a path leads to.
-/

namespace PatternAutomata

set_option autoImplicit false

structure Graph where
  size : Nat
  next : Nat → List Nat

namespace Graph

/-- A possibly empty path whose states are all below the size. -/
inductive Reaches (g : Graph) : Nat → Nat → Prop where
  | refl {q : Nat} : q < g.size → Reaches g q q
  | tail {p q r : Nat} : Reaches g p q → r ∈ g.next q → r < g.size → Reaches g p r

namespace Reaches

variable {g : Graph} {p q r : Nat}

theorem source_lt (h : g.Reaches p q) : p < g.size := by
  induction h with
  | refl hq => exact hq
  | tail _ _ _ ih => exact ih

theorem target_lt (h : g.Reaches p q) : q < g.size := by
  cases h with
  | refl hq => exact hq
  | tail _ _ hr => exact hr

theorem trans (hpq : g.Reaches p q) (hqr : g.Reaches q r) : g.Reaches p r := by
  induction hqr with
  | refl _ => exact hpq
  | tail _ he hr ih => exact .tail ih he hr

theorem head (hp : p < g.size) (he : q ∈ g.next p) (hqr : g.Reaches q r) : g.Reaches p r :=
  trans (.tail (.refl hp) he hqr.source_lt) hqr

end Reaches

/-- The states entered by an edge from `frontier` that are not in `seen`. -/
def fresh (g : Graph) (seen frontier : NatSet) : NatSet :=
  (NatSet.ofList (frontier.toList.flatMap g.next)).filter fun q => decide (q < g.size) && decide (q ∉ seen)

theorem mem_fresh {g : Graph} {seen frontier : NatSet} {q : Nat} :
    q ∈ g.fresh seen frontier ↔ (∃ p, p ∈ frontier ∧ q ∈ g.next p) ∧ q < g.size ∧ q ∉ seen := by
  simp only [fresh, NatSet.mem_filter, NatSet.mem_ofList, List.mem_flatMap, ← NatSet.mem_def,
    Bool.and_eq_true, decide_eq_true_eq]

def unseen (g : Graph) (seen : NatSet) : List Nat := (List.range g.size).filter fun q => decide (q ∉ seen)

theorem unseen_length_lt {g : Graph} {seen new : NatSet} {q : Nat} (hq : q ∈ new) (hlt : q < g.size)
    (hs : q ∉ seen) : (g.unseen (seen ∪ new)).length < (g.unseen seen).length := by
  have hsub : (g.unseen (seen ∪ new)).Sublist (g.unseen seen) := by
    have he : g.unseen (seen ∪ new) = (g.unseen seen).filter fun p => decide (p ∉ new) := by
      simp only [unseen, List.filter_filter]
      apply List.filter_congr
      intro p _
      by_cases h : p ∈ seen <;> by_cases h' : p ∈ new <;> simp [h, h']
    rw [he]
    exact List.filter_sublist
  apply Nat.lt_of_le_of_ne hsub.length_le
  intro he
  have hmem : q ∈ g.unseen seen := by simp [unseen, hlt, hs]
  rw [← hsub.eq_of_length he] at hmem
  simp [unseen, hq] at hmem

/-- Adds what can be reached from `frontier`, one round of edges at a time. -/
def grow (g : Graph) (seen frontier : NatSet) : NatSet :=
  if _h : g.fresh seen frontier = ∅ then seen
  else grow g (seen ∪ g.fresh seen frontier) (g.fresh seen frontier)
termination_by (g.unseen seen).length
decreasing_by
  obtain ⟨q, hq⟩ := NatSet.exists_mem_of_ne_empty _h
  obtain ⟨_, hlt, hs⟩ := mem_fresh.mp hq
  exact unseen_length_lt hq hlt hs

def reach (g : Graph) (roots : List Nat) : NatSet :=
  let start := NatSet.ofList (roots.filter fun q => decide (q < g.size))
  g.grow start start

theorem subset_grow (g : Graph) (seen frontier : NatSet) {q : Nat} (hq : q ∈ seen) :
    q ∈ g.grow seen frontier := by
  fun_induction grow g seen frontier with
  | case1 => exact hq
  | case2 seen frontier _ ih => exact ih (NatSet.mem_union.mpr (Or.inl hq))

theorem grow_sound (g : Graph) (seen frontier : NatSet) (P : Nat → Prop) (hseen : ∀ q, q ∈ seen → P q)
    (hfront : ∀ q, q ∈ frontier → P q) (hstep : ∀ p q, P p → q ∈ g.next p → q < g.size → P q) :
    ∀ q, q ∈ g.grow seen frontier → P q := by
  fun_induction grow g seen frontier with
  | case1 => exact hseen
  | case2 seen frontier _ ih =>
    have hnew : ∀ q, q ∈ g.fresh seen frontier → P q := fun q hq => by
      obtain ⟨⟨p, hp, he⟩, hlt, _⟩ := mem_fresh.mp hq
      exact hstep p q (hfront p hp) he hlt
    apply ih ?_ hnew
    intro q hq
    rcases NatSet.mem_union.mp hq with h | h
    · exact hseen q h
    · exact hnew q h

theorem grow_closed (g : Graph) (seen frontier : NatSet)
    (hinv : ∀ p q, p ∈ seen → q ∈ g.next p → q < g.size → q ∈ seen ∨ p ∈ frontier) :
    ∀ p q, p ∈ g.grow seen frontier → q ∈ g.next p → q < g.size → q ∈ g.grow seen frontier := by
  fun_induction grow g seen frontier with
  | case1 seen frontier h =>
    intro p q hp he hlt
    rcases hinv p q hp he hlt with hq | hf
    · exact hq
    · apply Decidable.byContradiction
      intro hq
      exact NatSet.eq_empty_iff.mp h q (mem_fresh.mpr ⟨⟨p, hf, he⟩, hlt, hq⟩)
  | case2 seen frontier _ ih =>
    apply ih
    intro p q hp he hlt
    rcases NatSet.mem_union.mp hp with h | h
    · apply Or.inl
      apply NatSet.mem_union.mpr
      rcases hinv p q h he hlt with hq | hf
      · exact Or.inl hq
      · by_cases hq : q ∈ seen
        · exact Or.inl hq
        · exact Or.inr (mem_fresh.mpr ⟨⟨p, hf, he⟩, hlt, hq⟩)
    · exact Or.inr h

/-- `reach` collects exactly the states at the end of a path from a root. -/
theorem mem_reach {g : Graph} {roots : List Nat} {q : Nat} :
    q ∈ g.reach roots ↔ ∃ r ∈ roots, g.Reaches r q := by
  constructor
  · have hroot : ∀ p, p ∈ NatSet.ofList (roots.filter fun q => decide (q < g.size)) →
        ∃ r ∈ roots, g.Reaches r p := fun p hp => by
      obtain ⟨hr, hlt⟩ := List.mem_filter.mp (NatSet.mem_ofList.mp hp)
      exact ⟨p, hr, .refl (of_decide_eq_true hlt)⟩
    exact grow_sound g _ _ (fun p => ∃ r ∈ roots, g.Reaches r p) hroot hroot
      (fun p q ⟨r, hr, hp⟩ he hlt => ⟨r, hr, .tail hp he hlt⟩) q
  · rintro ⟨r, hr, h⟩
    induction h with
    | refl hlt =>
      apply subset_grow
      apply NatSet.mem_ofList.mpr
      exact List.mem_filter.mpr ⟨hr, decide_eq_true hlt⟩
    | tail _ he hlt ih => exact grow_closed g _ _ (fun p q hp _ _ => Or.inr hp) _ _ ih he hlt

theorem lt_of_mem_reach {g : Graph} {roots : List Nat} {q : Nat} (h : q ∈ g.reach roots) : q < g.size := by
  obtain ⟨_, _, hr⟩ := mem_reach.mp h
  exact hr.target_lt

theorem mem_reach_of_reaches {g : Graph} {roots : List Nat} {p q : Nat} (hp : p ∈ g.reach roots)
    (hpq : g.Reaches p q) : q ∈ g.reach roots := by
  obtain ⟨r, hr, hrp⟩ := mem_reach.mp hp
  exact mem_reach.mpr ⟨r, hr, hrp.trans hpq⟩

def reverse (g : Graph) : Graph where
  size := g.size
  next q := (List.range g.size).filter fun p => decide (q ∈ g.next p)

theorem mem_reverse_next {g : Graph} {p q : Nat} : p ∈ g.reverse.next q ↔ p < g.size ∧ q ∈ g.next p := by
  simp [reverse]

theorem reverse_reaches {g : Graph} {p q : Nat} : g.reverse.Reaches q p ↔ g.Reaches p q := by
  constructor
  · intro h
    induction h with
    | refl hq => exact .refl hq
    | tail _ he hr ih => exact .head hr (mem_reverse_next.mp he).2 ih
  · intro h
    induction h with
    | refl hq => exact .refl hq
    | tail hp he hr ih => exact .head hr (mem_reverse_next.mpr ⟨hp.target_lt, he⟩) ih

end Graph
end PatternAutomata
