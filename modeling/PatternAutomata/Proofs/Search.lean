import Mathlib.Data.List.Nodup
import Mathlib.Data.List.Perm.Subperm
import PatternAutomata.Graph

/-!
# Search in a graph

A search keeps the states that it has seen, and a queue of those that it has not looked at yet. Every
state enters the queue once. So if its looks at the states of a graph succeed, a search ends after as many
looks as there are states, and it has seen what its roots reach. A search that has ended has looked at all
that it has seen.
-/

namespace PatternAutomata

set_option autoImplicit false

/-- The states that a search has seen, and those that it still has to look at, the next one first. -/
structure Frontier where
  seen : NatSet
  queue : List Nat

namespace Frontier

variable {σ : Type} {g : Graph} {x : Frontier} {p q : Nat} {done found roots : List Nat}

/-- Puts a state that is seen for the first time at the end of the queue. -/
def visit (x : Frontier) (q : Nat) : Frontier :=
  if q ∈ x.seen then x else ⟨x.seen.insert q, x.queue ++ [q]⟩

/-- Looks at the states of the queue one after the other, at most at `fuel` of them. A look gives the
states that are found, and may write into the tables; it fails if it asks for a place that is not there. -/
def search (look : σ → Nat → Option (σ × List Nat)) : Nat → σ → Frontier → Option (σ × NatSet)
  | _, tables, ⟨seen, []⟩ => some (tables, seen)
  | 0, _, ⟨_, _ :: _⟩ => none
  | fuel + 1, tables, ⟨seen, q :: queue⟩ =>
    (look tables q).bind fun y => search look fuel y.1 (y.2.foldl visit ⟨seen, queue⟩)

/-- What was seen has been looked at or is in the queue, and no state twice. -/
structure Tracks (x : Frontier) (done : List Nat) : Prop where
  nodup : (done ++ x.queue).Nodup
  mem_seen : ∀ q, q ∈ x.seen ↔ q ∈ done ++ x.queue

theorem mem_seen_visit : p ∈ (x.visit q).seen ↔ p ∈ x.seen ∨ p = q := by
  rw [visit]
  split
  · rename_i hq
    constructor
    · exact Or.inl
    · intro h
      rcases h with h | rfl
      · exact h
      · exact hq
  · rw [NatSet.mem_insert, or_comm]

theorem mem_seen_visitAll : p ∈ (found.foldl visit x).seen ↔ p ∈ x.seen ∨ p ∈ found := by
  induction found generalizing x with
  | nil => simp
  | cons q found ih => rw [List.foldl_cons, ih, mem_seen_visit, List.mem_cons, or_assoc]

theorem Tracks.visit (h : x.Tracks done) (q : Nat) : (x.visit q).Tracks done := by
  rw [Frontier.visit]
  split
  · exact h
  · rename_i hq
    rw [h.mem_seen] at hq
    constructor
    · rw [← List.append_assoc]
      exact List.nodup_append.mpr ⟨h.nodup, List.nodup_singleton q, by grind⟩
    · intro p
      rw [NatSet.mem_insert, h.mem_seen]
      simp only [List.mem_append, List.mem_singleton]
      grind

theorem Tracks.visitAll (h : x.Tracks done) (found : List Nat) : (found.foldl Frontier.visit x).Tracks done := by
  induction found generalizing x with
  | nil => exact h
  | cons q found ih => exact ih (h.visit q)

theorem Tracks.look {seen : NatSet} {queue : List Nat} (h : Tracks ⟨seen, q :: queue⟩ done) (found : List Nat) :
    (found.foldl Frontier.visit ⟨seen, queue⟩).Tracks (done ++ [q]) := by
  apply Tracks.visitAll
  constructor
  · rw [List.append_assoc]
    exact h.nodup
  · intro p
    rw [List.append_assoc]
    exact h.mem_seen p

/-- A search in a graph that has looked at the states in `done`. -/
structure Explores (x : Frontier) (g : Graph) (roots done : List Nat) : Prop extends x.Tracks done where
  reached : ∀ q, q ∈ x.seen → ∃ r ∈ roots, g.Reaches r q
  roots_seen : ∀ r ∈ roots, r ∈ x.seen
  closed : ∀ q ∈ done, ∀ t ∈ g.next q, t ∈ x.seen

theorem explores_roots (hroots : roots.Nodup) (hlt : ∀ r ∈ roots, r < g.size) :
    Explores ⟨NatSet.ofList roots, roots⟩ g roots [] where
  nodup := hroots
  mem_seen _ := NatSet.mem_ofList
  reached q hq := by
    have hr := NatSet.mem_ofList.mp hq
    exact ⟨q, hr, .refl (hlt q hr)⟩
  roots_seen _ hr := NatSet.mem_ofList.mpr hr
  closed q hq := absurd hq List.not_mem_nil

theorem Explores.look {seen : NatSet} {queue : List Nat}
    (hrange : ∀ q, (∃ r ∈ roots, g.Reaches r q) → ∀ t ∈ g.next q, t < g.size)
    (h : Explores ⟨seen, q :: queue⟩ g roots done) (hfound : ∀ t, t ∈ found ↔ t ∈ g.next q) :
    (found.foldl visit ⟨seen, queue⟩).Explores g roots (done ++ [q]) := by
  have hq : q ∈ seen := (h.mem_seen q).mpr (by simp)
  refine ⟨h.toTracks.look found, ?_, ?_, ?_⟩
  · intro p hp
    rcases mem_seen_visitAll.mp hp with hp | hp
    · exact h.reached p hp
    · obtain ⟨r, hr, hrq⟩ := h.reached q hq
      have hnext := (hfound p).mp hp
      exact ⟨r, hr, .tail hrq hnext (hrange q ⟨r, hr, hrq⟩ p hnext)⟩
  · intro r hr
    exact mem_seen_visitAll.mpr (Or.inl (h.roots_seen r hr))
  · intro p hp t ht
    rcases List.mem_append.mp hp with hp | hp
    · exact mem_seen_visitAll.mpr (Or.inl (h.closed p hp t ht))
    · obtain rfl := List.mem_singleton.mp hp
      exact mem_seen_visitAll.mpr (Or.inr ((hfound t).mpr ht))

theorem Explores.seen_eq {seen : NatSet} (h : Explores ⟨seen, []⟩ g roots done) : seen = g.reach roots := by
  apply NatSet.ext_mem
  intro q
  rw [Graph.mem_reach]
  constructor
  · exact h.reached q
  · intro h'
    obtain ⟨r, hr, hrq⟩ := h'
    induction hrq with
    | refl _ => exact h.roots_seen r hr
    | tail _ ht _ ih =>
      have hdone := (h.mem_seen _).mp ih
      rw [List.append_nil] at hdone
      exact h.closed _ hdone _ ht

theorem Explores.length_le (h : x.Explores g roots done) : done.length + x.queue.length ≤ g.size := by
  have hsub : done ++ x.queue ⊆ List.range g.size := by
    intro q hq
    obtain ⟨_, _, hr⟩ := h.reached q ((h.mem_seen q).mpr hq)
    exact List.mem_range.mpr hr.target_lt
  have hle := (h.nodup.subperm hsub).length_le
  rwa [List.length_append, List.length_range] at hle

section Search

variable {look : σ → Nat → Option (σ × List Nat)} {motive : List Nat → σ → Prop} {tables : σ} {fuel : Nat}

theorem search_nil (seen : NatSet) : search look fuel tables ⟨seen, []⟩ = some (tables, seen) := by
  cases fuel <;> rfl

theorem Explores.search_nil {seen : NatSet} (h : Explores ⟨seen, []⟩ g roots done) (hm : motive done tables) :
    ∃ last all, search look fuel tables ⟨seen, []⟩ = some (last, g.reach roots) ∧
      (∀ q, q ∈ all ↔ q ∈ g.reach roots) ∧ motive all last := by
  refine ⟨tables, done, ?_, ?_, hm⟩
  · rw [← h.seen_eq, Frontier.search_nil]
  · intro q
    rw [← h.seen_eq, h.mem_seen, List.append_nil]

/-- If a look at a state of the graph succeeds and finds the states behind its edges, a search in the graph
succeeds within as many looks as there are states, and sees what the roots reach. -/
theorem exists_search (hrange : ∀ q, (∃ r ∈ roots, g.Reaches r q) → ∀ t ∈ g.next q, t < g.size)
    (hlook : ∀ done tables q, motive done tables → q < g.size → ∃ next found,
      look tables q = some (next, found) ∧ motive (done ++ [q]) next ∧ ∀ t, t ∈ found ↔ t ∈ g.next q)
    (h : x.Explores g roots done) (hm : motive done tables) (hfuel : g.size ≤ done.length + fuel) :
    ∃ last all, search look fuel tables x = some (last, g.reach roots) ∧
      (∀ q, q ∈ all ↔ q ∈ g.reach roots) ∧ motive all last := by
  -- the states looked at and the looks that are left make up the graph, so a queued state has its look
  induction fuel generalizing x done tables with
  | zero =>
    obtain ⟨seen, queue⟩ := x
    have hlength := h.length_le
    cases queue with
    | nil => exact h.search_nil hm
    | cons q queue =>
      simp only [List.length_cons] at hlength
      omega
  | succ fuel ih =>
    obtain ⟨seen, queue⟩ := x
    cases queue with
    | nil => exact h.search_nil hm
    | cons q queue =>
      obtain ⟨r, _, hr⟩ := h.reached q ((h.mem_seen q).mpr (by simp))
      obtain ⟨next, found, heq, hnext, hfound⟩ := hlook done tables q hm hr.target_lt
      rw [search, heq]
      apply ih (h.look hrange hfound) hnext
      rw [List.length_append, List.length_singleton]
      omega

/-- Whatever the looks find, a search that ends has looked at all that it has seen, and has seen all that it
found there. -/
theorem of_search {P : Nat → List Nat → Prop} (hlook : ∀ tables q y, look tables q = some y → P q y.2)
    (h : x.Tracks done) (hdone : ∀ q ∈ done, ∃ found, P q found ∧ ∀ t ∈ found, t ∈ x.seen)
    {last : σ} {seen : NatSet} (hs : search look fuel tables x = some (last, seen)) :
    (∀ q, q ∈ x.seen → q ∈ seen) ∧ ∀ q, q ∈ seen → ∃ found, P q found ∧ ∀ t ∈ found, t ∈ seen := by
  induction fuel, tables, x using search.induct generalizing done with
  | case1 fuel tables first =>
    rw [search_nil] at hs
    cases hs
    exact ⟨fun _ => id, fun q hq => hdone q (by simpa using (h.mem_seen q).mp hq)⟩
  | case2 tables first q queue => cases hs
  | case3 fuel tables first q queue ih =>
    rw [search] at hs
    obtain ⟨y, hy, hs⟩ := Option.bind_eq_some_iff.mp hs
    have hkept : ∀ p, p ∈ first → p ∈ (y.2.foldl visit ⟨first, queue⟩).seen :=
      fun p hp => mem_seen_visitAll.mpr (Or.inl hp)
    have hnext : ∀ p ∈ done ++ [q], ∃ found, P p found ∧ ∀ t ∈ found, t ∈ (y.2.foldl visit ⟨first, queue⟩).seen := by
      intro p hp
      rcases List.mem_append.mp hp with hp | hp
      · obtain ⟨found, hfound, hseen⟩ := hdone p hp
        exact ⟨found, hfound, fun t ht => hkept t (hseen t ht)⟩
      · obtain rfl := List.mem_singleton.mp hp
        exact ⟨y.2, hlook _ _ y hy, fun t ht => mem_seen_visitAll.mpr (Or.inr ht)⟩
    obtain ⟨hsub, hall⟩ := ih y (h.look y.2) hnext hs
    exact ⟨fun p hp => hsub p (hkept p hp), hall⟩

end Search

end Frontier

end PatternAutomata
