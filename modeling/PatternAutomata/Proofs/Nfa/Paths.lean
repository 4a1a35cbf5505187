import Mathlib.Computability.Language
import PatternAutomata.Nfa.Basic

/-!
# Runs and paths

A run of an automaton with empty moves keeps the set of all states it can be in. These are exactly
the states at the end of a path that spells the word read so far, so a word is accepted when a path
from the start to the accepting state spells it.
-/

namespace PatternAutomata.Nfa

set_option autoImplicit false

variable {n : Nfa} {p q r : Nat} {c : Char} {u v w : List Char}

theorem lt_of_mem_targets {l : Option Char} (h : q ∈ n.targets p l) : p < n.size := by
  rw [mem_targets, edges] at h
  by_cases hp : p < n.size
  · exact hp
  · rw [Array.getElem?_eq_none_iff.mpr (Nat.le_of_not_lt hp)] at h
    simp at h

theorem WellFormed.target_lt {l : Option Char} (hn : n.WellFormed) (h : q ∈ n.targets p l) : q < n.size :=
  hn.targets_lt p (l, q) (mem_targets.mp h)

theorem WellFormed.start_lt (hn : n.WellFormed) : 0 < n.size := Nat.zero_lt_of_lt hn.accept_lt

namespace Path

theorem source_lt (h : n.Path p w q) : p < n.size := by
  cases h with
  | refl hp => exact hp
  | empty _ hp _ => exact hp
  | symbol _ hp _ => exact hp

theorem target_lt (h : n.Path p w q) : q < n.size := by
  induction h with
  | refl hq => exact hq
  | empty _ _ _ ih => exact ih
  | symbol _ _ _ ih => exact ih

theorem step {l : Option Char} (he : q ∈ n.targets p l) (h : n.Path q w r) : n.Path p (l.toList ++ w) r := by
  cases l with
  | none => exact .empty he (lt_of_mem_targets he) h
  | some c => exact .symbol he (lt_of_mem_targets he) h

/-- Induction over the edges of a path to a fixed state, with one case for all labels. -/
theorem edge_induction {motive : Nat → List Char → Prop} (refl : r < n.size → motive r [])
    (step : ∀ p q l w, q ∈ n.targets p l → n.Path q w r → motive q w → motive p (l.toList ++ w))
    (h : n.Path p w r) : motive p w := by
  induction h with
  | refl hr => exact refl hr
  | empty he _ h ih => exact step _ _ none _ he h (ih refl step)
  | symbol he _ h ih => exact step _ _ (some _) _ he h (ih refl step)

theorem append (hpq : n.Path p u q) (hqr : n.Path q v r) : n.Path p (u ++ v) r := by
  induction hpq with
  | refl _ => exact hqr
  | empty he hp _ ih => exact .empty he hp (ih hqr)
  | symbol he hp _ ih => exact .symbol he hp (ih hqr)

theorem cons_iff :
    n.Path p (c :: w) r ↔ ∃ q t, n.Path p [] q ∧ t ∈ n.targets q (some c) ∧ n.Path t w r := by
  constructor
  · intro h
    generalize hx : c :: w = x at h
    induction h with
    | refl _ => cases hx
    | @empty p q r x he hp _ ih =>
      obtain ⟨s, t, hqs, hst, htr⟩ := ih hx
      exact ⟨s, t, .empty he hp hqs, hst, htr⟩
    | @symbol p q r d x he hp hqr _ =>
      cases hx
      exact ⟨p, q, .refl hp, he, hqr⟩
  · intro h
    obtain ⟨q, t, hpq, ht, htr⟩ := h
    exact append hpq (.symbol ht hpq.target_lt htr)

end Path

theorem emptyMoves_reaches : n.emptyMoves.Reaches p q ↔ n.Path p [] q := by
  constructor
  · intro h
    induction h with
    | refl hq => exact .refl hq
    | tail hp he hr ih => exact ih.append (.empty he hp.target_lt (.refl hr))
  · intro h
    generalize hx : ([] : List Char) = x at h
    induction h with
    | refl hq => exact .refl hq
    | empty he hp _ ih => exact .head hp he (ih hx)
    | symbol _ _ _ _ => cases hx

theorem mem_closure {qs : List Nat} : q ∈ n.closure qs ↔ ∃ p ∈ qs, n.Path p [] q := by
  rw [closure, Graph.mem_reach]
  simp only [emptyMoves_reaches]

theorem mem_move {s : NatSet} : q ∈ n.move s c ↔ ∃ p ∈ s, q ∈ n.targets p (some c) := by
  simp only [move, NatSet.mem_ofList, List.mem_flatMap, ← NatSet.mem_def]

theorem mem_step {s : NatSet} :
    q ∈ n.step s c ↔ ∃ p ∈ s, ∃ t ∈ n.targets p (some c), n.Path t [] q := by
  simp only [step, mem_closure, ← NatSet.mem_def, mem_move]
  constructor
  · intro h
    obtain ⟨t, ⟨p, hp, ht⟩, hq⟩ := h
    exact ⟨p, hp, t, ht, hq⟩
  · intro h
    obtain ⟨p, hp, t, ht, hq⟩ := h
    exact ⟨t, ⟨p, hp, ht⟩, hq⟩

theorem mem_transitions {t : Nat} {l : Option Char} :
    (q, l, t) ∈ n.transitions ↔ (l, t) ∈ n.edges q := by
  simp only [transitions, edges, List.mem_flatMap, List.mem_map, List.mem_mergeSort]
  constructor
  · intro h
    obtain ⟨⟨es, p⟩, hes, e, he, heq⟩ := h
    cases heq
    rw [List.mk_mem_zipIdx_iff_getElem?, Array.getElem?_toList] at hes
    rwa [hes]
  · intro h
    cases hes : n.states[q]? with
    | none => simp [hes] at h
    | some es =>
      rw [hes] at h
      refine ⟨(es, q), ?_, (l, t), h, rfl⟩
      rwa [List.mk_mem_zipIdx_iff_getElem?, Array.getElem?_toList]

def EmptyMove (n : Nfa) (p q : Nat) : Prop := (p, none, q) ∈ n.transitions ∧ q < n.size

theorem emptyMove_iff : n.EmptyMove p q ↔ q ∈ n.emptyMoves.next p ∧ q < n.emptyMoves.size := by
  rw [EmptyMove, mem_transitions, ← mem_targets]
  rfl

/-- No empty move leaves the set. -/
structure Closed (n : Nfa) (s : Set Nat) : Prop where
  moves : ∀ p ∈ s, ∀ q, n.EmptyMove p q → q ∈ s

/-- A set of states that no empty move leaves. -/
structure ClosedSet (n : Nfa) (s : NatSet) : Prop extends n.Closed {q | q ∈ s} where
  lt_size : ∀ q ∈ s, q < n.size

theorem closedSet_closure (qs : List Nat) : n.ClosedSet (n.closure qs) where
  lt_size _ hp := by
    obtain ⟨_, _, h⟩ := mem_closure.mp hp
    exact h.target_lt
  moves p hp q hpq := by
    obtain ⟨r, hr, h⟩ := mem_closure.mp hp
    obtain ⟨he, hlt⟩ := emptyMove_iff.mp hpq
    exact mem_closure.mpr ⟨r, hr, h.append (.empty he h.target_lt (.refl hlt))⟩

theorem closedSet_step (s : NatSet) (c : Char) : n.ClosedSet (n.step s c) := closedSet_closure _

theorem ClosedSet.mem_of_path {s : NatSet} (hs : n.ClosedSet s) (hp : p ∈ s) (h : n.Path p [] q) : q ∈ s := by
  have hreach := emptyMoves_reaches.mpr h
  induction hreach with
  | refl _ => exact hp
  | tail hpq he hlt ih => exact hs.moves _ (ih (emptyMoves_reaches.mp hpq)) _ (emptyMove_iff.mpr ⟨he, hlt⟩)

theorem exists_path_cons {s : NatSet} (hs : n.ClosedSet s) :
    (∃ p ∈ s, n.Path p (c :: w) r) ↔ ∃ p ∈ n.step s c, n.Path p w r := by
  constructor
  · intro h
    obtain ⟨p, hp, h⟩ := h
    obtain ⟨q, t, hpq, ht, htr⟩ := Path.cons_iff.mp h
    have hq : q ∈ s := hs.mem_of_path hp hpq
    exact ⟨t, mem_step.mpr ⟨q, hq, t, ht, .refl htr.source_lt⟩, htr⟩
  · intro h
    obtain ⟨p, hp, h⟩ := h
    obtain ⟨q, hq, t, ht, htp⟩ := mem_step.mp hp
    exact ⟨q, hq, .symbol ht (hs.lt_size q hq) (htp.append h)⟩

theorem runFrom_accepted_iff {s : NatSet} (hs : n.ClosedSet s) (w : List Char) :
    (n.machine.runFrom s w).accepted = true ↔ ∃ p ∈ s, n.Path p w n.accept := by
  induction w generalizing s with
  | nil =>
    have he : (n.machine.runFrom s []).accepted = true ↔ n.accept ∈ s := decide_eq_true_iff
    rw [he]
    constructor
    · intro h
      exact ⟨n.accept, h, .refl (hs.lt_size _ h)⟩
    · intro h
      obtain ⟨p, hp, h⟩ := h
      exact hs.mem_of_path hp h
  | cons c w ih =>
    rw [exists_path_cons hs, Machine.runFrom]
    have hnext : n.machine.next s c = (n.step s c).nonempty? := rfl
    by_cases hempty : n.step s c = ∅
    · simp [hnext, NatSet.nonempty?, hempty]
    · have hsome : n.machine.next s c = some (n.step s c) :=
        NatSet.nonempty?_eq_some.mpr ⟨rfl, hempty⟩
      simpa [hsome] using ih (closedSet_step s c)

def words (n : Nfa) (p q : Nat) : Language Char := {w | n.Path p w q}

def language (n : Nfa) : Language Char := n.words 0 n.accept

theorem run_accepted_iff (n : Nfa) (w : List Char) : (n.run w).accepted = true ↔ w ∈ n.language := by
  have h := runFrom_accepted_iff (closedSet_closure (n := n) [0]) w
  constructor
  · intro hacc
    obtain ⟨p, hp, hpath⟩ := h.mp hacc
    obtain ⟨q, hq, hqp⟩ := mem_closure.mp hp
    obtain rfl := List.mem_singleton.mp hq
    exact hqp.append hpath
  · intro hw
    have hpath : n.Path 0 w n.accept := hw
    apply h.mpr
    refine ⟨0, ?_, hpath⟩
    exact mem_closure.mpr ⟨0, List.mem_singleton.mpr rfl, .refl hpath.source_lt⟩

def accepted (n : Nfa) : Language Char := {w | (n.run w).accepted = true}

theorem accepted_eq_language (n : Nfa) : n.accepted = n.language := by
  apply Language.ext
  intro w
  exact n.run_accepted_iff w

end PatternAutomata.Nfa
