import Mathlib.Computability.Language
import Mathlib.Data.Finset.Card
import PatternAutomata.Dfa.Basic
import PatternAutomata.Proofs.WordOrder

/-!
# Languages of states, and automata they determine

The language of a state holds the words that are accepted from it. States with different languages
cannot be saved: an automaton has at least as many states as it has languages of states
(`size_le_of_residual`). An automaton is canonical if its states have different languages, all of them
can be reached, in the order of the least words that lead to them, and no edge leads to a state with an
empty language. Such an automaton can be read off its language, number by number
(`Canonical.eq_of_language`).
-/

namespace PatternAutomata.Dfa

set_option autoImplicit false

variable {d e : Dfa} {p q r t : Nat} {c : Char} {u w : List Char}

def residual (d : Dfa) (q : Nat) : Language Char := {w | (d.machine.walk q w).any d.accepts = true}

def language (d : Dfa) : Language Char := d.residual 0

theorem isMatch_iff : d.isMatch w = true ↔ w ∈ d.language := by
  rw [isMatch, run, Machine.run_accepted]
  exact Iff.rfl

theorem language_eq_iff : d.language = e.language ↔ ∀ w, d.isMatch w = e.isMatch w := by
  constructor
  · intro h w
    rw [Bool.eq_iff_iff, isMatch_iff, isMatch_iff, h]
  · intro h
    apply Language.ext
    intro w
    rw [← isMatch_iff, ← isMatch_iff, h w]

theorem mem_residual : w ∈ d.residual q ↔ (d.machine.walk q w).any d.accepts = true := Iff.rfl

theorem append_mem_residual : u ++ w ∈ d.residual q ↔ ∃ t, d.machine.walk q u = some t ∧ w ∈ d.residual t := by
  change (d.machine.walk q (u ++ w)).any d.accepts = true ↔ _
  rw [Machine.walk_append]
  cases d.machine.walk q u with
  | none => simp
  | some t => simp [mem_residual]

theorem nil_mem_residual : [] ∈ d.residual q ↔ d.accepts q = true := Iff.rfl

theorem walk_singleton : d.machine.walk q [c] = d.next? q c := by
  rw [Machine.walk_cons]
  exact Option.bind_fun_some _

theorem cons_mem_residual : c :: w ∈ d.residual q ↔ ∃ t, d.next? q c = some t ∧ w ∈ d.residual t := by
  rw [← List.singleton_append, append_mem_residual, walk_singleton]

/-- There is a start, and all targets are states. -/
structure InRange (d : Dfa) : Prop where
  nonempty : 0 < d.size
  targets_lt : ∀ q c t, d.next? q c = some t → t < d.size

theorem WellFormed.inRange (h : d.WellFormed) : d.InRange := ⟨h.nonempty, h.targets_lt⟩

theorem lt_of_next? (h : d.next? q c = some t) : q < d.size := by
  rw [next?, row] at h
  by_cases hq : q < d.size
  · exact hq
  · rw [Array.getElem?_eq_none_iff.mpr (Nat.le_of_not_lt hq)] at h
    cases h

theorem lt_of_accepts (h : d.accepts q = true) : q < d.size := by
  rw [accepts] at h
  by_cases hq : q < d.size
  · exact hq
  · rw [Array.getElem?_eq_none_iff.mpr (Nat.le_of_not_lt hq)] at h
    cases h

theorem InRange.walk_lt (hd : d.InRange) (hp : p < d.size) (h : d.machine.walk p w = some q) : q < d.size := by
  induction w generalizing p with
  | nil =>
    cases h
    exact hp
  | cons c w ih =>
    rw [Machine.walk_cons] at h
    obtain ⟨t, ht, htq⟩ := Option.bind_eq_some_iff.mp h
    exact ih (hd.targets_lt p c t ht) htq

theorem InRange.leads_lt (hd : d.InRange) (h : d.machine.Leads w q) : q < d.size :=
  hd.walk_lt hd.nonempty h

/-- A word is accepted from each state. -/
def Productive (d : Dfa) : Prop := ∀ q, q < d.size → ∃ w, w ∈ d.residual q

/-- Every state can be reached, and the states are numbered in the order of their least words. -/
structure Numbered (d : Dfa) : Prop where
  accessible : ∀ q, q < d.size → ∃ w, d.machine.Leads w q
  ordered : ∀ p q, p < q → q < d.size → ∀ w, d.machine.Leads w q → ∃ u, d.machine.Leads u p ∧ Precedes u w

/-- The states have different languages, no edge leads to a state with an empty one, and the numbers
follow the words. -/
structure Canonical (d : Dfa) : Prop extends d.InRange, d.Numbered where
  productive : ∀ q c t, d.next? q c = some t → ∃ w, w ∈ d.residual t
  distinct : ∀ p q, p < d.size → q < d.size → d.residual p = d.residual q → p = q

theorem accepts_of_residual (h : d.residual p = e.residual q) : d.accepts p = e.accepts q := by
  have hnil : [] ∈ d.residual p ↔ [] ∈ e.residual q := by rw [h]
  rw [nil_mem_residual, nil_mem_residual] at hnil
  exact Bool.eq_iff_iff.mpr hnil

/-- From states with one language, a word that leads to a state with a word leads to states with one
language. -/
theorem walk_of_residual (h : d.residual p = e.residual q) (hwalk : d.machine.walk p u = some r)
    (hw : w ∈ d.residual r) : ∃ t, e.machine.walk q u = some t ∧ d.residual r = e.residual t := by
  have happend : ∀ v, v ∈ d.residual r ↔ ∃ t, e.machine.walk q u = some t ∧ v ∈ e.residual t := by
    intro v
    rw [← append_mem_residual, ← h, append_mem_residual, hwalk]
    simp
  obtain ⟨t, ht, _⟩ := (happend w).mp hw
  refine ⟨t, ht, ?_⟩
  apply Language.ext
  intro v
  rw [happend v, ht]
  simp

theorem next_of_residual (h : d.residual p = e.residual q) (hnext : d.next? p c = some r)
    (hw : w ∈ d.residual r) : ∃ t, e.next? q c = some t ∧ d.residual r = e.residual t := by
  rw [← walk_singleton] at hnext
  simpa only [walk_singleton] using walk_of_residual h hnext hw

/-- An automaton whose states have different languages has at most as many states as one in which
all these languages occur. -/
theorem size_le_of_residual
    (hdistinct : ∀ p q, p < d.size → q < d.size → d.residual p = d.residual q → p = q)
    (hoccurs : ∀ p, p < d.size → ∃ t, t < e.size ∧ d.residual p = e.residual t) : d.size ≤ e.size := by
  choose! f hlt hres using hoccurs
  have hmaps : Set.MapsTo f (Finset.range d.size) (Finset.range e.size) := by
    intro p hp
    simpa using hlt p (by simpa using hp)
  have hinj : Set.InjOn f (Finset.range d.size) := by
    intro p hp q hq hpq
    have hp' : p < d.size := by simpa using hp
    have hq' : q < d.size := by simpa using hq
    apply hdistinct p q hp' hq'
    rw [hres p hp', hres q hq', hpq]
  simpa using Finset.card_le_card_of_injOn f hmaps hinj

theorem Canonical.walk_of_residual (hd : d.Canonical) (h : d.residual p = e.residual q)
    (hwalk : d.machine.walk p w = some r) :
    ∃ t, e.machine.walk q w = some t ∧ d.residual r = e.residual t := by
  induction w generalizing p q with
  | nil =>
    cases hwalk
    exact ⟨q, rfl, h⟩
  | cons c w ih =>
    rw [Machine.walk_cons] at hwalk
    obtain ⟨p', hp, hpr⟩ := Option.bind_eq_some_iff.mp hwalk
    obtain ⟨x, hx⟩ := hd.productive p c p' hp
    obtain ⟨q', hq, hpq⟩ := next_of_residual h hp hx
    obtain ⟨t, ht, hrt⟩ := ih hpq hpr
    refine ⟨t, ?_, hrt⟩
    have hnext : e.machine.next q c = some q' := hq
    rw [Machine.walk_cons, hnext]
    exact ht

section Unique

variable (hd : d.Canonical) (he : e.Canonical)
include hd he

theorem Canonical.leads_of_residual (hlang : d.language = e.language) (hq : q < e.size)
    (h : d.residual p = e.residual q) (hw : d.machine.Leads w p) : e.machine.Leads w q := by
  obtain ⟨t, ht, hpt⟩ := hd.walk_of_residual hlang hw
  have hlt : t < e.size := he.toInRange.leads_lt ht
  rwa [he.distinct t q hlt hq (hpt.symm.trans h)] at ht

theorem Canonical.exists_residual_eq (hlang : d.language = e.language) (hp : p < d.size) :
    ∃ q, q < e.size ∧ d.residual p = e.residual q := by
  obtain ⟨w, hw⟩ := hd.accessible p hp
  obtain ⟨q, hq, hpq⟩ := hd.walk_of_residual hlang hw
  exact ⟨q, he.toInRange.leads_lt hq, hpq⟩

/-- States with the same languages are numbered in the same order: if they were not, the words that
lead to them would descend without end. -/
theorem Canonical.lt_of_residual (hlang : d.language = e.language) {p' q' : Nat} (hpp : p < p')
    (hp' : p' < d.size) (hq : q < e.size) (hq' : q' < e.size) (h : d.residual p = e.residual q)
    (h' : d.residual p' = e.residual q') : q < q' := by
  rcases Nat.lt_trichotomy q q' with hlt | rfl | hgt
  · exact hlt
  · have := hd.distinct p p' (Nat.lt_trans hpp hp') hp' (h.trans h'.symm)
    omega
  · have hnone : ∀ w, ¬ d.machine.Leads w p ∧ ¬ d.machine.Leads w p' := by
      intro w
      induction w using Precedes.wellFounded.induction with
      | _ w ih =>
        constructor
        · intro hw
          obtain ⟨v, hv, hvw⟩ := he.ordered q' q hgt hq w (hd.leads_of_residual he hlang hq h hw)
          exact (ih v hvw).2 (he.leads_of_residual hd hlang.symm hp' h'.symm hv)
        · intro hw
          obtain ⟨u, hu, huw⟩ := hd.ordered p p' hpp hp' w hw
          exact (ih u huw).1 hu
    obtain ⟨w, hw⟩ := hd.accessible p' hp'
    exact absurd hw (hnone w).2

theorem Canonical.le_of_residual (hlang : d.language = e.language) (hp : p < d.size) (hq : q < e.size)
    (h : d.residual p = e.residual q) : p ≤ q := by
  induction p generalizing q with
  | zero => exact Nat.zero_le q
  | succ p ih =>
    obtain ⟨r, hr, hpr⟩ := hd.exists_residual_eq he hlang (Nat.lt_of_succ_lt hp)
    have hle : p ≤ r := ih (Nat.lt_of_succ_lt hp) hr hpr
    have hlt : r < q := hd.lt_of_residual he hlang (Nat.lt_succ_self p) hp hr hq hpr h
    omega

theorem Canonical.residual_eq (hlang : d.language = e.language) (hp : p < d.size) :
    p < e.size ∧ d.residual p = e.residual p := by
  obtain ⟨q, hq, hpq⟩ := hd.exists_residual_eq he hlang hp
  have hle : p ≤ q := hd.le_of_residual he hlang hp hq hpq
  have hge : q ≤ p := he.le_of_residual hd hlang.symm hq hp hpq.symm
  obtain rfl := Nat.le_antisymm hle hge
  exact ⟨hq, hpq⟩

theorem Canonical.size_le (hlang : d.language = e.language) : d.size ≤ e.size :=
  size_le_of_residual hd.distinct fun _ hp => hd.exists_residual_eq he hlang hp

theorem Canonical.next_of_language (hlang : d.language = e.language) (h : d.next? q c = some t) :
    e.next? q c = some t := by
  obtain ⟨_, hq⟩ := hd.residual_eq he hlang (lt_of_next? h)
  obtain ⟨w, hw⟩ := hd.productive q c t h
  obtain ⟨x, hx, htx⟩ := next_of_residual hq h hw
  obtain ⟨hlt, ht⟩ := hd.residual_eq he hlang (hd.targets_lt q c t h)
  rw [hx, he.distinct x t (he.targets_lt q c x hx) hlt (htx.symm.trans ht)]

theorem Canonical.eq_of_language (hlang : d.language = e.language) :
    d.size = e.size ∧ (∀ q, d.accepts q = e.accepts q) ∧ ∀ q c, d.next? q c = e.next? q c := by
  have hsize : d.size = e.size := Nat.le_antisymm (hd.size_le he hlang) (he.size_le hd hlang.symm)
  refine ⟨hsize, ?_, ?_⟩
  · intro q
    by_cases hq : q < d.size
    · exact accepts_of_residual (hd.residual_eq he hlang hq).2
    · have hd' : ¬ d.accepts q = true := fun h => hq (lt_of_accepts h)
      have he' : ¬ e.accepts q = true := fun h => hq (hsize ▸ lt_of_accepts h)
      rw [Bool.eq_false_of_not_eq_true hd', Bool.eq_false_of_not_eq_true he']
  · intro q c
    apply Option.ext
    intro t
    exact ⟨hd.next_of_language he hlang, he.next_of_language hd hlang.symm⟩

end Unique

end PatternAutomata.Dfa
