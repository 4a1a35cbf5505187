import Mathlib.Computability.Language
import PatternAutomata.Proofs.Nfa.Composition
import PatternAutomata.Proofs.Pattern.Evaluation

/-!
# The language of a term

The words of a term, built with the operations on languages; and the automaton that is composed along
a term accepts them.
-/

namespace PatternAutomata

set_option autoImplicit false

open scoped Computability

namespace Regex

variable {α : Type} {l r : Regex α} {w : List α}

def language (r : Regex α) : Language α := {w | r.Matches w}

theorem mem_language : w ∈ r.language ↔ r.Matches w := Iff.rfl

theorem language_epsilon : (epsilon : Regex α).language = 1 := by
  apply Language.ext
  intro w
  constructor
  · intro h
    cases (h : Matches epsilon w)
    rfl
  · intro h
    rw [(Language.mem_one w).mp h]
    exact Matches.epsilon

theorem language_leaf (a : α) : (leaf a).language = {[a]} := by
  apply Language.ext
  intro w
  constructor
  · intro h
    cases (h : Matches (leaf a) w)
    rfl
  · intro h
    rw [show w = [a] from h]
    exact Matches.leaf a

theorem language_concat : (concat l r).language = l.language * r.language := by
  apply Language.ext
  intro w
  constructor
  · intro h
    cases (h : Matches (concat l r) w) with
    | concat hu hv => exact Language.append_mem_mul hu hv
  · intro h
    obtain ⟨u, hu, v, hv, rfl⟩ := Language.mem_mul.mp h
    exact Matches.concat hu hv

theorem language_union : (union l r).language = l.language + r.language := by
  apply Language.ext
  intro w
  constructor
  · intro h
    cases (h : Matches (union l r) w) with
    | left h => exact Or.inl h
    | right h => exact Or.inr h
  · intro h
    exact h.elim Matches.left Matches.right

theorem language_star : (star r).language = r.language∗ := by
  apply Language.ext
  intro w
  constructor
  · intro h
    generalize hs : star r = s at h
    induction (h : Matches s w) with
    | epsilon => cases hs
    | leaf a => cases hs
    | concat _ _ => cases hs
    | left _ => cases hs
    | right _ => cases hs
    | starNil => exact Language.nil_mem_kstar _
    | starCons hu hv _ ih =>
      cases hs
      have hle : r.language * r.language∗ ≤ r.language∗ := mul_kstar_le_kstar
      exact hle (Language.append_mem_mul hu (ih rfl))
  · intro h
    obtain ⟨ws, rfl, hws⟩ := Language.mem_kstar.mp h
    induction ws with
    | nil => exact Matches.starNil
    | cons u ws ih =>
      obtain ⟨hu, hws⟩ := List.forall_mem_cons.mp hws
      exact Matches.starCons hu (ih hws (Language.join_mem_kstar hws))

theorem exists_mem_language (r : Regex α) : ∃ w, w ∈ r.language := by
  induction r with
  | epsilon => exact ⟨[], Matches.epsilon⟩
  | leaf a => exact ⟨[a], Matches.leaf a⟩
  | star r _ => exact ⟨[], Matches.starNil⟩
  | concat l r ihl ihr =>
    obtain ⟨u, hu⟩ := ihl
    obtain ⟨v, hv⟩ := ihr
    exact ⟨u ++ v, Matches.concat hu hv⟩
  | union l r ihl _ =>
    obtain ⟨u, hu⟩ := ihl
    exact ⟨u, Matches.left hu⟩

end Regex

namespace Nfa

theorem language_single (label : Option Char) : (single label).language = {label.toList} := by
  apply Language.ext
  intro w
  constructor
  · intro h
    refine Path.edge_induction (n := single label) (r := 1)
      (motive := fun p w => (p = 1 ∧ w = []) ∨ (p = 0 ∧ w = label.toList)) ?_ ?_ h |>.elim ?_ ?_
    · intro _
      exact Or.inl ⟨rfl, rfl⟩
    · intro p t l w he _ ih
      obtain ⟨rfl, rfl, rfl⟩ := mem_targets_single.mp he
      rcases ih with ⟨_, rfl⟩ | ⟨h, _⟩
      · exact Or.inr ⟨rfl, List.append_nil _⟩
      · cases h
    · intro h
      obtain ⟨h, _⟩ := h
      cases h
    · intro h
      exact h.2
  · intro h
    rw [show w = label.toList from h, ← List.append_nil label.toList]
    exact Path.step (mem_targets_single.mpr ⟨rfl, rfl, rfl⟩) (Path.refl Nat.one_lt_two)

theorem wellFormed_ofRegex (r : Regex Char) : (ofRegex r).WellFormed := by
  induction r with
  | epsilon => exact wellFormed_single none
  | leaf c => exact wellFormed_single (some c)
  | star r ih => exact ih.star
  | concat l r ihl ihr => exact ihl.concat ihr
  | union l r ihl ihr => exact ihl.union ihr

theorem language_ofRegex (r : Regex Char) : (ofRegex r).language = r.language := by
  induction r with
  | epsilon => exact (language_single none).trans Regex.language_epsilon.symm
  | leaf c => exact (language_single (some c)).trans (Regex.language_leaf c).symm
  | star r ih => rw [ofRegex, language_star (wellFormed_ofRegex r), ih, Regex.language_star]
  | concat l r ihl ihr =>
    rw [ofRegex, language_concat (wellFormed_ofRegex l) (wellFormed_ofRegex r), ihl, ihr,
      Regex.language_concat]
  | union l r ihl ihr =>
    rw [ofRegex, language_union (wellFormed_ofRegex l) (wellFormed_ofRegex r), ihl, ihr,
      Regex.language_union]

end Nfa
end PatternAutomata
