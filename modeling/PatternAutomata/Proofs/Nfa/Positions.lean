import PatternAutomata.Proofs.Nfa.Subsets
import PatternAutomata.Proofs.Regex.Attributes
import PatternAutomata.Proofs.Regex.Language

/-!
# Positions as states

In the automaton composed along a term, every position of the term has a state of its own, from
which its symbol leads to the next state. The empty moves between these states tell where words begin
and end and what follows what: they agree with the attributes of the term, so the sets of positions
that the term's own automaton goes through can be read off the sets of states.
-/

namespace PatternAutomata

set_option autoImplicit false

open scoped Computability

theorem nil_mem_mul {K L : Language Char} : [] ∈ K * L ↔ [] ∈ K ∧ [] ∈ L := by
  rw [Language.mem_mul]
  constructor
  · intro h
    obtain ⟨u, hu, v, hv, h⟩ := h
    obtain ⟨rfl, rfl⟩ := List.append_eq_nil_iff.mp h
    exact ⟨hu, hv⟩
  · intro h
    obtain ⟨hu, hv⟩ := h
    exact ⟨[], hu, [], hv, rfl⟩

theorem nil_mem_add {K L : Language Char} : [] ∈ K + L ↔ [] ∈ K ∨ [] ∈ L := Iff.rfl

/-- The state before the `i`-th leaf, the leaves counted from zero. -/
def Regex.entry : Regex Char → Nat → Nat
  | .epsilon, _ => 0
  | .leaf _, _ => 0
  | .star r, i => r.entry i + 2
  | .concat l r, i => if i < l.width then l.entry i else r.entry (i - l.width) + (Nfa.ofRegex l).size
  | .union l r, i =>
    if i < l.width then l.entry i + 2 else r.entry (i - l.width) + ((Nfa.ofRegex l).size + 2)

namespace Nfa

variable {c : Char} {i j k q t : Nat}

theorem entry_lt {r : Regex Char} (hi : i < r.width) : r.entry i + 1 < (ofRegex r).size := by
  induction r generalizing i with
  | epsilon => exact absurd hi (Nat.not_lt_zero i)
  | leaf c => exact Nat.one_lt_two
  | star r ih =>
    have := ih hi
    rw [Regex.entry, ofRegex, size_star]
    omega
  | concat l r ihl ihr =>
    rw [Regex.entry, ofRegex, size_concat]
    rw [Regex.width] at hi
    split
    · rename_i hlt
      have := ihl hlt
      omega
    · have := ihr (i := i - l.width) (by omega)
      omega
  | union l r ihl ihr =>
    rw [Regex.entry, ofRegex, size_union]
    rw [Regex.width] at hi
    split
    · rename_i hlt
      have := ihl hlt
      omega
    · have := ihr (i := i - l.width) (by omega)
      omega

theorem exists_leaf_append {l r : Regex Char} (f g : Nat → Nat) (P : Nat → Prop) :
    (∃ i, (l.leaves ++ r.leaves)[i]? = some c ∧ P (if i < l.width then f i else g (i - l.width))) ↔
      (∃ i, l.leaves[i]? = some c ∧ P (f i)) ∨ ∃ i, r.leaves[i]? = some c ∧ P (g i) := by
  constructor
  · intro h
    obtain ⟨i, hi, hP⟩ := h
    by_cases hlt : i < l.width
    · rw [if_pos hlt] at hP
      rw [List.getElem?_append_left (by simpa using hlt)] at hi
      exact Or.inl ⟨i, hi, hP⟩
    · rw [if_neg hlt] at hP
      rw [List.getElem?_append_right (by simpa using hlt), Regex.length_leaves] at hi
      exact Or.inr ⟨_, hi, hP⟩
  · intro h
    rcases h with ⟨i, hi, hP⟩ | ⟨i, hi, hP⟩
    · have hlt := Regex.lt_width hi
      refine ⟨i, ?_, by rwa [if_pos hlt]⟩
      rwa [List.getElem?_append_left (by simpa using hlt)]
    · refine ⟨i + l.width, ?_, by rwa [if_neg (by omega), Nat.add_sub_cancel]⟩
      rw [List.getElem?_append_right (by simp)]
      simpa using hi

theorem exists_moved_up {r : Regex Char} :
    (∃ x y, q = x + k ∧ t = y + k ∧ ∃ i, r.leaves[i]? = some c ∧ x = r.entry i ∧ y = r.entry i + 1) ↔
      ∃ i, r.leaves[i]? = some c ∧ q = r.entry i + k ∧ t = r.entry i + k + 1 := by
  constructor
  · intro h
    obtain ⟨_, _, rfl, rfl, i, hi, rfl, rfl⟩ := h
    exact ⟨i, hi, rfl, by omega⟩
  · intro h
    obtain ⟨i, hi, rfl, rfl⟩ := h
    exact ⟨_, _, rfl, by omega, i, hi, rfl, rfl⟩

/-- The edges with a symbol lead from the entries to the states behind them. -/
theorem mem_targets_ofRegex {r : Regex Char} :
    t ∈ (ofRegex r).targets q (some c) ↔
      ∃ i, r.leaves[i]? = some c ∧ q = r.entry i ∧ t = r.entry i + 1 := by
  induction r generalizing q t with
  | epsilon =>
    rw [show ofRegex .epsilon = single none from rfl, mem_targets_single]
    simp [Regex.leaves]
  | leaf a =>
    rw [show ofRegex (.leaf a) = single (some a) from rfl, mem_targets_single]
    simp only [Regex.leaves, Regex.entry, Option.some.injEq]
    constructor
    · intro h
      obtain ⟨rfl, rfl, rfl⟩ := h
      exact ⟨0, rfl, rfl, rfl⟩
    · intro h
      obtain ⟨i, hi, rfl, rfl⟩ := h
      rw [List.getElem?_singleton] at hi
      split at hi
      · exact ⟨rfl, (Option.some.inj hi).symm, rfl⟩
      · cases hi
  | star r ih =>
    rw [ofRegex, mem_targets_star (wellFormed_ofRegex r).accept_lt]
    simp only [ih, exists_moved_up, reduceCtorEq, false_and, and_false, or_false, Regex.leaves, Regex.entry]
  | concat l r ihl ihr =>
    rw [ofRegex, mem_targets_concat (wellFormed_ofRegex l).accept_lt]
    simp only [ihl, ihr, exists_moved_up, reduceCtorEq, false_and, and_false, or_false]
    exact (exists_leaf_append l.entry (fun i => r.entry i + (ofRegex l).size)
      (fun x => q = x ∧ t = x + 1)).symm
  | union l r ihl ihr =>
    rw [ofRegex, mem_targets_union (wellFormed_ofRegex l).accept_lt (wellFormed_ofRegex r).accept_lt]
    simp only [ihl, ihr, exists_moved_up, reduceCtorEq, false_and, and_false, or_false]
    exact (exists_leaf_append (fun i => l.entry i + 2) (fun i => r.entry i + ((ofRegex l).size + 2))
      (fun x => q = x ∧ t = x + 1)).symm

/-- The empty moves between the start, the entries and the accepting state agree with the attributes
of the term whose leaves are numbered from `k`. -/
structure Tracks (r : Regex Char) (k : Nat) : Prop where
  nullable : [] ∈ (ofRegex r).language ↔ (r.numberFrom k).attributes.nullable = true
  first : ∀ i, i < r.width →
    ([] ∈ (ofRegex r).words 0 (r.entry i) ↔ k + i ∈ (r.numberFrom k).attributes.first)
  last : ∀ i, i < r.width →
    ([] ∈ (ofRegex r).words (r.entry i + 1) (ofRegex r).accept ↔
      k + i ∈ (r.numberFrom k).attributes.last)
  follow : ∀ i j, i < r.width → j < r.width →
    ([] ∈ (ofRegex r).words (r.entry i + 1) (r.entry j) ↔ k + j ∈ (r.numberFrom k).follow (k + i))

theorem tracks_epsilon (k : Nat) : Tracks .epsilon k := by
  have hnone : ∀ i, ¬ i < (Regex.epsilon : Regex Char).width := Nat.not_lt_zero
  refine ⟨?_, fun i hi => absurd hi (hnone i), fun i hi => absurd hi (hnone i), fun i _ hi => absurd hi (hnone i)⟩
  rw [language_ofRegex, Regex.language_epsilon]
  simp [Regex.numberFrom, Regex.attributes]

theorem tracks_leaf (a : Char) (k : Nat) : Tracks (.leaf a) k := by
  have hsink : ∀ q, (ofRegex (.leaf a)).words 1 q = if 1 = q then 1 else 0 := by
    intro q
    apply words_of_no_targets Nat.one_lt_two
    intro l t ht
    cases (mem_targets_single.mp ht).1
  have hzero : ∀ i, i < (Regex.leaf a).width → i = 0 := fun i hi => Nat.lt_one_iff.mp hi
  refine ⟨?_, ?_, ?_, ?_⟩
  · rw [language_ofRegex, Regex.language_leaf]
    have hne : ([] : List Char) ∉ ({[a]} : Language Char) := fun h => List.cons_ne_nil a [] h.symm
    simp [Regex.numberFrom, Regex.attributes, hne]
  · intro i hi
    obtain rfl := hzero i hi
    have hrefl : [] ∈ (ofRegex (.leaf a)).words 0 0 := Path.refl Nat.two_pos
    simp [Regex.entry, Regex.numberFrom, Regex.attributes, hrefl]
  · intro i hi
    obtain rfl := hzero i hi
    have haccept : (ofRegex (.leaf a)).accept = 1 := rfl
    simp [Regex.entry, Regex.numberFrom, Regex.attributes, haccept, hsink]
  · intro i j hi hj
    obtain rfl := hzero i hi
    obtain rfl := hzero j hj
    simp [Regex.entry, Regex.numberFrom, Regex.mem_follow, Regex.links, hsink]

theorem tracks_star {r : Regex Char} (h : Tracks r k) : Tracks (.star r) k := by
  have ha := wellFormed_ofRegex r
  have hstar : [] ∈ (ofRegex r).language∗ := Language.nil_mem_kstar _
  have hbehind : ∀ i, (Regex.star r).entry i + 1 = r.entry i + 1 + 2 := fun i => by rw [Regex.entry]
  refine ⟨?_, ?_, ?_, ?_⟩
  · rw [ofRegex, language_star ha]
    simp [Regex.numberFrom, Regex.attributes, hstar]
  · intro i hi
    rw [Regex.entry, ofRegex, words_star_start ha (by omega), wordsAfter_inside ha, nil_mem_mul]
    simp only [hstar, true_and]
    exact h.first i hi
  · intro i hi
    have hout := words_star (r := 1) ha (entry_lt hi)
    rw [wordsInside_one, zero_add, wordsAfter_accept ha] at hout
    have haccept : (ofRegex (.star r)).accept = 1 := rfl
    rw [haccept, hbehind, ofRegex, hout, nil_mem_mul]
    simp only [hstar, and_true]
    exact h.last i hi
  · intro i j hi hj
    rw [hbehind, Regex.entry, ofRegex, words_star ha (entry_lt hi), wordsInside_add, wordsAfter_inside ha,
      nil_mem_add, nil_mem_mul, nil_mem_mul, Regex.numberFrom, Regex.mem_follow_star]
    simp only [hstar, true_and]
    rw [h.follow i j hi hj, h.last i hi, h.first j hj]

theorem left_or_right {l r : Regex Char} (hi : i < l.width + r.width) :
    i < l.width ∨ ∃ m, i = m + l.width ∧ m < r.width := by
  by_cases h : i < l.width
  · exact Or.inl h
  · exact Or.inr ⟨i - l.width, by omega, by omega⟩

theorem tracks_concat {l r : Regex Char} (hl : Tracks l k) (hr : Tracks r (k + l.width)) :
    Tracks (.concat l r) k := by
  have ha := wellFormed_ofRegex l
  have hb := wellFormed_ofRegex r
  have hleft : ∀ {i}, i < l.width → (Regex.concat l r).entry i = l.entry i := fun h => if_pos h
  have hright : ∀ {i}, (Regex.concat l r).entry (i + l.width) = r.entry i + (ofRegex l).size := by
    intro i
    rw [Regex.entry, if_neg (by omega), Nat.add_sub_cancel]
  have hbehind : ∀ {i}, r.entry i + (ofRegex l).size + 1 = r.entry i + 1 + (ofRegex l).size := by omega
  have haccept : (ofRegex (.concat l r)).accept = (ofRegex r).accept + (ofRegex l).size := rfl
  have hshift : ∀ m, k + l.width + m = k + (m + l.width) := by omega
  refine ⟨?_, ?_, ?_, ?_⟩
  · rw [ofRegex, language_concat ha hb, nil_mem_mul, hl.nullable, hr.nullable]
    simp [Regex.numberFrom, Regex.attributes]
  · intro i hi
    rw [Regex.numberFrom, Regex.mem_first_concat]
    rcases left_or_right hi with h | ⟨m, rfl, hm⟩
    · have hentry := entry_lt h
      rw [hleft h, ofRegex, words_concat_left ha hb ha.start_lt (by omega), hl.first i h]
      simp [Regex.left_not_mem_first h]
    · rw [hright, ofRegex, words_concat_across ha hb ha.start_lt, nil_mem_mul, hr.first m hm, hshift]
      simp only [Regex.right_not_mem_first, false_or]
      exact and_congr_left fun _ => hl.nullable
  · intro i hi
    rw [Regex.numberFrom, Regex.mem_last_concat, haccept]
    rcases left_or_right hi with h | ⟨m, rfl, hm⟩
    · rw [hleft h, ofRegex, words_concat_across ha hb (entry_lt h), nil_mem_mul, hl.last i h, and_comm]
      simp only [Regex.left_not_mem_last h, false_or]
      exact and_congr_left fun _ => hr.nullable
    · rw [hright, hbehind, ofRegex, words_concat_right ha hb (entry_lt hm), hr.last m hm, hshift]
      simp [Regex.right_not_mem_last]
  · intro i j hi hj
    rw [Regex.numberFrom, Regex.mem_follow_concat]
    -- of the three ways to follow, the numbers leave one at most
    rcases left_or_right hi with hi | ⟨m, rfl, hm⟩ <;> rcases left_or_right hj with hj | ⟨n, rfl, hn⟩
    · have hentry := entry_lt hj
      rw [hleft hi, hleft hj, ofRegex, words_concat_left ha hb (entry_lt hi) (by omega), hl.follow i j hi hj]
      simp [Regex.left_not_mem_follow hj, Regex.left_not_mem_first hj]
    · rw [hleft hi, hright, ofRegex, words_concat_across ha hb (entry_lt hi), nil_mem_mul, hl.last i hi,
        hr.first n hn, hshift]
      simp [Regex.right_not_mem_follow, Regex.not_mem_follow_left hi]
    · have hentry := entry_lt hj
      rw [hright, hbehind, hleft hj, ofRegex, words_concat_back ha hb (entry_lt hm) (by omega)]
      simp [Regex.not_mem_follow_right, Regex.left_not_mem_follow hj, Regex.right_not_mem_last]
    · rw [hright, hright, hbehind, ofRegex, words_concat_right ha hb (entry_lt hm), hr.follow m n hm hn,
        hshift, hshift]
      simp [Regex.not_mem_follow_right, Regex.right_not_mem_last]

theorem tracks_union {l r : Regex Char} (hl : Tracks l k) (hr : Tracks r (k + l.width)) :
    Tracks (.union l r) k := by
  have ha := wellFormed_ofRegex l
  have hb := wellFormed_ofRegex r
  have hleft : ∀ {i}, i < l.width → (Regex.union l r).entry i = l.entry i + 2 := fun h => if_pos h
  have hright : ∀ {i}, (Regex.union l r).entry (i + l.width) = r.entry i + ((ofRegex l).size + 2) := by
    intro i
    rw [Regex.entry, if_neg (by omega), Nat.add_sub_cancel]
  have hbehind : ∀ {i k}, r.entry i + k + 1 = r.entry i + 1 + k := by omega
  have hbehind' : ∀ {i}, l.entry i + 2 + 1 = l.entry i + 1 + 2 := by omega
  have haccept : (ofRegex (.union l r)).accept = 1 := rfl
  have hshift : ∀ m, k + l.width + m = k + (m + l.width) := by omega
  refine ⟨?_, ?_, ?_, ?_⟩
  · rw [ofRegex, language_union ha hb, nil_mem_add, hl.nullable, hr.nullable]
    simp [Regex.numberFrom, Regex.attributes]
  · intro i hi
    rw [Regex.numberFrom, Regex.mem_first_union]
    rcases left_or_right hi with h | ⟨m, rfl, hm⟩
    · have hentry := entry_lt h
      rw [hleft h, ofRegex, words_union_start_left ha hb (by omega), hl.first i h]
      simp [Regex.left_not_mem_first h]
    · rw [hright, ofRegex, words_union_start_right ha hb, hr.first m hm, hshift]
      simp [Regex.right_not_mem_first]
  · intro i hi
    rw [Regex.numberFrom, Regex.mem_last_union, haccept]
    rcases left_or_right hi with h | ⟨m, rfl, hm⟩
    · rw [hleft h, hbehind', ofRegex, words_union_left_accept ha hb (entry_lt h), hl.last i h]
      simp [Regex.left_not_mem_last h]
    · rw [hright, hbehind, ofRegex, words_union_right_accept ha hb (entry_lt hm), hr.last m hm, hshift]
      simp [Regex.right_not_mem_last]
  · intro i j hi hj
    rw [Regex.numberFrom, Regex.mem_follow_union]
    rcases left_or_right hi with hi | ⟨m, rfl, hm⟩ <;> rcases left_or_right hj with hj | ⟨n, rfl, hn⟩
    · rw [hleft hi, hleft hj, hbehind', ofRegex, words_union_left ha hb (entry_lt hi), hl.follow i j hi hj]
      simp [Regex.not_mem_follow_left hi]
    · rw [hleft hi, hright, hbehind', ofRegex, words_union_left_right ha hb (entry_lt hi)]
      simp [Regex.right_not_mem_follow, Regex.not_mem_follow_left hi]
    · have hentry := entry_lt hj
      rw [hright, hbehind, hleft hj, ofRegex, words_union_right_left ha hb (entry_lt hm) (by omega)]
      simp [Regex.not_mem_follow_right, Regex.left_not_mem_follow hj]
    · rw [hright, hright, hbehind, ofRegex, words_union_right ha hb (entry_lt hm), hr.follow m n hm hn,
        hshift, hshift]
      simp [Regex.not_mem_follow_right]

theorem tracks (r : Regex Char) (k : Nat) : Tracks r k := by
  induction r generalizing k with
  | epsilon => exact tracks_epsilon k
  | leaf a => exact tracks_leaf a k
  | star r ih => exact tracks_star (ih k)
  | concat l r ihl ihr => exact tracks_concat (ihl k) (ihr _)
  | union l r ihl ihr => exact tracks_union (ihl k) (ihr _)

end Nfa
end PatternAutomata
