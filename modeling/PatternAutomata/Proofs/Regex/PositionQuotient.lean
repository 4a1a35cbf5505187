import PatternAutomata.Proofs.Nfa.Positions
import PatternAutomata.Proofs.Nfa.Subsets

/-!
# Positions as a quotient of subsets

A set of states of the composed automaton marks the positions before whose leaves it stands, and the
end mark if it holds the accepting state. Marking commutes with the steps of both set machines, so
the automaton of the positions is a quotient of the automaton of the subsets: it never has more
states, and every run is the same.
-/

namespace PatternAutomata

set_option autoImplicit false

namespace Regex

variable {r : Regex Char} {s : NatSet} {c : Char} {p q : Nat}

theorem mem_advance_slots {t : Regex Letter} :
    q ∈ advance t.slots s c ↔ ∃ p ∈ s, t.leafAt? p = some (.char c) ∧ q ∈ t.linearize.follow p := by
  rw [mem_advance]
  constructor
  · intro h
    obtain ⟨p, hp, next, hnext, hq⟩ := h
    obtain ⟨hleaf, rfl⟩ := charAt?_slots.mp hnext
    exact ⟨p, hp, hleaf, hq⟩
  · intro h
    obtain ⟨p, hp, hleaf, hq⟩ := h
    exact ⟨p, hp, _, charAt?_slots.mpr ⟨hleaf, rfl⟩, hq⟩

theorem lawful_positionMachine (t : Regex Letter) (finish : Nat) : (t.positionMachine finish).Lawful := by
  refine ⟨?_, alphabetOf_ascending _⟩
  intro s u c h
  obtain ⟨rfl, hne⟩ := NatSet.nonempty?_eq_some.mp h
  obtain ⟨q, hq⟩ := NatSet.exists_mem_of_ne_empty hne
  obtain ⟨p, _, hleaf, _⟩ := mem_advance_slots.mp hq
  have hmem : Letter.char c ∈ t.leaves := by
    rw [leafAt?] at hleaf
    split at hleaf
    · cases hleaf
    · exact List.mem_of_getElem? hleaf
  apply mem_alphabetOf.mpr
  exact List.mem_filterMap.mpr ⟨.char c, hmem, rfl⟩

theorem linearize_withEndMark (r : Regex Char) :
    r.withEndMark.linearize = concat r.linearize (leaf (r.width + 1)) := by
  simp only [withEndMark, linearize, numberFrom, numberFrom_map, width_map, Nat.add_comm]

theorem leaves_withEndMark (r : Regex Char) :
    r.withEndMark.leaves = r.leaves.map Letter.char ++ [.endMark] := by
  simp [withEndMark, leaves, leaves_map]

@[simp] theorem width_withEndMark (r : Regex Char) : r.withEndMark.width = r.width + 1 := by
  simp [withEndMark, width, width_map]

theorem leafAt?_withEndMark : r.withEndMark.leafAt? p = some (.char c) ↔ ∃ i, p = i + 1 ∧ r.leaves[i]? = some c := by
  cases p with
  | zero => simp [leafAt?]
  | succ i =>
    rw [leafAt?, if_neg (Nat.succ_ne_zero i), Nat.add_sub_cancel, leaves_withEndMark, List.getElem?_append]
    split
    · simp
    · rename_i hi
      rw [List.length_map] at hi
      have hnone : r.leaves[i]? = none := List.getElem?_eq_none_iff.mpr (Nat.le_of_not_lt hi)
      rw [List.getElem?_singleton]
      constructor
      · intro h
        split at h <;> cases h
      · intro h
        obtain ⟨j, hj, h⟩ := h
        obtain rfl : i = j := by omega
        rw [hnone] at h
        cases h

theorem endPosition?_withEndMark (r : Regex Char) : r.withEndMark.endPosition? = some (r.width + 1) := by
  have hchars : ∀ k, ((r.leaves.map Letter.char).zipIdx k).filter (fun x => x.1 = Letter.endMark) = [] := by
    intro k
    apply List.filter_eq_nil_iff.mpr
    intro x hx
    obtain ⟨c, _, hc⟩ := List.mem_map.mp (List.fst_mem_of_mem_zipIdx hx)
    simp [← hc]
  rw [endPosition?, leaves_withEndMark, List.zipIdx_append, List.filter_append, hchars]
  simp [Nat.add_comm]

theorem mem_first_withEndMark :
    p ∈ r.withEndMark.linearize.attributes.first ↔
      p ∈ r.linearize.attributes.first ∨ (r.linearize.attributes.nullable = true ∧ p = r.width + 1) := by
  rw [linearize_withEndMark, mem_first_concat]
  exact or_congr_right (and_congr_right fun _ => NatSet.mem_singleton)

theorem mem_follow_withEndMark :
    q ∈ r.withEndMark.linearize.follow p ↔
      q ∈ r.linearize.follow p ∨ (p ∈ r.linearize.attributes.last ∧ q = r.width + 1) := by
  have hnone : q ∉ (leaf (r.width + 1)).follow p := by simp [mem_follow, links]
  rw [linearize_withEndMark, mem_follow_concat]
  simp only [hnone, false_or]
  exact or_congr_right (and_congr_right fun _ => NatSet.mem_singleton)

/-- The automaton of the positions of a term, the last of which is the end mark's. -/
def positionDfa (r : Regex Char) : Dfa := (r.withEndMark.positionMachine (r.width + 1)).toDfa .positions

theorem ofTerm_withEndMark (r : Regex Char) : Dfa.ofTerm r.withEndMark = .ok r.positionDfa := by
  rw [Dfa.ofTerm, endPosition?_withEndMark]
  rfl

/-- The state of a position; the end mark's is the accepting one. -/
def stateAt (r : Regex Char) (p : Nat) : Nat :=
  if p ≤ r.width then r.entry (p - 1) else (Nfa.ofRegex r).accept

theorem stateAt_succ {i : Nat} (hi : i < r.width) : r.stateAt (i + 1) = r.entry i := by
  rw [stateAt, if_pos (Nat.succ_le_of_lt hi), Nat.add_sub_cancel]

theorem stateAt_end (r : Regex Char) : r.stateAt (r.width + 1) = (Nfa.ofRegex r).accept := by
  rw [stateAt, if_neg (Nat.not_succ_le_self _)]

/-- The states of the positions that begin a word are those that empty moves lead to. -/
theorem path_start_iff (hp : 1 ≤ p ∧ p ≤ r.width + 1) :
    (Nfa.ofRegex r).Path 0 [] (r.stateAt p) ↔ p ∈ r.withEndMark.linearize.attributes.first := by
  have htracks := Nfa.tracks r 1
  rw [mem_first_withEndMark]
  by_cases hlast : p = r.width + 1
  · subst hlast
    have hout : r.width + 1 ∉ r.linearize.attributes.first := by
      intro h
      exact Nat.not_succ_le_self _ (mem_leaves_linearize.mp (mem_leaves_of_first h)).2
    rw [stateAt_end]
    simp only [hout, false_or, and_true]
    exact htracks.nullable
  · obtain ⟨i, rfl⟩ : ∃ i, p = i + 1 := ⟨p - 1, by omega⟩
    have hi : i < r.width := by omega
    rw [stateAt_succ hi]
    simp only [hlast, and_false, or_false]
    rw [Nat.add_comm]
    exact htracks.first i hi

theorem path_entry_iff {i : Nat} (hi : i < r.width) (hq : 1 ≤ q ∧ q ≤ r.width + 1) :
    (Nfa.ofRegex r).Path (r.entry i + 1) [] (r.stateAt q) ↔ q ∈ r.withEndMark.linearize.follow (i + 1) := by
  have htracks := Nfa.tracks r 1
  rw [mem_follow_withEndMark]
  by_cases hlast : q = r.width + 1
  · subst hlast
    have hout : r.width + 1 ∉ r.linearize.follow (i + 1) := by
      intro h
      exact Nat.not_succ_le_self _ (mem_leaves_linearize.mp (mem_leaves_of_follow h)).2
    rw [stateAt_end]
    simp only [hout, false_or, and_true]
    rw [Nat.add_comm i 1]
    exact htracks.last i hi
  · obtain ⟨j, rfl⟩ : ∃ j, q = j + 1 := ⟨q - 1, by omega⟩
    have hj : j < r.width := by omega
    rw [stateAt_succ hj]
    simp only [hlast, and_false, or_false]
    rw [Nat.add_comm i 1, Nat.add_comm j 1]
    exact htracks.follow i j hi hj

def marks (r : Regex Char) (s : NatSet) : NatSet :=
  NatSet.ofList ((List.range' 1 (r.width + 1)).filter fun p => decide (r.stateAt p ∈ s))

theorem mem_marks : p ∈ r.marks s ↔ (1 ≤ p ∧ p ≤ r.width + 1) ∧ r.stateAt p ∈ s := by
  rw [marks, NatSet.mem_ofList, List.mem_filter, List.mem_range'_1, decide_eq_true_eq]
  apply and_congr_left
  intro _
  omega

theorem marks_closure (r : Regex Char) :
    r.marks ((Nfa.ofRegex r).closure [0]) = r.withEndMark.linearize.attributes.first := by
  apply NatSet.ext_mem
  intro p
  rw [mem_marks, Nfa.mem_closure]
  simp only [List.mem_singleton, exists_eq_left]
  constructor
  · intro h
    obtain ⟨hp, h⟩ := h
    exact (path_start_iff hp).mp h
  · intro h
    have hp := mem_leaves_linearize.mp (mem_leaves_of_first h)
    rw [width_withEndMark] at hp
    exact ⟨by omega, (path_start_iff (by omega)).mpr h⟩

theorem mem_step_ofRegex :
    q ∈ (Nfa.ofRegex r).step s c ↔
      ∃ i, r.leaves[i]? = some c ∧ r.entry i ∈ s ∧ (Nfa.ofRegex r).Path (r.entry i + 1) [] q := by
  simp only [Nfa.mem_step, Nfa.mem_targets_ofRegex]
  constructor
  · intro h
    obtain ⟨_, hp, _, ⟨i, hi, rfl, rfl⟩, hq⟩ := h
    exact ⟨i, hi, hp, hq⟩
  · intro h
    obtain ⟨i, hi, hp, hq⟩ := h
    exact ⟨_, hp, _, ⟨i, hi, rfl, rfl⟩, hq⟩

theorem mem_advance_marks :
    q ∈ advance r.withEndMark.slots (r.marks s) c ↔
      ∃ i, r.leaves[i]? = some c ∧ r.entry i ∈ s ∧ q ∈ r.withEndMark.linearize.follow (i + 1) := by
  rw [mem_advance_slots]
  simp only [leafAt?_withEndMark]
  constructor
  · intro h
    obtain ⟨_, hp, ⟨i, rfl, hi⟩, hq⟩ := h
    rw [mem_marks, stateAt_succ (lt_width hi)] at hp
    exact ⟨i, hi, hp.2, hq⟩
  · intro h
    obtain ⟨i, hi, hp, hq⟩ := h
    have hlt := lt_width hi
    refine ⟨i + 1, mem_marks.mpr ⟨by omega, ?_⟩, ⟨i, rfl, hi⟩, hq⟩
    rwa [stateAt_succ hlt]

theorem marks_step (r : Regex Char) (s : NatSet) (c : Char) :
    r.marks ((Nfa.ofRegex r).step s c) = advance r.withEndMark.slots (r.marks s) c := by
  apply NatSet.ext_mem
  intro q
  rw [mem_marks, mem_step_ofRegex, mem_advance_marks]
  constructor
  · intro h
    obtain ⟨hq, i, hi, hp, hpath⟩ := h
    exact ⟨i, hi, hp, (path_entry_iff (lt_width hi) hq).mp hpath⟩
  · intro h
    obtain ⟨i, hi, hp, hfollow⟩ := h
    have hq := mem_leaves_linearize.mp (mem_leaves_of_follow hfollow)
    rw [width_withEndMark] at hq
    exact ⟨by omega, i, hi, hp, (path_entry_iff (lt_width hi) (by omega)).mpr hfollow⟩

/-- In front of the end mark something follows every position. -/
theorem exists_mem_follow_withEndMark {i : Nat} (hi : i < r.width) :
    ∃ q, q ∈ r.withEndMark.linearize.follow (i + 1) := by
  have hleaf : i + 1 ∈ r.linearize.leaves := mem_leaves_linearize.mpr ⟨Nat.succ_pos i, hi⟩
  rcases mem_last_or_exists_follow hleaf with hlast | ⟨q, hq⟩
  · exact ⟨_, mem_follow_withEndMark.mpr (Or.inr ⟨hlast, rfl⟩)⟩
  · exact ⟨q, mem_follow_withEndMark.mpr (Or.inl hq)⟩

theorem marks_step_eq_empty :
    r.marks ((Nfa.ofRegex r).step s c) = ∅ ↔ (Nfa.ofRegex r).step s c = ∅ := by
  rw [NatSet.eq_empty_iff, NatSet.eq_empty_iff]
  constructor
  · intro h q hq
    obtain ⟨i, hi, hp, _⟩ := mem_step_ofRegex.mp hq
    obtain ⟨x, hx⟩ := exists_mem_follow_withEndMark (lt_width hi)
    apply h x
    rw [marks_step]
    exact mem_advance_marks.mpr ⟨i, hi, hp, hx⟩
  · intro h q hq
    exact h _ (mem_marks.mp hq).2

theorem morphism_marks (r : Regex Char) :
    SetMachine.Morphism (Nfa.ofRegex r).setMachine (r.withEndMark.positionMachine (r.width + 1)) r.marks := by
  refine ⟨marks_closure r, ?_, ?_⟩
  · intro s
    change decide (r.width + 1 ∈ r.marks s) = decide ((Nfa.ofRegex r).accept ∈ s)
    apply decide_eq_decide.mpr
    rw [mem_marks, stateAt_end]
    exact and_iff_right (by omega)
  · intro s c
    change (advance r.withEndMark.slots (r.marks s) c).nonempty? =
      ((Nfa.ofRegex r).step s c).nonempty?.map r.marks
    rw [← marks_step]
    apply Option.ext
    intro t
    simp only [Option.map_eq_some_iff, NatSet.nonempty?_eq_some, ne_eq]
    rw [marks_step_eq_empty]
    constructor
    · intro h
      obtain ⟨rfl, hne⟩ := h
      exact ⟨_, ⟨rfl, hne⟩, rfl⟩
    · intro h
      obtain ⟨_, ⟨rfl, hne⟩, rfl⟩ := h
      exact ⟨rfl, hne⟩

theorem exists_quotient_positionDfa (r : Regex Char) :
    ∃ f, Dfa.Quotient (Nfa.ofRegex r).toDfa r.positionDfa f :=
  ⟨_, (morphism_marks r).quotient (Nfa.lawful_setMachine _) (lawful_positionMachine _ _) _ _⟩

theorem run_positionDfa (r : Regex Char) (w : List Char) :
    r.positionDfa.run w = (Nfa.ofRegex r).toDfa.run w := by
  obtain ⟨f, hf⟩ := exists_quotient_positionDfa r
  exact hf.run (Nfa.wellFormed_toDfa _).inRange w

theorem language_positionDfa (r : Regex Char) : r.positionDfa.language = r.language := by
  rw [← Nfa.language_ofRegex, ← Nfa.language_toDfa]
  apply Language.ext
  intro w
  rw [← Dfa.isMatch_iff, ← Dfa.isMatch_iff, Dfa.isMatch, Dfa.isMatch, run_positionDfa]

theorem wellFormed_positionDfa (r : Regex Char) : r.positionDfa.WellFormed :=
  SetMachine.wellFormed_toDfa (lawful_positionMachine _ _)

theorem numbered_positionDfa (r : Regex Char) : r.positionDfa.Numbered :=
  SetMachine.numbered_toDfa (lawful_positionMachine _ _)

end Regex

/-- An expression that has a term has both automata, and that of its positions is a quotient of the
other one. -/
theorem positions_quotient_of_subsets {tokens : List Token} (hend : Token.letter .endMark ∉ tokens)
    {t : Regex Letter} (ht : Regex.ofPostfix tokens = .ok t) :
    ∃ d n f, Dfa.ofPostfix tokens = .ok d ∧ Nfa.ofPostfix tokens = .ok n ∧ Dfa.Quotient n.toDfa d f ∧
      d.size ≤ n.toDfa.size ∧ ∀ w, d.isMatch w = n.toDfa.isMatch w := by
  rw [Regex.ofPostfix_eq_map hend] at ht
  cases hr : Regex.ofTokens tokens with
  | error e =>
    rw [hr] at ht
    cases ht
  | ok r =>
    have hd : Dfa.ofPostfix tokens = .ok r.positionDfa :=
      (Dfa.ofPostfix_eq_ok hend).mpr ⟨r, hr, Regex.ofTerm_withEndMark r⟩
    have hn : Nfa.ofPostfix tokens = .ok (Nfa.ofRegex r) := by
      rw [Nfa.ofPostfix_eq_map, hr]
      rfl
    obtain ⟨f, hf⟩ := Regex.exists_quotient_positionDfa r
    refine ⟨_, _, f, hd, hn, hf, hf.size_le, ?_⟩
    intro w
    rw [Dfa.isMatch, Dfa.isMatch, Regex.run_positionDfa]

theorem positions_quotient_of_subsets_abb :
    ∃ d n f,
      Dfa.ofPostfix [.letter (.char 'a'), .letter (.char 'b'), .operator .union, .operator .star,
        .letter (.char 'a'), .operator .concat, .letter (.char 'b'), .operator .concat,
        .letter (.char 'b'), .operator .concat] = .ok d ∧
      Nfa.ofPostfix [.letter (.char 'a'), .letter (.char 'b'), .operator .union, .operator .star,
        .letter (.char 'a'), .operator .concat, .letter (.char 'b'), .operator .concat,
        .letter (.char 'b'), .operator .concat] = .ok n ∧
      Dfa.Quotient n.toDfa d f ∧ d.size ≤ n.toDfa.size ∧ ∀ w, d.isMatch w = n.toDfa.isMatch w :=
  positions_quotient_of_subsets (by decide) rfl

end PatternAutomata
