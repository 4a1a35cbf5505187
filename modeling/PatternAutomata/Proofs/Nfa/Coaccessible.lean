import PatternAutomata.Proofs.Regex.Language
import PatternAutomata.Proofs.Rejection

/-!
# The accepting state can be reached from everywhere

Compositions of automata in which a path leads from each state to the accepting state are such
automata again. Those composed along a term are of this kind, so no set of states that a run passes
through is without a word, and runs reject as early as possible.
-/

namespace PatternAutomata.Nfa

set_option autoImplicit false

open scoped Computability

variable {a b n : Nfa} {p q : Nat} {w : List Char}

/-- A path leads from each state to the accepting state. -/
def Coaccessible (n : Nfa) : Prop := ∀ q, q < n.size → ∃ w, w ∈ n.words q n.accept

theorem exists_mem_mul {K L : Language Char} (hK : ∃ u, u ∈ K) (hL : ∃ v, v ∈ L) : ∃ w, w ∈ K * L := by
  obtain ⟨u, hu⟩ := hK
  obtain ⟨v, hv⟩ := hL
  exact ⟨u ++ v, Language.append_mem_mul hu hv⟩

theorem coaccessible_single (label : Option Char) : (single label).Coaccessible := by
  intro q hq
  rw [size_single] at hq
  have haccept : (single label).Path 1 [] 1 := .refl Nat.one_lt_two
  rcases q with _ | _ | q
  · exact ⟨label.toList ++ [], Path.step (mem_targets_single.mpr ⟨rfl, rfl, rfl⟩) haccept⟩
  · exact ⟨[], haccept⟩
  · omega

section Compositions

variable (ha : a.WellFormed) (hb : b.WellFormed) (hca : a.Coaccessible) (hcb : b.Coaccessible)

include ha hb hca hcb in
theorem Coaccessible.concat : (a.concat b).Coaccessible := by
  intro q hq
  have haccept : (a.concat b).accept = b.accept + a.size := rfl
  rw [haccept]
  by_cases hleft : q < a.size
  · rw [words_concat_across ha hb hleft]
    exact exists_mem_mul (hca q hleft) (hcb 0 hb.start_lt)
  · rw [size_concat] at hq
    obtain ⟨i, rfl⟩ : ∃ i, q = i + a.size := ⟨q - a.size, by omega⟩
    rw [words_concat_right ha hb (by omega)]
    exact hcb i (by omega)

include ha hb hca hcb in
theorem Coaccessible.union : (a.union b).Coaccessible := by
  intro q hq
  rw [size_union] at hq
  change ∃ w, w ∈ (a.union b).words q 1
  rcases q with _ | _ | q
  · change ∃ w, w ∈ (a.union b).language
    rw [language_union ha hb]
    exact (hca 0 ha.start_lt).imp fun _ hw => Or.inl hw
  · rw [words_union_sink ha hb, if_pos rfl]
    exact ⟨[], rfl⟩
  · by_cases hleft : q < a.size
    · rw [words_union_left_accept ha hb hleft]
      exact hca q hleft
    · obtain ⟨i, rfl⟩ : ∃ i, q = i + a.size := ⟨q - a.size, by omega⟩
      have hright : i + a.size + 1 + 1 = i + (a.size + 2) := by omega
      rw [hright, words_union_right_accept ha hb (by omega)]
      exact hcb i (by omega)

include ha hca in
theorem Coaccessible.star : a.star.Coaccessible := by
  intro q hq
  rw [size_star] at hq
  change ∃ w, w ∈ a.star.words q 1
  rcases q with _ | _ | q
  · rw [words_star_start ha (by omega), wordsAfter_accept ha]
    exact ⟨[], Language.nil_mem_kstar _⟩
  · rw [words_star_sink ha, if_pos rfl]
    exact ⟨[], rfl⟩
  · rw [words_star ha (by omega), wordsAfter_accept ha]
    have hword := exists_mem_mul (hca q (by omega)) ⟨[], Language.nil_mem_kstar a.language⟩
    exact hword.imp fun _ hw => Or.inr hw

end Compositions

theorem coaccessible_ofRegex (r : Regex Char) : (ofRegex r).Coaccessible := by
  induction r with
  | epsilon => exact coaccessible_single none
  | leaf c => exact coaccessible_single (some c)
  | star r ih => exact ih.star (wellFormed_ofRegex r)
  | concat l r ihl ihr => exact ihl.concat (wellFormed_ofRegex l) (wellFormed_ofRegex r) ihr
  | union l r ihl ihr => exact ihl.union (wellFormed_ofRegex l) (wellFormed_ofRegex r) ihr

/-- A set of states that a run can be in: no empty move leaves it, and it is not empty. -/
structure Occupied (n : Nfa) (s : NatSet) : Prop extends n.ClosedSet s where
  nonempty : ∃ q, q ∈ s

theorem Occupied.next {s t : NatSet} {c : Char} (h : n.machine.next s c = some t) : n.Occupied t := by
  obtain ⟨rfl, hne⟩ := NatSet.nonempty?_eq_some.mp h
  exact ⟨closedSet_step s c, NatSet.exists_mem_of_ne_empty hne⟩

theorem occupied_start (hn : 0 < n.size) : n.Occupied n.machine.start :=
  ⟨closedSet_closure [0], 0, mem_closure.mpr ⟨0, List.mem_singleton.mpr rfl, .refl hn⟩⟩

theorem mem_words_machine {s : NatSet} (hs : n.ClosedSet s) :
    w ∈ n.machine.words s ↔ ∃ p ∈ s, n.Path p w n.accept := by
  rw [← runFrom_accepted_iff hs, Machine.runFrom_accepted]
  exact Iff.rfl

theorem Coaccessible.exists_mem_words (hn : n.Coaccessible) {s : NatSet} (hs : n.Occupied s) :
    ∃ w, w ∈ n.machine.words s := by
  obtain ⟨q, hq⟩ := hs.nonempty
  obtain ⟨w, hw⟩ := hn q (hs.lt_size q hq)
  exact ⟨w, (mem_words_machine hs.toClosedSet).mpr ⟨q, hq, hw⟩⟩

theorem words_machine_start (n : Nfa) : n.machine.words n.machine.start = n.language := by
  apply Language.ext
  intro w
  rw [← run_accepted_iff, run, Machine.run_accepted]
  exact Iff.rfl

theorem Coaccessible.run_earliest (hn : n.Coaccessible) (hsize : 0 < n.size) (w : List Char) :
    (n.run w).Earliest n.language w := by
  rw [← words_machine_start]
  exact Machine.runFrom_earliest (fun _ hs => hn.exists_mem_words hs) (fun _ _ _ _ h => Occupied.next h)
    (occupied_start hsize) w

end PatternAutomata.Nfa
