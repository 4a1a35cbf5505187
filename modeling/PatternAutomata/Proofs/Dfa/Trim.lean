import PatternAutomata.Proofs.Dfa.Isomorphism

/-!
# When the minimal automaton is trim

An automaton is trim if every state can be reached and every edge leads on to an accepting state. Then
each edge lies on the run of an accepted word, and the alphabet holds just the symbols of such words.
Minimization drops the states from which no word is accepted, but never the start. So its result is trim
unless no word is accepted and the start has an edge to itself: those edges are kept.
-/

namespace PatternAutomata.Dfa

set_option autoImplicit false

variable {d m : Dfa} {f : Nat → Nat} {q t : Nat} {c : Char} {w : List Char}

/-- Every state can be reached, and from the target of every edge a word is accepted. -/
structure Trim (d : Dfa) : Prop where
  accessible : ∀ q, q < d.size → ∃ w, d.machine.Leads w q
  productive : ∀ q c t, d.next? q c = some t → ∃ w, w ∈ d.residual t

theorem mem_alphabet_iff : c ∈ d.alphabet ↔ ∃ q t, d.next? q c = some t := by
  have hrows : d.alphabet = alphabetOf ((d.states.toList.map State.row).flatMap fun r => r.toList.map Prod.fst) := by
    rw [List.flatMap_map]
    rfl
  rw [hrows, rows_eq, mem_alphabetOf]
  simp only [List.mem_flatMap, List.mem_map, List.mem_range]
  constructor
  · intro h
    obtain ⟨_, ⟨q, _, rfl⟩, ⟨_, t⟩, he, rfl⟩ := h
    exact ⟨q, t, Row.mem_toList_iff.mp he⟩
  · intro h
    obtain ⟨q, t, h⟩ := h
    exact ⟨d.row q, ⟨q, lt_of_next? h, rfl⟩, (c, t), Row.mem_toList_iff.mpr h, rfl⟩

theorem mem_alphabet_of_walk (h : d.machine.walk q w = some t) (hc : c ∈ w) : c ∈ d.alphabet := by
  obtain ⟨u, v, rfl⟩ := List.append_of_mem hc
  rw [Machine.walk_append] at h
  obtain ⟨p, _, hp⟩ := Option.bind_eq_some_iff.mp h
  obtain ⟨r, hr, _⟩ := Option.bind_eq_some_iff.mp hp
  exact mem_alphabet_iff.mpr ⟨p, r, hr⟩

namespace Trim

theorem exists_word (hd : d.Trim) (h : d.next? q c = some t) :
    ∃ u w, d.machine.Leads u q ∧ u ++ c :: w ∈ d.language := by
  obtain ⟨u, hu⟩ := hd.accessible q (lt_of_next? h)
  obtain ⟨w, hw⟩ := hd.productive q c t h
  exact ⟨u, w, hu, append_mem_residual.mpr ⟨q, hu, cons_mem_residual.mpr ⟨t, h, hw⟩⟩⟩

theorem mem_alphabet (hd : d.Trim) : c ∈ d.alphabet ↔ ∃ w, w ∈ d.language ∧ c ∈ w := by
  constructor
  · intro h
    obtain ⟨q, t, ht⟩ := mem_alphabet_iff.mp h
    obtain ⟨u, w, _, hw⟩ := hd.exists_word ht
    exact ⟨u ++ c :: w, hw, by simp⟩
  · intro h
    obtain ⟨w, hw, hc⟩ := h
    obtain ⟨t, ht, _⟩ := mem_residual_iff.mp hw
    exact mem_alphabet_of_walk ht hc

end Trim

theorem Reduced.trim (hd : d.Reduced) : d.Trim where
  accessible := hd.accessible
  productive q c t h := hd.productive t (hd.targets_lt q c t h)

section Empty

variable (hd : d.InRange) (hempty : ∀ w, w ∉ d.language)
include hd hempty

theorem eq_start_of_mem_live (hq : q ∈ d.live) : q = 0 := by
  rcases (mem_live hd).mp hq with h | ⟨⟨u, hu⟩, w, hw⟩
  · exact h
  · exact absurd (append_mem_residual.mpr ⟨q, hu, hw⟩) (hempty (u ++ w))

variable (hm : Collapse (d.restrict d.live) d.live m f)
include hm

theorem Collapse.size_eq_one : m.size = 1 := by
  have hrange := hm.inRange (trimmed_live hd).toClosed (start_mem_live hd)
  have hpos := hrange.nonempty
  by_contra hsize
  obtain ⟨q, hq, hone⟩ := hm.onto 1 (by omega)
  rw [eq_start_of_mem_live hd hempty hq, hm.start (start_mem_live hd)] at hone
  cases hone

theorem Collapse.accepts_start : m.accepts 0 = false := by
  apply Bool.eq_false_of_not_eq_true
  intro h
  apply hempty []
  rw [← hm.language_eq hd]
  exact nil_mem_residual.mpr h

/-- Of the edges only those from the start to itself are left. -/
theorem Collapse.next?_eq_some : m.next? q c = some t ↔ (q = 0 ∧ t = 0) ∧ d.next? 0 c = some 0 := by
  have hstart := start_mem_live hd
  have hnext := hm.next 0 hstart c
  rw [hm.start hstart] at hnext
  constructor
  · intro h
    have hsize := hm.size_eq_one hd hempty
    have hq : q = 0 := by
      have := lt_of_next? h
      omega
    subst hq
    rw [hnext, Option.map_eq_some_iff] at h
    obtain ⟨r, hr, rfl⟩ := h
    obtain ⟨hr, hlive⟩ := next?_restrict.mp hr
    obtain rfl := eq_start_of_mem_live hd hempty hlive
    exact ⟨⟨rfl, hm.start hstart⟩, hr⟩
  · intro h
    obtain ⟨⟨rfl, rfl⟩, h⟩ := h
    rw [hnext, next?_restrict.mpr ⟨h, hstart⟩, Option.map_some, hm.start hstart]

end Empty

theorem Collapse.trim_iff (hd : d.InRange) (hm : Collapse (d.restrict d.live) d.live m f) :
    m.Trim ↔ (∃ w, w ∈ d.language) ∨ ∀ c, d.next? 0 c ≠ some 0 := by
  by_cases hword : ∃ w, w ∈ d.language
  · exact iff_of_true (hm.reduced hd hword).trim (Or.inl hword)
  · have hempty : ∀ w, w ∉ d.language := not_exists.mp hword
    rw [or_iff_right hword]
    constructor
    · intro h c hc
      have hloop : m.next? 0 c = some 0 := (hm.next?_eq_some hd hempty).mpr ⟨⟨rfl, rfl⟩, hc⟩
      obtain ⟨w, hw⟩ := h.productive 0 c 0 hloop
      apply hempty w
      rwa [← hm.language_eq hd]
    · intro h
      refine ⟨fun q hq => hm.accessible hd hq, ?_⟩
      intro q c t ht
      exact absurd ((hm.next?_eq_some hd hempty).mp ht).2 (h c)

/-- The states of the minimal automaton can all be reached. It is trim if a word is accepted, or else if
no edge leads from the start to itself; then each edge is used by an accepted word, and the alphabet is
that of the accepted words. Of the empty language one rejecting state remains, with these edges only. -/
theorem minimize_trim_iff (hd : d.InRange) :
    ∃ m, d.minimize = .ok m ∧ (∀ q, q < m.size → ∃ w, m.machine.Leads w q) ∧
      (m.Trim ↔ (∃ w, d.isMatch w = true) ∨ ∀ c, d.next? 0 c ≠ some 0) ∧
      (m.Trim → (∀ q c t, m.next? q c = some t →
          ∃ u w, m.machine.Leads u q ∧ m.isMatch (u ++ c :: w) = true) ∧
        ∀ c, c ∈ m.alphabet ↔ ∃ w, d.isMatch w = true ∧ c ∈ w) ∧
      ((∀ w, d.isMatch w = false) → m.size = 1 ∧ m.accepts 0 = false ∧
        ∀ q c t, (q, c, t) ∈ m.transitions ↔ (q = 0 ∧ t = 0) ∧ d.next? 0 c = some 0) := by
  obtain ⟨m, f, hminimize, hm⟩ := exists_minimize hd
  simp only [isMatch_iff, mem_transitions]
  refine ⟨m, hminimize, fun _ hq => hm.accessible hd hq, hm.trim_iff hd, ?trim, ?empty⟩
  case trim =>
    intro htrim
    refine ⟨fun _ _ _ h => htrim.exists_word h, ?_⟩
    intro c
    rw [← hm.language_eq hd]
    exact htrim.mem_alphabet
  case empty =>
    intro h
    have hempty : ∀ w, w ∉ d.language := by
      intro w hw
      have hfalse := h w
      rw [isMatch_iff.mpr hw] at hfalse
      cases hfalse
    exact ⟨hm.size_eq_one hd hempty, hm.accepts_start hd hempty, fun _ _ _ => hm.next?_eq_some hd hempty⟩

theorem minimize_trim_iff_trap : ∃ m, trap.minimize = .ok m ∧ m.Trim ∧
    ∀ c, c ∈ m.alphabet ↔ ∃ w, trap.isMatch w = true ∧ c ∈ w := by
  obtain ⟨m, hm, _, htrim, hwords, _⟩ := minimize_trim_iff (d := trap) (by decide)
  have h := htrim.mpr (Or.inl ⟨['a'], by decide⟩)
  exact ⟨m, hm, h, (hwords h).2⟩

/-- A start that accepts nothing and leads to itself. -/
def treadmill : Dfa := ⟨.nfaStates, #[⟨.singleton 0, false, .ofList [('a', 0)]⟩]⟩

theorem not_mem_language_treadmill (w : List Char) : w ∉ treadmill.language := by
  intro h
  obtain ⟨t, _, ht⟩ := mem_residual_iff.mp h
  obtain rfl : t = 0 := Nat.lt_one_iff.mp (lt_of_accepts ht)
  cases ht

/-- The edge of the start to itself stays, although no word is accepted. -/
theorem minimize_treadmill_not_trim : treadmill.InRange ∧ (∀ w, treadmill.isMatch w = false) ∧
    ∃ m, treadmill.minimize = .ok m ∧ (0, 'a', 0) ∈ m.transitions ∧ 'a' ∈ m.alphabet ∧ ¬ m.Trim := by
  have hd : treadmill.InRange := by decide
  obtain ⟨m, f, hminimize, hm⟩ := exists_minimize hd
  have hloop : m.next? 0 'a' = some 0 :=
    (hm.next?_eq_some hd not_mem_language_treadmill).mpr ⟨⟨rfl, rfl⟩, by decide⟩
  refine ⟨hd, ?_, m, hminimize, mem_transitions.mpr hloop, mem_alphabet_iff.mpr ⟨0, 0, hloop⟩, ?_⟩
  · intro w
    exact Bool.eq_false_of_not_eq_true fun h => not_mem_language_treadmill w (isMatch_iff.mp h)
  · intro h
    rcases (hm.trim_iff hd).mp h with ⟨w, hw⟩ | hnone
    · exact not_mem_language_treadmill w hw
    · exact hnone 'a' (by decide)

end PatternAutomata.Dfa
