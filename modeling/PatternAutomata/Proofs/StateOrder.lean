import PatternAutomata.Proofs.Compilation

/-!
# States in the order of their least words

Each state of an automaton that a search has found, or that minimization has made of such a one, is
led to by a least word, and the numbers of the states follow these words. That holds for the subsets
of any automaton with empty moves, for the positions of any term with an end mark and for every
compiled pattern.
-/

namespace PatternAutomata

set_option autoImplicit false

namespace Dfa

variable {d : Dfa} {p q : Nat} {u w : List Char}

/-- The first of the words that lead to a state. -/
structure LeastWord (d : Dfa) (q : Nat) (w : List Char) : Prop where
  leads : d.machine.Leads w q
  least : ∀ u, d.machine.Leads u q → u = w ∨ Precedes w u

/-- Every state can be reached, and a state comes before another one exactly if its least word does. -/
structure InWordOrder (d : Dfa) : Prop where
  exists_least : ∀ q, q < d.size → ∃ w, d.LeastWord q w
  lt_iff : ∀ p q u w, p < d.size → q < d.size → d.LeastWord p u → d.LeastWord q w → (p < q ↔ Precedes u w)

theorem exists_leastWord (h : ∃ w, d.machine.Leads w q) : ∃ w, d.LeastWord q w := by
  obtain ⟨w, hw, hmin⟩ := Precedes.wellFounded.has_min {w | d.machine.Leads w q} h
  refine ⟨w, hw, ?_⟩
  intro u hu
  by_cases hwu : Precedes w u
  · exact Or.inr hwu
  · exact Or.inl (Precedes.eq_of_not (hmin u hu) hwu)

theorem LeastWord.not_precedes (hw : d.LeastWord q w) (hu : d.machine.Leads u q) : ¬ Precedes u w := by
  intro huw
  rcases hw.least u hu with rfl | hwu
  · exact Precedes.irrefl u huw
  · exact Precedes.irrefl u (huw.trans hwu)

theorem Numbered.precedes (hd : d.Numbered) (hu : d.LeastWord p u) (hw : d.LeastWord q w) (hq : q < d.size)
    (hpq : p < q) : Precedes u w := by
  obtain ⟨v, hv, hvw⟩ := hd.ordered p q hpq hq w hw.leads
  rcases hu.least v hv with rfl | huv
  · exact hvw
  · exact huv.trans hvw

theorem Numbered.inWordOrder (hd : d.Numbered) : d.InWordOrder := by
  refine ⟨fun q hq => exists_leastWord (hd.accessible q hq), ?_⟩
  intro p q u w hp hq hu hw
  constructor
  · intro hpq
    exact hd.precedes hu hw hq hpq
  · intro huw
    rcases Nat.lt_trichotomy p q with hpq | rfl | hqp
    · exact hpq
    · exact absurd huw (hw.not_precedes hu.leads)
    · exact absurd (huw.trans (hd.precedes hw hu hp hqp)) (Precedes.irrefl u)

end Dfa

theorem Regex.exists_endPosition {t : Regex Letter} (h : .endMark ∈ t.leaves) : ∃ p, t.endPosition? = some p := by
  have hne : ((t.leaves.zipIdx 1).filter fun x => x.1 = .endMark) ≠ [] := by
    obtain ⟨x, hx, hmark⟩ := List.mem_map.mp ((List.zipIdx_map_fst 1 t.leaves).symm ▸ h)
    exact List.ne_nil_of_mem (List.mem_filter.mpr ⟨hx, decide_eq_true hmark⟩)
  refine ⟨(List.getLast _ hne).2, ?_⟩
  rw [endPosition?, List.getLast?_eq_some_getLast hne]
  rfl

theorem Dfa.exists_ofTerm {t : Regex Letter} (h : .endMark ∈ t.leaves) :
    ∃ d, Dfa.ofTerm t = .ok d ∧ d.Numbered := by
  obtain ⟨finish, hfinish⟩ := Regex.exists_endPosition h
  refine ⟨(t.positionMachine finish).toDfa .positions, ?_, ?_⟩
  · rw [Dfa.ofTerm, hfinish]
  · exact SetMachine.numbered_toDfa (Regex.lawful_positionMachine t finish)

theorem numbered_of_compileWith {o : Options} {s : List Char} {d : Dfa} (h : compileWith o s = .ok d) :
    d.Numbered := by
  obtain ⟨c, minimize⟩ := o
  cases minimize with
  | true => exact (canonical_of_compileWith h).1.toNumbered
  | false =>
    obtain ⟨e, _, hd⟩ := compileWith_eq_ok.mp h
    cases hd
    exact c.numbered_ofRegex e.toRegex

/-- The numbers of the states follow the least words in every automaton of subsets, in that of the
positions of every term with an end mark, and in that of every pattern that compiles. -/
theorem states_in_word_order :
    (∀ n : Nfa, n.toDfa.InWordOrder) ∧
      (∀ t : Regex Letter, .endMark ∈ t.leaves → ∃ d, Dfa.ofTerm t = .ok d ∧ d.InWordOrder) ∧
        ∀ o s d, compileWith o s = .ok d → d.InWordOrder := by
  refine ⟨?_, ?_, ?_⟩
  · intro n
    exact n.numbered_toDfa.inWordOrder
  · intro t hend
    obtain ⟨d, hd, hnumbered⟩ := Dfa.exists_ofTerm hend
    exact ⟨d, hd, hnumbered.inWordOrder⟩
  · intro o s d hd
    exact (numbered_of_compileWith hd).inWordOrder

theorem states_in_word_order_mark_inside :
    (∃ d, Dfa.ofTerm (.concat (.star (.union (.leaf .endMark) (.leaf (.char 'b')))) (.leaf (.char 'a'))) = .ok d ∧
      d.InWordOrder) ∧ ∃ d, compileWith ⟨.subsets, true⟩ ['a', '*'] = .ok d ∧ d.InWordOrder := by
  obtain ⟨_, hterm, hpattern⟩ := states_in_word_order
  obtain ⟨d, hd, _⟩ := exists_compileWith ⟨.subsets, true⟩
    (.expression (.term (.star (.factor (.letter 'a' (by decide) (by decide))))))
  exact ⟨hterm _ (by decide), d, hd, hpattern _ _ d hd⟩

end PatternAutomata
