import PatternAutomata.Proofs.Dfa.Live

/-!
# Automata with the same numbers

Two automata have the same numbering if they agree in all that does not depend on keys: the number of
states, the edges, the accepting states and the names. Edges and accepting states decide every run,
so such automata accept the same words; and canonical ones that do are numbered alike.
-/

namespace PatternAutomata.Dfa

set_option autoImplicit false

variable {d e : Dfa} {q t : Nat} {c : Char}

/-- All but the keys is the same. -/
structure SameNumbering (d e : Dfa) : Prop where
  size : d.size = e.size
  transitions : d.transitions = e.transitions
  accepting : d.accepting = e.accepting
  names : ∀ q, d.name? q = e.name? q

theorem mem_transitions : (q, c, t) ∈ d.transitions ↔ d.next? q c = some t := by
  simp only [transitions, List.mem_flatMap, List.mem_map, Prod.mk.injEq, Prod.exists,
    List.mem_zipIdx_iff_getElem?, Array.getElem?_toList]
  constructor
  · intro h
    obtain ⟨s, _, hs, _, _, he, rfl, rfl, rfl⟩ := h
    rw [next?, row, hs]
    exact Row.mem_toList_iff.mp he
  · intro h
    have hq := lt_of_next? h
    have hs : d.states[q]? = some d.states[q] := Array.getElem?_eq_getElem hq
    rw [next?, row, hs] at h
    exact ⟨d.states[q], q, hs, c, t, Row.mem_toList_iff.mpr h, rfl, rfl, rfl⟩

theorem inRange_iff : d.InRange ↔ 0 < d.size ∧ ∀ x ∈ d.transitions, x.2.2 < d.size := by
  constructor
  · intro h
    refine ⟨h.nonempty, ?_⟩
    rintro ⟨q, c, t⟩ hx
    exact h.targets_lt q c t (mem_transitions.mp hx)
  · intro h
    refine ⟨h.1, ?_⟩
    intro q c t ht
    exact h.2 (q, c, t) (mem_transitions.mpr ht)

instance : Decidable d.InRange := decidable_of_iff _ inRange_iff.symm

theorem rows_eq (d : Dfa) : d.states.toList.map State.row = (List.range d.size).map d.row := by
  apply List.ext_getElem?
  intro q
  rw [List.getElem?_map, List.getElem?_map, Array.getElem?_toList]
  by_cases hq : q < d.size
  · have hs : d.states[q]? = some d.states[q] := Array.getElem?_eq_getElem hq
    rw [List.getElem?_range hq, hs, Option.map_some, Option.map_some, row, hs]
    rfl
  · rw [List.getElem?_eq_none (by simpa using hq), Array.getElem?_eq_none (Nat.le_of_not_lt hq)]
    rfl

theorem transitions_eq (d : Dfa) : d.transitions =
    ((List.range d.size).map d.row).zipIdx.flatMap fun x => x.1.toList.map fun e => (x.2, e.1, e.2) := by
  rw [← rows_eq, List.zipIdx_map, List.flatMap_map]
  rfl

theorem SameNumbering.of_next (hsize : d.size = e.size) (haccepts : ∀ q, d.accepts q = e.accepts q)
    (hnext : ∀ q c, d.next? q c = e.next? q c) : SameNumbering d e := by
  have hrow : d.row = e.row := funext fun q => Row.ext_get? (hnext q)
  refine ⟨hsize, ?_, ?_, ?_⟩
  · rw [transitions_eq, transitions_eq, hsize, hrow]
  · apply NatSet.ext_mem
    intro q
    rw [mem_accepting, mem_accepting, haccepts]
  · intro q
    rw [name?, name?, hsize]

theorem SameNumbering.isMatch (h : SameNumbering d e) (w : List Char) : d.isMatch w = e.isMatch w := by
  have hnext : ∀ q c, e.next? q c = d.next? q c := by
    intro q c
    apply Option.ext
    intro t
    rw [← mem_transitions, ← mem_transitions, h.transitions]
  have haccepts : ∀ q, e.accepts q = d.accepts q := by
    intro q
    rw [Bool.eq_iff_iff, ← mem_accepting, ← mem_accepting, h.accepting]
  have hrun := Machine.runFrom_map d.machine e.machine id (fun _ => True) (fun q _ => haccepts q)
    (fun q c _ => (hnext q c).trans Option.map_id'.symm) (fun _ _ _ _ _ => trivial) (s := 0) trivial w
  exact congrArg Run.accepted hrun.symm

/-- Canonical automata are numbered alike when they accept the same words. -/
theorem Canonical.sameNumbering_iff (hd : d.Canonical) (he : e.Canonical) :
    (∀ w, d.isMatch w = e.isMatch w) ↔ SameNumbering d e := by
  constructor
  · intro h
    obtain ⟨hsize, haccepts, hnext⟩ := hd.eq_of_language he (language_eq_iff.mpr h)
    exact .of_next hsize haccepts hnext
  · intro h w
    exact h.isMatch w

end PatternAutomata.Dfa
