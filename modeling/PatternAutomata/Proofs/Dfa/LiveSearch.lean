import PatternAutomata.Proofs.Dfa.Trim
import PatternAutomata.Proofs.Search
import PatternAutomata.Table

/-!
# Search for the live states

Two searches find the live states. One goes along the edges from the start, and notes at each target where
it came from; the other one goes back by these notes from the accepting states that the first one has seen.
There is a place for every note.
-/

namespace PatternAutomata.Dfa

set_option autoImplicit false

variable {d : Dfa} {p q t : Nat} {R : Nat → Nat → Prop} {sources : Array (List Nat)}

def targets (d : Dfa) (q : Nat) : List Nat := d.alphabet.filterMap (d.next? q)

theorem mem_targets : t ∈ d.targets q ↔ t ∈ d.graph.next q := by
  rw [targets, List.mem_filterMap, mem_graph_next]
  constructor
  · intro h
    obtain ⟨c, _, h⟩ := h
    exact ⟨c, h⟩
  · intro h
    obtain ⟨c, h⟩ := h
    exact ⟨c, mem_alphabet_iff.mpr ⟨q, t, h⟩, h⟩

theorem InRange.graph_lt (hd : d.InRange) (h : t ∈ d.graph.next q) : t < d.size := by
  obtain ⟨c, hc⟩ := mem_graph_next.mp h
  exact hd.targets_lt q c t hc

/-- Notes a state at all its targets. -/
def note? (d : Dfa) (sources : Array (List Nat)) (q : Nat) : Option (Array (List Nat)) :=
  (d.targets q).foldlM (fun sources t => Table.alter? sources t fun found => found ++ [q]) sources

theorem exists_note (hd : d.InRange) (h : Table.Lists d.size sources R) (q : Nat) :
    ∃ next, d.note? sources q = some next ∧
      Table.Lists d.size next fun t p => R t p ∨ (t ∈ d.targets q ∧ p = q) := by
  apply Table.exists_foldlM (d.targets q)
    (motive := fun ts next => Table.Lists d.size next fun t p => R t p ∨ (t ∈ ts ∧ p = q))
  · exact h.congr (by simp)
  · intro ts t rest next hts hnext
    have ht : t ∈ d.graph.next q := mem_targets.mp (by simp [hts])
    obtain ⟨after, hafter, hlists⟩ := hnext.alter (hd.graph_lt ht) (f := fun found => found ++ [q])
      (fun s p => by rw [List.mem_append, List.mem_singleton])
    refine ⟨after, hafter, hlists.congr ?_⟩
    intro u p
    rw [List.mem_append, List.mem_singleton, or_assoc, or_and_right]

/-- A look along the edges of a state. -/
def lookAhead? (d : Dfa) (sources : Array (List Nat)) (q : Nat) : Option (Array (List Nat) × List Nat) :=
  (d.note? sources q).map fun next => (next, d.targets q)

theorem exists_lookAhead (hd : d.InRange) {done : List Nat}
    (h : Table.Lists d.size sources fun t q => q ∈ done ∧ t ∈ d.targets q) (q : Nat) :
    ∃ next found, d.lookAhead? sources q = some (next, found) ∧
      (Table.Lists d.size next fun t p => p ∈ done ++ [q] ∧ t ∈ d.targets p) ∧
        ∀ t, t ∈ found ↔ t ∈ d.graph.next q := by
  obtain ⟨next, hnext, hlists⟩ := exists_note hd h q
  refine ⟨next, d.targets q, ?_, hlists.congr ?_, fun t => mem_targets⟩
  · rw [lookAhead?, hnext, Option.map_some]
  · intro t p
    rw [List.mem_append, List.mem_singleton, or_and_right]
    apply or_congr Iff.rfl
    constructor
    · intro h
      exact ⟨h.2, h.2 ▸ h.1⟩
    · intro h
      exact ⟨h.1 ▸ h.2, h.1⟩

theorem exists_search_ahead (hd : d.InRange) :
    ∃ sources, Frontier.search d.lookAhead? d.size (Array.replicate d.size []) ⟨NatSet.ofList [0], [0]⟩ =
        some (sources, d.graph.reach [0]) ∧
      Table.Lists d.size sources fun t q => q ∈ d.graph.reach [0] ∧ t ∈ d.graph.next q := by
  have hroots : ∀ r ∈ [0], r < d.graph.size := by
    intro r hr
    rw [List.mem_singleton.mp hr]
    exact hd.nonempty
  obtain ⟨sources, all, heq, hall, hsources⟩ := Frontier.exists_search
    (motive := fun done sources => Table.Lists d.size sources fun t q => q ∈ done ∧ t ∈ d.targets q)
    (fun _ _ _ ht => hd.graph_lt ht) (fun _ _ q hlists _ => exists_lookAhead hd hlists q)
    (Frontier.explores_roots (List.nodup_singleton 0) hroots)
    ((Table.Lists.replicate fun _ => List.not_mem_nil).congr (by simp)) (Nat.le_add_left _ _)
  refine ⟨sources, heq, hsources.congr ?_⟩
  intro t q
  rw [hall, mem_targets]

/-- A look at the sources noted at a state. -/
def lookBack? (sources : Array (List Nat)) (q : Nat) : Option (Array (List Nat) × List Nat) :=
  sources[q]?.map fun found => (sources, found)

def noted (n : Nat) (sources : Array (List Nat)) : Graph := ⟨n, fun t => sources[t]?.getD []⟩

theorem mem_noted {n : Nat} (h : Table.Lists n sources R) (ht : t < n) :
    q ∈ (noted n sources).next t ↔ R t q := by
  obtain ⟨found, hfound, hmem⟩ := h.getElem? ht
  simp only [noted, hfound, Option.getD_some, hmem]

theorem exists_search_back {n : Nat} {roots : NatSet} (h : Table.Lists n sources R) (hroots : ∀ r ∈ roots, r < n)
    (hR : ∀ t q, R t q → q < n) :
    ∃ last, Frontier.search lookBack? n sources ⟨NatSet.ofList roots.toList, roots.toList⟩ =
      some (last, (noted n sources).reach roots.toList) := by
  have hrange : ∀ t, ∀ q ∈ (noted n sources).next t, q < n := by
    intro t q hq
    by_cases ht : t < n
    · exact hR t q ((mem_noted h ht).mp hq)
    · simp [noted, h.size_eq, ht] at hq
  have hlook : ∀ (_ : List Nat) tables q, tables = sources → q < n → ∃ next found,
      lookBack? tables q = some (next, found) ∧ next = sources ∧
        ∀ t, t ∈ found ↔ t ∈ (noted n sources).next q := by
    intro _ tables q htables hq
    obtain ⟨found, hfound, _⟩ := h.getElem? hq
    refine ⟨sources, found, ?_, rfl, ?_⟩
    · rw [htables, lookBack?, hfound, Option.map_some]
    · simp [noted, hfound]
  have hnodup : roots.toList.Nodup := roots.ascending.imp Nat.ne_of_lt
  obtain ⟨last, _, heq, _⟩ := Frontier.exists_search (fun t _ => hrange t) hlook
    (Frontier.explores_roots hnodup hroots) rfl (Nat.le_add_left _ _)
  exact ⟨last, heq⟩

/-- Back along noted edges one comes from the accepting states to those on the way to them. -/
theorem noted_reaches (h : Table.Lists d.size sources fun t q => q ∈ d.graph.reach [0] ∧ t ∈ d.graph.next q)
    (ht : t ∈ d.graph.reach [0]) :
    (noted d.size sources).Reaches t q ↔ q ∈ d.graph.reach [0] ∧ d.graph.Reaches q t := by
  constructor
  · intro hq
    induction hq with
    | refl hlt => exact ⟨ht, .refl hlt⟩
    | tail hp hr _ ih =>
      obtain ⟨hreach, hnext⟩ := (mem_noted h hp.target_lt).mp hr
      exact ⟨hreach, .head (Graph.lt_of_mem_reach hreach) hnext ih.2⟩
  · intro hpath
    obtain ⟨hq, hqt⟩ := hpath
    induction hqt with
    | refl hlt => exact .refl hlt
    | tail hp hr hlt ih =>
      have hreach := Graph.mem_reach_of_reaches hq hp
      exact .head hlt ((mem_noted h hlt).mpr ⟨hreach, hr⟩) (ih hreach)

/-- The start, and the states that the search back from the accepting states sees. -/
def findLive? (d : Dfa) : Option NatSet :=
  (Frontier.search d.lookAhead? d.size (Array.replicate d.size []) ⟨NatSet.ofList [0], [0]⟩).bind fun x =>
    let roots := x.2.filter d.accepts
    (Frontier.search lookBack? d.size x.1 ⟨NatSet.ofList roots.toList, roots.toList⟩).map fun y => y.2.insert 0

/-- The searches find a place for each state that they look at, and they find the live states. -/
theorem findLive?_eq (hd : d.InRange) : d.findLive? = some d.live := by
  obtain ⟨sources, hahead, hsources⟩ := exists_search_ahead hd
  have hroots : ∀ r ∈ (d.graph.reach [0]).filter d.accepts, r < d.size := by
    intro r hr
    exact Graph.lt_of_mem_reach (NatSet.mem_filter.mp hr).1
  obtain ⟨last, hback⟩ := exists_search_back hsources hroots fun t q hqt => Graph.lt_of_mem_reach hqt.1
  simp only [findLive?, hahead, hback, Option.bind_some, Option.map_some, Option.some.injEq]
  apply NatSet.ext_mem
  intro q
  simp only [live, NatSet.mem_insert, NatSet.mem_filter, decide_eq_true_eq]
  apply or_congr Iff.rfl
  have hproductive : q ∈ d.graph.reverse.reach d.accepting.toList ↔
      ∃ r, d.accepts r = true ∧ d.graph.Reaches q r := by
    simp only [Graph.mem_reach, Graph.reverse_reaches, ← NatSet.mem_def, mem_accepting]
  have hfound : q ∈ (noted d.size sources).reach ((d.graph.reach [0]).filter d.accepts).toList ↔
      ∃ r, (r ∈ d.graph.reach [0] ∧ d.accepts r = true) ∧ (noted d.size sources).Reaches r q := by
    rw [Graph.mem_reach]
    simp only [← NatSet.mem_def, NatSet.mem_filter]
  rw [hfound, hproductive]
  constructor
  · intro h
    obtain ⟨r, ⟨hr, haccepts⟩, hrq⟩ := h
    obtain ⟨hq, hqr⟩ := (noted_reaches hsources hr).mp hrq
    exact ⟨hq, r, haccepts, hqr⟩
  · intro h
    obtain ⟨hq, r, haccepts, hqr⟩ := h
    have hr := Graph.mem_reach_of_reaches hq hqr
    exact ⟨r, ⟨hr, haccepts⟩, (noted_reaches hsources hr).mpr ⟨hq, hqr⟩⟩

end PatternAutomata.Dfa
