import PatternAutomata.Dfa.Basic

/-!
# Automata whose states are sets

A `SetMachine` moves between sets of numbers below a bound. `SetMachine.discover` finds the sets
that can be reached from the start, first the near ones and those near each other in order of the
symbols that lead to them. In that order they become the states of an automaton
(`SetMachine.toDfa`). The search ends because there are finitely many sets below the bound and none
is entered twice.
-/

namespace PatternAutomata

set_option autoImplicit false

/-- The ascending lists of numbers below `n`. -/
def subsetLists : Nat → List (List Nat)
  | 0 => [[]]
  | n + 1 => subsetLists n ++ (subsetLists n).map (· ++ [n])

theorem mem_subsetLists {n : Nat} {xs : List Nat} (hx : xs.Pairwise (· < ·)) (hlt : ∀ q ∈ xs, q < n) :
    xs ∈ subsetLists n := by
  induction n generalizing xs with
  | zero => simp [subsetLists, List.eq_nil_iff_forall_not_mem.mpr fun q hq => Nat.not_lt_zero q (hlt q hq)]
  | succ n ih =>
    rw [subsetLists, List.mem_append]
    by_cases hn : n ∈ xs
    · obtain ⟨ys, z, rfl⟩ := (List.eq_nil_or_concat xs).resolve_left (List.ne_nil_of_mem hn)
      rw [List.concat_eq_append] at hx hn hlt ⊢
      obtain ⟨hy, _, hyz⟩ := List.pairwise_append.mp hx
      have hyz' : ∀ y ∈ ys, y < z := fun y hm => hyz y hm z (List.mem_singleton.mpr rfl)
      have hz := hlt z (by simp)
      have hzn : z = n := by
        rcases List.mem_append.mp hn with hm | hm
        · have := hyz' n hm
          omega
        · exact (List.mem_singleton.mp hm).symm
      subst hzn
      exact Or.inr (List.mem_map.mpr ⟨ys, ih hy hyz', rfl⟩)
    · refine Or.inl (ih hx fun q hq => ?_)
      have := hlt q hq
      have : q ≠ n := fun he => hn (he ▸ hq)
      omega

theorem nodup_eraseDups {α : Type} [BEq α] [LawfulBEq α] (xs : List α) : xs.eraseDups.Nodup := by
  generalize hn : xs.length = n
  induction n using Nat.strongRecOn generalizing xs with
  | ind n ih =>
    cases xs with
    | nil => simp
    | cons x xs =>
      rw [List.eraseDups_cons, List.nodup_cons]
      refine ⟨fun h => by simp [List.mem_eraseDups] at h, ih _ ?_ _ rfl⟩
      have := List.length_filter_le (fun b => !b == x) xs
      simp only [List.length_cons] at hn
      omega

/-- A machine on sets of numbers, with the symbols it knows. -/
structure SetMachine extends Machine NatSet where
  alphabet : List Char
  bound : Nat
  next_lt : ∀ {s t : NatSet} {c : Char}, next s c = some t → ∀ q, q ∈ t → q < bound

namespace SetMachine

/-- The next states of `s` that are not among the keys, each of them once. -/
def fresh (m : SetMachine) (keys : List NatSet) (s : NatSet) : List NatSet :=
  ((m.alphabet.filterMap (m.next s)).eraseDups).filter fun t => decide (t ∉ keys)

theorem mem_fresh {m : SetMachine} {keys : List NatSet} {s t : NatSet} :
    t ∈ m.fresh keys s ↔ (∃ c ∈ m.alphabet, m.next s c = some t) ∧ t ∉ keys := by
  simp only [fresh, List.mem_filter, List.mem_eraseDups, List.mem_filterMap, decide_eq_true_eq]

theorem nodup_fresh (m : SetMachine) (keys : List NatSet) (s : NatSet) : (m.fresh keys s).Nodup :=
  (nodup_eraseDups _).filter _

def unseen (m : SetMachine) (keys : List NatSet) : List (List Nat) :=
  (subsetLists m.bound).filter fun xs => decide (xs ∉ keys.map NatSet.toList)

theorem length_unseen_append (m : SetMachine) (keys : List NatSet) (s : NatSet) :
    (m.unseen (keys ++ m.fresh keys s)).length + (m.fresh keys s).length ≤ (m.unseen keys).length := by
  have hsplit : m.unseen (keys ++ m.fresh keys s) =
      (m.unseen keys).filter fun xs => !decide (xs ∈ (m.fresh keys s).map NatSet.toList) := by
    simp only [unseen, List.filter_filter]
    apply List.filter_congr
    intro xs _
    by_cases h : xs ∈ keys.map NatSet.toList <;>
      by_cases h' : xs ∈ (m.fresh keys s).map NatSet.toList <;> simp [h, h', List.map_append]
  have hinj : ((m.fresh keys s).map NatSet.toList).Nodup :=
    List.Pairwise.map _ (fun a b hab he => hab (NatSet.ext_toList he)) (m.nodup_fresh keys s)
  have hsub : (m.fresh keys s).map NatSet.toList ⊆
      (m.unseen keys).filter fun xs => decide (xs ∈ (m.fresh keys s).map NatSet.toList) := by
    intro xs hxs
    obtain ⟨t, ht, rfl⟩ := List.mem_map.mp hxs
    obtain ⟨⟨c, _, hc⟩, hk⟩ := mem_fresh.mp ht
    have hnew : t.toList ∉ keys.map NatSet.toList := fun hm => by
      obtain ⟨u, hu, he⟩ := List.mem_map.mp hm
      exact hk (NatSet.ext_toList he ▸ hu)
    have hmem : t.toList ∈ m.unseen keys :=
      List.mem_filter.mpr ⟨mem_subsetLists t.ascending (m.next_lt hc), decide_eq_true hnew⟩
    exact List.mem_filter.mpr ⟨hmem, decide_eq_true hxs⟩
  have hle := hinj.length_le_of_subset hsub
  have hcount := List.length_eq_countP_add_countP
    (fun xs => decide (xs ∈ (m.fresh keys s).map NatSet.toList)) (l := m.unseen keys)
  simp only [List.countP_eq_length_filter, decide_eq_true_eq, decide_not] at hcount
  rw [List.length_map] at hle
  rw [hsplit]
  omega

/-- The keys, and behind them the sets that can be reached from those in the queue. -/
def discover (m : SetMachine) (keys queue : List NatSet) : List NatSet :=
  match queue with
  | [] => keys
  | s :: rest => discover m (keys ++ m.fresh keys s) (rest ++ m.fresh keys s)
termination_by (m.unseen keys).length + queue.length
decreasing_by
  have := m.length_unseen_append keys s
  simp only [List.length_append, List.length_cons]
  omega

/-- The sets that can be reached from the start, in order of discovery. -/
def keys (m : SetMachine) : List NatSet := m.discover [m.start] [m.start]

/-- The automaton whose states are the sets that can be reached from the start. -/
def toDfa (m : SetMachine) (kind : KeyKind) : Dfa :=
  let keys := m.keys
  { kind
    states := (keys.map fun s =>
      { key := s
        accept := m.accepts s
        row := .tabulate m.alphabet fun c => (m.next s c).bind fun t => keys.idxOf? t }).toArray }

end SetMachine
end PatternAutomata
