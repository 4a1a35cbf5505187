import Mathlib.Order.CompletePartialOrder
import PatternAutomata.Nfa.Fragment
import PatternAutomata.Proofs.Nfa.Paths

/-!
# Paths through composed automata

The edges of a composition are those of its operands, moved up, and the empty moves that join them.
A path that enters an operand can leave it only behind a path to the operand's accepting state, so
the paths of a composition are put together from paths of the operands. No operand has to be made by
composition itself: edges may enter the start and leave the accepting state.
-/

namespace PatternAutomata.Nfa

set_option autoImplicit false

open scoped Computability

variable {a b n : Nfa} {p q r s t x : Nat} {l : Option Char} {w : List Char}

theorem mem_targets_addEdge {label : Option Char} :
    t ∈ (n.addEdge s label x).targets p l ↔
      t ∈ n.targets p l ∨ (p = s ∧ s < n.size ∧ l = label ∧ t = x) := by
  simp only [mem_targets, mem_edges_addEdge, Prod.mk.injEq]

theorem mem_targets_append {xs ys : Array (List (Option Char × Nat))} {i j k : Nat} :
    t ∈ (Nfa.mk (xs ++ ys) i).targets p l ↔
      t ∈ (Nfa.mk xs j).targets p l ∨ ∃ m, p = m + xs.size ∧ t ∈ (Nfa.mk ys k).targets m l := by
  simp only [mem_targets, edges, Array.getElem?_append]
  split
  · rename_i hlt
    constructor
    · exact Or.inl
    · intro h
      rcases h with h | ⟨m, rfl, _⟩
      · exact h
      · omega
  · rename_i hle
    have hnone : xs[p]? = none := Array.getElem?_eq_none_iff.mpr (by omega)
    simp only [hnone, Option.getD_none, List.not_mem_nil, false_or]
    constructor
    · intro h
      exact ⟨p - xs.size, by omega, h⟩
    · intro h
      obtain ⟨m, rfl, h⟩ := h
      simpa using h

theorem mem_targets_displace {ys : Array (List (Option Char × Nat))} {move : Nat → Nat} {i j : Nat} :
    t ∈ (Nfa.mk (ys.map (displace move)) i).targets p l ↔ ∃ u, t = move u ∧ u ∈ (Nfa.mk ys j).targets p l := by
  simp only [mem_targets, edges, Array.getElem?_map]
  cases ys[p]? with
  | none => simp
  | some es =>
    simp only [Option.map_some, Option.getD_some, displace, List.mem_map, Prod.mk.injEq]
    constructor
    · intro h
      obtain ⟨⟨l', u⟩, he, rfl, rfl⟩ := h
      exact ⟨u, rfl, he⟩
    · intro h
      obtain ⟨u, rfl, he⟩ := h
      exact ⟨(l, u), he, rfl, rfl⟩

theorem mem_targets_append_displace {xs ys : Array (List (Option Char × Nat))} {move : Nat → Nat} {i j k : Nat} :
    t ∈ (Nfa.mk (xs ++ ys.map (displace move)) i).targets p l ↔
      t ∈ (Nfa.mk xs j).targets p l ∨
        ∃ u v, p = u + xs.size ∧ t = move v ∧ v ∈ (Nfa.mk ys k).targets u l := by
  simp only [mem_targets_append (j := j) (k := k), mem_targets_displace (j := k), exists_and_left]

theorem mem_targets_single {label : Option Char} :
    t ∈ (single label).targets p l ↔ p = 0 ∧ l = label ∧ t = 1 := by
  rw [mem_targets, edges]
  rcases p with _ | _ | p <;> simp [single]

section CompositionsBy

variable {up : Nat → Nat → Nat}

theorem mem_targets_concatBy (ha : a.accept < a.size) :
    t ∈ (concatBy up a b).targets p l ↔
      t ∈ a.targets p l ∨ (∃ i j, p = i + a.size ∧ t = up a.size j ∧ j ∈ b.targets i l) ∨
        (p = a.accept ∧ l = none ∧ t = a.size) := by
  have hsize : a.accept < Nfa.size ⟨a.states ++ b.states.map (displace (up a.size)), b.accept + a.size⟩ := by
    rw [size, Array.size_append]
    exact Nat.lt_add_right _ ha
  rw [concatBy, mem_targets_addEdge, mem_targets_append_displace (j := a.accept) (k := b.accept), or_assoc]
  apply or_congr Iff.rfl
  apply or_congr Iff.rfl
  simp [hsize]

theorem mem_targets_entry {move : Nat → Nat} :
    t ∈ (Nfa.mk (#[[], []] ++ a.states.map (displace move)) x).targets p l ↔
      ∃ i j, p = i + 2 ∧ t = move j ∧ j ∈ a.targets i l := by
  have hnone : t ∉ (Nfa.mk #[[], []] 0).targets p l := by
    rw [mem_targets, edges]
    rcases p with _ | _ | p <;> simp
  rw [mem_targets_append_displace (j := 0) (k := a.accept)]
  simp [hnone]

theorem mem_targets_starBy (ha : a.accept < a.size) :
    t ∈ (starBy up a).targets p l ↔
      (∃ i j, p = i + 2 ∧ t = up 2 j ∧ j ∈ a.targets i l) ∨
        ((p = 0 ∨ p = a.accept + 2) ∧ l = none ∧ (t = 2 ∨ t = 1)) := by
  have hsize : Nfa.size ⟨#[[], []] ++ a.states.map (displace (up 2)), 1⟩ = a.size + 2 := by
    simp [size]
    omega
  have haccept : a.accept + 2 < a.size + 2 := Nat.add_lt_add_right ha 2
  simp only [starBy, mem_targets_addEdge, size_addEdge, mem_targets_entry, hsize, haccept, Nat.zero_lt_succ,
    true_and]
  grind

theorem mem_targets_unionBy (ha : a.accept < a.size) (hb : b.accept < b.size) :
    t ∈ (unionBy up a b).targets p l ↔
      (∃ i j, p = i + 2 ∧ t = up 2 j ∧ j ∈ a.targets i l) ∨
        (∃ i j, p = i + (a.size + 2) ∧ t = up (a.size + 2) j ∧ j ∈ b.targets i l) ∨
        (p = 0 ∧ l = none ∧ (t = 2 ∨ t = a.size + 2)) ∨
        ((p = a.accept + 2 ∨ p = b.accept + (a.size + 2)) ∧ l = none ∧ t = 1) := by
  have hinner : t ∈ (Nfa.mk (#[[], []] ++ a.states.map (displace (up 2)) ++
      b.states.map (displace (up (a.size + 2)))) 1).targets p l ↔
        (∃ i j, p = i + 2 ∧ t = up 2 j ∧ j ∈ a.targets i l) ∨
        (∃ i j, p = i + (a.size + 2) ∧ t = up (a.size + 2) j ∧ j ∈ b.targets i l) := by
    have hadd : #[([] : List (Option Char × Nat)), []].size + a.states.size = a.size + 2 := Nat.add_comm _ _
    rw [mem_targets_append_displace (j := 1) (k := b.accept), mem_targets_entry, Array.size_append,
      Array.size_map, hadd]
  have hsize : Nfa.size ⟨#[[], []] ++ a.states.map (displace (up 2)) ++
      b.states.map (displace (up (a.size + 2))), 1⟩ = a.size + b.size + 2 := by
    simp [size]
    omega
  have ha' : a.accept + 2 < a.size + b.size + 2 := by omega
  have hb' : b.accept + a.size + 2 < a.size + b.size + 2 := by omega
  simp only [unionBy, mem_targets_addEdge, size_addEdge, hinner, hsize, ha', hb', Nat.zero_lt_succ, true_and]
  grind

end CompositionsBy

theorem mem_targets_concat (ha : a.accept < a.size) :
    t ∈ (a.concat b).targets p l ↔
      t ∈ a.targets p l ∨ (∃ i j, p = i + a.size ∧ t = j + a.size ∧ j ∈ b.targets i l) ∨
        (p = a.accept ∧ l = none ∧ t = a.size) :=
  mem_targets_concatBy ha

theorem mem_targets_star (ha : a.accept < a.size) :
    t ∈ a.star.targets p l ↔
      (∃ i j, p = i + 2 ∧ t = j + 2 ∧ j ∈ a.targets i l) ∨
        ((p = 0 ∨ p = a.accept + 2) ∧ l = none ∧ (t = 2 ∨ t = 1)) :=
  mem_targets_starBy ha

theorem mem_targets_union (ha : a.accept < a.size) (hb : b.accept < b.size) :
    t ∈ (a.union b).targets p l ↔
      (∃ i j, p = i + 2 ∧ t = j + 2 ∧ j ∈ a.targets i l) ∨
        (∃ i j, p = i + (a.size + 2) ∧ t = j + (a.size + 2) ∧ j ∈ b.targets i l) ∨
        (p = 0 ∧ l = none ∧ (t = 2 ∨ t = a.size + 2)) ∨
        ((p = a.accept + 2 ∨ p = b.accept + (a.size + 2)) ∧ l = none ∧ t = 1) :=
  mem_targets_unionBy ha hb

theorem up64_of_lt {k : Nat} (h : t + k < UInt64.size) : up64 k t = t + k := Nat.mod_eq_of_lt h

theorem WellFormed.displace_up64 (ha : a.WellFormed) {k : Nat} (hk : a.size + k ≤ UInt64.size) :
    a.states.map (displace (up64 k)) = a.states.map (displace fun t => t + k) := by
  apply Array.map_congr_left
  intro es hes
  apply List.map_congr_left
  intro e he
  obtain ⟨q, hq, rfl⟩ := Array.mem_iff_getElem.mp hes
  have hlt : e.2 < a.size := ha.targets_lt q e (by rwa [edges, Array.getElem?_eq_getElem hq])
  rw [up64_of_lt (by omega)]

/-- Where all targets are states, no sum leaves the 64 bits that number them. -/
theorem WellFormed.compositions64 (ha : a.WellFormed) (hb : b.WellFormed) (hsize : a.size + b.size + 2 ≤ UInt64.size) :
    a.concat64 b = a.concat b ∧ a.union64 b = a.union b ∧ a.star64 = a.star := by
  simp only [concat64, concat, concatBy, union64, union, unionBy, star64, star, starBy,
    ha.displace_up64 (k := 2) (by omega), hb.displace_up64 (k := a.size) (by omega),
    hb.displace_up64 (k := a.size + 2) (by omega), and_self]

theorem words_mul_words_le : n.words p q * n.words q r ≤ n.words p r := by
  intro w hw
  obtain ⟨u, hu, v, hv, rfl⟩ := Language.mem_mul.mp hw
  exact Path.append hu hv

theorem step_mem_words_mul {L : Language Char} (he : t ∈ n.targets p l) (h : w ∈ n.words t q * L) :
    l.toList ++ w ∈ n.words p q * L := by
  obtain ⟨u, hu, v, hv, rfl⟩ := Language.mem_mul.mp h
  rw [← List.append_assoc]
  exact Language.append_mem_mul (Path.step he hu) hv

/-- The edges of `a`, moved up by `k`, are those of `n` on the same states, but for empty moves from
the accepting state to the exits. -/
structure Region (n a : Nfa) (k : Nat) (exits : List Nat) : Prop where
  states : ∀ i, i < a.size → i + k < n.size
  edges : ∀ i, i < a.size → ∀ l t, t ∈ n.targets (i + k) l ↔
    (∃ j, t = j + k ∧ j ∈ a.targets i l) ∨ (i = a.accept ∧ l = none ∧ t ∈ exits)

namespace Region

variable {k : Nat} {exits : List Nat}

theorem embed (hr : Region n a k exits) : a.words p q ≤ n.words (p + k) (q + k) := by
  intro w h
  refine Path.edge_induction (motive := fun p w => n.Path (p + k) w (q + k)) ?_ ?_ h
  · intro hq
    exact .refl (hr.states q hq)
  · intro i j l w he _ ih
    exact .step ((hr.edges i (lt_of_mem_targets he) l _).mpr (Or.inl ⟨j, rfl, he⟩)) ih

theorem exit (hr : Region n a k exits) (ha : a.WellFormed) (ht : t ∈ exits) :
    n.words t r ≤ n.words (a.accept + k) r :=
  fun _ h => Path.step ((hr.edges a.accept ha.accept_lt none t).mpr (Or.inr ⟨rfl, rfl, ht⟩)) h

/-- A path from inside a region stays there or leaves by an exit. -/
theorem leave (hr : Region n a k exits) (ha : a.WellFormed) (hp : p < a.size) (h : w ∈ n.words (p + k) r) :
    (∃ q, r = q + k ∧ w ∈ a.words p q) ∨ ∃ t ∈ exits, w ∈ a.words p a.accept * n.words t r := by
  refine Path.edge_induction (motive := fun s w => ∀ p, p < a.size → s = p + k →
    (∃ q, r = q + k ∧ w ∈ a.words p q) ∨ ∃ t ∈ exits, w ∈ a.words p a.accept * n.words t r) ?_ ?_ h p hp rfl
  · intro _ p hp hs
    exact Or.inl ⟨p, hs, Path.refl hp⟩
  · intro s t l w he hpath ih p hp h
    obtain rfl := h
    rcases (hr.edges p hp l t).mp he with ⟨j, rfl, hj⟩ | ⟨rfl, rfl, ht⟩
    · rcases ih j (ha.target_lt hj) rfl with ⟨q, rfl, hw⟩ | ⟨t, ht, hw⟩
      · exact Or.inl ⟨q, rfl, Path.step hj hw⟩
      · exact Or.inr ⟨t, ht, step_mem_words_mul hj hw⟩
    · exact Or.inr ⟨t, ht, Language.append_mem_mul (a := []) (Path.refl hp) hpath⟩

/-- Without a way back, the words between two states of a region are those of the operand. -/
theorem words_inside (hr : Region n a k exits) (ha : a.WellFormed) (hp : p < a.size)
    (hback : ∀ t ∈ exits, n.words t (q + k) = 0) : n.words (p + k) (q + k) = a.words p q := by
  apply le_antisymm ?_ hr.embed
  intro w h
  rcases hr.leave ha hp h with ⟨i, hi, hw⟩ | ⟨t, ht, hw⟩
  · obtain rfl : q = i := by omega
    exact hw
  · rw [hback t ht, mul_zero] at hw
    exact absurd hw (Language.notMem_zero w)

theorem words_outside (hr : Region n a k [t]) (ha : a.WellFormed) (hp : p < a.size)
    (hout : ∀ i, i < a.size → r ≠ i + k) : n.words (p + k) r = a.words p a.accept * n.words t r := by
  apply le_antisymm
  · intro w h
    rcases hr.leave ha hp h with ⟨i, hi, hw⟩ | ⟨x, hx, hw⟩
    · exact absurd hi (hout i (Path.target_lt hw))
    · rwa [List.mem_singleton.mp hx] at hw
  · exact (mul_le_mul' hr.embed (hr.exit ha (List.mem_singleton.mpr rfl))).trans words_mul_words_le

theorem words_closed (hr : Region n a k []) (ha : a.WellFormed) (hp : p < a.size)
    (hout : ∀ i, i < a.size → r ≠ i + k) : n.words (p + k) r = 0 := by
  apply le_antisymm ?_ zero_le
  intro w h
  rcases hr.leave ha hp h with ⟨i, hi, hw⟩ | ⟨x, hx, _⟩
  · exact absurd hi (hout i (Path.target_lt hw))
  · cases hx

end Region

/-- The words from a state whose only edges are empty moves to the entries. -/
theorem mem_words_of_entries {entries : List Nat} (hp : p ≠ r)
    (hedges : ∀ l t, t ∈ n.targets p l ↔ l = none ∧ t ∈ entries) :
    w ∈ n.words p r ↔ ∃ t ∈ entries, w ∈ n.words t r := by
  constructor
  · intro h
    cases (h : n.Path p w r) with
    | refl _ => exact absurd rfl hp
    | empty he _ h => exact ⟨_, ((hedges _ _).mp he).2, h⟩
    | symbol he _ _ => exact absurd ((hedges _ _).mp he).1 (Option.some_ne_none _)
  · intro h
    obtain ⟨t, ht, h⟩ := h
    exact Path.step ((hedges none t).mpr ⟨rfl, ht⟩) h

theorem words_of_no_targets (hp : p < n.size) (hedges : ∀ l t, t ∉ n.targets p l) :
    n.words p r = if p = r then 1 else 0 := by
  apply Language.ext
  intro w
  constructor
  · intro h
    cases (h : n.Path p w r) with
    | refl _ => simp
    | empty he _ _ => exact absurd he (hedges _ _)
    | symbol he _ _ => exact absurd he (hedges _ _)
  · split
    · intro h
      obtain rfl := h
      subst_vars
      exact Path.refl hp
    · intro h
      exact absurd h (Language.notMem_zero w)

section Concat

variable (ha : a.WellFormed) (hb : b.WellFormed)
include ha

theorem region_concat_left : Region (a.concat b) a 0 [a.size] := by
  refine ⟨fun i hi => by rw [size_concat]; omega, ?_⟩
  intro i hi l t
  rw [Nat.add_zero, mem_targets_concat ha.accept_lt]
  simp only [Nat.add_zero, List.mem_singleton, exists_eq_left']
  constructor
  · intro h
    rcases h with h | ⟨j, _, rfl, _⟩ | h
    · exact Or.inl h
    · omega
    · exact Or.inr h
  · intro h
    rcases h with h | h
    · exact Or.inl h
    · exact Or.inr (Or.inr h)

theorem region_concat_right : Region (a.concat b) b a.size [] := by
  refine ⟨fun i hi => by rw [size_concat]; omega, ?_⟩
  intro i hi l t
  rw [mem_targets_concat ha.accept_lt]
  simp only [List.not_mem_nil, and_false, or_false]
  constructor
  · intro h
    rcases h with h | ⟨j, m, hj, rfl, h⟩ | ⟨h, _⟩
    · have := lt_of_mem_targets h
      omega
    · obtain rfl : i = j := by omega
      exact ⟨m, rfl, h⟩
    · have := ha.accept_lt
      omega
  · intro h
    obtain ⟨m, rfl, h⟩ := h
    exact Or.inr (Or.inl ⟨i, m, rfl, rfl, h⟩)

include hb

theorem words_concat_left (hp : p < a.size) (hq : q < a.size) : (a.concat b).words p q = a.words p q := by
  apply (region_concat_left ha).words_inside ha hp
  intro t ht
  obtain rfl := List.mem_singleton.mp ht
  simpa using (region_concat_right (b := b) ha).words_closed hb (p := 0) (r := q) hb.start_lt (by omega)

theorem words_concat_right (hp : p < b.size) :
    (a.concat b).words (p + a.size) (q + a.size) = b.words p q :=
  (region_concat_right ha).words_inside hb hp (fun _ ht => absurd ht List.not_mem_nil)

theorem words_concat_across (hp : p < a.size) :
    (a.concat b).words p (q + a.size) = a.words p a.accept * b.words 0 q := by
  have h := (region_concat_left (b := b) ha).words_outside ha hp (r := q + a.size) (by omega)
  have h0 := words_concat_right (q := q) ha hb hb.start_lt
  rw [Nat.zero_add] at h0
  rwa [h0] at h

theorem words_concat_back (hp : p < b.size) (hq : q < a.size) : (a.concat b).words (p + a.size) q = 0 :=
  (region_concat_right ha).words_closed hb hp (by omega)

theorem language_concat : (a.concat b).language = a.language * b.language :=
  words_concat_across ha hb ha.start_lt

end Concat

section Union

variable (ha : a.WellFormed) (hb : b.WellFormed)
include ha hb

theorem region_union_left : Region (a.union b) a 2 [1] := by
  refine ⟨fun i hi => by rw [size_union]; omega, ?_⟩
  intro i hi l t
  rw [mem_targets_union ha.accept_lt hb.accept_lt, List.mem_singleton]
  constructor
  · intro h
    rcases h with ⟨j, m, hj, rfl, h⟩ | ⟨j, _, hj, _⟩ | ⟨h, _⟩ | ⟨h | h, hl, ht⟩
    · obtain rfl : i = j := by omega
      exact Or.inl ⟨m, rfl, h⟩
    · omega
    · omega
    · exact Or.inr ⟨by omega, hl, ht⟩
    · omega
  · intro h
    rcases h with ⟨m, rfl, h⟩ | ⟨rfl, hl, ht⟩
    · exact Or.inl ⟨i, m, rfl, rfl, h⟩
    · exact Or.inr (Or.inr (Or.inr ⟨Or.inl rfl, hl, ht⟩))

theorem region_union_right : Region (a.union b) b (a.size + 2) [1] := by
  refine ⟨fun i hi => by rw [size_union]; omega, ?_⟩
  intro i hi l t
  rw [mem_targets_union ha.accept_lt hb.accept_lt, List.mem_singleton]
  have haccept := ha.accept_lt
  constructor
  · intro h
    rcases h with ⟨j, _, hj, _, h⟩ | ⟨j, m, hj, rfl, h⟩ | ⟨h, _⟩ | ⟨h | h, hl, ht⟩
    · have := lt_of_mem_targets h
      omega
    · obtain rfl : i = j := by omega
      exact Or.inl ⟨m, rfl, h⟩
    · omega
    · omega
    · exact Or.inr ⟨by omega, hl, ht⟩
  · intro h
    rcases h with ⟨m, rfl, h⟩ | ⟨rfl, hl, ht⟩
    · exact Or.inr (Or.inl ⟨i, m, rfl, rfl, h⟩)
    · exact Or.inr (Or.inr (Or.inr ⟨Or.inr rfl, hl, ht⟩))

theorem mem_words_union_start (hr : r ≠ 0) :
    w ∈ (a.union b).words 0 r ↔ w ∈ (a.union b).words 2 r ∨ w ∈ (a.union b).words (a.size + 2) r := by
  have hedges : ∀ l t, t ∈ (a.union b).targets 0 l ↔ l = none ∧ t ∈ [2, a.size + 2] := by
    intro l t
    rw [mem_targets_union ha.accept_lt hb.accept_lt]
    simp
  rw [mem_words_of_entries hr.symm hedges]
  simp

theorem words_union_sink : (a.union b).words 1 r = if 1 = r then 1 else 0 := by
  apply words_of_no_targets (by rw [size_union]; omega)
  intro l t
  rw [mem_targets_union ha.accept_lt hb.accept_lt]
  omega

theorem words_union_left (hp : p < a.size) : (a.union b).words (p + 2) (q + 2) = a.words p q := by
  apply (region_union_left ha hb).words_inside ha hp
  intro t ht
  rw [List.mem_singleton.mp ht, words_union_sink ha hb, if_neg (by omega)]

theorem words_union_right (hp : p < b.size) :
    (a.union b).words (p + (a.size + 2)) (q + (a.size + 2)) = b.words p q := by
  apply (region_union_right ha hb).words_inside hb hp
  intro t ht
  rw [List.mem_singleton.mp ht, words_union_sink ha hb, if_neg (by omega)]

theorem words_union_left_right (hp : p < a.size) : (a.union b).words (p + 2) (q + (a.size + 2)) = 0 := by
  rw [(region_union_left ha hb).words_outside ha hp (by omega), words_union_sink ha hb,
    if_neg (by omega), mul_zero]

theorem words_union_right_left (hp : p < b.size) (hq : q < a.size) :
    (a.union b).words (p + (a.size + 2)) (q + 2) = 0 := by
  rw [(region_union_right ha hb).words_outside hb hp (by omega), words_union_sink ha hb,
    if_neg (by omega), mul_zero]

theorem words_union_left_accept (hp : p < a.size) : (a.union b).words (p + 2) 1 = a.words p a.accept := by
  rw [(region_union_left ha hb).words_outside ha hp (by omega), words_union_sink ha hb, if_pos rfl, mul_one]

theorem words_union_right_accept (hp : p < b.size) :
    (a.union b).words (p + (a.size + 2)) 1 = b.words p b.accept := by
  rw [(region_union_right ha hb).words_outside hb hp (by omega), words_union_sink ha hb, if_pos rfl, mul_one]

theorem words_union_start_left (hq : q < a.size) : (a.union b).words 0 (q + 2) = a.words 0 q := by
  have hleft := words_union_left (q := q) ha hb ha.start_lt
  have hright := words_union_right_left ha hb hb.start_lt hq
  rw [Nat.zero_add] at hleft hright
  apply Language.ext
  intro w
  rw [mem_words_union_start ha hb (by omega), hleft, hright]
  simp

theorem words_union_start_right : (a.union b).words 0 (q + (a.size + 2)) = b.words 0 q := by
  have hleft := words_union_left_right (q := q) ha hb ha.start_lt
  have hright := words_union_right (q := q) ha hb hb.start_lt
  rw [Nat.zero_add] at hleft hright
  apply Language.ext
  intro w
  rw [mem_words_union_start ha hb (by omega), hleft, hright]
  simp

theorem language_union : (a.union b).language = a.language + b.language := by
  have hleft := words_union_left_accept ha hb ha.start_lt
  have hright := words_union_right_accept ha hb hb.start_lt
  rw [Nat.zero_add] at hleft hright
  apply Language.ext
  intro w
  have haccept : (a.union b).language = (a.union b).words 0 1 := rfl
  rw [haccept, mem_words_union_start ha hb (by omega), hleft, hright]
  rfl

end Union

section Star

variable (ha : a.WellFormed)
include ha

theorem region_star : Region a.star a 2 [2, 1] := by
  refine ⟨fun i hi => by rw [size_star]; omega, ?_⟩
  intro i hi l t
  rw [mem_targets_star ha.accept_lt]
  simp only [List.mem_cons, List.not_mem_nil, or_false]
  constructor
  · intro h
    rcases h with ⟨j, m, hj, rfl, h⟩ | ⟨h | h, hl, ht⟩
    · obtain rfl : i = j := by omega
      exact Or.inl ⟨m, rfl, h⟩
    · omega
    · exact Or.inr ⟨by omega, hl, ht⟩
  · intro h
    rcases h with ⟨m, rfl, h⟩ | ⟨rfl, hl, ht⟩
    · exact Or.inl ⟨i, m, rfl, rfl, h⟩
    · exact Or.inr ⟨Or.inr rfl, hl, ht⟩

theorem mem_words_star_start (hr : r ≠ 0) :
    w ∈ a.star.words 0 r ↔ w ∈ a.star.words 2 r ∨ w ∈ a.star.words 1 r := by
  have hedges : ∀ l t, t ∈ a.star.targets 0 l ↔ l = none ∧ t ∈ [2, 1] := by
    intro l t
    rw [mem_targets_star ha.accept_lt]
    simp
  rw [mem_words_of_entries hr.symm hedges]
  simp

theorem words_star_sink : a.star.words 1 r = if 1 = r then 1 else 0 := by
  apply words_of_no_targets (by rw [size_star]; omega)
  intro l t
  rw [mem_targets_star ha.accept_lt]
  omega

/-- The operand's words to the state that `r` stands for in its star. -/
def wordsInside (a : Nfa) (p r : Nat) : Language Char := if r < 2 then 0 else a.words p (r - 2)

omit ha in
theorem wordsInside_add (a : Nfa) (p q : Nat) : a.wordsInside p (q + 2) = a.words p q := by
  simp [wordsInside]

omit ha in
theorem wordsInside_one (a : Nfa) (p : Nat) : a.wordsInside p 1 = 0 := rfl

omit ha in
theorem step_mem_wordsInside (he : t ∈ a.targets p l) (h : w ∈ a.wordsInside t r) :
    l.toList ++ w ∈ a.wordsInside p r := by
  by_cases hr : r < 2
  · rw [wordsInside, if_pos hr] at h
    exact absurd h (Language.notMem_zero w)
  · rw [wordsInside, if_neg hr] at h ⊢
    exact Path.step he h

/-- What can follow the accepting state of the operand: more of its words, then a last part inside or
the way out. -/
def wordsAfter (a : Nfa) (r : Nat) : Language Char :=
  a.language∗ * (a.wordsInside 0 r + a.star.words 1 r)

omit ha in
theorem le_wordsAfter (a : Nfa) (r : Nat) : a.wordsInside 0 r + a.star.words 1 r ≤ a.wordsAfter r :=
  le_mul_of_one_le_left' one_le_kstar

omit ha in
theorem language_mul_wordsAfter_le (a : Nfa) (r : Nat) : a.language * a.wordsAfter r ≤ a.wordsAfter r := by
  rw [wordsAfter, ← mul_assoc]
  exact mul_le_mul' mul_kstar_le_kstar le_rfl

theorem wordsInside_le : a.wordsInside p r ≤ a.star.words (p + 2) r := by
  rw [wordsInside]
  split
  · exact zero_le
  · obtain ⟨q, rfl⟩ : ∃ q, r = q + 2 := ⟨r - 2, by omega⟩
    exact (region_star ha).embed

theorem wordsAfter_le : a.wordsAfter r ≤ a.star.words (a.accept + 2) r := by
  have hloop : a.star.words 2 r ≤ a.star.words (a.accept + 2) r := (region_star ha).exit ha (by simp)
  have hout : a.star.words 1 r ≤ a.star.words (a.accept + 2) r := (region_star ha).exit ha (by simp)
  have hpass : a.language ≤ a.star.words 2 (a.accept + 2) := (region_star ha).embed (p := 0)
  apply kstar_mul_le
  · exact sup_le ((wordsInside_le (p := 0) ha).trans hloop) hout
  · exact (mul_le_mul' hpass le_rfl).trans (words_mul_words_le.trans hloop)

theorem words_star (hp : p < a.size) :
    a.star.words (p + 2) r = a.wordsInside p r + a.words p a.accept * a.wordsAfter r := by
  apply le_antisymm
  · intro w h
    -- by the edges of the path: from the accepting state it goes on as from the start, or out
    refine Path.edge_induction (motive := fun s w => ∀ p, p < a.size → s = p + 2 →
      w ∈ a.wordsInside p r + a.words p a.accept * a.wordsAfter r) ?_ ?_ h p hp rfl
    · intro _ p hp h
      obtain rfl := h
      rw [wordsInside_add]
      exact Or.inl (Path.refl hp)
    · intro s t l w he hpath ih p hp h
      obtain rfl := h
      rcases ((region_star ha).edges p hp l t).mp he with ⟨j, rfl, hj⟩ | ⟨rfl, rfl, ht⟩
      · rcases ih j (ha.target_lt hj) rfl with hw | hw
        · exact Or.inl (step_mem_wordsInside hj hw)
        · exact Or.inr (step_mem_words_mul hj hw)
      · have hafter : w ∈ a.wordsAfter r := by
          rcases List.mem_cons.mp ht with rfl | ht
          · rcases ih 0 ha.start_lt rfl with hw | hw
            · exact le_wordsAfter a r (Or.inl hw)
            · exact language_mul_wordsAfter_le a r hw
          · rw [List.mem_singleton.mp ht] at hpath
            exact le_wordsAfter a r (Or.inr hpath)
        exact Or.inr (Language.append_mem_mul (a := []) (Path.refl hp) hafter)
  · apply sup_le (wordsInside_le ha)
    exact (mul_le_mul' (region_star ha).embed (wordsAfter_le ha)).trans words_mul_words_le

theorem words_star_start (hr : r ≠ 0) : a.star.words 0 r = a.wordsAfter r := by
  have hinner := words_star (r := r) ha ha.start_lt
  rw [Nat.zero_add] at hinner
  apply Language.ext
  intro w
  rw [mem_words_star_start ha hr, hinner]
  constructor
  · intro h
    rcases h with (h | h) | h
    · exact le_wordsAfter a r (Or.inl h)
    · exact language_mul_wordsAfter_le a r h
    · exact le_wordsAfter a r (Or.inr h)
  · intro h
    have hunfold : a.wordsAfter r =
        (a.wordsInside 0 r + a.star.words 1 r) + a.language * a.wordsAfter r := by
      conv_lhs => rw [wordsAfter, ← Language.one_add_self_mul_kstar_eq_kstar, add_mul, one_mul, mul_assoc]
      rfl
    rw [hunfold] at h
    rcases h with (h | h) | h
    · exact Or.inl (Or.inl h)
    · exact Or.inr h
    · exact Or.inl (Or.inr h)

theorem wordsAfter_inside : a.wordsAfter (q + 2) = a.language∗ * a.words 0 q := by
  rw [wordsAfter, wordsInside_add, words_star_sink ha, if_neg (by omega), add_zero]

theorem wordsAfter_accept : a.wordsAfter 1 = a.language∗ := by
  rw [wordsAfter, wordsInside_one, words_star_sink ha, if_pos rfl, zero_add, mul_one]

theorem language_star : a.star.language = a.language∗ :=
  (words_star_start ha (r := 1) (by omega)).trans (wordsAfter_accept ha)

end Star

theorem wellFormed_single (label : Option Char) : (single label).WellFormed := by
  refine ⟨Nat.one_lt_two, ?_⟩
  intro q e he
  obtain ⟨_, _, ht⟩ := mem_targets_single.mp (mem_targets.mpr (show (e.1, e.2) ∈ _ from he))
  rw [ht]
  exact Nat.one_lt_two

theorem WellFormed.of_targets (haccept : n.accept < n.size)
    (htargets : ∀ q l t, t ∈ n.targets q l → t < n.size) : n.WellFormed :=
  ⟨haccept, fun q e he => htargets q e.1 e.2 (mem_targets.mpr he)⟩

theorem WellFormed.addEdge (hn : n.WellFormed) (ht : t < n.size) : (n.addEdge s l t).WellFormed := by
  apply WellFormed.of_targets
  · rw [size_addEdge]
    exact hn.accept_lt
  · intro q l' t' h
    rw [size_addEdge]
    rcases mem_targets_addEdge.mp h with h | ⟨_, _, _, rfl⟩
    · exact hn.target_lt h
    · exact ht

theorem WellFormed.concat (ha : a.WellFormed) (hb : b.WellFormed) : (a.concat b).WellFormed := by
  apply WellFormed.of_targets
  · have haccept : (a.concat b).accept = b.accept + a.size := rfl
    have := hb.accept_lt
    rw [haccept, size_concat]
    omega
  · intro q l t ht
    rw [size_concat]
    rcases (mem_targets_concat ha.accept_lt).mp ht with h | ⟨_, _, _, rfl, h⟩ | ⟨_, _, rfl⟩
    · have := ha.target_lt h
      omega
    · have := hb.target_lt h
      omega
    · have := hb.accept_lt
      omega

theorem WellFormed.union (ha : a.WellFormed) (hb : b.WellFormed) : (a.union b).WellFormed := by
  have haccept : (a.union b).accept = 1 := rfl
  apply WellFormed.of_targets (by rw [haccept, size_union]; omega)
  intro q l t ht
  rw [size_union]
  rcases (mem_targets_union ha.accept_lt hb.accept_lt).mp ht with
    ⟨_, _, _, rfl, h⟩ | ⟨_, _, _, rfl, h⟩ | ⟨_, _, rfl | rfl⟩ | ⟨_, _, rfl⟩
  · have := ha.target_lt h
    omega
  · have := hb.target_lt h
    omega
  · have := ha.accept_lt
    omega
  · have := hb.accept_lt
    omega
  · omega

theorem WellFormed.star (ha : a.WellFormed) : a.star.WellFormed := by
  have haccept : a.star.accept = 1 := rfl
  apply WellFormed.of_targets (by rw [haccept, size_star]; omega)
  intro q l t ht
  have := ha.accept_lt
  rw [size_star]
  rcases (mem_targets_star ha.accept_lt).mp ht with ⟨_, _, _, rfl, h⟩ | ⟨_, _, rfl | rfl⟩
  · have := ha.target_lt h
    omega
  · omega
  · omega

/-- The compositions accept the products, the sums and the stars of the words of their operands, whatever
edges the operands have between their states, and they are well formed again. -/
theorem accepted_compositions (ha : a.WellFormed) (hb : b.WellFormed) :
    ((a.concat b).accepted = a.accepted * b.accepted ∧ (a.concat b).WellFormed) ∧
      ((a.union b).accepted = a.accepted + b.accepted ∧ (a.union b).WellFormed) ∧
        a.star.accepted = a.accepted∗ ∧ a.star.WellFormed := by
  simp only [accepted_eq_language]
  refine ⟨⟨?_, ha.concat hb⟩, ⟨?_, ha.union hb⟩, ?_, ha.star⟩
  · exact language_concat ha hb
  · exact language_union ha hb
  · exact language_star ha

/-- A letter, with edges out of its accepting state and into its start. -/
def echo : Nfa := ((literal 'a').addEdge 1 (some 'b') 0).addEdge 1 none 1

/-- An alternative whose accepting state leads back into both of its operands. -/
def detour : Nfa := (((literal 'c').union epsilon).addEdge 1 (some 'd') 2).addEdge 1 none 4

theorem accepted_compositions_echo_detour :
    (echo.WellFormed ∧ detour.WellFormed) ∧
      ((echo.concat detour).accepted = echo.accepted * detour.accepted ∧ (echo.concat detour).WellFormed) ∧
        ((echo.union detour).accepted = echo.accepted + detour.accepted ∧ (echo.union detour).WellFormed) ∧
          echo.star.accepted = echo.accepted∗ ∧ echo.star.WellFormed := by
  have hecho : echo.WellFormed := ((wellFormed_single _).addEdge (by simp)).addEdge (by simp)
  have hdetour : detour.WellFormed :=
    (((wellFormed_single _).union (wellFormed_single _)).addEdge (by simp)).addEdge (by simp)
  exact ⟨⟨hecho, hdetour⟩, accepted_compositions hecho hdetour⟩

end PatternAutomata.Nfa
