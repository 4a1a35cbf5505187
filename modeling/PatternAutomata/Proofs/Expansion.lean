import Mathlib.Data.Finset.Powerset
import Mathlib.Order.Interval.Finset.Nat
import PatternAutomata.Proofs.Dfa.Worklist
import PatternAutomata.Proofs.FiniteSets
import PatternAutomata.Proofs.Nfa.Closure
import PatternAutomata.Proofs.Regex.FollowTable
import PatternAutomata.Proofs.StateOrder

/-!
# Every state is expanded once

Determinization and the construction from the positions of a term put the sets that they enter into a worklist.
One tries all symbols of an automaton on a set, the other gathers for every symbol what can follow the positions
of a set. Neither leaves a finite universe, the states of the one and the positions of the other, and neither
enters an empty set. So the rounds end before there are more of them than non-empty subsets.
-/

namespace PatternAutomata

set_option autoImplicit false

theorem NatSet.members_inj {s t : NatSet} (h : s.members = t.members) : s = t := by
  apply ext_mem
  intro q
  rw [← mem_members, h, mem_members]

/-- There are no more different sets than non-empty subsets. -/
theorem NatSet.length_le_of_members {ks : List NatSet} (hnodup : ks.Nodup) {u : Finset Nat}
    (h : ∀ s ∈ ks, s ≠ ∅ ∧ ∀ q ∈ s, q ∈ u) : ks.length ≤ 2 ^ u.card - 1 := by
  have hsubset : (ks.map members).toFinset ⊆ u.powerset.erase ∅ := by
    intro v hv
    obtain ⟨s, hs, rfl⟩ := List.mem_map.mp (List.mem_toFinset.mp hv)
    obtain ⟨hne, hmem⟩ := h s hs
    rw [Finset.mem_erase, Finset.mem_powerset]
    refine ⟨fun hempty => hne (members_inj hempty), ?_⟩
    intro q hq
    exact hmem q (mem_members.mp hq)
  have hcard : (ks.map members).toFinset.card = ks.length := by
    rw [List.toFinset_card_of_nodup (hnodup.map fun _ _ => members_inj), List.length_map]
  calc ks.length = (ks.map members).toFinset.card := hcard.symm
    _ ≤ (u.powerset.erase ∅).card := Finset.card_le_card hsubset
    _ = 2 ^ u.card - 1 := by rw [Finset.card_erase_of_mem (Finset.empty_mem_powerset u), Finset.card_powerset]

theorem SetMachine.keys_induction {m : SetMachine} (hm : m.Lawful) {P : NatSet → Prop} (hstart : P m.start)
    (hnext : ∀ s c t, m.next s c = some t → P t) : ∀ s ∈ m.keys, P s := by
  obtain ⟨others, h⟩ := explored_keys hm
  have hkeys := h.keys
  rw [List.append_nil] at hkeys
  intro s hs
  rw [hkeys] at hs
  rcases List.mem_cons.mp hs with rfl | hs
  · exact hstart
  · obtain ⟨u, _, c, hu⟩ := h.entered s hs
    exact hnext u c s hu

theorem Worklist.exists_build_of_members {m : SetMachine} {moves : NatSet → List (Char × NatSet)}
    (hmoves : m.Moves moves) (kind : KeyKind) {u : Finset Nat} (h : ∀ s ∈ m.keys, s ≠ ∅ ∧ ∀ q ∈ s, q ∈ u) :
    ∃ x, build? kind m.accepts moves m.start (2 ^ u.card - 1) = some x ∧ x.dfa = m.toDfa kind ∧
      x.dfa.keys = m.keys ∧ x.Complete ∧ x.dfa.size ≤ 2 ^ u.card - 1 := by
  have hlength := NatSet.length_le_of_members (SetMachine.nodup_keys hmoves.toLawful) h
  obtain ⟨x, hx, hdfa, hkeys, hcomplete⟩ := exists_build hmoves kind hlength
  refine ⟨x, hx, hdfa, hkeys, hcomplete, ?_⟩
  rw [← Dfa.length_keys, hkeys]
  exact hlength

namespace Nfa

variable {n : Nfa}

/-- Determinization with a worklist: all symbols are tried on a set. -/
def expand? (n : Nfa) (fuel : Nat) : Option Worklist :=
  Worklist.build? .nfaStates (fun s => decide (n.accept ∈ s)) (fun s => n.alphabet.map fun c => (c, n.stackStep s c))
    (n.stackClosure [0]) fuel

theorem moves_setMachine (n : Nfa) :
    n.setMachine.Moves fun s => n.alphabet.map fun c => (c, n.stackStep s c) := by
  refine { n.lawful_setMachine with sorted := ?_, mem_iff := ?_ }
  · intro s
    exact List.pairwise_map.mpr (alphabetOf_ascending _)
  · intro s c t
    have hnext : n.setMachine.next s c = (n.stackStep s c).nonempty? := by
      rw [stackStep_eq]
      rfl
    rw [hnext, NatSet.nonempty?_eq_some, List.mem_map]
    constructor
    · intro h
      obtain ⟨⟨b, _, heq⟩, hne⟩ := h
      cases heq
      exact ⟨rfl, hne⟩
    · intro h
      obtain ⟨rfl, hne⟩ := h
      have hknown := n.lawful_setMachine.known (hnext.trans (NatSet.nonempty?_eq_some.mpr ⟨rfl, hne⟩))
      exact ⟨⟨c, hknown, rfl⟩, hne⟩

theorem keys_closed (hn : 0 < n.size) : ∀ s ∈ n.setMachine.keys, s ≠ ∅ ∧ n.ClosedSet s := by
  apply SetMachine.keys_induction n.lawful_setMachine (P := fun s => s ≠ ∅ ∧ n.ClosedSet s)
  · have hstart : 0 ∈ n.closure [0] := by
      rw [← stackClosure_eq]
      exact mem_stackClosure.mpr ⟨0, List.mem_cons_self, hn, .refl⟩
    exact ⟨fun hempty => NatSet.eq_empty_iff.mp hempty 0 hstart, closedSet_closure [0]⟩
  · intro s c t h
    obtain ⟨rfl, hne⟩ := NatSet.nonempty?_eq_some.mp h
    exact ⟨hne, closedSet_closure _⟩

theorem exists_expand (hn : 0 < n.size) :
    ∃ x, n.expand? (2 ^ n.size - 1) = some x ∧ x.dfa = n.toDfa ∧ x.Complete ∧
      (∀ s ∈ x.dfa.keys, s ≠ ∅ ∧ n.ClosedSet s) ∧ x.dfa.size ≤ 2 ^ n.size - 1 := by
  have hmembers : ∀ s ∈ n.setMachine.keys, s ≠ ∅ ∧ ∀ q ∈ s, q ∈ Finset.range n.size := by
    intro s hs
    obtain ⟨hne, hclosed⟩ := keys_closed hn s hs
    exact ⟨hne, fun q hq => Finset.mem_range.mpr (hclosed.lt_size q hq)⟩
  obtain ⟨x, hx, hdfa, hkeys, hcomplete, hsize⟩ :=
    Worklist.exists_build_of_members n.moves_setMachine .nfaStates hmembers
  rw [Finset.card_range] at hx hsize
  refine ⟨x, ?_, hdfa, hcomplete, hkeys ▸ keys_closed hn, hsize⟩
  rw [expand?, stackClosure_eq]
  exact hx

/-- From the last state a symbol leads only out of the states, and no set is entered for it. -/
example : ((Nfa.mk #[[(none, 1)], [(none, 0), (some 'a', 2)], [(some 'a', 9), (some 'b', 0)]] 2).expand? 7).map
    Worklist.taken = some [(.ofList [0, 1], 0), (.ofList [2], 1)] := by
  cbv

end Nfa

namespace Regex

variable {r : Regex Letter} {s t : NatSet} {c : Char} {p q : Nat}

theorem exists_mem_first {r : Regex Nat} (hp : p ∈ r.leaves) : ∃ q, q ∈ r.attributes.first := by
  induction r with
  | epsilon => cases hp
  | leaf a => exact ⟨a, NatSet.mem_singleton.mpr rfl⟩
  | star r ih => exact ih hp
  | concat l r ihl ihr =>
    rcases nullable_or_exists_first l with hnullable | ⟨q, hq⟩
    · rcases List.mem_append.mp hp with hp | hp
      · obtain ⟨q, hq⟩ := ihl hp
        exact ⟨q, mem_first_concat.mpr (Or.inl hq)⟩
      · obtain ⟨q, hq⟩ := ihr hp
        exact ⟨q, mem_first_concat.mpr (Or.inr ⟨hnullable, hq⟩)⟩
    · exact ⟨q, mem_first_concat.mpr (Or.inl hq)⟩
  | union l r ihl ihr =>
    rcases List.mem_append.mp hp with hp | hp
    · obtain ⟨q, hq⟩ := ihl hp
      exact ⟨q, mem_first_union.mpr (Or.inl hq)⟩
    · obtain ⟨q, hq⟩ := ihr hp
      exact ⟨q, mem_first_union.mpr (Or.inr hq)⟩

def gather (r : Regex Letter) (moves : Std.TreeMap Char NatSet) (p : Nat) : Std.TreeMap Char NatSet :=
  match r.leafAt? p, r.followers? p with
  | some (.char c), some next => moves.alter c fun found => some (found.getD ∅ ∪ next)
  | _, _ => moves

/-- For every character that positions of a set hold, what can follow these. -/
def movesAhead (r : Regex Letter) (s : NatSet) : Std.TreeMap Char NatSet := s.toList.foldl r.gather ∅

/-- The construction from the positions of a term with a worklist, which needs an end mark. -/
def expand? (r : Regex Letter) (fuel : Nat) : Option Worklist :=
  r.endPosition?.bind fun finish =>
    Worklist.build? .positions (fun s => decide (finish ∈ s)) (fun s => (r.movesAhead s).toList)
      r.linearize.attributes.first fuel

theorem mem_gather {moves : Std.TreeMap Char NatSet} :
    q ∈ (r.gather moves p)[c]?.getD ∅ ↔
      q ∈ moves[c]?.getD ∅ ∨ (r.leafAt? p = some (.char c) ∧ q ∈ r.linearize.follow p) := by
  rw [← mem_followers?_iff, gather]
  split
  · rename_i b next hleaf hnext
    rw [Std.TreeMap.getElem?_alter, hleaf, hnext]
    by_cases hbc : b = c
    · subst hbc
      simp
    · have hcompare : compare b c ≠ .eq := fun heq => hbc (Std.LawfulEqOrd.eq_of_compare heq)
      simp [hcompare, hbc]
  · rename_i hother
    refine (or_iff_left ?_).symm
    intro h
    obtain ⟨hleaf, next, hnext, _⟩ := h
    exact hother c next hleaf hnext

theorem mem_foldl_gather {moves : Std.TreeMap Char NatSet} {ps : List Nat} :
    q ∈ (ps.foldl r.gather moves)[c]?.getD ∅ ↔
      q ∈ moves[c]?.getD ∅ ∨ ∃ p ∈ ps, r.leafAt? p = some (.char c) ∧ q ∈ r.linearize.follow p := by
  induction ps generalizing moves with
  | nil => simp
  | cons p ps ih =>
    rw [List.foldl_cons, ih, mem_gather, or_assoc]
    simp only [List.mem_cons, exists_eq_or_imp]

/-- What is gathered for a character is where the machine of the positions goes. -/
theorem getD_movesAhead (r : Regex Letter) (s : NatSet) (c : Char) :
    (r.movesAhead s)[c]?.getD ∅ = advance r.slots s c := by
  apply NatSet.ext_mem
  intro q
  rw [movesAhead, mem_foldl_gather, mem_advance_slots]
  simp [NatSet.mem_def]

theorem moves_positionMachine (r : Regex Letter) (finish : Nat) :
    (r.positionMachine finish).Moves fun s => (r.movesAhead s).toList := by
  refine { lawful_positionMachine r finish with sorted := ?_, mem_iff := ?_ }
  · intro s
    apply (r.movesAhead s).ordered_keys_toList.imp
    intro a b hab
    have hlt : a.1 < b.1 := compareOfLessAndEq_eq_lt.mp hab
    exact hlt
  · intro s c t
    have hnext : (r.positionMachine finish).next s c = ((r.movesAhead s)[c]?.getD ∅).nonempty? := by
      rw [getD_movesAhead]
      rfl
    rw [hnext, NatSet.nonempty?_eq_some, Std.TreeMap.mem_toList_iff_getElem?_eq_some]
    cases (r.movesAhead s)[c]? with
    | none => simp
    | some u =>
      rw [Option.getD_some, Option.some.injEq]
      exact and_congr_right fun heq => by rw [heq]

theorem keys_positions (hend : .endMark ∈ r.leaves) (finish : Nat) :
    ∀ s ∈ (r.positionMachine finish).keys, s ≠ ∅ ∧ ∀ q ∈ s, 1 ≤ q ∧ q ≤ r.width := by
  apply SetMachine.keys_induction (lawful_positionMachine r finish)
    (P := fun s => s ≠ ∅ ∧ ∀ q ∈ s, 1 ≤ q ∧ q ≤ r.width)
  · obtain ⟨i, hi⟩ := List.mem_iff_getElem?.mp hend
    obtain ⟨q, hq⟩ := exists_mem_first (mem_leaves_linearize.mpr ⟨Nat.succ_pos i, lt_width hi⟩)
    refine ⟨fun hempty => NatSet.eq_empty_iff.mp hempty q hq, ?_⟩
    intro p hp
    exact mem_leaves_linearize.mp (mem_leaves_of_first hp)
  · intro s c t h
    obtain ⟨rfl, hne⟩ := NatSet.nonempty?_eq_some.mp h
    refine ⟨hne, ?_⟩
    intro q hq
    obtain ⟨p, _, _, hfollow⟩ := mem_advance_slots.mp hq
    exact mem_leaves_linearize.mp (mem_leaves_of_follow hfollow)

theorem exists_expand (hend : .endMark ∈ r.leaves) :
    ∃ x, r.expand? (2 ^ r.width - 1) = some x ∧ Dfa.ofTerm r = .ok x.dfa ∧ x.Complete ∧
      (∀ s ∈ x.dfa.keys, s ≠ ∅ ∧ ∀ q ∈ s, 1 ≤ q ∧ q ≤ r.width) ∧ x.dfa.size ≤ 2 ^ r.width - 1 := by
  obtain ⟨finish, hfinish⟩ := exists_endPosition hend
  have hmembers : ∀ s ∈ (r.positionMachine finish).keys, s ≠ ∅ ∧ ∀ q ∈ s, q ∈ Finset.Icc 1 r.width := by
    intro s hs
    obtain ⟨hne, hpositions⟩ := keys_positions hend finish s hs
    exact ⟨hne, fun q hq => Finset.mem_Icc.mpr (hpositions q hq)⟩
  obtain ⟨x, hx, hdfa, hkeys, hcomplete, hsize⟩ :=
    Worklist.exists_build_of_members (r.moves_positionMachine finish) .positions hmembers
  rw [Nat.card_Icc, Nat.add_sub_cancel] at hx hsize
  refine ⟨x, ?_, ?_, hcomplete, hkeys ▸ keys_positions hend finish, hsize⟩
  · rw [expand?, hfinish, Option.bind_some]
    exact hx
  · rw [Dfa.ofTerm, hfinish, hdfa]

end Regex

/-- Whatever edges an automaton has, determinization ends within as many rounds as there are non-empty sets of
states; so does the construction from the positions of a term with an end mark within as many as there are
non-empty sets of positions. Every state is taken from the worklist once, and its key is such a set, in the one
case closed under empty moves. No link is made twice for one state and symbol, and there are no more states than
such sets. -/
theorem states_expanded_once :
    (∀ n : Nfa, 0 < n.size → ∃ x, n.expand? (2 ^ n.size - 1) = some x ∧ x.dfa = n.toDfa ∧ x.Complete ∧
      (∀ s ∈ x.dfa.keys, s ≠ ∅ ∧ n.ClosedSet s) ∧ x.dfa.size ≤ 2 ^ n.size - 1) ∧
    ∀ r : Regex Letter, .endMark ∈ r.leaves →
      ∃ x, r.expand? (2 ^ r.width - 1) = some x ∧ Dfa.ofTerm r = .ok x.dfa ∧ x.Complete ∧
        (∀ s ∈ x.dfa.keys, s ≠ ∅ ∧ ∀ q ∈ s, 1 ≤ q ∧ q ≤ r.width) ∧ x.dfa.size ≤ 2 ^ r.width - 1 :=
  ⟨fun n hn => n.exists_expand hn, fun r hend => r.exists_expand hend⟩

/-- A cycle of empty moves, with edges that lead out of the states. -/
def carousel : Nfa := ⟨#[[(none, 1), (none, 7)], [(none, 0), (some 'a', 2)], [(some 'a', 9), (some 'b', 0)]], 2⟩

/-- The end mark stands inside of a star, so it can be followed. -/
def encore : Regex Letter := .star (.concat (.leaf (.char 'a')) (.leaf .endMark))

theorem states_expanded_once_carousel :
    (0 < carousel.size ∧ ∃ x, carousel.expand? 7 = some x ∧ x.dfa = carousel.toDfa ∧ x.Complete ∧
      (∀ s ∈ x.dfa.keys, s ≠ ∅ ∧ carousel.ClosedSet s) ∧ x.dfa.size ≤ 7) ∧
    .endMark ∈ encore.leaves ∧ ∃ x, encore.expand? 3 = some x ∧ Dfa.ofTerm encore = .ok x.dfa ∧ x.Complete ∧
      (∀ s ∈ x.dfa.keys, s ≠ ∅ ∧ ∀ q ∈ s, 1 ≤ q ∧ q ≤ 2) ∧ x.dfa.size ≤ 3 := by
  obtain ⟨hsubsets, hpositions⟩ := states_expanded_once
  have hstart : 0 < carousel.size := Nat.zero_lt_succ 2
  have hend : .endMark ∈ encore.leaves := List.mem_cons_of_mem _ List.mem_cons_self
  exact ⟨⟨hstart, hsubsets carousel hstart⟩, hend, hpositions encore hend⟩

end PatternAutomata
