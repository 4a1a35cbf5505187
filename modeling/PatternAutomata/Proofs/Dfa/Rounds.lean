import Mathlib.Logic.Function.Iterate
import PatternAutomata.Proofs.Dfa.TableMinimization

/-!
# Rounds of refinement

A round tells states apart by one symbol more than the round before. So after `k` rounds two live states share
a class exactly if no word of at most `k` symbols tells them apart on its way over live states. The classes of
a round are parts of those before it. Once their number stays the same they stay the same, and as each round
before that makes at least one class more there are no more rounds than live states.
-/

namespace PatternAutomata.Dfa

set_option autoImplicit false

variable {d : Dfa} {p : Partition} {s : NatSet} {x y q k : Nat} {c : Char} {w : List Char}

/-- The state that a word leads to without a target outside of the set. -/
def walkWithin (d : Dfa) (s : NatSet) (q : Nat) : List Char → Option Nat
  | [] => some q
  | c :: w => (d.next? q c).bind fun t => if t ∈ s then d.walkWithin s t w else none

/-- No word of at most `k` symbols tells two states apart: inside of the set it leads on from both of them or
from neither, and if it does then to states that accept alike. -/
def AlikeUpTo (d : Dfa) (s : NatSet) (k x y : Nat) : Prop :=
  ∀ w, w.length ≤ k → (d.walkWithin s x w).map d.accepts = (d.walkWithin s y w).map d.accepts

theorem walkWithin_cons (d : Dfa) (s : NatSet) (q : Nat) (c : Char) (w : List Char) :
    d.walkWithin s q (c :: w) = ((d.restrict s).next? q c).bind fun t => d.walkWithin s t w := by
  rw [walkWithin, ← filter_next?]
  cases d.next? q c with
  | none => rfl
  | some t => by_cases ht : t ∈ s <;> simp [Option.filter, ht]

theorem alikeUpTo_zero : d.AlikeUpTo s 0 x y ↔ d.accepts x = d.accepts y := by
  constructor
  · intro h
    exact Option.some.inj (h [] (Nat.le_refl 0))
  · intro h w hw
    obtain rfl : w = [] := List.length_eq_zero_iff.mp (Nat.le_zero.mp hw)
    exact congrArg some h

theorem rel_alikeUpTo_iff {o o' : Option Nat} : Option.Rel (d.AlikeUpTo s k) o o' ↔
    ∀ w, w.length ≤ k → (o.bind fun t => d.walkWithin s t w).map d.accepts =
      (o'.bind fun t => d.walkWithin s t w).map d.accepts := by
  cases o with
  | none =>
    cases o' with
    | none => simp
    | some u =>
      -- the empty word leads from a state to itself, and from no state nowhere
      refine iff_of_false (by simp) fun h => ?_
      have hnil := h [] (Nat.zero_le k)
      cases hnil
  | some t =>
    cases o' with
    | none =>
      refine iff_of_false (by simp) fun h => ?_
      have hnil := h [] (Nat.zero_le k)
      cases hnil
    | some u =>
      rw [Option.rel_some_some]
      exact Iff.rfl

theorem alikeUpTo_succ : d.AlikeUpTo s (k + 1) x y ↔ d.AlikeUpTo s k x y ∧
    ∀ c, Option.Rel (d.AlikeUpTo s k) ((d.restrict s).next? x c) ((d.restrict s).next? y c) := by
  simp only [rel_alikeUpTo_iff, ← walkWithin_cons]
  constructor
  · intro h
    exact ⟨fun w hw => h w (Nat.le_succ_of_le hw), fun c w hw => h (c :: w) (Nat.succ_le_succ hw)⟩
  · intro h w hw
    cases w with
    | nil => exact h.1 [] (Nat.zero_le k)
    | cons c w => exact h.2 c w (Nat.le_of_succ_le_succ hw)

theorem profile_eq_iff_same (hd : d.Closed s) (hp : p.Divides s) (hx : x ∈ s) (hy : y ∈ s) :
    d.profile p x = d.profile p y ↔ ∀ c, Option.Rel p.Same (d.next? x c) (d.next? y c) := by
  rw [profile_eq_iff]
  apply forall_congr'
  intro c
  cases ht : d.next? x c with
  | none =>
    cases hu : d.next? y c with
    | none => exact iff_of_true rfl .none
    | some u => simp
  | some t =>
    cases hu : d.next? y c with
    | none => simp
    | some u =>
      have hsame := hp.same_iff_index (hd.edges x hx c t ht) (hd.edges y hy c u hu)
      simpa using hsame.symm

theorem exists_sublist_of_refined {b : Block} (hb : b ∈ d.refined p) :
    ∃ a ∈ p, b.members.Sublist a.members := by
  obtain ⟨a, ha, hba⟩ := List.mem_flatMap.mp hb
  obtain ⟨t, ht⟩ := Partition.exists_tag_of_mem_groups hba
  refine ⟨a, ha, ?_⟩
  rw [ht, Partition.tagged_map]
  exact List.filter_sublist

theorem divides_rounds (d : Dfa) (s : NatSet) (k : Nat) : (d.refined^[k] (d.split s)).Divides s := by
  induction k with
  | zero => exact divides_split d s
  | succ k ih =>
    rw [Function.iterate_succ_apply']
    exact divides_refined ih

/-- After `k` rounds the states of a class are those that no word of at most `k` symbols tells apart. -/
theorem same_rounds_iff (hs : ∀ q ∈ s, q < d.size) (k : Nat) :
    ((d.restrict s).refined^[k] ((d.restrict s).split s)).Same x y ↔ (x ∈ s ∧ y ∈ s) ∧ d.AlikeUpTo s k x y := by
  induction k generalizing x y with
  | zero =>
    rw [Function.iterate_zero_apply, same_split, alikeUpTo_zero, accepts_restrict, accepts_restrict]
  | succ k ih =>
    have hdivides := divides_rounds (d.restrict s) s k
    have hclosed := closed_restrict (d := d) hs
    rw [Function.iterate_succ_apply', same_refined, ih, alikeUpTo_succ, and_assoc, and_congr_right_iff]
    intro hmem
    rw [profile_eq_iff_same hclosed hdivides hmem.1 hmem.2, and_congr_right_iff]
    intro _
    apply forall_congr'
    intro c
    -- the states behind the symbol are in the set, so there the classes are known
    cases ht : (d.restrict s).next? x c with
    | none => cases (d.restrict s).next? y c <;> simp
    | some t =>
      cases hu : (d.restrict s).next? y c with
      | none => simp
      | some u =>
        have htmem := hclosed.edges x hmem.1 c t ht
        have humem := hclosed.edges y hmem.2 c u hu
        simp [ih, htmem, humem]

/-- The accepting ones of the live states and the others, if there are any. -/
def classesAtFirst (d : Dfa) (live : NatSet) : List (List Nat) :=
  [live.toList.filter d.accepts, live.toList.filter fun q => !d.accepts q].filter fun qs => !qs.isEmpty

/-- The classes after a number of rounds, whether or not the rounds should have stopped before. -/
def classesAfter? (d : Dfa) (live : NatSet) : Nat → Option (List (List Nat))
  | 0 => some (d.classesAtFirst live)
  | k + 1 => (d.classesAfter? live k).bind (d.regroup? live)

theorem classesAfter?_eq (hs : ∀ q ∈ s, q < d.size) (k : Nat) : d.classesAfter? s k =
    some (((d.restrict s).refined^[k] ((d.restrict s).split s)).map Block.members) := by
  induction k with
  | zero => rw [classesAfter?, classesAtFirst, Function.iterate_zero_apply, split_members]
  | succ k ih =>
    rw [classesAfter?, ih, Option.bind_some, regroup?_eq hs (divides_rounds _ s k), Function.iterate_succ_apply']

/-- The rounds stop, the last of them has changed nothing, and neither would another one. -/
theorem exists_rounds (hs : ∀ q ∈ s, q < d.size) (hp : p.Divides s) {fuel : Nat}
    (hfuel : p.total - p.length < fuel) :
    ∃ k, k ≤ fuel ∧ d.rounds? s fuel (p.map Block.members) = some (((d.restrict s).refined^[k] p).map Block.members) ∧
      (d.restrict s).refined ((d.restrict s).refined^[k] p) = (d.restrict s).refined^[k] p := by
  induction fuel generalizing p with
  | zero => omega
  | succ fuel ih =>
    have hlength := (d.restrict s).length_le_refined p
    rw [rounds?, regroup?_eq hs hp, Option.bind_some, List.length_map, List.length_map]
    by_cases hsame : ((d.restrict s).refined p).length = p.length
    · have hself := refined_eq_self (Nat.le_of_eq hsame)
      refine ⟨1, Nat.succ_le_succ (Nat.zero_le fuel), ?_, ?_⟩
      · rw [if_pos hsame]
        rfl
      · rw [Function.iterate_one, hself, hself]
    · have hless := rounds_lt (closed_restrict (d := d) hs) hp (by omega)
      obtain ⟨k, hk, hrounds, hlast⟩ := ih (divides_refined (d := d.restrict s) hp) (by omega)
      refine ⟨k + 1, Nat.succ_le_succ hk, ?_, hlast⟩
      rw [if_neg hsame, hrounds]
      rfl

/-- A division of live states that their words up to a length make. -/
structure ClassesUpTo (d : Dfa) (s : NatSet) (k : Nat) (p : List (List Nat)) : Prop where
  perm : p.flatten.Perm s.toList
  nonempty : [] ∉ p
  ascending : ∀ qs ∈ p, qs.Pairwise (· < ·)
  together_iff : ∀ x ∈ s, ∀ y ∈ s, (∃ qs ∈ p, x ∈ qs ∧ y ∈ qs) ↔ d.AlikeUpTo s k x y

theorem together_members : (∃ qs ∈ p.map Block.members, x ∈ qs ∧ y ∈ qs) ↔ p.Same x y := by
  simp [Partition.Same]

theorem classesUpTo_rounds (hs : ∀ q ∈ s, q < d.size) (k : Nat) :
    d.ClassesUpTo s k (((d.restrict s).refined^[k] ((d.restrict s).split s)).map Block.members) := by
  have hdivides := divides_rounds (d.restrict s) s k
  refine ⟨?_, ?_, ?_, ?_⟩
  · rw [← List.flatMap_def]
    exact hdivides.perm
  · intro hnil
    obtain ⟨b, _, hb⟩ := List.mem_map.mp hnil
    cases hb
  · intro qs hqs
    obtain ⟨b, hb, rfl⟩ := List.mem_map.mp hqs
    exact hdivides.ascending b hb
  · intro x hx y hy
    rw [together_members, same_rounds_iff hs]
    exact and_iff_right ⟨hx, hy⟩

theorem total_sub_lt (hp : p.Divides s) (hs : x ∈ s) : p.total - p.length < s.size := by
  have htotal : p.total = s.size := hp.perm.length_eq
  obtain ⟨b, hb, _⟩ := hp.mem_iff.mp hs
  have hpos := List.length_pos_of_mem hb
  have hsize := List.length_pos_of_mem (NatSet.mem_def.mp hs)
  rw [htotal]
  exact Nat.sub_lt hsize hpos

/-- Every round has a result. After `k` of them the live states are divided by their words of at most `k`
symbols. The classes of the next round are parts of these, and as many classes are the same classes. The rounds
stop after at most as many as there are live states, with classes that a further one would not change. -/
theorem rounds_by_word_length (hd : d.InRange) :
    (∀ k, ∃ p next, d.classesAfter? d.live k = some p ∧ d.regroup? d.live p = some next ∧
      d.ClassesUpTo d.live k p ∧ (∀ qs ∈ next, ∃ old ∈ p, qs.Sublist old) ∧ (next.length = p.length → next = p)) ∧
    ∃ k last, k ≤ d.live.size ∧ d.rounds? d.live d.live.size (d.classesAtFirst d.live) = some last ∧
      d.classesAfter? d.live k = some last ∧ d.regroup? d.live last = some last := by
  have hs : ∀ q ∈ d.live, q < d.size := fun q hq => lt_of_mem_live hd hq
  constructor
  · intro k
    have hdivides := divides_rounds (d.restrict d.live) d.live k
    refine ⟨_, _, classesAfter?_eq hs k, regroup?_eq hs hdivides, classesUpTo_rounds hs k, ?_, ?_⟩
    · intro qs hqs
      obtain ⟨b, hb, rfl⟩ := List.mem_map.mp hqs
      obtain ⟨a, ha, hba⟩ := exists_sublist_of_refined hb
      exact ⟨a.members, List.mem_map_of_mem ha, hba⟩
    · intro hlength
      rw [List.length_map, List.length_map] at hlength
      rw [refined_eq_self (Nat.le_of_eq hlength)]
  · have hsplit := divides_split (d.restrict d.live) d.live
    obtain ⟨k, hk, hrounds, hlast⟩ := exists_rounds hs hsplit (total_sub_lt hsplit (start_mem_live hd))
    rw [split_members] at hrounds
    refine ⟨k, _, hk, hrounds, classesAfter?_eq hs k, ?_⟩
    rw [regroup?_eq hs (divides_rounds _ _ k), hlast]

/-- Three symbols to the accepting state, two, one, or none. -/
def stairs : Dfa :=
  ⟨.nfaStates, #[⟨.singleton 0, false, .ofList [('a', 1)]⟩, ⟨.singleton 1, false, .ofList [('a', 2)]⟩,
    ⟨.singleton 2, false, .ofList [('a', 3)]⟩, ⟨.singleton 3, true, .empty⟩]⟩

theorem rounds_by_word_length_stairs :
    stairs.InRange ∧ ∃ p, stairs.classesAfter? stairs.live 2 = some p ∧ ¬ ∃ qs ∈ p, 0 ∈ qs ∧ 1 ∈ qs := by
  have hd : stairs.InRange := by decide
  obtain ⟨p, _, hp, _, hclasses, _⟩ := (rounds_by_word_length hd).1 2
  refine ⟨hd, p, hp, ?_⟩
  rw [hclasses.together_iff 0 (by decide +kernel) 1 (by decide +kernel)]
  intro halike
  exact absurd (halike ['a', 'a'] (Nat.le_refl 2)) (by decide +kernel)

end PatternAutomata.Dfa
