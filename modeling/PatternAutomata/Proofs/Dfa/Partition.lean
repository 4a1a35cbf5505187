import Mathlib.Data.List.Nodup
import PatternAutomata.Dfa.Minimize

/-!
# Divisions of a set of states

A partition divides a set if its blocks hold every member once. What counts then is which states
share a block (`Partition.Same`), and the table of classes gives a state the index of its block.
Splitting a block by a tag leaves those states together that had the same tag.
-/

namespace PatternAutomata.Partition

set_option autoImplicit false

variable {p : Partition} {b : Block} {s : NatSet} {x y z i n : Nat}

/-- Every member of the set is in one block, and the members of a block ascend. -/
structure Divides (p : Partition) (s : NatSet) : Prop where
  perm : (p.flatMap Block.members).Perm s.toList
  ascending : ∀ b ∈ p, b.members.Pairwise (· < ·)

def Same (p : Partition) (x y : Nat) : Prop := ∃ b ∈ p, x ∈ b.members ∧ y ∈ b.members

def index (p : Partition) (x : Nat) : Nat := p.findIdx fun b => decide (x ∈ b.members)

namespace Divides

theorem nodup (hp : p.Divides s) : (p.flatMap Block.members).Nodup :=
  hp.perm.nodup_iff.mpr (s.ascending.imp Nat.ne_of_lt)

theorem mem_iff (hp : p.Divides s) : x ∈ s ↔ ∃ b ∈ p, x ∈ b.members := by
  rw [NatSet.mem_def, ← hp.perm.mem_iff, List.mem_flatMap]

theorem eq_of_mem (hp : p.Divides s) {j : Nat} {c : Block} (hi : p[i]? = some b) (hj : p[j]? = some c)
    (hx : x ∈ b.members) (hx' : x ∈ c.members) : i = j := by
  have hdisjoint := (List.nodup_flatMap.mp hp.nodup).2
  obtain ⟨hip, rfl⟩ := List.getElem?_eq_some_iff.mp hi
  obtain ⟨hjp, rfl⟩ := List.getElem?_eq_some_iff.mp hj
  rw [List.pairwise_iff_getElem] at hdisjoint
  rcases Nat.lt_trichotomy i j with hlt | heq | hgt
  · exact absurd hx' (hdisjoint i j hip hjp hlt hx)
  · exact heq
  · exact absurd hx (hdisjoint j i hjp hip hgt hx')

theorem index_eq_iff (hp : p.Divides s) (hx : x ∈ s) :
    p.index x = i ↔ ∃ b, p[i]? = some b ∧ x ∈ b.members := by
  have hindex : ∃ b, p[p.index x]? = some b ∧ x ∈ b.members := by
    obtain ⟨b, hb, hxb⟩ := hp.mem_iff.mp hx
    have hlt : p.index x < p.length := List.findIdx_lt_length_of_exists ⟨b, hb, decide_eq_true hxb⟩
    refine ⟨p[p.index x], List.getElem?_eq_getElem hlt, ?_⟩
    have htrue := List.findIdx_getElem (w := hlt)
    exact of_decide_eq_true htrue
  constructor
  · intro h
    obtain rfl := h
    exact hindex
  · intro h
    obtain ⟨c, hc, hxc⟩ := h
    obtain ⟨b, hb, hxb⟩ := hindex
    exact hp.eq_of_mem hb hc hxb hxc

theorem index_lt (hp : p.Divides s) (hx : x ∈ s) : p.index x < p.length := by
  obtain ⟨_, hb, _⟩ := (hp.index_eq_iff hx).mp rfl
  exact (List.getElem?_eq_some_iff.mp hb).1

theorem same_iff_index (hp : p.Divides s) (hx : x ∈ s) (hy : y ∈ s) :
    p.Same x y ↔ p.index x = p.index y := by
  constructor
  · intro h
    obtain ⟨b, hb, hxb, hyb⟩ := h
    obtain ⟨i, hi⟩ := List.mem_iff_getElem?.mp hb
    rw [(hp.index_eq_iff hx).mpr ⟨b, hi, hxb⟩, (hp.index_eq_iff hy).mpr ⟨b, hi, hyb⟩]
  · intro h
    obtain ⟨b, hb, hyb⟩ := (hp.index_eq_iff hy).mp rfl
    obtain ⟨c, hc, hxc⟩ := (hp.index_eq_iff hx).mp h
    rw [hb, Option.some.injEq] at hc
    subst hc
    exact ⟨b, List.mem_of_getElem? hb, hxc, hyb⟩

theorem representative_mem (hp : p.Divides s) (hb : p[i]? = some b) : b.representative ∈ s :=
  hp.mem_iff.mpr ⟨b, List.mem_of_getElem? hb, List.mem_cons_self⟩

theorem index_representative (hp : p.Divides s) (hb : p[i]? = some b) : p.index b.representative = i :=
  (hp.index_eq_iff (hp.representative_mem hb)).mpr ⟨b, hb, List.mem_cons_self⟩

theorem representative_le (hp : p.Divides s) (hb : b ∈ p) (hx : x ∈ b.members) : b.representative ≤ x := by
  rcases List.mem_cons.mp hx with rfl | hx
  · exact Nat.le_refl _
  · exact Nat.le_of_lt ((List.pairwise_cons.mp (hp.ascending b hb)).1 x hx)

theorem mem_of_same (hp : p.Divides s) (h : p.Same x y) : x ∈ s ∧ y ∈ s := by
  obtain ⟨b, hb, hxb, hyb⟩ := h
  exact ⟨hp.mem_iff.mpr ⟨b, hb, hxb⟩, hp.mem_iff.mpr ⟨b, hb, hyb⟩⟩

theorem of_perm {q : Partition} (hp : p.Divides s) (h : q.Perm p) : q.Divides s where
  perm := (h.flatMap_right Block.members).trans hp.perm
  ascending b hb := hp.ascending b (h.mem_iff.mp hb)

end Divides

theorem same_of_perm {q : Partition} (h : q.Perm p) : q.Same x y ↔ p.Same x y := by
  simp only [Same, h.mem_iff]

theorem getElem?_assign (qs : List Nat) (table : Array (Option Nat)) :
    (qs.foldl (fun table q => table.setIfInBounds q (some i)) table)[x]? =
      if x ∈ qs ∧ x < table.size then some (some i) else table[x]? := by
  induction qs generalizing table with
  | nil => simp
  | cons q qs ih =>
    rw [List.foldl_cons, ih, Array.size_setIfInBounds, Array.getElem?_setIfInBounds]
    by_cases hx : x < table.size
    · by_cases hq : q = x
      · subst hq
        simp [hx]
      · simp [hx, hq, Ne.symm hq]
    · simp only [hx, and_false, if_false]
      split
      · rename_i hq
        subst hq
        simp [hx]
      · rfl

theorem size_assign (qs : List Nat) (table : Array (Option Nat)) :
    (qs.foldl (fun table q => table.setIfInBounds q (some i)) table).size = table.size := by
  induction qs generalizing table with
  | nil => rfl
  | cons q qs ih => rw [List.foldl_cons, ih, Array.size_setIfInBounds]

theorem getElem?_classes_of_not_mem (l : List (Block × Nat)) (table : Array (Option Nat))
    (h : ∀ e ∈ l, x ∉ e.1.members) :
    (l.foldl (fun table e =>
      e.1.members.foldl (fun table q => table.setIfInBounds q (some e.2)) table) table)[x]? = table[x]? := by
  induction l generalizing table with
  | nil => rfl
  | cons e l ih =>
    obtain ⟨he, hl⟩ := List.forall_mem_cons.mp h
    rw [List.foldl_cons, ih _ hl, getElem?_assign, if_neg]
    intro h
    exact he h.1

theorem getElem?_classes_from (k : Nat) (table : Array (Option Nat)) (hx : x < table.size) {j : Nat}
    (hj : p[j]? = some b) (hxb : x ∈ b.members)
    (hone : ∀ j' c, p[j']? = some c → x ∈ c.members → j' = j) :
    ((p.zipIdx k).foldl (fun table e =>
      e.1.members.foldl (fun table q => table.setIfInBounds q (some e.2)) table) table)[x]? =
        some (some (k + j)) := by
  induction p generalizing k table j with
  | nil => cases hj
  | cons c p ih =>
    rw [List.zipIdx_cons, List.foldl_cons]
    cases j with
    | zero =>
      -- the state is in the first block, and no later block overwrites its class
      obtain rfl : c = b := by simpa using hj
      have hrest : ∀ d ∈ p, x ∉ d.members := by
        intro d hd hxd
        obtain ⟨j', hj'⟩ := List.mem_iff_getElem?.mp hd
        have := hone (j' + 1) d hj' hxd
        omega
      rw [getElem?_classes_of_not_mem, getElem?_assign, if_pos ⟨hxb, hx⟩]
      · rfl
      · intro e he
        exact hrest _ (List.fst_mem_of_mem_zipIdx he)
    | succ j =>
      have hj' : p[j]? = some b := by simpa using hj
      have hone' : ∀ j' d, p[j']? = some d → x ∈ d.members → j' = j := by
        intro j' d hd hxd
        have := hone (j' + 1) d hd hxd
        omega
      rw [ih (k + 1) _ (by rwa [size_assign]) hj' hone', Nat.add_right_comm]
      rfl

theorem getElem?_classes (hp : p.Divides s) (hx : x ∈ s) (hn : x < n) :
    (p.classes n)[x]? = some (some (p.index x)) := by
  obtain ⟨b, hb, hxb⟩ := (hp.index_eq_iff hx).mp rfl
  have h := getElem?_classes_from 0 (Array.replicate n none) (by simpa using hn) hb hxb
    fun j' c hc hxc => hp.eq_of_mem hc hb hxc hxb
  rwa [Nat.zero_add] at h

section Groups

variable {σ : Type} [DecidableEq σ] {t : σ} {xs : List (σ × Nat)}

theorem mem_tagged : x ∈ tagged t xs ↔ (t, x) ∈ xs := by
  simp only [tagged, List.mem_map, List.mem_filter, decide_eq_true_eq]
  constructor
  · intro h
    obtain ⟨⟨_, _⟩, ⟨hx, rfl⟩, rfl⟩ := h
    exact hx
  · intro hx
    exact ⟨(t, x), ⟨hx, rfl⟩, rfl⟩

theorem tagged_untagged {u : σ} (h : t ≠ u) : tagged t (untagged u xs) = tagged t xs := by
  rw [tagged, tagged, untagged, List.filter_filter]
  apply congrArg
  apply List.filter_congr
  intro e _
  by_cases he : e.1 = t
  · simp [he, h]
  · simp [he]

theorem exists_tag_of_mem_groups (h : b ∈ groups xs) : ∃ t, b.members = tagged t xs := by
  fun_induction groups xs with
  | case1 => cases h
  | case2 u q rest ih =>
    rcases List.mem_cons.mp h with rfl | h
    · exact ⟨u, by simp [Block.members, tagged]⟩
    · obtain ⟨t, ht⟩ := ih h
      have htu : t ≠ u := by
        intro h
        obtain rfl := h
        have hmem : b.representative ∈ tagged t (untagged t rest) := ht ▸ List.mem_cons_self
        simp [mem_tagged, untagged] at hmem
      refine ⟨t, ?_⟩
      rw [ht, tagged_untagged htu]
      simp [tagged, Ne.symm htu]

theorem perm_groups (xs : List (σ × Nat)) : ((groups xs).flatMap Block.members).Perm (xs.map Prod.snd) := by
  fun_induction groups xs with
  | case1 => exact .nil
  | case2 u q rest ih =>
    have hsplit : (tagged u rest ++ (untagged u rest).map Prod.snd).Perm (rest.map Prod.snd) := by
      rw [tagged, untagged, ← List.map_append]
      apply List.Perm.map
      have h := List.filter_append_perm (fun e : σ × Nat => decide (e.1 = u)) rest
      simpa using h
    rw [List.flatMap_cons, List.map_cons, Block.members, List.cons_append]
    exact ((List.Perm.append_left _ ih).trans hsplit).cons q

theorem same_groups {f : Nat → σ} {qs : List Nat} :
    (groups (qs.map fun q => (f q, q))).Same x y ↔ x ∈ qs ∧ y ∈ qs ∧ f x = f y := by
  have htag : ∀ {t q}, q ∈ tagged t (qs.map fun q => (f q, q)) ↔ q ∈ qs ∧ f q = t := by
    intro t q
    simp only [mem_tagged, List.mem_map, Prod.mk.injEq]
    constructor
    · intro h
      obtain ⟨_, hq, ht, rfl⟩ := h
      exact ⟨hq, ht⟩
    · intro h
      obtain ⟨hq, ht⟩ := h
      exact ⟨q, hq, ht, rfl⟩
  constructor
  · intro h
    obtain ⟨b, hb, hx, hy⟩ := h
    obtain ⟨t, ht⟩ := exists_tag_of_mem_groups hb
    rw [ht, htag] at hx hy
    exact ⟨hx.1, hy.1, hx.2.trans hy.2.symm⟩
  · intro h
    obtain ⟨hx, hy, hxy⟩ := h
    have hall := (perm_groups (qs.map fun q => (f q, q))).mem_iff (a := x)
    rw [List.mem_flatMap] at hall
    obtain ⟨b, hb, hxb⟩ := hall.mpr (by simpa using hx)
    obtain ⟨t, ht⟩ := exists_tag_of_mem_groups hb
    refine ⟨b, hb, hxb, ?_⟩
    rw [ht, htag] at hxb ⊢
    exact ⟨hy, hxy.symm.trans hxb.2⟩

theorem groups_ascending {f : Nat → σ} {qs : List Nat} (hqs : qs.Pairwise (· < ·))
    (hb : b ∈ groups (qs.map fun q => (f q, q))) : b.members.Pairwise (· < ·) := by
  obtain ⟨t, ht⟩ := exists_tag_of_mem_groups hb
  rw [ht, tagged]
  apply List.Pairwise.sublist ?_ hqs
  have hsub : ((qs.map fun q => (f q, q)).filter fun e => decide (e.1 = t)).Sublist
      (qs.map fun q => (f q, q)) := List.filter_sublist
  simpa [Function.comp_def] using hsub.map Prod.snd

end Groups

end PatternAutomata.Partition
