import Mathlib.Data.List.Induction
import PatternAutomata.Discovery
import PatternAutomata.Proofs.WordOrder

/-!
# What the search for states finds

The search goes through its queue from the front and puts new sets behind, so the sets it has found
are those it is done with, followed by the queue. `SetMachine.Explored` is what a round keeps. At the
end no set is left in the queue: the keys are the sets that can be reached, each of them once, and
they stand in the order of the least words that lead to them.
-/

namespace PatternAutomata

set_option autoImplicit false

def Before (xs : List NatSet) (x y : NatSet) : Prop := ∃ as bs, xs = as ++ y :: bs ∧ x ∈ as

theorem Before.append {xs : List NatSet} {x y : NatSet} (h : Before xs x y) (ys : List NatSet) :
    Before (xs ++ ys) x y := by
  obtain ⟨as, bs, rfl, hx⟩ := h
  exact ⟨as, bs ++ ys, by simp, hx⟩

theorem Before.concat {xs : List NatSet} {x : NatSet} (hx : x ∈ xs) (y : NatSet) :
    Before (xs ++ [y]) x y := ⟨xs, [], rfl, hx⟩

theorem Before.of_getElem? {xs : List NatSet} {x y : NatSet} {i j : Nat} (hij : i < j)
    (hx : xs[i]? = some x) (hy : xs[j]? = some y) : Before xs x y := by
  obtain ⟨hj, rfl⟩ := List.getElem?_eq_some_iff.mp hy
  refine ⟨xs.take j, xs.drop (j + 1), by simp, List.mem_iff_getElem?.mpr ⟨i, ?_⟩⟩
  rw [List.getElem?_take, if_pos hij, hx]

theorem Before.of_pairwise {R : NatSet → NatSet → Prop} {xs : List NatSet} {x y : NatSet}
    (hR : xs.Pairwise R) (h : Before xs x y) : R x y := by
  obtain ⟨as, bs, rfl, hx⟩ := h
  exact (List.pairwise_append.mp hR).2.2 x hx y List.mem_cons_self

def without (f : Char → Option NatSet) (x : NatSet) (c : Char) : Option NatSet := (f c).filter fun t => !t == x

theorem without_eq_some {f : Char → Option NatSet} {x t : NatSet} {c : Char} :
    without f x c = some t ↔ f c = some t ∧ t ≠ x := by
  simp [without, Option.filter_eq_some_iff]

/-- The values of a function on an ascending list, in the order in which they appear first. -/
theorem pairwise_eraseDups_filterMap {cs : List Char} (hcs : cs.Pairwise fun a b => a.toNat < b.toNat)
    (f : Char → Option NatSet) :
    ((cs.filterMap f).eraseDups).Pairwise fun s t =>
      ∀ c ∈ cs, f c = some t → ∃ b ∈ cs, f b = some s ∧ b.toNat < c.toNat := by
  induction cs generalizing f with
  | nil => simp
  | cons a cs ih =>
    obtain ⟨ha, hcs⟩ := List.pairwise_cons.mp hcs
    cases hf : f a with
    | none =>
      rw [List.filterMap_cons_none hf]
      apply (ih hcs f).imp
      intro s t hst c hc hct
      rcases List.mem_cons.mp hc with rfl | hc
      · rw [hf] at hct
        cases hct
      · obtain ⟨b, hb, hbs, hbc⟩ := hst c hc hct
        exact ⟨b, List.mem_cons_of_mem _ hb, hbs, hbc⟩
    | some x =>
      -- behind the first value stand the values of the function that leaves it out
      have hrest : (cs.filterMap f).filter (fun t => !t == x) = cs.filterMap (without f x) :=
        List.filter_filterMap
      rw [List.filterMap_cons_some hf, List.eraseDups_cons, hrest]
      apply List.pairwise_cons.mpr
      refine ⟨?_, (ih hcs (without f x)).imp_of_mem ?_⟩
      · intro t ht c hc hct
        obtain ⟨d, _, hd⟩ := List.mem_filterMap.mp (List.mem_eraseDups.mp ht)
        refine ⟨a, List.mem_cons_self, hf, ?_⟩
        rcases List.mem_cons.mp hc with rfl | hc
        · rw [hf, Option.some.injEq] at hct
          exact absurd hct.symm (without_eq_some.mp hd).2
        · exact ha c hc
      · intro s t _ ht hst c hc hct
        obtain ⟨d, _, hd⟩ := List.mem_filterMap.mp (List.mem_eraseDups.mp ht)
        rcases List.mem_cons.mp hc with rfl | hc
        · rw [hf, Option.some.injEq] at hct
          exact absurd hct.symm (without_eq_some.mp hd).2
        · obtain ⟨b, hb, hbs, hbc⟩ := hst c hc (without_eq_some.mpr ⟨hct, (without_eq_some.mp hd).2⟩)
          exact ⟨b, List.mem_cons_of_mem _ hb, (without_eq_some.mp hbs).1, hbc⟩

namespace SetMachine

/-- A machine leaves a set only with symbols it knows, and it knows them in ascending order. -/
structure Lawful (m : SetMachine) : Prop where
  known : ∀ {s t : NatSet} {c : Char}, m.next s c = some t → c ∈ m.alphabet
  ascending : m.alphabet.Pairwise fun a b => a.toNat < b.toNat

variable {m : SetMachine} {done queue : List NatSet}

/-- Every step into `t` from a set that is done comes behind such a step into `s`. -/
def Earlier (m : SetMachine) (done : List NatSet) (s t : NatSet) : Prop :=
  ∀ u ∈ done, ∀ c, m.next u c = some t →
    ∃ v ∈ done, ∃ b, m.next v b = some s ∧ (Before done v u ∨ (v = u ∧ b.toNat < c.toNat))

/-- What a search has found when it is done with some sets and the others are in the queue. -/
structure Explored (m : SetMachine) (done queue others : List NatSet) : Prop where
  keys : done ++ queue = m.start :: others
  nodup : (done ++ queue).Nodup
  reached : ∀ s ∈ done ++ queue, ∃ w, m.Leads w s
  closed : ∀ s ∈ done, ∀ c t, m.next s c = some t → t ∈ done ++ queue
  entered : ∀ t ∈ others, ∃ s ∈ done, ∃ c, m.next s c = some t
  ordered : others.Pairwise (m.Earlier done)

theorem explored_start (m : SetMachine) : m.Explored [] [m.start] [] where
  keys := rfl
  nodup := by simp
  reached s hs := ⟨[], Machine.leads_nil.mpr (by simpa using hs)⟩
  closed s hs := absurd hs List.not_mem_nil
  entered t ht := absurd ht List.not_mem_nil
  ordered := .nil

section Round

variable {s : NatSet} {rest others : List NatSet}

theorem Explored.earlier_of_found (h : m.Explored done (s :: rest) others) {x : NatSet} (hx : x ∈ others) (c : Char) :
    ∃ v ∈ done ++ [s], ∃ b,
      m.next v b = some x ∧ (Before (done ++ [s]) v s ∨ (v = s ∧ b.toNat < c.toNat)) := by
  obtain ⟨v, hv, b, hvb⟩ := h.entered x hx
  exact ⟨v, List.mem_append_left _ hv, b, hvb, Or.inl (Before.concat hv s)⟩

theorem Explored.next_ne_fresh (h : m.Explored done (s :: rest) others) {u y : NatSet} (hu : u ∈ done)
    (hy : y ∈ m.fresh (done ++ s :: rest) s) (c : Char) : m.next u c ≠ some y := by
  intro huc
  exact (mem_fresh.mp hy).2 (h.closed u hu c y huc)

theorem Explored.ordered_round (hm : m.Lawful) (h : m.Explored done (s :: rest) others) :
    (others ++ m.fresh (done ++ s :: rest) s).Pairwise (m.Earlier (done ++ [s])) := by
  apply List.pairwise_append.mpr
  refine ⟨?_, ?_, ?_⟩
  · apply h.ordered.imp_of_mem
    intro x y hx _ hxy u hu c huc
    rcases List.mem_append.mp hu with hu | hu
    · obtain ⟨v, hv, b, hvb, hbefore⟩ := hxy u hu c huc
      exact ⟨v, List.mem_append_left _ hv, b, hvb, hbefore.imp_left fun hb => hb.append _⟩
    · obtain rfl := List.mem_singleton.mp hu
      exact h.earlier_of_found hx c
  · have hsymbols := (pairwise_eraseDups_filterMap hm.ascending (m.next s)).filter
      fun t => decide (t ∉ done ++ s :: rest)
    apply List.Pairwise.imp_of_mem ?_ hsymbols
    intro x y _ hy hxy u hu c huc
    rcases List.mem_append.mp hu with hu | hu
    · exact absurd huc (h.next_ne_fresh hu hy c)
    · obtain rfl := List.mem_singleton.mp hu
      obtain ⟨b, _, hb, hbc⟩ := hxy c (hm.known huc) huc
      exact ⟨u, by simp, b, hb, Or.inr ⟨rfl, hbc⟩⟩
  · intro x hx y hy u hu c huc
    rcases List.mem_append.mp hu with hu | hu
    · exact absurd huc (h.next_ne_fresh hu hy c)
    · obtain rfl := List.mem_singleton.mp hu
      exact h.earlier_of_found hx c

/-- One round: the first set of the queue is done, and the new sets behind it are put last. -/
theorem Explored.round (hm : m.Lawful) (h : m.Explored done (s :: rest) others) :
    m.Explored (done ++ [s]) (rest ++ m.fresh (done ++ s :: rest) s)
      (others ++ m.fresh (done ++ s :: rest) s) := by
  have hkeys : (done ++ [s]) ++ (rest ++ m.fresh (done ++ s :: rest) s) =
      (done ++ s :: rest) ++ m.fresh (done ++ s :: rest) s := by simp
  have hs : s ∈ done ++ s :: rest := by simp
  refine ⟨?_, ?_, ?_, ?_, ?_, h.ordered_round hm⟩
  · rw [hkeys, h.keys, List.cons_append]
  · rw [hkeys, List.nodup_append]
    refine ⟨h.nodup, m.nodup_fresh _ _, ?_⟩
    intro a ha b hb hab
    subst hab
    exact (mem_fresh.mp hb).2 ha
  · intro t ht
    rw [hkeys] at ht
    rcases List.mem_append.mp ht with ht | ht
    · exact h.reached t ht
    · obtain ⟨⟨c, _, hc⟩, _⟩ := mem_fresh.mp ht
      obtain ⟨w, hw⟩ := h.reached s hs
      exact ⟨w ++ [c], Machine.leads_concat.mpr ⟨s, hw, hc⟩⟩
  · intro u hu c t hut
    rw [hkeys, List.mem_append]
    rcases List.mem_append.mp hu with hu | hu
    · exact Or.inl (h.closed u hu c t hut)
    · obtain rfl := List.mem_singleton.mp hu
      by_cases ht : t ∈ done ++ u :: rest
      · exact Or.inl ht
      · exact Or.inr (mem_fresh.mpr ⟨⟨c, hm.known hut, hut⟩, ht⟩)
  · intro t ht
    rcases List.mem_append.mp ht with ht | ht
    · obtain ⟨u, hu, hut⟩ := h.entered t ht
      exact ⟨u, List.mem_append_left _ hu, hut⟩
    · obtain ⟨⟨c, _, hc⟩, _⟩ := mem_fresh.mp ht
      exact ⟨s, by simp, c, hc⟩

end Round

theorem explored_discover (hm : m.Lawful) {others : List NatSet} (h : m.Explored done queue others) :
    ∃ all, m.Explored (m.discover (done ++ queue) queue) [] all := by
  generalize hkeys : done ++ queue = keys
  fun_induction discover m keys queue generalizing done others with
  | case1 keys =>
    rw [List.append_nil] at hkeys
    subst hkeys
    exact ⟨others, h⟩
  | case2 keys s rest ih =>
    subst hkeys
    exact ih (h.round hm) (by simp)

theorem explored_keys (hm : m.Lawful) : ∃ others, m.Explored m.keys [] others :=
  explored_discover hm m.explored_start

section Keys

variable (hm : m.Lawful)
include hm

theorem nodup_keys : m.keys.Nodup := by
  obtain ⟨_, h⟩ := explored_keys hm
  simpa using h.nodup

theorem getElem?_keys_zero : m.keys[0]? = some m.start := by
  obtain ⟨_, h⟩ := explored_keys hm
  have hkeys := h.keys
  rw [List.append_nil] at hkeys
  rw [hkeys]
  rfl

theorem next_mem_keys {s t : NatSet} {c : Char} (hs : s ∈ m.keys) (hst : m.next s c = some t) :
    t ∈ m.keys := by
  obtain ⟨_, h⟩ := explored_keys hm
  simpa using h.closed s hs c t hst

theorem mem_keys_iff {s : NatSet} : s ∈ m.keys ↔ ∃ w, m.Leads w s := by
  constructor
  · intro hs
    obtain ⟨_, h⟩ := explored_keys hm
    exact h.reached s (by simpa using hs)
  · intro h
    obtain ⟨w, hw⟩ := h
    induction w using List.reverseRecOn generalizing s with
    | nil =>
      rw [Machine.leads_nil.mp hw]
      exact List.mem_of_getElem? (getElem?_keys_zero hm)
    | append_singleton w c ih =>
      obtain ⟨t, ht, hts⟩ := Machine.leads_concat.mp hw
      exact next_mem_keys hm (ih ht) hts

theorem exists_precedes {s t : NatSet} (hst : Before m.keys s t) {w : List Char} (hw : m.Leads w t) :
    ∃ u, m.Leads u s ∧ Precedes u w := by
  obtain ⟨others, h⟩ := explored_keys hm
  have hkeys := h.keys
  rw [List.append_nil] at hkeys
  have hnodup := nodup_keys hm
  -- by the word: its last step enters `t`, and such a step into `s` comes from an earlier key or symbol
  induction w using List.reverseRecOn generalizing s t with
  | nil =>
    obtain ⟨as, bs, hsplit, hs⟩ := hst
    rw [Machine.leads_nil.mp hw] at hsplit
    cases as with
    | nil => cases hs
    | cons a as =>
      rw [hkeys, List.cons_append, List.cons.injEq] at hsplit
      rw [hkeys, hsplit.2, List.nodup_cons] at hnodup
      simp at hnodup
  | append_singleton w c ih =>
    obtain ⟨u, hu, hut⟩ := Machine.leads_concat.mp hw
    have humem : u ∈ m.keys := (mem_keys_iff hm).mpr ⟨w, hu⟩
    by_cases hs : s = m.start
    · exact ⟨[], Machine.leads_nil.mpr hs, Precedes.nil_concat w c⟩
    · have hothers : Before others s t := by
        obtain ⟨as, bs, hsplit, hmem⟩ := hst
        cases as with
        | nil => cases hmem
        | cons a as =>
          rw [hkeys, List.cons_append, List.cons.injEq] at hsplit
          refine ⟨as, bs, hsplit.2, ?_⟩
          rcases List.mem_cons.mp hmem with rfl | hmem
          · exact absurd hsplit.1.symm hs
          · exact hmem
      obtain ⟨v, _, b, hvb, hbefore | ⟨rfl, hbc⟩⟩ := hothers.of_pairwise h.ordered u humem c hut
      · obtain ⟨x, hx, hxw⟩ := ih hbefore hu
        exact ⟨x ++ [b], Machine.leads_concat.mpr ⟨v, hx, hvb⟩, hxw.concat⟩
      · exact ⟨w ++ [b], Machine.leads_concat.mpr ⟨v, hu, hvb⟩, Precedes.concat_of_lt w hbc⟩

end Keys

end SetMachine
end PatternAutomata
