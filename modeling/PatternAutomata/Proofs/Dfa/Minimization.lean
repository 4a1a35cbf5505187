import PatternAutomata.Proofs.Dfa.Live

/-!
# The minimal automaton

The blocks of the last partition, in order of their first states, become the states of the minimal
automaton (`Dfa.Collapse`). It has the language of the automaton it is made from, and its states have
different languages, so no automaton for that language has fewer. If the one it is made from is numbered
in the order of its least words, so is the minimal one, and it is canonical as soon as some word is
accepted.
-/

namespace PatternAutomata.Dfa

set_option autoImplicit false

variable {d e m : Dfa} {p : Partition} {b : Block} {s : NatSet} {f : Nat → Nat} {q t i : Nat} {w : List Char}

def inOrder (p : Partition) : Partition := p.mergeSort fun a b => decide (a.representative ≤ b.representative)

theorem inOrder_perm (p : Partition) : (inOrder p).Perm p := List.mergeSort_perm p _

theorem inOrder_pairwise (p : Partition) :
    (inOrder p).Pairwise fun a b => a.representative ≤ b.representative := by
  have htrans : ∀ a b c : Block, decide (a.representative ≤ b.representative) = true →
      decide (b.representative ≤ c.representative) = true →
        decide (a.representative ≤ c.representative) = true := by
    simp only [decide_eq_true_eq]
    omega
  have htotal : ∀ a b : Block, (decide (a.representative ≤ b.representative) ||
      decide (b.representative ≤ a.representative)) = true := by
    simp only [Bool.or_eq_true, decide_eq_true_eq]
    omega
  exact (List.pairwise_mergeSort htrans htotal p).imp of_decide_eq_true

def collapsed (d : Dfa) (p : Partition) (b : Block) : State :=
  ⟨NatSet.ofList b.members, (NatSet.ofList b.members).intersects d.accepting, d.profile p b.representative⟩

theorem agree_eq_ok {classes : Array (Option Nat)} {expected : List (Char × Nat)} {qs : List Nat}
    (h : ∀ q ∈ qs, d.signature classes q = .ok expected) : d.agree classes expected qs = .ok () := by
  induction qs with
  | nil => rfl
  | cons q qs ih =>
    obtain ⟨hq, hqs⟩ := List.forall_mem_cons.mp h
    rw [agree, hq]
    simpa [Except.bind] using ih hqs

theorem blockState_eq (hd : d.Trimmed s) (hp : p.Divides s) (hclass : d.ByLanguage s p) (hb : b ∈ p) :
    d.blockState (p.classes d.size) b = .ok (d.collapsed p b) := by
  have hsignature : ∀ q ∈ b.members,
      d.signature (p.classes d.size) q = .ok (d.profile p b.representative).toList := by
    intro q hq
    rw [signature_eq hd.toClosed hp (hp.mem_iff.mpr ⟨b, hb, hq⟩)]
    rw [hclass.profile_eq hd hp ⟨b, hb, hq, List.mem_cons_self⟩]
  obtain ⟨hfirst, hothers⟩ := List.forall_mem_cons.mp hsignature
  rw [blockState, hfirst]
  simp only [Except.bind, agree_eq_ok hothers, Except.map, Row.ofList_toList, collapsed]

def ofBlocks (d : Dfa) (p : Partition) : Dfa := ⟨.classes, (p.map (d.collapsed p)).toArray⟩

@[simp] theorem size_ofBlocks (d : Dfa) (p : Partition) : (d.ofBlocks p).size = p.length := by
  simp [ofBlocks, size]

theorem key?_ofBlocks (d : Dfa) (p : Partition) (i : Nat) :
    (d.ofBlocks p).key? i = (p[i]?).map fun b => NatSet.ofList b.members := by
  simp [ofBlocks, key?, Function.comp_def, collapsed]

theorem accepts_ofBlocks (hb : p[i]? = some b) :
    (d.ofBlocks p).accepts i = (NatSet.ofList b.members).intersects d.accepting := by
  simp [ofBlocks, Dfa.accepts, hb, collapsed]

theorem next?_ofBlocks {c : Char} (hb : p[i]? = some b) :
    (d.ofBlocks p).next? i c = (d.profile p b.representative).get? c := by
  simp [ofBlocks, next?, row, hb, collapsed]

theorem quotient_eq (hd : d.Trimmed s) (hp : (inOrder p).Divides s) (hclass : d.ByLanguage s (inOrder p)) :
    d.quotient p = .ok (d.ofBlocks (inOrder p)) := by
  have hstates : (inOrder p).mapM (d.blockState ((inOrder p).classes d.size)) =
      .ok ((inOrder p).map (d.collapsed (inOrder p))) :=
    mapM_eq_ok fun b hb => blockState_eq hd hp hclass hb
  unfold quotient
  change Except.map _ ((inOrder p).mapM (d.blockState ((inOrder p).classes d.size))) = _
  rw [hstates]
  rfl

/-- The states of `m` stand for the classes of the states in `s` with one language: `f` gives a state
its class, and a key holds the states of its class. The classes are numbered in the order of their first
states. -/
structure Collapse (e : Dfa) (s : NatSet) (m : Dfa) (f : Nat → Nat) : Prop where
  kind : m.kind = .classes
  mem_key : ∀ i k, m.key? i = some k → ∀ q, q ∈ k ↔ q ∈ s ∧ f q = i
  lt : ∀ q ∈ s, f q < m.size
  onto : ∀ i, i < m.size → ∃ q ∈ s, f q = i
  accepts : ∀ q ∈ s, m.accepts (f q) = e.accepts q
  next : ∀ q ∈ s, ∀ c, m.next? (f q) c = (e.next? q c).map f
  class_iff : ∀ x ∈ s, ∀ y ∈ s, f x = f y ↔ e.residual x = e.residual y
  least : ∀ x ∈ s, ∀ i, i < f x → ∃ q ∈ s, f q = i ∧ q < x

section Blocks

variable (hp : p.Divides s)
include hp

theorem mem_key_ofBlocks {k : NatSet} (hk : (d.ofBlocks p).key? i = some k) (q : Nat) :
    q ∈ k ↔ q ∈ s ∧ p.index q = i := by
  rw [key?_ofBlocks, Option.map_eq_some_iff] at hk
  obtain ⟨b, hb, rfl⟩ := hk
  rw [NatSet.mem_ofList]
  constructor
  · intro hq
    have hs : q ∈ s := hp.mem_iff.mpr ⟨b, List.mem_of_getElem? hb, hq⟩
    exact ⟨hs, (hp.index_eq_iff hs).mpr ⟨b, hb, hq⟩⟩
  · intro h
    obtain ⟨hs, hi⟩ := h
    obtain ⟨c, hc, hq⟩ := (hp.index_eq_iff hs).mp hi
    rw [hb, Option.some.injEq] at hc
    rwa [hc]

theorem exists_index_lt (horder : p.Pairwise fun a b => a.representative ≤ b.representative) {x : Nat}
    (hx : x ∈ s) (hi : i < p.index x) : ∃ q ∈ s, p.index q = i ∧ q < x := by
  obtain ⟨b, hb, hxb⟩ := (hp.index_eq_iff hx).mp rfl
  obtain ⟨a, ha⟩ : ∃ a, p[i]? = some a := ⟨_, List.getElem?_eq_getElem (Nat.lt_trans hi (hp.index_lt hx))⟩
  have hindex := hp.index_representative ha
  refine ⟨a.representative, hp.representative_mem ha, hindex, ?_⟩
  have hfirst := hp.representative_le (List.mem_of_getElem? hb) hxb
  have hle : a.representative ≤ b.representative := by
    obtain ⟨hip, rfl⟩ := List.getElem?_eq_some_iff.mp ha
    obtain ⟨hjp, rfl⟩ := List.getElem?_eq_some_iff.mp hb
    exact List.pairwise_iff_getElem.mp horder i _ hip hjp hi
  have hne : a.representative ≠ x := by
    intro h
    rw [h] at hindex
    omega
  omega

theorem accepts_index (hclass : d.ByLanguage s p) (hq : q ∈ s) :
    (d.ofBlocks p).accepts (p.index q) = d.accepts q := by
  obtain ⟨b, hb, hqb⟩ := (hp.index_eq_iff hq).mp rfl
  rw [accepts_ofBlocks hb, Bool.eq_iff_iff, NatSet.intersects_iff]
  simp only [NatSet.mem_ofList, mem_accepting]
  constructor
  · intro h
    obtain ⟨x, hx, hx'⟩ := h
    rwa [(hclass.separates hp).accepts q x ⟨b, List.mem_of_getElem? hb, hqb, hx⟩]
  · intro h
    exact ⟨q, hqb, h⟩

theorem next?_index (hd : d.Trimmed s) (hclass : d.ByLanguage s p) (hq : q ∈ s) (c : Char) :
    (d.ofBlocks p).next? (p.index q) c = (d.next? q c).map p.index := by
  obtain ⟨b, hb, hqb⟩ := (hp.index_eq_iff hq).mp rfl
  have hsame : p.Same b.representative q := ⟨b, List.mem_of_getElem? hb, List.mem_cons_self, hqb⟩
  rw [next?_ofBlocks hb, hclass.profile_eq hd hp hsame, profile, Row.get?_map]
  rfl

theorem collapse_blocks (hd : d.Trimmed s) (hclass : d.ByLanguage s p)
    (horder : p.Pairwise fun a b => a.representative ≤ b.representative) :
    Collapse d s (d.ofBlocks p) p.index := by
  refine ⟨rfl, ?_, ?_, ?_, ?_, ?_, ?_, ?_⟩
  · intro i k hk q
    exact mem_key_ofBlocks hp hk q
  · intro q hq
    rw [size_ofBlocks]
    exact hp.index_lt hq
  · intro i hi
    rw [size_ofBlocks] at hi
    have hb := List.getElem?_eq_getElem hi
    exact ⟨_, hp.representative_mem hb, hp.index_representative hb⟩
  · intro q hq
    exact accepts_index hp hclass hq
  · intro q hq c
    exact next?_index hp hd hclass hq c
  · intro x hx y hy
    rw [← hp.same_iff_index hx hy, hclass x hx y hy]
  · intro x hx i hi
    exact exists_index_lt hp horder hx hi

end Blocks

/-- The rounds end with the classes of the live states by their languages, and these become the states. -/
theorem exists_blocks (hd : d.InRange) :
    ∃ p, (d.restrict d.live).stabilize ((d.restrict d.live).split d.live) = .ok p ∧ p.Divides d.live ∧
      (d.restrict d.live).ByLanguage d.live (inOrder p) ∧
      d.minimize = .ok ((d.restrict d.live).ofBlocks (inOrder p)) := by
  have htrimmed := trimmed_live hd
  obtain ⟨p, hp, hdivides, hclass⟩ := exists_stabilize_split htrimmed
  have hclass' : (d.restrict d.live).ByLanguage d.live (inOrder p) := by
    intro x hx y hy
    rw [Partition.same_of_perm (inOrder_perm p)]
    exact hclass x hx y hy
  refine ⟨p, hp, hdivides, hclass', ?_⟩
  unfold minimize
  simp only [hp, Except.bind]
  exact quotient_eq htrimmed (hdivides.of_perm (inOrder_perm p)) hclass'

theorem exists_minimize (hd : d.InRange) :
    ∃ m f, d.minimize = .ok m ∧ Collapse (d.restrict d.live) d.live m f := by
  obtain ⟨p, _, hdivides, hclass, hminimize⟩ := exists_blocks hd
  have hdivides' := hdivides.of_perm (inOrder_perm p)
  exact ⟨_, _, hminimize, collapse_blocks hdivides' (trimmed_live hd) hclass (inOrder_pairwise p)⟩

namespace Collapse

theorem start (hm : Collapse e s m f) (hs : 0 ∈ s) : f 0 = 0 := by
  rcases Nat.eq_zero_or_pos (f 0) with h | h
  · exact h
  · obtain ⟨q, _, _, hq⟩ := hm.least 0 hs 0 h
    exact absurd hq (Nat.not_lt_zero q)

theorem walk_eq (hm : Collapse e s m f) (he : e.Closed s) (hq : q ∈ s) (w : List Char) :
    m.machine.walk (f q) w = (e.machine.walk q w).map f := by
  induction w generalizing q with
  | nil => rfl
  | cons c w ih =>
    have hnext : m.machine.next (f q) c = (e.machine.next q c).map f := hm.next q hq c
    rw [Machine.walk_cons, Machine.walk_cons, hnext]
    cases ht : e.machine.next q c with
    | none => rfl
    | some t => exact ih (he.edges q hq c t ht)

theorem walk_mem (he : e.Closed s) (hq : q ∈ s) (h : e.machine.walk q w = some t) : t ∈ s := by
  induction w generalizing q with
  | nil =>
    cases h
    exact hq
  | cons c w ih =>
    obtain ⟨r, hr, hrt⟩ := Option.bind_eq_some_iff.mp h
    exact ih (he.edges q hq c r hr) hrt

theorem residual_eq (hm : Collapse e s m f) (he : e.Closed s) (hq : q ∈ s) :
    m.residual (f q) = e.residual q := by
  apply Language.ext
  intro w
  rw [mem_residual, mem_residual, hm.walk_eq he hq]
  cases ht : e.machine.walk q w with
  | none => rfl
  | some t =>
    rw [Option.map_some, Option.any_some, Option.any_some, hm.accepts t (walk_mem he hq ht)]

theorem inRange (hm : Collapse e s m f) (he : e.Closed s) (hs : 0 ∈ s) : m.InRange := by
  constructor
  · exact Nat.zero_lt_of_lt (hm.lt 0 hs)
  · intro i c j hij
    obtain ⟨q, hq, rfl⟩ := hm.onto i (lt_of_next? hij)
    rw [hm.next q hq c, Option.map_eq_some_iff] at hij
    obtain ⟨t, ht, rfl⟩ := hij
    exact hm.lt t (he.edges q hq c t ht)

end Collapse

section Minimal

variable (hd : d.InRange) (hm : Collapse (d.restrict d.live) d.live m f)
include hd hm

theorem Collapse.residual_live (hq : q ∈ d.live) : m.residual (f q) = d.residual q := by
  rw [hm.residual_eq (trimmed_live hd).toClosed hq, residual_restrict_live hd hq]

theorem Collapse.language_eq : m.language = d.language := by
  have h := hm.residual_live hd (start_mem_live hd)
  rwa [hm.start (start_mem_live hd)] at h

/-- The edges that the live states keep are edges of the whole automaton, so a run stops no later. -/
theorem Collapse.read_le (w : List Char) : (m.run w).read ≤ (d.run w).read := by
  refine Machine.runFrom_read_le_of_step m.machine d.machine (fun i q => q ∈ d.live ∧ f q = i) ?_
    ⟨start_mem_live hd, hm.start (start_mem_live hd)⟩ w
  intro i q c j hiq hij
  obtain ⟨hq, rfl⟩ := hiq
  obtain ⟨t, ht, rfl⟩ := Option.map_eq_some_iff.mp ((hm.next q hq c).symm.trans hij)
  exact ⟨t, (next?_restrict.mp ht).1, (trimmed_live hd).edges q hq c t ht, rfl⟩

theorem Collapse.leads_iff : m.machine.Leads w i ↔
    ∃ q, (d.restrict d.live).machine.Leads w q ∧ f q = i := by
  have h := hm.walk_eq (trimmed_live hd).toClosed (start_mem_live hd) w
  rw [hm.start (start_mem_live hd)] at h
  change m.machine.walk 0 w = some i ↔ _
  rw [h, Option.map_eq_some_iff]
  exact Iff.rfl

omit hm in
theorem leads_restrict_live (hw : d.machine.Leads w q) (hword : ∃ v, v ∈ d.residual q) :
    (d.restrict d.live).machine.Leads w q := by
  obtain ⟨v, hv⟩ := hword
  exact walk_restrict_live hd (u := []) (Machine.leads_nil.mpr rfl) hw hv

theorem Collapse.accessible (hi : i < m.size) : ∃ w, m.machine.Leads w i := by
  obtain ⟨q, hq, rfl⟩ := hm.onto i hi
  rcases (mem_live hd).mp hq with rfl | ⟨⟨w, hw⟩, hword⟩
  · exact ⟨[], Machine.leads_nil.mpr (hm.start (start_mem_live hd))⟩
  · exact ⟨w, (hm.leads_iff hd).mpr ⟨q, leads_restrict_live hd hw hword, rfl⟩⟩

theorem Collapse.distinct {j : Nat} (hi : i < m.size) (hj : j < m.size)
    (hij : m.residual i = m.residual j) : i = j := by
  have hclosed := (trimmed_live hd).toClosed
  obtain ⟨x, hx, rfl⟩ := hm.onto i hi
  obtain ⟨y, hy, rfl⟩ := hm.onto j hj
  rw [hm.residual_eq hclosed hx, hm.residual_eq hclosed hy] at hij
  exact (hm.class_iff x hx y hy).mpr hij

/-- The start is kept even if it accepts no word; from every other state some word is accepted. -/
theorem Collapse.productive (hi : i < m.size) (hstart : i ≠ 0) : ∃ w, w ∈ m.residual i := by
  obtain ⟨q, hq, rfl⟩ := hm.onto i hi
  rw [hm.residual_live hd hq]
  rcases (mem_live hd).mp hq with rfl | ⟨_, hword⟩
  · exact absurd (hm.start hq) hstart
  · exact hword

/-- The word that leads to a state leads to one with the same language in every automaton for the same
words, so no such automaton has fewer states. -/
theorem Collapse.size_le (he : e.InRange) (hlang : m.language = e.language) : m.size ≤ e.size := by
  apply size_le_of_residual fun _ _ hi hj => hm.distinct hd hi hj
  intro i hi
  by_cases hstart : i = 0
  · subst hstart
    exact ⟨0, he.nonempty, hlang⟩
  · obtain ⟨u, hu⟩ := hm.accessible hd hi
    obtain ⟨w, hw⟩ := hm.productive hd hi hstart
    obtain ⟨t, ht, hres⟩ := walk_of_residual hlang hu hw
    exact ⟨t, he.leads_lt ht, hres⟩

theorem Collapse.numbered (hnumbered : d.Numbered) : m.Numbered := by
  have hclosed := (trimmed_live hd).toClosed
  refine ⟨fun _ hi => hm.accessible hd hi, ?_⟩
  intro i j hij hj w hw
  obtain ⟨t, ht, rfl⟩ := (hm.leads_iff hd).mp hw
  have htlive : t ∈ d.live := Collapse.walk_mem hclosed (start_mem_live hd) ht
  obtain ⟨q, hq, rfl, hqt⟩ := hm.least t htlive i hij
  obtain ⟨u, hu, huw⟩ := hnumbered.ordered q t hqt (lt_of_mem_live hd htlive) w (walk_of_restrict ht)
  have hword := exists_word_of_live hd hq htlive (Nat.ne_of_lt hqt)
  exact ⟨u, (hm.leads_iff hd).mpr ⟨q, leads_restrict_live hd hu hword, rfl⟩, huw⟩

theorem Collapse.canonical (hnumbered : d.Numbered) (hword : ∃ w, w ∈ d.language) : m.Canonical := by
  have hrange := hm.inRange (trimmed_live hd).toClosed (start_mem_live hd)
  refine ⟨hrange, hm.numbered hd hnumbered, ?_, fun _ _ hi hj => hm.distinct hd hi hj⟩
  intro i c j hij
  by_cases hj : j = 0
  · subst hj
    rwa [← hm.language_eq hd] at hword
  · exact hm.productive hd (hrange.targets_lt i c j hij) hj

end Minimal

end PatternAutomata.Dfa
