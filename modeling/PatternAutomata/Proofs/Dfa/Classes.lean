import PatternAutomata.Proofs.Dfa.Minimality
import PatternAutomata.Proofs.Dfa.UniqueText
import PatternAutomata.Proofs.FiniteSets

/-!
# The classes behind the minimal automaton

The keys of the minimal automaton divide the start and the states on the way to an accepting state into
the classes of states with one language, in the order of their first members. In the minimal automaton
itself no state is left out and no two have the same language. Minimizing it again changes nothing but
the keys, which then hold one state each.
-/

namespace PatternAutomata.Dfa

set_option autoImplicit false

variable {d e m n : Dfa} {s : NatSet} {f g : Nat → Nat} {p q i : Nat}

/-- The keys of `m` are the classes of the states of `d` that are reached and can reach an accepting state,
and of the start. -/
structure Classes (d m : Dfa) : Prop where
  nonempty : ∀ i k, m.key? i = some k → k ≠ ∅
  disjoint : ∀ i j k l q, m.key? i = some k → m.key? j = some l → q ∈ k → q ∈ l → i = j
  covered : ∀ q, (∃ i k, m.key? i = some k ∧ q ∈ k) ↔
    q = 0 ∨ (∃ u, d.machine.Leads u q) ∧ ∃ w, w ∈ d.residual q
  same_iff : ∀ i j k l p q, m.key? i = some k → m.key? j = some l → p ∈ k → q ∈ l →
    (k = l ↔ ∀ w, w ∈ d.residual p ↔ w ∈ d.residual q)
  start : ∃ k, m.key? 0 = some k ∧ 0 ∈ k
  ordered : ∀ i j k l, i < j → m.key? i = some k → m.key? j = some l →
    ∃ p q, k.first? = some p ∧ l.first? = some q ∧ p < q

theorem exists_key?_iff : (∃ k, m.key? i = some k) ↔ i < m.size := by
  simp [← Option.isSome_iff_exists, key?, size]

namespace Collapse

variable (hm : Collapse e s m f)
include hm

theorem exists_key (hq : q ∈ s) : ∃ k, m.key? (f q) = some k ∧ q ∈ k := by
  obtain ⟨k, hk⟩ := exists_key?_iff.mpr (hm.lt q hq)
  exact ⟨k, hk, (hm.mem_key _ k hk q).mpr ⟨hq, rfl⟩⟩

theorem key_ne_empty {k : NatSet} (hk : m.key? i = some k) : k ≠ ∅ := by
  obtain ⟨q, hq, rfl⟩ := hm.onto i (exists_key?_iff.mp ⟨k, hk⟩)
  intro hempty
  exact NatSet.eq_empty_iff.mp hempty q ((hm.mem_key _ k hk q).mpr ⟨hq, rfl⟩)

theorem exists_first {k : NatSet} (hk : m.key? i = some k) : ∃ p, k.first? = some p ∧ ∀ q ∈ k, p ≤ q := by
  obtain ⟨p, hp⟩ : ∃ p, k.first? = some p := by
    apply Option.ne_none_iff_exists'.mp
    intro hnone
    obtain ⟨q, hq⟩ := NatSet.exists_mem_of_ne_empty (hm.key_ne_empty hk)
    have hmem := NatSet.mem_members.mpr hq
    rw [NatSet.first?_eq_none.mp hnone] at hmem
    cases hmem
  refine ⟨p, hp, ?_⟩
  intro q hq
  exact (NatSet.first?_eq_some.mp hp).2 (NatSet.mem_members.mpr hq)

theorem key_lt {j : Nat} {k l : NatSet} (hij : i < j) (hk : m.key? i = some k) (hl : m.key? j = some l) :
    ∃ p q, k.first? = some p ∧ l.first? = some q ∧ p < q := by
  obtain ⟨p, hp, hleast⟩ := hm.exists_first hk
  obtain ⟨q, hq, _⟩ := hm.exists_first hl
  have hmem : q ∈ l := NatSet.mem_members.mp (NatSet.first?_eq_some.mp hq).1
  obtain ⟨hqs, rfl⟩ := (hm.mem_key j l hl q).mp hmem
  -- some state of the earlier class is smaller than the first one of the later class
  obtain ⟨x, hx, hxi, hxq⟩ := hm.least q hqs i hij
  have hpx := hleast x ((hm.mem_key i k hk x).mpr ⟨hx, hxi⟩)
  exact ⟨p, q, hp, hq, Nat.lt_of_le_of_lt hpx hxq⟩

end Collapse

theorem Collapse.classes (hd : d.InRange) (hm : Collapse (d.restrict d.live) d.live m f) : Classes d m := by
  refine ⟨?nonempty, ?disjoint, ?covered, ?same_iff, ?start, ?ordered⟩
  case nonempty =>
    intro i k hk
    exact hm.key_ne_empty hk
  case disjoint =>
    intro i j k l q hk hl hqk hql
    obtain ⟨_, rfl⟩ := (hm.mem_key i k hk q).mp hqk
    exact ((hm.mem_key j l hl q).mp hql).2
  case covered =>
    intro q
    rw [← mem_live hd]
    constructor
    · intro h
      obtain ⟨i, k, hk, hq⟩ := h
      exact ((hm.mem_key i k hk q).mp hq).1
    · intro hq
      exact ⟨f q, hm.exists_key hq⟩
  case same_iff =>
    intro i j k l p q hk hl hp hq
    obtain ⟨hpl, rfl⟩ := (hm.mem_key i k hk p).mp hp
    obtain ⟨hql, rfl⟩ := (hm.mem_key j l hl q).mp hq
    rw [← Language.ext_iff, ← residual_restrict_live hd hpl, ← residual_restrict_live hd hql,
      ← hm.class_iff p hpl q hql]
    constructor
    · intro hkl
      subst hkl
      exact ((hm.mem_key _ k hl p).mp hp).2
    · intro hpq
      rw [hpq, hl] at hk
      exact (Option.some.inj hk).symm
  case start =>
    obtain ⟨k, hk⟩ := hm.exists_key (start_mem_live hd)
    rw [hm.start (start_mem_live hd)] at hk
    exact ⟨k, hk⟩
  case ordered =>
    intro i j k l hij hk hl
    exact hm.key_lt hij hk hl

/-- The keys of the minimal automaton are the classes of the live states with one language: none is empty,
no two overlap, and they stand in the order of their first members, so that the start's comes first. -/
theorem minimize_classes (hd : d.InRange) : ∃ m, d.minimize = .ok m ∧ Classes d m := by
  obtain ⟨m, _, hminimize, hm⟩ := exists_minimize hd
  exact ⟨m, hminimize, hm.classes hd⟩

theorem minimize_classes_trap : trap.InRange ∧ ∃ m, trap.minimize = .ok m ∧ Classes trap m :=
  ⟨by decide, minimize_classes (by decide)⟩

/-- Every state is live, and no two states have the same language. -/
structure Settled (d : Dfa) : Prop extends d.InRange where
  live : ∀ q, q < d.size → q ∈ d.live
  distinct : ∀ p q, p < d.size → q < d.size → d.residual p = d.residual q → p = q

theorem Collapse.settled (hd : d.InRange) (hm : Collapse (d.restrict d.live) d.live m f) : m.Settled := by
  have hrange := hm.inRange (trimmed_live hd).toClosed (start_mem_live hd)
  refine ⟨hrange, ?_, fun _ _ hp hq => hm.distinct hd hp hq⟩
  intro q hq
  apply (mem_live hrange).mpr
  by_cases hstart : q = 0
  · exact Or.inl hstart
  · exact Or.inr ⟨hm.accessible hd hq, hm.productive hd hq hstart⟩

/-- Classes of one state each, counted in the order of these states without a gap, have their numbers. -/
theorem Collapse.eq_self (hm : Collapse e s m f) (hinj : ∀ p ∈ s, ∀ q ∈ s, f p = f q → p = q)
    (hbelow : ∀ p ∈ s, ∀ q, q < p → q ∈ s) : ∀ q ∈ s, f q = q := by
  intro q
  induction q using Nat.strongRecOn with
  | ind q ih =>
    intro hq
    rcases Nat.lt_trichotomy (f q) q with hlt | heq | hgt
    · have hmem := hbelow q hq (f q) hlt
      exact hinj (f q) hmem q hq (ih (f q) hlt hmem)
    · exact heq
    · obtain ⟨p, hp, hpq, hlt⟩ := hm.least q hq q hgt
      rw [ih p hlt hp] at hpq
      exact absurd hpq (Nat.ne_of_lt hlt)

namespace Settled

theorem mem_live_iff (hd : d.Settled) : q ∈ d.live ↔ q < d.size :=
  ⟨lt_of_mem_live hd.toInRange, hd.live q⟩

theorem next?_restrict_live (hd : d.Settled) (q : Nat) (c : Char) : (d.restrict d.live).next? q c = d.next? q c := by
  apply Option.ext
  intro t
  rw [next?_restrict, hd.mem_live_iff]
  exact and_iff_left_of_imp fun ht => hd.targets_lt q c t ht

section Minimal

variable (hd : d.Settled) (hm : Collapse (d.restrict d.live) d.live m f)
include hd hm

theorem index_eq (hq : q < d.size) : f q = q := by
  have hinj : ∀ p ∈ d.live, ∀ q ∈ d.live, f p = f q → p = q := by
    intro p hp q hq hpq
    have hres := (hm.class_iff p hp q hq).mp hpq
    rw [residual_restrict_live hd.toInRange hp, residual_restrict_live hd.toInRange hq] at hres
    exact hd.distinct p q (hd.mem_live_iff.mp hp) (hd.mem_live_iff.mp hq) hres
  have hbelow : ∀ p ∈ d.live, ∀ q, q < p → q ∈ d.live := by
    intro p hp q hqp
    exact hd.live q (Nat.lt_trans hqp (hd.mem_live_iff.mp hp))
  exact hm.eq_self hinj hbelow q (hd.live q hq)

theorem size_eq : m.size = d.size := by
  apply Nat.le_antisymm
  · apply Nat.le_of_not_lt
    intro hlt
    obtain ⟨q, hq, hqd⟩ := hm.onto d.size hlt
    rw [hd.index_eq hm (hd.mem_live_iff.mp hq)] at hqd
    exact Nat.ne_of_lt (hd.mem_live_iff.mp hq) hqd
  · apply Nat.le_of_not_lt
    intro hlt
    have h := hm.lt m.size (hd.live m.size hlt)
    rw [hd.index_eq hm hlt] at h
    exact Nat.lt_irrefl _ h

theorem accepts_eq (q : Nat) : m.accepts q = d.accepts q := by
  by_cases hq : q < d.size
  · have h := hm.accepts q (hd.live q hq)
    rwa [hd.index_eq hm hq, accepts_restrict] at h
  · have hmq : ¬ m.accepts q = true := fun h => hq (hd.size_eq hm ▸ lt_of_accepts h)
    have hdq : ¬ d.accepts q = true := fun h => hq (lt_of_accepts h)
    rw [Bool.eq_false_of_not_eq_true hmq, Bool.eq_false_of_not_eq_true hdq]

theorem next?_eq (q : Nat) (c : Char) : m.next? q c = d.next? q c := by
  by_cases hq : q < d.size
  · have h := hm.next q (hd.live q hq) c
    rw [hd.index_eq hm hq, hd.next?_restrict_live] at h
    rw [h]
    cases ht : d.next? q c with
    | none => rfl
    | some t => rw [Option.map_some, hd.index_eq hm (hd.targets_lt q c t ht)]
  · have hmq : ∀ t, m.next? q c ≠ some t := fun t h => hq (hd.size_eq hm ▸ lt_of_next? h)
    have hdq : ∀ t, d.next? q c ≠ some t := fun t h => hq (lt_of_next? h)
    rw [Option.eq_none_iff_forall_ne_some.mpr hmq, Option.eq_none_iff_forall_ne_some.mpr hdq]

theorem sameNumbering : SameNumbering d m :=
  .of_next (hd.size_eq hm).symm (fun q => (hd.accepts_eq hm q).symm) fun q c => (hd.next?_eq hm q c).symm

theorem key?_eq_some (hq : q < m.size) : m.key? q = some (.singleton q) := by
  obtain ⟨k, hk⟩ := exists_key?_iff.mpr hq
  rw [hk, Option.some.injEq]
  apply NatSet.ext_mem
  intro p
  rw [hm.mem_key q k hk, hd.mem_live_iff, NatSet.mem_singleton]
  constructor
  · intro h
    obtain ⟨hp, hpq⟩ := h
    rwa [hd.index_eq hm hp] at hpq
  · intro h
    subst h
    rw [hd.size_eq hm] at hq
    exact ⟨hq, hd.index_eq hm hq⟩

end Minimal

end Settled

/-- If minimization has changed nothing but the keys, it changes nothing at all any more. -/
theorem Settled.eq_of_key (hd : d.Settled) (hm : Collapse (d.restrict d.live) d.live m f)
    (hkind : d.kind = .classes) (hkey : ∀ q, q < d.size → d.key? q = some (.singleton q)) : m = d := by
  have hstates : m.states = d.states := by
    apply states_eq (hd.size_eq hm)
    intro q
    refine ⟨?_, hd.accepts_eq hm q, hd.next?_eq hm q⟩
    by_cases hq : q < d.size
    · rw [hkey q hq, hd.key?_eq_some hm (by rwa [hd.size_eq hm])]
    · have hnone : ∀ e : Dfa, e.size = d.size → e.key? q = none := by
        intro e he
        apply Option.eq_none_iff_forall_ne_some.mpr
        intro k hk
        exact hq (he ▸ exists_key?_iff.mp ⟨k, hk⟩)
      rw [hnone m (hd.size_eq hm), hnone d rfl]
  cases m
  cases d
  simp only [Dfa.mk.injEq]
  exact ⟨hm.kind.trans hkind.symm, hstates⟩

/-- The minimal automaton is minimized to itself, numbers included, with every state as its own class, and
minimizing once more gives the same value. -/
theorem minimize_twice (hd : d.InRange) :
    ∃ m n, d.minimize = .ok m ∧ m.minimize = .ok n ∧ SameNumbering m n ∧
      (∀ q, q < n.size → n.key? q = some (.singleton q)) ∧ n.minimize = .ok n := by
  obtain ⟨m, _, hminimize, hm⟩ := exists_minimize hd
  have hsettled := hm.settled hd
  obtain ⟨n, _, hminimize', hn⟩ := exists_minimize hsettled.toInRange
  have hsettled' := hn.settled hsettled.toInRange
  obtain ⟨k, _, hminimize'', hk⟩ := exists_minimize hsettled'.toInRange
  have hkeys : ∀ q, q < n.size → n.key? q = some (.singleton q) := fun q hq => hsettled.key?_eq_some hn hq
  rw [hsettled'.eq_of_key hk hn.kind hkeys] at hminimize''
  exact ⟨m, n, hminimize, hminimize', hsettled.sameNumbering hn, hkeys, hminimize''⟩

theorem minimize_twice_trap : trap.InRange ∧
    ∃ m n, trap.minimize = .ok m ∧ m.minimize = .ok n ∧ SameNumbering m n ∧
      (∀ q, q < n.size → n.key? q = some (.singleton q)) ∧ n.minimize = .ok n :=
  ⟨by decide, minimize_twice (by decide)⟩

end PatternAutomata.Dfa
