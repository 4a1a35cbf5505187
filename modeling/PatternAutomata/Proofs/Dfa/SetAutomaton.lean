import Mathlib.Data.List.Sort
import PatternAutomata.Proofs.Dfa.Residual
import PatternAutomata.Proofs.Discovery

/-!
# Automata whose states are sets

The automaton that a search builds has the sets it has found for states. A state moves and accepts as
its set does, so a run over numbers is a run over sets. Only the steps of a machine count, not the
symbols that it knows but never uses, and a map between set machines that commutes with their steps
becomes a map between the states of their automata.
-/

namespace PatternAutomata

set_option autoImplicit false

namespace SetMachine

variable {m : SetMachine} {kind : KeyKind} {q r : Nat} {s : NatSet} {c : Char} {w : List Char}

@[simp] theorem size_toDfa (m : SetMachine) (kind : KeyKind) : (m.toDfa kind).size = m.keys.length := by
  simp [toDfa, Dfa.size]

theorem states_toDfa (m : SetMachine) (kind : KeyKind) (q : Nat) :
    (m.toDfa kind).states[q]? = m.keys[q]?.map fun s =>
      { key := s
        accept := m.accepts s
        row := .tabulate m.alphabet fun c => (m.next s c).bind fun t => m.keys.idxOf? t } := by
  simp [toDfa]

theorem accepts_toDfa (hq : m.keys[q]? = some s) : (m.toDfa kind).accepts q = m.accepts s := by
  rw [Dfa.accepts, states_toDfa, hq]
  rfl

theorem key?_toDfa (m : SetMachine) (kind : KeyKind) (q : Nat) : (m.toDfa kind).key? q = m.keys[q]? := by
  rw [Dfa.key?, states_toDfa, Option.map_map]
  exact Option.map_id'

theorem idxOf?_eq_some {α : Type} [DecidableEq α] {keys : List α} (hkeys : keys.Nodup) {t : α} :
    keys.idxOf? t = some r ↔ keys[r]? = some t := by
  rw [List.idxOf?_eq_some_iff, List.getElem?_eq_some_iff]
  constructor
  · intro h
    obtain ⟨hr, he, _⟩ := h
    exact ⟨hr, by simpa using he⟩
  · intro h
    obtain ⟨hr, he⟩ := h
    refine ⟨hr, by simpa using he, ?_⟩
    intro j hj
    have hne : keys[j] ≠ keys[r] := by
      intro h
      have := (hkeys.getElem_inj_iff).mp h
      omega
    rw [he] at hne
    simpa using hne

section Lawful

variable (hm : m.Lawful)
include hm

theorem next?_toDfa_eq_some (hq : m.keys[q]? = some s) :
    (m.toDfa kind).next? q c = some r ↔ ∃ t, m.next s c = some t ∧ m.keys[r]? = some t := by
  have hrow : (m.toDfa kind).row q =
      .tabulate m.alphabet fun c => (m.next s c).bind fun t => m.keys.idxOf? t := by
    rw [Dfa.row, states_toDfa, hq]
    rfl
  rw [Dfa.next?, hrow, Row.get?_tabulate]
  split
  · simp only [Option.bind_eq_some_iff, idxOf?_eq_some (nodup_keys hm)]
  · rename_i hc
    simp only [reduceCtorEq, false_iff, not_exists, not_and]
    intro t ht
    exact absurd (hm.known ht) hc

theorem next?_toDfa_eq_none (hq : m.keys[q]? = some s) :
    (m.toDfa kind).next? q c = none ↔ m.next s c = none := by
  simp only [Option.eq_none_iff_forall_ne_some, ne_eq, next?_toDfa_eq_some hm hq]
  constructor
  · intro h t ht
    obtain ⟨r, hr⟩ := List.mem_iff_getElem?.mp (next_mem_keys hm (List.mem_of_getElem? hq) ht)
    exact h r ⟨t, ht, hr⟩
  · intro h r h'
    obtain ⟨t, ht, _⟩ := h'
    exact h t ht

/-- From a state the automaton runs as the machine does from its key. -/
theorem runFrom_toDfa (hq : m.keys[q]? = some s) (w : List Char) :
    (m.toDfa kind).machine.runFrom q w = m.toMachine.runFrom s w := by
  induction w generalizing q s with
  | nil =>
    have haccept : (m.toDfa kind).machine.accepts q = m.accepts s := accepts_toDfa hq
    rw [Machine.runFrom, Machine.runFrom, haccept]
  | cons c w ih =>
    rw [Machine.runFrom, Machine.runFrom]
    have hnext : (m.toDfa kind).machine.next q c = (m.toDfa kind).next? q c := rfl
    rw [hnext]
    cases hr : (m.toDfa kind).next? q c with
    | none => rw [(next?_toDfa_eq_none hm hq).mp hr]
    | some r =>
      obtain ⟨t, ht, hrt⟩ := (next?_toDfa_eq_some hm hq).mp hr
      rw [ht]
      simp only [ih hrt]

theorem run_toDfa (w : List Char) : (m.toDfa kind).run w = m.toMachine.run w :=
  runFrom_toDfa hm (getElem?_keys_zero hm) w

theorem leads_toDfa : (m.toDfa kind).machine.Leads w q ↔ ∃ s, m.keys[q]? = some s ∧ m.Leads w s := by
  have hstart := getElem?_keys_zero hm
  induction w using List.reverseRecOn generalizing q with
  | nil =>
    simp only [Machine.leads_nil]
    constructor
    · intro h
      obtain rfl := h
      exact ⟨m.start, hstart, rfl⟩
    · intro h
      obtain ⟨s, hq, rfl⟩ := h
      have hzero := (idxOf?_eq_some (nodup_keys hm)).mpr hstart
      rw [(idxOf?_eq_some (nodup_keys hm)).mpr hq, Option.some.injEq] at hzero
      exact hzero
  | append_singleton w c ih =>
    simp only [Machine.leads_concat, ih]
    constructor
    · intro h
      obtain ⟨p, ⟨s, hp, hs⟩, hpq⟩ := h
      obtain ⟨t, hst, hq⟩ := (next?_toDfa_eq_some hm hp).mp hpq
      exact ⟨t, hq, s, hs, hst⟩
    · intro h
      obtain ⟨t, hq, s, hs, hst⟩ := h
      obtain ⟨p, hp⟩ := List.mem_iff_getElem?.mp ((mem_keys_iff hm).mpr ⟨w, hs⟩)
      exact ⟨p, ⟨s, hp, hs⟩, (next?_toDfa_eq_some hm hp).mpr ⟨t, hst, hq⟩⟩

theorem walk_toDfa (w : List Char) :
    ((m.toDfa kind).machine.walk 0 w).bind (m.toDfa kind).key? = m.toMachine.walk m.start w := by
  apply Option.ext
  intro s
  simp only [Option.bind_eq_some_iff, key?_toDfa]
  constructor
  · intro h
    obtain ⟨q, hq, hs⟩ := h
    obtain ⟨t, ht, hw⟩ := (leads_toDfa hm).mp hq
    obtain rfl : s = t := Option.some.inj (hs.symm.trans ht)
    exact hw
  · intro h
    obtain ⟨q, hq⟩ := List.mem_iff_getElem?.mp ((mem_keys_iff hm).mpr ⟨w, h⟩)
    exact ⟨q, (leads_toDfa hm).mpr ⟨s, hq, h⟩, hq⟩

theorem wellFormed_toDfa : (m.toDfa kind).WellFormed := by
  refine ⟨?_, ?_, ?_⟩
  · rw [size_toDfa]
    exact (List.getElem?_eq_some_iff.mp (getElem?_keys_zero hm)).1
  · simpa [toDfa, Function.comp_def] using nodup_keys hm
  · intro q c t h
    have hq : q < m.keys.length := by simpa using Dfa.lt_of_next? h
    obtain ⟨x, _, hx⟩ := (next?_toDfa_eq_some hm (List.getElem?_eq_getElem hq)).mp h
    rw [size_toDfa]
    exact (List.getElem?_eq_some_iff.mp hx).1

theorem numbered_toDfa : (m.toDfa kind).Numbered := by
  constructor
  · intro q hq
    rw [size_toDfa] at hq
    obtain ⟨w, hw⟩ := (mem_keys_iff hm).mp (List.getElem_mem hq)
    exact ⟨w, (leads_toDfa hm).mpr ⟨_, List.getElem?_eq_getElem hq, hw⟩⟩
  · intro p q hpq hq w hw
    obtain ⟨t, ht, hwt⟩ := (leads_toDfa hm).mp hw
    rw [size_toDfa] at hq
    have hp := List.getElem?_eq_getElem (Nat.lt_trans hpq hq)
    obtain ⟨u, hu, huw⟩ := exists_precedes hm (Before.of_getElem? hpq hp ht) hwt
    exact ⟨u, (leads_toDfa hm).mpr ⟨_, hp, hu⟩, huw⟩

end Lawful

/-- A function has the same values on all alphabets outside of which it has none. -/
theorem filterMap_eq_of_known {β : Type} {cs ds : List Char} {f : Char → Option β}
    (hcs : cs.Pairwise fun a b => a.toNat < b.toNat) (hds : ds.Pairwise fun a b => a.toNat < b.toNat)
    (hc : ∀ c t, f c = some t → c ∈ cs) (hd : ∀ c t, f c = some t → c ∈ ds) :
    cs.filterMap f = ds.filterMap f := by
  have hirrefl : Std.Irrefl fun a b : Char => a.toNat < b.toNat := ⟨fun a => Nat.lt_irrefl a.toNat⟩
  have hantisymm : Std.Antisymm fun a b : Char => a.toNat < b.toNat := ⟨fun a b hab hba => by omega⟩
  have hused : cs.filter (fun c => (f c).isSome) = ds.filter fun c => (f c).isSome := by
    apply (hcs.filter _).eq_of_mem_iff (hds.filter _)
    intro c
    simp only [List.mem_filter, Option.isSome_iff_exists]
    constructor
    · intro h
      obtain ⟨_, t, ht⟩ := h
      exact ⟨hd c t ht, t, ht⟩
    · intro h
      obtain ⟨_, t, ht⟩ := h
      exact ⟨hc c t ht, t, ht⟩
  have hdrop : ∀ es : List Char, (es.filter fun c => (f c).isSome).filterMap f = es.filterMap f := by
    intro es
    rw [List.filterMap_filter]
    apply List.filterMap_congr
    intro c _
    cases f c with
    | none => rfl
    | some t => rfl
  rw [← hdrop cs, hused, hdrop]

section Congruence

variable {k : SetMachine} (hm : m.Lawful) (hk : k.Lawful) (h : m.toMachine = k.toMachine)
include hm hk h

theorem filterMap_next_congr {β : Type} (s : NatSet) (f : Char → NatSet → Option β) :
    (m.alphabet.filterMap fun c => (m.next s c).bind (f c)) =
      k.alphabet.filterMap fun c => (k.next s c).bind (f c) := by
  have hnext : m.next = k.next := congrArg Machine.next h
  rw [← hnext]
  apply filterMap_eq_of_known hm.ascending hk.ascending
  · intro c t hc
    obtain ⟨u, hu, _⟩ := Option.bind_eq_some_iff.mp hc
    exact hm.known hu
  · intro c t hc
    obtain ⟨u, hu, _⟩ := Option.bind_eq_some_iff.mp hc
    rw [hnext] at hu
    exact hk.known hu

theorem fresh_congr (keys : List NatSet) (s : NatSet) : m.fresh keys s = k.fresh keys s := by
  have hvalues : m.alphabet.filterMap (m.next s) = k.alphabet.filterMap (k.next s) := by
    simpa using filterMap_next_congr hm hk h s fun _ => some
  rw [fresh, fresh, hvalues]

theorem discover_congr (keys queue : List NatSet) : m.discover keys queue = k.discover keys queue := by
  fun_induction discover m keys queue with
  | case1 keys => rw [discover]
  | case2 keys s rest ih => rw [ih, discover, fresh_congr hm hk h]

/-- Machines with the same steps have the same automaton, whatever symbols they know. -/
theorem toDfa_congr (kind : KeyKind) : m.toDfa kind = k.toDfa kind := by
  have hkeys : m.keys = k.keys := by
    rw [keys, keys, discover_congr hm hk h, h]
  have hrow : ∀ s, (Row.tabulate m.alphabet fun c => (m.next s c).bind fun t => m.keys.idxOf? t) =
      Row.tabulate k.alphabet fun c => (k.next s c).bind fun t => k.keys.idxOf? t := by
    intro s
    simp only [Row.tabulate, Option.map_bind, hkeys]
    rw [filterMap_next_congr hm hk h]
  have haccepts : m.accepts = k.accepts := congrArg Machine.accepts h
  unfold toDfa
  simp only [hrow, haccepts]
  rw [hkeys]

end Congruence

/-- A map between sets that keeps the start, acceptance and all steps, missing ones included. -/
structure Morphism (m k : SetMachine) (f : NatSet → NatSet) : Prop where
  start : f m.start = k.start
  accepts : ∀ s, k.accepts (f s) = m.accepts s
  next : ∀ s c, k.next (f s) c = (m.next s c).map f

theorem Morphism.leads {k : SetMachine} {f : NatSet → NatSet} (hf : Morphism m k f) {t : NatSet} :
    k.Leads w t ↔ ∃ s, m.Leads w s ∧ f s = t := by
  induction w using List.reverseRecOn generalizing t with
  | nil => simp [Machine.leads_nil, hf.start, eq_comm]
  | append_singleton w c ih =>
    simp only [Machine.leads_concat, ih]
    constructor
    · intro h
      obtain ⟨_, ⟨s, hs, rfl⟩, ht⟩ := h
      rw [hf.next] at ht
      obtain ⟨u, hu, rfl⟩ := Option.map_eq_some_iff.mp ht
      exact ⟨u, ⟨s, hs, hu⟩, rfl⟩
    · intro h
      obtain ⟨u, ⟨s, hs, hu⟩, rfl⟩ := h
      exact ⟨f s, ⟨s, hs, rfl⟩, by rw [hf.next, hu]; rfl⟩

end SetMachine

namespace Dfa

/-- A map of the states of `s` onto those of `d` that keeps the start, acceptance and all edges,
missing ones included. -/
structure Quotient (s d : Dfa) (f : Nat → Nat) : Prop where
  start : f 0 = 0
  maps : ∀ q, q < s.size → f q < d.size
  onto : ∀ t, t < d.size → ∃ q, q < s.size ∧ f q = t
  accepts : ∀ q, q < s.size → d.accepts (f q) = s.accepts q
  next : ∀ q, q < s.size → ∀ c, d.next? (f q) c = (s.next? q c).map f

variable {s d : Dfa} {f : Nat → Nat}

theorem Quotient.size_le (hf : Quotient s d f) : d.size ≤ s.size := by
  have hsub : List.range d.size ⊆ (List.range s.size).map f := by
    intro t ht
    obtain ⟨q, hq, rfl⟩ := hf.onto t (List.mem_range.mp ht)
    exact List.mem_map.mpr ⟨q, List.mem_range.mpr hq, rfl⟩
  simpa using List.nodup_range.length_le_of_subset hsub

theorem Quotient.runFrom (hf : Quotient s d f) (hs : s.InRange) {q : Nat} (hq : q < s.size) (w : List Char) :
    d.machine.runFrom (f q) w = s.machine.runFrom q w :=
  Machine.runFrom_map s.machine d.machine f (· < s.size) hf.accepts (fun q c hq => hf.next q hq c)
    (fun q c t _ ht => hs.targets_lt q c t ht) hq w

theorem Quotient.run (hf : Quotient s d f) (hs : s.InRange) (w : List Char) : d.run w = s.run w := by
  have h := hf.runFrom hs hs.nonempty w
  rwa [hf.start] at h

end Dfa

namespace SetMachine

variable {m k : SetMachine} {f : NatSet → NatSet}

theorem eq_of_getElem?_keys (hk : k.Lawful) {p q : Nat} {t : NatSet} (hp : k.keys[p]? = some t)
    (hq : k.keys[q]? = some t) : p = q := by
  rw [← idxOf?_eq_some (nodup_keys hk)] at hp hq
  exact Option.some.inj (hp.symm.trans hq)

/-- The number that a map of keys gives to a state. -/
def imageState (m k : SetMachine) (f : NatSet → NatSet) (q : Nat) : Nat :=
  (m.keys[q]?.bind fun s => k.keys.idxOf? (f s)).getD 0

namespace Morphism

variable (hf : Morphism m k f) (hm : m.Lawful) (hk : k.Lawful)
include hf hm hk

theorem mem_keys {s : NatSet} (hs : s ∈ m.keys) : f s ∈ k.keys := by
  obtain ⟨w, hw⟩ := (mem_keys_iff hm).mp hs
  apply (mem_keys_iff hk).mpr
  exact ⟨w, hf.leads.mpr ⟨s, hw, rfl⟩⟩

theorem getElem?_imageState {q : Nat} {s : NatSet} (hq : m.keys[q]? = some s) :
    k.keys[imageState m k f q]? = some (f s) := by
  obtain ⟨r, hr⟩ := List.mem_iff_getElem?.mp (hf.mem_keys hm hk (List.mem_of_getElem? hq))
  have himage : imageState m k f q = r := by
    simp [imageState, hq, (idxOf?_eq_some (nodup_keys hk)).mpr hr]
  rwa [himage]

theorem exists_imageState {t : Nat} (ht : t < k.keys.length) :
    ∃ q, q < m.keys.length ∧ imageState m k f q = t := by
  have htk := List.getElem?_eq_getElem ht
  obtain ⟨w, hw⟩ := (mem_keys_iff hk).mp (List.mem_of_getElem? htk)
  obtain ⟨s, hs, hst⟩ := hf.leads.mp hw
  obtain ⟨q, hq⟩ := List.mem_iff_getElem?.mp ((mem_keys_iff hm).mpr ⟨w, hs⟩)
  have himage := hf.getElem?_imageState hm hk hq
  rw [hst] at himage
  exact ⟨q, (List.getElem?_eq_some_iff.mp hq).1, eq_of_getElem?_keys hk himage htk⟩

theorem quotient (kind kind' : KeyKind) :
    Dfa.Quotient (m.toDfa kind) (k.toDfa kind') (imageState m k f) := by
  refine ⟨?_, ?_, ?_, ?_, ?_⟩
  · have hstart := hf.getElem?_imageState hm hk (getElem?_keys_zero hm)
    rw [hf.start] at hstart
    exact eq_of_getElem?_keys hk hstart (getElem?_keys_zero hk)
  · intro q hq
    rw [size_toDfa] at hq ⊢
    exact (List.getElem?_eq_some_iff.mp (hf.getElem?_imageState hm hk (List.getElem?_eq_getElem hq))).1
  · intro t ht
    simp only [size_toDfa] at ht ⊢
    exact hf.exists_imageState hm hk ht
  · intro q hq
    rw [size_toDfa] at hq
    have hqk := List.getElem?_eq_getElem hq
    rw [accepts_toDfa (hf.getElem?_imageState hm hk hqk), accepts_toDfa hqk, hf.accepts]
  · intro q hq c
    rw [size_toDfa] at hq
    have hqk := List.getElem?_eq_getElem hq
    have himage := hf.getElem?_imageState hm hk hqk
    have hnext := hf.next m.keys[q] c
    cases hr : (m.toDfa kind).next? q c with
    | none =>
      rw [(next?_toDfa_eq_none hm hqk).mp hr] at hnext
      exact (next?_toDfa_eq_none hk himage).mpr hnext
    | some r =>
      obtain ⟨t, ht, hrt⟩ := (next?_toDfa_eq_some hm hqk).mp hr
      rw [ht] at hnext
      exact (next?_toDfa_eq_some hk himage).mpr ⟨f t, hnext, hf.getElem?_imageState hm hk hrt⟩

end Morphism
end SetMachine
end PatternAutomata
