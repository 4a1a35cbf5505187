import PatternAutomata.Proofs.Dfa.TableMinimization
import PatternAutomata.Proofs.Dfa.UniqueText

/-!
# Building with a worklist

An automaton of sets is built state by state. A worklist holds the states that have been entered but not
expanded yet. Expanding a state enters the sets that its symbols lead to, and links them; a set that is new
goes to the end of the worklist. `Worklist.Built` is what each link keeps, and so each round: the states taken
from the worklist and those in it are all states in the order of their numbers. So every state is taken once,
the rounds end, and the automaton is that of the sets that `SetMachine.discover` finds.
-/

namespace PatternAutomata

set_option autoImplicit false

namespace Dfa

variable {d : Dfa} {key : NatSet} {q t : Nat} {c : Char}

@[simp] theorem next?_single (kind : KeyKind) (key : NatSet) (q : Nat) (c : Char) :
    (single kind key).next? q c = none := by
  cases q <;> rfl

theorem enter_of_mem (h : key ∈ d.keys) : d.enter key = (d, d.keys.idxOf key, false) := by
  apply enter_of_find?
  rw [find?_eq, List.idxOf?_eq_some_iff]
  refine ⟨List.idxOf_lt_length_of_mem h, by simp, ?_⟩
  intro j hj
  simpa using List.not_of_lt_findIdx hj

theorem exists_enter (h : key ∉ d.keys) :
    ∃ e, d.enter key = (e, d.size, true) ∧ e.kind = d.kind ∧ e.keys = d.keys ++ [key] ∧
      (∀ p, e.accepts p = d.accepts p) ∧ ∀ p c, e.next? p c = d.next? p c := by
  have hnone : d.find? key = none := by
    rwa [find?_eq, List.idxOf?_eq_none_iff]
  have hkeys := keys_enter d key
  rw [if_neg h, enter_of_new hnone] at hkeys
  refine ⟨_, enter_of_new hnone, rfl, hkeys, ?_, ?_⟩
  · intro p
    by_cases hp : p = d.states.size
    · simp [accepts, hp, State.fresh]
    · simp [accepts, Array.getElem?_push, hp]
  · intro p c
    by_cases hp : p = d.states.size
    · simp [next?, row, hp, State.fresh]
    · simp [next?, row, Array.getElem?_push, hp]

theorem exists_setAccept (hq : q < d.size) (accept : Bool) :
    ∃ e, d.setAccept? q accept = some e ∧ e.kind = d.kind ∧ e.keys = d.keys ∧
      (∀ p, e.accepts p = if p = q then accept else d.accepts p) ∧ ∀ p c, e.next? p c = d.next? p c := by
  refine ⟨_, if_pos hq, rfl, keys_modify d q _ fun s => rfl, ?_, ?_⟩
  · intro p
    by_cases hp : q = p
    · subst hp
      have hget := Array.getElem?_eq_getElem hq
      simp [accepts, Array.getElem?_modify, hget]
    · simp [accepts, Array.getElem?_modify, hp, Ne.symm hp]
  · intro p c
    simp only [next?, row, Array.getElem?_modify]
    split
    · simp [Function.comp_def]
    · rfl

theorem exists_link (hq : q < d.size) (ht : t < d.size) (hnone : d.next? q c = none) :
    ∃ e, d.link? q c t = some e ∧ e.kind = d.kind ∧ e.keys = d.keys ∧ (∀ p, e.accepts p = d.accepts p) ∧
      ∀ p b, e.next? p b = if p = q ∧ b = c then some t else d.next? p b := by
  have hlink : d.link? q c t = d.addEdge? q c t := if_pos ⟨ht, by simp [hnone]⟩
  refine ⟨_, hlink.trans (if_pos hq), rfl, keys_modify d q _ fun s => rfl, ?_, ?_⟩
  · intro p
    simp only [accepts, Array.getElem?_modify]
    split
    · simp [Function.comp_def]
    · rfl
  · intro p b
    by_cases hp : q = p
    · subst hp
      have hget := Array.getElem?_eq_getElem hq
      by_cases hb : b = c <;> simp [next?, row, Array.getElem?_modify, hget, hb]
    · simp [next?, row, Array.getElem?_modify, hp, Ne.symm hp]

end Dfa

/-- An automaton in the making with the states that wait to be expanded, the next one first. The states that have
been taken from there and the links that have been made are noted in their order. -/
structure Worklist where
  dfa : Dfa
  queue : List (NatSet × Nat)
  taken : List (NatSet × Nat)
  links : List (Nat × Char × Nat)

namespace Worklist

/-- The start is entered, marked and waits. -/
def start? (kind : KeyKind) (accepts : NatSet → Bool) (s : NatSet) : Option Worklist :=
  ((Dfa.single kind s).setAccept? 0 (accepts s)).map fun d => ⟨d, [(s, 0)], [], []⟩

/-- Links a state. The target must be there, and the state must have no other target for the symbol. -/
def link? (x : Worklist) (q : Nat) (c : Char) (t : Nat) : Option Worklist :=
  (x.dfa.link? q c t).map fun d => { x with dfa := d, links := x.links ++ [(q, c, t)] }

/-- Enters the set that a symbol leads to, and links it; an empty set is passed over. A set that is new is marked,
and it waits. -/
def follow? (accepts : NatSet → Bool) (q : Nat) (x : Worklist) (move : Char × NatSet) : Option Worklist :=
  if move.2.isEmpty then some x
  else
    match x.dfa.enter move.2 with
    | (_, t, false) => x.link? q move.1 t
    | (d, t, true) => (d.setAccept? t (accepts move.2)).bind fun d =>
        link? { x with dfa := d, queue := x.queue ++ [(move.2, t)] } q move.1 t

/-- Takes states from the worklist and expands them, at most `fuel` of them. There is no result if others are left
or a step is refused. -/
def run? (accepts : NatSet → Bool) (moves : NatSet → List (Char × NatSet)) : Nat → Worklist → Option Worklist
  | 0, x => if x.queue = [] then some x else none
  | fuel + 1, x =>
    match x.queue with
    | [] => some x
    | (s, q) :: rest =>
      ((moves s).foldlM (follow? accepts q) { x with queue := rest, taken := x.taken ++ [(s, q)] }).bind
        (run? accepts moves fuel)

/-- Builds the automaton of the sets behind a start in at most `fuel` rounds. -/
def build? (kind : KeyKind) (accepts : NatSet → Bool) (moves : NatSet → List (Char × NatSet)) (s : NatSet)
    (fuel : Nat) : Option Worklist :=
  (start? kind accepts s).bind (run? accepts moves fuel)

end Worklist

namespace SetMachine

variable {m : SetMachine} {s t : NatSet} {c : Char}

def steps (m : SetMachine) (s : NatSet) : List (Char × NatSet) :=
  m.alphabet.filterMap fun c => (m.next s c).map fun t => (c, t)

theorem mem_steps (hm : m.Lawful) : (c, t) ∈ m.steps s ↔ m.next s c = some t := by
  simp only [steps, List.mem_filterMap, Option.map_eq_some_iff, Prod.mk.injEq]
  constructor
  · intro h
    obtain ⟨b, _, u, hu, rfl, rfl⟩ := h
    exact hu
  · intro h
    exact ⟨c, hm.known h, t, h, rfl, rfl⟩

theorem ascending_steps (hm : m.Lawful) (s : NatSet) : (m.steps s).Pairwise fun a b => a.1.toNat < b.1.toNat := by
  rw [steps, List.pairwise_filterMap]
  apply hm.ascending.imp
  intro a b hab x hx y hy
  obtain ⟨_, _, rfl⟩ := Option.map_eq_some_iff.mp hx
  obtain ⟨_, _, rfl⟩ := Option.map_eq_some_iff.mp hy
  exact hab

theorem map_snd_steps (m : SetMachine) (s : NatSet) : (m.steps s).map Prod.snd = m.alphabet.filterMap (m.next s) := by
  simp [steps, List.map_filterMap, Function.comp_def]

theorem prefix_discover (m : SetMachine) (keys queue : List NatSet) : keys <+: m.discover keys queue := by
  fun_induction discover m keys queue with
  | case1 keys => exact List.prefix_refl keys
  | case2 keys s rest ih => exact (List.prefix_append _ _).trans ih

/-- Moves that lead where the machine does, each symbol once and in order; symbols that lead nowhere may be among
them with the empty set. -/
structure Moves (m : SetMachine) (moves : NatSet → List (Char × NatSet)) : Prop extends m.Lawful where
  sorted : ∀ s, (moves s).Pairwise fun a b => a.1.toNat < b.1.toNat
  mem_iff : ∀ s c t, (c, t) ∈ moves s ∧ t ≠ ∅ ↔ m.next s c = some t

theorem Moves.filter_eq {moves : NatSet → List (Char × NatSet)} (h : m.Moves moves) (s : NatSet) :
    ((moves s).filter fun a => !a.2.isEmpty) = m.steps s := by
  have hirrefl : Std.Irrefl fun a b : Char × NatSet => a.1.toNat < b.1.toNat := ⟨fun a => Nat.lt_irrefl a.1.toNat⟩
  have hantisymm : Std.Antisymm fun a b : Char × NatSet => a.1.toNat < b.1.toNat := ⟨fun a b hab hba => by omega⟩
  apply ((h.sorted s).filter _).eq_of_mem_iff (ascending_steps h.toLawful s)
  intro a
  obtain ⟨c, t⟩ := a
  rw [mem_steps h.toLawful, ← h.mem_iff, List.mem_filter, Bool.not_eq_true', ← Bool.not_eq_true, NatSet.isEmpty_iff]

end SetMachine

namespace Worklist

variable {m : SetMachine} {kind : KeyKind} {x : Worklist} {moved : List (Nat × Char × NatSet)} {s t : NatSet} {q : Nat}
  {c : Char}

/-- A worklist on which the steps in `moved` have been followed. -/
structure Built (m : SetMachine) (kind : KeyKind) (x : Worklist) (moved : List (Nat × Char × NatSet)) : Prop where
  kind_eq : x.dfa.kind = kind
  nodup : x.dfa.keys.Nodup
  numbered : x.taken ++ x.queue = x.dfa.keys.zipIdx
  accepts : ∀ q s, x.dfa.keys[q]? = some s → x.dfa.accepts q = m.accepts s
  next_iff : ∀ q c t, x.dfa.next? q c = some t ↔ (q, c, t) ∈ x.links
  links_eq : x.links = moved.map fun v => (v.1, v.2.1, x.dfa.keys.idxOf v.2.2)
  known : ∀ v ∈ moved, v.2.2 ∈ x.dfa.keys
  once : (moved.map fun v => (v.1, v.2.1)).Nodup

theorem Built.next?_eq_none (h : x.Built m kind moved) (hnew : (q, c) ∉ moved.map fun v => (v.1, v.2.1)) :
    x.dfa.next? q c = none := by
  rw [Option.eq_none_iff_forall_ne_some]
  intro t ht
  have hlink := (h.next_iff q c t).mp ht
  rw [h.links_eq, List.mem_map] at hlink
  obtain ⟨v, hv, heq⟩ := hlink
  cases heq
  exact hnew (List.mem_map.mpr ⟨v, hv, rfl⟩)

theorem Built.link (h : x.Built m kind moved) (hq : q < x.dfa.size)
    (hnew : (q, c) ∉ moved.map fun v => (v.1, v.2.1)) (ht : t ∈ x.dfa.keys) :
    ∃ y, x.link? q c (x.dfa.keys.idxOf t) = some y ∧ y.Built m kind (moved ++ [(q, c, t)]) ∧ y.taken = x.taken ∧
      y.dfa.keys = x.dfa.keys := by
  have hlt : x.dfa.keys.idxOf t < x.dfa.size := by
    rw [← Dfa.length_keys]
    exact List.idxOf_lt_length_of_mem ht
  obtain ⟨d, hd, hkind, hkeys, haccepts, hnext⟩ := Dfa.exists_link hq hlt (h.next?_eq_none hnew)
  have hlink : x.link? q c (x.dfa.keys.idxOf t) =
      some { x with dfa := d, links := x.links ++ [(q, c, x.dfa.keys.idxOf t)] } := by
    rw [link?, hd, Option.map_some]
  refine ⟨_, hlink, ?_, rfl, hkeys⟩
  refine ⟨hkind.trans h.kind_eq, ?_, ?_, ?_, ?_, ?_, ?_, ?_⟩
  · rw [hkeys]
    exact h.nodup
  · rw [hkeys]
    exact h.numbered
  · intro p s hp
    rw [hkeys] at hp
    rw [haccepts, h.accepts p s hp]
  · intro p b u
    rw [hnext, List.mem_append, List.mem_singleton, ← h.next_iff]
    by_cases hpb : p = q ∧ b = c
    · obtain ⟨rfl, rfl⟩ := hpb
      simp [h.next?_eq_none hnew, eq_comm]
    · have hne : (p, b, u) ≠ (q, c, x.dfa.keys.idxOf t) := by
        intro heq
        cases heq
        exact hpb ⟨rfl, rfl⟩
      simp [hpb, hne]
  · rw [hkeys, h.links_eq, List.map_append]
    rfl
  · rw [hkeys]
    intro v hv
    rcases List.mem_append.mp hv with hv | hv
    · exact h.known v hv
    · rw [List.mem_singleton.mp hv]
      exact ht
  · rw [List.map_append, List.map_singleton]
    exact List.nodup_append.mpr ⟨h.once, List.nodup_singleton _, by grind⟩

theorem Built.enter (h : x.Built m kind moved) (ht : t ∉ x.dfa.keys) :
    ∃ d e, x.dfa.enter t = (d, x.dfa.size, true) ∧ d.setAccept? x.dfa.size (m.accepts t) = some e ∧
      e.keys = x.dfa.keys ++ [t] ∧
      Built m kind { x with dfa := e, queue := x.queue ++ [(t, x.dfa.size)] } moved := by
  obtain ⟨d, henter, hkind, hkeys, haccepts, hnext⟩ := Dfa.exists_enter ht
  have hsize : x.dfa.size < d.size := by
    rw [← Dfa.length_keys, ← Dfa.length_keys, hkeys, List.length_append]
    exact Nat.lt_succ_self _
  obtain ⟨e, hmark, hkind', hkeys', haccepts', hnext'⟩ := Dfa.exists_setAccept hsize (m.accepts t)
  rw [hkeys] at hkeys'
  refine ⟨d, e, henter, hmark, hkeys', ?_⟩
  refine ⟨hkind'.trans (hkind.trans h.kind_eq), ?_, ?_, ?_, ?_, ?_, ?_, h.once⟩
  · rw [hkeys']
    exact List.nodup_append.mpr ⟨h.nodup, List.nodup_singleton t, by grind⟩
  · rw [hkeys', List.zipIdx_append, ← h.numbered, List.append_assoc, Nat.zero_add, Dfa.length_keys]
    rfl
  · intro p s hp
    rw [hkeys', ← Dfa.length_keys] at *
    rw [haccepts', haccepts]
    rcases Nat.lt_or_ge p x.dfa.keys.length with hlt | hge
    · rw [List.getElem?_append_left hlt] at hp
      rw [if_neg (Nat.ne_of_lt hlt), h.accepts p s hp]
    · rw [List.getElem?_append_right hge, List.getElem?_singleton] at hp
      split at hp
      · rw [if_pos (by omega), Option.some.inj hp]
      · cases hp
  · intro p b u
    rw [hnext', hnext, h.next_iff]
  · rw [hkeys', h.links_eq]
    apply List.map_congr_left
    intro v hv
    rw [List.idxOf_append_of_mem (h.known v hv)]
  · intro v hv
    rw [hkeys']
    exact List.mem_append_left _ (h.known v hv)

theorem Built.follow (h : x.Built m kind moved) (hq : q < x.dfa.size)
    (hnew : (q, c) ∉ moved.map fun v => (v.1, v.2.1)) (hne : t ≠ ∅) :
    ∃ y, follow? m.accepts q x (c, t) = some y ∧ y.Built m kind (moved ++ [(q, c, t)]) ∧ y.taken = x.taken ∧
      y.dfa.keys = if t ∈ x.dfa.keys then x.dfa.keys else x.dfa.keys ++ [t] := by
  rw [follow?, if_neg (mt NatSet.isEmpty_iff.mp hne)]
  by_cases ht : t ∈ x.dfa.keys
  · rw [if_pos ht, Dfa.enter_of_mem ht]
    exact h.link hq hnew ht
  · obtain ⟨d, e, henter, hmark, hkeys, hbuilt⟩ := h.enter ht
    have hsize : q < e.size := by
      rw [← Dfa.length_keys, hkeys, List.length_append, Dfa.length_keys]
      exact Nat.lt_succ_of_lt hq
    have hindex : e.keys.idxOf t = x.dfa.size := by
      rw [hkeys, List.idxOf_append_of_notMem ht, Dfa.length_keys, List.idxOf_cons_self, Nat.add_zero]
    have hmem : t ∈ e.keys := by simp [hkeys]
    obtain ⟨y, hy, hlinked, htaken, hykeys⟩ := hbuilt.link hsize hnew hmem
    rw [hindex] at hy
    rw [if_neg ht, ← hkeys, henter]
    simp only [hmark, Option.bind_some]
    exact ⟨y, hy, hlinked, htaken, hykeys⟩

/-- The sets that are new when all are added to keys one after the other. -/
def newAmong (ks ts : List NatSet) : List NatSet := ts.eraseDups.filter fun t => decide (t ∉ ks)

theorem fresh_eq (m : SetMachine) (ks : List NatSet) (s : NatSet) :
    m.fresh ks s = newAmong ks ((m.steps s).map Prod.snd) := by
  rw [SetMachine.map_snd_steps]
  rfl

theorem newAmong_concat (ks ts : List NatSet) (t : NatSet) : ks ++ newAmong ks (ts ++ [t]) =
    if t ∈ ks ++ newAmong ks ts then ks ++ newAmong ks ts else ks ++ newAmong ks ts ++ [t] := by
  have hmem : t ∈ ks ++ newAmong ks ts ↔ t ∈ ks ∨ t ∈ ts := by
    simp only [newAmong, List.mem_append, List.mem_filter, List.mem_eraseDups, decide_eq_true_eq]
    tauto
  simp only [hmem]
  rw [newAmong, Dfa.eraseDups_concat]
  by_cases hts : t ∈ ts
  · rw [if_pos hts, if_pos (Or.inr hts), newAmong]
  · rw [if_neg hts, List.filter_append]
    by_cases hks : t ∈ ks
    · simp [hks, newAmong]
    · simp [hks, hts, newAmong]

def stepsOf (m : SetMachine) (taken : List (NatSet × Nat)) : List (Nat × Char × NatSet) :=
  taken.flatMap fun e => (m.steps e.1).map fun a => (e.2, a.1, a.2)

theorem mem_stepsOf {v : Nat × Char × NatSet} {taken : List (NatSet × Nat)} :
    v ∈ stepsOf m taken ↔ ∃ s, (s, v.1) ∈ taken ∧ v.2 ∈ m.steps s := by
  simp only [stepsOf, List.mem_flatMap, List.mem_map]
  constructor
  · intro h
    obtain ⟨e, he, a, ha, rfl⟩ := h
    exact ⟨e.1, he, ha⟩
  · intro h
    obtain ⟨s, hs, hv⟩ := h
    exact ⟨_, hs, _, hv, rfl⟩

section Round

variable {moves : NatSet → List (Char × NatSet)} {rest : List (NatSet × Nat)}

theorem foldlM_follow? (accepts : NatSet → Bool) (q : Nat) (ms : List (Char × NatSet)) (x : Worklist) :
    ms.foldlM (follow? accepts q) x = (ms.filter fun a => !a.2.isEmpty).foldlM (follow? accepts q) x := by
  have hskip : (fun x (a : Char × NatSet) => if (!a.2.isEmpty) = true then follow? accepts q x a else pure x) =
      follow? accepts q := by
    funext x a
    cases h : a.2.isEmpty
    · simp
    · simp [follow?, h]
  rw [List.foldlM_filter, hskip]

theorem Built.next_state (h : x.Built m kind moved) (hqueue : x.queue = (s, q) :: rest) :
    x.dfa.keys[q]? = some s ∧ ∀ u, (u, q) ∉ x.taken := by
  have hnumbered := h.numbered
  rw [hqueue] at hnumbered
  constructor
  · rw [← List.mk_mem_zipIdx_iff_getElem?, ← hnumbered]
    exact List.mem_append_right _ List.mem_cons_self
  · intro u hu
    have hnodup : ((x.taken ++ (s, q) :: rest).map Prod.snd).Nodup := by
      rw [hnumbered, List.zipIdx_map_snd]
      exact List.nodup_range'
    rw [List.map_append, List.map_cons] at hnodup
    exact (List.nodup_append.mp hnodup).2.2 q (List.mem_map.mpr ⟨_, hu, rfl⟩) q List.mem_cons_self rfl

theorem not_mem_followed (hm : m.Lawful) {taken : List (NatSet × Nat)} (htaken : ∀ u, (u, q) ∉ taken)
    {done ahead : List (Char × NatSet)} (hsteps : m.steps s = done ++ (c, t) :: ahead) :
    (q, c) ∉ (stepsOf m taken ++ done.map fun a => (q, a.1, a.2)).map fun v => (v.1, v.2.1) := by
  intro hmem
  obtain ⟨v, hv, heq⟩ := List.mem_map.mp hmem
  obtain ⟨p, b, u⟩ := v
  cases heq
  rcases List.mem_append.mp hv with hv | hv
  · obtain ⟨u, hu, _⟩ := mem_stepsOf.mp hv
    exact htaken u hu
  · obtain ⟨a, ha, heq⟩ := List.mem_map.mp hv
    cases heq
    have hsorted := SetMachine.ascending_steps hm s
    rw [hsteps] at hsorted
    exact Nat.lt_irrefl _ ((List.pairwise_append.mp hsorted).2.2 a ha (a.1, t) List.mem_cons_self)

/-- Within a round that began at `x` and took a state: the steps in `done` have been followed. -/
structure Midway (m : SetMachine) (kind : KeyKind) (x : Worklist) (e : NatSet × Nat) (done : List (Char × NatSet))
    (y : Worklist) : Prop where
  built : y.Built m kind (stepsOf m x.taken ++ done.map fun a => (e.2, a.1, a.2))
  taken_eq : y.taken = x.taken ++ [e]
  keys_eq : y.dfa.keys = x.dfa.keys ++ newAmong x.dfa.keys (done.map Prod.snd)

theorem Midway.follow (hmoves : m.Moves moves) (hkey : x.dfa.keys[q]? = some s) (htaken : ∀ u, (u, q) ∉ x.taken)
    {done ahead : List (Char × NatSet)} {a : Char × NatSet} {y : Worklist} (h : Midway m kind x (s, q) done y)
    (hsteps : m.steps s = done ++ a :: ahead) :
    ∃ z, follow? m.accepts q y a = some z ∧ Midway m kind x (s, q) (done ++ [a]) z := by
  obtain ⟨c, t⟩ := a
  have hstep : m.next s c = some t := (SetMachine.mem_steps hmoves.toLawful).mp (by simp [hsteps])
  have hlt : q < y.dfa.size := by
    have hq := (List.getElem?_eq_some_iff.mp hkey).1
    rw [← Dfa.length_keys, h.keys_eq, List.length_append]
    omega
  obtain ⟨z, hz, hbuilt, hztaken, hzkeys⟩ := h.built.follow hlt (not_mem_followed hmoves.toLawful htaken hsteps)
    ((hmoves.mem_iff s c t).mpr hstep).2
  refine ⟨z, hz, ?_, hztaken.trans h.taken_eq, ?_⟩
  · rwa [List.map_append, ← List.append_assoc]
  · rw [hzkeys, h.keys_eq, List.map_append, List.map_singleton, newAmong_concat]

/-- A round takes one state and follows its steps. -/
theorem Built.round (hmoves : m.Moves moves) (h : x.Built m kind (stepsOf m x.taken))
    (hqueue : x.queue = (s, q) :: rest) :
    ∃ y, (moves s).foldlM (follow? m.accepts q) { x with queue := rest, taken := x.taken ++ [(s, q)] } = some y ∧
      y.Built m kind (stepsOf m y.taken) ∧ y.taken = x.taken ++ [(s, q)] ∧
      y.dfa.keys = x.dfa.keys ++ m.fresh x.dfa.keys s := by
  obtain ⟨hkey, htaken⟩ := h.next_state hqueue
  have hstart : Midway m kind x (s, q) [] { x with queue := rest, taken := x.taken ++ [(s, q)] } := by
    refine ⟨?_, rfl, ?_⟩
    · rw [List.map_nil, List.append_nil]
      refine { h with numbered := ?_ }
      rw [← h.numbered, hqueue, List.append_assoc]
      rfl
    · simp [newAmong]
  obtain ⟨y, hy, hend⟩ := Table.exists_foldlM (m.steps s) (motive := Midway m kind x (s, q)) hstart
    fun _ _ _ _ hsteps hmid => hmid.follow hmoves hkey htaken hsteps
  refine ⟨y, ?_, ?_, hend.taken_eq, ?_⟩
  · rw [foldlM_follow?, hmoves.filter_eq, hy]
  · have hbuilt := hend.built
    rw [hend.taken_eq, stepsOf, List.flatMap_append, List.flatMap_singleton]
    exact hbuilt
  · rw [hend.keys_eq, fresh_eq]

end Round

section Rounds

variable {moves : NatSet → List (Char × NatSet)}

theorem Built.length_eq (h : x.Built m kind moved) : x.taken.length + x.queue.length = x.dfa.keys.length := by
  rw [← List.length_append, h.numbered, List.length_zipIdx]

theorem Built.queue_eq {y : Worklist} {rest : List (NatSet × Nat)} {moved' : List (Nat × Char × NatSet)}
    (h : x.Built m kind moved) (hqueue : x.queue = (s, q) :: rest) (hy : y.Built m kind moved')
    (htaken : y.taken = x.taken ++ [(s, q)]) {new : List NatSet} (hkeys : y.dfa.keys = x.dfa.keys ++ new) :
    y.queue.map Prod.fst = rest.map Prod.fst ++ new := by
  have hnumbered := hy.numbered
  rw [hkeys, List.zipIdx_append, ← h.numbered, htaken, hqueue, List.append_assoc, List.append_assoc,
    List.append_cancel_left_eq, List.singleton_append, List.cons_append, List.cons_inj_right] at hnumbered
  rw [hnumbered, List.map_append, List.zipIdx_map_fst]

/-- As many rounds as there are sets take all states, and then the keys are the sets. -/
theorem Built.run (hmoves : m.Moves moves) {fuel : Nat} (h : x.Built m kind (stepsOf m x.taken))
    (hdiscover : m.discover x.dfa.keys (x.queue.map Prod.fst) = m.keys)
    (hfuel : m.keys.length ≤ x.taken.length + fuel) :
    ∃ y, run? m.accepts moves fuel x = some y ∧ y.queue = [] ∧ y.Built m kind (stepsOf m y.taken) ∧
      y.dfa.keys = m.keys := by
  have hlength := (m.prefix_discover x.dfa.keys (x.queue.map Prod.fst)).length_le
  rw [hdiscover, ← h.length_eq] at hlength
  induction fuel generalizing x with
  | zero =>
    have hempty : x.queue = [] := List.length_eq_zero_iff.mp (by omega)
    refine ⟨x, if_pos hempty, hempty, h, ?_⟩
    rw [← hdiscover, hempty, List.map_nil, SetMachine.discover]
  | succ fuel ih =>
    cases hqueue : x.queue with
    | nil =>
      refine ⟨x, ?_, hqueue, h, ?_⟩
      · simp only [run?, hqueue]
      · rw [← hdiscover, hqueue, List.map_nil, SetMachine.discover]
    | cons e rest =>
      obtain ⟨s, q⟩ := e
      obtain ⟨y, hy, hbuilt, htaken, hkeys⟩ := h.round hmoves hqueue
      have hyqueue := h.queue_eq hqueue hbuilt htaken hkeys
      have hydiscover : m.discover y.dfa.keys (y.queue.map Prod.fst) = m.keys := by
        rw [hqueue, List.map_cons, SetMachine.discover] at hdiscover
        rw [hkeys, hyqueue, hdiscover]
      have hylength := (m.prefix_discover y.dfa.keys (y.queue.map Prod.fst)).length_le
      rw [hydiscover, ← hbuilt.length_eq] at hylength
      obtain ⟨z, hz, hzbuilt⟩ := ih hbuilt hydiscover (by rw [htaken]; simp; omega) hylength
      refine ⟨z, ?_, hzbuilt⟩
      simp only [run?, hqueue, hy, Option.bind_some, hz]

end Rounds

section Automaton

variable {moves : NatSet → List (Char × NatSet)}

theorem Built.mem_links (h : x.Built m kind (stepsOf m x.taken)) (hqueue : x.queue = []) {r : Nat}
    (hq : x.dfa.keys[q]? = some s) :
    (q, c, r) ∈ x.links ↔ ∃ t, (c, t) ∈ m.steps s ∧ x.dfa.keys[r]? = some t := by
  have htaken : x.taken = x.dfa.keys.zipIdx := by rw [← h.numbered, hqueue, List.append_nil]
  rw [h.links_eq, List.mem_map]
  constructor
  · intro hv
    obtain ⟨v, hv, heq⟩ := hv
    obtain ⟨p, b, t⟩ := v
    cases heq
    obtain ⟨u, hu, ht⟩ := mem_stepsOf.mp hv
    rw [htaken, List.mk_mem_zipIdx_iff_getElem?, hq, Option.some.injEq] at hu
    subst hu
    exact ⟨t, ht, List.getElem?_idxOf (h.known _ hv)⟩
  · intro ht
    obtain ⟨t, ht, hr⟩ := ht
    refine ⟨(q, c, t), mem_stepsOf.mpr ⟨s, ?_, ht⟩, ?_⟩
    · rwa [htaken, List.mk_mem_zipIdx_iff_getElem?]
    · obtain ⟨hlt, rfl⟩ := List.getElem?_eq_some_iff.mp hr
      rw [h.nodup.idxOf_getElem]

theorem Built.dfa_eq (hm : m.Lawful) (h : x.Built m kind (stepsOf m x.taken)) (hqueue : x.queue = [])
    (hkeys : x.dfa.keys = m.keys) : x.dfa = m.toDfa kind := by
  have hsize : x.dfa.size = (m.toDfa kind).size := by
    rw [← Dfa.length_keys, hkeys, SetMachine.size_toDfa]
  have hstates : x.dfa.states = (m.toDfa kind).states := by
    apply Dfa.states_eq hsize
    intro q
    refine ⟨by rw [Dfa.key?_eq, hkeys, SetMachine.key?_toDfa], ?_⟩
    cases hq : m.keys[q]? with
    | none =>
      have hle : (m.toDfa kind).size ≤ q := by
        rw [SetMachine.size_toDfa]
        exact List.getElem?_eq_none_iff.mp hq
      have hnone : x.dfa.states[q]? = none := Array.getElem?_eq_none_iff.mpr (hsize.trans_le hle)
      have hnone' : (m.toDfa kind).states[q]? = none := Array.getElem?_eq_none_iff.mpr hle
      simp only [Dfa.accepts, Dfa.next?, Dfa.row, hnone, hnone', implies_true, and_self]
    | some s =>
      have hq' : x.dfa.keys[q]? = some s := by rw [hkeys, hq]
      refine ⟨?_, ?_⟩
      · rw [h.accepts q s hq', SetMachine.accepts_toDfa hq]
      · intro c
        apply Option.ext
        intro r
        rw [h.next_iff, h.mem_links hqueue hq', SetMachine.next?_toDfa_eq_some hm hq, hkeys]
        simp only [SetMachine.mem_steps hm]
  calc x.dfa = ⟨x.dfa.kind, x.dfa.states⟩ := rfl
    _ = ⟨kind, (m.toDfa kind).states⟩ := by rw [h.kind_eq, hstates]
    _ = m.toDfa kind := rfl

/-- Building is over: every state has been taken once, in the order of the numbers, and a link has been made for
every target, never two for one state and symbol. -/
structure Complete (x : Worklist) : Prop where
  queue_eq : x.queue = []
  nodup : x.dfa.keys.Nodup
  taken_eq : x.taken = x.dfa.keys.zipIdx
  next_iff : ∀ q c t, x.dfa.next? q c = some t ↔ (q, c, t) ∈ x.links
  once : (x.links.map fun l => (l.1, l.2.1)).Nodup

theorem Built.complete (h : x.Built m kind moved) (hqueue : x.queue = []) : x.Complete where
  queue_eq := hqueue
  nodup := h.nodup
  taken_eq := by rw [← h.numbered, hqueue, List.append_nil]
  next_iff := h.next_iff
  once := by
    rw [h.links_eq, List.map_map]
    exact h.once

theorem exists_start (m : SetMachine) (kind : KeyKind) :
    ∃ x, start? kind m.accepts m.start = some x ∧ x.Built m kind (stepsOf m x.taken) ∧ x.taken = [] ∧
      x.queue = [(m.start, 0)] ∧ x.dfa.keys = [m.start] := by
  obtain ⟨d, hd, hkind, hkeys, haccepts, hnext⟩ :=
    Dfa.exists_setAccept (d := .single kind m.start) (q := 0) Nat.zero_lt_one (m.accepts m.start)
  have hstart : start? kind m.accepts m.start = some ⟨d, [(m.start, 0)], [], []⟩ := by
    rw [start?, hd, Option.map_some]
  have hkeys : d.keys = [m.start] := hkeys
  refine ⟨_, hstart, ?_, rfl, rfl, hkeys⟩
  refine ⟨hkind, ?_, ?_, ?_, ?_, rfl, ?_, List.nodup_nil⟩
  · rw [hkeys]
    exact List.nodup_singleton m.start
  · rw [hkeys]
    rfl
  · intro q s hq
    rw [hkeys] at hq
    obtain ⟨rfl, rfl⟩ : q = 0 ∧ m.start = s := by simpa [List.getElem?_singleton] using hq
    rw [haccepts, if_pos rfl]
  · intro q c t
    simp [hnext]
  · exact fun v hv => absurd hv List.not_mem_nil

/-- As many rounds as there are sets build the automaton of the machine. -/
theorem exists_build (hmoves : m.Moves moves) (kind : KeyKind) {fuel : Nat} (hfuel : m.keys.length ≤ fuel) :
    ∃ x, build? kind m.accepts moves m.start fuel = some x ∧ x.dfa = m.toDfa kind ∧ x.dfa.keys = m.keys ∧
      x.Complete := by
  obtain ⟨x, hx, hstart, htaken, hqueue, hkeys⟩ := exists_start m kind
  have hdiscover : m.discover x.dfa.keys (x.queue.map Prod.fst) = m.keys := by
    rw [hkeys, hqueue]
    rfl
  obtain ⟨y, hy, hempty, hbuilt, hykeys⟩ := hstart.run hmoves hdiscover (by rw [htaken]; simpa using hfuel)
  refine ⟨y, ?_, hbuilt.dfa_eq hmoves.toLawful hempty hykeys, hykeys, hbuilt.complete hempty⟩
  rw [build?, hx, Option.bind_some, hy]

end Automaton

end Worklist
end PatternAutomata
