import PatternAutomata.Proofs.Dfa.LiveSearch
import PatternAutomata.Proofs.Dfa.RefinementTables

/-!
# Minimization by tables

Minimization with every table in its place: the searches for the live states, the rounds of refinement, and
the building of the states from the sorted classes. Whatever it reads or writes is asked for at a place, and
it has no result if a place is not there, a target has no class, or two states of one class have targets in
different classes. None of this happens, and the result is the minimal automaton.
-/

namespace PatternAutomata.Dfa

set_option autoImplicit false

variable {d : Dfa} {p : Partition} {b : Block} {s : NatSet} {q t : Nat} {c : Char}

/-- The class of the start comes before the others, and these by their first members. -/
def startFirst (a b : List Nat) : Bool :=
  match decide (0 ∈ a), decide (0 ∈ b) with
  | true, false => true
  | false, true => false
  | _, _ =>
    match a.head?, b.head? with
    | none, _ => true
    | some _, none => false
    | some x, some y => decide (x ≤ y)

theorem zero_mem_iff (hb : b.members.Pairwise (· < ·)) : 0 ∈ b.members ↔ b.representative = 0 := by
  constructor
  · intro h
    rcases List.mem_cons.mp h with h | h
    · exact h.symm
    · have := (List.pairwise_cons.mp hb).1 0 h
      omega
  · intro h
    exact h ▸ List.mem_cons_self

theorem startFirst_members {a b : Block} (ha : a.members.Pairwise (· < ·)) (hb : b.members.Pairwise (· < ·)) :
    startFirst a.members b.members = decide (a.representative ≤ b.representative) := by
  have hheads : a.members.head? = some a.representative ∧ b.members.head? = some b.representative := ⟨rfl, rfl⟩
  simp only [startFirst, zero_mem_iff ha, zero_mem_iff hb, hheads]
  by_cases ha0 : a.representative = 0
  · by_cases hb0 : b.representative = 0
    · simp [ha0, hb0]
    · simp [ha0, hb0]
  · by_cases hb0 : b.representative = 0
    · simp [ha0, hb0]
    · simp [ha0, hb0]

theorem sorted_members (hp : p.Divides s) :
    (p.map Block.members).mergeSort startFirst = (inOrder p).map Block.members := by
  symm
  apply List.map_mergeSort
  intro a ha b hb
  exact (startFirst_members (hp.ascending a ha) (hp.ascending b hb)).symm

/-- An automaton without edges whose states have the keys, of which there must be a first. -/
def enterKeys? (keys : Array NatSet) : Option Dfa :=
  keys[0]?.map fun start => (keys.toList.drop 1).foldl (fun m key => (Dfa.enter m key).1) (single .classes start)

theorem enter_fresh {kind : KeyKind} {ks : List NatSet} {k : NatSet} (hk : k ∉ ks) :
    (Dfa.mk kind (ks.map State.fresh).toArray).enter k =
      (⟨kind, ((ks ++ [k]).map State.fresh).toArray⟩, ks.length, true) := by
  have hnone : (Dfa.mk kind (ks.map State.fresh).toArray).find? k = none := by
    rw [find?_eq, List.idxOf?_eq_none_iff]
    simpa [keys, Function.comp_def, State.fresh] using hk
  rw [enter_of_new hnone]
  simp [size]

theorem foldl_enter {kind : KeyKind} {us ks : List NatSet} (h : (us ++ ks).Nodup) :
    ks.foldl (fun m key => (Dfa.enter m key).1) (Dfa.mk kind (us.map State.fresh).toArray) =
      ⟨kind, ((us ++ ks).map State.fresh).toArray⟩ := by
  induction ks generalizing us with
  | nil => simp
  | cons k ks ih =>
    have hk : k ∉ us := fun hus => (List.nodup_append.mp h).2.2 k hus k List.mem_cons_self rfl
    rw [List.foldl_cons, enter_fresh hk, ih (by simpa using h), List.append_assoc, List.singleton_append]

theorem enterKeys?_eq {ks : List NatSet} (hne : ks ≠ []) (h : ks.Nodup) :
    enterKeys? ks.toArray = some ⟨.classes, (ks.map State.fresh).toArray⟩ := by
  cases ks with
  | nil => exact absurd rfl hne
  | cons k ks =>
    have hstart : ([k] ++ ks).Nodup := h
    exact congrArg some (foldl_enter hstart)

def among (xs : List State) (x : State) (ys : List State) : Dfa := ⟨.classes, (xs ++ x :: ys).toArray⟩

/-- Adds an edge. Its target must be a state, and another edge with the symbol must lead there, too. -/
def link? (m : Dfa) (q : Nat) (c : Char) (t : Nat) : Option Dfa :=
  if t < m.size ∧ ∀ u ∈ m.next? q c, u = t then m.addEdge? q c t else none

def linkAll? (m : Dfa) (q : Nat) (edges : List (Char × Option Nat)) : Option Dfa :=
  edges.foldlM
    (fun m e =>
      match e.2 with
      | none => some m
      | some t => m.link? q e.1 t)
    m

section Among

variable {xs ys : List State} {x : State}

theorem size_among : (among xs x ys).size = xs.length + ys.length + 1 := by
  simp [among, size, Nat.add_assoc]

theorem next?_among : (among xs x ys).next? xs.length c = x.row.get? c := by
  simp [next?, row, among]

theorem modify_among (f : State → State) :
    (xs ++ x :: ys).toArray.modify xs.length f = (xs ++ f x :: ys).toArray := by
  rw [List.modify_toArray]
  exact congrArg _ (Table.modify_append xs (x :: ys) 0)

theorem setAccept?_among (accept : Bool) :
    (among xs x ys).setAccept? xs.length accept = some (among xs { x with accept := accept } ys) := by
  rw [setAccept?, if_pos (by rw [size_among]; omega)]
  simp only [among, modify_among]

theorem link?_among (ht : t < xs.length + ys.length + 1) (hnone : x.row.get? c = none) :
    (among xs x ys).link? xs.length c t = some (among xs { x with row := x.row.insert c t } ys) := by
  rw [link?, if_pos, addEdge?, if_pos (by rw [size_among]; omega)]
  · simp only [among, modify_among]
  · rw [size_among, next?_among, hnone]
    exact ⟨ht, by simp⟩

theorem linkAll?_among {f : Char → Option Nat} {cs : List Char} {r : Row} (hcs : cs.Nodup)
    (hnew : ∀ c ∈ cs, x.row.get? c = none) (hlt : ∀ c t, f c = some t → t < xs.length + ys.length + 1)
    (hr : ∀ c, r.get? c = if c ∈ cs then f c else x.row.get? c) :
    (among xs x ys).linkAll? xs.length (cs.map fun c => (c, f c)) = some (among xs { x with row := r } ys) := by
  induction cs generalizing x with
  | nil =>
    have hrow : r = x.row := Row.ext_get? fun c => by simpa using hr c
    rw [hrow]
    rfl
  | cons c cs ih =>
    obtain ⟨hc, hcs⟩ := List.nodup_cons.mp hcs
    obtain ⟨hnone, hnew⟩ := List.forall_mem_cons.mp hnew
    rw [linkAll?, List.map_cons, List.foldlM_cons]
    cases ht : f c with
    | none =>
      apply ih hcs hnew
      intro c'
      rw [hr]
      by_cases hcc : c' = c
      · simp [hcc, hc, ht, hnone]
      · simp [hcc]
    | some t =>
      simp only [link?_among (hlt c t ht) hnone]
      apply ih (x := { x with row := x.row.insert c t }) hcs
      · intro c' hc'
        have hne : c' ≠ c := by
          intro h
          exact hc (h ▸ hc')
        rw [Row.get?_insert, if_neg hne, hnew c' hc']
      · intro c'
        rw [hr, Row.get?_insert]
        by_cases hcc : c' = c
        · simp [hcc, hc, ht]
        · simp [hcc]

end Among

/-- All states must have the classes ahead that the first one has. -/
def agree? (ahead? : Nat → Option (List (Option Nat))) (expected : List (Option Nat)) : List Nat → Option Unit
  | [] => some ()
  | q :: qs => (ahead? q).bind fun found => if found = expected then agree? ahead? expected qs else none

theorem agree?_eq {ahead? : Nat → Option (List (Option Nat))} {expected : List (Option Nat)} {qs : List Nat}
    (h : ∀ q ∈ qs, ahead? q = some expected) : agree? ahead? expected qs = some () := by
  induction qs with
  | nil => rfl
  | cons q qs ih =>
    obtain ⟨hq, hqs⟩ := List.forall_mem_cons.mp h
    rw [agree?, hq, Option.bind_some, if_pos rfl, ih hqs]

/-- Completes the state of a class, which must have a key, a place, and a first member. -/
def complete? (d : Dfa) (live : NatSet) (classes : Array (Option Nat)) (keys : Array NatSet) (m : Dfa)
    (x : List Nat × Nat) : Option Dfa := do
  let key ← keys[x.2]?
  let marked ← m.setAccept? x.2 (key.intersects d.accepting)
  let first ← x.1[0]?
  let expected ← d.classesAhead? live classes first
  agree? (d.classesAhead? live classes) expected (x.1.drop 1)
  marked.linkAll? x.2 (d.alphabet.zip expected)

/-- The automaton whose states are the classes of a division. -/
def fromClasses? (d : Dfa) (live : NatSet) (p : List (List Nat)) : Option Dfa := do
  let sorted := p.mergeSort startFirst
  let classes ← Partition.classTable? sorted d.size
  let keys := (sorted.map NatSet.ofList).toArray
  let m ← enterKeys? keys
  sorted.zipIdx.foldlM (d.complete? live classes keys) m

/-- Minimization in which a missing place or a failed check is seen. -/
def minimizeByTables? (d : Dfa) : Option Dfa := do
  let live ← d.findLive?
  let accepting := live.toList.filter d.accepts
  let rejecting := live.toList.filter fun q => !d.accepts q
  let p := [accepting, rejecting].filter fun qs => !qs.isEmpty
  let last ← d.rounds? live (live.toList.length + 1) p
  d.fromClasses? live last

theorem accepting_restrict (d : Dfa) (s : NatSet) : (d.restrict s).accepting = d.accepting := by
  apply NatSet.ext_mem
  intro q
  rw [mem_accepting, mem_accepting, accepts_restrict]

theorem nodup_alphabet (d : Dfa) : d.alphabet.Nodup := by
  apply (alphabetOf_ascending _).imp
  intro a b hab h
  rw [h] at hab
  exact Nat.lt_irrefl _ hab

/-- The state of a block before it is completed. -/
def incomplete (b : Block) : State := .fresh (NatSet.ofList b.members)

def blockKeys (p : Partition) : List NatSet := p.map fun b => NatSet.ofList b.members

theorem nodup_blockKeys (hp : p.Divides s) : (blockKeys p).Nodup := by
  apply List.pairwise_map.mpr
  apply (List.nodup_flatMap.mp hp.nodup).2.imp
  intro a b hab heq
  have ha : a.representative ∈ NatSet.ofList b.members := heq ▸ NatSet.mem_ofList.mpr List.mem_cons_self
  exact hab List.mem_cons_self (NatSet.mem_ofList.mp ha)

section Build

variable (hs : (d.restrict s).Trimmed s) (hp : p.Divides s) (hclass : (d.restrict s).ByLanguage s p)
variable {xs ys : List State}

include hp in
theorem linkAll?_classesAhead (hsize : xs.length + ys.length + 1 = p.length) (key : NatSet) (accept : Bool) :
    (among xs ⟨key, accept, .empty⟩ ys).linkAll? xs.length
        (d.alphabet.zip (d.classesAhead s p b.representative)) =
      some (among xs ⟨key, accept, (d.restrict s).profile p b.representative⟩ ys) := by
  rw [classesAhead, ← List.map_prod_left_eq_zip]
  apply linkAll?_among (x := ⟨key, accept, .empty⟩) (nodup_alphabet d)
  · intro c _
    rfl
  · intro c t ht
    obtain ⟨u, hu, rfl⟩ := Option.map_eq_some_iff.mp ht
    rw [hsize]
    exact hp.index_lt (next?_restrict.mp hu).2
  · intro c
    rw [profile, Row.get?_map]
    split
    · rfl
    · rename_i hc
      exact congrArg (Option.map p.index) (next?_eq_none_of_not_mem hc)

include hs hp hclass

theorem classesAhead?_member (hb : b ∈ p) (hq : q ∈ b.members) :
    d.classesAhead? s (p.classes d.size) q = some (d.classesAhead s p b.representative) := by
  have hsame : p.Same q b.representative := ⟨b, hb, hq, List.mem_cons_self⟩
  rw [classesAhead?_eq (fun q hq => size_restrict ▸ hs.states q hq) hp, Option.some.injEq, classesAhead_eq_iff]
  exact hclass.profile_eq hs hp hsame

theorem complete?_eq (hb : p[xs.length]? = some b) (hsize : xs.length + ys.length + 1 = p.length) :
    d.complete? s (p.classes d.size) (blockKeys p).toArray (among xs (incomplete b) ys) (b.members, xs.length) =
      some (among xs ((d.restrict s).collapsed p b) ys) := by
  have hmem : b ∈ p := List.mem_of_getElem? hb
  have hkey : (blockKeys p).toArray[xs.length]? = some (NatSet.ofList b.members) := by
    simp [blockKeys, hb]
  have hfirst : b.members[0]? = some b.representative := rfl
  have hexpected := classesAhead?_member hs hp hclass hmem List.mem_cons_self
  have hagree : agree? (d.classesAhead? s (p.classes d.size)) (d.classesAhead s p b.representative)
      (b.members.drop 1) = some () :=
    agree?_eq fun q hq => classesAhead?_member hs hp hclass hmem (List.mem_of_mem_drop hq)
  simp only [complete?, hkey, hfirst, hexpected, hagree, setAccept?_among, Option.bind_eq_bind, Option.bind_some]
  rw [incomplete, State.fresh, linkAll?_classesAhead hp hsize, collapsed, accepting_restrict]

/-- Class by class the states are completed; `done` are the classes whose states are complete. -/
theorem complete_all {done rest : Partition} (hsplit : p = done ++ rest) :
    ((rest.map Block.members).zipIdx done.length).foldlM (d.complete? s (p.classes d.size) (blockKeys p).toArray)
        ⟨.classes, (done.map ((d.restrict s).collapsed p) ++ rest.map incomplete).toArray⟩ =
      some ((d.restrict s).ofBlocks p) := by
  induction rest generalizing done with
  | nil =>
    obtain rfl : p = done := by simpa using hsplit
    simp [ofBlocks]
  | cons b rest ih =>
    have hget : p[(done.map ((d.restrict s).collapsed p)).length]? = some b := by simp [hsplit]
    have hsize : (done.map ((d.restrict s).collapsed p)).length + (rest.map incomplete).length + 1 = p.length := by
      simp [hsplit, Nat.add_assoc]
    have hstep := complete?_eq hs hp hclass hget hsize
    have hsplit' : p = (done ++ [b]) ++ rest := by simp [hsplit]
    have hnext := ih hsplit'
    simp only [among, List.length_map] at hstep
    simp only [List.map_append, List.map_singleton, List.length_append, List.length_singleton, List.append_assoc,
      List.singleton_append] at hnext
    simp only [List.map_cons, List.zipIdx_cons, List.foldlM_cons, hstep, Option.bind_eq_bind, Option.bind_some]
    exact hnext

end Build

theorem fromClasses?_eq (hs : (d.restrict s).Trimmed s) (hp : p.Divides s)
    (hclass : (d.restrict s).ByLanguage s (inOrder p)) :
    d.fromClasses? s (p.map Block.members) = some ((d.restrict s).ofBlocks (inOrder p)) := by
  have horder := hp.of_perm (inOrder_perm p)
  have hne : blockKeys (inOrder p) ≠ [] := by
    obtain ⟨b, hb, _⟩ := horder.mem_iff.mp hs.start
    exact List.ne_nil_of_mem (List.mem_map_of_mem hb)
  have htable := classTable?_divides (d := d) (fun q hq => size_restrict ▸ hs.states q hq) horder
  have hkeys : ((inOrder p).map Block.members).map NatSet.ofList = blockKeys (inOrder p) := List.map_map
  have hstart := enterKeys?_eq hne (nodup_blockKeys horder)
  simp only [fromClasses?, sorted_members hp, htable, hkeys, hstart, Option.bind_eq_bind, Option.bind_some]
  have hincomplete : (blockKeys (inOrder p)).map State.fresh = (inOrder p).map incomplete := List.map_map
  rw [hincomplete]
  exact complete_all hs horder hclass (List.nil_append (inOrder p)).symm

theorem members_filterMap (qss : List (List Nat)) :
    (qss.filterMap Block.ofList?).map Block.members = qss.filter fun qs => !qs.isEmpty := by
  induction qss with
  | nil => rfl
  | cons qs qss ih =>
    cases qs with
    | nil => exact ih
    | cons q qs => exact congrArg (List.cons (q :: qs)) ih

theorem split_members (d : Dfa) (s : NatSet) : ((d.restrict s).split s).map Block.members =
    [s.toList.filter d.accepts, s.toList.filter fun q => !d.accepts q].filter fun qs => !qs.isEmpty := by
  have haccepts : (d.restrict s).accepts = d.accepts := funext fun q => accepts_restrict
  rw [split, members_filterMap, haccepts]

/-- No place is missing in any table, every live target has a class, and the states of a class agree:
with all places and checks seen to, minimization has a result, and it is the minimal automaton. -/
theorem minimize_by_tables (hd : d.InRange) :
    ∃ m, d.minimize = .ok m ∧ d.minimizeByTables? = some m := by
  obtain ⟨p, hstable, hdivides, hclass, hminimize⟩ := exists_blocks hd
  have hsplit := divides_split (d.restrict d.live) d.live
  have htotal : Partition.total ((d.restrict d.live).split d.live) = d.live.toList.length :=
    hsplit.perm.length_eq
  have hfuel : Partition.total ((d.restrict d.live).split d.live) -
      ((d.restrict d.live).split d.live).length < d.live.toList.length + 1 := by
    omega
  have hrounds := rounds?_eq (fun q hq => lt_of_mem_live hd hq) hsplit hstable hfuel
  rw [split_members] at hrounds
  have hclasses := fromClasses?_eq (trimmed_live hd) hdivides hclass
  refine ⟨_, hminimize, ?_⟩
  simp only [minimizeByTables?, findLive?_eq hd, hrounds, hclasses, Option.bind_eq_bind, Option.bind_some]

/-- Two ways to an accepting state, through states that do the same. -/
def diamond : Dfa :=
  ⟨.nfaStates, #[⟨.singleton 0, false, .ofList [('a', 1), ('b', 2)]⟩, ⟨.singleton 1, false, .ofList [('b', 3)]⟩,
    ⟨.singleton 2, false, .ofList [('b', 4)]⟩, ⟨.singleton 3, true, .empty⟩, ⟨.singleton 4, true, .empty⟩]⟩

theorem minimize_by_tables_diamond :
    diamond.InRange ∧ ∃ m, diamond.minimize = .ok m ∧ diamond.minimizeByTables? = some m :=
  ⟨by decide, minimize_by_tables (by decide)⟩

/-- A target that is no state has no place in the table of sources. -/
example : (Dfa.mk .nfaStates #[⟨.singleton 0, true, .ofList [('a', 5)]⟩]).minimizeByTables? = none := by
  decide +kernel

end PatternAutomata.Dfa
