import PatternAutomata.Proofs.Dfa.Building
import PatternAutomata.Proofs.Dfa.Trim
import PatternAutomata.Table

/-!
# Refinement by tables

The classes of a division are lists of states, and a table gives each state its class. A round puts the
states of a class one after the other into the groups of one list: a table has the places of the groups by
the signatures of their states, and a signature without a group gets a new one at the end of the list. All
the places are there, a round makes the groups of `Dfa.refined`, and the rounds end where those of
`Dfa.stabilize` do.
-/

namespace PatternAutomata

set_option autoImplicit false

namespace Partition

variable {p : Partition} {n : Nat}

/-- The class of every state below `n`; there must be a place for each member. -/
def classTable? (p : List (List Nat)) (n : Nat) : Option (Array (Option Nat)) :=
  p.zipIdx.foldlM
    (fun table x => x.1.foldlM (fun table q => Table.alter? table q fun _ => some x.2) table)
    (Array.replicate n none)

theorem assign_eq {i : Nat} (qs : List Nat) {table : Array (Option Nat)} (hqs : ∀ q ∈ qs, q < table.size) :
    qs.foldlM (fun table q => Table.alter? table q fun _ => some i) table =
      some (qs.foldl (fun table q => table.setIfInBounds q (some i)) table) := by
  induction qs generalizing table with
  | nil => rfl
  | cons q qs ih =>
    obtain ⟨hq, hqs⟩ := List.forall_mem_cons.mp hqs
    rw [List.foldlM_cons, Table.alter?_const hq, List.foldl_cons, ← ih (by rwa [Array.size_setIfInBounds])]
    rfl

theorem classTable?_eq (hp : ∀ b ∈ p, ∀ q ∈ b.members, q < n) :
    classTable? (p.map Block.members) n = some (p.classes n) := by
  have h : ∀ (k : Nat) (table : Array (Option Nat)), table.size = n →
      ((p.map Block.members).zipIdx k).foldlM
        (fun table x => x.1.foldlM (fun table q => Table.alter? table q fun _ => some x.2) table) table =
      some ((p.zipIdx k).foldl
        (fun table x => x.1.members.foldl (fun table q => table.setIfInBounds q (some x.2)) table) table) := by
    induction p with
    | nil => exact fun _ _ _ => rfl
    | cons b p ih =>
      intro k table hsize
      obtain ⟨hb, hp⟩ := List.forall_mem_cons.mp hp
      rw [List.map_cons, List.zipIdx_cons, List.foldlM_cons, assign_eq _ (hsize.symm ▸ hb), List.zipIdx_cons,
        List.foldl_cons, ← ih hp (k + 1) _ (by rw [size_assign, hsize])]
      rfl
  exact h 0 _ Array.size_replicate

section Groups

variable {σ : Type} [DecidableEq σ] {f : Nat → σ} {qs : List Nat} {q : Nat} {s : σ}

/-- The states of each tag, in the order in which the tags appear. -/
def gather (f : Nat → σ) (qs : List Nat) : List (List Nat) :=
  (qs.map f).eraseDups.map fun s => qs.filter fun q => decide (f q = s)

/-- The groups of a class while its states are put into them: the place of the group of each tag that has
one, and the list of all groups. -/
structure Groups (σ : Type) where
  places : List (σ × Nat)
  list : Array (List Nat)

/-- Puts a state into the group of its tag. The groups of the class stand behind `first` others, and a tag
without a group gets a new one. -/
def Groups.put? (first : Nat) (x : Groups σ) (s : σ) (q : Nat) : Option (Groups σ) :=
  let i := (x.places.lookup s).getD (first + x.places.length)
  let places := if (x.places.lookup s).isSome then x.places else x.places ++ [(s, i)]
  let list := if i = x.list.size then x.list.push [] else x.list
  (Table.alter? list i fun group => group ++ [q]).map fun list => ⟨places, list⟩

def groupsBehind (base : List (List Nat)) (f : Nat → σ) (qs : List Nat) : Groups σ :=
  ⟨(qs.map f).eraseDups.zipIdx base.length, (base ++ gather f qs).toArray⟩

theorem tags_concat (f : Nat → σ) (qs : List Nat) (q : Nat) : ((qs ++ [q]).map f).eraseDups =
    if f q ∈ qs.map f then (qs.map f).eraseDups else (qs.map f).eraseDups ++ [f q] := by
  rw [List.map_append, List.map_singleton, Dfa.eraseDups_concat]

theorem gather_concat_of_mem (h : f q ∈ qs.map f) {i : Nat} (hi : (qs.map f).eraseDups[i]? = some (f q)) :
    gather f (qs ++ [q]) = (gather f qs).modify i fun group => group ++ [q] := by
  apply List.ext_getElem?
  intro j
  rw [gather, gather, tags_concat, if_pos h, List.getElem?_modify, List.getElem?_map, List.getElem?_map]
  cases hj : (qs.map f).eraseDups[j]? with
  | none => rfl
  | some t =>
    have hiff : f q = t ↔ i = j := by
      rw [← Option.some_inj, ← hi, ← hj]
      exact List.getElem?_inj (List.getElem?_eq_some_iff.mp hi).1 (nodup_eraseDups _)
    by_cases hqt : f q = t
    · simp [List.filter_append, ← hiff, hqt]
    · simp [List.filter_append, ← hiff, hqt]

theorem gather_concat_of_not_mem (h : f q ∉ qs.map f) : gather f (qs ++ [q]) = gather f qs ++ [[q]] := by
  rw [gather, gather, tags_concat, if_neg h, List.map_append, List.map_singleton]
  congr 1
  · apply List.map_congr_left
    intro t ht
    have hne : f q ≠ t := by
      intro hqt
      exact h (hqt ▸ List.mem_eraseDups.mp ht)
    simp [List.filter_append, hne]
  · have hnone : (qs.filter fun p => decide (f p = f q)) = [] := by
      rw [List.filter_eq_nil_iff]
      intro p hp hpq
      exact h (List.mem_map.mpr ⟨p, hp, of_decide_eq_true hpq⟩)
    simp [List.filter_append, hnone]

theorem length_gather (f : Nat → σ) (qs : List Nat) : (gather f qs).length = (qs.map f).eraseDups.length := by
  rw [gather, List.length_map]

theorem lookup_groupsBehind (base : List (List Nat)) (f : Nat → σ) (qs : List Nat) (s : σ) :
    (groupsBehind base f qs).places.lookup s = ((qs.map f).eraseDups.idxOf? s).map fun i => base.length + i := by
  rw [groupsBehind, Dfa.lookup_zipIdx]
  simp only [Nat.add_comm]

theorem size_groupsBehind (base : List (List Nat)) (f : Nat → σ) (qs : List Nat) :
    (groupsBehind base f qs).list.size = base.length + (groupsBehind base f qs).places.length := by
  simp [groupsBehind, length_gather]

theorem put?_of_mem (base : List (List Nat)) (h : f q ∈ qs.map f) :
    (groupsBehind base f qs).put? base.length (f q) q = some (groupsBehind base f (qs ++ [q])) := by
  obtain ⟨i, hi⟩ := Option.isSome_iff_exists.mp (List.isSome_idxOf?.mpr (List.mem_eraseDups.mpr h))
  have hget := (SetMachine.idxOf?_eq_some (nodup_eraseDups _)).mp hi
  have hlookup := lookup_groupsBehind base f qs (f q)
  rw [hi, Option.map_some] at hlookup
  have hplace : base.length + i < (groupsBehind base f qs).list.size := by
    have hlt := (List.getElem?_eq_some_iff.mp hget).1
    rw [size_groupsBehind, groupsBehind, List.length_zipIdx]
    omega
  simp only [Groups.put?, hlookup, Option.getD_some, Option.isSome_some, if_true, if_neg (Nat.ne_of_lt hplace),
    Table.alter?_of_lt hplace, Option.map_some, Option.some.injEq]
  simp only [groupsBehind, tags_concat, if_pos h, gather_concat_of_mem h hget, List.modify_toArray,
    Table.modify_append]

theorem put?_of_not_mem (base : List (List Nat)) (h : f q ∉ qs.map f) :
    (groupsBehind base f qs).put? base.length (f q) q = some (groupsBehind base f (qs ++ [q])) := by
  have hlookup := lookup_groupsBehind base f qs (f q)
  rw [List.idxOf?_eq_none_iff.mpr (mt List.mem_eraseDups.mp h), Option.map_none] at hlookup
  have hlt : (groupsBehind base f qs).list.size < ((groupsBehind base f qs).list.push []).size := by simp
  have hnew : (base ++ gather f qs ++ [[]]).modify (base ++ gather f qs).length (fun group => group ++ [q]) =
      base ++ gather f qs ++ [[q]] := Table.modify_append _ _ 0
  have hzip : ((qs.map f).eraseDups ++ [f q]).zipIdx base.length =
      (qs.map f).eraseDups.zipIdx base.length ++ [(f q, (base ++ gather f qs).length)] := by
    simp [List.zipIdx_append, length_gather]
  simp only [Groups.put?, hlookup, Option.getD_none, Option.isSome_none, ← size_groupsBehind, if_true,
    Table.alter?_of_lt hlt, Option.map_some, Option.some.injEq]
  simp only [groupsBehind, tags_concat, if_neg h, gather_concat_of_not_mem h, List.push_toArray,
    List.modify_toArray, List.size_toArray, hnew, hzip, ← List.append_assoc, Bool.false_eq_true, if_false]

theorem put?_groupsBehind (base : List (List Nat)) (f : Nat → σ) (qs : List Nat) (q : Nat) :
    (groupsBehind base f qs).put? base.length (f q) q = some (groupsBehind base f (qs ++ [q])) := by
  by_cases h : f q ∈ qs.map f
  · exact put?_of_mem base h
  · exact put?_of_not_mem base h

/-- Appends the groups of a class; a class of one state is its only group. -/
def groupClass? (tag? : Nat → Option σ) (list : Array (List Nat)) (qs : List Nat) : Option (Array (List Nat)) :=
  if qs.length = 1 then some (list.push qs)
  else
    (qs.foldlM (fun (x : Groups σ) q => (tag? q).bind fun s => x.put? list.size s q) ⟨[], list⟩).map Groups.list

def regroup? (tag? : Nat → Option σ) (p : List (List Nat)) : Option (List (List Nat)) :=
  (p.foldlM (groupClass? tag?) #[]).map Array.toList

variable {tag? : Nat → Option σ}

theorem groupClass?_eq (base : List (List Nat)) (htag : ∀ q ∈ qs, tag? q = some (f q)) :
    groupClass? tag? base.toArray qs = some (base ++ gather f qs).toArray := by
  rw [groupClass?]
  split
  · rename_i hlength
    obtain ⟨q, rfl⟩ := List.length_eq_one_iff.mp hlength
    simp [gather, List.eraseDups_cons]
  · have hput : ∀ done q rest (x : Groups σ), qs = done ++ q :: rest → x = groupsBehind base f done →
        ∃ y, ((tag? q).bind fun s => x.put? base.toArray.size s q) = some y ∧
          y = groupsBehind base f (done ++ [q]) := by
      intro done q rest x hqs hx
      refine ⟨_, ?_, rfl⟩
      rw [htag q (by simp [hqs]), Option.bind_some, hx]
      exact put?_groupsBehind base f done q
    have hstart : (⟨[], base.toArray⟩ : Groups σ) = groupsBehind base f [] := by simp [groupsBehind, gather]
    obtain ⟨last, hlast, rfl⟩ := Table.exists_foldlM qs (motive := fun done x => x = groupsBehind base f done)
      hstart hput
    rw [hlast]
    rfl

theorem regroup?_eq {p : List (List Nat)} (htag : ∀ qs ∈ p, ∀ q ∈ qs, tag? q = some (f q)) :
    regroup? tag? p = some (p.flatMap (gather f)) := by
  have hgroup : ∀ done qs rest list, p = done ++ qs :: rest → list = (done.flatMap (gather f)).toArray →
      ∃ next, groupClass? tag? list qs = some next ∧ next = ((done ++ [qs]).flatMap (gather f)).toArray := by
    intro done qs rest list hp hlist
    refine ⟨_, hlist ▸ groupClass?_eq _ (htag qs (by simp [hp])), ?_⟩
    rw [List.flatMap_append, List.flatMap_singleton]
  obtain ⟨last, hlast, rfl⟩ := Table.exists_foldlM p
    (motive := fun done list => list = (done.flatMap (gather f)).toArray) rfl hgroup
  rw [regroup?]
  exact congrArg (Option.map Array.toList) hlast

theorem gather_cons (f : Nat → σ) (q : Nat) (qs : List Nat) :
    gather f (q :: qs) =
      (q :: qs.filter fun p => decide (f p = f q)) :: gather f (qs.filter fun p => decide (f p ≠ f q)) := by
  have hrest : (qs.map f).filter (fun s => !s == f q) = (qs.filter fun p => decide (f p ≠ f q)).map f := by
    rw [List.filter_map]
    congr 1
    apply List.filter_congr
    intro p _
    simp [beq_eq_decide]
  rw [gather, gather, List.map_cons, List.eraseDups_cons, hrest, List.map_cons]
  congr 1
  · simp
  · apply List.map_congr_left
    intro t ht
    obtain ⟨p, hp, rfl⟩ := List.mem_map.mp (List.mem_eraseDups.mp ht)
    have hne : f p ≠ f q := by simpa using (List.mem_filter.mp hp).2
    rw [List.filter_cons_of_neg (by simpa using hne.symm), List.filter_filter]
    apply List.filter_congr
    intro r _
    by_cases hr : f r = f p
    · simp [hr, hne]
    · simp [hr]

theorem tagged_map (f : Nat → σ) (qs : List Nat) :
    tagged s (qs.map fun q => (f q, q)) = qs.filter fun q => decide (f q = s) := by
  rw [tagged, List.filter_map, List.map_map]
  exact List.map_id _

theorem untagged_map (f : Nat → σ) (qs : List Nat) :
    untagged s (qs.map fun q => (f q, q)) = (qs.filter fun q => decide (f q ≠ s)).map fun q => (f q, q) := by
  rw [untagged, List.filter_map]
  rfl

theorem members_groups {τ : Type} [DecidableEq τ] {g : Nat → τ}
    (h : ∀ x ∈ qs, ∀ y ∈ qs, g x = g y ↔ f x = f y) :
    (groups (qs.map fun q => (g q, q))).map Block.members = gather f qs := by
  generalize hn : qs.length = n
  induction n using Nat.strongRecOn generalizing qs with
  | ind n ih =>
    cases qs with
    | nil => simp [groups, gather]
    | cons q qs =>
      have hrest : ∀ p ∈ qs, g p = g q ↔ f p = f q := fun p hp =>
        h p (List.mem_cons_of_mem q hp) q List.mem_cons_self
      have hsame : (qs.filter fun p => decide (g p = g q)) = qs.filter fun p => decide (f p = f q) :=
        List.filter_congr fun p hp => by simp [hrest p hp]
      have hother : (qs.filter fun p => decide (g p ≠ g q)) = qs.filter fun p => decide (f p ≠ f q) :=
        List.filter_congr fun p hp => by simp [hrest p hp]
      rw [List.map_cons, groups, List.map_cons, tagged_map, untagged_map, gather_cons, Block.members, hsame, hother]
      congr 1
      apply ih _ ?_ ?_ rfl
      · have := List.length_filter_le (fun p => decide (f p ≠ f q)) qs
        rw [List.length_cons] at hn
        omega
      · intro x hx y hy
        exact h x (List.mem_cons_of_mem q (List.mem_filter.mp hx).1) y
          (List.mem_cons_of_mem q (List.mem_filter.mp hy).1)

end Groups

end Partition

namespace Dfa

variable {d : Dfa} {p : Partition} {s : NatSet} {x y q : Nat}

/-- For every symbol of the alphabet the class of the target, if it is live. There must be a place for each
live target in the table of classes, and a class in it. -/
def classesAhead? (d : Dfa) (live : NatSet) (classes : Array (Option Nat)) (q : Nat) :
    Option (List (Option Nat)) :=
  d.alphabet.mapM fun c =>
    match (d.next? q c).filter fun t => decide (t ∈ live) with
    | none => some none
    | some t => classes[t]?.join.map some

def classesAhead (d : Dfa) (s : NatSet) (p : Partition) (q : Nat) : List (Option Nat) :=
  d.alphabet.map fun c => ((d.restrict s).next? q c).map p.index

theorem filter_next? (d : Dfa) (s : NatSet) (q : Nat) (c : Char) :
    ((d.next? q c).filter fun t => decide (t ∈ s)) = (d.restrict s).next? q c := by
  apply Option.ext
  intro t
  rw [next?_restrict, Option.filter_eq_some_iff, decide_eq_true_eq]

theorem next?_eq_none_of_not_mem {c : Char} (hc : c ∉ d.alphabet) : (d.restrict s).next? q c = none := by
  rw [Option.eq_none_iff_forall_ne_some]
  intro t ht
  exact hc (mem_alphabet_iff.mpr ⟨q, t, (next?_restrict.mp ht).1⟩)

theorem classesAhead_eq_iff : d.classesAhead s p x = d.classesAhead s p y ↔
    (d.restrict s).profile p x = (d.restrict s).profile p y := by
  rw [classesAhead, classesAhead, List.map_inj_left, profile_eq_iff]
  constructor
  · intro h c
    by_cases hc : c ∈ d.alphabet
    · exact h c hc
    · rw [next?_eq_none_of_not_mem hc, next?_eq_none_of_not_mem hc]
  · intro h c _
    exact h c

/-- The classes of a new division, by the classes of the targets in the old one. -/
def regroup? (d : Dfa) (live : NatSet) (p : List (List Nat)) : Option (List (List Nat)) :=
  (Partition.classTable? p d.size).bind fun classes => Partition.regroup? (d.classesAhead? live classes) p

/-- Rounds until one makes no more classes, at most `fuel` of them. -/
def rounds? (d : Dfa) (live : NatSet) : Nat → List (List Nat) → Option (List (List Nat))
  | 0, _ => none
  | fuel + 1, p =>
    (d.regroup? live p).bind fun next => if next.length = p.length then some next else rounds? d live fuel next

section Tables

variable (hs : ∀ q ∈ s, q < d.size) (hp : p.Divides s)
include hs hp

omit hp in
theorem closed_restrict : (d.restrict s).Closed s where
  states q hq := by
    rw [size_restrict]
    exact hs q hq
  edges _ _ _ _ h := (next?_restrict.mp h).2

theorem classTable?_divides : Partition.classTable? (p.map Block.members) d.size = some (p.classes d.size) :=
  Partition.classTable?_eq fun b hb q hq => hs q (hp.mem_iff.mpr ⟨b, hb, hq⟩)

theorem classesAhead?_eq (q : Nat) : d.classesAhead? s (p.classes d.size) q = some (d.classesAhead s p q) := by
  apply mapM_eq_some
  intro c _
  rw [filter_next?]
  cases ht : (d.restrict s).next? q c with
  | none => rfl
  | some t =>
    have hmem := (next?_restrict.mp ht).2
    simp [Partition.getElem?_classes hp hmem (hs t hmem)]

theorem regroup?_eq : d.regroup? s (p.map Block.members) = some (((d.restrict s).refined p).map Block.members) := by
  rw [regroup?, classTable?_divides hs hp, Option.bind_some,
    Partition.regroup?_eq fun qs _ q _ => classesAhead?_eq hs hp q, Option.some.injEq, refined, List.map_flatMap,
    List.flatMap_map]
  apply List.flatMap_congr
  intro b _
  symm
  apply Partition.members_groups
  intro x _ y _
  rw [classesAhead_eq_iff]
  exact ⟨Row.ext_toList, fun h => by rw [h]⟩

/-- The rounds by tables end, and where the others do. -/
theorem rounds?_eq {last : Partition} (hlast : (d.restrict s).stabilize p = .ok last) {fuel : Nat}
    (hfuel : p.total - p.length < fuel) : d.rounds? s fuel (p.map Block.members) = some (last.map Block.members) := by
  induction fuel generalizing p with
  | zero => omega
  | succ fuel ih =>
    have hclosed := closed_restrict hs
    have hlength := (d.restrict s).length_le_refined p
    rw [stabilize_eq hclosed hp] at hlast
    rw [rounds?, regroup?_eq hs hp, Option.bind_some, List.length_map, List.length_map]
    split at hlast
    · rename_i hlt
      have hless := rounds_lt hclosed hp hlt
      rw [if_neg (by omega)]
      exact ih (divides_refined hp) hlast (by omega)
    · rename_i hge
      rw [if_pos (by omega)]
      cases hlast
      rfl

end Tables

end Dfa
end PatternAutomata
