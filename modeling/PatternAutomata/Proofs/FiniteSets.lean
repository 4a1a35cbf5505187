import Mathlib.Data.Finset.Sort
import PatternAutomata.NatSet

/-!
# Ascending lists as finite sets

A set of numbers is stored as the ascending list of its members. Steps make and change such lists, in any
order, by searching and merging them: they keep them in ascending order, and the lists stand for the finite
sets that the same steps make. Every set is stored in one way only, and what is asked about it is answered as
for the finite set.
-/

namespace PatternAutomata.NatSet

set_option autoImplicit false

variable {s t : NatSet} {q : Nat}

def members (s : NatSet) : Finset Nat := s.toList.toFinset

@[simp] theorem mem_members : q ∈ s.members ↔ q ∈ s := List.mem_toFinset

/-- The members of a set determine how it is stored. -/
theorem toList_eq_sort (s : NatSet) : s.toList = s.members.sort := by
  have hnodup : s.toList.Nodup := s.ascending.imp Nat.ne_of_lt
  exact ((List.toFinset_sort _ hnodup).mpr (s.ascending.imp Nat.le_of_lt)).symm

theorem members_empty : (∅ : NatSet).members = ∅ := rfl

theorem members_singleton (p : Nat) : (singleton p).members = {p} := by
  ext q
  simp

theorem members_ofList (ps : List Nat) : (ofList ps).members = ps.toFinset := by
  ext q
  simp

theorem members_add (p : Nat) (s : NatSet) : (s.add p).1.members = Insert.insert p s.members := by
  ext q
  simp [add_eq]

theorem members_insertAll (s : NatSet) (ps : List Nat) : (s.insertAll ps).members = s.members ∪ ps.toFinset := by
  ext q
  simp

theorem members_union (s t : NatSet) : (s ∪ t).members = s.members ∪ t.members := by
  ext q
  simp

theorem contains_eq_true : s.contains q = true ↔ q ∈ s.members := by
  rw [contains_iff, mem_members]

theorem add_eq_true : (s.add q).2 = true ↔ q ∉ s.members := by
  simp [add_eq]

theorem intersects_eq_true : s.intersects t = true ↔ (s.members ∩ t.members).Nonempty := by
  rw [intersects_iff]
  simp [Finset.Nonempty]

theorem size_eq_card (s : NatSet) : s.size = s.members.card := by
  rw [size, toList_eq_sort, Finset.length_sort]

theorem first?_eq_some : s.first? = some q ↔ IsLeast (s.members : Set Nat) q := by
  obtain ⟨ps, hps⟩ := s
  simp only [IsLeast, lowerBounds, Set.mem_ofPred_eq, Finset.mem_coe, mem_members, mem_def, first?]
  cases ps with
  | nil => simp
  | cons p ps =>
    have hlt : ∀ r ∈ ps, p < r := (List.pairwise_cons.mp hps).1
    rw [List.head?_cons, Option.some.injEq]
    constructor
    · intro h
      subst h
      refine ⟨List.mem_cons_self, ?_⟩
      intro r hr
      rcases List.mem_cons.mp hr with rfl | hr
      · exact Nat.le_refl r
      · exact Nat.le_of_lt (hlt r hr)
    · intro h
      obtain ⟨hq, hmin⟩ := h
      have hqp := hmin List.mem_cons_self
      rcases List.mem_cons.mp hq with rfl | hq
      · rfl
      · have := hlt q hq
        omega

theorem first?_eq_none : s.first? = none ↔ s.members = ∅ := by
  rw [first?, List.head?_eq_none_iff, members, List.toFinset_eq_empty_iff]

/-- What can be done to sets in numbered registers: a set is put into a new register, or the set of a
register is changed. -/
inductive Step where
  | empty
  | singleton (q : Nat)
  | ofList (qs : List Nat)
  | copy (r : Nat)
  | add (r q : Nat)
  | insertAll (r : Nat) (qs : List Nat)
  | union (r r' : Nat)

structure Operations (σ : Type) where
  empty : σ
  singleton : Nat → σ
  ofList : List Nat → σ
  add : Nat → σ → σ
  insertAll : List Nat → σ → σ
  union : σ → σ → σ

/-- The registers behind a step. A step that names a register that is not there changes nothing. -/
def Step.apply {σ : Type} (o : Operations σ) (registers : List σ) : Step → List σ
  | empty => registers ++ [o.empty]
  | singleton q => registers ++ [o.singleton q]
  | ofList qs => registers ++ [o.ofList qs]
  | copy r => registers ++ registers[r]?.toList
  | add r q => registers.modify r (o.add q)
  | insertAll r qs => registers.modify r (o.insertAll qs)
  | union r r' =>
    match registers[r']? with
    | some t => registers.modify r fun s => o.union s t
    | none => registers

def runSteps {σ : Type} (o : Operations σ) (steps : List Step) : List σ := steps.foldl (Step.apply o) []

section Homomorphisms

variable {σ τ : Type} {o : Operations σ} {o' : Operations τ} {f : σ → τ}

structure Operations.Hom (o : Operations σ) (o' : Operations τ) (f : σ → τ) : Prop where
  empty : f o.empty = o'.empty
  singleton : ∀ q, f (o.singleton q) = o'.singleton q
  ofList : ∀ qs, f (o.ofList qs) = o'.ofList qs
  add : ∀ q s, f (o.add q s) = o'.add q (f s)
  insertAll : ∀ qs s, f (o.insertAll qs s) = o'.insertAll qs (f s)
  union : ∀ s t, f (o.union s t) = o'.union (f s) (f t)

theorem map_modify {g : σ → σ} {g' : τ → τ} (h : ∀ s, f (g s) = g' (f s)) (xs : List σ) (r : Nat) :
    (xs.modify r g).map f = (xs.map f).modify r g' := by
  induction xs generalizing r with
  | nil => simp
  | cons x xs ih =>
    cases r with
    | zero => simp [h]
    | succ r => simp [ih]

theorem Operations.Hom.apply (hf : o.Hom o' f) (registers : List σ) (x : Step) :
    (x.apply o registers).map f = x.apply o' (registers.map f) := by
  cases x with
  | empty => simp [Step.apply, hf.empty]
  | singleton q => simp [Step.apply, hf.singleton]
  | ofList qs => simp [Step.apply, hf.ofList]
  | copy r =>
    simp only [Step.apply, List.map_append, List.getElem?_map]
    cases registers[r]? with
    | none => rfl
    | some s => rfl
  | add r q => exact map_modify (hf.add q) registers r
  | insertAll r qs => exact map_modify (hf.insertAll qs) registers r
  | union r r' =>
    simp only [Step.apply, List.getElem?_map]
    cases registers[r']? with
    | none => rfl
    | some t => exact map_modify (fun s => hf.union s t) registers r

theorem Operations.Hom.runSteps (hf : o.Hom o' f) (steps : List Step) :
    (runSteps o steps).map f = NatSet.runSteps o' steps := by
  have hrun : ∀ registers, (steps.foldl (Step.apply o) registers).map f =
      steps.foldl (Step.apply o') (registers.map f) := by
    induction steps with
    | nil => exact fun _ => rfl
    | cons x steps ih =>
      intro registers
      rw [List.foldl_cons, ih, hf.apply, List.foldl_cons]
  exact hrun []

end Homomorphisms

/-- The lists themselves: a number is put where the search for it ends. -/
def storedOperations : Operations (List Nat) where
  empty := []
  singleton q := [q]
  ofList := Ascending.ofList
  add q xs := (Ascending.add q xs).1
  insertAll qs xs := Ascending.addAll xs qs
  union := Ascending.union

def setOperations : Operations NatSet where
  empty := ∅
  singleton := singleton
  ofList := ofList
  add q s := (s.add q).1
  insertAll qs s := s.insertAll qs
  union s t := s ∪ t

def finiteOperations : Operations (Finset Nat) where
  empty := ∅
  singleton q := {q}
  ofList qs := qs.toFinset
  add q s := Insert.insert q s
  insertAll qs s := s ∪ qs.toFinset
  union s t := s ∪ t

theorem toList_ofList (qs : List Nat) : (ofList qs).toList = Ascending.ofList qs := by
  apply Ascending.ext_mem (ofList qs).ascending (Ascending.pairwise_ofList qs)
  intro q
  rw [← mem_def, mem_ofList, Ascending.mem_ofList]

theorem toList_insertAll (s : NatSet) (qs : List Nat) : (s.insertAll qs).toList = Ascending.addAll s.toList qs := by
  induction qs generalizing s with
  | nil => rfl
  | cons q qs ih =>
    have hadd : (Ascending.add q s.toList).1 = (s.insert q).toList := by
      rw [Ascending.add_eq s.ascending]
      rfl
    have hrun := ih (s.insert q)
    rw [Ascending.addAll, List.foldl_cons, hadd]
    exact hrun

theorem hom_toList : setOperations.Hom storedOperations toList where
  empty := rfl
  singleton _ := rfl
  ofList := toList_ofList
  add _ _ := rfl
  insertAll qs s := toList_insertAll s qs
  union s t := (Ascending.union_eq s.toList t.toList).symm

theorem hom_members : setOperations.Hom finiteOperations members where
  empty := members_empty
  singleton := members_singleton
  ofList := members_ofList
  add := members_add
  insertAll qs s := members_insertAll s qs
  union := members_union

/-- The list is in ascending order and has the members of the set. -/
structure Stores (xs : List Nat) (s : Finset Nat) : Prop where
  ascending : xs.Pairwise (· < ·)
  mem_iff : ∀ q, q ∈ xs ↔ q ∈ s

theorem stores_members (s : NatSet) : Stores s.toList s.members := ⟨s.ascending, fun _ => mem_members.symm⟩

theorem stores_runSteps (steps : List Step) :
    List.Forall₂ Stores (runSteps storedOperations steps) (runSteps finiteOperations steps) := by
  rw [← hom_toList.runSteps steps, ← hom_members.runSteps steps, List.forall₂_map_left_iff, List.forall₂_map_right_iff,
    List.forall₂_same]
  exact fun s _ => stores_members s

theorem runSteps_eq_sort (steps : List Step) :
    runSteps storedOperations steps = (runSteps finiteOperations steps).map fun s => s.sort := by
  have hsort : toList = (fun s : Finset Nat => s.sort) ∘ members := by
    funext s
    exact s.toList_eq_sort
  rw [← hom_toList.runSteps steps, ← hom_members.runSteps steps, List.map_map, ← hsort]

/-- Steps on lists make ascending lists, the ones of the finite sets that the steps make, and each of these has one
list only. The sets of the library are these lists with their order, changed by the same searches and merges.
All questions about them are answered from their members. -/
theorem sets_as_finite_sets :
    (∀ steps, List.Forall₂ Stores (runSteps storedOperations steps) (runSteps finiteOperations steps) ∧
        runSteps storedOperations steps = (runSteps finiteOperations steps).map fun s => s.sort) ∧
      (setOperations.Hom storedOperations toList ∧ setOperations.Hom finiteOperations members) ∧
      (∀ steps, (runSteps setOperations steps).map toList = runSteps storedOperations steps ∧
        (runSteps setOperations steps).map members = runSteps finiteOperations steps) ∧
      (∀ s t : NatSet, (s = t ↔ s.toList = t.toList) ∧ (s = t ↔ ∀ q, q ∈ s.members ↔ q ∈ t.members)) ∧
      (∀ (s : NatSet) (q : Nat), (s.contains q = true ↔ q ∈ s.members) ∧ ((s.add q).2 = true ↔ q ∉ s.members)) ∧
      (∀ s t : NatSet, s.intersects t = true ↔ (s.members ∩ t.members).Nonempty) ∧
      ∀ s : NatSet, s.size = s.members.card ∧ (s.first? = none ↔ s.members = ∅) ∧
        ∀ q, s.first? = some q ↔ IsLeast (s.members : Set Nat) q := by
  refine ⟨?_, ⟨hom_toList, hom_members⟩, ?_, ?_, ?_, ?_, ?_⟩
  · intro steps
    exact ⟨stores_runSteps steps, runSteps_eq_sort steps⟩
  · intro steps
    exact ⟨hom_toList.runSteps steps, hom_members.runSteps steps⟩
  · intro s t
    refine ⟨⟨congrArg toList, ext_toList⟩, ⟨fun h q => by rw [h], fun h => ext_mem fun q => ?_⟩⟩
    rw [← mem_members, h, mem_members]
  · intro s q
    exact ⟨contains_eq_true, add_eq_true⟩
  · intro s t
    exact intersects_eq_true
  · intro s
    exact ⟨s.size_eq_card, first?_eq_none, fun q => first?_eq_some⟩

end PatternAutomata.NatSet
