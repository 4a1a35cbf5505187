import PatternAutomata.Ascending

/-!
# Finite sets of numbers

A `NatSet` is its strictly ascending list of members, so two sets with the same members are the
same value (`NatSet.ext_mem`). Every operation is stated through membership: `mem_insert`,
`mem_ofList`, `mem_union`, `mem_filter`.
-/

namespace PatternAutomata

set_option autoImplicit false

/-- A finite set of numbers, stored in ascending order without repetition. -/
structure NatSet where
  toList : List Nat
  ascending : toList.Pairwise (· < ·)
deriving DecidableEq

namespace NatSet

instance : Membership Nat NatSet := ⟨fun s q => q ∈ s.toList⟩

theorem mem_def {q : Nat} {s : NatSet} : q ∈ s ↔ q ∈ s.toList := Iff.rfl

instance (q : Nat) (s : NatSet) : Decidable (q ∈ s) := inferInstanceAs (Decidable (q ∈ s.toList))

theorem ext_toList {s t : NatSet} (h : s.toList = t.toList) : s = t := by
  cases s
  cases t
  simp_all

theorem ext_mem {s t : NatSet} (h : ∀ q, q ∈ s ↔ q ∈ t) : s = t :=
  ext_toList (Ascending.ext_mem s.ascending t.ascending h)

def empty : NatSet := ⟨[], .nil⟩

instance : EmptyCollection NatSet := ⟨empty⟩
instance : Inhabited NatSet := ⟨empty⟩

@[simp] theorem toList_empty : (∅ : NatSet).toList = [] := rfl

@[simp] theorem not_mem_empty (q : Nat) : q ∉ (∅ : NatSet) := by simp [mem_def]

theorem eq_empty_iff {s : NatSet} : s = ∅ ↔ ∀ q, q ∉ s := by
  constructor
  · intro h q
    rw [h]
    exact not_mem_empty q
  · intro h
    apply ext_mem
    intro q
    exact iff_of_false (h q) (not_mem_empty q)

theorem exists_mem_of_ne_empty {s : NatSet} (h : s ≠ ∅) : ∃ q, q ∈ s := by
  apply List.exists_mem_of_ne_nil
  intro he
  exact h (ext_toList he)

def singleton (q : Nat) : NatSet := ⟨[q], List.pairwise_singleton _ q⟩

@[simp] theorem mem_singleton {p q : Nat} : p ∈ singleton q ↔ p = q := by simp [mem_def, singleton]

def isEmpty (s : NatSet) : Bool := s.toList.isEmpty

@[simp] theorem isEmpty_iff {s : NatSet} : s.isEmpty = true ↔ s = ∅ := by
  rw [isEmpty, List.isEmpty_iff]
  exact ⟨fun h => ext_toList h, fun h => by rw [h]; rfl⟩

def size (s : NatSet) : Nat := s.toList.length

def nonempty? (s : NatSet) : Option NatSet := if s.isEmpty then none else some s

theorem nonempty?_eq_some {s t : NatSet} : s.nonempty? = some t ↔ s = t ∧ s ≠ ∅ := by
  rw [nonempty?]
  split
  · rename_i h
    simp [isEmpty_iff.mp h]
  · rename_i h
    simp [mt isEmpty_iff.mpr h]

def first? (s : NatSet) : Option Nat := s.toList.head?

def insert (q : Nat) (s : NatSet) : NatSet := ⟨Ascending.insert q s.toList, Ascending.pairwise_insert q s.ascending⟩

@[simp] theorem mem_insert {p q : Nat} {s : NatSet} : p ∈ s.insert q ↔ p = q ∨ p ∈ s := Ascending.mem_insert

def contains (s : NatSet) (q : Nat) : Bool := Ascending.contains s.toList q

theorem contains_iff {q : Nat} {s : NatSet} : s.contains q = true ↔ q ∈ s := Ascending.contains_iff s.ascending

theorem ascending_add (q : Nat) (s : NatSet) : (Ascending.add q s.toList).1.Pairwise (· < ·) := by
  rw [Ascending.add_eq s.ascending]
  exact Ascending.pairwise_insert q s.ascending

/-- The set with `q` added, and whether `q` is new to it. -/
def add (q : Nat) (s : NatSet) : NatSet × Bool :=
  (⟨(Ascending.add q s.toList).1, ascending_add q s⟩, (Ascending.add q s.toList).2)

theorem add_eq (q : Nat) (s : NatSet) : s.add q = (s.insert q, decide (q ∉ s)) := by
  simp only [add, Ascending.add_eq s.ascending]
  rfl

def ofList (qs : List Nat) : NatSet := qs.foldr insert ∅

@[simp] theorem mem_ofList {p : Nat} {qs : List Nat} : p ∈ ofList qs ↔ p ∈ qs := by
  induction qs with
  | nil => simp [ofList]
  | cons q qs ih =>
    rw [List.mem_cons, ← ih]
    exact mem_insert

/-- The set with all of `qs` added, one after the other. -/
def insertAll (s : NatSet) (qs : List Nat) : NatSet := qs.foldl (fun s q => s.insert q) s

@[simp] theorem mem_insertAll {p : Nat} {s : NatSet} {qs : List Nat} :
    p ∈ s.insertAll qs ↔ p ∈ s ∨ p ∈ qs := by
  induction qs generalizing s with
  | nil => simp [insertAll]
  | cons q qs ih =>
    have h := ih (s := s.insert q)
    simp only [insertAll, List.foldl_cons] at h ⊢
    rw [h, mem_insert, List.mem_cons, or_assoc, or_left_comm]

def union (s t : NatSet) : NatSet where
  toList := Ascending.merge s.toList t.toList
  ascending := Ascending.pairwise_merge s.ascending t.ascending

instance : Union NatSet := ⟨union⟩

@[simp] theorem mem_union {q : Nat} {s t : NatSet} : q ∈ s ∪ t ↔ q ∈ s ∨ q ∈ t :=
  Ascending.mem_merge s.toList t.toList

def unions (ss : List NatSet) : NatSet := ss.foldr (· ∪ ·) ∅

@[simp] theorem mem_unions {q : Nat} {ss : List NatSet} : q ∈ unions ss ↔ ∃ s ∈ ss, q ∈ s := by
  induction ss with
  | nil => simp [unions]
  | cons s ss ih =>
    have h : unions (s :: ss) = s ∪ unions ss := rfl
    simp [h, ih]

def filter (p : Nat → Bool) (s : NatSet) : NatSet := ⟨s.toList.filter p, s.ascending.filter p⟩

@[simp] theorem mem_filter {q : Nat} {p : Nat → Bool} {s : NatSet} : q ∈ s.filter p ↔ q ∈ s ∧ p q = true :=
  List.mem_filter

def intersects (s t : NatSet) : Bool := Ascending.meets s.toList t.toList

theorem intersects_iff {s t : NatSet} : s.intersects t = true ↔ ∃ q, q ∈ s ∧ q ∈ t :=
  Ascending.meets_iff s.ascending t.ascending

/-- Lexicographic comparison of ascending lists; a list comes after its initial parts. -/
def compareLists : List Nat → List Nat → Ordering
  | [], [] => .eq
  | [], _ :: _ => .lt
  | _ :: _, [] => .gt
  | x :: xs, y :: ys => if x < y then .lt else if y < x then .gt else compareLists xs ys

instance : Ord NatSet := ⟨fun s t => compareLists s.toList t.toList⟩

/-- The members in braces, separated by a comma and a blank. -/
def chars (s : NatSet) : List Char :=
  '\x7b' :: (", ".toList.intercalate (s.toList.map (Nat.toDigits 10))) ++ ['\x7d']

instance : ToString NatSet := ⟨fun s => String.ofList s.chars⟩

end NatSet
end PatternAutomata
