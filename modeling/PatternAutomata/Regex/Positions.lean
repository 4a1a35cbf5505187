import PatternAutomata.NatSet
import PatternAutomata.Regex.Basic

/-!
# Positions

The leaves of a term are numbered from one, from left to right. `Regex.linearize` puts each leaf's
position in its place, and over the positions three attributes are computed: whether the empty word
is matched, which positions begin a matched word and which end one. `Regex.follow` gives the
positions that come directly behind another one inside a word.
-/

namespace PatternAutomata

set_option autoImplicit false

namespace Regex

variable {α : Type}

def width : Regex α → Nat
  | epsilon => 0
  | leaf _ => 1
  | star r => r.width
  | concat l r => l.width + r.width
  | union l r => l.width + r.width

@[simp] theorem length_leaves (r : Regex α) : r.leaves.length = r.width := by
  induction r with
  | epsilon => rfl
  | leaf a => rfl
  | star r ih => exact ih
  | concat l r ihl ihr => simp [leaves, width, ihl, ihr]
  | union l r ihl ihr => simp [leaves, width, ihl, ihr]

/-- The term with consecutive numbers for leaves, the first of them `k`. -/
def numberFrom (k : Nat) : Regex α → Regex Nat
  | epsilon => epsilon
  | leaf _ => leaf k
  | star r => star (r.numberFrom k)
  | concat l r => concat (l.numberFrom k) (r.numberFrom (k + l.width))
  | union l r => union (l.numberFrom k) (r.numberFrom (k + l.width))

def linearize (r : Regex α) : Regex Nat := r.numberFrom 1

theorem leaves_numberFrom (k : Nat) (r : Regex α) : (r.numberFrom k).leaves = List.range' k r.width := by
  induction r generalizing k with
  | epsilon => rfl
  | leaf a => rfl
  | star r ih => exact ih k
  | concat l r ihl ihr => simp [numberFrom, leaves, width, ihl, ihr, List.range'_append_1]
  | union l r ihl ihr => simp [numberFrom, leaves, width, ihl, ihr, List.range'_append_1]

theorem mem_leaves_linearize {r : Regex α} {p : Nat} : p ∈ r.linearize.leaves ↔ 1 ≤ p ∧ p ≤ r.width := by
  rw [linearize, leaves_numberFrom, List.mem_range'_1]
  omega

def leafAt? (r : Regex α) (p : Nat) : Option α := if p = 0 then none else r.leaves[p - 1]?

/-- The last position that holds the end mark. -/
def endPosition? (r : Regex Letter) : Option Nat :=
  (((r.leaves.zipIdx 1).filter fun x => x.1 = .endMark).getLast?).map Prod.snd

/-- Whether a term over positions matches the empty word, and where its words begin and end. -/
structure Attributes where
  nullable : Bool
  first : NatSet
  last : NatSet
deriving DecidableEq

namespace Attributes

@[simp] def empty : Attributes := ⟨true, ∅, ∅⟩

@[simp] def position (p : Nat) : Attributes := ⟨false, .singleton p, .singleton p⟩

@[simp] def star (a : Attributes) : Attributes := ⟨true, a.first, a.last⟩

@[simp] def concat (a b : Attributes) : Attributes :=
  ⟨a.nullable && b.nullable, if a.nullable then a.first ∪ b.first else a.first,
    if b.nullable then b.last ∪ a.last else b.last⟩

@[simp] def union (a b : Attributes) : Attributes := ⟨a.nullable || b.nullable, a.first ∪ b.first, a.last ∪ b.last⟩

end Attributes

def attributes : Regex Nat → Attributes
  | epsilon => .empty
  | leaf p => .position p
  | star r => r.attributes.star
  | concat l r => l.attributes.concat r.attributes
  | union l r => l.attributes.union r.attributes

theorem mem_leaves_of_first {r : Regex Nat} {p : Nat} (h : p ∈ r.attributes.first) : p ∈ r.leaves := by
  induction r with
  | epsilon => simp [attributes] at h
  | leaf q => simpa [attributes, leaves] using h
  | star r ih => exact ih h
  | concat l r ihl ihr =>
    simp only [attributes, Attributes.concat] at h
    rw [leaves, List.mem_append]
    split at h
    · exact (NatSet.mem_union.mp h).imp ihl ihr
    · exact Or.inl (ihl h)
  | union l r ihl ihr =>
    rw [leaves, List.mem_append]
    exact (NatSet.mem_union.mp h).imp ihl ihr

theorem mem_leaves_of_last {r : Regex Nat} {p : Nat} (h : p ∈ r.attributes.last) : p ∈ r.leaves := by
  induction r with
  | epsilon => simp [attributes] at h
  | leaf q => simpa [attributes, leaves] using h
  | star r ih => exact ih h
  | concat l r ihl ihr =>
    simp only [attributes, Attributes.concat] at h
    rw [leaves, List.mem_append]
    split at h
    · exact (NatSet.mem_union.mp h).symm.imp ihl ihr
    · exact Or.inr (ihr h)
  | union l r ihl ihr =>
    rw [leaves, List.mem_append]
    exact (NatSet.mem_union.mp h).imp ihl ihr

/-- The subterms of a term, each behind its own subterms and the left ones first. -/
def postorder : Regex α → List (Regex α)
  | epsilon => [epsilon]
  | leaf a => [leaf a]
  | star r => r.postorder ++ [star r]
  | concat l r => l.postorder ++ r.postorder ++ [concat l r]
  | union l r => l.postorder ++ r.postorder ++ [union l r]

@[simp] theorem length_postorder (r : Regex α) : r.postorder.length = r.size := by
  induction r with
  | epsilon => rfl
  | leaf a => rfl
  | star r ih => simp [postorder, size, ih]
  | concat l r ihl ihr => simp [postorder, size, ihl, ihr]; omega
  | union l r ihl ihr => simp [postorder, size, ihl, ihr]; omega

/-- A node with its children named by their places in post-order. -/
inductive Shape where
  | epsilon
  | leaf (position : Nat)
  | star (child : Nat)
  | concat (left right : Nat)
  | union (left right : Nat)
deriving DecidableEq

/-- The shape of a subterm at place `id`: the right child stands directly in front of it, and the
left child in front of all nodes of the right one. -/
def shapeAt (id : Nat) : Regex Nat → Shape
  | epsilon => .epsilon
  | leaf p => .leaf p
  | star _ => .star (id - 1)
  | concat _ r => .concat (id - 1 - r.size) (id - 1)
  | union _ r => .union (id - 1 - r.size) (id - 1)

structure Node where
  shape : Shape
  attributes : Attributes
deriving DecidableEq

def nodes (r : Regex α) : List Node :=
  r.linearize.postorder.zipIdx.map fun x => ⟨x.1.shapeAt x.2, x.1.attributes⟩

@[simp] theorem length_nodes (r : Regex α) : r.nodes.length = r.linearize.size := by simp [nodes]

/-- Pairs of position sets: each of the first set is followed by each of the second. A concatenation
leads from the ends of its left side to the beginnings of its right side, a star from its ends to
its beginnings. -/
def links : Regex Nat → List (NatSet × NatSet)
  | epsilon => []
  | leaf _ => []
  | star r =>
    let a := r.attributes
    r.links ++ [(a.last, a.first)]
  | concat l r => l.links ++ r.links ++ [(l.attributes.last, r.attributes.first)]
  | union l r => l.links ++ r.links

def followers (links : List (NatSet × NatSet)) (p : Nat) : NatSet :=
  NatSet.unions ((links.filter fun x => decide (p ∈ x.1)).map Prod.snd)

@[simp] theorem mem_followers {links : List (NatSet × NatSet)} {p q : Nat} :
    q ∈ followers links p ↔ ∃ x ∈ links, p ∈ x.1 ∧ q ∈ x.2 := by
  simp only [followers, NatSet.mem_unions, List.mem_map, List.mem_filter, decide_eq_true_eq]
  constructor
  · rintro ⟨s, ⟨x, ⟨hx, hp⟩, rfl⟩, hq⟩
    exact ⟨x, hx, hp, hq⟩
  · rintro ⟨x, hx, hp, hq⟩
    exact ⟨x.2, ⟨x, ⟨hx, hp⟩, rfl⟩, hq⟩

def follow (r : Regex Nat) (p : Nat) : NatSet := followers r.links p

theorem mem_leaves_of_links {r : Regex Nat} {x : NatSet × NatSet} (hx : x ∈ r.links) {q : Nat} (hq : q ∈ x.2) :
    q ∈ r.leaves := by
  induction r with
  | epsilon => simp [links] at hx
  | leaf p => simp [links] at hx
  | star r ih =>
    rcases List.mem_append.mp hx with h | h
    · exact ih h
    · obtain rfl := List.mem_singleton.mp h
      exact mem_leaves_of_first (r := r) hq
  | concat l r ihl ihr =>
    rw [leaves, List.mem_append]
    rcases List.mem_append.mp hx with h | h
    · exact (List.mem_append.mp h).imp ihl ihr
    · obtain rfl := List.mem_singleton.mp h
      exact Or.inr (mem_leaves_of_first hq)
  | union l r ihl ihr =>
    rw [leaves, List.mem_append]
    exact (List.mem_append.mp hx).imp ihl ihr

theorem mem_leaves_of_follow {r : Regex Nat} {p q : Nat} (h : q ∈ r.follow p) : q ∈ r.leaves := by
  obtain ⟨x, hx, _, hq⟩ := mem_followers.mp h
  exact mem_leaves_of_links hx hq

/-- For every position of a term, in order, the positions that can follow it. -/
def followTable (r : Regex α) : Array NatSet :=
  let pairs := r.linearize.links
  ((List.range' 1 r.width).map (followers pairs)).toArray

theorem followTable_getElem? (r : Regex α) (i : Nat) :
    r.followTable[i]? = if i < r.width then some (r.linearize.follow (i + 1)) else none := by
  by_cases h : i < r.width
  · simp [followTable, h, follow, Nat.add_comm]
  · simp [followTable, h]

end Regex
end PatternAutomata
