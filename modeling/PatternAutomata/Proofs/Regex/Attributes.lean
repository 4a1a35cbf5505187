import PatternAutomata.Proofs.Pattern.Evaluation

/-!
# Attributes of compound terms

Where the words of a compound term begin and end and what can follow a position, said in terms of its
parts. The numbers of the parts do not overlap, and every position can be followed or ends a word.
-/

namespace PatternAutomata.Regex

set_option autoImplicit false

variable {α : Type} {l r : Regex Nat} {p q : Nat}

theorem mem_follow : q ∈ r.follow p ↔ ∃ x ∈ r.links, p ∈ x.1 ∧ q ∈ x.2 := mem_followers

theorem mem_follow_star :
    q ∈ (star r).follow p ↔ q ∈ r.follow p ∨ (p ∈ r.attributes.last ∧ q ∈ r.attributes.first) := by
  simp only [mem_follow, links, List.mem_append, List.mem_singleton, or_and_right, exists_or, exists_eq_left]

theorem mem_follow_concat :
    q ∈ (concat l r).follow p ↔
      q ∈ l.follow p ∨ q ∈ r.follow p ∨ (p ∈ l.attributes.last ∧ q ∈ r.attributes.first) := by
  simp only [mem_follow, links, List.mem_append, List.mem_singleton, or_and_right, exists_or, exists_eq_left,
    or_assoc]

theorem mem_follow_union : q ∈ (union l r).follow p ↔ q ∈ l.follow p ∨ q ∈ r.follow p := by
  simp only [mem_follow, links, List.mem_append, or_and_right, exists_or]

theorem mem_leaves_of_links_source {x : NatSet × NatSet} (hx : x ∈ r.links) (hp : p ∈ x.1) : p ∈ r.leaves := by
  induction r with
  | epsilon => simp [links] at hx
  | leaf a => simp [links] at hx
  | star r ih =>
    rcases List.mem_append.mp hx with h | h
    · exact ih h
    · obtain rfl := List.mem_singleton.mp h
      exact mem_leaves_of_last (r := r) hp
  | concat l r ihl ihr =>
    rw [leaves, List.mem_append]
    rcases List.mem_append.mp hx with h | h
    · exact (List.mem_append.mp h).imp ihl ihr
    · obtain rfl := List.mem_singleton.mp h
      exact Or.inl (mem_leaves_of_last hp)
  | union l r ihl ihr =>
    rw [leaves, List.mem_append]
    exact (List.mem_append.mp hx).imp ihl ihr

theorem mem_leaves_of_follow_source (h : q ∈ r.follow p) : p ∈ r.leaves := by
  obtain ⟨x, hx, hp, _⟩ := mem_follow.mp h
  exact mem_leaves_of_links_source hx hp

theorem mem_first_concat :
    p ∈ (concat l r).attributes.first ↔
      p ∈ l.attributes.first ∨ (l.attributes.nullable = true ∧ p ∈ r.attributes.first) := by
  simp only [attributes, Attributes.concat]
  split
  · rename_i h
    simp [h]
  · rename_i h
    simp [h]

theorem mem_last_concat :
    p ∈ (concat l r).attributes.last ↔
      p ∈ r.attributes.last ∨ (r.attributes.nullable = true ∧ p ∈ l.attributes.last) := by
  simp only [attributes, Attributes.concat]
  split
  · rename_i h
    simp [h]
  · rename_i h
    simp [h]

theorem mem_first_union :
    p ∈ (union l r).attributes.first ↔ p ∈ l.attributes.first ∨ p ∈ r.attributes.first := NatSet.mem_union

theorem mem_last_union :
    p ∈ (union l r).attributes.last ↔ p ∈ l.attributes.last ∨ p ∈ r.attributes.last := NatSet.mem_union

/-- A term that matches more than the empty word has a first position. -/
theorem nullable_or_exists_first (r : Regex Nat) :
    r.attributes.nullable = true ∨ ∃ p, p ∈ r.attributes.first := by
  induction r with
  | epsilon => exact Or.inl rfl
  | leaf a => exact Or.inr ⟨a, NatSet.mem_singleton.mpr rfl⟩
  | star r _ => exact Or.inl rfl
  | concat l r ihl ihr =>
    rcases ihl with hl | ⟨p, hp⟩
    · rcases ihr with hr | ⟨p, hp⟩
      · exact Or.inl (by simp [attributes, hl, hr])
      · exact Or.inr ⟨p, mem_first_concat.mpr (Or.inr ⟨hl, hp⟩)⟩
    · exact Or.inr ⟨p, mem_first_concat.mpr (Or.inl hp)⟩
  | union l r ihl _ =>
    rcases ihl with hl | ⟨p, hp⟩
    · exact Or.inl (by simp [attributes, hl])
    · exact Or.inr ⟨p, mem_first_union.mpr (Or.inl hp)⟩

theorem mem_last_or_exists_follow (h : p ∈ r.leaves) :
    p ∈ r.attributes.last ∨ ∃ q, q ∈ r.follow p := by
  induction r with
  | epsilon => simp [leaves] at h
  | leaf a =>
    rw [leaves, List.mem_singleton] at h
    exact Or.inl (NatSet.mem_singleton.mpr h)
  | star r ih =>
    rcases ih h with hlast | ⟨q, hq⟩
    · exact Or.inl hlast
    · exact Or.inr ⟨q, mem_follow_star.mpr (Or.inl hq)⟩
  | concat l r ihl ihr =>
    rw [leaves, List.mem_append] at h
    rcases h with h | h
    · rcases ihl h with hlast | ⟨q, hq⟩
      · rcases nullable_or_exists_first r with hnull | ⟨q, hq⟩
        · exact Or.inl (mem_last_concat.mpr (Or.inr ⟨hnull, hlast⟩))
        · exact Or.inr ⟨q, mem_follow_concat.mpr (Or.inr (Or.inr ⟨hlast, hq⟩))⟩
      · exact Or.inr ⟨q, mem_follow_concat.mpr (Or.inl hq)⟩
    · rcases ihr h with hlast | ⟨q, hq⟩
      · exact Or.inl (mem_last_concat.mpr (Or.inl hlast))
      · exact Or.inr ⟨q, mem_follow_concat.mpr (Or.inr (Or.inl hq))⟩
  | union l r ihl ihr =>
    rw [leaves, List.mem_append] at h
    rcases h with h | h
    · rcases ihl h with hlast | ⟨q, hq⟩
      · exact Or.inl (mem_last_union.mpr (Or.inl hlast))
      · exact Or.inr ⟨q, mem_follow_union.mpr (Or.inl hq)⟩
    · rcases ihr h with hlast | ⟨q, hq⟩
      · exact Or.inl (mem_last_union.mpr (Or.inr hlast))
      · exact Or.inr ⟨q, mem_follow_union.mpr (Or.inr hq)⟩

theorem lt_width {r : Regex α} {a : α} {i : Nat} (h : r.leaves[i]? = some a) : i < r.width := by
  simpa using (List.getElem?_eq_some_iff.mp h).1

theorem mem_leaves_numberFrom {r : Regex α} {k : Nat} :
    p ∈ (r.numberFrom k).leaves ↔ k ≤ p ∧ p < k + r.width := by
  rw [leaves_numberFrom, List.mem_range'_1]

section Parts

variable {l r : Regex α} {k i : Nat}

theorem left_not_mem_right (hi : i < l.width) : k + i ∉ (r.numberFrom (k + l.width)).leaves := by
  rw [mem_leaves_numberFrom]
  omega

theorem right_not_mem_left : k + (i + l.width) ∉ (l.numberFrom k).leaves := by
  rw [mem_leaves_numberFrom]
  omega

theorem left_not_mem_first (hi : i < l.width) : k + i ∉ (r.numberFrom (k + l.width)).attributes.first :=
  fun h => left_not_mem_right hi (mem_leaves_of_first h)

theorem right_not_mem_first : k + (i + l.width) ∉ (l.numberFrom k).attributes.first :=
  fun h => right_not_mem_left (mem_leaves_of_first h)

theorem left_not_mem_last (hi : i < l.width) : k + i ∉ (r.numberFrom (k + l.width)).attributes.last :=
  fun h => left_not_mem_right hi (mem_leaves_of_last h)

theorem right_not_mem_last : k + (i + l.width) ∉ (l.numberFrom k).attributes.last :=
  fun h => right_not_mem_left (mem_leaves_of_last h)

theorem left_not_mem_follow (hi : i < l.width) : k + i ∉ (r.numberFrom (k + l.width)).follow p :=
  fun h => left_not_mem_right hi (mem_leaves_of_follow h)

theorem right_not_mem_follow : k + (i + l.width) ∉ (l.numberFrom k).follow p :=
  fun h => right_not_mem_left (mem_leaves_of_follow h)

theorem not_mem_follow_left (hi : i < l.width) : q ∉ (r.numberFrom (k + l.width)).follow (k + i) :=
  fun h => left_not_mem_right hi (mem_leaves_of_follow_source h)

theorem not_mem_follow_right : q ∉ (l.numberFrom k).follow (k + (i + l.width)) :=
  fun h => right_not_mem_left (mem_leaves_of_follow_source h)

end Parts

section Map

variable {β : Type}

theorem width_map (f : α → β) (r : Regex α) : (r.map f).width = r.width := by
  induction r with
  | epsilon => rfl
  | leaf a => rfl
  | star r ih => exact ih
  | concat l r ihl ihr => simp [map, width, ihl, ihr]
  | union l r ihl ihr => simp [map, width, ihl, ihr]

theorem leaves_map (f : α → β) (r : Regex α) : (r.map f).leaves = r.leaves.map f := by
  induction r with
  | epsilon => rfl
  | leaf a => rfl
  | star r ih => exact ih
  | concat l r ihl ihr => simp [map, leaves, ihl, ihr]
  | union l r ihl ihr => simp [map, leaves, ihl, ihr]

theorem numberFrom_map (f : α → β) (r : Regex α) (k : Nat) : (r.map f).numberFrom k = r.numberFrom k := by
  induction r generalizing k with
  | epsilon => rfl
  | leaf a => rfl
  | star r ih => simp [map, numberFrom, ih]
  | concat l r ihl ihr => simp [map, numberFrom, ihl, ihr, width_map]
  | union l r ihl ihr => simp [map, numberFrom, ihl, ihr, width_map]

end Map

end PatternAutomata.Regex
