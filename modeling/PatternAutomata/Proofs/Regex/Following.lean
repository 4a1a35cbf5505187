import PatternAutomata.Proofs.Regex.Attributes
import PatternAutomata.Proofs.Regex.Language

/-!
# What follows a position

The attributes of a term over positions say where its words begin and end, and whether it has the empty
word. Hence a position is listed behind another one exactly if some word has the two side by side. The
list of every position is found by going once through the nodes in post-order and adding to a table, in
which every position has its place.
-/

namespace PatternAutomata

set_option autoImplicit false

open scoped Computability

section Words

variable {α : Type} {L M : Language α} {p q : α}

def Begins (L : Language α) (p : α) : Prop := ∃ w, p :: w ∈ L

def Ends (L : Language α) (p : α) : Prop := ∃ w, w ++ [p] ∈ L

/-- Some word has `p` directly in front of `q`. -/
def Adjacent (L : Language α) (p q : α) : Prop := ∃ u v, u ++ p :: q :: v ∈ L

theorem begins_add : Begins (L + M) p ↔ Begins L p ∨ Begins M p := exists_or

theorem ends_add : Ends (L + M) p ↔ Ends L p ∨ Ends M p := exists_or

theorem adjacent_add : Adjacent (L + M) p q ↔ Adjacent L p q ∨ Adjacent M p q := by
  simp only [Adjacent, Language.mem_add, exists_or]

theorem begins_mul (hM : ∃ w, w ∈ M) : Begins (L * M) p ↔ Begins L p ∨ ([] ∈ L ∧ Begins M p) := by
  constructor
  · intro h
    obtain ⟨w, hw⟩ := h
    obtain ⟨u, hu, v, hv, huv⟩ := Language.mem_mul.mp hw
    cases u with
    | nil =>
      rw [List.nil_append] at huv
      exact Or.inr ⟨hu, w, huv ▸ hv⟩
    | cons a u =>
      obtain ⟨rfl, _⟩ := List.cons.inj huv
      exact Or.inl ⟨u, hu⟩
  · intro h
    rcases h with ⟨u, hu⟩ | ⟨hnil, w, hw⟩
    · obtain ⟨v, hv⟩ := hM
      exact ⟨u ++ v, Language.append_mem_mul hu hv⟩
    · exact ⟨w, Language.append_mem_mul hnil hw⟩

theorem ends_mul (hL : ∃ w, w ∈ L) : Ends (L * M) p ↔ Ends M p ∨ ([] ∈ M ∧ Ends L p) := by
  constructor
  · intro h
    obtain ⟨w, hw⟩ := h
    obtain ⟨u, hu, v, hv, huv⟩ := Language.mem_mul.mp hw
    rcases List.eq_nil_or_concat' v with rfl | ⟨v, a, rfl⟩
    · rw [List.append_nil] at huv
      exact Or.inr ⟨hv, w, huv ▸ hu⟩
    · rw [← List.append_assoc] at huv
      obtain ⟨_, ha⟩ := List.append_inj' huv rfl
      obtain rfl : a = p := by simpa using ha
      exact Or.inl ⟨v, hv⟩
  · intro h
    rcases h with ⟨v, hv⟩ | ⟨hnil, w, hw⟩
    · obtain ⟨u, hu⟩ := hL
      refine ⟨u ++ v, ?_⟩
      rw [List.append_assoc]
      exact Language.append_mem_mul hu hv
    · refine ⟨w, ?_⟩
      rw [← List.append_nil (w ++ [p])]
      exact Language.append_mem_mul hw hnil

/-- Two neighbours in a composed word stand in one of its parts, or one on each side of the seam. -/
theorem neighbours_append {u v x y : List α} (h : x ++ y = u ++ p :: q :: v) :
    (∃ w, x = u ++ p :: q :: w) ∨ (∃ w, y = w ++ p :: q :: v) ∨ (x = u ++ [p] ∧ y = q :: v) := by
  rcases List.append_eq_append_iff.mp h with ⟨w, _, hy⟩ | ⟨w, hx, hw⟩
  · exact Or.inr (Or.inl ⟨w, hy⟩)
  · match w with
    | [] => exact Or.inr (Or.inl ⟨[], hw.symm⟩)
    | [a] =>
      obtain ⟨rfl, hy⟩ := List.cons.inj hw
      exact Or.inr (Or.inr ⟨hx, hy.symm⟩)
    | a :: b :: w =>
      obtain ⟨rfl, hrest⟩ := List.cons.inj hw
      obtain ⟨rfl, _⟩ := List.cons.inj hrest
      exact Or.inl ⟨w, hx⟩

theorem adjacent_mul (hL : ∃ w, w ∈ L) (hM : ∃ w, w ∈ M) :
    Adjacent (L * M) p q ↔ Adjacent L p q ∨ Adjacent M p q ∨ (Ends L p ∧ Begins M q) := by
  constructor
  · intro h
    obtain ⟨u, v, h⟩ := h
    obtain ⟨x, hx, y, hy, hxy⟩ := Language.mem_mul.mp h
    rcases neighbours_append hxy with ⟨w, rfl⟩ | ⟨w, rfl⟩ | ⟨rfl, rfl⟩
    · exact Or.inl ⟨u, w, hx⟩
    · exact Or.inr (Or.inl ⟨w, v, hy⟩)
    · exact Or.inr (Or.inr ⟨⟨u, hx⟩, v, hy⟩)
  · intro h
    rcases h with ⟨u, v, hx⟩ | ⟨u, v, hy⟩ | ⟨⟨u, hx⟩, v, hy⟩
    · obtain ⟨y, hy⟩ := hM
      exact ⟨u, v ++ y, by simpa using Language.append_mem_mul hx hy⟩
    · obtain ⟨x, hx⟩ := hL
      exact ⟨x ++ u, v, by simpa using Language.append_mem_mul hx hy⟩
    · exact ⟨u, v, by simpa using Language.append_mem_mul hx hy⟩

theorem begins_kstar : Begins L∗ p ↔ Begins L p := by
  constructor
  · intro h
    obtain ⟨w, hw⟩ := h
    obtain ⟨ws, hws, hL⟩ := Language.mem_kstar_iff_exists_nonempty.mp hw
    match ws with
    | [] => cases hws
    | [] :: ws => exact absurd rfl (hL [] List.mem_cons_self).2
    | (a :: u) :: ws =>
      obtain ⟨rfl, _⟩ := List.cons.inj hws
      exact ⟨u, (hL _ List.mem_cons_self).1⟩
  · intro h
    obtain ⟨w, hw⟩ := h
    have hle : L ≤ L∗ := le_kstar
    exact ⟨w, hle hw⟩

theorem ends_kstar : Ends L∗ p ↔ Ends L p := by
  constructor
  · intro h
    obtain ⟨w, hw⟩ := h
    obtain ⟨ws, hws, hL⟩ := Language.mem_kstar_iff_exists_nonempty.mp hw
    rcases List.eq_nil_or_concat' ws with rfl | ⟨ws, x, rfl⟩
    · simp at hws
    · obtain ⟨hx, hne⟩ := hL x (by simp)
      rcases List.eq_nil_or_concat' x with rfl | ⟨u, a, rfl⟩
      · exact absurd rfl hne
      · rw [List.flatten_append, List.flatten_singleton, ← List.append_assoc] at hws
        obtain ⟨_, ha⟩ := List.append_inj' hws rfl
        obtain rfl : p = a := by simpa using ha
        exact ⟨u, hx⟩
  · intro h
    obtain ⟨w, hw⟩ := h
    have hle : L ≤ L∗ := le_kstar
    exact ⟨w, hle hw⟩

theorem adjacent_kstar : Adjacent L∗ p q ↔ Adjacent L p q ∨ (Ends L p ∧ Begins L q) := by
  constructor
  · intro h
    obtain ⟨u, v, h⟩ := h
    obtain ⟨ws, hws, hL⟩ := Language.mem_kstar.mp h
    induction ws generalizing u with
    | nil => simp at hws
    | cons x ws ih =>
      obtain ⟨hx, hrest⟩ := List.forall_mem_cons.mp hL
      have hflat : ws.flatten ∈ L∗ := Language.join_mem_kstar hrest
      rw [List.flatten_cons] at hws
      rcases neighbours_append hws.symm with ⟨w, rfl⟩ | ⟨w, hw⟩ | ⟨rfl, hw⟩
      · exact Or.inl ⟨u, w, hx⟩
      · exact ih w (hw ▸ hflat) hw.symm hrest
      · exact Or.inr ⟨⟨u, hx⟩, begins_kstar.mp ⟨v, hw ▸ hflat⟩⟩
  · intro h
    have hle : L ≤ L∗ := le_kstar
    rcases h with ⟨u, v, h⟩ | ⟨⟨u, hu⟩, v, hv⟩
    · exact ⟨u, v, hle h⟩
    · have hmul : L * L∗ ≤ L∗ := mul_kstar_le_kstar
      have hmem : u ++ [p] ++ q :: v ∈ L∗ := hmul (Language.append_mem_mul hu (hle hv))
      exact ⟨u, v, by simpa using hmem⟩

end Words

namespace Regex

variable {α : Type} {r t : Regex Nat} {p q : Nat}

theorem mem_language_leaf {a : α} {w : List α} : w ∈ (leaf a).language ↔ w = [a] := by
  rw [language_leaf]
  exact Iff.rfl

theorem nullable_iff (r : Regex Nat) : r.attributes.nullable = true ↔ [] ∈ r.language := by
  induction r with
  | epsilon => exact iff_of_true rfl Matches.epsilon
  | leaf a =>
    rw [mem_language_leaf]
    exact iff_of_false Bool.false_ne_true (List.cons_ne_nil a []).symm
  | star r _ => exact iff_of_true rfl Matches.starNil
  | concat l r ihl ihr =>
    rw [attributes, Attributes.concat, Bool.and_eq_true, ihl, ihr, language_concat, Language.mem_mul]
    constructor
    · intro h
      exact ⟨[], h.1, [], h.2, rfl⟩
    · intro h
      obtain ⟨u, hu, v, hv, huv⟩ := h
      obtain ⟨rfl, rfl⟩ := List.append_eq_nil_iff.mp huv
      exact ⟨hu, hv⟩
  | union l r ihl ihr => rw [attributes, Attributes.union, Bool.or_eq_true, ihl, ihr, language_union, Language.mem_add]

theorem mem_first_iff : p ∈ r.attributes.first ↔ Begins r.language p := by
  induction r with
  | epsilon =>
    rw [language_epsilon]
    simp [attributes, Begins, Language.mem_one]
  | leaf a => simp [attributes, Begins, mem_language_leaf]
  | star r ih => rw [language_star, begins_kstar, ← ih, attributes, Attributes.star]
  | concat l r ihl ihr =>
    rw [mem_first_concat, ihl, ihr, nullable_iff, language_concat, begins_mul r.exists_mem_language]
  | union l r ihl ihr => rw [mem_first_union, ihl, ihr, language_union, begins_add]

theorem mem_last_iff : p ∈ r.attributes.last ↔ Ends r.language p := by
  induction r with
  | epsilon =>
    rw [language_epsilon]
    simp [attributes, Ends, Language.mem_one]
  | leaf a => simp [attributes, Ends, mem_language_leaf, List.append_eq_singleton_iff]
  | star r ih => rw [language_star, ends_kstar, ← ih, attributes, Attributes.star]
  | concat l r ihl ihr =>
    rw [mem_last_concat, ihl, ihr, nullable_iff, language_concat, ends_mul l.exists_mem_language]
  | union l r ihl ihr => rw [mem_last_union, ihl, ihr, language_union, ends_add]

theorem mem_follow_iff : q ∈ r.follow p ↔ Adjacent r.language p q := by
  induction r with
  | epsilon =>
    rw [language_epsilon]
    simp [mem_follow, links, Adjacent, Language.mem_one]
  | leaf a => simp [mem_follow, links, Adjacent, mem_language_leaf, List.append_eq_singleton_iff]
  | star r ih => rw [mem_follow_star, ih, mem_last_iff, mem_first_iff, language_star, adjacent_kstar]
  | concat l r ihl ihr =>
    rw [mem_follow_concat, ihl, ihr, mem_last_iff, mem_first_iff, language_concat,
      adjacent_mul l.exists_mem_language r.exists_mem_language]
  | union l r ihl ihr => rw [mem_follow_union, ihl, ihr, language_union, adjacent_add]

end Regex
end PatternAutomata
