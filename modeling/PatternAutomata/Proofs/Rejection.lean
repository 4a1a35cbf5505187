import Mathlib.Computability.Language
import Mathlib.Order.WellFounded
import PatternAutomata.Machine

/-!
# Runs that reject as early as possible

A word is viable for a language if it can be continued to a word of it. No run can reject in front of
the shortest prefix that is not viable. A machine in which words are accepted from all states it comes
to rejects right there, so all its runs are determined by its language (`Run.Earliest.eq`).
-/

namespace PatternAutomata

set_option autoImplicit false

def Viable (L : Language Char) (u : List Char) : Prop := ∃ v, u ++ v ∈ L

/-- What a run on `w` tells if it accepts the words of a language and stops as soon as its prefix is not
viable. -/
structure Run.Earliest (L : Language Char) (w : List Char) (r : Run) : Prop where
  accepted : r.accepted = true ↔ w ∈ L
  read_whole : (∀ u, u <+: w → Viable L u) → r.read = w.length
  read_shortest : ∀ u, u <+: w → ¬ Viable L u → (∀ v, v <+: w → ¬ Viable L v → u.length ≤ v.length) →
    r.read = u.length

theorem Run.Earliest.eq {L : Language Char} {w : List Char} {r r' : Run} (h : r.Earliest L w)
    (h' : r'.Earliest L w) : r = r' := by
  have haccepted : r.accepted = r'.accepted := Bool.eq_iff_iff.mpr (h.accepted.trans h'.accepted.symm)
  have hread : r.read = r'.read := by
    by_cases hall : ∀ u, u <+: w → Viable L u
    · rw [h.read_whole hall, h'.read_whole hall]
    · simp only [not_forall] at hall
      obtain ⟨u, hu, hviable⟩ := hall
      obtain ⟨v, ⟨hv, hdead⟩, hmin⟩ := (measure List.length).wf.has_min {u | u <+: w ∧ ¬ Viable L u}
        ⟨u, hu, hviable⟩
      have hshortest : ∀ x, x <+: w → ¬ Viable L x → v.length ≤ x.length :=
        fun x hx hdead => Nat.not_lt.mp (hmin x ⟨hx, hdead⟩)
      rw [h.read_shortest v hv hdead hshortest, h'.read_shortest v hv hdead hshortest]
  cases r
  cases r'
  simp_all

namespace Machine

variable {σ : Type} {m : Machine σ} {P : σ → Prop} {s t : σ} {c : Char} {u w : List Char}

/-- The words that are accepted from a state. -/
def words (m : Machine σ) (s : σ) : Language Char := {w | (m.walk s w).any m.accepts = true}

theorem cons_mem_words : c :: w ∈ m.words s ↔ ∃ t, m.next s c = some t ∧ w ∈ m.words t := by
  change (m.walk s (c :: w)).any m.accepts = true ↔ _
  rw [walk_cons]
  cases m.next s c with
  | none => simp
  | some t =>
    simp only [Option.bind_some, Option.some.injEq, exists_eq_left']
    exact Iff.rfl

theorem viable_cons_iff : Viable (m.words s) (c :: u) ↔ ∃ t, m.next s c = some t ∧ Viable (m.words t) u := by
  constructor
  · intro h
    obtain ⟨v, hv⟩ := h
    obtain ⟨t, ht, hv⟩ := cons_mem_words.mp hv
    exact ⟨t, ht, v, hv⟩
  · intro h
    obtain ⟨t, ht, v, hv⟩ := h
    exact ⟨v, cons_mem_words.mpr ⟨t, ht, hv⟩⟩

theorem earliest_cons_none (hs : Viable (m.words s) []) (hc : m.next s c = none) :
    (Run.mk false 1).Earliest (m.words s) (c :: w) := by
  have hdead : ¬ Viable (m.words s) [c] := by
    intro h
    obtain ⟨t, ht, _⟩ := viable_cons_iff.mp h
    rw [hc] at ht
    cases ht
  have hinit : [c] <+: c :: w := ⟨w, rfl⟩
  refine ⟨?_, ?_, ?_⟩
  · simp [cons_mem_words, hc]
  · intro hall
    exact absurd (hall [c] hinit) hdead
  · intro u _ hu hmin
    have hle : u.length ≤ 1 := hmin [c] hinit hdead
    cases u with
    | nil => exact absurd hs hu
    | cons d u =>
      rw [List.length_cons] at hle ⊢
      change 1 = u.length + 1
      omega

theorem earliest_cons_some {r : Run} (hs : Viable (m.words s) []) (hc : m.next s c = some t)
    (hr : r.Earliest (m.words t) w) : (Run.mk r.accepted (r.read + 1)).Earliest (m.words s) (c :: w) := by
  have hviable : ∀ u, Viable (m.words s) (c :: u) ↔ Viable (m.words t) u := by
    intro u
    simp [viable_cons_iff, hc]
  have hinit : ∀ {u}, u <+: w → c :: u <+: c :: w := fun hu => List.cons_prefix_cons.mpr ⟨rfl, hu⟩
  refine ⟨?_, ?_, ?_⟩
  · simpa [cons_mem_words, hc] using hr.accepted
  · intro hall
    have hwhole := hr.read_whole fun u hu => (hviable u).mp (hall _ (hinit hu))
    rw [hwhole, List.length_cons]
  · intro u hu hdead hmin
    cases u with
    | nil => exact absurd hs hdead
    | cons d u =>
      obtain ⟨rfl, hrest⟩ := List.cons_prefix_cons.mp hu
      rw [hviable] at hdead
      have hshortest := hr.read_shortest u hrest hdead fun v hv hvdead =>
        Nat.le_of_succ_le_succ (hmin _ (hinit hv) fun h => hvdead ((hviable v).mp h))
      rw [hshortest, List.length_cons]

/-- Where a word is accepted from every state with a property that steps keep, runs reject as early as
possible. -/
theorem runFrom_earliest (hword : ∀ s, P s → ∃ w, w ∈ m.words s)
    (hkeep : ∀ s c t, P s → m.next s c = some t → P t) (hs : P s) (w : List Char) :
    (m.runFrom s w).Earliest (m.words s) w := by
  induction w generalizing s with
  | nil =>
    refine ⟨Iff.rfl, fun _ => rfl, ?_⟩
    intro u hu _ _
    rw [List.prefix_nil.mp hu]
    rfl
  | cons c w ih =>
    have hviable : Viable (m.words s) [] := hword s hs
    rw [runFrom]
    cases hc : m.next s c with
    | none => exact earliest_cons_none hviable hc
    | some t => exact earliest_cons_some hviable hc (ih (hkeep s c t hs hc))

end Machine
end PatternAutomata
