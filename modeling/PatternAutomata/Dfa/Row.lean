import PatternAutomata.NatSet

/-!
# Rows of a transition table

A row holds at most one target for each symbol, in ascending order of the symbols, so rows with the
same targets are the same value (`Row.ext_get?`).
-/

namespace PatternAutomata

set_option autoImplicit false

/-- The symbols are characters, in the order of their code points; nothing else about them is used. -/
structure Row where
  toList : List (Char × Nat)
  ascending : toList.Pairwise fun a b => a.1.toNat < b.1.toNat
deriving DecidableEq

namespace Row

theorem ext_toList {r s : Row} (h : r.toList = s.toList) : r = s := by
  cases r
  cases s
  simp_all

def empty : Row := ⟨[], .nil⟩

def get? (r : Row) (c : Char) : Option Nat := r.toList.lookup c

def insertList (c : Char) (t : Nat) : List (Char × Nat) → List (Char × Nat)
  | [] => [(c, t)]
  | e :: es =>
    if c.toNat < e.1.toNat then (c, t) :: e :: es
    else if e.1.toNat < c.toNat then e :: insertList c t es
    else (c, t) :: es

theorem mem_insertList {c : Char} {t : Nat} {e : Char × Nat} {es : List (Char × Nat)}
    (h : e ∈ insertList c t es) : e = (c, t) ∨ e ∈ es := by
  induction es with
  | nil => exact Or.inl (by simpa [insertList] using h)
  | cons d ds ih =>
    rw [insertList] at h
    split at h
    · exact List.mem_cons.mp h
    · split at h
      · rcases List.mem_cons.mp h with rfl | m
        · exact Or.inr List.mem_cons_self
        · exact (ih m).imp_right (List.mem_cons_of_mem _)
      · exact (List.mem_cons.mp h).imp_right (List.mem_cons_of_mem _)

theorem ascending_insertList (c : Char) (t : Nat) {es : List (Char × Nat)}
    (h : es.Pairwise fun a b => a.1.toNat < b.1.toNat) :
    (insertList c t es).Pairwise fun a b => a.1.toNat < b.1.toNat := by
  induction es with
  | nil => exact List.pairwise_singleton _ _
  | cons d ds ih =>
    obtain ⟨h0, h1⟩ := List.pairwise_cons.mp h
    rw [insertList]
    split
    · rename_i hc
      apply List.pairwise_cons.mpr
      refine ⟨?_, h⟩
      intro e he
      rcases List.mem_cons.mp he with rfl | m
      · exact hc
      · exact Nat.lt_trans hc (h0 e m)
    · split
      · rename_i hd
        apply List.pairwise_cons.mpr
        refine ⟨?_, ih h1⟩
        intro e he
        rcases mem_insertList he with rfl | m
        · exact hd
        · exact h0 e m
      · apply List.pairwise_cons.mpr
        refine ⟨?_, h1⟩
        intro e he
        have he := h0 e he
        show c.toNat < e.1.toNat
        omega

def insert (r : Row) (c : Char) (t : Nat) : Row := ⟨insertList c t r.toList, ascending_insertList c t r.ascending⟩

theorem lookup_cons_ite (c d : Char) (t : Nat) (es : List (Char × Nat)) :
    ((d, t) :: es).lookup c = if c = d then some t else es.lookup c := by
  by_cases h : c = d
  · simp [h]
  · simp [List.lookup_cons, beq_eq_false_iff_ne.mpr h, h]

theorem lookup_insertList (c d : Char) (t : Nat) (es : List (Char × Nat)) :
    (insertList c t es).lookup d = if d = c then some t else es.lookup d := by
  induction es with
  | nil => rw [insertList, lookup_cons_ite]
  | cons e es ih =>
    obtain ⟨b, u⟩ := e
    rw [insertList]
    split
    · rw [lookup_cons_ite]
    · split
      · rename_i hb
        rw [lookup_cons_ite, lookup_cons_ite, ih]
        by_cases h : d = b
        · subst h
          have hne : d ≠ c := fun he => by subst he; exact Nat.lt_irrefl _ hb
          simp [hne]
        · simp [h]
      · rename_i h0 h1
        have hbc : b = c := Char.toNat_inj.mp (Nat.le_antisymm (Nat.not_lt.mp h0) (Nat.not_lt.mp h1))
        rw [lookup_cons_ite, lookup_cons_ite, hbc]
        by_cases h : d = c <;> simp [h]

@[simp] theorem get?_insert (r : Row) (c d : Char) (t : Nat) :
    (r.insert c t).get? d = if d = c then some t else r.get? d := lookup_insertList c d t r.toList

/-- The row of a list of entries; the first entry for a symbol counts. -/
def ofList (es : List (Char × Nat)) : Row := es.foldr (fun e r => r.insert e.1 e.2) empty

@[simp] theorem get?_ofList (es : List (Char × Nat)) (c : Char) : (ofList es).get? c = es.lookup c := by
  induction es with
  | nil => rfl
  | cons e es ih =>
    obtain ⟨d, t⟩ := e
    have h : ofList ((d, t) :: es) = (ofList es).insert d t := rfl
    rw [h, get?_insert, ih, lookup_cons_ite]

def tabulate (alphabet : List Char) (f : Char → Option Nat) : Row :=
  ofList (alphabet.filterMap fun c => (f c).map fun t => (c, t))

theorem get?_tabulate (alphabet : List Char) (f : Char → Option Nat) (c : Char) :
    (tabulate alphabet f).get? c = if c ∈ alphabet then f c else none := by
  rw [tabulate, get?_ofList]
  induction alphabet with
  | nil => rfl
  | cons d ds ih =>
    rw [List.filterMap_cons]
    by_cases h : c = d
    · subst h
      cases hf : f c with
      | none => simp [ih, hf]
      | some t => simp
    · cases hf : f d with
      | none => simp [ih, h]
      | some t => simp [lookup_cons_ite, ih, h]

def restrict (r : Row) (s : NatSet) : Row := ⟨r.toList.filter fun e => decide (e.2 ∈ s), r.ascending.filter _⟩

def targets (r : Row) : List Nat := r.toList.map Prod.snd

theorem mem_iff_lookup {es : List (Char × Nat)} (h : es.Pairwise fun a b => a.1.toNat < b.1.toNat)
    {c : Char} {t : Nat} : (c, t) ∈ es ↔ es.lookup c = some t := by
  induction es with
  | nil => simp
  | cons e es ih =>
    obtain ⟨d, u⟩ := e
    obtain ⟨h0, h1⟩ := List.pairwise_cons.mp h
    rw [List.mem_cons, ih h1, lookup_cons_ite]
    by_cases hc : c = d
    · subst hc
      have hnone : es.lookup c ≠ some t := fun hl => Nat.lt_irrefl _ (h0 (c, t) ((ih h1).mpr hl))
      simp [hnone, eq_comm]
    · simp [hc]

theorem mem_toList_iff {r : Row} {c : Char} {t : Nat} : (c, t) ∈ r.toList ↔ r.get? c = some t :=
  mem_iff_lookup r.ascending

theorem ext_get? {r s : Row} (h : ∀ c, r.get? c = s.get? c) : r = s := by
  refine ext_toList ?_
  have hmem : ∀ e, e ∈ r.toList ↔ e ∈ s.toList := fun ⟨c, t⟩ => by
    rw [mem_toList_iff, mem_toList_iff, h c]
  have hr := r.ascending
  have hs := s.ascending
  have hnr : r.toList.Nodup := hr.imp fun {a b} hab he => by subst he; exact Nat.lt_irrefl _ hab
  have hns : s.toList.Nodup := hs.imp fun {a b} hab he => by subst he; exact Nat.lt_irrefl _ hab
  have hp : r.toList.Perm s.toList := (List.perm_ext_iff_of_nodup hnr hns).mpr hmem
  exact hp.eq_of_pairwise (fun a b _ _ hab hba => by omega) hr hs

end Row
end PatternAutomata
