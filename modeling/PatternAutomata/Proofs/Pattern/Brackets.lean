import Mathlib.Data.List.Induction

/-!
# Brackets

Some members of a list open something that others close, each of these the last that is still open. They are
paired off if nowhere more has been closed than opened and nothing is open in the end. A list may stand behind
a number of open brackets.
-/

namespace PatternAutomata

set_option autoImplicit false

/-- Which values open and which close; none does both. -/
structure Brackets (α : Type) where
  opens : α → Bool
  closes : α → Bool
  disjoint : ∀ x, opens x = true → closes x = false

namespace Brackets

variable {α : Type} (b : Brackets α)

/-- Behind `n` open brackets, nowhere more are closed than are open. -/
def Covered (n : Nat) (xs : List α) : Prop := ∀ us, us <+: xs → us.countP b.closes ≤ n + us.countP b.opens

/-- Behind `n` open brackets, nowhere more are closed than are open, and in the end none is open. -/
structure Closes (n : Nat) (xs : List α) : Prop where
  covered : b.Covered n xs
  count_eq : xs.countP b.closes = n + xs.countP b.opens

variable {b} {n m : Nat} {x : α} {xs us vs : List α}

theorem opens_eq_false (hx : b.closes x = true) : b.opens x = false := by
  cases h : b.opens x with
  | false => rfl
  | true => exact absurd ((b.disjoint x h).symm.trans hx) Bool.false_ne_true

theorem countP_closing (hx : b.closes x = true) : [x].countP b.closes = 1 ∧ [x].countP b.opens = 0 := by
  simp [hx, opens_eq_false hx]

theorem covered_nil : b.Covered n [] := by
  intro us hus
  rw [List.prefix_nil.mp hus]
  exact Nat.zero_le n

theorem closes_nil : b.Closes n [] ↔ n = 0 := by
  constructor
  · intro h
    exact h.count_eq.symm
  · intro h
    exact ⟨covered_nil, h.symm⟩

/-- One member turns `n` open brackets into `m`. -/
theorem closes_cons (h : m + [x].countP b.closes = n + [x].countP b.opens) :
    b.Closes n (x :: xs) ↔ b.Closes m xs := by
  have hcount : ∀ (p : α → Bool) (us : List α), (x :: us).countP p = [x].countP p + us.countP p := by
    intro p us
    rw [← List.countP_append, List.singleton_append]
  constructor
  · intro hs
    refine ⟨?_, ?_⟩
    · intro us hus
      have hle := hs.covered (x :: us) (List.cons_prefix_cons.mpr ⟨rfl, hus⟩)
      rw [hcount b.closes us, hcount b.opens us] at hle
      omega
    · have heq := hs.count_eq
      rw [hcount b.closes xs, hcount b.opens xs] at heq
      omega
  · intro hs
    refine ⟨?_, ?_⟩
    · intro us hus
      rcases List.prefix_cons_iff.mp hus with rfl | ⟨ws, rfl, hws⟩
      · exact Nat.zero_le _
      · have hle := hs.covered ws hws
        rw [hcount b.closes ws, hcount b.opens ws]
        omega
    · have heq := hs.count_eq
      rw [hcount b.closes xs, hcount b.opens xs]
      omega

theorem closes_cons_opening (hx : b.opens x = true) : b.Closes n (x :: xs) ↔ b.Closes (n + 1) xs :=
  closes_cons (by simp [hx, b.disjoint x hx])

theorem closes_cons_closing (hx : b.closes x = true) : b.Closes (n + 1) (x :: xs) ↔ b.Closes n xs :=
  closes_cons (by simp [hx, opens_eq_false hx])

theorem closes_cons_other (hopening : b.opens x = false) (hclosing : b.closes x = false) :
    b.Closes n (x :: xs) ↔ b.Closes n xs :=
  closes_cons (by simp [hopening, hclosing])

theorem Covered.count_le (hxs : b.Covered n xs) : xs.countP b.closes ≤ n + xs.countP b.opens :=
  hxs xs (List.prefix_refl xs)

theorem Covered.concat (hxs : b.Covered n xs) (hx : (xs ++ [x]).countP b.closes ≤ n + (xs ++ [x]).countP b.opens) :
    b.Covered n (xs ++ [x]) := by
  intro us hus
  rcases List.prefix_concat_iff.mp hus with rfl | hus
  · exact hx
  · exact hxs us hus

theorem Covered.append (hus : b.Covered n us) (hvs : b.Covered m vs) : b.Covered (n + m) (us ++ vs) := by
  intro ws hws
  rcases List.prefix_or_prefix_of_prefix hws (List.prefix_append us vs) with h | ⟨zs, rfl⟩
  · have := hus ws h
    omega
  · have hbefore := hus.count_le
    have hbehind := hvs zs ((List.prefix_append_right_inj us).mp hws)
    rw [List.countP_append, List.countP_append]
    omega

theorem Covered.opening (hxs : b.Covered n xs) (hx : b.opens x = true) : b.Covered n (x :: xs) := by
  intro us hus
  rcases List.prefix_cons_iff.mp hus with rfl | ⟨ws, rfl, hws⟩
  · exact Nat.zero_le _
  · have hle := hxs ws hws
    rw [List.countP_cons_of_pos hx, List.countP_cons_of_neg (Bool.eq_false_iff.mp (b.disjoint x hx))]
    omega

theorem Closes.append (hus : b.Closes n us) (hvs : b.Closes m vs) : b.Closes (n + m) (us ++ vs) where
  covered := hus.covered.append hvs.covered
  count_eq := by
    rw [List.countP_append, List.countP_append, hus.count_eq, hvs.count_eq]
    omega

/-- Behind a list that leaves nothing open there is one closing bracket too many. -/
theorem Closes.not_covered (hus : b.Closes n us) (hx : b.closes x = true) : ¬ b.Covered n (us ++ x :: vs) := by
  intro h
  have hle := h (us ++ [x]) ⟨vs, by simp⟩
  have hcount := hus.count_eq
  rw [List.countP_append, List.countP_append, (countP_closing hx).1, (countP_closing hx).2] at hle
  omega

/-- Where everything is closed, what is opened is closed behind it. -/
theorem Closes.not_covered_behind (h : b.Closes n (us ++ x :: vs)) (hx : b.opens x = true) : ¬ b.Covered 0 vs := by
  intro hvs
  have hbefore := h.covered us (List.prefix_append us _)
  have hbehind := hvs.count_le
  have hcount := h.count_eq
  rw [List.countP_append, List.countP_append, List.countP_cons_of_pos hx,
    List.countP_cons_of_neg (Bool.eq_false_iff.mp (b.disjoint x hx))] at hcount
  omega

/-- If more is closed than is open, the first closing bracket that is one too many stands behind a list that leaves
nothing open. -/
theorem exists_closing_of_not_covered (h : ¬ b.Covered n xs) :
    ∃ us x vs, xs = us ++ x :: vs ∧ b.closes x = true ∧ b.Closes n us := by
  -- by the last member: one of those before it is too many already, or it is the first
  induction xs using List.reverseRecOn with
  | nil => exact absurd covered_nil h
  | append_singleton xs x ih =>
    by_cases hxs : b.Covered n xs
    · have hlt : n + (xs ++ [x]).countP b.opens < (xs ++ [x]).countP b.closes := by
        by_contra hle
        exact h (hxs.concat (Nat.not_lt.mp hle))
      have hle := hxs.count_le
      rw [List.countP_append, List.countP_append] at hlt
      cases hx : b.closes x with
      | true =>
        rw [(countP_closing hx).1, (countP_closing hx).2] at hlt
        exact ⟨xs, x, [], rfl, hx, hxs, by omega⟩
      | false =>
        have hnone : [x].countP b.closes = 0 := by simp [hx]
        omega
    · obtain ⟨us, y, vs, rfl, hy, hus⟩ := ih hxs
      exact ⟨us, y, vs ++ [x], by simp, hy, hus⟩

end Brackets
end PatternAutomata
