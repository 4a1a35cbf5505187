import Mathlib.Data.List.Induction
import PatternAutomata.Dfa.Name
import PatternAutomata.Proofs.WordOrder

/-!
# Reading names

A name consists of capital letters. Its value, in which the letters count from one, is the number of
the state counted from one, so states with the same name are the same state. The names of the states
are all words of capital letters but the empty one, in their order.
-/

namespace PatternAutomata.Dfa

set_option autoImplicit false

def letterValue (c : Char) : Nat := c.toNat - 'A'.toNat + 1

theorem capital_isUpper : ∀ k, k < 26 → (capital k).isUpper = true := by decide

theorem letterValue_capital : ∀ k, k < 26 → letterValue (capital k) = k + 1 := by decide

theorem toNat_capital : ∀ k, k < 26 → (capital k).toNat = 'A'.toNat + k := by decide

theorem capital_lt_capital {i j : Nat} (hij : i < j) (hj : j < 26) : (capital i).toNat < (capital j).toNat := by
  rw [toNat_capital i (Nat.lt_trans hij hj), toNat_capital j hj]
  exact Nat.add_lt_add_left hij _

theorem exists_capital {c : Char} (hc : c.isUpper = true) :
    ∃ k, k < 26 ∧ letterValue c = k + 1 ∧ capital k = c := by
  have hbounds : 'A'.val ≤ c.val ∧ c.val ≤ 'Z'.val := of_decide_eq_true hc
  have hA : 'A'.toNat ≤ c.toNat := UInt32.le_iff_toNat_le.mp hbounds.1
  have hZ : c.toNat ≤ 'A'.toNat + 25 := UInt32.le_iff_toNat_le.mp hbounds.2
  refine ⟨c.toNat - 'A'.toNat, by omega, rfl, ?_⟩
  rw [capital, Nat.add_sub_cancel' hA, Char.ofNat_toNat]

/-- The value of a name, its last letter being worth the least. -/
def nameValue (cs : List Char) : Nat := cs.foldl (fun n c => 26 * n + letterValue c) 0

theorem nameValue_concat (cs : List Char) (c : Char) : nameValue (cs ++ [c]) = 26 * nameValue cs + letterValue c := by
  rw [nameValue, nameValue, List.foldl_append, List.foldl_cons, List.foldl_nil]

theorem isUpper_of_mem_stateName (q : Nat) : ∀ c ∈ stateName q, c.isUpper = true := by
  induction q using stateName.induct with
  | case1 q ih =>
    intro c hc
    rw [stateName] at hc
    rcases List.mem_append.mp hc with h | h
    · split at h
      · cases h
      · rename_i hq
        exact ih hq c h
    · rw [List.mem_singleton.mp h]
      exact capital_isUpper _ (Nat.mod_lt q (by decide))

theorem nameValue_stateName (q : Nat) : nameValue (stateName q) = q + 1 := by
  induction q using stateName.induct with
  | case1 q ih =>
    rw [stateName, nameValue_concat, letterValue_capital _ (Nat.mod_lt q (by decide))]
    split
    · rename_i hq
      rw [Nat.mod_eq_of_lt hq]
      simp [nameValue]
    · rename_i hq
      rw [ih hq]
      omega

theorem stateName_injective {p q : Nat} (h : stateName p = stateName q) : p = q := by
  have hv := congrArg nameValue h
  rw [nameValue_stateName, nameValue_stateName] at hv
  exact Nat.succ.inj hv

theorem stateName_of_lt {q : Nat} (hq : q < 26) : stateName q = [capital q] := by
  rw [stateName, if_pos hq, Nat.mod_eq_of_lt hq, List.nil_append]

theorem stateName_of_le {q : Nat} (hq : 26 ≤ q) : stateName q = stateName (q / 26 - 1) ++ [capital (q % 26)] := by
  rw [stateName, if_neg (Nat.not_lt.mpr hq)]

theorem stateName_ne_nil (q : Nat) : stateName q ≠ [] := by
  rw [stateName]
  simp

theorem stateName_precedes_of_div_eq {p q : Nat} (hpq : p < q) (hdiv : p / 26 = q / 26) :
    Precedes (stateName p) (stateName q) := by
  have hlast : (capital (p % 26)).toNat < (capital (q % 26)).toNat :=
    capital_lt_capital (by omega) (Nat.mod_lt q (by decide))
  by_cases hq : q < 26
  · have hp : p < 26 := Nat.lt_trans hpq hq
    rw [Nat.mod_eq_of_lt hp, Nat.mod_eq_of_lt hq] at hlast
    rw [stateName_of_lt hp, stateName_of_lt hq]
    exact Precedes.concat_of_lt [] hlast
  · rw [stateName_of_le (q := p) (by omega), stateName_of_le (Nat.le_of_not_lt hq), hdiv]
    exact Precedes.concat_of_lt _ hlast

theorem stateName_precedes {p q : Nat} (hpq : p < q) : Precedes (stateName p) (stateName q) := by
  induction q using stateName.induct generalizing p with
  | case1 q ih =>
    by_cases hdiv : p / 26 = q / 26
    · exact stateName_precedes_of_div_eq hpq hdiv
    · have hq : 26 ≤ q := by omega
      rw [stateName_of_le hq]
      by_cases hp : p < 26
      · -- a single letter stands before all longer names
        rw [stateName_of_lt hp]
        apply List.Shortlex.of_length_lt
        have := List.length_pos_iff.mpr (stateName_ne_nil (q / 26 - 1))
        simp only [List.length_append, List.length_singleton]
        omega
      · rw [stateName_of_le (Nat.le_of_not_lt hp)]
        exact Precedes.concat (ih (Nat.not_lt.mpr hq) (by omega))

theorem stateName_of_nameValue {cs : List Char} (hne : cs ≠ []) (hcs : ∀ c ∈ cs, c.isUpper = true) :
    stateName (nameValue cs - 1) = cs := by
  induction cs using List.reverseRecOn with
  | nil => exact absurd rfl hne
  | append_singleton cs c ih =>
    obtain ⟨k, hk, hvalue, rfl⟩ := exists_capital (hcs c (by simp))
    rw [nameValue_concat, hvalue]
    by_cases hnil : cs = []
    · subst hnil
      have hindex : 26 * nameValue [] + (k + 1) - 1 = k := by simp [nameValue]
      rw [hindex, stateName_of_lt hk, List.nil_append]
    · have hfront := ih hnil fun c hc => hcs c (List.mem_append_left _ hc)
      have hpos : nameValue cs ≠ 0 := by
        intro hzero
        have := nameValue_stateName (nameValue cs - 1)
        rw [hfront] at this
        omega
      have hdiv : (26 * nameValue cs + (k + 1) - 1) / 26 = nameValue cs := by omega
      have hmod : (26 * nameValue cs + (k + 1) - 1) % 26 = k := by omega
      rw [stateName_of_le (by omega), hdiv, hmod, hfront]

theorem writeLetters_of_ne_zero {n : UInt64} (hn : n ≠ 0) (written : List Char) :
    writeLetters n written = stateName (n.toNat - 1) ++ written := by
  induction n, written using writeLetters.induct with
  | case1 n => exact absurd rfl hn
  | case2 n written _ ih =>
    have hpred := toNat_sub_one hn
    have hdiv : ((n - 1) / 26).toNat = (n - 1).toNat / 26 := UInt64.toNat_div _ _
    have hmod : ((n - 1) % 26).toNat = (n - 1).toNat % 26 := UInt64.toNat_mod _ _
    have hindex : n.toNat - 1 = (n - 1).toNat := by omega
    rw [writeLetters, if_neg hn, hmod, hindex]
    by_cases hzero : (n - 1) / 26 = 0
    · have hsmall : (n - 1).toNat < 26 := by
        rw [hzero] at hdiv
        have : (0 : UInt64).toNat = 0 := rfl
        omega
      rw [hzero, writeLetters, if_pos rfl, stateName_of_lt hsmall, Nat.mod_eq_of_lt hsmall]
      rfl
    · have hlarge : 26 ≤ (n - 1).toNat := by
        apply Nat.le_of_not_lt
        intro hlt
        apply hzero
        apply UInt64.toNat_inj.mp
        rw [hdiv, Nat.div_eq_of_lt hlt]
        rfl
      rw [hmod, hdiv] at ih
      rw [ih hzero, stateName_of_le hlarge, List.append_assoc]
      rfl

theorem stateName64_eq {q : UInt64} (hq : q.toNat < 2 ^ 64 - 1) : stateName64 q = stateName q.toNat := by
  have hsucc : (q + 1).toNat = q.toNat + 1 := by
    rw [UInt64.toNat_add]
    exact Nat.mod_eq_of_lt (Nat.succ_lt_of_lt_pred hq)
  have hne : q + 1 ≠ 0 := by
    intro hzero
    rw [hzero] at hsucc
    exact absurd hsucc.symm (Nat.succ_ne_zero _)
  rw [stateName64, writeLetters_of_ne_zero hne, hsucc, List.append_nil, Nat.add_sub_cancel]

/-- The names of the states are the words of capital letters but for the empty one, in their order: a state
with a smaller number has a name that is shorter, or as long and smaller at the first difference, and
no word is left out, since the state of a name can be read off its value. Below the greatest number of 64
bits, this is how names are written in 64 bits. -/
theorem stateName_enumerates :
    (∀ q, stateName q ≠ [] ∧ (∀ c ∈ stateName q, c.isUpper = true) ∧ nameValue (stateName q) = q + 1) ∧
      ((∀ p q, p < q → Precedes (stateName p) (stateName q)) ∧ Function.Injective stateName) ∧
      (∀ cs, cs ≠ [] → (∀ c ∈ cs, c.isUpper = true) → stateName (nameValue cs - 1) = cs) ∧
      ∀ q : UInt64, q.toNat < 2 ^ 64 - 1 → stateName64 q = stateName q.toNat := by
  refine ⟨?_, ⟨fun p q => stateName_precedes, fun p q => stateName_injective⟩,
    fun cs => stateName_of_nameValue, fun q => stateName64_eq⟩
  intro q
  exact ⟨stateName_ne_nil q, isUpper_of_mem_stateName q, nameValue_stateName q⟩

end PatternAutomata.Dfa
