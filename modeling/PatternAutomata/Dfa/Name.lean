/-!
# Names of states

States are called `A` to `Z`, then `AA`, `AB` and so on: the numbers from one, written with the
digits `A` = 1 to `Z` = 26 and no zero. `stateName` is the name of a number of any size;
`stateName64` writes the name of a number of 64 bits letter by letter, the last one first.
-/

namespace PatternAutomata.Dfa

set_option autoImplicit false

def capital (k : Nat) : Char := Char.ofNat ('A'.toNat + k)

/-- The name of a state: its last letter counts single states, the letters before it name the
block of 26 states that precedes. -/
def stateName (q : Nat) : List Char :=
  (if q < 26 then [] else stateName (q / 26 - 1)) ++ [capital (q % 26)]
termination_by q
decreasing_by omega

theorem toNat_sub_one {n : UInt64} (hn : n ≠ 0) : (n - 1).toNat + 1 = n.toNat := by
  have hpos : n.toNat ≠ 0 := fun h => hn (UInt64.toNat_inj.mp h)
  have hone : (1 : UInt64) ≤ n := UInt64.le_iff_toNat_le.mpr (Nat.one_le_iff_ne_zero.mpr hpos)
  have hpred : (n - 1).toNat = n.toNat - 1 := UInt64.toNat_sub_of_le n 1 hone
  omega

/-- Puts the letters of a number, counted from one, in front of those that are written already. -/
def writeLetters (n : UInt64) (written : List Char) : List Char :=
  if n = 0 then written else writeLetters ((n - 1) / 26) (capital ((n - 1) % 26).toNat :: written)
termination_by n.toNat
decreasing_by
  have hpred := toNat_sub_one ‹n ≠ 0›
  have hdiv : ((n - 1) / 26).toNat = (n - 1).toNat / 26 := UInt64.toNat_div _ _
  omega

/-- The name of a state whose number has 64 bits. The number behind the greatest of them is zero again,
and zero has no letters. -/
def stateName64 (q : UInt64) : List Char := writeLetters (q + 1) []

end PatternAutomata.Dfa
